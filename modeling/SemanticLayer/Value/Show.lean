import SemanticLayer.Decimal.Shortest
import SemanticLayer.Value.Basic

/-!
# The text of a value

A value on its own is written plainly; inside a list or a map, and where a message asks for it,
texts stand in quotes.  The quote is `'`, unless the text holds `'` and no `"`.
-/

namespace SemanticLayer

namespace Text

def hexPadded (width n : Nat) : List Char :=
  let ds := Nat.toDigits 16 n
  List.replicate (width - ds.length) '0' ++ ds

def unprintable : List (Nat × Nat) :=
  [(0x00, 0x1F), (0x7F, 0xA0), (0xAD, 0xAD), (0x600, 0x605), (0x61C, 0x61C), (0x6DD, 0x6DD),
   (0x70F, 0x70F), (0x1680, 0x1680), (0x180E, 0x180E), (0x2000, 0x200F), (0x2028, 0x202F),
   (0x205F, 0x206F), (0x3000, 0x3000), (0xE000, 0xF8FF), (0xFEFF, 0xFEFF), (0xFFF0, 0xFFFB),
   (0xE0000, 0x10FFFF)]

def quoteChar (quote c : Char) : List Char :=
  if c == quote || c == '\\' then ['\\', c]
  else if c == '\n' then ['\\', 'n']
  else if c == '\r' then ['\\', 'r']
  else if c == '\t' then ['\\', 't']
  else if unprintable.any (fun (lo, hi) => lo ≤ c.toNat && c.toNat ≤ hi) then
    if c.toNat < 0x100 then '\\' :: 'x' :: hexPadded 2 c.toNat
    else if c.toNat < 0x10000 then '\\' :: 'u' :: hexPadded 4 c.toNat
    else '\\' :: 'U' :: hexPadded 8 c.toNat
  else [c]

def quoted (s : String) : String :=
  let cs := s.toList
  let quote := if cs.contains '\'' && !cs.contains '"' then '"' else '\''
  String.ofList (quote :: cs.flatMap (quoteChar quote) ++ [quote])

end Text

namespace Moment

def quoted (t : Moment) : String :=
  let base := [t.date.year.toNat, t.date.month, t.date.day, t.hour, t.minute]
  let extra := if t.micro != 0 then [t.second, t.micro]
    else if t.second != 0 then [t.second] else []
  let zone := match t.offset with
    | none => ""
    | some 0 => ", tzinfo=datetime.timezone.utc"
    | some o =>
      let days := if o < 0 then "days=-1, seconds=" ++ toString (86400 + o)
        else "seconds=" ++ toString o
      ", tzinfo=datetime.timezone(datetime.timedelta(" ++ days ++ "))"
  "datetime.datetime(" ++ Text.join ", " ((base ++ extra).map toString) ++ zone ++ ")"

end Moment

namespace Value

mutual

def quoted : Value → String
  | .null => "None"
  | .bool true => "True"
  | .bool false => "False"
  | .int n => toString n
  | .real x => x.toText
  | .text s => Text.quoted s
  | .list items => "[" ++ Text.join ", " (quotedItems items) ++ "]"
  | .map entries => "\x7b" ++ Text.join ", " (quotedEntries entries) ++ "\x7d"
  | .moment t => t.quoted
  | .sql s => s

def quotedItems : List Value → List String
  | [] => []
  | v :: vs => quoted v :: quotedItems vs

def quotedEntries : List (String × Value) → List String
  | [] => []
  | (k, v) :: rest => (Text.quoted k ++ ": " ++ quoted v) :: quotedEntries rest

end

def plain : Value → String
  | .text s => s
  | .moment t => t.isoWith " "
  | v => v.quoted

def typeName : Value → String
  | .null => "<class 'NoneType'>"
  | .bool _ => "<class 'bool'>"
  | .int _ => "<class 'int'>"
  | .real _ => "<class 'float'>"
  | .list _ => "<class 'list'>"
  | .map _ => "<class 'dict'>"
  | .moment _ => "<class 'datetime.datetime'>"
  | .text _ | .sql _ => "<class 'str'>"

end Value

end SemanticLayer
