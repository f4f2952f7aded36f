import SemanticLayer.Value.Show

/-!
# JSON

Reading keeps the order of keys, and of a repeated key the last value.  A number with a fraction
or an exponent is a double, any other an integer.  Writing escapes all but ASCII.
-/

namespace SemanticLayer.Json

/-! ### Reading -/

def isSpace (c : Char) : Bool := c == ' ' || c == '\n' || c == '\r' || c == '\t'

def skip (cs : List Char) : List Char := cs.dropWhile isSpace

def hexValue? (c : Char) : Option Nat :=
  if c.isDigit then some (c.toNat - 48)
  else if 'a' ≤ c && c ≤ 'f' then some (c.toNat - 87)
  else if 'A' ≤ c && c ≤ 'F' then some (c.toNat - 55)
  else none

def hex4? : List Char → Option (Nat × List Char)
  | a :: b :: c :: d :: rest => do
    let n := ((← hexValue? a) * 16 + (← hexValue? b)) * 256
    some (n + (← hexValue? c) * 16 + (← hexValue? d), rest)
  | _ => none

def escape? : List Char → Option (Char × List Char)
  | 'n' :: cs => some ('\n', cs)
  | 't' :: cs => some ('\t', cs)
  | 'r' :: cs => some ('\r', cs)
  | 'b' :: cs => some (Char.ofNat 8, cs)
  | 'f' :: cs => some (Char.ofNat 12, cs)
  | '"' :: cs => some ('"', cs)
  | '\\' :: cs => some ('\\', cs)
  | '/' :: cs => some ('/', cs)
  | 'u' :: cs => do
    let (hi, rest) ← hex4? cs
    if 0xD800 ≤ hi && hi < 0xDC00 then
      match rest with
      | '\\' :: 'u' :: more =>
        let (lo, rest') ← hex4? more
        if 0xDC00 ≤ lo && lo < 0xE000 then
          some (Char.ofNat (0x10000 + (hi - 0xD800) * 1024 + (lo - 0xDC00)), rest')
        else some (Char.ofNat 0xFFFD, rest)
      | _ => some (Char.ofNat 0xFFFD, rest)
    else if 0xDC00 ≤ hi && hi < 0xE000 then some (Char.ofNat 0xFFFD, rest)
    else some (Char.ofNat hi, rest)
  | _ => none

def text? : Nat → List Char → List Char → Option (String × List Char)
  | 0, _, _ => none
  | _ + 1, _, [] => none
  | n + 1, acc, c :: cs =>
    if c == '"' then some (String.ofList acc.reverse, cs)
    else if c == '\\' then
      match escape? cs with
      | some (d, rest) => text? n (d :: acc) rest
      | none => none
    else text? n (c :: acc) cs

def fraction? : List Char → Option (List Char) × List Char
  | '.' :: cs =>
    let ds := cs.takeWhile Char.isDigit
    if ds.isEmpty then (none, '.' :: cs) else (some ds, cs.dropWhile Char.isDigit)
  | cs => (none, cs)

def power? (cs : List Char) : Option Int × List Char :=
  match cs with
  | c :: rest =>
    if c == 'e' || c == 'E' then
      let (negative, more) : Bool × List Char := match rest with
        | '-' :: more => (true, more)
        | '+' :: more => (false, more)
        | more => (false, more)
      let ds := more.takeWhile Char.isDigit
      if ds.isEmpty then (none, cs)
      else
        let n := Int.ofNat (Text.digitsValue ds)
        (some (if negative then -n else n), more.dropWhile Char.isDigit)
    else (none, cs)
  | [] => (none, [])

def number? (cs : List Char) : Option (Value × List Char) :=
  let (negative, cs) : Bool × List Char := match cs with
    | '-' :: rest => (true, rest)
    | rest => (false, rest)
  let whole := cs.takeWhile Char.isDigit
  let rest := cs.dropWhile Char.isDigit
  if whole.isEmpty || (whole.length != 1 && whole.head? == some '0') then none
  else
    let (frac, rest) := fraction? rest
    let (power, rest) := power? rest
    if frac.isNone && power.isNone then
      let n := Int.ofNat (Text.digitsValue whole)
      some (.int (if negative then -n else n), rest)
    else
      let ds := whole ++ frac.getD []
      let shift := power.getD 0 - Int.ofNat (frac.getD []).length
      some (.real (Double.ofDecimal negative (Text.digitsValue ds) shift), rest)

def word? (w : String) (v : Value) (cs : List Char) : Option (Value × List Char) :=
  if w.toList.isPrefixOf cs then some (v, cs.drop w.length) else none

def scalar? (cs : List Char) : Option (Value × List Char) :=
  word? "null" .null cs <|> word? "true" (.bool true) cs <|> word? "false" (.bool false) cs
    <|> word? "NaN" (.real .nan) cs <|> word? "Infinity" (.real (.infinite false)) cs
    <|> word? "-Infinity" (.real (.infinite true)) cs <|> number? cs

mutual

/-- One value at the start of the text; the first argument bounds the nesting and length. -/
def value? : Nat → List Char → Option (Value × List Char)
  | 0, _ => none
  | n + 1, cs =>
    match skip cs with
    | '"' :: rest => (text? (n + 1) [] rest).map fun (s, r) => (.text s, r)
    | '[' :: rest =>
      match skip rest with
      | ']' :: more => some (.list [], more)
      | _ => (items? n [] rest).map fun (vs, r) => (.list vs, r)
    | '\x7b' :: rest =>
      match skip rest with
      | '\x7d' :: more => some (.map [], more)
      | _ => (entries? n [] rest).map fun (d, r) => (.map d, r)
    | other => scalar? other

def items? : Nat → List Value → List Char → Option (List Value × List Char)
  | 0, _, _ => none
  | n + 1, acc, cs =>
    match value? n cs with
    | some (v, rest) =>
      match skip rest with
      | ',' :: more => items? n (v :: acc) more
      | ']' :: more => some ((v :: acc).reverse, more)
      | _ => none
    | none => none

def entries? : Nat → Definition → List Char → Option (Definition × List Char)
  | 0, _, _ => none
  | n + 1, acc, cs =>
    match skip cs with
    | '"' :: rest =>
      match text? (n + 1) [] rest with
      | some (key, rest) =>
        match skip rest with
        | ':' :: rest =>
          match value? n rest with
          | some (v, rest) =>
            let acc := (key, v) :: acc
            match skip rest with
            | ',' :: more => entries? n acc more
            | '\x7d' :: more =>
              let d : Definition := acc.reverse
              some (if d.keys.eraseDups.length == d.length then d else Definition.merge [] d, more)
            | _ => none
          | none => none
        | _ => none
      | none => none
    | _ => none

end

def parse? (s : String) : Option Value :=
  let cs := s.toList
  match value? (2 * cs.length + 2) cs with
  | some (v, rest) => if (skip rest).isEmpty then some v else none
  | none => none

/-! ### Writing -/

def unit16 (n : Nat) : List Char := '\\' :: 'u' :: Text.hexPadded 4 n

def escapeChar (c : Char) : List Char :=
  if c == '"' || c == '\\' then ['\\', c]
  else if c == '\n' then ['\\', 'n']
  else if c == '\r' then ['\\', 'r']
  else if c == '\t' then ['\\', 't']
  else if c.toNat == 8 then ['\\', 'b']
  else if c.toNat == 12 then ['\\', 'f']
  else if 0x20 ≤ c.toNat && c.toNat < 0x7F then [c]
  else if c.toNat < 0x10000 then unit16 c.toNat
  else
    let n := c.toNat - 0x10000
    unit16 (0xD800 + n / 1024) ++ unit16 (0xDC00 + n % 1024)

def renderText (s : String) : String :=
  String.ofList ('"' :: s.toList.flatMap escapeChar ++ ['"'])

mutual

def render : Value → String
  | .null => "null"
  | .bool b => if b then "true" else "false"
  | .int n => toString n
  | .real .nan => "NaN"
  | .real (.infinite negative) => if negative then "-Infinity" else "Infinity"
  | .real x => x.toText
  | .text s => renderText s
  | .list items => "[" ++ Text.join ", " (renderItems items) ++ "]"
  | .map entries => "\x7b" ++ Text.join ", " (renderEntries entries) ++ "\x7d"
  | .moment t => renderText t.iso
  | .sql s => renderText s

def renderItems : List Value → List String
  | [] => []
  | v :: vs => render v :: renderItems vs

def renderEntries : List (String × Value) → List String
  | [] => []
  | (k, v) :: rest => (renderText k ++ ": " ++ render v) :: renderEntries rest

end

mutual

def sortKeys : Value → Value
  | .list items => .list (sortItems items)
  | .map entries => .map ((sortEntries entries).mergeSort fun a b => a.1 ≤ b.1)
  | v => v

def sortItems : List Value → List Value
  | [] => []
  | v :: vs => sortKeys v :: sortItems vs

def sortEntries : List (String × Value) → List (String × Value)
  | [] => []
  | (k, v) :: rest => (k, sortKeys v) :: sortEntries rest

end

end SemanticLayer.Json
