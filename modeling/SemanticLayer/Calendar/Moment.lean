import SemanticLayer.Text.Unicode
import SemanticLayer.Text.Basic
import SemanticLayer.Calendar.Date

/-!
# Moments

A date with a time of day, and possibly the offset of a zone from universal time.  Moments are
read and written in the ISO form `2021-01-31T08:30:00`.
-/

namespace SemanticLayer

structure Moment where
  date : Date
  hour : Nat := 0
  minute : Nat := 0
  second : Nat := 0
  micro : Nat := 0
  offset : Option Int := none
  deriving DecidableEq, Repr, Inhabited

namespace Moment

def secondOfDay (t : Moment) : Nat := t.hour * 3600 + t.minute * 60 + t.second

def atSecond (d : Date) (seconds : Nat) : Moment :=
  { date := d, hour := seconds / 3600, minute := seconds / 60 % 60, second := seconds % 60 }

/-- Seconds from the start of day 0 to the moment, read as universal time unless it has an
offset. -/
def toSeconds (t : Moment) : Int :=
  t.date.toOrdinal * 86400 + Int.ofNat t.secondOfDay - t.offset.getD 0

/-! ### Writing -/

def clock (t : Moment) : String :=
  Text.padNat 2 t.hour ++ ":" ++ Text.padNat 2 t.minute ++ ":" ++ Text.padNat 2 t.second

def offsetText (seconds : Int) : String :=
  let n := seconds.natAbs
  (if seconds < 0 then "-" else "+") ++ Text.padNat 2 (n / 3600) ++ ":"
    ++ Text.padNat 2 (n / 60 % 60)

def dateText (t : Moment) : String :=
  Text.padNat 4 t.date.year.toNat ++ "-" ++ Text.padNat 2 t.date.month ++ "-"
    ++ Text.padNat 2 t.date.day

def isoWith (divider : String) (t : Moment) : String :=
  t.dateText ++ divider ++ t.clock
    ++ (if t.micro = 0 then "" else "." ++ Text.padNat 6 t.micro)
    ++ (match t.offset with
      | some o => offsetText o
      | none => "")

def iso (t : Moment) : String := isoWith "T" t

def wall (t : Moment) : String :=
  toString t.date.year ++ "-" ++ Text.padNat 2 t.date.month ++ "-" ++ Text.padNat 2 t.date.day
    ++ "T" ++ t.clock

/-! ### Reading -/

def digits? (n : Nat) (cs : List Char) : Option (Nat × List Char) :=
  let front := cs.take n
  if front.length == n && front.all Char.isDigit then some (Text.digitsValue front, cs.drop n)
  else none

def literal? (c : Char) : List Char → Option (List Char)
  | d :: rest => if c == d then some rest else none
  | [] => none

def date? (cs : List Char) : Option (Date × List Char) := do
  let (y, cs) ← digits? 4 cs
  let cs ← literal? '-' cs
  let (m, cs) ← digits? 2 cs
  let cs ← literal? '-' cs
  let (d, cs) ← digits? 2 cs
  let date : Date := ⟨Int.ofNat y, m, d⟩
  if date.isValid then some (date, cs) else none

def offset? : List Char → Option (Option Int)
  | [] => some none
  | ['Z'] => some (some 0)
  | c :: cs => do
    let sign : Int ← if c == '+' then some 1 else if c == '-' then some (-1) else none
    let (h, cs) ← digits? 2 cs
    let cs := match cs with
      | ':' :: rest => rest
      | other => other
    let (m, cs) ← digits? 2 cs
    if cs.isEmpty then some (some (sign * Int.ofNat (h * 3600 + m * 60))) else none

def fraction (cs : List Char) : Nat × List Char :=
  match cs with
  | '.' :: rest =>
    let ds := rest.takeWhile Char.isDigit
    let six := (ds ++ List.replicate 6 '0').take 6
    (Text.digitsValue six, rest.dropWhile Char.isDigit)
  | other => (0, other)

def ofIso? (s : String) : Option Moment := do
  let (date, cs) ← date? s.toList
  match cs with
  | [] => some { date := date }
  | _ :: cs =>
    let (h, cs) ← digits? 2 cs
    let cs ← literal? ':' cs
    let (m, cs) ← digits? 2 cs
    let (sec, cs) := match cs with
      | ':' :: rest => (digits? 2 rest).getD (0, rest)
      | other => (0, other)
    let (micro, cs) := fraction cs
    let off ← offset? cs
    if h < 24 && m < 60 && sec < 60 then
      some { date := date, hour := h, minute := m, second := sec, micro := micro, offset := off }
    else none

end Moment

end SemanticLayer
