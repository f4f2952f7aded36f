import SemanticLayer.Value.Basic

/-!
# Numerals

A text of digits alone is an integer and has to fit into 64 bits.  A point or an exponent makes it a
double: at most 17 digits are gathered, rounding at every step, and then scaled once by a power of
ten.
-/

namespace SemanticLayer.Numeral

structure Parts where
  negative : Bool
  digits : List Nat
  power : Int
  whole : Bool

def isSpace (c : Char) : Bool := c == ' ' || (9 ≤ c.toNat && c.toNat ≤ 13)

def digitOf (c : Char) : Nat := c.toNat - 48

def limit : Nat := 17

def exponent? (cs : List Char) : Option (Int × List Char) :=
  match cs with
  | c :: rest =>
    if c == 'e' || c == 'E' then
      let (negative, more) : Bool × List Char := match rest with
        | '-' :: more => (true, more)
        | '+' :: more => (false, more)
        | more => (false, more)
      let ds := (more.takeWhile Char.isDigit).take limit
      if ds.isEmpty then none
      else
        let n := Int.ofNat (Text.digitsValue ds)
        some (if negative then -n else n, more.drop ds.length)
    else none
  | [] => none

def scan? (s : String) : Option Parts :=
  let cs := s.toList.dropWhile isSpace
  let (negative, cs) : Bool × List Char := match cs with
    | '-' :: rest => (true, rest)
    | '+' :: rest => (false, rest)
    | rest => (false, rest)
  let front := cs.takeWhile Char.isDigit
  let rest := cs.dropWhile Char.isDigit
  let kept := front.take limit
  let (decimals, rest, point) : List Char × List Char × Bool := match rest with
    | '.' :: more =>
      ((more.takeWhile Char.isDigit).take (limit - kept.length), more.dropWhile Char.isDigit, true)
    | more => ([], more, false)
  let digits := (kept ++ decimals).map digitOf
  let power := Int.ofNat (front.length - kept.length) - Int.ofNat decimals.length
  if digits.isEmpty then none
  else
    let (shift, rest, marked) : Int × List Char × Bool := match exponent? rest with
      | some (n, more) => (n, more, true)
      | none => (0, rest, false)
    if (rest.dropWhile isSpace).isEmpty then
      some { negative := negative, digits := digits, power := power + shift,
             whole := !point && !marked }
    else none

def round53 (n : Nat) : Nat :=
  if n < Nat.pow 2 53 then n
  else
    let k := n.log2 - 52
    Double.roundQuotient n (Nat.pow 2 k) * Nat.pow 2 k

def gather (digits : List Nat) : Nat :=
  digits.foldl (fun n d => round53 (round53 (n * 10) + d)) 0

def partsOf : Double → Nat × Int
  | .finite _ m e => (m, e)
  | _ => (0, 0)

def divideByPower (negative : Bool) (x : Nat × Int) (k : Nat) : Double :=
  let (m, e) := x
  let (pm, pe) := partsOf (Double.ofQuotient false (Nat.pow 10 k) 1)
  let e := e - pe
  if 0 ≤ e then Double.ofQuotient negative (m * Nat.pow 2 e.toNat) pm
  else Double.ofQuotient negative m (pm * Nat.pow 2 (-e).toNat)

def scale? (negative : Bool) (n : Nat) (power : Int) : Option Double :=
  if 308 < power then none
  else
    let result :=
      if 0 < power then
        let (pm, pe) := partsOf (Double.ofQuotient false (Nat.pow 10 power.toNat) 1)
        if 0 ≤ pe then Double.ofQuotient negative (n * pm * Nat.pow 2 pe.toNat) 1
        else Double.ofQuotient negative (n * pm) (Nat.pow 2 (-pe).toNat)
      else if power < -308 then
        let first := divideByPower negative (n, 0) (min 308 (-308 - power).toNat)
        divideByPower negative (partsOf first) 308
      else divideByPower negative (n, 0) (-power).toNat
    match result with
    | .infinite _ => none
    | x => some x

def infinity? (s : String) : Option Double :=
  let t := Text.lower s
  if t == "inf" || t == "+inf" || t == "infinity" || t == "+infinity" then some (.infinite false)
  else if t == "-inf" || t == "-infinity" then some (.infinite true)
  else none

def read? (s : String) : Option Value :=
  if s.isEmpty then some (.real .nan)
  else match scan? s with
    | some p =>
      match scale? p.negative (gather p.digits) p.power with
      | some x =>
        if p.whole then
          let digits := (s.toList.filter Char.isDigit)
          let n := Int.ofNat (Text.digitsValue digits)
          let n := if p.negative then -n else n
          if -(Nat.pow 2 63) ≤ n && n < Nat.pow 2 64 then some (.int n) else none
        else some (.real x)
      | none => none
    | none => (infinity? s).map .real

end SemanticLayer.Numeral
