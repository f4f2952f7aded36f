import SemanticLayer.Text.Basic
import SemanticLayer.Decimal.Double

/-!
# The fewest digits that read back

A finite double `m · 2 ^ e` is the nearest double to every number in an interval around it, ends
included when `m` is even.  For 1, 2, … 17 digits the two neighbours of the number on that decimal
grid are tested; the first in the interval wins, and of two the nearer.
-/

namespace SemanticLayer.Double

def interval (m : Nat) (e : Int) : Nat × Nat × Nat × Nat :=
  let wide := m == Nat.pow 2 52 && leastExponent < e
  let unit : Nat := if wide then 1 else 2
  let (num, den) : Nat × Nat :=
    if 0 ≤ e then (Nat.pow 2 e.toNat, 4) else (1, 4 * Nat.pow 2 (-e).toNat)
  ((4 * m - unit) * num, 4 * m * num, (4 * m + 2) * num, den)

def pointOf (num den : Nat) : Int :=
  let d := Int.ofNat (Nat.toDigits 10 num).length - Int.ofNat (Nat.toDigits 10 den).length
  let atLeast := fun k : Int =>
    if 0 ≤ k then den * Nat.pow 10 k.toNat ≤ num else den ≤ num * Nat.pow 10 (-k).toNat
  if atLeast d then d + 1 else d

def onGrid? (lo num hi den : Nat) (closed : Bool) (point : Int) (n : Nat) : Option Nat :=
  let shift := point - Int.ofNat n
  let (up, down) : Nat × Nat :=
    if 0 ≤ shift then (1, Nat.pow 10 shift.toNat) else (Nat.pow 10 (-shift).toNat, 1)
  let unit := den * down
  let below := num * up / unit
  let inside := fun d : Nat =>
    let x := d * unit
    if closed then lo * up ≤ x && x ≤ hi * up else lo * up < x && x < hi * up
  match inside below, inside (below + 1) with
  | true, true =>
    let left := num * up - below * unit
    let right := (below + 1) * unit - num * up
    some (if left < right then below
      else if right < left then below + 1
      else if below % 2 = 0 then below else below + 1)
  | true, false => some below
  | false, true => some (below + 1)
  | false, false => none

def shortest (m : Nat) (e : Int) : List Char × Int :=
  let (lo, num, hi, den) := interval m e
  let point := pointOf num den
  let hit := (List.range 17).findSome? fun i =>
    (onGrid? lo num hi den (m % 2 == 0) point (i + 1)).map fun d => (i + 1, Nat.toDigits 10 d)
  match hit with
  | some (n, digits) =>
    ((digits.reverse.dropWhile (· == '0')).reverse, point + (Int.ofNat digits.length - Int.ofNat n))
  | none => (Nat.toDigits 10 num, point)

/-- Numbers are written positionally while the point stands at most 16 places behind the first
digit or 3 zeros in front of it, else with an exponent of at least two digits. -/
def showFinite (negative : Bool) (m : Nat) (e : Int) : String :=
  let sign := if negative then "-" else ""
  if m = 0 then sign ++ "0.0"
  else
    let (digits, point) := shortest m e
    let n := Int.ofNat digits.length
    let body : List Char :=
      if -4 < point && point ≤ 16 then
        if point ≤ 0 then
          ['0', '.'] ++ List.replicate (-point).toNat '0' ++ digits
        else if n ≤ point then
          digits ++ List.replicate (point - n).toNat '0' ++ ['.', '0']
        else digits.take point.toNat ++ ['.'] ++ digits.drop point.toNat
      else
        let power := point - 1
        let mantissa := match digits with
          | [d] => [d]
          | d :: rest => d :: '.' :: rest
          | [] => []
        let mark := if power < 0 then "e-" else "e+"
        mantissa ++ mark.toList ++ (Text.padNat 2 power.natAbs).toList
    sign ++ String.ofList body

def toText : Double → String
  | .nan => "nan"
  | .infinite false => "inf"
  | .infinite true => "-inf"
  | .finite negative m e => showFinite negative m e

end SemanticLayer.Double
