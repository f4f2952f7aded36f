/-!
# Double-precision numbers

A finite double is `± mantissa · 2 ^ exponent`: the mantissa has 53 bits, or the exponent is the
least one, `-1074`, and the mantissa is shorter.  A decimal is read by rounding the exact quotient
to nearest, a tie going to the even mantissa.
-/

namespace SemanticLayer

inductive Double where
  | nan
  | infinite (negative : Bool)
  | finite (negative : Bool) (mantissa : Nat) (exponent : Int)
  deriving DecidableEq, Repr, Inhabited

namespace Double

def leastExponent : Int := -1074

def greatestExponent : Int := 971

def zero (negative : Bool) : Double := .finite negative 0 leastExponent

def roundQuotient (num den : Nat) : Nat :=
  let q := num / den
  let r := num % den
  if 2 * r < den then q
  else if den < 2 * r then q + 1
  else if q % 2 = 0 then q else q + 1

def scaled (num den : Nat) (e : Int) : Nat :=
  if 0 ≤ e then roundQuotient num (den * Nat.pow 2 e.toNat)
  else roundQuotient (num * Nat.pow 2 (-e).toNat) den

def ofQuotient (negative : Bool) (num den : Nat) : Double :=
  if num = 0 then zero negative
  else
    let guess : Int := Int.ofNat num.log2 - Int.ofNat den.log2 - 52
    let least := max leastExponent (guess - 1)
    let e := if scaled num den least < Nat.pow 2 53 then least else least + 1
    let m := scaled num den e
    if m < Nat.pow 2 53 then
      if greatestExponent < e then .infinite negative else .finite negative m e
    else if greatestExponent < e + 1 then .infinite negative
    else .finite negative (m / 2) (e + 1)

def ofDecimal (negative : Bool) (digits : Nat) (power : Int) : Double :=
  if digits = 0 then zero negative
  else
    let magnitude := power + Int.ofNat (Nat.toDigits 10 digits).length
    if 310 < magnitude then .infinite negative
    else if magnitude < -330 then zero negative
    else if 0 ≤ power then ofQuotient negative (digits * Nat.pow 10 power.toNat) 1
    else ofQuotient negative digits (Nat.pow 10 (-power).toNat)

def equalsInt : Double → Int → Bool
  | .finite negative m e, n =>
    let signed : Int := if negative then -(Int.ofNat m) else Int.ofNat m
    if 0 ≤ e then signed * Nat.pow 2 e.toNat == n else signed == n * Nat.pow 2 (-e).toNat
  | _, _ => false

def ltNat : Double → Nat → Bool
  | .nan, _ => false
  | .infinite negative, _ => negative
  | .finite true m _, n => 0 < m || 0 < n
  | .finite false m e, n =>
    if 0 ≤ e then m * Nat.pow 2 e.toNat < n else m < n * Nat.pow 2 (-e).toNat

def equals : Double → Double → Bool
  | .nan, _ => false
  | _, .nan => false
  | .finite _ 0 _, .finite _ 0 _ => true
  | x, y => x == y

end Double

end SemanticLayer
