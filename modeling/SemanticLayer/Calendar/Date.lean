/-!
# Dates

Days of the Gregorian calendar, also before its introduction.  A day has a number: day 1 is
0001-01-01, a Monday.  Dates of the years 1 to 9999 can be written; arithmetic that leaves them
fails.
-/

namespace SemanticLayer

structure Date where
  year : Int
  month : Nat
  day : Nat
  deriving DecidableEq, Repr, Inhabited

inductive DateError where
  /-- The year is not one of 1 to 9999. -/
  | year
  /-- The day lies outside the calendar, or is too many days away. -/
  | day
  deriving DecidableEq, Repr

namespace Date

def isLeap (y : Int) : Bool := y % 4 == 0 && (y % 100 != 0 || y % 400 == 0)

def monthLengths : List Nat := [31, 28, 31, 30, 31, 30, 31, 31, 30, 31, 30, 31]

def daysInMonth (y : Int) (m : Nat) : Nat :=
  if m == 2 && isLeap y then 29 else monthLengths.getD (m - 1) 30

def daysBeforeMonth (y : Int) (m : Nat) : Nat :=
  (List.range (m - 1)).foldl (fun n i => n + daysInMonth y (i + 1)) 0

def daysBeforeYear (y : Int) : Int :=
  let p := y - 1
  365 * p + p / 4 - p / 100 + p / 400

def toOrdinal (d : Date) : Int :=
  daysBeforeYear d.year + Int.ofNat (daysBeforeMonth d.year d.month) + Int.ofNat d.day

/-- The date of a day number, by the count of days since the first of March of a year divisible
by 400. -/
def ofOrdinal (n : Int) : Date :=
  let z := n + 305
  let era := z / 146097
  let dayOfEra := z % 146097
  let yearOfEra :=
    (dayOfEra - dayOfEra / 1460 + dayOfEra / 36524 - dayOfEra / 146096) / 365
  let dayOfYear := dayOfEra - (365 * yearOfEra + yearOfEra / 4 - yearOfEra / 100)
  let shifted := (5 * dayOfYear + 2) / 153
  let day := dayOfYear - (153 * shifted + 2) / 5 + 1
  let month := if shifted < 10 then shifted + 3 else shifted - 9
  let year := yearOfEra + era * 400 + (if month ≤ 2 then 1 else 0)
  ⟨year, month.toNat, day.toNat⟩

def weekday (d : Date) : Nat := (d.toOrdinal % 7).toNat

def quarter (d : Date) : Nat := (d.month + 2) / 3

def inRange (y : Int) : Bool := 1 ≤ y && y ≤ 9999

/-- Whether the three numbers name a day of the years 1 to 9999. -/
def isValid (d : Date) : Bool :=
  inRange d.year && 1 ≤ d.month && d.month ≤ 12 && 1 ≤ d.day && d.day ≤ daysInMonth d.year d.month

def lastOrdinal : Int := 3652059

def addDays (d : Date) (n : Int) : Except DateError Date :=
  let target := d.toOrdinal + n
  if 1 ≤ target && target ≤ lastOrdinal then .ok (ofOrdinal target) else .error .day

/-- `n` months later; the day is clamped to the length of the month. -/
def addMonths (d : Date) (n : Int) : Except DateError Date :=
  let index := d.year * 12 + Int.ofNat (d.month - 1) + n
  let year := index / 12
  let month := (index % 12).toNat + 1
  if inRange year then .ok ⟨year, month, min (daysInMonth year month) d.day⟩ else .error .year

end Date

end SemanticLayer
