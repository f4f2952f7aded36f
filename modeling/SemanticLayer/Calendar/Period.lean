import SemanticLayer.Calendar.Zone
import SemanticLayer.Error

/-!
# Periods

Days, weeks, months, quarters and years around a date.  A week begins on a chosen weekday.  A
period starts at midnight of its first day and ends one second before the next midnight; only the
end of a quarter is midnight of its last day.
-/

namespace SemanticLayer

inductive Interval where
  | unknown
  | day
  | week
  | month
  | quarter
  | year
  deriving DecidableEq, Repr

namespace Interval

def all : List Interval := [.unknown, .day, .week, .month, .quarter, .year]

def word : Interval → String
  | .unknown => "unknown"
  | .day => "day"
  | .week => "week"
  | .month => "month"
  | .quarter => "quarter"
  | .year => "year"

def words : List (String × Interval) :=
  all.flatMap fun i => [(i.word, i), (i.word ++ "s", i)]

def label : Interval → String
  | .unknown => "UNKNOWN"
  | i => i.word

def singularPlural (v : Value) : Result (String × String) :=
  match v with
  | .text s =>
    match Text.last? s with
    | none => malformed .outOfRange
    | some 's' => .ok (Text.dropRight (Text.lower s) 1, Text.lower s)
    | some _ => .ok (Text.lower s, Text.lower s ++ "s")
  | .list _ => malformed .noAttribute
  | _ => malformed .wrongType

def plural (v : Value) : Result String := (singularPlural v).map (·.2)

def singular (v : Value) : Result String := (singularPlural v).map (·.1)

def parse (v : Value) : Result Interval :=
  match v with
  | .text s => .ok (((words.find? (·.1 == s)).map (·.2)).getD .unknown)
  | .list _ | .map _ => malformed .wrongType
  | _ => .ok .unknown

end Interval

namespace Date

def shift (d : Date) (unit : Interval) (n : Int) : Except DateError Date :=
  match unit with
  | .unknown => .ok d
  | .day => d.addDays n
  | .week => d.addDays (7 * n)
  | .month => d.addMonths n
  | .quarter => d.addMonths (3 * n)
  | .year => d.addMonths (12 * n)

def daysIntoWeek (d : Date) (weekStart : Nat) : Int :=
  (d.toOrdinal - Int.ofNat weekStart) % 7

def firstOf (d : Date) (unit : Interval) (weekStart : Nat) : Except DateError Date :=
  match unit with
  | .unknown | .day => .ok d
  | .week => d.addDays (-(d.daysIntoWeek weekStart))
  | .month => .ok { d with day := 1 }
  | .quarter => .ok ⟨d.year, d.quarter * 3 - 2, 1⟩
  | .year => .ok ⟨d.year, 1, 1⟩

def lastOf (d : Date) (unit : Interval) (weekStart : Nat) : Except DateError Date :=
  match unit with
  | .unknown | .day => .ok d
  | .week => d.addDays (6 - d.daysIntoWeek weekStart)
  | .month => .ok { d with day := daysInMonth d.year d.month }
  | .quarter => .ok ⟨d.year, d.quarter * 3, daysInMonth d.year (d.quarter * 3)⟩
  | .year => .ok ⟨d.year, 12, 31⟩

end Date

def Moment.startOfDay (d : Date) : Moment := { date := d }

def Moment.endOfDay (d : Date) : Moment := { date := d, hour := 23, minute := 59, second := 59 }

def Moment.endOfPeriod (unit : Interval) (d : Date) : Moment :=
  if unit == .quarter then .startOfDay d else .endOfDay d

end SemanticLayer
