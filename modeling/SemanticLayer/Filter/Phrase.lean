import SemanticLayer.Calendar.Period
import SemanticLayer.Filter.Expression

/-!
# Date phrases

Filters name periods relative to the current instant: `today`, `3 days ago`, `last week`, `this
month to date`, `2 weeks ago for 1 week`.  A phrase is searched anywhere in a text, the most
specific form first.  Its meaning is a range of wall time in a zone.
-/

namespace SemanticLayer

inductive Count where
  | this
  | last
  | number (n : Nat)
  deriving DecidableEq, Repr

inductive Modifier where
  | ago
  | toDate
  | agoToDate
  | openEnded (isToDate : Bool)
  deriving DecidableEq, Repr

inductive Phrase where
  | today
  | yesterday
  | agoFor (n : Nat) (unit : Interval) (m : Nat) (span : Interval)
  | modified (count : Option Count) (unit : Interval) (modifier : Modifier)
  | recent (count : Count) (unit : Interval)
  deriving DecidableEq, Repr

namespace Phrase

/-! ### Reading -/

def number? (cs : List Char) : Option (Nat × List Char) :=
  let ds := cs.takeWhile Text.isDigit
  if ds.isEmpty then none else some (Text.digitsValue ds, cs.dropWhile Text.isDigit)

def blanks? (cs : List Char) : Option (List Char) :=
  match cs with
  | c :: rest => if Text.isBlank c then some (rest.dropWhile Text.isBlank) else none
  | [] => none

def word? (w : String) (cs : List Char) : Option (List Char) :=
  if w.toList.isPrefixOf cs then some (cs.drop w.toList.length) else none

def units (cs : List Char) : List (Interval × List Char) :=
  Interval.words.filterMap fun (w, i) => (word? w cs).map fun rest => (i, rest)

def agoForAt? (cs : List Char) : Option Phrase := do
  let (n, cs) ← number? cs
  let cs ← blanks? cs
  (units cs).findSome? fun (unit, cs) => do
    let cs ← blanks? cs
    let cs ← word? "ago" cs
    let cs ← blanks? cs
    let cs ← word? "for" cs
    let cs ← blanks? cs
    let (m, cs) ← number? cs
    let cs ← blanks? cs
    let (span, _) ← (units cs).head?
    some (.agoFor n unit m span)

def toDate? (cs : List Char) : Option (Bool × List Char) := do
  let cs ← word? "to" cs
  let after ← blanks? cs
  let rest ← word? "date" after
  some (word? " date" cs == some rest, rest)

def modifier? (cs : List Char) : Option Modifier :=
  let agoToDate : Option Modifier := do
    let cs ← word? "ago" cs
    let after ← blanks? cs
    let (tight, _) ← toDate? after
    some (if tight && word? " " cs == some after then .agoToDate else .openEnded false)
  let ago : Option Modifier := (word? "ago" cs).map fun _ => .ago
  let toDate : Option Modifier :=
    (toDate? cs).map fun (tight, _) => if tight then .toDate else .openEnded true
  agoToDate <|> ago <|> toDate

def counts (cs : List Char) : List (Option Count × List Char) :=
  let numbered : List (Option Count × List Char) := match number? cs with
    | some (n, rest) => [(some (.number n), rest)]
    | none => []
  let named (w : String) (c : Count) : List (Option Count × List Char) := match word? w cs with
    | some rest => [(some c, rest)]
    | none => []
  numbered ++ named "this" .this ++ named "last" .last

def modifiedAt? (cs : List Char) : Option Phrase :=
  let counted := (counts cs).filterMap fun (c, rest) => (blanks? rest).map fun r => (c, r)
  (counted ++ [(none, cs)]).findSome? fun (count, cs) =>
    (units cs).findSome? fun (unit, cs) => do
      let cs ← blanks? cs
      let m ← modifier? cs
      some (.modified count unit m)

def recentAt? (cs : List Char) : Option Phrase :=
  (counts cs).findSome? fun (count, rest) => do
    let c ← count
    let rest ← blanks? rest
    let (unit, _) ← (units rest).head?
    some (.recent c unit)

def search (f : List Char → Option Phrase) : List Char → Option Phrase
  | [] => f []
  | c :: cs => (f (c :: cs)).orElse fun _ => search f cs

def read? (s : String) : Option Phrase :=
  if s == "today" then some .today
  else if s == "yesterday" then some .yesterday
  else
    let cs := s.toList
    search agoForAt? cs <|> search modifiedAt? cs <|> search recentAt? cs

end Phrase

/-! ### Meaning -/

/-- The current instant, seen from a zone with its own start of the week. -/
structure Clock where
  instant : Int
  zone : Zone
  weekStart : Nat

namespace Clock

def ofDateError : DateError → Error
  | .year => .malformed .badValue
  | .day => .malformed .overflow

def today (c : Clock) : Date := (c.zone.wallOf c.instant).date

/-- Dates are reached by counting `n` units; the unit `unknown` counts nothing. -/
def reach (d : Date) (unit : Interval) (n : Int) : Result Date :=
  if unit == .unknown then malformed .wrongType else (d.shift unit n).mapError ofDateError

def first (c : Clock) (d : Date) (unit : Interval) : Result Date :=
  (d.firstOf unit c.weekStart).mapError ofDateError

def last (c : Clock) (d : Date) (unit : Interval) : Result Date :=
  (d.lastOf unit c.weekStart).mapError ofDateError

def startDate (c : Clock) (lag : Int) (unit : Interval) : Result Date := do
  c.first (← reach c.today unit (-lag)) unit

def endMoment (c : Clock) (lag : Int) (unit : Interval) : Result Moment := do
  let d ← c.last (← reach c.today unit (-lag)) unit
  return .endOfPeriod unit d

def endAfter (c : Clock) (d : Date) (lag : Int) (unit : Interval) : Result Moment := do
  let e ← c.last (← reach d unit lag) unit
  return .endOfPeriod unit e

def elapsedDays (c : Clock) (unit : Interval) : Result Int := do
  let start ← c.startDate 0 unit
  return (c.instant - c.zone.midnight start) / 86400

end Clock

namespace Phrase

structure Range where
  start : Moment
  stop : Option Moment
  deriving DecidableEq, Repr

def lagOf (count : Option Count) (modifier : Modifier) : Int :=
  match count with
  | none | some .this => 0
  | some .last => 1
  | some (.number n) => if modifier == .toDate then Int.ofNat n - 1 else Int.ofNat n

def period (c : Clock) (startLag endLag : Int) (unit : Interval) : Result Range := do
  let start ← c.startDate startLag unit
  let stop ← c.endMoment endLag unit
  return ⟨.startOfDay start, some stop⟩

def range (c : Clock) : Phrase → Result Range
  | .today => period c 0 0 .day
  | .yesterday => period c 1 1 .day
  | .agoFor n unit m span => do
    let start ← c.startDate (Int.ofNat n) unit
    let stop ← c.endAfter start (Int.ofNat m - 1) span
    return ⟨.startOfDay start, some stop⟩
  | .modified count unit modifier => do
    let lag := lagOf count modifier
    let start ← c.startDate lag unit
    match modifier with
    | .toDate | .agoToDate =>
      let days ← c.elapsedDays unit
      let stop ← c.endAfter start (if 0 < days then days - 1 else 0) .day
      return ⟨.startOfDay start, some stop⟩
    | .ago =>
      let stop ← c.endMoment lag unit
      return ⟨.startOfDay start, some stop⟩
    | .openEnded _ => return ⟨.startOfDay start, none⟩
  | .recent count unit =>
    match count with
    | .this => period c 0 0 unit
    | .last => period c 1 1 unit
    | .number n => period c (Int.ofNat n - 1) 0 unit

def Range.bounds (r : Range) : List (Expression × Value) :=
  (.greaterOrEqualThan, .text r.start.wall)
    :: (match r.stop with
      | some t => [(.lessOrEqualThan, .text t.wall)]
      | none => [])

end Phrase

end SemanticLayer
