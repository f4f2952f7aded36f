import SemanticLayer.Calendar.Moment

/-!
# Time zones

Which zones there are is taken from outside, by an almanac.  Some of them follow a rule for daylight
saving time; there wall time that occurs twice is read as standard time.
-/

namespace SemanticLayer

inductive Daylight where
  | never
  /-- From the second Sunday of March to the first Sunday of November, at 02:00 local time. -/
  | american
  /-- From the last Sunday of March to the last Sunday of October, at 01:00 universal time. -/
  | european
  deriving DecidableEq, Repr

/-- A time zone: how far it is ahead of universal time at an instant, and when a day begins in it. -/
structure Zone where
  offsetAt : Int → Int
  midnight : Date → Int
  deriving Inhabited

/-- What dates are read by: the current instant, and the time zones by their names. -/
structure Almanac where
  instant : Int
  zones : String → Option Zone
  deriving Inhabited

namespace Zone

/-- Universal time. -/
def utc : Zone := ⟨fun _ => 0, fun d => d.toOrdinal * 86400⟩

/-- The moment that clocks show at an instant. -/
def wallOf (z : Zone) (instant : Int) : Moment :=
  let seconds := instant + z.offsetAt instant
  Moment.atSecond (Date.ofOrdinal (seconds / 86400)) (seconds % 86400).toNat

/-! ### Zones by rules -/

/-- The `n`-th Sunday of a month. -/
def sunday (year : Int) (month n : Nat) : Int :=
  let first := Date.toOrdinal ⟨year, month, 1⟩
  first + (7 - first % 7) % 7 + 7 * (Int.ofNat n - 1)

/-- The last Sunday of a month of 31 days. -/
def lastSunday (year : Int) (month : Nat) : Int :=
  let last := Date.toOrdinal ⟨year, month, 31⟩
  last - last % 7

/-- The instants between which clocks are ahead in a year. -/
def daylightSpan (standard : Int) (year : Int) : Daylight → Option (Int × Int)
  | .never => none
  | .american =>
    some (sunday year 3 2 * 86400 + 7200 - standard, sunday year 11 1 * 86400 + 3600 - standard)
  | .european => some (lastSunday year 3 * 86400 + 3600, lastSunday year 10 * 86400 + 3600)

/-- How far clocks are ahead of universal time at an instant. -/
def ruledOffset (standard : Int) (daylight : Daylight) (instant : Int) : Int :=
  let year := (Date.ofOrdinal ((instant + standard) / 86400)).year
  match daylightSpan standard year daylight with
  | some (start, stop) => if start ≤ instant && instant < stop then standard + 3600 else standard
  | none => standard

/-- The zone of a standard offset with a rule for daylight saving time, one hour ahead. -/
def ruled (standard : Int) (daylight : Daylight := .never) : Zone where
  offsetAt := ruledOffset standard daylight
  midnight d :=
    let asStandard := d.toOrdinal * 86400 - standard
    if ruledOffset standard daylight asStandard == standard then asStandard else asStandard - 3600

/-- Some zones by their names. -/
def known : List (String × Zone) :=
  [("America/New_York", ruled (-18000) .american), ("America/Los_Angeles", ruled (-28800) .american),
   ("Europe/London", ruled 0 .european), ("Asia/Tokyo", ruled 32400), ("Asia/Kolkata", ruled 19800),
   ("Pacific/Kiritimati", ruled 50400), ("Pacific/Apia", ruled 46800)]

def find? (name : String) : Option Zone :=
  if Text.lower name == "utc" then some utc else known.lookup name

end Zone

/-- The almanac at an instant, with the zones that are known. -/
def Almanac.ofInstant (instant : Int) : Almanac := ⟨instant, Zone.find?⟩

end SemanticLayer
