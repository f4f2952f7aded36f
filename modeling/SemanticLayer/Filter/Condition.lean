import SemanticLayer.Decimal.Numeral
import SemanticLayer.Filter.Phrase

/-!
# Filter conditions

The value of a filter says how its field is compared.  `NULL`, `TRUE`, date phrases, lists with
commas, comparison signs, a leading minus and percent signs all have their own reading, and any
other text is compared for equality.
-/

namespace SemanticLayer.Filter

def weekdays : List (String × Nat) :=
  [("monday", 1), ("tuesday", 2), ("wednesday", 3), ("thursday", 4), ("friday", 5),
   ("saturday", 6), ("sunday", 0)]

/-- The weekday a configured name denotes; Monday unless it is known. -/
def weekStart (name : Value) : Nat :=
  match name with
  | .text s => ((weekdays.find? (·.1 == s)).map (·.2)).getD 1
  | _ => 1

def monday : Nat := 1

/-- The zone of a name, or universal time without one. -/
def zone (almanac : Almanac) (name : Value) : Result Zone :=
  match name with
  | .null => .ok .utc
  | .text s =>
    match almanac.zones s with
    | some z => .ok z
    | none => malformed .unknownZone
  | _ => malformed .unknownZone

/-- Readings share a calendar, that is the weekday on which its weeks begin.  A reading that fails
leaves it as it is by then. -/
abbrev Reading := ExceptT Error (StateM Nat)

/-- What a reading gives on a calendar of its own. -/
def Reading.alone {α : Type} (r : Reading α) : Result α := (r.run.run monday).1

/-- The comparisons a date phrase stands for, if the value holds one.  Raw SQL is only checked
against the clock. -/
def dateBounds (almanac : Almanac) (value timezone : Value) :
    Reading (Option (List (Expression × Value))) := do
  let phrase := match value with
    | .sql _ => some Phrase.today
    | v => Phrase.read? v.plain
  match phrase with
  | none => return none
  | some p =>
    let z ← zone almanac timezone
    let r ← p.range { instant := almanac.instant, zone := z, weekStart := ← get }
    return some r.bounds

/-! ### Dates written out -/

private def oneOf (lo hi : Char) (c : Char) : Bool := lo ≤ c && c ≤ hi

def isMonth : List Char → Bool
  | ['1', c] => oneOf '0' '2' c
  | ['0', c] => oneOf '1' '9' c
  | [c] => oneOf '1' '9' c
  | _ => false

def isDay : List Char → Bool
  | ['3', c] => oneOf '0' '1' c
  | ['1', c] => Text.isDigit c
  | ['2', c] => Text.isDigit c
  | ['0', c] => oneOf '1' '9' c
  | [c] => oneOf '1' '9' c
  | _ => false

def date? (s : String) : Option Moment :=
  match (Text.split s "-").map String.toList with
  | [y, m, d] =>
    if y.length == 4 && y.all Text.isDigit && isMonth m && isDay d then
      let date : Date := ⟨Int.ofNat (Text.digitsValue y), Text.digitsValue m, Text.digitsValue d⟩
      if date.isValid then some (.startOfDay date) else none
    else none
  | _ => none

/-! ### Reading a value -/

def dateWord? (words : List String) : Option Expression :=
  match words with
  | "after" :: _ => some .greaterOrEqualThan
  | "before" :: _ => some .lessOrEqualThan
  | "on" :: _ => some .equalTo
  | "not" :: "on" :: _ => some .notEqualTo
  | _ => none

/-- Whether all pieces are negated; an empty piece has no first character to tell. -/
def allNegated : List String → Result Bool
  | [] => .ok true
  | p :: ps =>
    match Text.first? p with
    | none => malformed .outOfRange
    | some '-' => allNegated ps
    | some _ => .ok false

def anyNegated : List String → Result Bool
  | [] => .ok false
  | p :: ps =>
    match Text.first? p with
    | none => malformed .outOfRange
    | some '-' => .ok true
    | some _ => anyNegated ps

def listCondition (pieces : List String) : Result (Expression × Value) := do
  if ← allNegated pieces then
    return (.isNotIn, .texts (pieces.map fun p => Text.strip (Text.drop p 1)))
  else if ← anyNegated pieces then
    .error .mixedNegation
  else
    return (.isIn, .texts (pieces.map Text.strip))

def signs : List (String × Expression) :=
  [("<=", .lessOrEqualThan), (">=", .greaterOrEqualThan), ("<>", .notEqualTo), ("!=", .notEqualTo),
   ("=", .equalTo), (">", .greaterThan), ("<", .lessThan)]

def sign? (s : String) : Option (Expression × String) :=
  signs.findSome? fun (w, e) => if Text.startsWith s w then some (e, Text.drop s w.length) else none

/-- A text without a sign: percent signs at its ends leave that end open. -/
def pattern (s : String) : Result (Expression × Value) :=
  match Text.first? s with
  | none => malformed .outOfRange
  | some c =>
    let closes := Text.last? s == some '%'
    if c == '%' && closes then
      .ok (.containsCaseInsensitive, .text (Text.dropRight (Text.drop s 1) 1))
    else if c == '%' then .ok (.endsWithCaseInsensitive, .text (Text.drop s 1))
    else if closes then .ok (.startsWithCaseInsensitive, .text (Text.dropRight s 1))
    else .ok (.equalTo, .text s)

/-- A text with a minus in front, which negates what is behind it. -/
def negatedPattern (s : String) : Result (Expression × Value) :=
  match Text.first? (Text.drop s 1) with
  | none => malformed .outOfRange
  | some c =>
    let closes := Text.last? s == some '%'
    if c == '%' && closes then
      .ok (.doesNotContainCaseInsensitive, .text (Text.dropRight (Text.drop s 2) 1))
    else if c == '%' then .ok (.doesNotEndWithCaseInsensitive, .text (Text.drop s 2))
    else if closes then
      .ok (.doesNotStartWithCaseInsensitive, .text (Text.dropRight (Text.drop s 1) 1))
    else .ok (.notEqualTo, .text (Text.drop s 1))

def textCondition (s : String) : Result (Expression × Value) :=
  let words := Text.split s " "
  match dateWord? words with
  | some e =>
    match date? (words.getLast?.getD "") with
    | some t => .ok (e, .text t.wall)
    | none => malformed .badValue
  | none =>
    let pieces := Text.split s ", "
    if 1 < pieces.length then listCondition pieces
    else match sign? s with
      | some (e, rest) =>
        match Numeral.read? rest with
        | some n => .ok (e, n)
        | none => malformed .badValue
      | none =>
        match Text.first? s with
        | some '-' => negatedPattern s
        | _ => pattern s

def boolean? (v : Value) : Option Bool :=
  if v.same (.bool true) || v.same (.text "TRUE") then some true
  else if v.same (.bool false) || v.same (.text "FALSE") then some false
  else none

def valueConditions (value : Value) (dates : Option (List (Expression × Value))) :
    Result (List (Expression × Value)) :=
  match value with
  | .sql s => .ok [(.equalTo, .sql s)]
  | .text "NULL" => .ok [(.isNull, .null)]
  | .text "-NULL" => .ok [(.isNotNull, .null)]
  | .list _ | .map _ => malformed .wrongType
  | v =>
    match boolean? v with
    | some b => .ok [(.equalTo, .bool b)]
    | none =>
      match dates, v with
      | some bounds, _ => .ok bounds
      | none, .text s => (textCondition s).map ([·])
      | none, _ => malformed .noAttribute

/-- Reads a filter value: the weeks of the calendar begin on the given day for the reading of dates,
and on Monday behind it, unless the reading of a date fails. -/
def readOn (almanac : Almanac) (value week timezone : Value) :
    Reading (List (Expression × Value)) := do
  set (weekStart week)
  let dates ← dateBounds almanac value timezone
  set monday
  valueConditions value dates

def read (almanac : Almanac) (value week timezone : Value) : Result (List (Expression × Value)) :=
  (readOn almanac value week timezone).alone

def conditionsOn (almanac : Almanac) (d : Definition) : Reading (List Definition) :=
  match ["field", "value"].find? (!d.has ·) with
  | some key => throw (.filterMissingKey key (.map d))
  | none => do
    let found ← readOn almanac (d.get "value") (d.get "week_start_day") (d.get "timezone")
    return found.map fun (e, v) => (d.set "expression" (.text e.name)).set "value" v

def conditions (almanac : Almanac) (d : Definition) : Result (List Definition) :=
  (conditionsOn almanac d).alone

end SemanticLayer.Filter
