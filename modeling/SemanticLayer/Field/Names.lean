import SemanticLayer.Naming
import SemanticLayer.Project.Basic

/-!
# Names of fields

A dimension group of type time answers to its name with a timeframe behind it, one of type
duration to its name with an interval in front; every other field answers to its name.  The id of
a field is that alias behind the name of its view.
-/

namespace SemanticLayer.Field

def defaultIntervals : List String :=
  ["second", "minute", "hour", "day", "week", "month", "quarter", "year"]

def aliasName (f : Field) : String :=
  if f.isGroup then
    if f.hasType "time" then f.name ++ "_" ++ f.group.plain
    else if f.hasType "duration" then f.group.plain ++ "_" ++ f.name
    else f.name
  else f.name

def column (f : Field) : String := f.view.name ++ "_" ++ f.aliasName

def id (f : Field) : String := f.view.name ++ "." ++ f.aliasName

def idInCapitals (f : Field) : String := f.view.name ++ "." ++ Text.upper f.aliasName

def key (f : Field) : String := f.view.name ++ "." ++ f.name

def groupNames (f : Field) : Result (List String) :=
  if f.isGroup && f.hasType "time" then do
    let frames ← match f.definition.get? "timeframes" with
      | none => pure []
      | some v => v.iterate
    return frames.map fun t => f.name ++ "_" ++ t.plain
  else if f.isGroup && f.hasType "duration" then do
    let intervals ← match f.definition.get? "intervals" with
      | none => pure (defaultIntervals.map .text)
      | some v => v.iterate
    return intervals.map fun t => t.plain ++ "s_" ++ f.name
  else .ok []

def groupOfName (f : Field) (name : String) : Value :=
  if f.hasType "duration" && Text.contains name ("_" ++ f.name) then
    .text (Text.replace name ("_" ++ f.name) "")
  else if f.hasType "time" then .text (Text.replace name (f.name ++ "_") "")
  else .null

/-- Whether a name means this field.  A dimension group without a timeframe takes the one that is
named. -/
def matching? (f : Field) (name : String) : Result (Option Field) := do
  let parts := Name.parts name
  if parts.view.any fun v => !v.isEmpty && v != f.view.name then return none
  if f.isGroup && f.group.isNull then
    if (← f.groupNames).contains parts.field then
      return some { f with chosen := some (f.groupOfName parts.field) }
    else return none
  else if f.aliasName == parts.field then return some f
  else return none

def groupWords (f : Field) : Result String := do
  return Text.title (Text.replace (← f.group.asText) "_" " ")

def label (f : Field) : Result Value := orWritten (.ok (f.property "label")) do
  let text : Value ← match f.definition.get? "label" with
    | some label =>
      if f.hasType "time" && f.group.truthy then
        pure (.text (label.plain ++ " " ++ (← f.groupWords)))
      else if f.hasType "duration" && f.group.truthy then
        pure (.text ((← f.groupWords) ++ " " ++ label.plain))
      else pure label
    | none =>
      let words := Text.replace f.aliasName "_" " "
      pure (.text (if words.length ≤ 4 then Text.upper words else Text.title words))
  let front := f.property "label_prefix"
  if front.truthy then return .text (front.plain ++ " " ++ text.plain) else return text

def reservedWords : List String := ["order", "group", "by", "as", "from", "select", "on", "with"]

def isNotValidSql (f : Field) : Result Bool := do
  match f.property "name" with
  | .text name =>
    match Text.first? name with
    | none =>
      if reservedWords.contains (Text.lower name) then return true else malformed .outOfRange
    | some c => return reservedWords.contains (Text.lower name) || c.isDigit
  | _ => malformed .wrongType

end SemanticLayer.Field
