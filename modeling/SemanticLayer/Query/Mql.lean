import SemanticLayer.Query.Compile
import SemanticLayer.Sql.Tree

/-!
# Queries inside SQL text

A SQL text can hold calls `MQL(...)`, each a request in words: metrics, `BY` dimensions, `WHERE`,
`HAVING` and `ORDER BY`, and for funnels `FOR` a view, `FUNNEL` with steps between `THEN`, and
`WITHIN` a span of time.  Each call is replaced by the SQL of its request.
-/

namespace SemanticLayer.Mql

def functionName : String := "MQL"

inductive Mode where
  | metrics
  | dimensions
  | having
  | order
  | source
  | funnel
  | within
  deriving DecidableEq, Repr, Inhabited

structure Reading where
  mode : Mode := .metrics
  metrics : List String := []
  dimensions : List String := []
  wheres : List Sql.Node := []
  havings : List Sql.Node := []
  orders : List Sql.Node := []
  steps : List (List String) := []
  step : Option (List String) := none
  view : Option String := none
  within : Option (Int × String) := none
  deriving Inhabited

def modeAfter (keyword : String) (mode : Mode) : Mode :=
  match keyword with
  | "BY" => .dimensions
  | "HAVING" => .having
  | "ORDER BY" => .order
  | "FOR" => .source
  | "FUNNEL" | "THEN" => .funnel
  | "WITHIN" => .within
  | _ => mode

def isFunnelWord (text : String) : Bool := Text.strip (Text.upper text) == "FUNNEL"

def isConjunction (text : String) : Bool := ["AND", "OR"].contains (Text.upper (Text.strip text))

def Reading.add (sql : String) (r : Reading) (name : String) : Result Reading :=
  match r.mode with
  | .metrics => .ok { r with metrics := r.metrics ++ [name] }
  | .dimensions => .ok { r with dimensions := r.dimensions ++ [name] }
  | _ => .error (.mqlIdentifier name sql)

def Reading.currentStep (r : Reading) : Result (List String) :=
  match r.step with
  | some parts => .ok parts
  | none => malformed .unset

def funnelStep (r : Reading) (text : String) : Result Reading := do
  let upper := Text.upper text
  if upper == "THEN" then
    return { r with steps := r.steps ++ [← r.currentStep], step := some [] }
  match Text.find? (Text.lower text) "within" with
  | some i =>
    let parts := (← r.currentStep) ++ [Text.strip (String.ofList (text.toList.take i))]
    return { r with steps := r.steps ++ [parts], step := some parts, mode := .within }
  | none => return { r with step := some ((← r.currentStep) ++ [text]) }

def span (text : String) : Result (Int × String) :=
  match Text.split (Text.strip text) " " with
  | [n, unit] =>
    match Value.integerOfText? n with
    | some k => .ok (k, Text.lower unit)
    | none => malformed .badValue
  | _ => malformed .badValue

def plainStep (sql : String) (r : Reading) (n : Sql.Node) : Result Reading := do
  if r.mode == .within && n.isKind .identifier then
    return { r with within := some (← span n.text), mode := .metrics }
  if r.mode == .having then return { r with havings := r.havings ++ [n] }
  if r.mode == .order then return { r with orders := r.orders ++ [n] }
  if n.isKind .identifier && !isFunnelWord n.text then r.add sql n.text
  else if n.isKind .identifierList then n.items.foldlM (fun r i => r.add sql i.text) r
  else if n.isKind .where_ then return { r with wheres := n.children }
  else return r

def step (sql : String) (r : Reading) (n : Sql.Node) : Result Reading := do
  let text := n.text
  if r.mode == .source && !n.isToken .whitespace then
    let view := Text.strip (Text.lower (((Text.split text " ").head?).getD ""))
    return { r with view := some view, mode := .funnel, step := some [] }
  if (n.isToken .keyword || isFunnelWord text) && !isConjunction text then
    let upper := Text.upper text
    let r := { r with mode := modeAfter upper r.mode }
    if r.mode == .funnel && upper != "THEN" then return { r with step := some [] }
    let r ← if r.mode == .dimensions && upper == "SOURCE" then r.add sql text else pure r
    if r.mode == .funnel then funnelStep r text else plainStep sql r n
  else if r.mode == .funnel then funnelStep r text
  else plainStep sql r n

def clause (ns : List Sql.Node) : Value :=
  match ns.drop 1 with
  | [] => .null
  | rest => .text (Text.strip (Sql.Node.textOf rest))

def Reading.funnel (r : Reading) : Value :=
  match r.within with
  | some (n, unit) =>
    if r.steps.isEmpty then .map []
    else
      let steps := r.steps.map fun parts => Text.strip (String.join parts)
      let base : Definition := [("steps", .texts steps),
        ("within", .map [("value", .int n), ("unit", .text unit)])]
      match r.view with
      | some v => .map (if v.isEmpty then base else base.set "view_name" (.text v))
      | none => .map base
  | none => .map []

def request (sql : String) (options : Definition) (call : Sql.Node) : Result Request := do
  if !call.isGroup then malformed .wrongType
  let inner := (call.children.drop 1).dropLast
  let r ← inner.foldlM (step sql) {}
  return { metrics := r.metrics, dimensions := r.dimensions, funnel := r.funnel,
           wheres := clause r.wheres, havings := clause r.havings, orders := clause r.orders,
           options := options }

def callSql (connections : List Connection) (options : Definition) (sql : String)
    (call : Sql.Node) : Action (Option String) := do
  if !call.isGroup then malformed .wrongType
  match call.children with
  | name :: rest =>
    if Text.upper name.text != functionName then return none
    match rest with
    | [] => malformed .outOfRange
    | argument :: _ =>
      let compiled ← (← request sql options argument).compile connections
      return some (if call.text == sql then compiled.sql else "(" ++ compiled.sql ++ ")")
  | [] => malformed .outOfRange

def replaceCall (connections : List Connection) (options : Definition) (sql converted : String)
    (call : Sql.Node) : Action String := do
  match ← callSql connections options sql call with
  | some s => return if s.isEmpty then converted else Text.replace converted call.text s
  | none => return converted

def convertStep (connections : List Connection) (options : Definition) (sql converted : String)
    (n : Sql.Node) : Action String := do
  if n.isKind .function then replaceCall connections options sql converted n
  else if n.isKind .identifier then
    let upper := Text.upper n.text
    if upper == functionName then throw (.mqlParenthesis n.text sql)
    if Text.contains upper (functionName ++ "(") then
      match n.children with
      | call :: _ => replaceCall connections options sql converted call
      | [] => return converted
    else return converted
  else return converted

def convert (connections : List Connection) (options : Definition) (sql : String) :
    Action String := do
  match Sql.Node.parse? sql with
  | none => malformed .outOfRange
  | some nodes =>
    let converted ← nodes.foldlM (convertStep connections options sql) sql
    return if converted.endsWith ";" then converted else converted ++ ";"

end SemanticLayer.Mql
