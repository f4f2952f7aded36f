import SemanticLayer.Value.Read

/-!
# Requests

What is asked for: metrics by dimensions, under conditions, in an order.  Conditions and orders
come as SQL text or as lists of definitions.
-/

namespace SemanticLayer

structure Request where
  metrics : List String := []
  dimensions : List String := []
  funnel : Value := .map []
  wheres : Value := .list []
  havings : Value := .list []
  orders : Value := .list []
  options : Definition := []
  deriving Repr, Inhabited

inductive Side where
  | rows
  | groups
  deriving DecidableEq, Repr, Inhabited

namespace Request

def conditions (r : Request) : Side → Value
  | .rows => r.wheres
  | .groups => r.havings

def setConditions (r : Request) (side : Side) (v : Value) : Request :=
  match side with
  | .rows => { r with wheres := v }
  | .groups => { r with havings := v }

/-- Writes the i-th condition; a single one stands alone. -/
def setCondition (r : Request) (side : Side) (i : Nat) (d : Definition) : Request :=
  match r.conditions side with
  | .list items => r.setConditions side (.list (items.set i (.map d)))
  | .map _ => r.setConditions side (.map d)
  | _ => r

end Request

structure Entry where
  definition : Definition
  given : Option Nat
  deriving Repr, Inhabited

structure Condition where
  definition : Definition
  place : Option (Side × Nat) := none
  deriving Repr, Inhabited

inductive Conditions where
  | absent
  | text (sql : String)
  | listed (items : List Condition)
  deriving Repr, Inhabited

namespace Conditions

def items : Conditions → List Condition
  | .listed cs => cs
  | _ => []

def isGiven : Conditions → Bool
  | .absent => false
  | .text s => !s.isEmpty
  | .listed cs => !cs.isEmpty

end Conditions

def conditionFields (items : List Definition) : Result (List String) := do
  let named := items.filter fun d => !d.has "group_by"
  if named.all (·.has "field") then named.mapM fun d => (d.get "field").needText
  else
    match items.find? fun d => !d.has "field" with
    | some d => throw (.conditionWithoutField (.map d))
    | none => return []

end SemanticLayer
