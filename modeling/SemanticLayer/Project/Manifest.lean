import SemanticLayer.Value.Read

/-!
# Manifests

The nodes of a project of tables: each has a schema and a name in it.  References in table names
are resolved by the last part of a node's key.
-/

namespace SemanticLayer

structure Manifest where
  definition : Value
  deriving Repr, Inhabited

namespace Manifest

def isPresent (m : Manifest) : Bool :=
  match m.definition with
  | .null => false
  | .map d => !d.isEmpty
  | _ => true

def nodes (m : Manifest) : Result Definition := do
  (← (← m.definition.needMap).need "nodes").asMap

def tableOf (node : Definition) : Result String := do
  return (← node.need "schema").plain ++ "." ++ (← node.need "alias").plain

def isModel (node : Definition) : Result Bool := do
  return (← node.need "resource_type").isTextOf "model"

def getModel (m : Manifest) (name : Value) : Result Value := do
  let found ← (← m.nodes).findM? fun (_, v) => do
    let node ← v.needMap
    if ← isModel node then return (← node.need "alias").same name else return false
  return (found.map (·.2)).getD .null

def tables (m : Manifest) (schema table : Value) : Result (List String) := do
  (← m.nodes).filterMapM fun (_, v) => do
    let node ← v.needMap
    if !(← isModel node) then return none
    let wanted ←
      if schema.isNull && table.isNull then pure true
      else do
        let own ← node.need "schema"
        if !(schema.isNull || own.same schema) then pure false
        else if table.isNull then pure true
        else pure ((← node.need "alias").same table)
    if wanted then return some (← tableOf node) else return none

def resolve (m : Manifest) (name : String) (schema : Value) : Result String := do
  match (← m.nodes).find? fun (k, _) => (Text.split k ".").getLast? == some name with
  | none => throw (.referenceNotInManifest name)
  | some (_, v) =>
    let node ← v.needMap
    if schema.isNull then tableOf node
    else return schema.plain ++ "." ++ (← node.need "alias").plain

end Manifest

end SemanticLayer
