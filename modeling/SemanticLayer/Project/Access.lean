import SemanticLayer.Project.Basic

/-!
# Access

Views, fields and dashboards can ask for access grants.  A grant admits a user whose attribute has
one of the allowed values; a user without the attribute is not restricted, and neither is anyone
when no user is set.
-/

namespace SemanticLayer.Setting

def accessGrants (p : Setting) : Result (List Definition) := do
  let found ← (← p.listModels).mapM fun m => do
    match m.definition.get? "access_grants" with
    | none => return []
    | some grants => return (← grants.iterate).map Value.entriesD
  found.flatten.mapM fun g => do
    g.require "Access Grant" ["name", "user_attribute", "allowed_values"]
    return g

def getAccessGrant (p : Setting) (name : Value) : Result Definition := do
  match (← p.accessGrants).find? fun g => (g.get "name").same name with
  | some g => return g
  | none => throw (.grantNotFound name)

def admits (p : Setting) (user : Definition) (grant : Value) : Result Bool := do
  let g ← p.getAccessGrant grant
  match g.get "user_attribute" with
  | .text key =>
    let value := user.get key
    if value.isNull then return true else (g.get "allowed_values").includes value
  | .list _ | .map _ => malformed .wrongType
  | _ => return true

def permits (p : Setting) (required : Value) : Result Bool :=
  match p.user with
  | none => .ok true
  | some user =>
    if required.truthy then do
      let decisions ← (← required.iterate).mapM (p.admits user)
      return decisions.all id
    else .ok true

end SemanticLayer.Setting
