import SemanticLayer.Error

/-!
# Relationships

How many rows of one view match a row of another.  A relationship follows from the kinds of the
identifiers that are joined; its weight says how much it is to be avoided.
-/

namespace SemanticLayer

inductive Relationship where
  | oneToOne
  | manyToOne
  | oneToMany
  | manyToMany
  deriving DecidableEq, Repr

namespace Relationship

def name : Relationship → String
  | .oneToOne => "one_to_one"
  | .manyToOne => "many_to_one"
  | .oneToMany => "one_to_many"
  | .manyToMany => "many_to_many"

def all : List Relationship := [.oneToOne, .manyToOne, .oneToMany, .manyToMany]

def ofValue? (v : Value) : Option Relationship :=
  match v with
  | .text s => all.find? (·.name == s)
  | _ => none

def invert : Relationship → Relationship
  | .oneToOne => .oneToOne
  | .manyToOne => .oneToMany
  | .oneToMany => .manyToOne
  | .manyToMany => .manyToMany

def weight : Relationship → Nat
  | .oneToOne => 1
  | .manyToOne => 2
  | .oneToMany => 3
  | .manyToMany => 4

def isFanout : Relationship → Bool
  | .oneToMany | .manyToMany => true
  | _ => false

def derive (base join : Value) : Result Relationship :=
  match base, join with
  | .text "foreign", .text "primary" => .ok .manyToOne
  | .text "primary", .text "primary" => .ok .oneToOne
  | .text "primary", .text "foreign" => .ok .oneToMany
  | .text "foreign", .text "foreign" => .ok .manyToMany
  | _, _ => .error (.undeterminedRelationship base join)

def read (v : Value) : Result Relationship :=
  match ofValue? v with
  | some r => .ok r
  | none =>
    match v with
    | .list _ | .map _ => malformed .wrongType
    | _ => malformed .missingKey

end Relationship

end SemanticLayer
