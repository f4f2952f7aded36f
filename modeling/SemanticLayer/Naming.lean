import SemanticLayer.Text.Unicode
import SemanticLayer.Text.Basic

/-!
# Names and references

A field is named by itself, by its view and itself, or by three parts of which the first is not
used.  Inside SQL a field stands as a reference: its name in braces behind a dollar sign.
-/

namespace SemanticLayer

namespace Name

def isNameChar (c : Char) : Bool := c.isAlpha || c.isDigit || c == '_'

def isValid (name : String) : Bool := Text.allBy isNameChar name

def complaint (entity name : String) : String :=
  Text.title entity ++ " name: " ++ name ++ " is invalid. Please reference "
    ++ "the naming conventions (only letters, numbers, or underscores)"

structure Parts where
  scope : Option String
  view : Option String
  field : String
  deriving DecidableEq, Repr

def parts (name : String) : Parts :=
  match Text.split name "." with
  | [scope, view, field] => ⟨some scope, some view, field⟩
  | [view, field] => ⟨none, some view, field⟩
  | _ => ⟨none, none, name⟩

/-- `name` inside `view`, unless it has a dot already. -/
def qualify (view name : String) : String :=
  if Text.contains name "." then name else view ++ "." ++ name

/-- A name for a column or table of any spelling: small letters, digits and underscores. -/
def clean (s : String) : String :=
  let kept := s.toList.filter fun c => isNameChar c || Text.isBlank c
  Text.replace (Text.strip (Text.lower (String.ofList kept))) " " "_"

end Name

namespace Reference

def wrap (name : String) : String := "$\x7b" ++ name ++ "\x7d"

/-- The text up to the next closing brace on this line, and the text behind the brace. -/
def close? : List Char → Option (List Char × List Char)
  | [] => none
  | c :: cs =>
    if c == '\x7d' then some ([], cs)
    else if c == '\n' then none
    else (close? cs).map fun (inner, rest) => (c :: inner, rest)

/-- The references in a text; the first argument counts characters that belong to the last one. -/
def scan : Nat → List Char → List (List Char)
  | _, [] => []
  | k + 1, _ :: cs => scan k cs
  | 0, c :: cs =>
    match c, cs with
    | '$', '\x7b' :: rest =>
      match close? rest with
      | some (inner, _) => inner :: scan (inner.length + 2) cs
      | none => scan 0 cs
    | _, _ => scan 0 cs

def all (s : String) : List String := (scan 0 s.toList).map String.ofList

def table : String := "TABLE"

end Reference

end SemanticLayer
