import SemanticLayer.Decimal.Double
import SemanticLayer.Calendar.Moment

/-!
# Values

The scalars, lists and maps of a configuration file, together with moments and raw SQL text.  A map
keeps the order in which its keys were written; writing a key again keeps its place.
-/

namespace SemanticLayer

inductive Value where
  | null
  | bool (b : Bool)
  | int (n : Int)
  | real (x : Double)
  | text (s : String)
  | list (items : List Value)
  | map (entries : List (String × Value))
  | moment (t : Moment)
  | sql (s : String)
  deriving Repr, Inhabited

/-- A definition: keys with their values, in the order of writing. -/
abbrev Definition := List (String × Value)

namespace Definition

def get? (d : Definition) (key : String) : Option Value :=
  (d.find? (·.1 == key)).map (·.2)

/-- The value under `key`; an absent key reads as null. -/
def get (d : Definition) (key : String) : Value := (d.get? key).getD .null

def has (d : Definition) (key : String) : Bool := d.any (·.1 == key)

/-- Writes `key`: in place when present, else at the end. -/
def set (d : Definition) (key : String) (v : Value) : Definition :=
  if d.has key then d.map fun (k, w) => if k == key then (k, v) else (k, w)
  else d ++ [(key, v)]

def erase (d : Definition) (key : String) : Definition := d.filter (·.1 != key)

def merge (d e : Definition) : Definition := e.foldl (fun acc (k, v) => acc.set k v) d

def keys (d : Definition) : List String := d.map (·.1)

end Definition

namespace Value

def isNull : Value → Bool
  | .null => true
  | _ => false

/-- Whether a value counts as given: null, false, zero and the empty text, list and map do not. -/
def truthy : Value → Bool
  | .null => false
  | .bool b => b
  | .int n => n != 0
  | .real (.finite _ m _) => m != 0
  | .real _ => true
  | .text s => !s.isEmpty
  | .list items => !items.isEmpty
  | .map entries => !entries.isEmpty
  | .moment _ => true
  | .sql _ => true

def text? : Value → Option String
  | .text s => some s
  | _ => none

def list? : Value → Option (List Value)
  | .list xs => some xs
  | _ => none

def map? : Value → Option Definition
  | .map d => some d
  | _ => none

def isText (v : Value) : Bool := v.text?.isSome

def entriesD : Value → Definition
  | .map d => d
  | _ => []

def itemsD : Value → List Value
  | .list xs => xs
  | _ => []

mutual

/-- Equality of values: booleans are the numbers 0 and 1, integers equal the doubles of the same
number, maps are compared without regard to order. -/
def same : Value → Value → Bool
  | .null, .null => true
  | .bool a, .bool b => a == b
  | .bool a, .int n => (if a then 1 else 0) == n
  | .int n, .bool a => n == (if a then 1 else 0)
  | .bool a, .real x => x.equalsInt (if a then 1 else 0)
  | .real x, .bool a => x.equalsInt (if a then 1 else 0)
  | .int m, .int n => m == n
  | .int n, .real x => x.equalsInt n
  | .real x, .int n => x.equalsInt n
  | .real x, .real y => x.equals y
  | .text s, .text t => s == t
  | .list xs, .list ys => sameList xs ys
  | .map d, .map e => d.length == e.length && sameEntries d e
  | .moment s, .moment t => s == t
  | .sql s, .sql t => s == t
  | _, _ => false

def sameList : List Value → List Value → Bool
  | [], [] => true
  | x :: xs, y :: ys => same x y && sameList xs ys
  | _, _ => false

def sameEntries : List (String × Value) → Definition → Bool
  | [], _ => true
  | (k, v) :: rest, e =>
    (match e.get? k with
      | some w => same v w
      | none => false) && sameEntries rest e

end

def texts (xs : List String) : Value := .list (xs.map .text)

def ofOption (t : Option String) : Value :=
  match t with
  | some s => .text s
  | none => .null

end Value

end SemanticLayer
