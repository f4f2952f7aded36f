import SemanticLayer.Error

/-!
# Reading values

Definitions come as they were written.  Where a text, a list or a key is needed and something else
is there, reading fails.
-/

namespace SemanticLayer

namespace Value

def iterate : Value → Result (List Value)
  | .list xs => .ok xs
  | .text s => .ok (s.toList.map fun c => .text (String.ofList [c]))
  | .map d => .ok (d.map fun (k, _) => .text k)
  | _ => malformed .wrongType

def asText : Value → Result String
  | .text s => .ok s
  | _ => malformed .noAttribute

def needText : Value → Result String
  | .text s => .ok s
  | _ => malformed .wrongType

def asMap : Value → Result Definition
  | .map d => .ok d
  | _ => malformed .noAttribute

def needMap : Value → Result Definition
  | .map d => .ok d
  | _ => malformed .wrongType

def includes (container item : Value) : Result Bool :=
  match container with
  | .list xs => .ok (xs.any item.same)
  | .text s =>
    match item with
    | .text t => .ok (Text.contains s t)
    | _ => malformed .wrongType
  | .map d =>
    match item with
    | .text t => .ok (Definition.has d t)
    | _ => .ok false
  | _ => malformed .wrongType

def isTextOf (v : Value) (s : String) : Bool :=
  match v with
  | .text t => t == s
  | _ => false

def digits? : Bool → Nat → List Char → Option Nat
  | isDigit, n, [] => if isDigit then some n else none
  | isDigit, n, c :: cs =>
    match Text.digitValue? c with
    | some k => digits? true (10 * n + k) cs
    | none => if c == '_' && isDigit then digits? false n cs else none

def integerOfText? (s : String) : Option Int :=
  match (Text.strip s).toList with
  | '-' :: cs => (digits? false 0 cs).map fun n => -(n : Int)
  | '+' :: cs => (digits? false 0 cs).map Int.ofNat
  | cs => (digits? false 0 cs).map Int.ofNat

def toInteger : Value → Result Int
  | .bool b => .ok (if b then 1 else 0)
  | .int n => .ok n
  | .real (.finite negative m e) =>
    let n : Nat := if 0 ≤ e then m * Nat.pow 2 e.toNat else m / Nat.pow 2 (-e).toNat
    .ok (if negative then -(n : Int) else n)
  | .real .nan => malformed .badValue
  | .real (.infinite _) => malformed .overflow
  | .text s =>
    match integerOfText? s with
    | some n => .ok n
    | none => .error (.notInteger s)
  | _ => malformed .wrongType

def sorted (vs : List Value) : Result (List Value) :=
  if vs.length ≤ 1 then .ok vs
  else do
    let texts ← vs.mapM needText
    return (texts.mergeSort (fun a b => decide (a ≤ b))).map .text

end Value

namespace Definition

def need (d : Definition) (key : String) : Result Value :=
  match d.get? key with
  | some v => .ok v
  | none => malformed .missingKey

def require (d : Definition) (entity : String) (keys : List String) : Result Unit :=
  match keys.find? fun k => !d.has k with
  | some k => .error (.missingKey entity k)
  | none => .ok ()

def pick (d : Definition) (keys : List String) : Definition :=
  keys.filterMap fun k =>
    let v := d.get k
    if v.isNull then none else some (k, v)

end Definition

end SemanticLayer
