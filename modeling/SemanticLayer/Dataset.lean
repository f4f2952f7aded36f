import SemanticLayer.Value.Read

/-!
# Datasets

A dataset is what a query answers: named columns, and rows with a cell for every column.  It is
read from records; a cell that a record lacks is not a number.
-/

namespace SemanticLayer

structure Dataset where
  columns : List String
  rows : List (List Value)
  deriving Repr, Inhabited

namespace Dataset

def keys (records : List Definition) : List String :=
  records.foldl (fun acc r => r.foldl (fun acc (k, _) => if acc.contains k then acc else acc ++ [k])
    acc) []

def cell (key : String) (record : Definition) : Value := (record.get? key).getD (.real .nan)

def ofRecords (records : List Definition) : Dataset :=
  let columns := keys records
  { columns, rows := records.map fun r => columns.map (cell · r) }

def empty : Dataset := ⟨[], []⟩

def isEmpty (d : Dataset) : Bool := d.columns.isEmpty || d.rows.isEmpty

def records (d : Dataset) : List Definition := d.rows.map d.columns.zip

def rename (f : String → String) (d : Dataset) : Dataset :=
  { d with columns := d.columns.map f }

def require (d : Dataset) (columns : List String) : Result Unit :=
  if columns.all d.columns.contains then .ok () else malformed .missingKey

def whereText (d : Dataset) (column text : String) : Result Dataset := do
  d.require [column]
  let i := d.columns.idxOf column
  return { d with rows := d.rows.filter fun r =>
    match r[i]? with
    | some (.text s) => Text.lower s == Text.lower text
    | _ => false }

def column (d : Dataset) (name : String) : Result (List Value) := do
  d.require [name]
  let i := d.columns.idxOf name
  return d.rows.map fun r => r.getD i .null

end Dataset

end SemanticLayer
