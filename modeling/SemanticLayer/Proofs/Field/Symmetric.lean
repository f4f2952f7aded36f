import SemanticLayer.Proofs.Outcome

/-!
# Aggregates over distinct keys

Where a query repeats the rows of a measure, its values are summed and counted over distinct keys.
Read over joined rows of which none is repeated, both forms have the same value as long as some
value is not null (`Field.symmetric_agrees_iff`).
-/

namespace SemanticLayer

open List

/-- A row of joined tables: the key of the measure's view, and the value unless it is null. -/
structure Measured (κ : Type) where
  key : κ
  value : Option ℚ

/-- SQL together with the exact value that it has of something, or null. -/
structure Term (α : Type) where
  sql : String
  value : α → Option ℚ

/-- The sum of the values that are not null, if there are any. -/
def total (vs : List (Option ℚ)) : Option ℚ :=
  match vs.reduceOption with
  | [] => none
  | xs => some xs.sum

namespace Term

variable {α κ : Type}

def orZero (e : Term α) : Term α where
  sql := "COALESCE(" ++ e.sql ++ ", 0)"
  value a := some ((e.value a).getD 0)

def nullIfZero (e : Term α) : Term α where
  sql := "NULLIF(" ++ e.sql ++ ", 0)"
  value a := (e.value a).filter (· ≠ 0)

def floor (e : Term α) : Term α where
  sql := "FLOOR(" ++ e.sql ++ ")"
  value a := (e.value a).map fun v => (⌊v⌋ : ℚ)

def scaled (e : Term α) : Term α where
  sql := e.sql ++ " * (" ++ Field.factor ++ " * 1.0)"
  value a := (e.value a).map (· * 1000000)

def scale : Term α where
  sql := Field.factor ++ "*1.0"
  value _ := some 1000000

def decimal (e : Term α) : Term α where
  sql := "(CAST(" ++ e.sql ++ " AS DECIMAL(38,0)))"
  value := e.value

def double (e : Term α) : Term α where
  sql := "CAST((" ++ e.sql ++ ") AS DOUBLE PRECISION)"
  value := e.value

def plus (e e' : Term α) : Term α where
  sql := e.sql ++ " + " ++ e'.sql
  value a := do return (← e.value a) + (← e'.value a)

def minus (e e' : Term α) : Term α where
  sql := e.sql ++ " - " ++ e'.sql
  value a := do return (← e.value a) - (← e'.value a)

/-- What is divided by zero has no value. -/
def per (e e' : Term α) : Term α where
  sql := e.sql ++ " / " ++ e'.sql
  value a := do
    let divisor ← e'.value a
    if divisor = 0 then none else return (← e.value a) / divisor

def grouped (e : Term α) : Term α where
  sql := "(" ++ e.sql ++ ")"
  value := e.value

def values (sql : String) : Term (Measured κ) := ⟨sql, Measured.value⟩

def hash (key : String) (h : κ → ℤ) : Term (Measured κ) where
  sql := "(TO_NUMBER(MD5(" ++ key
    ++ "), 'XXXXXXXXXXXXXXXXXXXXXXXXXXXXXXXX') % 1.0e27)::NUMERIC(38, 0)"
  value r := some (h r.key)

def sum (e : Term α) : Term (List α) where
  sql := "SUM(" ++ e.sql ++ ")"
  value rows := total (rows.map e.value)

def sumDistinct (e : Term α) : Term (List α) where
  sql := "SUM(DISTINCT " ++ e.sql ++ ")"
  value rows := total (rows.map e.value).dedup

def count (e : Term α) : Term (List α) where
  sql := "COUNT(" ++ e.sql ++ ")"
  value rows := some (rows.map e.value).reduceOption.length

def average (e : Term α) : Term (List α) where
  sql := "AVG(" ++ e.sql ++ ")"
  value rows := (total (rows.map e.value)).map (· / (rows.map e.value).reduceOption.length)

def countDistinct (e : Term α) : Term (List α) where
  sql := "COUNT(DISTINCT(" ++ e.sql ++ "))"
  value rows := some (rows.map e.value).reduceOption.dedup.length

/-- Counts the distinct keys of the rows in which a value is not null. -/
def countKeys [DecidableEq κ] (key : String) (e : Term (Measured κ)) :
    Term (List (Measured κ)) where
  sql := "COUNT(DISTINCT CASE WHEN  (" ++ e.sql ++ ")  IS NOT NULL THEN  " ++ key
    ++ "  ELSE NULL END)"
  value rows := some ((rows.filter fun r => (e.value r).isSome).map (·.key)).dedup.length

end Term

/-- The types of measures with two forms.  A count is of the key of its view where it has no
values of its own. -/
inductive Summary where
  | sum
  | count
  | keyCount
  | average
  deriving DecidableEq

namespace Summary

open Term

variable {κ : Type} [DecidableEq κ]

def name : Summary → String
  | .sum => "sum"
  | .count | .keyCount => "count"
  | .average => "average"

def plain (sql : String) : Summary → Term (List (Measured κ))
  | .sum => (values sql).sum
  | .count | .keyCount => (values sql).count
  | .average => (values sql).average

/-- A value as a whole number, moved by the hash of its key. -/
def shifted (sql key : String) (h : κ → ℤ) : Term (Measured κ) :=
  (values sql).orZero.scaled.floor.decimal.plus (hash key h)

def keyedSum (sql key : String) (h : κ → ℤ) : Term (List (Measured κ)) :=
  (((shifted sql key h).sumDistinct.minus (hash key h).sumDistinct).double.per
    scale.double).orZero

def keyedCount (sql key : String) : Term (List (Measured κ)) :=
  ((values sql).countKeys key).nullIfZero

def symmetric (sql key : String) (h : κ → ℤ) : Summary → Term (List (Measured κ))
  | .sum => keyedSum sql key h
  | .count => keyedCount sql key
  | .keyCount => (values sql).countDistinct
  | .average => ((keyedSum sql key h).per (keyedCount sql key)).grouped

/-! ### The SQL that is written -/

variable {sql key : String} {h : κ → ℤ}

omit [DecidableEq κ] in
theorem sql_keyedSum : (keyedSum sql key h).sql = Field.hashedSum sql key := by
  -- the text is written in larger pieces than the expression is put together from
  have hrow : "(CAST(FLOOR(COALESCE(" = "(CAST(" ++ ("FLOOR(" ++ "COALESCE(") := by decide
  have hzero : ", 0) * (" = ", 0)" ++ " * (" := by decide
  have hdecimal : " * 1.0)) AS DECIMAL(38,0)))" = " * 1.0)" ++ (")" ++ " AS DECIMAL(38,0)))") := by
    decide
  have hmin : ") - SUM(DISTINCT " = ")" ++ (" - " ++ "SUM(DISTINCT ") := by decide
  have hst : "COALESCE(CAST((" = "COALESCE(" ++ "CAST((" := by decide
  have hover : ") AS DOUBLE PRECISION) / CAST((" = ") AS DOUBLE PRECISION)" ++ (" / " ++ "CAST((") := by
    decide
  have hend : "*1.0) AS DOUBLE PRECISION), 0)" = "*1.0" ++ (") AS DOUBLE PRECISION)" ++ ", 0)") := by
    decide
  unfold Field.hashedSum keyedSum shifted orZero per double minus sumDistinct plus decimal floor
    scaled scale values Term.hash
  rw [hrow, hzero, hdecimal, hmin, hst, hover, hend]
  simp only [String.append_assoc]

theorem sql_keyedCount :
    (keyedCount sql key : Term (List (Measured κ))).sql = Field.keyedCount sql key := by
  have hst : "NULLIF(COUNT(DISTINCT CASE WHEN  (" = "NULLIF(" ++ "COUNT(DISTINCT CASE WHEN  (" := by
    decide
  have hend : "  ELSE NULL END), 0)" = "  ELSE NULL END)" ++ ", 0)" := by decide
  unfold Field.keyedCount keyedCount nullIfZero countKeys values
  rw [hst, hend]
  simp only [String.append_assoc]

/-! ### Values -/

/-- No key is repeated, the values have six decimal places, and neither hashes coincide nor the
values that are moved by them. -/
structure IsUnrepeated (h : κ → ℤ) (rows : List (Measured κ)) : Prop where
  keys : (rows.map (·.key)).Nodup
  decimals : ∀ r ∈ rows, ∀ v ∈ r.value, ∃ z : ℤ, v * 1000000 = z
  hash : Function.Injective h
  shifted : ∀ sql key, (rows.map (shifted sql key h).value).Nodup

theorem getD_total (vs : List (Option ℚ)) : (total vs).getD 0 = (vs.map (·.getD 0)).sum := by
  have hsum : (total vs).getD 0 = vs.reduceOption.sum := by
    unfold total
    split
    · next hnil => simp [hnil]
    · rfl
  rw [hsum]
  clear hsum
  induction vs with
  | nil => rfl
  | cons v vs ih => cases v <;> simp [ih]

theorem total_eq_none_iff {vs : List (Option ℚ)} : total vs = none ↔ vs.reduceOption = [] := by
  unfold total
  split <;> simp_all

theorem total_map_some {α : Type} (f : α → ℚ) {l : List α} (hl : l ≠ []) :
    total (l.map fun a => some (f a)) = some (l.map f).sum := by
  obtain ⟨v, hv⟩ : ∃ v, total (l.map fun a => some (f a)) = some v := by
    refine Option.ne_none_iff_exists'.mp fun hno => hl ?_
    simpa [List.reduceOption] using total_eq_none_iff.mp hno
  have hsum := getD_total (l.map fun a => some (f a))
  rw [hv, map_map] at hsum
  rw [hv]
  exact congrArg some hsum

variable {rows : List (Measured κ)}

omit [DecidableEq κ] in
theorem value_shifted (hrs : IsUnrepeated h rows) {r : Measured κ} (hr : r ∈ rows) :
    (shifted sql key h).value r = some (r.value.getD 0 * 1000000 + (h r.key : ℚ)) := by
  obtain ⟨z, hz⟩ : ∃ z : ℤ, r.value.getD 0 * 1000000 = z := by
    cases hv : r.value with
    | none => exact ⟨0, by simp⟩
    | some v => exact hrs.decimals r hr v hv
  simp [shifted, plus, decimal, floor, scaled, orZero, values, Term.hash, hz]

omit [DecidableEq κ] in
theorem value_keyedSum (hrs : IsUnrepeated h rows) :
    (keyedSum sql key h).value rows = some ((total (rows.map (·.value))).getD 0) := by
  obtain rfl | hne := eq_or_ne rows []
  · rfl
  have hshifted : ((shifted sql key h).sumDistinct).value rows
      = some (rows.map fun r => r.value.getD 0 * 1000000 + (h r.key : ℚ)).sum := by
    change total (rows.map (shifted sql key h).value).dedup = _
    rw [(hrs.shifted sql key).dedup, map_congr_left fun r hr => value_shifted hrs hr,
      total_map_some _ hne]
  have hhash : ((Term.hash key h).sumDistinct).value rows
      = some (rows.map fun r => (h r.key : ℚ)).sum := by
    have hnd : (rows.map (Term.hash key h).value).Nodup := by
      have hmap := hrs.keys.map (f := fun k => some (h k : ℚ)) fun a b hab =>
        hrs.hash (by simpa using hab)
      rwa [map_map] at hmap
    change total (rows.map (Term.hash key h).value).dedup = _
    rw [hnd.dedup]
    exact total_map_some _ hne
  have hsum : (rows.map fun r => r.value.getD 0 * 1000000 + (h r.key : ℚ)).sum
      - (rows.map fun r => (h r.key : ℚ)).sum = (rows.map (·.value.getD 0)).sum * 1000000 := by
    rw [sum_map_add, sum_map_mul_right, add_sub_cancel_right]
  have hmin : ((shifted sql key h).sumDistinct.minus (Term.hash key h).sumDistinct).value rows
      = some ((rows.map (·.value.getD 0)).sum * 1000000) := by
    rw [← hsum]
    unfold minus
    dsimp only
    rw [hshifted, hhash]
    rfl
  unfold keyedSum orZero per double scale
  dsimp only
  rw [hmin, getD_total]
  simp [Function.comp_def]

theorem value_keyedCount (hrs : IsUnrepeated h rows) :
    (keyedCount sql key).value rows = if (rows.map (·.value)).reduceOption = [] then none
      else some ((rows.map (·.value)).reduceOption.length : ℚ) := by
  have hks : ((rows.filter fun r => r.value.isSome).map (·.key)).Nodup :=
    hrs.keys.sublist (filter_sublist.map _)
  have hlen : (rows.map (·.value)).reduceOption.length
      = (rows.filter fun r => r.value.isSome).length := by
    rw [List.reduceOption, length_filterMap_eq_countP, countP_map, countP_eq_length_filter]
    rfl
  unfold keyedCount nullIfZero countKeys values
  dsimp only
  rw [hks.dedup, length_map, ← hlen]
  by_cases hnil : (rows.map (·.value)).reduceOption = [] <;> simp [Option.filter_some]

/-- **The two forms have the same value exactly if they are averages or counts of the key, or some
value is not null.** -/
theorem value_symmetric_iff (hrs : IsUnrepeated h rows) {s : Summary}
    (hvalues : s = .keyCount → (rows.map (·.value)).reduceOption.Nodup) :
    (s.symmetric sql key h).value rows = (s.plain sql).value rows ↔
      s = .average ∨ s = .keyCount ∨ ∃ r ∈ rows, r.value.isSome := by
  have hsome : (∃ r ∈ rows, r.value.isSome) ↔ (rows.map (·.value)).reduceOption ≠ [] := by
    simp [List.reduceOption, Option.isSome_iff_ne_none]
  rw [hsome]
  cases s with
  | sum =>
    change (keyedSum sql key h).value rows = total (rows.map (·.value)) ↔ _
    rw [value_keyedSum hrs, ne_eq, ← total_eq_none_iff]
    cases total (rows.map (·.value)) <;> simp
  | count =>
    change (keyedCount sql key).value rows = some ((rows.map (·.value)).reduceOption.length : ℚ) ↔ _
    rw [value_keyedCount hrs]
    by_cases hnil : (rows.map (·.value)).reduceOption = [] <;> simp [hnil]
  | keyCount =>
    refine iff_of_true ?_ (.inr (.inl rfl))
    change some ((rows.map (·.value)).reduceOption.dedup.length : ℚ) = _
    rw [(hvalues rfl).dedup]
    rfl
  | average =>
    refine iff_of_true ?_ (.inl rfl)
    change ((keyedSum sql key h).per (keyedCount sql key)).value rows
      = (total (rows.map (·.value))).map (· / ((rows.map (·.value)).reduceOption.length : ℚ))
    unfold per
    dsimp only
    rw [value_keyedSum hrs, value_keyedCount hrs]
    cases htotal : total (rows.map (·.value)) with
    | none => simp [total_eq_none_iff.mp htotal]
    | some v =>
      have hne : (rows.map (·.value)).reduceOption ≠ [] := fun hnil => by
        rw [total_eq_none_iff.mpr hnil] at htotal
        cases htotal
      simp [hne]

end Summary

namespace Field

open Summary

theorem aggregate_of_type {p : Project} {f : Field} {s : Summary}
    (hty : f.property "type" = .text s.name)
    (hkd : s = .count → (f.property "primary_key_count").truthy = false)
    (hkc : s = .keyCount → (f.property "primary_key_count").truthy = true) {rowKey : RowKey}
    {symmetric : Bool} (hnee : f.needsSymmetric p rowKey = .ok symmetric)
    {viewKey : Warehouse → Result String} {key : String} (hkey : viewKey .snowflake = .ok key)
    (values : Option String) (ownKey : Warehouse → Result (Option String)) {κ : Type}
    [DecidableEq κ] (h : κ → ℤ) :
    f.aggregate p rowKey .snowflake values viewKey ownKey
      = .ok (if symmetric then (s.symmetric (orNone values) key h).sql
          else (s.plain (orNone values) : Term (List (Measured κ))).sql) := by
  have hbranch : ∀ a b : Result String, (do if ← f.isSymmetric p rowKey .snowflake then a else b)
      = if symmetric then a else b := by
    intro a b
    rw [show f.isSymmetric p rowKey .snowflake = .ok symmetric from hnee]
    rfl
  unfold aggregate
  rw [hty]
  cases s with
  | sum =>
    refine (hbranch (do return hashedSum (orNone values) (← viewKey .snowflake)) _).trans ?_
    rw [hkey]
    cases symmetric with
    | false => rfl
    | true => exact congrArg Except.ok sql_keyedSum.symm
  | count =>
    refine (hbranch (if (f.property "primary_key_count").truthy then _
      else do return Field.keyedCount (orNone values) (← viewKey .snowflake)) _).trans ?_
    rw [hkd rfl, hkey]
    cases symmetric with
    | false => rfl
    | true => exact congrArg Except.ok sql_keyedCount.symm
  | keyCount =>
    refine (hbranch (if (f.property "primary_key_count").truthy then
      .ok ("COUNT(DISTINCT(" ++ orNone values ++ "))") else _) _).trans ?_
    rw [hkc rfl]
    cases symmetric <;> rfl
  | average =>
    refine (hbranch ((viewKey .snowflake >>= fun k => pure (hashedSum (orNone values) k)) >>= fun sum =>
      (viewKey .snowflake >>= fun k => pure (Field.keyedCount (orNone values) k)) >>= fun count =>
        pure ("(" ++ sum ++ " / " ++ count ++ ")")) _).trans ?_
    rw [hkey]
    cases symmetric with
    | false => rfl
    | true =>
      refine congrArg Except.ok ?_
      change _ = "(" ++ ((keyedSum (orNone values) key h).sql ++ " / "
        ++ (Summary.keyedCount (orNone values) key : Term (List (Measured κ))).sql) ++ ")"
      rw [sql_keyedSum, sql_keyedCount]
      simp only [String.append_assoc]

section Agreement

variable {p : Project} {f : Field} {s : Summary} {rowKey : RowKey}
  {viewKey : Warehouse → Result String} {key : String}

/-- **Where no row is repeated, an aggregate over distinct keys has the value of the plain one
exactly if it is an average or a count of the key, or some value is not null.** -/
theorem symmetric_agrees_iff (htype : f.property "type" = .text s.name)
    (hkeyed : s = .count → (f.property "primary_key_count").truthy = false)
    (hcounted : s = .keyCount → (f.property "primary_key_count").truthy = true)
    (hneeds : f.needsSymmetric p rowKey = .ok true) (hkey : viewKey .snowflake = .ok key)
    (values : Option String) (ownKey : Warehouse → Result (Option String)) {κ : Type}
    [DecidableEq κ] {h : κ → ℤ} {rows : List (Measured κ)} (hrows : IsUnrepeated h rows)
    (hvalues : s = .keyCount → (rows.map (·.value)).reduceOption.Nodup) :
    f.aggregate p .none .snowflake values viewKey ownKey
        = .ok (s.plain (orNone values) : Term (List (Measured κ))).sql ∧
      f.aggregate p rowKey .snowflake values viewKey ownKey
        = .ok (s.symmetric (orNone values) key h).sql ∧
      ((s.symmetric (orNone values) key h).value rows = (s.plain (orNone values)).value rows ↔
        s = .average ∨ s = .keyCount ∨ ∃ r ∈ rows, r.value.isSome) :=
  ⟨aggregate_of_type htype hkeyed hcounted (show f.needsSymmetric p .none = .ok false from rfl) hkey
      values ownKey h,
    aggregate_of_type htype hkeyed hcounted hneeds hkey values ownKey h,
    value_symmetric_iff hrows hvalues⟩

end Agreement

/-- A measure that adds up prices. -/
def prices : Field := { view := default, definition := [("type", .text "sum")] }

theorem symmetric_agrees_prices :
    (Summary.sum.symmetric "price" "id" Nat.cast).value [⟨7, some 5⟩, ⟨8, none⟩]
      = ((Summary.sum.plain "price").value [⟨7, some 5⟩, ⟨8, none⟩] : Option ℚ) := by
  have hrows : IsUnrepeated Nat.cast [⟨7, some 5⟩, ⟨8, none⟩] := {
    keys := by decide
    decimals := by
      intro r hr v hv
      refine ⟨5000000, ?_⟩
      rcases mem_pair.mp hr with rfl | rfl <;> cases hv
      norm_num
    hash := Nat.cast_injective
    shifted := fun _ _ => by
      change (List.map (Summary.shifted "" "" Nat.cast).value _).Nodup
      decide +kernel }
  have hneeds : prices.needsSymmetric default .missing = .ok true := rfl
  obtain ⟨viewKey, hkey⟩ : ∃ k : Warehouse → Result String, k .snowflake = .ok "id" :=
    ⟨fun _ => .ok "id", rfl⟩
  exact (symmetric_agrees_iff (s := .sum) rfl nofun nofun hneeds hkey (some "price")
    (fun _ => .ok none) hrows nofun).2.2.mpr (.inr (.inr ⟨_, .head _, rfl⟩))

/-- Of values that are all null the sum over distinct keys is 0, and there is no count. -/
theorem nulls_apart :
    [Summary.sum, .count].map (fun s => ((s.symmetric "price" "id" Nat.cast).value [⟨7, none⟩],
        ((s.plain "price").value [⟨7, none⟩] : Option ℚ)))
      = [(some 0, none), (none, some 0)] := by
  decide +kernel

end Field

end SemanticLayer
