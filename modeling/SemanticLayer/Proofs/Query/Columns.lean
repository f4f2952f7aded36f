import SemanticLayer.Proofs.Project.Lookup
import SemanticLayer.Proofs.Project.Order
import SemanticLayer.Query.Merged

/-!
# Columns and the fields they stand for

The column of a field is the name of its view, an underscore and its alias, so two fields can share
one (`Field.column_eq_iff`).  The columns of merged results are those of the metrics, the dimensions
and the merged metrics, each once (`MergedQuery.columns_names`); a selection recognizes the name of
a column it selected (`Selection.columnName_expression`).
-/

namespace SemanticLayer

open Result List

variable {a : List Char} {cs : List (String × String)} {f : Field}
  {ins : Grouping (String × String)} {name part : String} {warehouse : Warehouse} {p : Project}
  {parts : Parts} {xs : List String} {α : Type}

variable {cs' : List (String × String)} {lookup : Grouping (String × String)}

/-! ### Cutting a text at a mark -/

namespace Text

/-- A text that is cut at a mark in two ways is cut at one place, or at one mark before another. -/
theorem cut_eq_iff {c : Char} {v w b : List Char} :
    v ++ c :: a = w ++ c :: b ↔ (v = w ∧ a = b) ∨ (∃ m, w = v ++ c :: m ∧ a = m ++ c :: b) ∨
      ∃ m, v = w ++ c :: m ∧ b = m ++ c :: a := by
  constructor
  · intro h
    obtain ⟨m, hw, ha⟩ | ⟨m, hv, hb⟩ := append_eq_append_iff.mp h
    · cases m with
      | nil => simp_all
      | cons d m =>
        obtain ⟨rfl, rfl⟩ := List.cons.inj ha
        exact .inr (.inl ⟨m, hw, rfl⟩)
    · cases m with
      | nil => simp_all
      | cons d m =>
        obtain ⟨rfl, rfl⟩ := List.cons.inj hb
        exact .inr (.inr ⟨m, hv, rfl⟩)
  · rintro (⟨rfl, rfl⟩ | ⟨m, rfl, rfl⟩ | ⟨m, rfl, rfl⟩) <;> simp

end Text

namespace Name

theorem undotted_of_isValid (h : isValid name = true) : '.' ∉ name.toList := by
  intro hdot
  unfold isValid Text.allBy at h
  rw [Bool.and_eq_true, all_eq_true] at h
  exact absurd (h.2 '.' hdot) (by decide)

end Name

/-! ### Fields that share a column -/

namespace Field

variable {g : Field} {fs : List Field}

/-- The view of the other field has a longer name, and what it has more stands at the front of the
alias. -/
def RunsInto (f g : Field) : Prop :=
  ∃ m, g.view.name = f.view.name ++ "_" ++ m ∧ f.aliasName = m ++ "_" ++ g.aliasName

def Apart (fs : List Field) : Prop := ∀ f ∈ fs, ∀ g ∈ fs, ¬ f.RunsInto g

theorem toList_column : f.column.toList = f.view.name.toList ++ '_' :: f.aliasName.toList := by
  simp [column]

theorem toList_id : f.id.toList = f.view.name.toList ++ '.' :: f.aliasName.toList := by
  simp [id]

theorem runsInto_iff : f.RunsInto g ↔ ∃ m, g.view.name.toList = f.view.name.toList ++ '_' :: m ∧
    f.aliasName.toList = m ++ '_' :: g.aliasName.toList := by
  constructor
  · rintro ⟨m, hv, hal⟩
    exact ⟨m.toList, by simp [hv], by simp [hal]⟩
  · rintro ⟨m, hv, hal⟩
    exact ⟨String.ofList m, String.toList_inj.mp (by simp [hv]),
      String.toList_inj.mp (by simp [hal])⟩

/-- **Two fields share a column exactly if they have one view and one alias, or if one runs into
the other.** -/
theorem column_eq_iff : f.column = g.column ↔
    (f.view.name = g.view.name ∧ f.aliasName = g.aliasName) ∨ f.RunsInto g ∨ g.RunsInto f := by
  rw [← String.toList_inj, toList_column, toList_column, Text.cut_eq_iff, runsInto_iff,
    runsInto_iff, String.toList_inj, String.toList_inj]

theorem id_eq_iff (hf : '.' ∉ f.view.name.toList) (hg : '.' ∉ g.view.name.toList) :
    f.id = g.id ↔ f.view.name = g.view.name ∧ f.aliasName = g.aliasName := by
  rw [← String.toList_inj, toList_id, toList_id, Text.cut_eq_iff, String.toList_inj,
    String.toList_inj]
  refine ⟨?_, .inl⟩
  rintro (h | ⟨m, hv, -⟩ | ⟨m, hv, -⟩)
  · exact h
  · simp [hv] at hg
  · simp [hv] at hf

theorem RunsInto.view_ne (h : f.RunsInto g) : f.view.name ≠ g.view.name := by
  obtain ⟨m, hv, -⟩ := runsInto_iff.mp h
  intro heq
  simp [heq] at hv

/-- The view and the alias: what an id and a column are made of. -/
def nameParts (f : Field) : String × String := (f.view.name, f.aliasName)

theorem card_columns_eq_iff (hvs : ∀ f ∈ fs, '.' ∉ f.view.name.toList) :
    (fs.map column).toFinset.card = (fs.map id).toFinset.card ↔ Apart fs := by
  have hcol : (fs.map column).toFinset
      = (fs.map nameParts).toFinset.image fun e => e.1 ++ "_" ++ e.2 := by
    ext x
    simp [nameParts, column]
  have hids : (fs.map id).toFinset
      = (fs.map nameParts).toFinset.image fun e => e.1 ++ "." ++ e.2 := by
    ext x
    simp [nameParts, id]
  have hsm : ((fs.map nameParts).toFinset.image fun e => e.1 ++ "." ++ e.2).card
      = (fs.map nameParts).toFinset.card := by
    refine Finset.card_image_of_injOn fun x hx y hy heq => ?_
    obtain ⟨f, hf, rfl⟩ := mem_map.mp (mem_toFinset.mp hx)
    obtain ⟨g, hg, rfl⟩ := mem_map.mp (mem_toFinset.mp hy)
    exact Prod.ext_iff.mpr ((id_eq_iff (hvs f hf) (hvs g hg)).mp heq)
  rw [hcol, hids, hsm, Finset.card_image_iff]
  constructor
  · intro hinj f hf g hg hruns
    have heq := hinj (mem_toFinset.mpr (mem_map_of_mem hf))
      (mem_toFinset.mpr (mem_map_of_mem hg)) (column_eq_iff.mpr (.inr (.inl hruns)))
    exact hruns.view_ne (Prod.ext_iff.mp heq).1
  · intro hap x hx y hy heq
    obtain ⟨f, hf, rfl⟩ := mem_map.mp (mem_toFinset.mp hx)
    obtain ⟨g, hg, rfl⟩ := mem_map.mp (mem_toFinset.mp hy)
    obtain hsm | hruns | hruns := column_eq_iff.mp heq
    · exact Prod.ext_iff.mpr hsm
    · exact absurd hruns (hap f hf g hg)
    · exact absurd hruns (hap g hg f hf)

theorem Apart.id_eq (h : Apart fs) (hf : f ∈ fs) (hg : g ∈ fs) (heq : f.column = g.column) :
    f.id = g.id := by
  obtain ⟨hv, hal⟩ | hruns | hruns := column_eq_iff.mp heq
  · rw [id, id, hv, hal]
  · exact absurd hruns (h f hf g hg)
  · exact absurd hruns (h g hg f hf)

end Field

/-! ### Views with valid names -/

namespace Store

variable {p : Store}

theorem view_of_fields {hidden expanded : Bool} {asked : Option Model} {fs : List Field}
    (h : p.seen.fields none hidden expanded asked = .ok fs) (hf : f ∈ fs) :
    ∃ e ∈ p.views, f.view.name = (e.definition.get "name").plain := by
  obtain ⟨e, he, hname, -⟩ := opens_of_fields h hf
  exact ⟨e, he, hname⟩

end Store

/-! ### Lists without repetitions -/

structure Enumerates (names xs : List String) : Prop where
  nodup : names.Nodup
  mem_iff : ∀ x, x ∈ names ↔ x ∈ xs

namespace Enumerates

variable {names xs : List String} {x : String}

theorem nil : Enumerates [] [] := ⟨nodup_nil, fun _ => Iff.rfl⟩

section

variable (h : Enumerates names xs)
include h

theorem skip (hx : x ∈ names) : Enumerates names (xs ++ [x]) :=
  ⟨h.nodup, fun y => by
    rw [mem_append, mem_singleton, ← h.mem_iff]
    exact ⟨.inl, fun hy => hy.elim (fun hy => hy) fun hy => hy ▸ hx⟩⟩

theorem push (hx : x ∉ names) : Enumerates (names ++ [x]) (xs ++ [x]) :=
  ⟨nodup_append.mpr ⟨h.nodup, nodup_singleton x, fun y hy z hz heq =>
      hx (mem_singleton.mp hz ▸ heq ▸ hy)⟩,
    fun y => by rw [mem_append, mem_append, h.mem_iff]⟩

theorem of_mem_iff {ys : List String} (hys : ∀ x, x ∈ xs ↔ x ∈ ys) : Enumerates names ys :=
  ⟨h.nodup, fun x => (h.mem_iff x).trans (hys x)⟩

theorem length_eq : names.length = xs.toFinset.card := by
  rw [← toFinset_card_of_nodup h.nodup]
  congr 1
  ext x
  simp [h.mem_iff]

end

theorem put {name : α → String} {acc : List α} (h : Enumerates (acc.map name) xs) (e : α) :
    Enumerates ((if acc.any fun o => name o == name e then acc else acc ++ [e]).map name)
      (xs ++ [name e]) := by
  split_ifs with hany
  · obtain ⟨o, ho, heq⟩ := any_eq_true.mp hany
    exact h.skip (eq_of_beq heq ▸ mem_map_of_mem ho)
  · rw [map_append]
    refine h.push fun hmem => hany ?_
    obtain ⟨o, ho, heq⟩ := mem_map.mp hmem
    exact any_eq_true.mpr ⟨o, ho, beq_iff_eq.mpr heq⟩

theorem firsts (name : α → String) (l : List α) {acc : List α} (h : Enumerates (acc.map name) xs) :
    Enumerates ((l.foldl (fun acc e =>
      if acc.any fun o => name o == name e then acc else acc ++ [e]) acc).map name)
      (xs ++ l.map name) := by
  induction l generalizing acc xs with
  | nil => simpa using h
  | cons e l ih => simpa using ih (h.put e)

end Enumerates

theorem Result.foldlM_brings {σ β : Type} {P : σ → List β → Prop} {step : σ → α → Result σ}
    (new : α → List β) (hs : ∀ s a s' xs, P s xs → step s a = .ok s' → P s' (xs ++ new a))
    (l : List α) {s s' : σ} {xs : List β} (h : P s xs) (hrun : l.foldlM step s = .ok s') :
    P s' (xs ++ l.flatMap new) := by
  induction l generalizing s xs with
  | nil =>
    cases hrun
    simpa using h
  | cons a l ih =>
    obtain ⟨s1, hs1, hrun⟩ := of_bind hrun
    simpa using ih (hs s a s1 xs h hs1) hrun

/-! ### The columns of merged results -/

namespace Sql

def Column.label : Column → Option String
  | .expression _ name => name
  | .star _ => none

end Sql

def Parts.fields (parts : Parts) : List Field :=
  parts.metrics.flatMap (·.2) ++ parts.dimensions.flatMap (·.2) ++ parts.merged

namespace MergedQuery

theorem mem_columns_byKey (t : Grouping Field) (x : String) :
    x ∈ (byKey t).flatMap (fun e => e.2.map Field.column) ↔
      x ∈ (t.flatMap (·.2)).map Field.column := by
  unfold byKey
  simp only [mem_flatMap, mem_mergeSort, mem_map]
  constructor
  · rintro ⟨e, he, f, hf, rfl⟩
    exact ⟨f, ⟨e, he, hf⟩, rfl⟩
  · rintro ⟨f, ⟨e, he, hf⟩, rfl⟩
    exact ⟨e, he, f, hf, rfl⟩

theorem metricColumns_enumerates (t : Grouping Field) :
    Enumerates ((metricColumns t).map (·.1)) ((t.flatMap (·.2)).map Field.column) := by
  have hnil : Enumerates (([] : List (String × String)).map (·.1)) [] := Enumerates.nil
  refine (hnil.firsts (·.1) ((byKey t).flatMap fun e => e.2.map fun f =>
    (f.column, e.1 ++ "." ++ f.column))).of_mem_iff fun x => ?_
  rw [← mem_columns_byKey]
  simp [map_flatMap]

def write (cs : List (String × String)) (name sql : String) : List (String × String) :=
  if cs.any (·.1 == name) then cs.map fun e => if e.1 == name then (e.1, sql) else e
  else cs ++ [(name, sql)]

theorem write_enumerates (h : Enumerates (cs.map (·.1)) xs) (name sql : String) :
    Enumerates ((write cs name sql).map (·.1)) (xs ++ [name]) := by
  unfold write
  split_ifs with hany
  · have hns : (cs.map fun e => if e.1 == name then (e.1, sql) else e).map (·.1)
        = cs.map (·.1) := by
      rw [map_map]
      refine map_congr_left fun e _ => ?_
      dsimp only [Function.comp_apply]
      split_ifs <;> rfl
    rw [hns]
    exact h.skip (by simpa using hany)
  · rw [map_append]
    exact h.push (by simpa using hany)

theorem dimensionColumn_eq_ok (h : dimensionColumn warehouse ins cs part f = .ok cs') :
    ∃ sql, cs' = write cs f.column sql ∨
      ∃ sql', cs' = write (write cs f.column sql) f.column sql' := by
  have htail : ∀ {cs1}, (if ins.has f.id then do
        let function ← ifNull warehouse
        let nested ← nestedIfNull function (ins.get f.id)
        return write cs1 f.column
          (function ++ "(" ++ (part ++ "." ++ f.column) ++ ", " ++ nested ++ ")")
      else return cs1) = Except.ok cs' → cs' = cs1 ∨ ∃ sql, cs' = write cs1 f.column sql := by
    intro cs1 h
    split_ifs at h
    · obtain ⟨function, -, h⟩ := of_bind h
      obtain ⟨nested, -, h⟩ := of_bind h
      cases h
      exact .inr ⟨_, rfl⟩
    · cases h
      exact .inl rfl
  unfold dimensionColumn at h
  dsimp only at h
  split at h
  · exact ⟨_, htail h⟩
  · obtain ⟨outer, -, h⟩ := of_bind h
    exact ⟨_, htail h⟩

theorem dimensionColumn_enumerates (h : Enumerates (cs.map (·.1)) xs)
    (hrun : dimensionColumn warehouse ins cs part f = .ok cs') :
    Enumerates (cs'.map (·.1)) (xs ++ [f.column]) := by
  obtain ⟨sql, rfl | ⟨sql', rfl⟩⟩ := dimensionColumn_eq_ok hrun
  · exact write_enumerates h _ _
  · refine (write_enumerates (write_enumerates h _ sql) _ sql').of_mem_iff fun x => ?_
    simp

theorem dimensionColumns_enumerates {t : Grouping Field} (h : (byKey t).foldlM (fun cs (part, fs) =>
      fs.foldlM (fun cs f => dimensionColumn warehouse ins cs part f) cs) [] = .ok cs) :
    Enumerates (cs.map (·.1)) ((t.flatMap (·.2)).map Field.column) := by
  have hpt : ∀ (cs : List (String × String)) (e : String × List Field)
      (cs' : List (String × String)) (xs : List String), Enumerates (cs.map (·.1)) xs →
      e.2.foldlM (fun cs f => dimensionColumn warehouse ins cs e.1 f) cs = .ok cs' →
      Enumerates (cs'.map (·.1)) (xs ++ e.2.map Field.column) := by
    intro cs e cs' xs hcs hrun
    have hfs := foldlM_brings (P := fun cs xs => Enumerates (cs.map (·.1)) xs)
      (fun f : Field => [f.column])
      (fun cs f cs' xs hcs hf => dimensionColumn_enumerates hcs hf) e.2 hcs hrun
    rwa [← map_eq_flatMap] at hfs
  have hall := foldlM_brings (P := fun cs xs => Enumerates (cs.map (·.1)) xs)
    (fun e => e.2.map Field.column) hpt (byKey t) Enumerates.nil h
  exact hall.of_mem_iff (mem_columns_byKey t)

/-- **The names of the columns of merged results**: those of the metrics and those of the
dimensions, each once, and then those of the merged metrics that are not among them. -/
theorem columns_names {cs : List Sql.Column} (h : columns p warehouse parts lookup = .ok cs) :
    ∃ metrics dimensions merged : List String,
      cs.map Sql.Column.label = (metrics ++ dimensions ++ merged).map some ∧
      Enumerates metrics ((parts.metrics.flatMap (·.2)).map Field.column) ∧
      Enumerates dimensions ((parts.dimensions.flatMap (·.2)).map Field.column) ∧
      ((metrics ++ dimensions).Nodup →
        Enumerates (metrics ++ dimensions ++ merged) (parts.fields.map Field.column)) := by
  obtain ⟨dimensions, hdim, h⟩ := of_bind h
  obtain ⟨⟨merged, taken⟩, hmg, h⟩ := of_bind h
  cases h
  have hms := metricColumns_enumerates parts.metrics
  have hdims := dimensionColumns_enumerates hdim
  refine ⟨(metricColumns parts.metrics).map (·.1), dimensions.map (·.1), merged.map (·.1),
    by simp [Sql.Column.label, Function.comp_def], hms, hdims, fun hnd => ?_⟩
  -- the names that are taken are those of all columns so far
  have hfr : Enumerates ((metricColumns parts.metrics).map (·.1) ++ dimensions.map (·.1))
      ((parts.metrics.flatMap (·.2)).map Field.column
        ++ (parts.dimensions.flatMap (·.2)).map Field.column) :=
    ⟨hnd, fun x => by rw [mem_append, mem_append, hms.mem_iff, hdims.mem_iff]⟩
  have hrun := foldlM_brings
    (P := fun (s : List (String × String) × List String) xs =>
      Enumerates ((metricColumns parts.metrics).map (·.1) ++ dimensions.map (·.1)
        ++ s.1.map (·.1)) xs ∧ ∀ x, x ∈ s.2 ↔ x ∈ xs)
    (fun f : Field => [f.column]) ?_ parts.merged
    ⟨by simpa using hfr, fun x => by rw [map_append]; exact hfr.mem_iff x⟩ hmg
  · have hns := hrun.1
    rw [← map_eq_flatMap] at hns
    unfold Parts.fields
    rwa [map_append, map_append]
  · rintro ⟨cs, taken⟩ f s' xs ⟨hcs, htk⟩ hs
    dsimp only at hcs htk hs
    split_ifs at hs with hmem
    · cases hs
      rw [contains_iff_mem, htk, ← hcs.mem_iff] at hmem
      exact ⟨hcs.skip hmem, fun x => by
        rw [htk, ← hcs.mem_iff, (hcs.skip hmem).mem_iff]⟩
    · obtain ⟨sql, -, hs⟩ := of_bind hs
      cases hs
      rw [contains_iff_mem, htk, ← hcs.mem_iff] at hmem
      have hpush := hcs.push hmem
      dsimp only
      refine ⟨by simpa using hpush, fun x => ?_⟩
      rw [mem_cons, htk, mem_append, mem_singleton, or_comm]

theorem columns_distinct_iff {cs : List Sql.Column}
    (h : columns p warehouse parts lookup = .ok cs)
    (hvs : ∀ f ∈ parts.fields, '.' ∉ f.view.name.toList)
    (hkinds : ∀ f ∈ parts.metrics.flatMap (·.2), ∀ g ∈ parts.dimensions.flatMap (·.2),
      f.id ≠ g.id) : (cs.map Sql.Column.label).Nodup ∧
      cs.length = (parts.fields.map Field.id).toFinset.card ↔ Field.Apart parts.fields := by
  obtain ⟨metrics, dimensions, merged, hlabels, hms, hdim, hall⟩ := columns_names h
  have hlen : cs.length = (metrics ++ dimensions ++ merged).length := by
    simpa using congrArg List.length hlabels
  rw [hlabels, nodup_map_iff (Option.some_injective _), hlen]
  constructor
  · rintro ⟨hnd, hct⟩
    have hns := hall (nodup_append.mp hnd).1
    exact (Field.card_columns_eq_iff hvs).mp (hns.length_eq.symm.trans hct)
  · intro hap
    have hfr : (metrics ++ dimensions).Nodup := by
      refine nodup_append.mpr ⟨hms.nodup, hdim.nodup, fun x hx y hy heq => ?_⟩
      obtain ⟨f, hf, rfl⟩ := mem_map.mp ((hms.mem_iff x).mp hx)
      obtain ⟨g, hg, rfl⟩ := mem_map.mp ((hdim.mem_iff y).mp hy)
      refine hkinds f hf g hg (hap.id_eq ?_ ?_ heq)
      · exact mem_append_left _ (mem_append_left _ hf)
      · exact mem_append_left _ (mem_append_right _ hg)
    have hns := hall hfr
    exact ⟨hns.nodup, hns.length_eq.trans ((Field.card_columns_eq_iff hvs).mpr hap)⟩

end MergedQuery

/-! ### Names that are read off a column -/

namespace Text

/-- The word in front of a column's name. -/
def asWord : List Char := [' ', 'a', 's', ' ']

/-- Behind the last such word a text without blanks is the last piece, unless the blank in front of
the word ends another. -/
theorem getLast?_splitChars_as (ha : ' ' ∉ a) (s : List Char) :
    (splitChars asWord 0 [] (s ++ (asWord ++ a))).getLast? = some a ∨
      (splitChars asWord 0 [] (s ++ (asWord ++ a))).getLast? = some ('a' :: 's' :: ' ' :: a) := by
  have hbody : ∀ j, 0 < j → ¬ asWord <:+: asWord.drop j ++ a := by
    intro j hj hin
    have hcount := hin.sublist.count_le ' '
    rw [count_append, count_eq_zero.mpr ha] at hcount
    rcases j with _ | _ | _ | _ | j <;> simp [asWord] at hj hcount
  obtain ⟨j, hj, hborder, hlast⟩ := getLast?_splitChars (by simp [asWord]) hbody s 0 []
    (by simp [asWord]) (by simp) (by simp)
  rw [hlast]
  rcases j with _ | _ | _ | _ | j <;> simp [asWord] at hj hborder ⊢

end Text

namespace Selection

/-- What is taken for the name of a column is the name under which it is selected, or that name
with the word in front of it. -/
theorem columnName_expression (sql : String) (hn : ' ' ∉ name.toList) :
    columnName (.expression sql (some name)) = name ∨
      columnName (.expression sql (some name)) = "as " ++ name := by
  have hrender : (Sql.Column.render false (.expression sql (some name))).toList
      = sql.toList ++ (Text.asWord ++ name.toList) := by
    simp [Sql.Column.render, Text.asWord]
  have hlast := Text.getLast?_splitChars_as hn sql.toList
  unfold columnName Text.split
  rw [hrender, show " as ".toList = Text.asWord from rfl, List.getLast?_map]
  obtain hlast | hlast := hlast <;> rw [hlast]
  · exact .inl (by simp)
  · exact .inr (String.toList_inj.mp (by simp))

theorem columnName_inj {sql sql' name' : String} (hn : ' ' ∉ name.toList) (hn' : ' ' ∉ name'.toList)
    (h : columnName (.expression sql (some name)) = columnName (.expression sql' (some name'))) :
    name = name' := by
  obtain heq | heq := columnName_expression sql hn <;>
    obtain heq' | heq' := columnName_expression sql' hn' <;> rw [heq, heq'] at h
  · exact h
  · exact absurd (by simp [h]) hn
  · exact absurd (by simp [← h]) hn'
  · simpa using h

theorem distinctColumns_enumerates (cs : List Sql.Column) :
    Enumerates ((distinctColumns cs).map columnName) (cs.map columnName) := by
  have hnil : Enumerates (([] : List Sql.Column).map columnName) [] := Enumerates.nil
  exact hnil.firsts columnName cs

theorem distinctColumns_subset (cs : List Sql.Column) : distinctColumns cs ⊆ cs := by
  have hrun : ∀ (cs acc : List Sql.Column), cs.foldl (fun acc c =>
      if acc.any fun o => columnName o == columnName c then acc else acc ++ [c]) acc
        ⊆ acc ++ cs := by
    intro cs
    induction cs with
    | nil => simp
    | cons c cs ih =>
      intro acc o ho
      rw [foldl_cons] at ho
      have hmem := ih _ ho
      split_ifs at hmem
      · exact (append_subset.mpr ⟨subset_append_left acc _, fun _ hmem => by simp [hmem]⟩) hmem
      · rwa [← append_cons] at hmem
  exact hrun cs []

theorem exists_of_distinctColumns {es : List (String × Field)}
    (hbl : ∀ e ∈ es, ' ' ∉ e.2.column.toList) (hap : Field.Apart (es.map (·.2)))
    {e : String × Field} (he : e ∈ es) :
    ∃ e' ∈ es, e'.2.id = e.2.id ∧ .expression e'.1 (some e'.2.column) ∈
      distinctColumns (es.map fun e => .expression e.1 (some e.2.column)) := by
  have hn := ((distinctColumns_enumerates _).mem_iff
    (columnName (.expression e.1 (some e.2.column)))).mpr
      (mem_map_of_mem (mem_map_of_mem (f := fun e : String × Field =>
        Sql.Column.expression e.1 (some e.2.column)) he))
  obtain ⟨c, hc, hn⟩ := mem_map.mp hn
  obtain ⟨e', he', rfl⟩ := mem_map.mp (distinctColumns_subset _ hc)
  have hcolumn := columnName_inj (hbl e' he') (hbl e he) hn
  exact ⟨e', he', hap.id_eq (mem_map_of_mem he') (mem_map_of_mem he) hcolumn, hc⟩

end Selection

/-! ### What identifies a field -/

namespace Field

theorem cumulativeTable_inj {g : Field} {a b : Bool} {table : String}
    (hap : Apart [f, g]) (hf : f.cumulativeTable a = some table)
    (hg : g.cumulativeTable b = some table) : f.id = g.id ∧ a = b := by
  unfold cumulativeTable at hf hg
  rw [Option.ite_none_right_eq_some] at hf hg
  have heq := (Option.some.inj hf.2).trans (Option.some.inj hg.2).symm
  have hk : a = b := by
    cases a <;> cases b <;> first | rfl | exact absurd (congrArg String.toList heq) (by simp)
  subst hk
  exact ⟨hap.id_eq (by simp) (by simp) (by simpa using heq), rfl⟩

def StandsIn (f : Field) (p : Store) : Prop :=
  ∃ e ∈ p.views, f.view.name = (e.definition.get "name").plain

end Field

namespace Store

variable {p : Store}

/-- The views of the project have names of letters, digits and underscores. -/
def NamesViews (p : Store) : Prop :=
  ∀ e ∈ p.views, Name.isValid (e.definition.get "name").plain = true

theorem NamesViews.undotted (hp : p.NamesViews) (hf : f.StandsIn p) : '.' ∉ f.view.name.toList := by
  obtain ⟨e, he, hv⟩ := hf
  rw [hv]
  exact Name.undotted_of_isValid (hp e he)

/-- **Columns identify fields exactly as far as no field runs into another.** -/
theorem columns_identify_fields (hp : p.NamesViews) {fs : List Field}
    (hfs : p.seen.fields none true true none = .ok fs) (hids : (fs.map Field.id).Nodup) :
    ((fs.map Field.column).Nodup ↔ Field.Apart fs) ∧
    (∀ seen warehouse (parts : Parts) lookup cs,
      MergedQuery.columns seen warehouse parts lookup = .ok cs →
      (∀ f ∈ parts.fields, f.StandsIn p) →
      (∀ f ∈ parts.metrics.flatMap (·.2), ∀ g ∈ parts.dimensions.flatMap (·.2), f.id ≠ g.id) →
      ((cs.map Sql.Column.label).Nodup ∧
        cs.length = (parts.fields.map Field.id).toFinset.card ↔ Field.Apart parts.fields)) ∧
    (∀ es : List (String × Field), (∀ e ∈ es, ' ' ∉ e.2.column.toList) →
      Field.Apart (es.map (·.2)) → ∀ e ∈ es, ∃ e' ∈ es, e'.2.id = e.2.id ∧
        .expression e'.1 (some e'.2.column) ∈
          Selection.distinctColumns (es.map fun e => .expression e.1 (some e.2.column))) ∧
    ∀ f g a b table, Field.Apart [f, g] → f.cumulativeTable a = some table →
      g.cumulativeTable b = some table → f.id = g.id ∧ a = b := by
  refine ⟨?_, fun seen warehouse parts lookup cs hcs hviews hkinds =>
      MergedQuery.columns_distinct_iff hcs (fun f hf => hp.undotted (hviews f hf)) hkinds,
    fun es hblank hapart e he => Selection.exists_of_distinctColumns hblank hapart he,
    fun f g a b table hapart hf hg => Field.cumulativeTable_inj hapart hf hg⟩
  rw [← Field.card_columns_eq_iff fun f hf => hp.undotted (view_of_fields hfs hf),
    toFinset_card_of_nodup hids, length_map]
  have hcard := Multiset.toFinset_card_eq_card_iff_nodup
    (m := Multiset.ofList (fs.map Field.column))
  simpa using hcard.symm

end Store

/-! ### Two views of one name and more -/

namespace Visits

def counting (name : String) : Shelf where
  fields := [[("name", .text name), ("field_type", .text "measure"), ("type", .text "count")]]
  always := .null

/-- A site with a measure of the given name, and its visits with a total. -/
def store (name : String) : Store :=
  { (default : Store) with
    views := [⟨[("name", .text "web")], some 0⟩, ⟨[("name", .text "web_visit")], some 1⟩],
    shelves := [counting name, counting "total"] }

theorem store_namesViews (name : String) : (store name).NamesViews := by
  have hns : ∀ e ∈ (store "").views, Name.isValid (e.definition.get "name").plain = true := by
    decide +kernel
  exact hns

theorem exists_fields (name : String) (check : List Field → Bool)
    (h : ((store name).seen.fields none true true none).toOption.any check = true) :
    ∃ fs, (store name).seen.fields none true true none = .ok fs ∧ check fs = true := by
  rcases hrun : (store name).seen.fields none true true none with e | fs
  · rw [hrun] at h
    cases h
  · rw [hrun] at h
    exact ⟨fs, rfl, h⟩

end Visits

/-- Totals under one name in both views are told apart. -/
theorem Store.columns_identify_totals : (Visits.store "total").NamesViews ∧
    ∃ fs, (Visits.store "total").seen.fields none true true none = .ok fs ∧
      fs.map Field.id = ["web.total", "web_visit.total"] ∧ (fs.map Field.id).Nodup ∧
      Field.Apart fs := by
  obtain ⟨fs, hfs, hcheck⟩ := Visits.exists_fields "total"
    (fun fs => decide (fs.map Field.id = ["web.total", "web_visit.total"] ∧
      (fs.map Field.column).Nodup)) (by decide +kernel)
  obtain ⟨hnames, hcolumns⟩ := of_decide_eq_true hcheck
  have hids : (fs.map Field.id).Nodup := by
    rw [hnames]
    decide
  exact ⟨Visits.store_namesViews _, fs, hfs, hnames, hids,
    (columns_identify_fields (Visits.store_namesViews _) hfs hids).1.mp hcolumns⟩

/-- The visits of the site and the total of the visits are two fields with one column, and merged
results have one of them. -/
theorem Visits.total_lost : (store "visit_total").NamesViews ∧
    ∃ f g : Field, (store "visit_total").seen.fields none true true none = .ok [f, g] ∧
      f.id = "web.visit_total" ∧ g.id = "web_visit.total" ∧ f.column = g.column ∧
      (MergedQuery.metricColumns [("web", [f]), ("web_visit", [g])]).length = 1 := by
  obtain ⟨fs, hfs, hcheck⟩ := exists_fields "visit_total"
    (fun fs => decide (fs.map Field.id = ["web.visit_total", "web_visit.total"] ∧
      fs.map Field.column = ["web_visit_total", "web_visit_total"])) (by decide +kernel)
  obtain ⟨hids, hcolumns⟩ := of_decide_eq_true hcheck
  match fs with
  | [] | [f] | f :: g :: k :: fs => simp at hids
  | [f, g] =>
    simp only [map_cons, map_nil, List.cons.injEq, and_true] at hids hcolumns
    refine ⟨store_namesViews _, f, g, hfs, hids.1, hids.2, hcolumns.1.trans hcolumns.2.symm, ?_⟩
    have hlength := (MergedQuery.metricColumns_enumerates
      [("web", [f]), ("web_visit", [g])]).length_eq
    simpa [hcolumns] using hlength

end SemanticLayer
