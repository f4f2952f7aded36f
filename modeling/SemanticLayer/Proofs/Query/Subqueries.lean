import SemanticLayer.Proofs.Outcome
import SemanticLayer.Proofs.Sorting
import SemanticLayer.Query.Merged

/-!
# The sub-queries of merged results

A success is taken apart into the layout, the mappings, and the steps through dimensions and
conditions (`parts_eq_ok`).  Each dimension brings fields that stand for it to the sub-queries
(`dimensionStep_adds`), so a sub-query there has at least one (`parts_isFilled`).  The tables of the
sub-queries are named by their dates and numbered (`nodup_names`).  Both together say what a query
of merged results is compiled to (`compile_isLaidOut`).
-/

namespace SemanticLayer

open SemanticLayer.Action List Result Grouping

variable {f g : Field} {keys : List String} {q : MergedQuery} {w w' : Workspace} {β : Type}

variable {k : String} {names : List (String × String)} {t : Grouping Field}
  {tables : List (String × Compiled)} {α : Type}

variable {c : Counterpart} {fs : List Field} {t' : Grouping Field}

/-! ### Sorted lists -/

theorem mergeSort_by_text (key : α → String) (l : List α) :
    (l.mergeSort fun a b => decide (key a ≤ key b))
      = l.insertionSort fun a b => decide (key a ≤ key b) = true :=
  mergeSort_eq_insertionSort (key_trans key) (key_total key) l

theorem mergeSort_by_count (l : List (α × Nat)) : (l.mergeSort fun a b => decide (b.2 ≤ a.2))
      = l.insertionSort fun a b => decide (b.2 ≤ a.2) = true :=
  mergeSort_eq_insertionSort (key_trans fun a : α × Nat => OrderDual.toDual a.2)
    (key_total fun a : α × Nat => OrderDual.toDual a.2) l

/-! ### Lists by key -/

namespace Grouping

variable {t : Grouping α}

section

variable (t : Grouping α) (key k : String) (xs : List α)

theorem has_iff : t.has k = true ↔ k ∈ t.keys := by
  simp [has, keys]

theorem keys_put :
    (t.put key xs).keys = if key ∈ t.keys then t.keys else t.keys ++ [key] := by
  unfold Grouping.put
  by_cases hhas : t.has key = true
  · rw [if_pos hhas, if_pos ((has_iff t key).mp hhas)]
    unfold keys
    rw [map_map]
    refine map_congr_left fun e _ => ?_
    by_cases he : e.1 = key <;> simp [he]
  · rw [if_neg hhas, if_neg fun h => hhas ((has_iff t key).mpr h)]
    simp [keys]

theorem get_put : (t.put key xs).get k = if k = key then xs else t.get k := by
  unfold Grouping.put
  by_cases hhas : t.has key = true
  · rw [if_pos hhas]
    unfold get
    rw [List.find?_map]
    have hks : ((·.1 == k) ∘ fun e : String × List α => if e.1 == key then (key, xs) else e)
        = (·.1 == k) := by
      funext e
      by_cases he : e.1 = key <;> simp [he]
    rw [hks]
    cases hfi : t.find? (·.1 == k) with
    | none =>
      have hne : k ≠ key := by
        rintro rfl
        obtain ⟨e, he, hek⟩ := any_eq_true.mp hhas
        exact List.find?_eq_none.mp hfi e he hek
      simp [hne]
    | some e =>
      have hek : e.1 = k := by simpa using List.find?_some hfi
      by_cases hk : k = key <;> simp [hek, hk]
  · rw [if_neg hhas]
    unfold get
    rw [List.find?_append]
    by_cases hk : k = key
    · subst hk
      have hno : t.find? (·.1 == k) = none :=
        List.find?_eq_none.mpr fun e he hek => hhas (any_eq_true.mpr ⟨e, he, hek⟩)
      simp [hno]
    · simp [hk, Ne.symm hk]

theorem get_add (x : α) :
    (t.add key x).get k = if k = key then t.get key ++ [x] else t.get k := get_put ..

theorem get_foldl_add :
    (xs.foldl (fun t x => t.add key x) t).get k = t.get k ++ if k = key then xs else [] := by
  induction xs generalizing t with
  | nil => simp
  | cons x xs ih =>
    rw [foldl_cons, ih, get_add]
    by_cases hk : k = key
    · subst hk
      simp
    · simp [hk]

end

theorem nodup_keys_put (h : t.keys.Nodup) (key : String) (xs : List α) :
    (t.put key xs).keys.Nodup := by
  rw [keys_put]
  split_ifs with hkey
  · exact h
  · rw [nodup_append]
    refine ⟨h, by simp, ?_⟩
    rintro a ha b hb rfl
    exact hkey (by simpa [mem_singleton.mp hb] using ha)

theorem entry_of_mem_get {x : α} (h : x ∈ t.get k) : (k, t.get k) ∈ t := by
  unfold get at h ⊢
  cases hfi : t.find? (·.1 == k) with
  | none => simp [hfi] at h
  | some e =>
    have hk : e.1 = k := by simpa using List.find?_some hfi
    have hmem := List.mem_of_find?_eq_some hfi
    simpa [← hk] using hmem

theorem mem_keys_of_mem_get {x : α} (h : x ∈ t.get k) : k ∈ t.keys :=
  mem_map.mpr ⟨_, entry_of_mem_get h, rfl⟩

theorem exists_find (h : k ∈ t.keys) : ∃ xs, t.find? (·.1 == k) = some (k, xs) := by
  obtain ⟨e, he, rfl⟩ := mem_map.mp h
  have hsome : (t.find? (·.1 == e.1)).isSome := List.find?_isSome.mpr ⟨e, he, by simp⟩
  obtain ⟨e', he'⟩ := Option.isSome_iff_exists.mp hsome
  have hkey : e'.1 = e.1 := by simpa using List.find?_some he'
  exact ⟨e'.2, by rw [he', ← hkey]⟩

theorem keys_map (t : Grouping α) (f : List α → List β) :
    Grouping.keys (t.map fun e => (e.1, f e.2)) = t.keys := by
  simp [keys]

theorem get_map (t : Grouping α) {f : List α → List β} (hf : f [] = []) (k : String) :
    Grouping.get (t.map fun e => (e.1, f e.2)) k = f (t.get k) := by
  unfold get
  rw [List.find?_map]
  change (((t.find? (·.1 == k)).map _).map _).getD [] = _
  cases t.find? (·.1 == k) with
  | none => exact hf.symm
  | some e => rfl

theorem mem_get_add {x y : α} :
    y ∈ (t.add key x).get k ↔ y ∈ t.get k ∨ k = key ∧ y = x := by
  rw [get_add]
  by_cases hk : k = key <;> simp [hk]

def IsFilled (t : Grouping α) : Prop := ∀ e ∈ t, e.2 ≠ []

theorem IsFilled.put (h : t.IsFilled) (key : String) {xs : List α} (hxs : xs ≠ []) :
    (t.put key xs).IsFilled := by
  intro e he
  unfold Grouping.put at he
  split_ifs at he
  · obtain ⟨e', he', rfl⟩ := mem_map.mp he
    split_ifs
    · exact hxs
    · exact h e' he'
  · rcases mem_append.mp he with he | he
    · exact h e he
    · rw [mem_singleton.mp he]
      exact hxs

theorem IsFilled.add (h : t.IsFilled) (key : String) (x : α) : (t.add key x).IsFilled :=
  h.put key (by simp)

end Grouping

namespace Project

theorem gathered_sublist (fs acc : List Field) :
    (fs.foldl (fun acc f => if acc.any (·.id == f.id) then acc else acc ++ [f]) acc).Sublist
      (acc ++ fs) := by
  induction fs generalizing acc with
  | nil => simp
  | cons f fs ih =>
    rw [foldl_cons]
    split_ifs
    · exact (ih acc).trans ((List.Sublist.refl acc).append (sublist_cons_self f fs))
    · simpa using ih (acc ++ [f])

theorem exists_mem_gathered (fs acc : List Field) (h : f ∈ acc ∨ f ∈ fs) :
    ∃ g ∈ fs.foldl (fun acc f => if acc.any (·.id == f.id) then acc else acc ++ [f]) acc,
      g.id = f.id := by
  induction fs generalizing acc f with
  | nil => exact ⟨f, by simpa using h, rfl⟩
  | cons a fs ih =>
    rw [foldl_cons]
    split_ifs with hany
    · rcases h with h | h
      · exact ih acc (.inl h)
      · rcases mem_cons.mp h with rfl | h
        · -- another field of this name is there already
          obtain ⟨g, hg, hid⟩ := any_eq_true.mp hany
          obtain ⟨g', hg', hid'⟩ := ih acc (.inl hg)
          exact ⟨g', hg', hid'.trans (by simpa using hid)⟩
        · exact ih acc (.inr h)
    · refine ih _ ?_
      rcases h with h | h
      · exact .inl (by simp [h])
      · exact (mem_cons.mp h).imp (by simp [·]) id

theorem distinct_sublist (fs : List Field) : (distinct fs).Sublist fs := gathered_sublist fs []

theorem mem_of_mem_distinct (h : f ∈ distinct fs) : f ∈ fs :=
  (distinct_sublist fs).subset h

theorem exists_mem_distinct (h : f ∈ fs) : ∃ g ∈ distinct fs, g.id = f.id :=
  exists_mem_gathered fs [] (.inr h)

end Project

namespace MergedQuery

theorem get_distinctAll (t : Grouping Field) (k : String) :
    (distinctAll t).get k = Project.distinct (t.get k) :=
  get_map t rfl k

theorem mem_of_mem_distinctAll (h : f ∈ (distinctAll t).get k) : f ∈ t.get k := by
  rw [get_distinctAll] at h
  exact Project.mem_of_mem_distinct h

/-! ### The steps of a query -/

/-- What stands for the fields of a query in its sub-queries: every date for every other, and what
the mappings bring. -/
def Layout.counterparts (l : Layout) (mappings : List (String × Mapping)) : Grouping Counterpart :=
  (mappings.foldl (mappingStep l.keys) (l.byDate, l.byDate)).2

/-- The steps by which the sub-queries of a query come about, with what each of them gives and the
workspace that it leaves. -/
structure Steps (q : MergedQuery) (w : Workspace) (parts : Parts) (w' : Workspace) where
  layout : Layout
  laid : Workspace
  isLaid : q.layout w = (.ok layout, laid)
  model : Model
  isModel : q.needModel = .ok model
  mappings : List (String × Mapping)
  mapped : Workspace
  areMapped : Action.fieldMappings model true laid = (.ok mappings, mapped)
  /-- The dimensions of the sub-queries, as they were brought to them. -/
  dimensions : Grouping Field
  placed : Workspace
  arePlaced : q.dimensions.foldlM
      (dimensionStep layout.dates layout.keys (layout.counterparts mappings)) (layout.metrics, [])
      mapped = (.ok (parts.metrics, dimensions), placed)
  areDistinct : parts.dimensions = distinctAll dimensions
  conditions : List Condition
  areConditions : q.needWheres = .ok conditions
  /-- The conditions of the sub-queries, as they were brought to them. -/
  wheres : Grouping Condition
  areBrought : conditions.foldlM
      (conditionStep parts.metrics parts.dimensions (layout.counterparts mappings)) [] placed
      = (.ok wheres, w')
  areClean : parts.wheres = wheres.map fun e => (e.1, distinctConditions e.2)

variable {parts : Parts}

theorem parts_eq_ok (h : q.parts w = (.ok parts, w')) : Nonempty (q.Steps w parts w') := by
  unfold MergedQuery.parts at h
  obtain ⟨l, w1, hlay, h⟩ := of_bind h
  obtain ⟨m, hmd, h⟩ := of_lift_bind h
  obtain ⟨mappings, w3, hmp, h⟩ := of_bind h
  obtain ⟨⟨metrics, dimensions⟩, w4, hdim, h⟩ := of_bind h
  obtain ⟨cs, hcs, h⟩ := of_lift_bind h
  obtain ⟨wheres, hwh, rfl⟩ := of_bind_pure h
  exact ⟨⟨l, w1, hlay, m, hmd, mappings, w3, hmp, dimensions, w4, hdim, rfl, cs,
    hcs, wheres, hwh, rfl⟩⟩

/-! ### Dimensions of sub-queries -/

theorem distinctAll_isFilled (h : t.IsFilled) : (distinctAll t).IsFilled := by
  intro e he
  obtain ⟨e', he', rfl⟩ := mem_map.mp he
  obtain ⟨f, hf⟩ := exists_mem_of_ne_nil _ (h e' he')
  obtain ⟨g, hg, -⟩ := Project.exists_mem_distinct hf
  exact ne_nil_of_mem hg

/-- Fields of one kind come to lists, each to the end of one. -/
inductive Adds (P : Field → Prop) (t : Grouping Field) : Grouping Field → Prop
  | refl : Adds P t t
  | add {t' : Grouping Field} {g : Field} (key : String) : Adds P t t' → P g →
      Adds P t (t'.add key g)

namespace Adds

variable {P : Field → Prop} {t'' : Grouping Field}

theorem trans (h : Adds P t t') (h' : Adds P t' t'') : Adds P t t'' := by
  induction h' with
  | refl => exact h
  | add key _ hg ih => exact ih.add key hg

theorem isFilled (h : Adds P t t') (ht : t.IsFilled) : t'.IsFilled := by
  induction h with
  | refl => exact ht
  | add key _ _ ih => exact ih.add key _

def Has (P : Field → Prop) (f : Field) (t t' : Grouping Field) : Prop :=
  ∃ t1 key, Adds P t t1 ∧ Adds P (t1.add key f) t'

theorem Has.trans (h : Has P f t t') (h' : Adds P t' t'') : Has P f t t'' := by
  obtain ⟨t1, key, hbef, hbeh⟩ := h
  exact ⟨t1, key, hbef, hbeh.trans h'⟩

theorem Has.adds (h : Has P f t t') (hf : P f) : Adds P t t' := by
  obtain ⟨t1, key, hbef, hbeh⟩ := h
  exact (hbef.add key hf).trans hbeh

end Adds

/-- The name by which a counterpart of a dimension is looked up: a date of the query at the
timeframe of the dimension. -/
def counterpartName (dates : List String) (f : Field) (c : Counterpart) : String :=
  if dates.contains f.key then c.field ++ "_" ++ f.group.plain else c.field

/-- The fields that stand for a dimension: itself and its counterparts. -/
def family (p : Project) (dates : List String) (all : Grouping Counterpart) (f : Field) :
    List Field :=
  f :: (all.get f.key).filterMap fun c => (p.getField (counterpartName dates f c)).toOption

theorem mem_family {p : Project} {dates : List String} {all : Grouping Counterpart} :
    g ∈ family p dates all f ↔
      g = f ∨ ∃ c ∈ all.get f.key, p.getField (counterpartName dates f c) = .ok g := by
  have hrd : ∀ c, (p.getField (counterpartName dates f c)).toOption = some g ↔
      p.getField (counterpartName dates f c) = .ok g := by
    intro c
    cases p.getField (counterpartName dates f c) <;> simp [Except.toOption]
  simp [family, hrd]

section Placing

variable {p : Project} {metrics : Grouping Field} {dates parts graphs : List String}
  {all : Grouping Counterpart} {components : String}

theorem self_mem_family : f ∈ family p dates all f := mem_family.mpr (Or.inl rfl)

section

variable (hnot : dates.contains f.key = false)
include hnot

theorem counterpart_mem_family (hc : c ∈ all.get f.key) (hg : p.getField c.field = .ok g) :
    g ∈ family p dates all f := by
  refine mem_family.mpr (Or.inr ⟨c, hc, ?_⟩)
  rw [counterpartName, hnot]
  exact hg

theorem counterpartStep_adds (hc : c ∈ all.get f.key)
    (h : counterpartStep p metrics parts t c = .ok t') : Adds (· ∈ family p dates all f) t t' := by
  unfold counterpartStep at h
  obtain ⟨g, hg, h⟩ := of_bind h
  have hkin := counterpart_mem_family hnot hc hg
  split_ifs at h
  · cases h
    exact Adds.refl.add _ hkin
  obtain ⟨date, -, h⟩ := of_bind h
  obtain ⟨component, -, h⟩ := of_bind h
  split at h
  all_goals
    cases h
    exact Adds.refl.add _ hkin

theorem placeStep_adds {s s' : Grouping Field × Bool} {part : String}
    (hs : Adds (· ∈ family p dates all f) t s.1)
    (hfd : s.2 = true → Adds.Has (· ∈ family p dates all f) f t s.1)
    (h : placeStep p metrics parts all f graphs s part = .ok s') :
    Adds (· ∈ family p dates all f) t s'.1 ∧
      (s'.2 = true → Adds.Has (· ∈ family p dates all f) f t s'.1) := by
  unfold placeStep at h
  split_ifs at h
  · cases h
    exact ⟨hs.add part self_mem_family, fun _ => ⟨s.1, part, hs, .refl⟩⟩
  · cases h
  · obtain ⟨t', ht', h⟩ := of_bind h
    cases h
    have hr : Adds (· ∈ family p dates all f) s.1 t' :=
      foldlM_induct _ ht' .refl fun t1 c t2 hc ht1 hstep =>
        ht1.trans (counterpartStep_adds hnot hc hstep)
    exact ⟨hs.trans hr, fun htrue => (hfd htrue).trans hr⟩

theorem ownPart_adds {r : Grouping Field × Grouping Field}
    (h : ownPart p all f components metrics t = .ok r) :
    Adds.Has (· ∈ family p dates all f) f t r.2 := by
  unfold ownPart at h
  obtain ⟨date, -, h⟩ := of_bind h
  obtain ⟨t', ht', h⟩ := of_bind h
  cases h
  refine ⟨t, date ++ "__" ++ components, .refl, ?_⟩
  refine foldlM_induct _ ht' .refl fun t1 c t2 hc ht1 hs => ?_
  obtain ⟨g, hg, hs⟩ := of_bind hs
  obtain ⟨date', -, hs⟩ := of_bind hs
  obtain ⟨component, -, hs⟩ := of_bind hs
  cases hs
  exact ht1.add _ (counterpart_mem_family hnot hc hg)

end

variable {s s' : Grouping Field × Grouping Field} {name : String}
  (h : dimensionStep dates parts all s name w = (.ok s', w'))
include h

/-- Where a dimension is a date of the query its counterparts are looked up at its timeframe, else
it is placed in one sub-query after the other. -/
theorem dimensionStep_eq_ok : ∃ f components w1, w.project.seen.getField name = .ok f ∧
      componentKey f w = (.ok components, w1) ∧
      ((dates.contains f.key = true ∧ s'.1 = s.1 ∧
        ((all.get f.key).foldlM (fun (t : Grouping Field) c => do
          let g ← w.project.seen.getField (c.field ++ "_" ++ f.group.plain)
          return t.add c.part g)
          (s.2.add (Text.replace f.key "." "_" ++ "__" ++ components) f) : Action _) w1
            = (.ok s'.2, w')) ∨
      dates.contains f.key = false ∧ ∃ graphs r, graphsFor parts f w1 = (.ok graphs, w') ∧
        parts.foldlM (placeStep w.project.seen s.1 parts all f graphs) (s.2, false) = .ok r ∧
        (r.2 = true ∧ s' = (s.1, r.1) ∨
          r.2 = false ∧ ownPart w.project.seen all f components s.1 r.1 = .ok s')) := by
  unfold dimensionStep at h
  replace h := of_project_bind h
  obtain ⟨f, hf, h⟩ := of_lift_bind h
  obtain ⟨components, w1, hcom, h⟩ := of_bind h
  refine ⟨f, components, w1, hf, hcom, ?_⟩
  split_ifs at h with hdt
  · obtain ⟨t, ht, rfl⟩ := of_bind_pure h
    exact .inl ⟨hdt, rfl, ht⟩
  · obtain ⟨graphs, w2, hgraphs, h⟩ := of_bind h
    obtain ⟨r, w3, hplace, h⟩ := of_bind h
    rw [foldlM_lift] at hplace
    obtain ⟨hplaced, rfl⟩ := lift_eq_ok.mp hplace
    refine .inr ⟨by simpa using hdt, graphs, r, ?_⟩
    dsimp only at h
    split_ifs at h with hfd
    · obtain ⟨rfl, rfl⟩ := pure_eq_ok.mp h
      exact ⟨hgraphs, hplaced, .inl ⟨hfd, rfl⟩⟩
    · obtain ⟨hown, rfl⟩ := lift_eq_ok.mp h
      exact ⟨hgraphs, hplaced, .inr ⟨by simpa using hfd, hown⟩⟩

theorem dimensionStep_adds : ∃ f, w.project.seen.getField name = .ok f ∧
      Adds.Has (· ∈ family w.project dates all f) f s.2 s'.2 := by
  obtain ⟨f, components, w1, hf, -, ⟨hdt, -, ht⟩ | ⟨hnot, graphs, r, -, hplace, hr⟩⟩ :=
    dimensionStep_eq_ok h
  · refine ⟨f, hf, s.2, Text.replace f.key "." "_" ++ "__" ++ components, .refl, ?_⟩
    refine foldlM_induct_mem ht .refl fun t1 c t2 w5 w6 hc ht1 hs => ?_
    obtain ⟨g, hrd, hs⟩ := of_lift_bind hs
    obtain ⟨rfl, -⟩ := pure_eq_ok.mp hs
    refine ht1.add _ (mem_family.mpr (Or.inr ⟨c, hc, ?_⟩))
    rwa [counterpartName, if_pos hdt]
  · obtain ⟨hadds, hfd⟩ := foldlM_induct
      (P := fun r : Grouping Field × Bool => Adds (· ∈ family w.project dates all f) s.2 r.1 ∧
        (r.2 = true → Adds.Has (· ∈ family w.project dates all f) f s.2 r.1))
      parts hplace ⟨.refl, by simp⟩ fun r k r' _ hr hs => placeStep_adds hnot hr.1 hr.2 hs
    refine ⟨f, hf, ?_⟩
    rcases hr with ⟨htrue, rfl⟩ | ⟨-, hown⟩
    · exact hfd htrue
    · obtain ⟨t1, key, hbef, hbeh⟩ := ownPart_adds hnot hown
      exact ⟨t1, key, hadds.trans hbef, hbeh⟩

end Placing

theorem parts_isFilled (h : q.parts w = (.ok parts, w')) : parts.dimensions.IsFilled := by
  obtain ⟨s⟩ := parts_eq_ok h
  rw [s.areDistinct]
  refine distinctAll_isFilled (foldlM_induct (P := fun s => s.2.IsFilled) _ s.arePlaced
    (by simp [IsFilled]) fun s name s' w w' ht h => ?_)
  obtain ⟨f, -, hadds⟩ := dimensionStep_adds h
  exact (hadds.adds self_mem_family).isFilled ht

/-! ### Names of tables -/

theorem takeWhile_isDigit_numbered (s : String) (n : Nat) :
    (s ++ "__cte_subquery_" ++ toString n).toList.reverse.takeWhile Char.isDigit
      = (Nat.toDigits 10 n).reverse := by
  have hall : ∀ c ∈ (Nat.toDigits 10 n).reverse, c.isDigit = true := fun c hc =>
    Nat.isDigit_of_mem_toDigits (by decide) (by decide) (mem_reverse.mp hc)
  rw [String.toList_append, String.toList_append, Nat.toString_eq_repr, Nat.toList_repr,
    reverse_append, reverse_append, takeWhile_append_of_pos hall]
  -- the text before them ends with a mark that is no digit
  change (Nat.toDigits 10 n).reverse ++ List.takeWhile Char.isDigit ('_' :: _) = _
  rw [takeWhile_cons_of_neg (by decide), append_nil]

theorem numbered_inj {s t : String} {i j : Nat}
    (h : s ++ "__cte_subquery_" ++ toString i = t ++ "__cte_subquery_" ++ toString j) : i = j := by
  have hdig : (Nat.toDigits 10 i).reverse = (Nat.toDigits 10 j).reverse := by
    rw [← takeWhile_isDigit_numbered s i, ← takeWhile_isDigit_numbered t j, h]
  rw [reverse_inj] at hdig
  rw [← Nat.ofDigitChars_toDigits (b := 10) (n := i) (by decide) (by decide), hdig,
    Nat.ofDigitChars_toDigits (by decide) (by decide)]

theorem map_fst_tableNames (keys : List String) :
    (tableNames keys).map (·.1) = keys.mergeSort fun a b => decide (a ≤ b) := by
  unfold tableNames
  rw [map_map]
  exact zipIdx_map_fst _ _

theorem nodup_map_snd_tableNames (keys : List String) : ((tableNames keys).map (·.2)).Nodup := by
  unfold tableNames
  generalize (keys.mergeSort fun a b => decide (a ≤ b)) = sorted
  have hplaces := nodup_range' (s := 0) (n := sorted.length)
  rw [← zipIdx_map_snd, List.Nodup, pairwise_map] at hplaces
  rw [map_map, List.Nodup, pairwise_map]
  exact hplaces.imp fun hne heq => hne (numbered_inj heq)

theorem nameOf_mem_tableNames {key : String} (h : key ∈ keys) :
    (key, nameOf (tableNames keys) key) ∈ tableNames keys := by
  have hmem : key ∈ (tableNames keys).map (·.1) := by
    rw [map_fst_tableNames, mem_mergeSort]
    exact h
  obtain ⟨e, he, rfl⟩ := mem_map.mp hmem
  cases hfi : (tableNames keys).find? (·.1 == e.1) with
  | none => simpa using List.find?_eq_none.mp hfi e he
  | some e' =>
    have hkey : e'.1 = e.1 := by simpa using List.find?_some hfi
    rw [nameOf, hfi, ← hkey]
    exact List.mem_of_find?_eq_some hfi

theorem nodup_names (h : keys.Nodup) : (keys.map (nameOf (tableNames keys))).Nodup := by
  refine h.map_on fun k hk k' hk' heq => ?_
  have hinj := inj_on_of_nodup_map (nodup_map_snd_tableNames keys)
    (nameOf_mem_tableNames hk) (nameOf_mem_tableNames hk') heq
  exact congrArg Prod.fst hinj

/-! ### Compiled queries -/

/-- **How a query of merged results is laid out**: its sub-queries are tables, and the first of them
is joined with the others. -/
structure IsLaidOut (q : MergedQuery) (w : Workspace) (warehouse : Warehouse)
    (dimensions : Grouping Field) (first : String) (rest : List String)
    (tables : List (String × Sql.Statement)) (body : Sql.Select) : Prop where
  placed : ∃ parts w', q.parts w = (.ok parts, w') ∧
    renamed (tableNames parts.keys) parts.dimensions = .ok dimensions
  filled : dimensions.IsFilled
  compiled : (first :: rest).Perm (tables.map (·.1))
  distinct : (first :: rest).Nodup
  source : body.source = some { table := first }
  joins : joinClauses warehouse dimensions (first :: rest) = .ok body.joins

theorem renamed_isFilled (ht : t.IsFilled) (h : renamed names t = .ok t') : t'.IsFilled := by
  intro e he
  obtain ⟨⟨k, xs⟩, hmem, h⟩ := exists_of_mem_mapM h he
  dsimp only at h
  split at h
  · cases h
    exact ht (k, xs) hmem
  · cases h

theorem needWarehouse_eq_ok {warehouse : Warehouse}
    (h : q.needWarehouse keys = .ok warehouse) : q.warehouse = some warehouse ∧ keys ≠ [] := by
  unfold needWarehouse at h
  split at h
  · next hw =>
    split_ifs at h with hks
    · cases h
    · cases h
      exact ⟨hw, by simpa using hks⟩
  · cases h

theorem compileParts_names (h : q.compileParts parts names w = (.ok tables, w')) :
    tables.map (·.1) = parts.keys.map (nameOf names) := by
  refine map_of_mapM (fun k w e w' h => ?_) h
  obtain ⟨c, -, rfl⟩ := of_bind_pure h
  rfl

theorem bodiesOf_names {bodies : List (String × Sql.Statement)} (h : bodiesOf tables = .ok bodies) :
    bodies.map (·.1) = tables.map (·.1) := by
  refine map_of_mapM (fun e e' h => ?_) h
  rcases e with ⟨name, c | c⟩ <;> cases h
  rfl

theorem compile_isLaidOut {funnel : Value}
    {statement : Sql.Statement} (h : q.compile funnel w = (.ok statement, w')) :
    ∃ warehouse dimensions first rest tables body, q.warehouse = some warehouse ∧
      statement = .select tables body ∧
      q.IsLaidOut w warehouse dimensions first rest tables body := by
  unfold MergedQuery.compile at h
  split_ifs at h
  · obtain ⟨_, _, hthrow, -⟩ := of_bind h
    cases (lift_eq_ok.mp hthrow).1
  -- the names in conditions are only looked at
  obtain ⟨_, _, hrs, h⟩ := of_bind h
  obtain ⟨_, _, hgs, h⟩ := of_bind h
  obtain ⟨-, rfl⟩ := lift_eq_ok.mp hrs
  obtain ⟨-, rfl⟩ := lift_eq_ok.mp hgs
  obtain ⟨parts, _, hpts, h⟩ := of_bind h
  obtain ⟨compiled, _, hcompiled, h⟩ := of_bind h
  obtain ⟨_, _, -, h⟩ := of_bind h
  obtain ⟨dimensions, _, hdims, h⟩ := of_bind h
  obtain ⟨_, _, -, h⟩ := of_bind h
  obtain ⟨warehouse, _, hwar, h⟩ := of_bind h
  obtain ⟨_, _, -, h⟩ := of_bind h
  obtain ⟨joins, _, hjs, h⟩ := of_bind h
  iterate 3 obtain ⟨_, _, -, h⟩ := of_bind h
  obtain ⟨tables, htbs, rfl⟩ := of_bind_pure h
  obtain ⟨hdims, -⟩ := lift_eq_ok.mp hdims
  obtain ⟨hjs, -⟩ := lift_eq_ok.mp hjs
  obtain ⟨hwar, hks⟩ := needWarehouse_eq_ok (lift_eq_ok.mp hwar).1
  have hns := compileParts_names hcompiled
  have hbodies := bodiesOf_names (lift_eq_ok.mp htbs).1
  have hpm := mergeSort_perm (compiled.map (·.1)) fun a b => decide (a ≤ b)
  generalize (compiled.map (·.1)).mergeSort (fun a b => decide (a ≤ b)) = sorted at hpm hjs ⊢
  cases sorted with
  | nil =>
    rw [hns] at hpm
    exact absurd (map_eq_nil_iff.mp hpm.symm.eq_nil) hks
  | cons first rest =>
    refine ⟨warehouse, dimensions, first, rest, tables, _, hwar, rfl, ?_⟩
    exact
      { placed := ⟨parts, _, hpts, hdims⟩
        filled := renamed_isFilled (parts_isFilled hpts) hdims
        compiled := by rw [hbodies]; exact hpm
        distinct := hpm.nodup_iff.mpr (by rw [hns]; exact nodup_names (nodup_eraseDups _))
        source := rfl
        joins := hjs }

end MergedQuery

end SemanticLayer
