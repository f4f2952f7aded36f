import SemanticLayer.Project.Arrange
import SemanticLayer.Proofs.Outcome
import SemanticLayer.Proofs.Sorting
import SemanticLayer.Proofs.Value.Definition

/-!
# Written definitions

A definition is written with its keys in another order (`byKeys_perm`), a view with its fields
sorted (`fields_eq`), and what was written once is written the same way again.
-/

namespace SemanticLayer.Arrange

open List Definition

variable {d f : Definition} {fs : List Definition} {k : String} {order : List String} {v : Value}

/-! ### Keys -/

theorem mem_iff_get? (hd : d.keys.Nodup) : (k, v) ∈ d ↔ d.get? k = some v := by
  refine ⟨fun h => ?_, mem_of_get?⟩
  obtain ⟨w, hw⟩ := Option.isSome_iff_exists.mp (get?_isSome h)
  cases inj_on_of_nodup_map hd h (mem_of_get? hw) rfl
  exact hw

theorem get?_perm {e : Definition} (hd : d.keys.Nodup) (h : e.Perm d) (k : String) :
    e.get? k = d.get? k := by
  have he : e.keys.Nodup := (h.map _).nodup_iff.mpr hd
  refine Option.ext fun v => ?_
  rw [← mem_iff_get? he, ← mem_iff_get? hd, h.mem_iff]

theorem byKeys_perm (ho : order.Nodup) (hd : d.keys.Nodup) : (byKeys order d).Perm d := by
  refine (Perm.append_right _ ?_).trans (filter_append_perm (fun e => order.contains e.1) d)
  refine (perm_ext_iff_of_nodup (ho.filterMap ?_) (hd.of_map.filter _)).mpr ?_
  · simp_all
  · rintro ⟨k, v⟩
    simp [mem_iff_get? hd, and_comm]

theorem filter_byKeys (order : List String) (d : Definition) :
    (byKeys order d).filter (fun (k, _) => !order.contains k)
      = d.filter fun (k, _) => !order.contains k := by
  rw [byKeys, filter_append, filter_filter, filter_eq_nil_iff.mpr]
  · simp
  · simp only [mem_filterMap, Option.map_eq_some_iff]
    rintro _ ⟨k, hk, v, -, rfl⟩
    simp [hk]

theorem byKeys_byKeys (ho : order.Nodup) (hd : d.keys.Nodup) :
    byKeys order (byKeys order d) = byKeys order d := by
  conv_lhs => rw [byKeys]
  simp only [get?_perm hd (byKeys_perm ho hd), filter_byKeys]
  rfl

theorem get?_change (F : String → Value → Value) (d : Definition) (k : String) :
    get? (d.map fun e => (e.1, F e.1 e.2)) k = (d.get? k).map (F k) := by
  induction d with
  | nil => rfl
  | cons e d ih =>
    rw [map_cons, get?_cons, ih]
    by_cases hk : e.1 = k <;> simp [get?, hk]

theorem byKeys_change (F : String → Value → Value) (order : List String) (d : Definition) :
    byKeys order (d.map fun e => (e.1, F e.1 e.2))
      = (byKeys order d).map fun e => (e.1, F e.1 e.2) := by
  simp only [byKeys, get?_change, map_append, map_filterMap, filter_map, Option.map_map]
  rfl

/-! ### Fields -/

/-- A field that has a kind and a name, each of its keys once. -/
structure IsField (f : Definition) : Prop where
  nodup : f.keys.Nodup
  kind : ∃ kind ∈ fieldKinds, f.get? "field_type" = some (.text kind)
  name : ∃ name, f.get? "name" = some (.text name)

/-- The place of a field among others: by its kind, then those that are named for an id first. -/
def place (f : Definition) : Nat ×ₗ Nat :=
  toLex (fieldKinds.findIdx (f.get "field_type").isTextOf,
    if (f.get "name").text?.any (Text.contains · "id") then 0 else 1)

def sorted (fs : List Definition) : List Definition :=
  fs.mergeSort fun a b => decide (place a ≤ place b)

theorem rank_eq (h : IsField f) : rank f = .ok (ofLex (place f)) := by
  obtain ⟨-, ⟨kind, hkind, htype⟩, name, hname⟩ := h
  simp only [fieldKinds, mem_cons, not_mem_nil, or_false] at hkind
  rw [rank, place, need_eq_ok.mpr htype, need_eq_ok.mpr hname, get_of_get? htype,
    get_of_get? hname, Result.ok_bind]
  rcases hkind with rfl | rfl | rfl <;> rfl

theorem fields_eq (h : ∀ f ∈ fs, IsField f) : fields (.list (fs.map .map))
    = .ok (.list (((sorted fs).map field).map .map)) := by
  have hrun : (fs.map Value.map).mapM (fun f => do
      let d ← f.needMap
      return (← rank d, d)) = .ok (fs.map fun f => (ofLex (place f), f)) := by
    rw [mapM_map]
    refine Result.mapM_of_ok fun f hf => ?_
    change rank f >>= _ = _
    rw [rank_eq (h f hf)]
    rfl
  have hsort : (fs.map fun f => (ofLex (place f), f)).mergeSort (fun a b =>
      decide (a.1.1 < b.1.1) || (a.1.1 == b.1.1 && decide (a.1.2 ≤ b.1.2)))
      = (sorted fs).map fun f => (ofLex (place f), f) :=
    (map_mergeSort fun a _ b _ => decide_toLex_le (ofLex (place a)) (ofLex (place b))).symm
  unfold fields
  rw [Value.iterate, Result.ok_bind, hrun, Result.ok_bind, hsort]
  dsimp only
  rw [map_map, map_map]
  rfl

theorem field_perm (h : IsField f) : (field f).Perm f := byKeys_perm (by decide) h.nodup

theorem IsField.field (h : IsField f) : IsField (field f) ∧ place (field f) = place f := by
  have hget := get?_perm h.nodup (field_perm h)
  refine ⟨⟨((field_perm h).map _).nodup_iff.mpr h.nodup, ?_, ?_⟩, ?_⟩
  · simpa only [hget] using h.kind
  · simpa only [hget] using h.name
  · rw [place, Definition.get, Definition.get, hget, hget]
    rfl

theorem sorted_field (h : ∀ f ∈ fs, IsField f) :
    (sorted ((sorted fs).map field)).map field = (sorted fs).map field := by
  have hmem : ∀ f ∈ sorted fs, IsField f := fun f hf => h f (mem_mergeSort.mp hf)
  have hagain : sorted ((sorted fs).map field) = (sorted fs).map field := by
    refine mergeSort_of_pairwise (pairwise_map.mpr ?_)
    refine (pairwise_mergeSort_key place fs).imp_of_mem fun ha hb hab => ?_
    simpa [(hmem _ ha).field.2, (hmem _ hb).field.2] using hab
  rw [hagain, map_map]
  exact map_congr_left fun f hf => byKeys_byKeys (by decide) (hmem f hf).nodup

/-! ### Views -/

/-- What is written under a key of a view. -/
def entry (k : String) (v : Value) : Value :=
  if k = "fields" then .list (((sorted (v.itemsD.map Value.entriesD)).map field).map .map) else v

def written (d : Definition) : Definition := (byKeys viewKeys d).map fun e => (e.1, entry e.1 e.2)

/-- A view with each key once, whose fields are such fields. -/
structure IsView (d : Definition) : Prop where
  nodup : d.keys.Nodup
  fields : ∀ v, d.get? "fields" = some v →
    ∃ fs : List Definition, v = .list (fs.map .map) ∧ ∀ f ∈ fs, IsField f

theorem entry_fields (fs : List Definition) :
    entry "fields" (.list (fs.map .map)) = .list (((sorted fs).map field).map .map) := by
  simp [entry, Value.itemsD, Function.comp_def, Value.entriesD]

variable (h : IsView d)
include h

theorem viewKeys_perm : (byKeys viewKeys d).Perm d := byKeys_perm (by decide) h.nodup

theorem keys_written : (written d).keys.Perm d.keys := by
  simpa [written, Definition.keys, Function.comp_def] using (viewKeys_perm h).map (·.1)

theorem get?_written (k : String) : (written d).get? k = (d.get? k).map (entry k) := by
  rw [written, get?_change, get?_perm h.nodup (viewKeys_perm h)]

theorem view_eq : view d = .ok (written d) := by
  refine Result.mapM_of_ok fun e he => ?_
  have he := (mem_iff_get? h.nodup).mp ((viewKeys_perm h).mem_iff.mp he)
  by_cases hk : e.1 = "fields"
  · obtain ⟨fs, hfs, hall⟩ := h.fields e.2 (hk ▸ he)
    simp only [hk, hfs, fields_eq hall, entry_fields]
    rfl
  · simp [entry, hk]
    rfl

theorem isView_written : IsView (written d) ∧ written (written d) = written d := by
  refine ⟨⟨(keys_written h).nodup_iff.mpr h.nodup, fun v hv => ?_⟩, ?_⟩
  · rw [get?_written h, Option.map_eq_some_iff] at hv
    obtain ⟨w, hw, rfl⟩ := hv
    obtain ⟨fs, rfl, hall⟩ := h.fields w hw
    exact ⟨_, entry_fields fs, by simpa [sorted] using fun f hf => (hall f hf).field.1⟩
  · rw [written, written, byKeys_change, byKeys_byKeys (by decide) h.nodup, map_map]
    refine map_congr_left fun e he => Prod.ext rfl ?_
    by_cases hk : e.1 = "fields"
    · have he := (mem_iff_get? h.nodup).mp ((viewKeys_perm h).mem_iff.mp he)
      obtain ⟨fs, hfs, hall⟩ := h.fields e.2 (hk ▸ he)
      simp only [Function.comp_apply, hk, hfs, entry_fields, sorted_field hall]
    · simp [entry, hk]

/-- **Nothing is lost where models and views are written**: each key has the value it had, but the
fields of a view are sorted, each with the keys and values it had, and those of one place stay in
their order.  What was written is written the same way again. -/
theorem writes_all {m : Definition} (hm : m.keys.Nodup) :
    ((model m).Perm m ∧ model (model m) = model m) ∧ ∃ e, view d = .ok e ∧ view e = .ok e ∧
      e.keys.Perm d.keys ∧ (∀ k, k ≠ "fields" → e.get? k = d.get? k) ∧
      ∀ fs : List Definition, d.get? "fields" = some (.list (fs.map .map)) → ∃ gs : List Definition,
        gs.Perm fs ∧ gs.Pairwise (place · ≤ place ·) ∧
        (∀ p, gs.filter (place · = p) = fs.filter (place · = p)) ∧ (∀ f ∈ gs, (field f).Perm f) ∧
        e.get? "fields" = some (.list ((gs.map field).map .map)) := by
  refine ⟨⟨byKeys_perm (by decide) hm, byKeys_byKeys (by decide) hm⟩, written d, view_eq h, ?_,
    keys_written h, fun k hk => ?_, fun fs hfs => ⟨sorted fs, mergeSort_perm ..,
      pairwise_mergeSort_key place fs, filter_mergeSort place fs, fun f hf => ?_, ?_⟩⟩
  · rw [view_eq (isView_written h).1, (isView_written h).2]
  · rw [get?_written h]
    cases d.get? k <;> simp [entry, hk]
  · obtain ⟨gs, hgs, hall⟩ := h.fields _ hfs
    cases map_injective_iff.mpr (fun _ _ h => Value.map.inj h) (Value.list.inj hgs)
    exact field_perm (hall f (mem_mergeSort.mp hf))
  · rw [get?_written h, hfs, Option.map_some, entry_fields]

omit h

/-- A view with a measure before the id. -/
def sales : Definition :=
  [("fields", .list ([[("name", .text "n"), ("field_type", .text "measure")],
    [("field_type", .text "dimension"), ("name", .text "id")]].map .map)), ("name", .text "sales")]

theorem writes_all_sales : sales.keys.Nodup ∧ IsView sales ∧ (model sales).Perm sales ∧
    ∃ e, view sales = .ok e ∧ view e = .ok e ∧ e.keys.Perm sales.keys := by
  have hfields : ∀ v, sales.get? "fields" = some v →
      ∃ fs : List Definition, v = .list (fs.map .map) ∧ ∀ f ∈ fs, IsField f := by
    rintro _ ⟨⟩
    refine ⟨_, rfl, ?_⟩
    simp only [forall_mem_cons]
    exact ⟨⟨by decide, ⟨_, by decide, rfl⟩, _, rfl⟩, ⟨by decide, ⟨_, by decide, rfl⟩, _, rfl⟩, nofun⟩
  have h : IsView sales := ⟨by decide, hfields⟩
  obtain ⟨⟨hm, -⟩, e, hview, hagain, hkeys, -⟩ := writes_all h h.nodup
  exact ⟨h.nodup, h, hm, e, hview, hagain, hkeys⟩

end SemanticLayer.Arrange
