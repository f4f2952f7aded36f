import SemanticLayer.Proofs.Outcome

/-!
# Mapped fields

A mapping lists names of fields that mean the same.  What a model maps a name to is another name of
one list, and it is one name only (`fieldMappings_spec`): of a list with three names one is left out.
-/

namespace SemanticLayer

open Result List

variable {acc : List (String × Mapping)}

namespace Model

def mappedNames (m : Model) (p : Project) : List (List String) :=
  match m.mappings p with
  | .ok mappings => mappings.filterMap fun e => (mappedFields e.2).toOption
  | .error _ => []

variable {p : Project} {component : String → Result String} {m : Model} {dimensionsOnly : Bool}

theorem mappingsFrom_field {isDate : Bool} {fields : List String} {name : String} {r : Mapping}
    (h : mappingsFrom p component isDate fields dimensionsOnly name = .ok (some r)) :
    r.field ∈ fields := by
  unfold mappingsFrom at h
  obtain ⟨f, -, h⟩ := of_bind h
  cases f with
  | none => cases h
  | some f =>
    dsimp only at h
    split at h
    · cases h
    obtain ⟨source, -, h⟩ := of_bind h
    split at h
    · cases h
    refine foldlM_induct (P := fun last => ∀ r, last = some r → r.field ∈ fields) fields h
      (by simp) (fun last other last' hot hlast hs => ?_) r rfl
    split at hs
    · cases hs
      exact hlast
    obtain ⟨g, -, hs⟩ := of_bind hs
    cases g with
    | none =>
      cases hs
      exact hlast
    | some g =>
      obtain ⟨target, -, hs⟩ := of_bind hs
      split at hs
      · cases hs
      cases hs
      intro r hr
      cases hr
      exact hot

/-- A mapping takes the place of an earlier one of its name. -/
def latestStep (acc : List (String × Mapping)) (e : String × Mapping) : List (String × Mapping) :=
  if acc.any (·.1 == e.1) then acc.map fun old => if old.1 == e.1 then e else old else acc ++ [e]

theorem mem_latestStep {e old : String × Mapping} (h : old ∈ latestStep acc e) :
    old ∈ acc ∨ old = e := by
  unfold latestStep at h
  split_ifs at h
  · obtain ⟨old', hold, rfl⟩ := mem_map.mp h
    split_ifs
    · exact Or.inr rfl
    · exact Or.inl hold
  · simpa using h

theorem nodup_latestStep (h : (acc.map (·.1)).Nodup) (e : String × Mapping) :
    ((latestStep acc e).map (·.1)).Nodup := by
  unfold latestStep
  split_ifs with hhas
  · have hks : (acc.map fun old => if old.1 == e.1 then e else old).map (·.1) = acc.map (·.1) := by
      rw [map_map]
      refine map_congr_left fun old _ => ?_
      by_cases hold : old.1 = e.1 <;> simp [hold]
    rwa [hks]
  · have hnew : e.1 ∉ acc.map (·.1) := by
      intro hmem
      obtain ⟨old, hold, hkey⟩ := mem_map.mp hmem
      exact hhas (any_eq_true.mpr ⟨old, hold, by simpa using hkey⟩)
    rw [map_append, nodup_append]
    refine ⟨h, by simp, ?_⟩
    rintro key hkey key' hkey' rfl
    rw [map_singleton, mem_singleton] at hkey'
    exact hnew (hkey' ▸ hkey)

theorem latest_spec (found : List (String × Mapping)) :
    (∀ e ∈ found.foldl latestStep [], e ∈ found) ∧
      ((found.foldl latestStep []).map (·.1)).Nodup := by
  refine List.foldlRecOn (motive := fun acc : List (String × Mapping) =>
    (∀ e ∈ acc, e ∈ found) ∧ (acc.map (·.1)).Nodup) found _ ?_ ?_
  · simp
  rintro acc ⟨hfd, hnd⟩ e he
  refine ⟨fun old hold => ?_, nodup_latestStep hnd e⟩
  rcases mem_latestStep hold with hold | rfl
  · exact hfd old hold
  · exact he

theorem fieldMappings_spec {entries : List (String × Mapping)}
    (h : m.fieldMappings p component dimensionsOnly = .ok entries) :
    (∀ e ∈ entries, ∃ names ∈ m.mappedNames p, e.1 ∈ names ∧ e.2.field ∈ names) ∧
      (entries.map (·.1)).Nodup := by
  unfold fieldMappings at h
  obtain ⟨mappings, hmp, h⟩ := of_bind h
  obtain ⟨found, hfd, h⟩ := of_bind h
  have heq : found.flatten.foldl latestStep [] = entries := Except.ok.inj h
  obtain ⟨hmem, hnd⟩ := latest_spec found.flatten
  rw [heq] at hmem hnd
  refine ⟨fun e he => ?_, hnd⟩
  obtain ⟨es, hes, he⟩ := mem_flatten.mp (hmem e he)
  obtain ⟨mapping, hmapping, hrd⟩ := exists_of_mem_mapM hfd hes
  obtain ⟨names, hns, hrd⟩ := of_bind hrd
  have hls : names ∈ m.mappedNames p := by
    unfold mappedNames
    rw [hmp]
    exact mem_filterMap.mpr ⟨mapping, hmapping, by rw [hns]; rfl⟩
  obtain ⟨name, hn, hrd⟩ := ((filterMapM_eq_ok hrd).2 e).mp he
  obtain ⟨r, hr, hrd⟩ := of_bind hrd
  obtain ⟨r', rfl, rfl⟩ := Option.map_eq_some_iff.mp (Except.ok.inj hrd)
  exact ⟨names, hls, hn, mappingsFrom_field hr⟩

end Model

end SemanticLayer
