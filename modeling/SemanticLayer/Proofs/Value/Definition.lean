import Mathlib
import SemanticLayer.Value.Read

/-!
# Reading definitions after writing them

A key that was written has the value that was written last, every other key the value it had
before.
-/

namespace SemanticLayer

open List

variable {s : String} {v : Value}

theorem Value.eq_text_of_needText (h : v.needText = .ok s) :
    v = .text s := by
  cases v with
  | text t =>
    cases h
    rfl
  | _ => cases h

theorem Value.isTextOf_iff : v.isTextOf s = true ↔ v = .text s := by
  cases v <;> simp [isTextOf]

namespace Definition

variable {d e : Definition} {key k : String} {v w : Value}

theorem get?_cons (k : String) (v : Value) (d : Definition) (key : String) :
    get? ((k, v) :: d) key = if k = key then some v else d.get? key := by
  unfold get?
  by_cases h : k = key <;> simp [h]

theorem need_eq_ok : d.need key = .ok v ↔ d.get? key = some v := by
  unfold need
  cases d.get? key with
  | none => simp [malformed]
  | some w => simp

theorem has_eq_isSome (d : Definition) (key : String) : d.has key = (d.get? key).isSome := by
  unfold has get?
  induction d with
  | nil => rfl
  | cons e d ih => by_cases h : e.1 == key <;> simp [h, ih]

theorem get_of_get? (h : d.get? key = some v) : d.get key = v := by
  rw [get, h]
  rfl

theorem exists_of_has (h : d.has key = true) : ∃ v, d.get? key = some v := by
  rwa [has_eq_isSome, Option.isSome_iff_exists] at h

theorem has_of_get? (h : d.get? key = some v) : d.has key = true := by
  rw [has_eq_isSome, h]
  rfl

theorem get?_of_get (h : d.get key = .text s) : d.get? key = some (.text s) := by
  cases hget : d.get? key with
  | none => simp [get, hget] at h
  | some v => rw [← h, get_of_get? hget]

theorem exists_of_isText (h : (d.get key).isText = true) : ∃ s, d.get? key = some (.text s) := by
  cases hget : d.get key with
  | text s => exact ⟨s, get?_of_get hget⟩
  | _ =>
    rw [hget] at h
    cases h

section

variable (d e : Definition) (key : String) (v w : Value) (k : String)

theorem get?_map_set :
    get? (d.map fun (k', w) => if k' == key then (k', v) else (k', w)) k
      = if key = k then (d.get? k).map fun _ => v else d.get? k := by
  induction d with
  | nil => simp [get?]
  | cons e d ih =>
    obtain ⟨k', w⟩ := e
    rw [map_cons, get?_cons]
    by_cases hk : k' = key
    · subst hk
      rw [get?_cons, ih]
      by_cases hkk : k' = k <;> simp [hkk]
    · rw [if_neg (by simpa using hk) (c := (k' == key) = true), get?_cons, ih]
      by_cases hkk : k' = k
      · subst hkk
        simp [Ne.symm hk]
      · simp [hkk]

theorem get?_append : get? (d ++ e) k = (d.get? k).or (e.get? k) := by
  unfold get?
  rw [List.find?_append]
  cases d.find? (·.1 == k) <;> simp

@[simp] theorem get?_set : (d.set key v).get? k = if key = k then some v else d.get? k := by
  unfold set
  cases hh : d.get? key with
  | some w =>
    rw [if_pos (by rw [has_eq_isSome, hh]; rfl), get?_map_set]
    by_cases hk : key = k
    · subst hk; simp [hh]
    · simp [hk]
  | none =>
    rw [if_neg (by rw [has_eq_isSome, hh]; simp), get?_append, get?_cons]
    by_cases hk : key = k
    · subst hk; simp [hh]
    · simp [hk, get?]

@[simp] theorem get_set : (d.set key v).get k = if key = k then v else d.get k := by
  unfold get
  by_cases hk : key = k <;> simp [hk]

@[simp] theorem has_set : (d.set key v).has k = (decide (key = k) || d.has k) := by
  rw [has_eq_isSome, has_eq_isSome]
  by_cases hk : key = k <;> simp [hk]

theorem set_set : (d.set key v).set key w = d.set key w := by
  cases hhas : d.has key with
  | true =>
    rw [set, if_pos (by simp), set, if_pos hhas, set, if_pos hhas, map_map]
    refine map_congr_left fun e _ => ?_
    by_cases he : e.1 = key <;> simp [he]
  | false =>
    have hne : ∀ e ∈ d, (e.1 == key) = false := by
      intro e he
      simpa using any_eq_false.mp hhas e he
    have hsm : d.map (fun (k, x) => if k == key then (k, w) else (k, x)) = d := by
      conv_rhs => rw [← map_id d]
      exact map_congr_left fun e he => by simp [hne e he]
    rw [set, if_pos (by simp), set, if_neg (by simp [hhas]), set, if_neg (by simp [hhas]),
      map_append, hsm]
    simp

@[simp] theorem get?_erase : (d.erase key).get? k = if key = k then none else d.get? k := by
  unfold erase
  induction d with
  | nil => simp [get?]
  | cons e d ih =>
    obtain ⟨k', v⟩ := e
    by_cases hk : k' = key
    · subst hk
      rw [filter_cons_of_neg (by simp), ih, get?_cons]
      by_cases hkk : k' = k <;> simp [hkk]
    · rw [filter_cons_of_pos (by simpa using hk), get?_cons, ih, get?_cons]
      by_cases hkk : k' = k
      · subst hkk
        simp [Ne.symm hk]
      · simp [hkk]

theorem erase_set : (d.set key v).erase key = d.erase key := by
  have hmap : erase (d.map fun (k, w) => if k == key then (k, v) else (k, w)) key
      = d.erase key := by
    unfold erase
    induction d with
    | nil => rfl
    | cons e d ih => by_cases he : e.1 = key <;> simp_all
  unfold set
  split_ifs
  · exact hmap
  · simp [erase]

theorem has_merge : (d.merge e).has k = (d.has k || e.has k) := by
  unfold merge
  induction e generalizing d with
  | nil => simp [has]
  | cons entry e ih =>
    have hcons : has (entry :: e) k = (decide (entry.1 = k) || has e k) := by
      by_cases hk : entry.1 = k <;> simp [has, hk]
    rw [foldl_cons, ih, has_set, hcons, Bool.or_comm (decide _) (has d k), Bool.or_assoc]

/-- Of a definition written into another, the entries decide whose key has one value only. -/
theorem get?_merge (he : ∀ w, (key, w) ∈ e → w = v)
    (h : (∃ w, (key, w) ∈ e) ∨ d.get? key = some v) : (d.merge e).get? key = some v := by
  unfold merge
  induction e generalizing d with
  | nil => simpa using h
  | cons entry e ih =>
    obtain ⟨k, w⟩ := entry
    refine ih _ (fun w' hw' => he w' (by simp [hw'])) ?_
    by_cases hk : k = key
    · subst hk
      have := he w (by simp)
      exact Or.inr (by simp [this])
    · rcases h with ⟨w', hw'⟩ | h
      · rcases mem_cons.mp hw' with heq | hw'
        · simp only [Prod.mk.injEq] at heq
          exact absurd heq.1.symm hk
        · exact Or.inl ⟨w', hw'⟩
      · exact Or.inr (by simp [hk, h])

end

theorem get?_merge_of_not_has (d : Definition) (h : e.has key = false) :
    (d.merge e).get? key = d.get? key := by
  unfold merge
  induction e generalizing d with
  | nil => rfl
  | cons entry e ih =>
    obtain ⟨hne, hr⟩ : (entry.1 == key) = false ∧ has e key = false := by
      simpa [has] using h
    rw [foldl_cons, ih _ hr, get?_set, if_neg (by simpa using hne)]

theorem get?_merge_congr {d' : Definition} (e : Definition) (h : d.get? key = d'.get? key) :
    (d.merge e).get? key = (d'.merge e).get? key := by
  unfold merge
  induction e generalizing d d' with
  | nil => exact h
  | cons entry e ih =>
    exact ih (by rw [get?_set, get?_set, h])

theorem mem_of_get? (h : d.get? key = some v) : (key, v) ∈ d := by
  unfold get? at h
  obtain ⟨e, he, rfl⟩ := Option.map_eq_some_iff.mp h
  have hk : e.1 = key := by simpa using List.find?_some he
  have := List.mem_of_find?_eq_some he
  rwa [← hk]

theorem get?_isSome (h : (key, v) ∈ d) : (d.get? key).isSome := by
  unfold get?
  rw [Option.isSome_map, List.find?_isSome]
  exact ⟨_, h, by simp⟩

theorem mem_set (d : Definition) (key : String) (v : Value) : (key, v) ∈ d.set key v :=
  mem_of_get? (by simp)

theorem eq_of_mem_set (h : (key, w) ∈ d.set key v) : w = v := by
  unfold set at h
  split_ifs at h with hhas
  · obtain ⟨⟨k', w'⟩, -, heq⟩ := mem_map.mp h
    by_cases hk : k' = key
    · simp only [hk, beq_self_eq_true, if_true, Prod.mk.injEq] at heq
      exact heq.2.symm
    · have hne : (k' == key) = false := by simpa using hk
      simp only [hne, Bool.false_eq_true, if_false, Prod.mk.injEq] at heq
      exact absurd heq.1 hk
  · rcases mem_append.mp h with h | h
    · exfalso
      apply hhas
      unfold has
      rw [any_eq_true]
      exact ⟨_, h, by simp⟩
    · simp only [mem_singleton, Prod.mk.injEq] at h
      exact h.2

end Definition

end SemanticLayer
