import SemanticLayer.Proofs.Join.Plan

/-!
# The rows that joins make

Tables give every view its rows, every row its primary key, and every join the rows it links.  Left
joins start with the rows of the first view and put next to each every row it is linked to, or null.
Along a tree of pairs the result has no row twice (`nodup_joined`), and its rows are exactly the
choices in which every pair is followed (`mem_joined`).
-/

namespace SemanticLayer

open List JoinGraph Function

open JoinGraph (Pair IsTree targets)

variable {e : Pair} {pairs : List Pair} {root : String}

/-- Rows of type `ρ` with keys of type `κ` for the views, and the rows that are linked along a
pair of views. -/
structure Tables (ρ κ : Type) where
  rows : String → List ρ
  key : String → ρ → κ
  links : Pair → ρ → ρ → Bool

namespace Tables

variable {ρ κ : Type} (T : Tables ρ κ)

/-- A row of a result: of every view a row or null. -/
abbrev Choice (ρ : Type) := String → Option ρ

/-- The rows that are linked to a row along a pair; null is linked to none. -/
def linked (e : Pair) (x : Option ρ) : List ρ :=
  x.elim [] fun a => (T.rows e.2).filter (T.links e a)

/-- What is put next to a row along a pair: the rows that are linked to it, or null. -/
def partners (e : Pair) (x : Option ρ) : List (Option ρ) :=
  if (T.linked e x).isEmpty then [none] else (T.linked e x).map some

def leftJoin (result : List (Choice ρ)) (e : Pair) : List (Choice ρ) :=
  result.flatMap fun r => (T.partners e (r e.1)).map (Function.update r e.2)

def start (root : String) : List (Choice ρ) :=
  (T.rows root).map fun x => Function.update (fun _ => none) root (some x)

/-- The result of left joins from `root` along pairs. -/
def joined (root : String) (pairs : List Pair) : List (Choice ρ) :=
  pairs.foldl T.leftJoin (T.start root)

/-! ### Partners -/

theorem mem_linked {x : Option ρ} {b : ρ} :
    b ∈ T.linked e x ↔ b ∈ T.rows e.2 ∧ ∃ a, x = some a ∧ T.links e a b = true := by
  cases x <;> simp [linked]

theorem mem_partners {x y : Option ρ} :
    y ∈ T.partners e x ↔ (∃ b ∈ T.linked e x, y = some b) ∨ (y = none ∧ T.linked e x = []) := by
  unfold partners
  split_ifs with h
  · rw [List.isEmpty_iff] at h
    simp [h]
  · rw [List.isEmpty_iff] at h
    simp [h, eq_comm]

theorem nodup_partners (h : (T.rows e.2).Nodup) (x : Option ρ) : (T.partners e x).Nodup := by
  have hlk : (T.linked e x).Nodup := by
    cases x with
    | none => simp [linked]
    | some a => exact h.filter _
  unfold partners
  split_ifs
  · simp
  · exact hlk.map fun a b hab => Option.some.inj hab

/-! ### Results -/

theorem joined_snoc (root : String) (pairs : List Pair) (e : Pair) :
    T.joined root (pairs ++ [e]) = T.leftJoin (T.joined root pairs) e := by
  simp [joined]

theorem mem_leftJoin {result : List (Choice ρ)} {r : Choice ρ} :
    r ∈ T.leftJoin result e ↔
      ∃ r0 ∈ result, ∃ y ∈ T.partners e (r0 e.1), Function.update r0 e.2 y = r := by
  simp [leftJoin]

/-- A choice in which every pair is followed, and views that are not joined are null. -/
structure Follows (root : String) (pairs : List Pair) (r : Choice ρ) : Prop where
  start : ∃ x ∈ T.rows root, r root = some x
  pair : ∀ e ∈ pairs, r e.2 ∈ T.partners e (r e.1)
  other : ∀ v, v ∉ root :: targets pairs → r v = none

theorem follows_nil {r : Choice ρ} :
    T.Follows root [] r ↔ ∃ x ∈ T.rows root, Function.update (fun _ => none) root (some x) = r := by
  constructor
  · rintro ⟨⟨x, hx, hroot⟩, -, hot⟩
    refine ⟨x, hx, funext fun v => ?_⟩
    by_cases hv : v = root
    · subst hv
      simp [hroot]
    · rw [update_of_ne hv, hot v (by simpa using hv)]
  · rintro ⟨x, hx, rfl⟩
    refine ⟨⟨x, hx, by simp⟩, by simp, fun v hv => ?_⟩
    rw [update_of_ne (by simpa using hv)]

theorem follows_snoc (h : IsTree root (pairs ++ [e])) {r : Choice ρ} :
    T.Follows root (pairs ++ [e]) r ↔
      ∃ r0, T.Follows root pairs r0 ∧ ∃ y ∈ T.partners e (r0 e.1), Function.update r0 e.2 y = r := by
  obtain ⟨htr, hfrom, hto⟩ := isTree_snoc.mp h
  -- the new view is none of those that are there
  have hne : ∀ v ∈ root :: targets pairs, v ≠ e.2 := fun v hv heq => hto (heq ▸ hv)
  have hpa : ∀ e' ∈ pairs, e'.1 ≠ e.2 ∧ e'.2 ≠ e.2 := fun e' he' =>
    ⟨hne _ (htr.source_mem he'), hne _ (mem_cons_of_mem _ (mem_targets he'))⟩
  constructor
  · rintro ⟨⟨x, hx, hroot⟩, hfollow, hot⟩
    refine ⟨update r e.2 none, ⟨⟨x, hx, ?_⟩, ?_, ?_⟩, r e.2, ?_, by simp⟩
    · rw [update_of_ne (hne root (by simp)), hroot]
    · intro e' he'
      rw [update_of_ne (hpa e' he').1, update_of_ne (hpa e' he').2]
      exact hfollow e' (by simp [he'])
    · intro v hv
      by_cases heq : v = e.2
      · simp [heq]
      · rw [update_of_ne heq]
        refine hot v fun hmem => ?_
        simp only [targets_append, targets_cons, mem_cons, mem_append] at hmem hv
        tauto
    · rw [update_of_ne (hne _ hfrom)]
      exact hfollow e (by simp)
  · rintro ⟨r0, ⟨⟨x, hx, hroot⟩, hfollow, hot⟩, y, hy, rfl⟩
    refine ⟨⟨x, hx, ?_⟩, ?_, ?_⟩
    · rw [update_of_ne (hne root (by simp)), hroot]
    · intro e' he'
      rcases mem_append.mp he' with he' | he'
      · rw [update_of_ne (hpa e' he').1, update_of_ne (hpa e' he').2]
        exact hfollow e' he'
      · rw [mem_singleton] at he'
        subst he'
        rw [update_of_ne (hne _ hfrom)]
        simpa using hy
    · intro v hv
      simp only [targets_append, targets_cons, targets_nil,
        mem_cons, mem_append, not_mem_nil, or_false, not_or] at hv
      rw [update_of_ne hv.2.2]
      exact hot v (by simp [hv])

theorem mem_joined (h : IsTree root pairs) (r : Choice ρ) :
    r ∈ T.joined root pairs ↔ T.Follows root pairs r := by
  induction pairs using List.reverseRecOn generalizing r with
  | nil =>
    rw [follows_nil]
    simp [joined, start]
  | append_singleton pairs e ih =>
    rw [joined_snoc, mem_leftJoin, follows_snoc T h]
    simp only [ih (isTree_snoc.mp h).1]

theorem nodup_joined (h : IsTree root pairs)
    (hrs : ∀ v, (T.rows v).Nodup) : (T.joined root pairs).Nodup := by
  induction pairs using List.reverseRecOn with
  | nil =>
    refine (hrs root).map fun x x' hx => ?_
    simpa using congrFun hx root
  | append_singleton pairs e ih =>
    obtain ⟨htr, -, hto⟩ := isTree_snoc.mp h
    rw [joined_snoc, leftJoin, nodup_flatMap]
    refine ⟨fun r _ => ?_, ?_⟩
    · refine (T.nodup_partners (hrs e.2) _).map fun y y' hy => ?_
      simpa using congrFun hy e.2
    · -- without the new view the rows are those they come from
      refine (ih htr).imp_of_mem ?_
      intro r r' hr hr' hne s hs hs'
      obtain ⟨y, -, rfl⟩ := mem_map.mp hs
      obtain ⟨y', -, hy'⟩ := mem_map.mp hs'
      have hno := ((T.mem_joined htr r).mp hr).other e.2 hto
      have hno' := ((T.mem_joined htr r').mp hr').other e.2 hto
      apply hne
      calc r = update (update r e.2 y) e.2 none := by
            rw [update_idem, ← hno, update_eq_self]
        _ = update (update r' e.2 y') e.2 none := by rw [hy']
        _ = r' := by rw [update_idem, ← hno', update_eq_self]

end Tables

end SemanticLayer
