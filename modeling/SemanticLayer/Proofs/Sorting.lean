import Mathlib

/-!
# Lists sorted by a key

Elements with the same key stay in their order (`filter_mergeSort`).  Sorting by merging does not
reduce to a list; sorting by insertion gives the same list and does (`mergeSort_eq_insertionSort`).
-/

namespace SemanticLayer

open List

variable {α κ μ : Type}

theorem mergeSort_eq_insertionSort {le : α → α → Bool} (htrans : ∀ a b c, le a b → le b c → le a c)
    (htotal : ∀ a b, le a b || le b a) (l : List α) :
    l.mergeSort le = l.insertionSort fun a b => le a b = true := by
  induction l with
  | nil => simp
  | cons a l ih =>
    obtain ⟨before, behind, hcons, hl, hbef⟩ := mergeSort_cons htrans htotal a l
    have hsrt := pairwise_mergeSort htrans htotal (a :: l)
    rw [hcons, pairwise_append] at hsrt
    have hbeh := (pairwise_cons.mp hsrt.2.1).1
    rw [insertionSort_cons, ← ih, hl, hcons, orderedInsert_eq_take_drop]
    have htake : ∀ b ∈ before, decide (¬ le a b = true) = true := by simpa using hbef
    rw [takeWhile_append_of_pos htake, dropWhile_append_of_pos htake]
    cases behind with
    | nil => simp
    | cons b behind => simp [hbeh b (by simp)]

variable [LinearOrder κ] [LinearOrder μ]

theorem decide_toLex_le (x y : κ × μ) : decide (toLex x ≤ toLex y)
    = (decide (x.1 < y.1) || (x.1 == y.1 && decide (x.2 ≤ y.2))) := by
  simp only [Prod.Lex.toLex_le_toLex, Bool.decide_or, Bool.decide_and]
  rfl

variable (key : α → κ) (l : List α)

theorem key_trans (a b c : α) (hab : decide (key a ≤ key b) = true)
    (hbc : decide (key b ≤ key c) = true) : decide (key a ≤ key c) = true :=
  decide_eq_true ((of_decide_eq_true hab).trans (of_decide_eq_true hbc))

theorem key_total (a b : α) : (decide (key a ≤ key b) || decide (key b ≤ key a)) = true := by
  simpa using le_total (key a) (key b)

theorem pairwise_mergeSort_key :
    (l.mergeSort fun a b => decide (key a ≤ key b)).Pairwise (key · ≤ key ·) := by
  simpa using pairwise_mergeSort (key_trans key) (key_total key) l

theorem filter_mergeSort (k : κ) :
    (l.mergeSort fun a b => decide (key a ≤ key b)).filter (key · = k) = l.filter (key · = k) := by
  have hsrt : (l.filter (key · = k)).Pairwise fun a b => decide (key a ≤ key b) = true := by
    refine pairwise_of_forall_mem_list fun a ha b hb => ?_
    simp_all
  have hsub := (sublist_mergeSort (key_trans key) (key_total key) hsrt filter_sublist).filter
    (key · = k)
  rw [filter_filter] at hsub
  simp only [Bool.and_self] at hsub
  exact (hsub.eq_of_length ((mergeSort_perm ..).filter _).length_eq.symm).symm

end SemanticLayer
