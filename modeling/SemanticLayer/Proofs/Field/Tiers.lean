import Mathlib
import SemanticLayer.Field.Expression

/-!
# Tiers

Cut-offs cut the numbers into intervals, each a branch of a `case`: a condition, and the interval as
a label.  Every number meets exactly one condition if and only if the cut-offs ascend
(`tiers_partition`).
-/

namespace SemanticLayer.Tier

open List

inductive Comparison where
  | less (cut : String)
  | atLeast (cut : String)

def Comparison.text (sql : String) : Comparison → String
  | less cut => sql ++ " < " ++ cut
  | atLeast cut => sql ++ " >= " ++ cut

inductive Interval where
  | below (cut : String)
  | between (low high : String)
  | above (cut : String)

def Interval.text : Interval → String
  | below cut => "Below " ++ cut
  | between low high => "[" ++ low ++ "," ++ high ++ ")"
  | above cut => "[" ++ cut ++ ",inf)"

structure Branch where
  conditions : List Comparison
  label : Interval

def Branch.text (sql : String) (b : Branch) : String :=
  "when " ++ " and ".intercalate (b.conditions.map (·.text sql)) ++ " then '" ++ b.label.text ++ "' "

/-- The branches from a cut-off on. -/
def branchesFrom : String → List String → List Branch
  | low, [] => [⟨[.atLeast low], .above low⟩]
  | low, high :: cuts =>
    ⟨[.atLeast low, .less high], .between low high⟩ :: branchesFrom high cuts

def branches (first : String) (cuts : List String) : List Branch :=
  ⟨[.less first], .below first⟩ :: branchesFrom first cuts

theorem join_branchesFrom (sql low : String) (cuts : List String) :
    String.join (Field.tierBranches sql (low :: cuts)) ++ "when " ++ sql ++ " >= "
        ++ (low :: cuts).getLast nofun ++ " then '[" ++ (low :: cuts).getLast nofun ++ ",inf)' "
      = String.join ((branchesFrom low cuts).map (Branch.text sql)) := by
  rw [← String.toList_inj]
  induction cuts generalizing low with
  | nil => simp [branchesFrom, Field.tierBranches, Branch.text, Comparison.text, Interval.text]
  | cons high cuts ih =>
    simpa [branchesFrom, Field.tierBranches, Branch.text, Comparison.text, Interval.text] using ih high

theorem tierExpression_eq (sql : String) (t : Value) (ts : List Value) :
    Field.tierExpression sql (.list (t :: ts))
      = .ok ("case " ++ String.join ((branches t.plain (ts.map Value.plain)).map (Branch.text sql))
        ++ "else 'Unknown' end") := by
  rw [branches, map_cons, String.join_cons, ← join_branchesFrom]
  refine congrArg Except.ok (String.toList_inj.mp ?_)
  simp [Branch.text, Comparison.text, Interval.text]

/-! ### What the branches say of a number -/

section

variable {κ : Type} [LinearOrder κ] (value : String → κ)

def Comparison.holds (x : κ) : Comparison → Bool
  | less cut => x < value cut
  | atLeast cut => value cut ≤ x

def Branch.holds (x : κ) (b : Branch) : Bool := b.conditions.all (·.holds value x)

def Interval.numbers : Interval → Set κ
  | below cut => Set.Iio (value cut)
  | between low high => Set.Ico (value low) (value high)
  | above cut => Set.Ici (value cut)

theorem countP_cons_branchesFrom (x : κ) (low high : String) (cuts : List String) :
    (branchesFrom low (high :: cuts)).countP (·.holds value x)
      = (branchesFrom high cuts).countP (·.holds value x)
        + if value low ≤ x ∧ x < value high then 1 else 0 := by
  simp [branchesFrom, countP_cons, Branch.holds, Comparison.holds]

theorem le_countP_branchesFrom (x : κ) (low : String) (cuts : List String) :
    (if value low ≤ x then 1 else 0) ≤ (branchesFrom low cuts).countP (·.holds value x) := by
  induction cuts generalizing low with
  | nil => simp [branchesFrom, Branch.holds, Comparison.holds, countP_singleton]
  | cons high cuts ih =>
    have := ih high
    rw [countP_cons_branchesFrom]
    split_ifs at * <;> grind

theorem countP_branchesFrom_iff (low : String) (cuts : List String) :
    (∀ x, (branchesFrom low cuts).countP (·.holds value x) = if value low ≤ x then 1 else 0) ↔
      ((low :: cuts).map value).IsChain (· ≤ ·) := by
  induction cuts generalizing low with
  | nil => simp [branchesFrom, Branch.holds, Comparison.holds, countP_singleton]
  | cons high cuts ih =>
    simp only [countP_cons_branchesFrom]
    rw [map_cons, map_cons, isChain_cons_cons, ← map_cons, ← ih high]
    constructor
    · intro h
      have hle : value low ≤ value high := by
        by_contra hlt
        have := h (value high)
        have := le_countP_branchesFrom value (value high) high cuts
        grind
      refine ⟨hle, fun x => ?_⟩
      have := h x
      grind
    · rintro ⟨hle, h⟩ x
      rw [h]
      grind

theorem mem_numbers {b : Branch} {x : κ} {first : String} {cuts : List String}
    (hb : b ∈ branches first cuts) (h : b.holds value x = true) : x ∈ b.label.numbers value := by
  rcases mem_cons.mp hb with rfl | hb
  · simpa [Branch.holds, Comparison.holds, Interval.numbers] using h
  · clear * - hb h
    induction cuts generalizing first with
    | nil =>
      cases mem_singleton.mp hb
      simpa [Branch.holds, Comparison.holds, Interval.numbers] using h
    | cons high cuts ih =>
      rcases mem_cons.mp hb with rfl | hb
      · simpa [Branch.holds, Comparison.holds, Interval.numbers] using h
      · exact ih hb

/-- **Tiers partition the numbers**: where the cut-offs ascend, every number meets exactly one
condition, and the interval in its label has the number.  The order of the cut-offs matters in no
other way. -/
theorem tiers_partition (sql : String) (t : Value) (ts : List Value) :
    Field.tierExpression sql (.list (t :: ts))
      = .ok ("case " ++ String.join ((branches t.plain (ts.map Value.plain)).map (Branch.text sql))
        ++ "else 'Unknown' end") ∧
    (((t :: ts).map (value ·.plain)).Pairwise (· < ·) → ∀ x,
      (branches t.plain (ts.map Value.plain)).countP (·.holds value x) = 1 ∧
      ∀ b ∈ branches t.plain (ts.map Value.plain), b.holds value x = true →
        x ∈ b.label.numbers value) ∧
    ((∀ x, (branches t.plain (ts.map Value.plain)).countP (·.holds value x) = 1) ↔
      ((t :: ts).map (value ·.plain)).Pairwise (· ≤ ·)) := by
  have hiff : (∀ x, (branches t.plain (ts.map Value.plain)).countP (·.holds value x) = 1) ↔
      ((t :: ts).map (value ·.plain)).Pairwise (· ≤ ·) := by
    have hmap : (t :: ts).map (value ·.plain) = (t.plain :: ts.map Value.plain).map value := by simp
    rw [hmap, ← isChain_iff_pairwise, ← countP_branchesFrom_iff]
    refine forall_congr' fun x => ?_
    simp only [branches, countP_cons, Branch.holds, Comparison.holds, all_cons, all_nil,
      Bool.and_true, decide_eq_true_eq]
    grind
  exact ⟨tierExpression_eq sql t ts, fun hasc x => ⟨hiff.mpr (hasc.imp le_of_lt) x,
    fun b hb => mem_numbers value hb⟩, hiff⟩

end

def numeral (s : String) : Nat := s.toList.foldl (fun n c => 10 * n + (c.toNat - 48)) 0

theorem tiers_partition_ages : (["0", "20", "50"].map numeral).Pairwise (· < ·) ∧
    ∀ x, (branches "0" ["20", "50"]).countP (·.holds numeral x) = 1 := by
  have hasc : (["0", "20", "50"].map numeral).Pairwise (· < ·) := by decide
  exact ⟨hasc, fun x =>
    ((tiers_partition numeral "age" (.int 0) [.int 20, .int 50]).2.1 hasc x).1⟩

end SemanticLayer.Tier
