import Mathlib
import SemanticLayer.Filter.Case

/-!
# Readings on a shared calendar

Filters are read one after the other on one calendar, and a reading that fails leaves the start of
its weeks behind.  No reading looks at it (`Reading.Forgets`), so a run of readings gives what each
of them gives alone (`Call.runAll_eq`).
-/

namespace SemanticLayer.Filter

variable {α β : Type} {r : Reading α} {f : α → Reading β}

/-- What a reading gives is the same on all calendars. -/
def Reading.Forgets (r : Reading α) : Prop := ∀ calendar, (r.run.run calendar).1 = r.alone

namespace Reading

theorem Forgets.of_result (x : Result α) : (liftM x : Reading α).Forgets := fun _ => rfl

theorem Forgets.of_pure (a : α) : (pure a : Reading α).Forgets := fun _ => rfl

theorem Forgets.of_set (n : Nat) (f : Unit → Reading α) : (set n >>= f : Reading α).Forgets :=
  fun _ => rfl

section

variable (hr : r.Forgets) (hf : ∀ a, (f a).Forgets)
include hr hf

theorem Forgets.bind_apply (calendar : Nat) :
    ((r >>= f).run.run calendar).1 = r.alone >>= fun a => (f a).alone := by
  rw [← hr calendar]
  change (ExceptT.bindCont f (r.run.run calendar).1 (r.run.run calendar).2).1 = _
  cases (r.run.run calendar).1 with
  | error e => rfl
  | ok a => exact hf a _

theorem Forgets.bind : (r >>= f).Forgets :=
  fun calendar => (hr.bind_apply hf calendar).trans (hr.bind_apply hf monday).symm

theorem Forgets.alone_bind : (r >>= f).alone = r.alone >>= fun a => (f a).alone :=
  hr.bind_apply hf monday

end

theorem Forgets.mapM (hf : ∀ a, (f a).Forgets) (l : List α) : (l.mapM f).Forgets := by
  induction l with
  | nil => exact .of_pure _
  | cons a l ih =>
    rw [List.mapM_cons]
    exact (hf a).bind fun b => ih.bind fun bs => .of_pure _

end Reading

open Reading

theorem readOn_forgets (almanac : Almanac) (value week timezone : Value) :
    (readOn almanac value week timezone).Forgets :=
  .of_set _ _

theorem caseConditions_forgets (almanac : Almanac) (d : Definition) :
    (caseConditions almanac d).Forgets := by
  unfold caseConditions
  split_ifs
  · refine (readOn_forgets _ _ _ _).bind fun found => .mapM (fun ⟨e, v⟩ => ?_) found
    dsimp only
    split
    · exact (Forgets.of_result _).bind fun c => .of_result _
    · exact .of_result _
  · exact .of_pure _

theorem caseSqlOn_forgets (almanac : Almanac) (sql : String) (filters : List Definition) :
    (caseSqlOn almanac sql filters).Forgets :=
  (Forgets.mapM (caseConditions_forgets almanac) filters).bind fun _ => .of_pure _

theorem conditionsOn_forgets (almanac : Almanac) (d : Definition) :
    (conditionsOn almanac d).Forgets := by
  unfold conditionsOn
  split
  · exact fun _ => rfl
  · exact (readOn_forgets _ _ _ _).bind fun _ => .of_pure _

inductive Call where
  | conditions (d : Definition)
  | caseSql (sql : String) (filters : List Definition)

namespace Call

def run (almanac : Almanac) : Call → Reading (List Definition ⊕ String)
  | .conditions d => .inl <$> conditionsOn almanac d
  | .caseSql sql filters => .inr <$> caseSqlOn almanac sql filters

def answer (almanac : Almanac) : Call → Result (List Definition ⊕ String)
  | .conditions d => .inl <$> Filter.conditions almanac d
  | .caseSql sql filters => .inr <$> Filter.caseSql almanac sql filters

theorem run_apply (c : Call) (almanac : Almanac) (calendar : Nat) :
    ((c.run almanac).run.run calendar).1 = c.answer almanac := by
  cases c with
  | conditions d => exact (conditionsOn_forgets almanac d).bind_apply (fun _ => .of_pure _) calendar
  | caseSql sql filters =>
    exact (caseSqlOn_forgets almanac sql filters).bind_apply (fun _ => .of_pure _) calendar

/-- What calls give one after the other, each with its almanac, on one calendar. -/
def runAll : List (Almanac × Call) → Nat → List (Result (List Definition ⊕ String))
  | [], _ => []
  | (almanac, c) :: calls, calendar =>
    let (r, calendar) := (c.run almanac).run.run calendar
    r :: runAll calls calendar

/-- **Reading filters has no memory.**  In every run of calls, on every calendar, each call gives what
it gives by itself with its almanac. -/
theorem runAll_eq (calls : List (Almanac × Call)) (calendar : Nat) :
    runAll calls calendar = calls.map fun (almanac, c) => c.answer almanac := by
  induction calls generalizing calendar with
  | nil => rfl
  | cons call calls ih =>
    obtain ⟨almanac, c⟩ := call
    exact congrArg₂ List.cons (c.run_apply almanac calendar) (ih _)

-- weeks begin on Sunday behind a reading that fails in an unknown zone
example :
    ((readOn (.ofInstant 0) (.text "today") (.text "sunday") (.text "Nowhere")).run.run monday).2
      = 0 := by
  decide

end Call

end SemanticLayer.Filter
