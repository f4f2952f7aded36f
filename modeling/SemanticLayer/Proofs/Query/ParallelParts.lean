import SemanticLayer.Proofs.Parallel
import SemanticLayer.Proofs.Query.Additive

/-!
# Sub-queries side by side

From related workspaces the sub-queries of merged results are found in the same way
(`MergedQuery.parts_follows`).
-/

namespace SemanticLayer

open SemanticLayer.Action Follows

variable {f g : Field} {V : Workspace → Workspace → Prop} {S : Store → Store → Prop} {p : Store}
  {rs : List Reached}

theorem Project.Finds.of_references {p : Project} {sql : Option String}
    (hrs : f.references p sql = .ok rs) (hg : .field g ∈ rs) : p.Finds g := by
  cases sql with
  | none =>
    cases hrs
    cases hg
  | some sql =>
    obtain ⟨f', name, hrefer⟩ := Field.refer_of_mem_references hrs hg
    exact .named hrefer

theorem Project.Finds.of_measuresOf {p : Project} (hrs : MergedQuery.measuresOf p f = .ok rs)
    (hg : .field g ∈ rs) : p.Finds g := by
  obtain ⟨sql, -, hrs⟩ := Result.of_bind hrs
  exact .of_references hrs hg

section

variable [Glass V] [IsPreorder Store S]

namespace MergedQuery

section

variable (hp : Shows V p)
include hp

theorem componentKey_follows (hf : p.seen.Finds f) : Follows V S (componentKey f) := by
  have hj : ∀ {p : Store} {f : Field}, Shows V p → p.seen.Finds f →
      Follows V S (do return Text.join "_" (← components f)) := fun hp hf =>
    (components_follows hp hf).bind fun _ => .of_pure _
  refine .project_bind fun p' hp' => .ite (.result_bind fun date => ?_)
    ((of_pure f).bind_of fun _ _ _ _ _ h => ?_)
  · cases date with
    | some date =>
      exact .result_bind_of fun g hg => (of_pure g).bind_of fun _ _ _ _ _ h =>
        (pure_eq_ok.mp h).1 ▸ hj hp' (.byName hg)
    | none =>
      exact (of_pure f).bind_of fun _ _ _ _ _ h => (pure_eq_ok.mp h).1 ▸ hj hp hf
  · exact (pure_eq_ok.mp h).1 ▸ hj hp hf

theorem mergedStep_follows (t : Grouping Field) (f : Field) :
    Follows V S (mergedStep p.seen t f) := by
  refine .result_bind_of fun rs hrs => .foldlM (fun t r hr => ?_) t
  cases r with
  | missing name => exact .of_throw _
  | unwritten => exact .of_result _
  | field g =>
    exact .result_bind fun _ => (componentKey_follows hp (.of_measuresOf hrs hr)).bind fun _ =>
      .of_pure _

theorem metricStep_follows (t : Grouping Field) (hf : p.seen.Finds f) :
    Follows V S (metricStep t f) :=
  (componentKey_follows hp hf).bind fun _ => .result_bind fun _ => .of_pure _

omit hp [Glass V] in
theorem dates_follows (q : Project) (merged : List Field) {secondary dimensions : List Field}
    (hfs : ∀ f ∈ secondary ++ dimensions, Follows V S (components f)) :
    Follows V S (dates q merged secondary dimensions) := by
  refine (mapM fun f _ => .result_bind fun rs => .mapM fun r _ => ?_).bind fun first => ?_
  · exact .result_bind fun g => .of_result _
  refine (foldlM (fun s f hf => ?_) _).bind fun ⟨all, sets⟩ => ?_
  · exact (hfs f hf).bind fun _ => .result_bind fun _ => .ite (.of_pure _) (.of_pure _)
  refine (mapM fun d _ => ?_).bind fun names => .of_pure _
  cases d with
  | some s => exact .of_pure _
  | none => exact .ite (.of_pure _) (.of_result _)

end

theorem dateCounterparts_follows (dates : List String) : Follows V S (dateCounterparts dates) :=
  .project_bind fun _ hp => .foldlM (fun _ _ _ => .result_bind_of fun _ hf =>
    (componentKey_follows hp (.byName hf)).bind fun _ => .of_pure _) _

theorem layout_follows (q : MergedQuery) : Follows V S q.layout := by
  refine .project_bind fun p hp => (mapM fun n _ => ?_).bind_of
    fun fields _ _ _ _ hrun => ?_
  · exact .result_bind fun f => .result_bind fun _ => .of_pure _
  have hfs : ∀ e ∈ fields, p.seen.Finds e.1 := by
    intro e he
    obtain ⟨n, -, w1, w2, hrun⟩ := exists_of_mem_mapM hrun he
    obtain ⟨f, w3, hf, hrun⟩ := of_bind hrun
    obtain ⟨v, -, rfl⟩ := of_bind_pure hrun
    exact .named (lift_eq_ok.mp hf).1
  have hsec : ∀ f ∈ (fields.filter (!·.2)).map (·.1), p.seen.Finds f := by
    intro f hf
    obtain ⟨e, he, rfl⟩ := List.mem_map.mp hf
    exact hfs e (List.mem_filter.mp he).1
  refine (mapM fun n _ => .of_result _).bind_of fun dimensions _ _ _ _ hrun => ?_
  have hdim : ∀ f ∈ dimensions, p.seen.Finds f := by
    intro f hf
    obtain ⟨n, -, w1, w2, hrun⟩ := exists_of_mem_mapM hrun hf
    exact .named (lift_eq_ok.mp hrun).1
  refine (foldlM (fun t f _ => mergedStep_follows hp t f) _).bind fun t => ?_
  refine (foldlM (fun t f hf => metricStep_follows hp t (hsec f hf)) _).bind
    fun t' => ?_
  refine (dates_follows _ _ fun f hf => components_follows hp ?_).bind fun _ =>
    (dateCounterparts_follows _).bind fun _ => .of_pure _
  exact (List.mem_append.mp hf).elim (hsec f) (hdim f)

omit [Glass V] in
theorem graphsFor_follows (parts : List String) (hf : Follows V S (joinGraphs f)) :
    Follows V S (graphsFor parts f) :=
  .ite (.of_pure _) hf

theorem dimensionStep_follows (dates parts : List String) (all : Grouping Counterpart)
    (state : Grouping Field × Grouping Field) (name : String) :
    Follows V S (dimensionStep dates parts all state name) := by
  refine .project_bind fun p hp => ?_
  refine .result_bind_of fun f hf => (componentKey_follows hp (.named hf)).bind fun components =>
    .ite ?_ ?_
  · exact (foldlM (fun _ _ _ => .result_bind fun _ => .of_pure _) _).bind fun _ =>
      .of_pure _
  · refine (graphsFor_follows parts (Glass.joinGraphs hp (.named hf))).bind fun graphs =>
      (foldlM (fun _ _ _ => .of_result _) _).bind ?_
    exact fun ⟨t, found⟩ => .ite (.of_pure _) (.of_result _)

theorem conditionStep_follows (metrics dimensions : Grouping Field) (all : Grouping Counterpart)
    (t : Grouping Condition) (c : Condition) :
    Follows V S (conditionStep metrics dimensions all t c) := by
  refine .project_bind fun p hp => (mapM fun f _ => .of_result _).bind fun dates => ?_
  refine .result_bind fun v => .result_bind fun name => .result_bind_of fun f hf => ?_
  exact (componentKey_follows hp (.named hf)).bind fun components =>
    (foldlM (fun _ _ _ => .of_result _) _).bind fun _ => .of_pure _

theorem parts_follows (q : MergedQuery) : Follows V S q.parts :=
  (layout_follows q).bind fun _ => .result_bind fun m =>
    (fieldMappings_follows m true).bind fun _ =>
      (foldlM (fun s n _ => dimensionStep_follows _ _ _ s n) _).bind fun _ =>
        .result_bind fun _ => (foldlM (fun t c _ => conditionStep_follows _ _ _ t c) _).bind
          fun _ => .of_pure _

end MergedQuery

end

end SemanticLayer
