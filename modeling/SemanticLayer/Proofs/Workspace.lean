import SemanticLayer.Proofs.Outcome

/-!
# What a workspace remembers

A workspace extends another (`Workspace.Extends`) if it has the same project and remembers what the
other remembers.  Working out join graphs only extends the workspace, and an action that succeeded
gives the same answer in all that extends it (`Action.Settles`).
-/

namespace SemanticLayer

namespace Workspace

/-- The same project and the same memory. -/
structure Keeps (w w' : Workspace) : Prop where
  project : w'.project = w.project
  remembered : w'.remembered = w.remembered

/-- Graphs were built of the project and kept; all else is as it was. -/
def Builds (w w' : Workspace) : Prop :=
  w' = { w with joinGraph := w'.joinGraph, merged := w'.merged, dated := w'.dated }

instance : IsPreorder Workspace Builds where
  refl _ := rfl
  trans w w1 w2 h h' := by
    unfold Builds at h h' ⊢
    rw [h', h]

theorem Builds.keeps {w w' : Workspace} (h : w.Builds w') : w.Keeps w' := by
  unfold Builds at h
  rw [h]
  exact ⟨rfl, rfl⟩

/-- The join graphs that are remembered for a user and a field. -/
def known (w : Workspace) (key : String × String) : Option (List String) :=
  (w.remembered.find? (·.1 == key)).map (·.2)

/-- The same project, and nothing is forgotten. -/
structure Extends (w w' : Workspace) : Prop where
  project : w'.project = w.project
  known : ∀ key found, w.known key = some found → w'.known key = some found

instance : IsPreorder Workspace Extends where
  refl _ := ⟨rfl, fun _ _ h => h⟩
  trans _ _ _ h h' :=
    ⟨h'.project.trans h.project, fun key found hf => h'.known key found (h.known key found hf)⟩

variable {w w' : Workspace}

theorem Keeps.known (h : w.Keeps w') (key : String × String) : w'.known key = w.known key := by
  rw [Workspace.known, h.remembered, Workspace.known]

theorem Keeps.extends (h : w.Keeps w') : w.Extends w' :=
  ⟨h.project, fun key _ hf => (h.known key).trans hf⟩

theorem Extends.remember {key : String × String} (h : w.known key = none) (found : List String) :
    w.Extends { w with remembered := (key, found) :: w.remembered } := by
  refine ⟨rfl, fun other found' hot => ?_⟩
  have hne : key ≠ other := by
    rintro rfl
    rw [h] at hot
    cases hot
  simpa [Workspace.known, hne] using hot

end Workspace

namespace Action

variable {α β σ : Type}

variable {a : Action α} {f : α → Action β}

/-! ### Actions that change a workspace in one way only -/

/-- Whatever comes of the action, it brings the workspace to one that is related to it. -/
def Moves (R : Workspace → Workspace → Prop) (a : Action α) : Prop := ∀ w, R w (a w).2

namespace Moves

variable {R : Workspace → Workspace → Prop} [IsPreorder Workspace R]

theorem of_pure (a : α) : Moves R (pure a : Action α) := fun w => refl_of R w

theorem of_result (r : Result α) : Moves R (liftM r : Action α) := fun w => by
  exact refl_of R w

theorem of_project : Moves R project := fun w => refl_of R w

theorem bind (ha : Moves R a) (hf : ∀ x, Moves R (f x)) :
    Moves R (a >>= f) := by
  intro w
  have hw := ha w
  rcases hrun : a w with ⟨e | x, w1⟩
  · rw [bind_of_eq_error hrun]
    rwa [hrun] at hw
  · rw [bind_of_eq_ok hrun]
    rw [hrun] at hw
    exact trans_of R hw (hf x w1)

omit [IsPreorder Workspace R] in
theorem of_eq (ha : Moves R a) {w w' : Workspace} {r : Result α} (h : a w = (r, w')) : R w w' := by
  simpa [h] using ha w

end Moves

/-! ### Actions that settle -/

/-- An action that only extends the workspace and that gives the same answer again. -/
structure Settles (a : Action α) : Prop where
  moves : Moves Workspace.Extends a
  again : ∀ {w w1 w2 r}, a w = (.ok r, w1) → w1.Extends w2 → a w2 = (.ok r, w2)

namespace Settles

theorem of_pure (a : α) : Settles (pure a : Action α) where
  moves := .of_pure a
  again h _ := by
    obtain ⟨rfl, -⟩ := pure_eq_ok.mp h
    rfl

theorem of_result (r : Result α) : Settles (liftM r : Action α) where
  moves := .of_result r
  again h _ := lift_eq_ok.mpr ⟨(lift_eq_ok.mp h).1, rfl⟩

theorem of_project : Settles project where
  moves := .of_project
  again h hw := by
    obtain ⟨rfl, rfl⟩ := project_eq_ok.mp h
    exact project_eq_ok.mpr ⟨by rw [hw.project], rfl⟩

theorem bind (ha : Settles a) (hf : ∀ x, Settles (f x)) :
    Settles (a >>= f) where
  moves := ha.moves.bind fun x => (hf x).moves
  again := by
    intro w w1 w2 r h hw
    obtain ⟨x, w3, hx, hr⟩ := of_bind h
    have hw3 := (hf x).moves.of_eq hr
    exact bind_eq_ok.mpr ⟨x, w2, ha.again hx (trans_of _ hw3 hw), (hf x).again hr hw⟩

end Settles

/-! ### Join graphs -/

theorem joinGraph_builds : Moves Workspace.Builds joinGraph := by
  intro w
  unfold joinGraph
  rw [get_bind]
  cases w.joinGraph with
  | some g => exact refl_of _ w
  | none =>
    refine Moves.bind (.of_result _) (fun views => Moves.bind (.of_result _) fun g => ?_) w
    exact fun w => Eq.refl _

theorem mergedGraph_builds (m : Model) : Moves Workspace.Builds (mergedGraph m) := by
  unfold mergedGraph
  refine joinGraph_builds.bind fun g w => ?_
  rw [get_bind]
  cases w.merged with
  | some merged => exact refl_of _ w
  | none =>
    refine Moves.bind (.of_result _) (fun merged => ?_) w
    exact fun w => Eq.refl _

theorem derivedGraphs_builds (f : Field) : Moves Workspace.Builds (derivedGraphs f) := by
  unfold derivedGraphs
  refine Moves.of_project.bind fun p => (Moves.of_result _).bind fun m => ?_
  cases m with
  | none => exact .of_result _
  | some m =>
    refine joinGraph_builds.bind fun g => (Moves.of_result _).bind fun cumulative => ?_
    split_ifs
    · exact .of_pure _
    refine (mergedGraph_builds m).bind fun merged => (Moves.of_result _).bind fun isMerged => ?_
    split_ifs
    · exact .of_pure _
    · exact .of_pure _

theorem joinGraphs_eq (f : Field) : joinGraphs f = (do
    let w ← get
    match w.known (w.project.userKey, f.id) with
    | some found => return found
    | none =>
      let found ← derivedGraphs f
      modify fun w' =>
        { w' with remembered := ((w.project.userKey, f.id), found) :: w'.remembered }
      return found) := by
  unfold joinGraphs
  refine congrArg (fun k => (get : Action Workspace) >>= k) (funext fun w => ?_)
  dsimp only [Workspace.known]
  cases w.remembered.find? (·.1 == (w.project.userKey, f.id)) with
  | some e => rfl
  | none => rfl

/-- Join graphs that are known are taken from memory; else they are worked out and, if that
succeeds, remembered. -/
theorem joinGraphs_cases (f : Field) (w : Workspace) :
    (∃ found, w.known (w.project.userKey, f.id) = some found ∧ joinGraphs f w = (.ok found, w)) ∨
    w.known (w.project.userKey, f.id) = none ∧ ∃ w', w.Builds w' ∧
      ((∃ e, joinGraphs f w = (.error e, w')) ∨ ∃ found, joinGraphs f w = (.ok found,
          { w' with remembered := ((w.project.userKey, f.id), found) :: w'.remembered })) := by
  rw [joinGraphs_eq, get_bind]
  cases w.known (w.project.userKey, f.id) with
  | some found => exact .inl ⟨found, rfl, rfl⟩
  | none =>
    refine .inr ⟨rfl, _, derivedGraphs_builds f w, ?_⟩
    rcases hrun : derivedGraphs f w with ⟨e | found, w'⟩
    · exact .inl ⟨e, bind_of_eq_error hrun⟩
    · exact .inr ⟨found, bind_of_eq_ok hrun⟩

theorem joinGraphs_settles (f : Field) : Settles (joinGraphs f) where
  moves := by
    intro w
    obtain ⟨found, -, h⟩ | ⟨hno, w', hbd, ⟨e, h⟩ | ⟨found, h⟩⟩ := joinGraphs_cases f w
    · rw [h]
      exact refl_of _ w
    · rw [h]
      exact hbd.keeps.extends
    · rw [h]
      exact trans_of _ hbd.keeps.extends (.remember (by rw [hbd.keeps.known, hno]) found)
  again := by
    intro w w1 w2 r h hw
    have hkn : w1.known (w1.project.userKey, f.id) = some r := by
      obtain ⟨found, hfd, h'⟩ | ⟨hno, w', hbd, ⟨e, h'⟩ | ⟨found, h'⟩⟩ :=
        joinGraphs_cases f w
      · cases h.symm.trans h'
        exact hfd
      · cases h.symm.trans h'
      · cases h.symm.trans h'
        simp [Workspace.known, hbd.keeps.project]
    have hkept := hw.known _ _ hkn
    rw [← hw.project] at hkept
    obtain ⟨found, hfd, h'⟩ | ⟨hno, -⟩ := joinGraphs_cases f w2
    · cases hfd.symm.trans hkept
      exact h'
    · cases hno.symm.trans hkept

theorem components_settles (f : Field) : Settles (components f) :=
  (joinGraphs_settles f).bind fun _ => .of_pure _

end Action

end SemanticLayer
