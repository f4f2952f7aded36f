import SemanticLayer.Repository.Basic
import SemanticLayer.Proofs.Outcome

/-!
# Key files

A private key is on disk while the commands run that need it, and not after them: no operation of a
repository leaves more key files than there were (`Clears`), whatever fails.
-/

namespace SemanticLayer

open Host List

variable {α β : Type} {a : HostAction α} {h : Host} {path : String}

theorem HostAction.bind_apply (a : HostAction α) (f : α → HostAction β) (h : Host) :
    (a >>= f) h = match a h with
      | (.ok x, h') => f x h'
      | (.error e, h') => (.error e, h') := by
  change ExceptT.bindCont f (a h).1 (a h).2 = _
  rcases a h with ⟨_ | _, _⟩ <;> rfl

open HostAction SemanticLayer.Action

/-- However the action ends, there are no key files that were not there before. -/
def Clears (a : HostAction α) : Prop := ∀ h, ∀ k ∈ (a h).2.keys, k ∈ h.keys

namespace Clears

theorem of_keys (ha : ∀ h, (a h).2.keys = h.keys) : Clears a := fun h _ hk => ha h ▸ hk

protected theorem bind {f : α → HostAction β} (ha : Clears a) (hf : ∀ x, Clears (f x)) :
    Clears (a >>= f) := by
  intro h k hk
  have hrun := ha h k
  rw [bind_apply] at hk
  generalize a h = s at hrun hk
  rcases s with ⟨_ | x, h'⟩
  · exact hrun hk
  · exact hrun (hf x h' k hk)

protected theorem tryCatch {f : Error → HostAction α} (ha : Clears a) (hf : ∀ e, Clears (f e)) :
    Clears (tryCatch a f) := by
  intro h k hk
  have hrun := ha h k
  rw [tryCatch_apply] at hk
  generalize a h = s at hrun hk
  rcases s with ⟨e | _, h'⟩
  · exact hrun (hf e h' k hk)
  · exact hrun hk

theorem git (name : String) (arguments : List Value) (named : Definition) :
    Clears (Host.git name arguments named) := by
  refine of_keys fun h => ?_
  unfold Host.git
  simp only [bind_apply]
  change ((if h.remote.fails h.commands.length name then malformed .git else pure () :
    HostAction Unit) _).2.keys = _
  split <;> rfl

theorem alter (change : Disk → Disk) : Clears (Host.alter fun d => .ok (change d)) :=
  of_keys fun _ => rfl

theorem clone (url destination : String) (branch environment : Value) :
    Clears (Host.clone url destination branch environment) :=
  Clears.bind (git _ _ _) fun _ => of_keys fun _ => rfl

theorem branches (branch : Value) : Clears (Host.branches branch) :=
  ((git _ _ _).bind fun _ => of_keys fun _ => rfl).tryCatch fun _ => of_keys fun _ => rfl

end Clears

/-! ### Files for a while -/

theorem removeKey_apply (path : String) (h : Host) : removeKey path h
    = (if h.keys.any (·.path == path) then .ok () else .error (.malformed .noFile),
      { h with keys := h.keys.filter (·.path != path) }) := by
  change (if _ then _ else _ : HostAction Unit) h = _
  split_ifs with hany
  · rfl
  · rw [filter_eq_self.mpr (by simpa using hany)]
    rfl

theorem writeKey_apply (content path : String) (h : Host) :
    ∃ h', writeKey (.bytes content) path h = (.ok (), h') ∧
      ∀ k ∈ h'.keys, k.path ≠ path → k ∈ h.keys := by
  change ∃ h', (if !h.locks h.commands.length then removeKey path else pure () : HostAction Unit)
    (putKey _ h) = _ ∧ _
  split_ifs
  · rw [removeKey_apply]
    refine ⟨_, Prod.ext (by simp [putKey]) rfl, ?_⟩
    simp +contextual [putKey]
  · refine ⟨_, rfl, ?_⟩
    simp +contextual [putKey, or_imp]

theorem recover_keys (unremoved : Malformed) (e : Error) (h : Host) :
    ((do tryCatch (removeKey path) fun _ => malformed unremoved
         throw e : HostAction α) h).2.keys = h.keys.filter (·.path != path) := by
  simp only [bind_apply, tryCatch_apply, removeKey_apply]
  split_ifs <;> rfl

theorem Clears.withKeyFile {work : HostAction α} (hw : Clears work) (content path : String)
    (unremoved : Malformed) :
    Clears (Repository.withKeyFile (.bytes content) path unremoved work) := by
  intro h k hk
  obtain ⟨h', hwrite, hkeys⟩ := writeKey_apply content path h
  have hrun := hw h' k
  rw [Repository.withKeyFile, bind_apply, hwrite] at hk
  simp only [tryCatch_apply, bind_apply work] at hk
  generalize work h' = s at hrun hk
  suffices hgone : k ∈ s.2.keys ∧ k.path ≠ path from hkeys k (hrun hgone.1) hgone.2
  rcases s with ⟨e | x, h2⟩
  · simpa [recover_keys] using hk
  · simp only [bind_apply (removeKey path), removeKey_apply path h2] at hk
    split_ifs at hk
    · simpa using mem_filter.mp hk
    · simpa [recover_keys] using hk

/-! ### Operations -/

namespace Repository

inductive Operation where
  | fetch
  | createBranch (branch : Value)
  | deleteBranch (branch : Value)
  | commitAndPush (message branch : Value)
  | pull (source target : Value)
  | squashAndMerge (source target message : Value)

def perform (r : Repository) (key : Option PrivateKey) : Operation → HostAction Repository
  | .fetch => r.fetch key
  | .createBranch branch => do r.createBranch branch key; return r
  | .deleteBranch branch => do r.deleteBranch branch key; return r
  | .commitAndPush message branch => do r.commitAndPush message branch key; return r
  | .pull source target => do r.pull source target key; return r
  | .squashAndMerge source target message => do r.squashAndMerge source target message key; return r

/-- A repository stays as it was where an operation fails. -/
def after (s : Repository × Host) (o : Operation × Option String) : Repository × Host :=
  let (result, h) := s.1.perform (o.2.map .bytes) o.1 s.2
  (result.toOption.getD s.1, h)

variable (r : Repository) (key : Option String)

theorem clears_onClone {work : HostAction Unit} (hw : Clears work) :
    Clears (r.onClone (key.map .bytes) work) := by
  unfold onClone
  split
  · split
    next hk _ =>
      obtain ⟨hk, -⟩ := Option.filter_eq_some_iff.mp hk
      obtain ⟨content, -, rfl⟩ := Option.map_eq_some_iff.mp hk
      exact hw.withKeyFile _ _ _
    next => exact hw
  · exact .of_keys fun _ => rfl

theorem clears_fetch : Clears (r.fetch (key.map .bytes)) := by
  unfold fetch
  split
  · exact .of_keys fun _ => rfl
  refine Clears.bind ?_ fun _ => .of_keys fun _ => rfl
  unfold cloneRemote
  split_ifs
  · cases key with
    | none => exact .of_keys fun _ => rfl
    | some content =>
      refine Clears.bind (.of_keys fun _ => rfl) fun _ =>
        Clears.bind (.of_keys fun _ => rfl) fun _ => ?_
      refine Clears.bind (.withKeyFile ?_ _ _ _) fun _ => .of_keys fun _ => rfl
      exact (Clears.clone _ _ _ _).bind fun _ => .branches _
  · refine (Clears.alter _).bind fun _ => (Clears.clone _ _ _ _).bind fun _ => ?_
    exact (Clears.branches _).bind fun _ => .of_keys fun _ => rfl

theorem clears_perform (o : Operation) : Clears (r.perform (key.map .bytes) o) := by
  cases o with
  | fetch => exact clears_fetch r key
  | _ =>
    refine Clears.bind (clears_onClone r key ?_) fun _ => .of_keys fun _ => rfl
    repeat first | exact .git _ _ _ | refine (Clears.git _ _ _).bind fun _ => ?_

/-- **Private keys do not stay on disk**: after any operations of a repository with keys given as
bytes, whichever commands failed and whichever files could not be locked, there are no key files but
those that were there before. -/
theorem after_keys (operations : List (Operation × Option String)) (h : Host) :
    (operations.foldl after (r, h)).2.keys ⊆ h.keys := by
  induction operations generalizing r h with
  | nil => exact Subset.refl _
  | cons o os ih => exact fun k hk => clears_perform r o.2 o.1 h k (ih _ _ hk)

end Repository

end SemanticLayer
