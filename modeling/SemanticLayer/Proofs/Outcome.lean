import Mathlib
import SemanticLayer.Workspace

/-!
# Outcomes of results and actions

A computation that fails at its first failing step succeeds only if every step does.  A success is
taken apart: into the parts of a sequence, the elements of a list that was gone through, and, for
actions, the states between the steps.
-/

namespace SemanticLayer

open List

variable {α β γ σ : Type} {l : List α} {r : List β} {w w' w1 : Workspace}

variable {e : Error} {g : β → γ} {k : α → γ} {s : σ}

/-! ### Lists -/

section Forall₂

variable {R : α → β → Prop}

theorem exists_right_of_forall₂ (h : Forall₂ R l r) {a : α} (ha : a ∈ l) : ∃ b ∈ r, R a b := by
  induction h with
  | nil => cases ha
  | @cons _ b _ _ hb _ ih =>
    rcases mem_cons.mp ha with rfl | ha
    · exact ⟨b, mem_cons_self .., hb⟩
    · obtain ⟨b', hb', hab⟩ := ih ha
      exact ⟨b', mem_cons_of_mem _ hb', hab⟩

theorem exists_left_of_forall₂ (h : Forall₂ R l r) {b : β} (hb : b ∈ r) : ∃ a ∈ l, R a b :=
  exists_right_of_forall₂ (R := flip R) h.flip hb

theorem map_eq_of_forall₂ (h : Forall₂ R l r) (hs : ∀ a b, R a b → g b = k a) :
    r.map g = l.map k := by
  induction h with
  | nil => rfl
  | cons hab _ ih => rw [map_cons, map_cons, hs _ _ hab, ih]

end Forall₂

theorem filterM_cons {m : Type → Type} [Monad m] [LawfulMonad m] (f : α → m Bool) (a : α)
    (l : List α) : (a :: l).filterM f = do
      let b ← f a
      let r ← l.filterM f
      return bif b then a :: r else r := by
  have haux : ∀ (l acc : List α), l.filterAuxM f acc = (· ++ acc) <$> l.filterAuxM f [] := by
    intro l
    induction l with
    | nil => simp [filterAuxM]
    | cons a l ih =>
      intro acc
      simp only [filterAuxM, map_bind]
      refine congrArg _ (funext fun b => ?_)
      rw [ih, ih (bif b then _ else _)]
      cases b <;> simp [Functor.map_map]
  simp only [filterM, filterAuxM, bind_assoc]
  refine congrArg _ (funext fun b => ?_)
  rw [haux]
  cases b <;> simp

theorem nodup_eraseDups (l : List String) : l.eraseDups.Nodup := by
  cases l with
  | nil => simp
  | cons a l =>
    rw [eraseDups_cons, nodup_cons]
    exact ⟨by simp [mem_eraseDups], nodup_eraseDups _⟩
  termination_by l.length
  decreasing_by
    have := length_filter_le (fun b => !b == a) l
    simp only [length_cons]
    omega

/-! ### Results -/

namespace Result

variable {P : List α → σ → Prop} {a : α} {b : β} {f : α → Result β} {p : α → Bool} {x : Result α}

theorem bind_eq_ok :
    (x >>= f) = .ok b ↔ ∃ a, x = .ok a ∧ f a = .ok b := by
  cases x with
  | error e => simp [bind, Except.bind]
  | ok a => simp [bind, Except.bind]

theorem of_bind (h : (x >>= f) = .ok b) :
    ∃ a, x = .ok a ∧ f a = .ok b :=
  bind_eq_ok.mp h

theorem ok_bind (a : α) (f : α → Result β) : (Except.ok a >>= f) = f a := rfl

theorem foldlM_track {f : σ → α → Result σ} {s' : σ} (h : l.foldlM f s = .ok s') (h0 : P [] s)
    (hs : ∀ done s a s', P done s → f s a = .ok s' → P (done ++ [a]) s') : P l s' := by
  induction l using List.reverseRecOn generalizing s' with
  | nil =>
    cases h
    exact h0
  | append_singleton l a ih =>
    rw [foldlM_append] at h
    obtain ⟨s1, h1, h⟩ := of_bind h
    simp only [foldlM_cons, foldlM_nil, bind_pure] at h
    exact hs l s1 a s' (ih h1) h

theorem foldlM_induct {P : σ → Prop} {f : σ → α → Result σ} (l : List α) {s' : σ}
    (h : l.foldlM f s = .ok s') (h0 : P s) (hs : ∀ s a s', a ∈ l → P s → f s a = .ok s' → P s') :
    P s' := by
  refine foldlM_track (P := fun done s => done ⊆ l → P s) h (fun _ => h0)
    (fun done s a s' ht hrun hsub => ?_) (Subset.refl l)
  obtain ⟨hdone, ha⟩ := append_subset.mp hsub
  exact hs s a s' (by simpa using ha) (ht hdone) hrun

theorem mapM_eq_ok (h : l.mapM f = .ok r) :
    List.Forall₂ (fun a b => f a = .ok b) l r := by
  induction l generalizing r with
  | nil => cases h; exact List.Forall₂.nil
  | cons a l ih =>
    rw [mapM_cons, bind_eq_ok] at h
    obtain ⟨b, hb, h⟩ := h
    rw [bind_eq_ok] at h
    obtain ⟨bs, hbs, h⟩ := h
    cases h
    exact List.Forall₂.cons hb (ih hbs)

theorem mapM_ok_iff : (∃ r, l.mapM f = .ok r) ↔ ∀ a ∈ l, ∃ b, f a = .ok b := by
  induction l with
  | nil => simp [pure, Except.pure]
  | cons a l ih =>
    rw [forall_mem_cons, ← ih]
    constructor
    · rintro ⟨r, h⟩
      rw [mapM_cons, bind_eq_ok] at h
      obtain ⟨b, hb, h⟩ := h
      obtain ⟨bs, hbs, -⟩ := of_bind h
      exact ⟨⟨b, hb⟩, bs, hbs⟩
    · rintro ⟨⟨b, hb⟩, bs, hbs⟩
      exact ⟨b :: bs, by rw [mapM_cons, hb, hbs]; rfl⟩

theorem mapM_of_ok {k : α → β} (h : ∀ a ∈ l, f a = .ok (k a)) : l.mapM f = .ok (l.map k) := by
  induction l with
  | nil => rfl
  | cons a l ih =>
    rw [mapM_cons, h a (by simp), ih fun a ha => h a (by simp [ha])]
    rfl

theorem map_of_mapM (hs : ∀ a b, f a = .ok b → g b = k a) (h : l.mapM f = .ok r) :
    r.map g = l.map k :=
  map_eq_of_forall₂ (mapM_eq_ok h) hs

theorem exists_of_mapM (h : l.mapM f = .ok r) (ha : a ∈ l) : ∃ b ∈ r, f a = .ok b :=
  exists_right_of_forall₂ (mapM_eq_ok h) ha

theorem exists_of_mem_mapM (h : l.mapM f = .ok r) (hb : b ∈ r) : ∃ a ∈ l, f a = .ok b :=
  exists_left_of_forall₂ (mapM_eq_ok h) hb

theorem filterMapM_eq_ok {f : α → Result (Option β)} (h : l.filterMapM f = .ok r) :
    (∀ a ∈ l, ∃ o, f a = .ok o) ∧ ∀ b, b ∈ r ↔ ∃ a ∈ l, f a = .ok (some b) := by
  induction l generalizing r with
  | nil => cases h; simp
  | cons a l ih =>
    rw [filterMapM_cons, bind_eq_ok] at h
    obtain ⟨o, ho, h⟩ := h
    cases o with
    | none =>
      obtain ⟨hall, hmem⟩ := ih h
      exact ⟨by simpa [ho] using hall, by simpa [ho] using hmem⟩
    | some c =>
      obtain ⟨cs, hcs, h⟩ := of_bind h
      cases h
      obtain ⟨hall, hmem⟩ := ih hcs
      exact ⟨by simpa [ho] using hall, by simp [ho, hmem, eq_comm]⟩

theorem filterMapM_of_ok {f : α → Result (Option β)} {h : α → Option β}
    (hf : ∀ a ∈ l, f a = .ok (h a)) : l.filterMapM f = .ok (l.filterMap h) := by
  induction l with
  | nil => rfl
  | cons a l ih =>
    rw [filterMapM_cons, hf a (mem_cons_self ..)]
    have hr := ih fun b hb => hf b (mem_cons_of_mem _ hb)
    cases ha : h a with
    | none => simpa [ha, bind, Except.bind] using hr
    | some b => simp [ha, bind, Except.bind, hr, pure, Except.pure]

/-- A computation succeeds exactly under a condition, and what it then returns has a property. -/
structure Meets (x : Result σ) (condition : Prop) (P : σ → Prop) : Prop where
  succeeds : condition → ∃ s, x = .ok s
  only : ∀ s, x = .ok s → condition ∧ P s

theorem Meets.of_run {x : Result σ} {condition : Prop} {P : σ → Prop}
    (hrun : condition → ∃ s, x = .ok s ∧ P s) (honly : ∀ s, x = .ok s → condition) :
    Meets x condition P where
  succeeds hc := (hrun hc).imp fun _ => And.left
  only s hs := by
    obtain ⟨s', hs', hP⟩ := hrun (honly s hs)
    cases hs.symm.trans hs'
    exact ⟨honly s hs, hP⟩

/-- A run through a list succeeds exactly if every step does, and what every step keeps of the
elements gone through, the run keeps. -/
theorem Meets.foldlM_split {condition : List α → α → Prop} {f : σ → α → Result σ} (h0 : P [] s)
    (hs : ∀ done a rest s, l = done ++ a :: rest → P done s →
      Meets (f s a) (condition done a) (P (done ++ [a]))) :
    Meets (l.foldlM f s) (∀ done a rest, l = done ++ a :: rest → condition done a) (P l) := by
  induction l using List.reverseRecOn with
  | nil =>
    refine ⟨fun _ => ⟨s, rfl⟩, fun s' hs' => ?_⟩
    cases hs'
    exact ⟨by simp, h0⟩
  | append_singleton l a ih =>
    have hl := ih fun done b rest s hsp => hs done b (rest ++ [a]) s (by simp [hsp])
    simp only [foldlM_append, foldlM_cons, foldlM_nil, bind_pure]
    constructor
    · intro hall
      obtain ⟨s1, hs1⟩ := hl.succeeds fun done b rest hsp =>
        hall done b (rest ++ [a]) (by simp [hsp])
      obtain ⟨s', hs'⟩ := (hs l a [] s1 rfl (hl.only s1 hs1).2).succeeds (hall l a [] rfl)
      exact ⟨s', bind_eq_ok.mpr ⟨s1, hs1, hs'⟩⟩
    · intro s' hs'
      obtain ⟨s1, hs1, hs'⟩ := of_bind hs'
      obtain ⟨hall, hP⟩ := hl.only s1 hs1
      obtain ⟨ha, hP'⟩ := (hs l a [] s1 rfl hP).only s' hs'
      refine ⟨fun done b rest hsp => ?_, hP'⟩
      obtain rfl | ⟨rest, c, rfl⟩ := rest.eq_nil_or_concat
      · obtain ⟨rfl, heq⟩ := append_inj' hsp rfl
        cases heq
        exact ha
      · rw [concat_eq_append, ← cons_append, ← append_assoc] at hsp
        exact hall done b rest (append_inj' hsp rfl).1

theorem Meets.foldlM {condition : α → Prop} {f : σ → α → Result σ} (h0 : P [] s)
    (hs : ∀ done a rest s, l = done ++ a :: rest → P done s →
      Meets (f s a) (condition a) (P (done ++ [a]))) :
    Meets (l.foldlM f s) (∀ a ∈ l, condition a) (P l) := by
  have hsp : Meets (l.foldlM f s) (∀ done a rest, l = done ++ a :: rest → condition a) (P l) :=
    Meets.foldlM_split h0 hs
  refine ⟨fun hall => hsp.succeeds fun done a rest hl => hall a (by simp [hl]), fun s' hs' => ?_⟩
  obtain ⟨hall, hP⟩ := hsp.only s' hs'
  refine ⟨fun a ha => ?_, hP⟩
  obtain ⟨done, rest, hl⟩ := append_of_mem ha
  exact hall done a rest hl

theorem filterMapM_ok_iff {f : α → Result (Option β)} :
    (∃ r, l.filterMapM f = .ok r) ↔ ∀ a ∈ l, ∃ o, f a = .ok o := by
  refine ⟨fun ⟨r, h⟩ => (filterMapM_eq_ok h).1, fun hall => ?_⟩
  refine ⟨_, filterMapM_of_ok (h := fun a => (f a).toOption.getD none) fun a ha => ?_⟩
  obtain ⟨o, ho⟩ := hall a ha
  rw [ho]
  rfl

theorem exists_of_findSomeM? {f : α → Result (Option β)} (h : l.findSomeM? f = .ok (some b)) :
    ∃ a ∈ l, f a = .ok (some b) := by
  induction l with
  | nil => cases h
  | cons a l ih =>
    obtain ⟨o, ho, h⟩ := of_bind h
    cases o with
    | none =>
      obtain ⟨a', ha', hfa⟩ := ih h
      exact ⟨a', mem_cons_of_mem _ ha', hfa⟩
    | some c =>
      cases h
      exact ⟨a, mem_cons_self .., ho⟩

section

variable {f : α → Result Bool}

theorem findM?_eq_some (h : l.findM? f = .ok (some a)) :
    ∃ l1 l2, l = l1 ++ a :: l2 ∧ f a = .ok true ∧ ∀ b ∈ l1, f b = .ok false := by
  induction l with
  | nil => cases h
  | cons b l ih =>
    obtain ⟨found, hb, h⟩ := of_bind h
    cases found with
    | true =>
      cases h
      exact ⟨[], l, rfl, hb, by simp⟩
    | false =>
      obtain ⟨l1, l2, rfl, ha, hall⟩ := ih h
      exact ⟨b :: l1, l2, rfl, ha, by simpa [hb] using hall⟩

theorem mem_of_findM? (h : l.findM? f = .ok (some a)) : a ∈ l := by
  obtain ⟨l1, l2, rfl, -⟩ := findM?_eq_some h
  simp

theorem findM?_of_ok (hf : ∀ a ∈ l, f a = .ok (p a)) : l.findM? f = .ok (l.find? p) := by
  induction l with
  | nil => rfl
  | cons a l ih =>
    have hr := ih fun b hb => hf b (mem_cons_of_mem _ hb)
    refine bind_eq_ok.mpr ⟨p a, hf a (mem_cons_self ..), ?_⟩
    rw [List.find?_cons]
    cases p a with
    | true => rfl
    | false => exact hr

theorem filterM_eq_ok (hf : ∀ a b, f a = .ok b → b = p a) {r : List α} (h : l.filterM f = .ok r) :
    r = l.filter p := by
  induction l generalizing r with
  | nil =>
    cases h
    rfl
  | cons a l ih =>
    rw [filterM_cons] at h
    obtain ⟨b, hb, h⟩ := of_bind h
    obtain ⟨kept, hkp, h⟩ := of_bind h
    cases h
    rw [filter_cons, ← hf a b hb, ih hkp]
    cases b <;> rfl

theorem filterM_subset {r : List α} (h : l.filterM f = .ok r) : r ⊆ l := by
  rw [filterM_eq_ok (p := fun a => (f a).toOption.getD false) (fun a b hb => by rw [hb]; rfl) h]
  exact filter_sublist.subset

theorem filterM_of_ok (hf : ∀ a ∈ l, f a = .ok (p a)) : l.filterM f = .ok (l.filter p) := by
  induction l with
  | nil => rfl
  | cons a l ih =>
    rw [filterM_cons, hf a (mem_cons_self ..), ih fun b hb => hf b (mem_cons_of_mem _ hb),
      filter_cons]
    cases p a <;> rfl

end

/-- Two computations that fail with the same error or return related values. -/
inductive Related (R : α → β → Prop) : Result α → Result β → Prop where
  | ok {a : α} {b : β} (h : R a b) : Related R (.ok a) (.ok b)
  | error (e : Error) : Related R (.error e) (.error e)

namespace Related

variable {δ : Type} {R : α → β → Prop} {S : γ → δ → Prop}

variable {f : α → Result (Option γ)} {g : β → Result (Option δ)} {l' : List β}

theorem of_eq {y : Result α} (h : x = y) : Related Eq x y := by
  subst h
  cases x with
  | error e => exact .error e
  | ok a => exact .ok rfl

theorem bind {y : Result β} {f : α → Result γ} {g : β → Result δ} (h : Related R x y)
    (hfg : ∀ a b, R a b → Related S (f a) (g b)) :
    Related S (x >>= f) (y >>= g) := by
  cases h with
  | ok h => exact hfg _ _ h
  | error e => exact .error e

theorem mapM {f : α → Result γ} {g : β → Result δ} (h : List.Forall₂ R l l')
    (hfg : ∀ a b, R a b → Related S (f a) (g b)) :
    Related (List.Forall₂ S) (l.mapM f) (l'.mapM g) := by
  induction h with
  | nil => exact .ok .nil
  | cons hab _ ih =>
    rw [mapM_cons, mapM_cons]
    exact (hfg _ _ hab).bind fun _ _ hcd => ih.bind fun _ _ hr => .ok (.cons hcd hr)

theorem filterMapM (h : List.Forall₂ R l l')
    (hfg : ∀ a b, R a b → Related (Option.Rel S) (f a) (g b)) :
    Related (List.Forall₂ S) (l.filterMapM f) (l'.filterMapM g) := by
  induction h with
  | nil => exact .ok .nil
  | cons hab _ ih =>
    rw [filterMapM_cons, filterMapM_cons]
    refine (hfg _ _ hab).bind fun c d hcd => ?_
    cases hcd with
    | none => exact ih
    | some hcd => exact ih.bind fun _ _ hr => .ok (.cons hcd hr)

theorem findSomeM? (h : List.Forall₂ R l l')
    (hfg : ∀ a b, R a b → Related (Option.Rel S) (f a) (g b)) :
    Related (Option.Rel S) (l.findSomeM? f) (l'.findSomeM? g) := by
  induction h with
  | nil => exact .ok .none
  | cons hab _ ih =>
    refine (hfg _ _ hab).bind fun c d hcd => ?_
    cases hcd with
    | none => exact ih
    | some hcd => exact .ok (.some hcd)

theorem map_eq {y : Result β} {f : α → γ} {g : β → γ} (h : Related R x y)
    (hfg : ∀ a b, R a b → f a = g b) : x.map f = y.map g := by
  cases h with
  | ok h => exact congrArg Except.ok (hfg _ _ h)
  | error e => rfl

end Related

theorem orWritten_cases {written r : Result α} (h : orWritten written r = .ok a) :
    r = .ok a ∨ r = malformed .noAttribute ∧ written = .ok a := by
  unfold orWritten at h
  split at h
  · exact .inr ⟨rfl, h⟩
  · exact .inl h

theorem bind_ne_error (hx : x ≠ .error e) (hf : ∀ a, x = .ok a → f a ≠ .error e) :
    (x >>= f) ≠ .error e := by
  cases x with
  | error e' =>
    intro h
    cases h
    exact hx rfl
  | ok a => exact hf a rfl

theorem mapM_ne_error (h : ∀ a, f a ≠ .error e) :
    l.mapM f ≠ .error e := by
  induction l with
  | nil => exact fun h => nomatch h
  | cons a l ih =>
    rw [mapM_cons]
    exact bind_ne_error (h a) fun _ _ => bind_ne_error ih fun _ _ h => nomatch h

end Result

/-! ### Actions -/

namespace Action

variable {P : σ → Prop} {a : α} {b : β} {f : α → Action β} {x : Action α}

theorem bind_eq_ok :
    (x >>= f) w = (.ok b, w') ↔ ∃ a w1, x w = (.ok a, w1) ∧ f a w1 = (.ok b, w') := by
  change ExceptT.bindCont f (x w).1 (x w).2 = (.ok b, w') ↔ _
  rcases x w with ⟨e | a, w1⟩
  · constructor
    · intro h
      cases h
    · rintro ⟨a, w2, h, -⟩
      cases h
  · refine ⟨fun h => ⟨a, w1, rfl, h⟩, ?_⟩
    rintro ⟨a', w2, h, hf⟩
    cases h
    exact hf

theorem of_bind (h : (x >>= f) w = (.ok b, w')) :
    ∃ a w1, x w = (.ok a, w1) ∧ f a w1 = (.ok b, w') :=
  bind_eq_ok.mp h

theorem bind_of_eq_ok (h : x w = (.ok a, w1)) : (x >>= f) w = f a w1 := by
  change ExceptT.bindCont f (x w).1 (x w).2 = f a w1
  rw [h]
  rfl

theorem bind_of_eq_error (h : x w = (.error e, w1)) : (x >>= f) w = (.error e, w1) := by
  change ExceptT.bindCont f (x w).1 (x w).2 = (.error e, w1)
  rw [h]
  rfl

theorem fst_bind_pure {g : α → β} (hf : ∀ a, f a = pure (g a)) (w : Workspace) :
    ((x >>= f) w).1 = (x w).1.map g := by
  rcases hrun : x w with ⟨e | a, w1⟩
  · rw [bind_of_eq_error hrun]
    rfl
  · rw [bind_of_eq_ok hrun, hf]
    rfl

theorem bind_congr {y : Action α} {g : α → Action β} (h : x w = y w)
    (hfg : ∀ a w1, x w = (.ok a, w1) → f a w1 = g a w1) : (x >>= f) w = (y >>= g) w := by
  rcases hrun : x w with ⟨e | a, w1⟩
  · rw [bind_of_eq_error hrun, bind_of_eq_error (h.symm.trans hrun)]
  · rw [bind_of_eq_ok hrun, bind_of_eq_ok (h.symm.trans hrun)]
    exact hfg a w1 hrun

theorem get_bind (f : Workspace → Action α) (w : Workspace) :
    ((get : Action Workspace) >>= f) w = f w w := rfl

theorem modify_bind (g : Workspace → Workspace) (f : PUnit → Action α) (w : Workspace) :
    ((modify g : Action PUnit) >>= f) w = f ⟨⟩ (g w) := rfl

theorem lift_apply (r : Result α) (s : σ) :
    (liftM r : ExceptT Error (StateM σ) α) s = (r, s) := by
  cases r <;> rfl

theorem findSomeM?_lift (f : α → Result (Option β)) (l : List α) (w : Workspace) :
    l.findSomeM? (fun a => (liftM (f a) : Action (Option β))) w = (l.findSomeM? f, w) := by
  induction l with
  | nil => rfl
  | cons a l ih =>
    rw [List.findSomeM?, List.findSomeM?]
    cases hfa : f a with
    | error e => exact bind_of_eq_error (lift_apply _ _)
    | ok o =>
      cases o with
      | none => exact ih
      | some b => rfl

theorem tryCatch_apply (a : ExceptT Error (StateM σ) α) (h : Error → ExceptT Error (StateM σ) α) (s : σ) :
    (tryCatch a h : ExceptT Error (StateM σ) α) s = match a s with
      | (.ok x, s') => (.ok x, s')
      | (.error e, s') => h e s' := by
  simp only [tryCatch, tryCatchThe, MonadExceptOf.tryCatch, ExceptT.tryCatch, ExceptT.mk]
  change StateT.bind a _ s = _
  unfold StateT.bind
  rcases a s with ⟨e | x, s'⟩ <;> rfl

theorem pure_eq_ok {b : α} : (pure a : Action α) w = (.ok b, w') ↔ a = b ∧ w = w' := by
  change ((Except.ok a, w) : Except Error α × Workspace) = (.ok b, w') ↔ _
  simp

theorem of_bind_pure {g : α → β} (h : (x >>= fun a => pure (g a)) w = (.ok b, w')) :
    ∃ a, x w = (.ok a, w') ∧ g a = b := by
  obtain ⟨a, _, hx, h⟩ := of_bind h
  obtain ⟨hb, rfl⟩ := pure_eq_ok.mp h
  exact ⟨a, hx, hb⟩

theorem lift_eq_ok {r : Result α} :
    (liftM r : Action α) w = (.ok a, w') ↔ r = .ok a ∧ w = w' := by
  cases r with
  | error e =>
    change ((Except.error e, w) : Except Error α × Workspace) = (.ok a, w') ↔ _
    simp
  | ok b =>
    change ((Except.ok b, w) : Except Error α × Workspace) = (.ok a, w') ↔ _
    simp

theorem of_lift_bind {r : Result α} (h : ((liftM r : Action α) >>= f) w = (.ok b, w')) :
    ∃ a, r = .ok a ∧ f a w = (.ok b, w') := by
  obtain ⟨a, _, hlift, h⟩ := of_bind h
  obtain ⟨hr, rfl⟩ := lift_eq_ok.mp hlift
  exact ⟨a, hr, h⟩

theorem of_project_bind {f : Project → Action β} (h : (Action.project >>= f) w = (.ok b, w')) :
    f w.project w = (.ok b, w') := h

theorem project_eq_ok {p : Project} :
    Action.project w = (.ok p, w') ↔ w.project = p ∧ w = w' := by
  change ((Except.ok w.project, w) : Except Error Project × Workspace) = (.ok p, w') ↔ _
  simp

theorem outcome_apply (a : Action α) (w : Workspace) : outcome a w = (.ok (a w).1, (a w).2) := rfl

theorem project_bind_apply (f : Project → Action α) (w : Workspace) :
    (project >>= f) w = f w.project.seen w := rfl

theorem exists_of_any {a : Action α} {check : α → Bool} (h : (a w).1.toOption.any check = true) :
    ∃ x w', a w = (.ok x, w') ∧ check x = true := by
  rcases hrun : a w with ⟨e | x, w'⟩
  · rw [hrun] at h
    cases h
  · rw [hrun] at h
    exact ⟨x, w', rfl, h⟩

theorem mapM_eq_ok (h : l.mapM f w = (.ok r, w')) :
    Forall₂ (fun a b => ∃ w1 w2, f a w1 = (.ok b, w2)) l r := by
  induction l generalizing r w w' with
  | nil =>
    obtain ⟨rfl, -⟩ := pure_eq_ok.mp h
    exact .nil
  | cons a l ih =>
    rw [mapM_cons] at h
    obtain ⟨b, w1, hb, h⟩ := of_bind h
    obtain ⟨bs, hbs, rfl⟩ := of_bind_pure h
    exact .cons ⟨w, w1, hb⟩ (ih hbs)

theorem exists_of_mapM (h : l.mapM f w = (.ok r, w')) (ha : a ∈ l) :
    ∃ b ∈ r, ∃ w1 w2, f a w1 = (.ok b, w2) :=
  exists_right_of_forall₂ (mapM_eq_ok h) ha

theorem exists_of_mem_mapM (h : l.mapM f w = (.ok r, w')) (hb : b ∈ r) :
    ∃ a ∈ l, ∃ w1 w2, f a w1 = (.ok b, w2) :=
  exists_left_of_forall₂ (mapM_eq_ok h) hb

theorem map_of_mapM (hs : ∀ a w b w', f a w = (.ok b, w') → g b = k a)
    (h : l.mapM f w = (.ok r, w')) : r.map g = l.map k :=
  map_eq_of_forall₂ (mapM_eq_ok h) fun a b ⟨w1, w2, hrun⟩ => hs a w1 b w2 hrun

variable {f : σ → α → Action σ} {s' : σ}

theorem foldlM_track {P : List α → σ → Workspace → Prop} (h : l.foldlM f s w = (.ok s', w'))
    (h0 : P [] s w)
    (hs : ∀ done s a s' w w', P done s w → f s a w = (.ok s', w') → P (done ++ [a]) s' w') :
    P l s' w' := by
  induction l using List.reverseRecOn generalizing s' w' with
  | nil =>
    obtain ⟨rfl, rfl⟩ := pure_eq_ok.mp h
    exact h0
  | append_singleton l a ih =>
    rw [foldlM_append] at h
    obtain ⟨s1, w1, h1, h⟩ := of_bind h
    simp only [foldlM_cons, foldlM_nil, bind_pure] at h
    exact hs l s1 a s' w1 w' (ih h1) h

theorem foldlM_induct_mem (h : l.foldlM f s w = (.ok s', w'))
    (h0 : P s) (hs : ∀ s a s' w w', a ∈ l → P s → f s a w = (.ok s', w') → P s') : P s' := by
  refine foldlM_track (P := fun done s _ => done ⊆ l → P s) h (fun _ => h0)
    (fun done s a s' w w' ht hrun hsub => ?_) (Subset.refl l)
  obtain ⟨hdone, ha⟩ := append_subset.mp hsub
  exact hs s a s' w w' (by simpa using ha) (ht hdone) hrun

theorem foldlM_induct (l : List α) (h : l.foldlM f s w = (.ok s', w')) (h0 : P s)
    (hs : ∀ s a s' w w', P s → f s a w = (.ok s', w') → P s') : P s' :=
  foldlM_induct_mem h h0 fun s a s' w w' _ => hs s a s' w w'

theorem foldlM_lift (f : σ → α → Result σ) (l : List α) (s : σ) :
    l.foldlM (fun s a => (liftM (f s a) : Action σ)) s = liftM (l.foldlM f s) := by
  induction l generalizing s with
  | nil => rfl
  | cons a l ih =>
    rw [foldlM_cons, foldlM_cons]
    cases f s a with
    | error e => rfl
    | ok t => exact ih t

end Action

end SemanticLayer
