import SemanticLayer.Proofs.Outcome
import SemanticLayer.Proofs.Value.Definition

/-!
# Views that are joined under other names

A primary identifier that is joined under another name is moved from its view to a copy (`moved`).
Where no name is used twice, the views and copies are what is left of each view and what is moved
from it (`duplicate_meets`).
-/

namespace SemanticLayer.Project

open Result List Definition

variable {d i : Definition} {done rest views : List Definition}

/-! ### What stays and what is moved -/

def identifiersOf (d : Definition) : List Definition :=
  (d.get "identifiers").itemsD.map Value.entriesD

def isMoved (i : Definition) : Bool := i.has "join_as" && (i.get "type").isTextOf "primary"

def nameOf (d : Definition) : String := (d.get "name").plain

def copyName (i : Definition) : String := (i.get "join_as").plain

def moved (d : Definition) : List Definition := (identifiersOf d).filter isMoved

def kept (d : Definition) : Definition :=
  if (moved d).isEmpty then d
  else d.set "identifiers" (.list ((d.get "identifiers").itemsD.filter fun i => !isMoved i.entriesD))

/-- A copy of a view, still under the name of the view. -/
def copyOf (d i : Definition) : Definition := d.merge ((copyEntries i).toOption.getD [])

def copiesOf (d : Definition) : List Definition :=
  (moved d).map fun i => (copyOf d i).set "name" (.text (copyName i))

structure IsNamed (d : Definition) : Prop where
  text : ∀ i ∈ identifiersOf d, (i.get "name").isText = true
  nodup : ((identifiersOf d).map nameOf).Nodup

instance (d : Definition) : Decidable (IsNamed d) :=
  decidable_of_iff ((∀ i ∈ identifiersOf d, (i.get "name").isText = true) ∧
    ((identifiersOf d).map nameOf).Nodup) ⟨fun h => ⟨h.1, h.2⟩, fun h => ⟨h.text, h.nodup⟩⟩

/-- An identifier says what has to be known to move it. -/
structure CanMove (i : Definition) : Prop where
  typed : i.has "join_as" = true → i.has "type" = true
  text : isMoved i = true → (i.get "join_as").isText = true

/-! ### Going through the identifiers of a view -/

/-- The identifiers that are left when some were gone through. -/
def itemsAfter (d : Definition) (done : List Definition) : List Value :=
  (d.get "identifiers").itemsD.filter fun x =>
    !((done.filter isMoved).map nameOf).contains (nameOf x.entriesD)

/-- What is left of a view when some of its identifiers were gone through. -/
def keptAfter (d : Definition) (done : List Definition) : Definition :=
  if (done.filter isMoved).isEmpty then d else d.set "identifiers" (.list (itemsAfter d done))

theorem copyEntries_meets (i : Definition) :
    Result.Meets (copyEntries i) ((i.get "join_as").isText = true) fun e =>
      (∃ rest, e = ("identifiers", .list [.map (i.erase "join_as")]) :: rest ∧
        Definition.has rest "identifiers" = false) ∧ Definition.has e "name" = false := by
  refine Result.Meets.of_run (fun htx => ?_) fun e he => ?_
  · obtain ⟨s, hs⟩ := exists_of_isText htx
    unfold copyEntries
    rw [need_eq_ok.mpr hs]
    refine ⟨_, rfl, ⟨_, rfl, ?_⟩, ?_⟩ <;> cases i.has "join_as_label" <;> rfl
  · obtain ⟨v, hv, he⟩ := of_bind he
    obtain ⟨s, hs, -⟩ := of_bind he
    rw [get_of_get? (need_eq_ok.mp hv)]
    cases v with
    | text s => rfl
    | _ => cases hs

section

variable (d done)

theorem itemsD_keptAfter :
    ((keptAfter d done).get "identifiers").itemsD = itemsAfter d done := by
  unfold keptAfter
  split_ifs with hno
  · rw [itemsAfter, List.isEmpty_iff.mp hno]
    simp
  · simp [Value.itemsD]

theorem get?_keptAfter {key : String} (hkey : key ≠ "identifiers") :
    (keptAfter d done).get? key = d.get? key := by
  unfold keptAfter
  split_ifs
  · rfl
  · rw [Definition.get?_set, if_neg (Ne.symm hkey)]

theorem keptAfter_snoc (hi : isMoved i = true) : keptAfter d (done ++ [i]) =
    d.set "identifiers" (.list (itemsAfter d (done ++ [i]))) := by
  rw [keptAfter]
  simp only [filter_append, filter_cons_of_pos hi]
  simp

theorem set_keptAfter (hi : isMoved i = true) : (keptAfter d done).set "identifiers"
    (.list (itemsAfter d (done ++ [i]))) = keptAfter d (done ++ [i]) := by
  rw [keptAfter_snoc d done hi, keptAfter]
  split_ifs
  · rfl
  · exact Definition.set_set ..

theorem merge_keptAfter {e : Definition} (he : copyEntries i = .ok e) :
    (keptAfter d done).merge e = copyOf d i := by
  obtain ⟨-, ⟨rest, rfl, -⟩, -⟩ := (copyEntries_meets i).only e he
  rw [copyOf, he, keptAfter]
  split_ifs
  · rfl
  · change Definition.merge (Definition.set _ _ _) rest = Definition.merge (Definition.set _ _ _) rest
    rw [Definition.set_set]

end

theorem keptAfter_identifiersOf (hd : IsNamed d) : keptAfter d (identifiersOf d) = kept d := by
  have hits : itemsAfter d (identifiersOf d) =
      (d.get "identifiers").itemsD.filter fun i => !isMoved i.entriesD := by
    refine filter_congr fun x hx => ?_
    have hx' : x.entriesD ∈ identifiersOf d := mem_map_of_mem hx
    rw [Bool.not_inj_iff, Bool.eq_iff_iff, contains_iff_mem, mem_map]
    constructor
    · rintro ⟨i, hi, hn⟩
      obtain ⟨hi, hmoved⟩ := mem_filter.mp hi
      rwa [← inj_on_of_nodup_map hd.nodup hi hx' hn]
    · exact fun hmoved => ⟨_, mem_filter.mpr ⟨hx', hmoved⟩, rfl⟩
  rw [keptAfter, hits]
  rfl

theorem filterM_itemsAfter (hd : IsNamed d)
    {n : String} (hn : i.get? "name" = some (.text n)) (hi : isMoved i = true) :
    (itemsAfter d done).filterM (fun x => do
      return !(← x.entriesD.need "name").same (.text n) : Value → Result Bool) =
      .ok (itemsAfter d (done ++ [i])) := by
  have hname : nameOf i = n := by rw [nameOf, get_of_get? hn]; rfl
  rw [filterM_of_ok (p := fun x => !(nameOf x.entriesD == n))]
  · rw [itemsAfter, itemsAfter, filter_filter, filter_append,
      filter_cons_of_pos hi, map_append]
    congr 2
    funext x
    rw [Bool.eq_iff_iff]
    simp [hname]
    tauto
  · intro x hx
    have hx' : x.entriesD ∈ identifiersOf d := mem_map_of_mem (mem_filter.mp hx).1
    obtain ⟨m, hm⟩ := exists_of_isText (hd.text _ hx')
    rw [need_eq_ok.mpr hm, nameOf, get_of_get? hm]
    rfl

/-- The copies that were made when some of the identifiers were gone through. -/
def made (d : Definition) (done : List Definition) : Copies :=
  (done.filter isMoved).map fun i => (copyName i, copyOf d i)

def AreOfOthers (copies : Copies) (name : String) : Prop :=
  ∀ e ∈ copies, ∃ n, e.2.get? "name" = some (.text n) ∧ n ≠ name

theorem copyStep_of_moved (hd : IsNamed d)
    (hi : i ∈ identifiersOf d) (hmoved : isMoved i = true) (copies : Copies) :
    copyStep (keptAfter d done, copies) i = (do
      match copies.find? (·.1 == copyName i) with
      | none =>
        return (keptAfter d (done ++ [i]), copies ++ [(copyName i,
          (keptAfter d (done ++ [i])).merge (← copyEntries i))])
      | some (_, existing) =>
        if (← existing.need "name").same (← (keptAfter d (done ++ [i])).need "name") then
          return (keptAfter d (done ++ [i]), copies)
        else throw .duplicateJoinAs) := by
  obtain ⟨hj, hpri⟩ := Bool.and_eq_true_iff.mp hmoved
  obtain ⟨n, hn⟩ := exists_of_isText (hd.text i hi)
  have hty : i.need "type" = .ok (i.get "type") := by
    cases hget : i.get "type" with
    | text t => exact need_eq_ok.mpr (Definition.get?_of_get hget)
    | _ =>
      rw [hget] at hpri
      cases hpri
  unfold copyStep
  simp only [hj, hty, need_eq_ok.mpr hn, ok_bind, hpri, Bool.not_true,
    Bool.false_eq_true, if_false, itemsD_keptAfter, filterM_itemsAfter hd hn hmoved,
    set_keptAfter d done hmoved]
  rfl

section

variable (hd : IsNamed d) {name : String} (hname : d.get? "name" = some (.text name))
  {copies : Copies} (hoth : AreOfOthers copies name) (huni : ((moved d).map copyName).Nodup)
include hd hname hoth huni

theorem copyStep_meets (hsp : identifiersOf d = done ++ i :: rest) :
    Result.Meets (copyStep (keptAfter d done, copies ++ made d done) i)
      (CanMove i ∧ (isMoved i = true → copyName i ∉ copies.map (·.1)))
      fun s => s = (keptAfter d (done ++ [i]), copies ++ made d (done ++ [i])) := by
  have hi : i ∈ identifiersOf d := by simp [hsp]
  have hstay : isMoved i = false → ∀ s, s = (keptAfter d done, copies ++ made d done) →
      s = (keptAfter d (done ++ [i]), copies ++ made d (done ++ [i])) := by
    rintro hi s rfl
    simp [keptAfter, itemsAfter, made, hi]
  by_cases hjoin : i.has "join_as" = true
  swap
  · -- the view is not joined under another name
    have hnot : isMoved i = false := by simp [isMoved, hjoin]
    refine Result.Meets.of_run (fun _ => ⟨_, ?_, hstay hnot _ rfl⟩) fun s _ => ⟨⟨?_, ?_⟩, ?_⟩
    · unfold copyStep
      simp [hjoin]
      rfl
    all_goals simp [hjoin, hnot]
  by_cases hmoved : isMoved i = true
  swap
  · have hpri : (i.get "type").isTextOf "primary" = false := by simpa [isMoved, hjoin] using hmoved
    refine Result.Meets.of_run (fun hcan => ?_) fun s hs => ⟨⟨fun _ => ?_, ?_⟩, ?_⟩
    · obtain ⟨t, ht⟩ := exists_of_has (hcan.1.typed hjoin)
      refine ⟨_, ?_, hstay (by simpa using hmoved) _ rfl⟩
      unfold copyStep
      rw [need_eq_ok.mpr ht]
      rw [get_of_get? ht] at hpri
      simp [bind, Except.bind, hpri]
      rfl
    · unfold copyStep at hs
      rw [hjoin] at hs
      obtain ⟨t, ht, -⟩ := of_bind hs
      exact has_of_get? (need_eq_ok.mp ht)
    all_goals exact fun h => absurd h hmoved
  -- no other identifier of this view is moved to a copy of this name
  have hnew : (made d done).find? (·.1 == copyName i) = none := by
    refine List.find?_eq_none.mpr fun e he => ?_
    obtain ⟨j, hj, rfl⟩ := mem_map.mp he
    rw [moved, hsp, filter_append, map_append, nodup_append] at huni
    have hne := huni.2.2 _ (mem_map_of_mem hj) (copyName i)
      (mem_map_of_mem (mem_filter.mpr ⟨mem_cons_self .., hmoved⟩))
    simpa using hne
  have hmade : made d (done ++ [i]) = made d done ++ [(copyName i, copyOf d i)] := by
    simp [made, hmoved]
  have hn' : (keptAfter d (done ++ [i])).need "name" = .ok (.text name) := by
    rw [need_eq_ok, get?_keptAfter _ _ (by decide), hname]
  have htyped : i.has "type" = true := by
    obtain ⟨-, hpri⟩ := Bool.and_eq_true_iff.mp hmoved
    rw [← Bool.not_eq_false]
    intro hno
    rw [has_eq_isSome, Option.isSome_eq_false_iff, Option.isNone_iff_eq_none] at hno
    rw [Definition.get, hno] at hpri
    cases hpri
  rw [copyStep_of_moved hd hi hmoved, List.find?_append, hnew]
  cases hfi : copies.find? (·.1 == copyName i) with
  | none =>
    have hfree : copyName i ∉ copies.map (·.1) := by
      intro hmem
      obtain ⟨e, he, heq⟩ := mem_map.mp hmem
      exact List.find?_eq_none.mp hfi e he (by simpa using heq)
    refine Result.Meets.of_run (fun hcan => ?_) fun s hs => ?_
    · obtain ⟨e, he⟩ := (copyEntries_meets i).succeeds (hcan.1.text hmoved)
      refine ⟨_, bind_eq_ok.mpr ⟨e, he, rfl⟩, ?_⟩
      rw [merge_keptAfter d _ he, hmade, append_assoc]
    · obtain ⟨e, he, -⟩ := of_bind hs
      exact ⟨⟨fun _ => htyped, fun _ => ((copyEntries_meets i).only e he).1⟩, fun _ => hfree⟩
  | some entry =>
    -- the name is taken by a copy of another view
    obtain ⟨n, existing⟩ := entry
    have hmem := List.mem_of_find?_eq_some hfi
    have hn : n = copyName i := by simpa using List.find?_some hfi
    obtain ⟨m, hm, hne⟩ := hoth _ hmem
    have hfails : ∀ s, (do
        if (← existing.need "name").same (← (keptAfter d (done ++ [i])).need "name") then
          return (keptAfter d (done ++ [i]), copies ++ made d done)
        else throw .duplicateJoinAs : Result (Definition × Copies)) ≠ .ok s := by
      intro s hs
      have hsm : (Value.text m).same (.text name) = false := by simpa [Value.same] using hne
      rw [need_eq_ok.mpr hm, hn'] at hs
      simp only [ok_bind, hsm] at hs
      cases hs
    refine ⟨fun hcan => ?_, fun s hs => absurd hs (hfails s)⟩
    exact absurd (mem_map.mpr ⟨_, hmem, hn⟩) (hcan.2 hmoved)

theorem copySteps_meets :
    Result.Meets ((identifiersOf d).foldlM copyStep (d, copies))
      ((∀ i ∈ identifiersOf d, CanMove i) ∧ ∀ i ∈ moved d, copyName i ∉ copies.map (·.1))
      fun s => s = (kept d, copies ++ made d (identifiersOf d)) := by
  have hrun : Result.Meets ((identifiersOf d).foldlM copyStep (d, copies))
      (∀ i ∈ identifiersOf d, CanMove i ∧ (isMoved i = true → copyName i ∉ copies.map (·.1)))
      fun s => s = (keptAfter d (identifiersOf d), copies ++ made d (identifiersOf d)) := by
    refine Result.Meets.foldlM
      (P := fun done s => s = (keptAfter d done, copies ++ made d done)) ?_ ?_
    · simp [keptAfter, made]
    · rintro done i rest s hsp rfl
      exact copyStep_meets hd hname hoth huni hsp
  rw [keptAfter_identifiersOf hd] at hrun
  simp only [forall_and, moved, mem_filter, and_imp] at hrun ⊢
  exact hrun

end

/-! ### Going through the views -/

structure CanSplit (d : Definition) : Prop where
  listed : ∃ items, written d = .ok items
  movable : ∀ i ∈ identifiersOf d, CanMove i

def copyNames (d : Definition) : List String := (moved d).map copyName

theorem map_fst_made (d : Definition) : (made d (identifiersOf d)).map (·.1) = copyNames d := by
  simp [made, copyNames, moved]

theorem get?_copyOf_name (d i : Definition) : (copyOf d i).get? "name" = d.get? "name" := by
  unfold copyOf
  cases he : copyEntries i with
  | error e => rfl
  | ok e => exact Definition.get?_merge_of_not_has d ((copyEntries_meets i).only e he).2.2

theorem foldlM_entriesD {items : List Value} (h : written d = .ok items) (s : Definition × Copies) :
    (items.map Value.entriesD).foldlM copyStep s = (identifiersOf d).foldlM copyStep s := by
  have hskip : ∀ l : List Value, (∀ x ∈ l, x.entriesD = []) →
      (l.map Value.entriesD).foldlM copyStep s = (.ok s : Result (Definition × Copies)) := by
    intro l
    induction l with
    | nil => exact fun _ => rfl
    | cons x l ih =>
      intro hl
      rw [map_cons, hl x (mem_cons_self ..)]
      exact ih fun y hy => hl y (mem_cons_of_mem _ hy)
  unfold written at h
  unfold identifiersOf Definition.get
  cases hget : d.get? "identifiers" with
  | none =>
    rw [hget] at h
    cases h
    rfl
  | some ids =>
    rw [hget] at h
    cases ids with
    | list xs =>
      cases h
      rfl
    | text t =>
      cases h
      exact hskip _ fun x hx => by
        obtain ⟨c, -, rfl⟩ := mem_map.mp hx
        rfl
    | map m =>
      cases h
      exact hskip _ fun x hx => by
        obtain ⟨c, -, rfl⟩ := mem_map.mp hx
        rfl
    | _ => cases h

structure AreNamed (views : List Definition) : Prop where
  text : ∀ d ∈ views, (d.get "name").isText = true
  nodup : (views.map nameOf).Nodup
  identifiers : ∀ d ∈ views, IsNamed d

instance (views : List Definition) : Decidable (AreNamed views) :=
  decidable_of_iff ((∀ d ∈ views, (d.get "name").isText = true) ∧ (views.map nameOf).Nodup ∧
    ∀ d ∈ views, IsNamed d) ⟨fun h => ⟨h.1, h.2.1, h.2.2⟩, fun h => ⟨h.text, h.nodup, h.identifiers⟩⟩

/-- No view has two identifiers that are joined under one other name. -/
def AreSplit (views : List Definition) : Prop := ∀ d ∈ views, (copyNames d).Nodup

instance (views : List Definition) : Decidable (AreSplit views) := by
  unfold AreSplit
  infer_instance

/-- What is known when some views were gone through: what is left of them, and their copies. -/
structure IsAfter (done : List Definition) (s : List Definition × List (String × Definition × Nat)) :
    Prop where
  stay : s.1 = done.map kept
  copies : s.2.map (fun e => (e.1, e.2.1)) = done.flatMap fun d => made d (identifiersOf d)

theorem areOfOthers_of_split (hnm : AreNamed views) (hvs : views = done ++ d :: rest) :
    AreOfOthers (done.flatMap fun d => made d (identifiersOf d)) (nameOf d) := by
  intro e he
  obtain ⟨d', hd', he⟩ := mem_flatMap.mp he
  obtain ⟨i, -, rfl⟩ := mem_map.mp he
  obtain ⟨n, hn⟩ := exists_of_isText (hnm.text d' (by simp [hvs, hd']))
  refine ⟨n, by rw [get?_copyOf_name, hn], fun heq => ?_⟩
  have hnd := hnm.nodup
  rw [hvs, map_append, nodup_append] at hnd
  refine hnd.2.2 _ (mem_map_of_mem hd') _ (mem_map_of_mem (mem_cons_self ..)) ?_
  rw [← heq, nameOf, get_of_get? hn]
  rfl

theorem duplicateStep_meets (hnm : AreNamed views) (hsp : AreSplit views)
    (hvs : views = done ++ d :: rest)
    {s : List Definition × List (String × Definition × Nat)} (hs : IsAfter done s) :
    Result.Meets (duplicateStep s d)
      (CanSplit d ∧ ∀ n ∈ copyNames d, n ∉ done.flatMap copyNames) (IsAfter (done ++ [d])) := by
  obtain ⟨stay, copies⟩ := s
  have hd : d ∈ views := by simp [hvs]
  obtain ⟨n, hn⟩ := exists_of_isText (hnm.text d hd)
  have hname : d.get? "name" = some (.text (nameOf d)) := by
    rw [hn, nameOf, get_of_get? hn]
    rfl
  have hss := copySteps_meets (hnm.identifiers d hd) hname
    (areOfOthers_of_split hnm hvs) (hsp d hd)
  have hcpy : copies.map (fun e => (e.1, e.2.1)) = _ := hs.copies
  have hfree : (∀ i ∈ moved d, copyName i ∉
      (done.flatMap fun d => made d (identifiersOf d)).map (·.1)) ↔
      ∀ n ∈ copyNames d, n ∉ done.flatMap copyNames := by
    simp only [map_flatMap, map_fst_made]
    exact (forall_mem_map (P := fun n => n ∉ done.flatMap copyNames)).symm
  rw [hfree] at hss
  unfold duplicateStep
  refine Result.Meets.of_run (fun hcan => ?_) fun s' hs' => ?_
  · obtain ⟨s1, hs1⟩ := hss.succeeds ⟨hcan.1.movable, hcan.2⟩
    obtain ⟨-, rfl⟩ := hss.only s1 hs1
    obtain ⟨items, hits⟩ := hcan.1.listed
    rw [← hcpy, ← foldlM_entriesD hits] at hs1
    refine ⟨_, bind_eq_ok.mpr ⟨items, hits, bind_eq_ok.mpr ⟨_, hs1, rfl⟩⟩, ?_, ?_⟩
    · rw [map_append, ← hs.stay]
      rfl
    · simp only [map_map, flatMap_append, flatMap_singleton]
      rw [← hcpy]
      exact zipIdx_map_fst 0 _
  · obtain ⟨items, hits, hs'⟩ := of_bind hs'
    obtain ⟨s1, hs1, -⟩ := of_bind hs'
    rw [foldlM_entriesD hits, hcpy] at hs1
    obtain ⟨⟨hmovable, hnew⟩, -⟩ := hss.only s1 hs1
    exact ⟨⟨⟨items, hits⟩, hmovable⟩, hnew⟩

theorem nodup_flatMap_iff_split {α : Type} {f : α → List String} {l : List α}
    (hf : ∀ a ∈ l, (f a).Nodup) : (l.flatMap f).Nodup ↔
      ∀ done a rest, l = done ++ a :: rest → ∀ n ∈ f a, n ∉ done.flatMap f := by
  constructor
  · rintro h done a rest rfl n hn hmem
    rw [flatMap_append, nodup_append] at h
    exact h.2.2 n hmem n (mem_flatMap.mpr ⟨a, mem_cons_self .., hn⟩) rfl
  · intro h
    induction l using List.reverseRecOn with
    | nil => simp
    | append_singleton l a ih =>
      rw [flatMap_append, flatMap_singleton, nodup_append]
      refine ⟨ih (fun b hb => hf b (by simp [hb])) fun done b rest hl => ?_, hf a (by simp), ?_⟩
      · exact h done b (rest ++ [a]) (by simp [hl])
      · rintro n hn m hm rfl
        exact h l a [] rfl n hm hn

/-- **Views and their copies.**  Where the names of views and of their identifiers are not used
twice, views are split exactly if all of them can be and no copies have the same name. -/
theorem duplicate_meets (hnm : AreNamed views) (hsp : AreSplit views) :
    Result.Meets (duplicate views) ((∀ d ∈ views, CanSplit d) ∧ (views.flatMap copyNames).Nodup)
      fun r => r.1 = views.map kept ∧ r.2.map (·.1) = views.flatMap copiesOf := by
  have hrun : Result.Meets (views.foldlM duplicateStep ([], []))
      (∀ done d rest, views = done ++ d :: rest →
        CanSplit d ∧ ∀ n ∈ copyNames d, n ∉ done.flatMap copyNames) (IsAfter views) :=
    Result.Meets.foldlM_split ⟨rfl, rfl⟩ fun done d rest s hvs hs =>
      duplicateStep_meets hnm hsp hvs hs
  have hall : (∀ done d rest, views = done ++ d :: rest →
      CanSplit d ∧ ∀ n ∈ copyNames d, n ∉ done.flatMap copyNames) ↔
      (∀ d ∈ views, CanSplit d) ∧ (views.flatMap copyNames).Nodup := by
    rw [nodup_flatMap_iff_split hsp]
    constructor
    · intro h
      refine ⟨fun d hd => ?_, fun done d rest hvs => (h done d rest hvs).2⟩
      obtain ⟨done, rest, hvs⟩ := append_of_mem hd
      exact (h done d rest hvs).1
    · intro h done d rest hvs
      exact ⟨h.1 d (by simp [hvs]), h.2 done d rest hvs⟩
  rw [hall] at hrun
  constructor
  · intro hcan
    obtain ⟨s, hs⟩ := hrun.succeeds hcan
    exact ⟨_, bind_eq_ok.mpr ⟨s, hs, rfl⟩⟩
  · intro r hr
    obtain ⟨s, hs, hr⟩ := of_bind hr
    obtain ⟨hcan, haft⟩ := hrun.only s hs
    cases hr
    refine ⟨hcan, haft.stay, ?_⟩
    have hns := congrArg (List.map fun e : String × Definition => e.2.set "name" (.text e.1))
      haft.copies
    rw [map_map, map_flatMap] at hns
    rw [map_map]
    refine hns.trans ?_
    simp only [made, map_map]
    rfl

end SemanticLayer.Project
