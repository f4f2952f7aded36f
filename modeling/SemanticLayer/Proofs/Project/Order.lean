import SemanticLayer.Proofs.Project.Copies

/-!
# Projects of views in another order

Views and the identifiers of a view can be written in any order (`Reorders`).  A project of views in
another order, with their identifiers in another order, shows its user the same views, in another
order (`listViews_reordered`).
-/

namespace SemanticLayer

open Result List Definition

variable {asked : Option Model} {d d' i : Definition} {key : String} {s : Setting}
  {views views' : List Definition} {e : ViewEntry} {p : Store} {v : View}

/-! ### Rearranged lists -/

section

variable {α β γ δ : Type} {R : α → β → Prop} {S : γ → δ → Prop} {l : List α} {l' : List β}

/-- The second list has the elements of the first, in another order and changed by `R`. -/
def Rearranged (R : α → β → Prop) (l : List α) (l' : List β) : Prop :=
  ∃ m, l.Perm m ∧ List.Forall₂ R m l'

theorem rearranged_eq_iff {l' : List α} : Rearranged Eq l l' ↔ l.Perm l' := by
  simp [Rearranged]

variable (h : Rearranged R l l')
include h

theorem Rearranged.flip : Rearranged (fun b a => R a b) l' l := by
  obtain ⟨m, hpm, hall⟩ := h
  obtain ⟨m', hall', hpm'⟩ := perm_comp_forall₂ hpm hall
  exact ⟨m', hpm'.symm, hall'.flip⟩

theorem Rearranged.append {k : List α} {k' : List β} (hk : Rearranged R k k') :
    Rearranged R (l ++ k) (l' ++ k') := by
  obtain ⟨m, hpm, hall⟩ := h
  obtain ⟨n, hpm', hall'⟩ := hk
  exact ⟨m ++ n, hpm.append hpm', rel_append hall hall'⟩

theorem Rearranged.flatMap {f : α → List γ} {f' : β → List δ}
    (hf : ∀ a b, R a b → Rearranged S (f a) (f' b)) :
    Rearranged S (l.flatMap f) (l'.flatMap f') := by
  obtain ⟨m, hpm, hall⟩ := h
  have hr : Rearranged S (m.flatMap f) (l'.flatMap f') := by
    clear hpm
    induction hall with
    | nil => exact ⟨[], List.Perm.refl _, List.Forall₂.nil⟩
    | cons hab _ ih => exact (hf _ _ hab).append ih
  obtain ⟨n, hn, hall'⟩ := hr
  exact ⟨n, (hpm.flatMap_right f).trans hn, hall'⟩

theorem Rearranged.map (f : α → γ) (f' : β → δ) (hf : ∀ a b, R a b → S (f a) (f' b)) :
    Rearranged S (l.map f) (l'.map f') := by
  rw [map_eq_flatMap, map_eq_flatMap]
  exact h.flatMap fun a b hab => ⟨_, List.Perm.refl _, List.Forall₂.cons (hf a b hab) .nil⟩

theorem Rearranged.filter {keep : α → Bool} {keep' : β → Bool}
    (hkp : ∀ a b, R a b → keep a = keep' b) :
    Rearranged R (l.filter keep) (l'.filter keep') := by
  obtain ⟨m, hpm, hall⟩ := h
  refine ⟨m.filter keep, hpm.filter keep, ?_⟩
  clear hpm
  induction hall with
  | nil => exact .nil
  | cons hab _ ih =>
    rw [filter_cons, filter_cons, hkp _ _ hab]
    split_ifs
    · exact .cons hab ih
    · exact ih

theorem Rearranged.exists_of_mem {a : α} (ha : a ∈ l) : ∃ b ∈ l', R a b := by
  obtain ⟨m, hpm, hall⟩ := h
  replace ha := hpm.mem_iff.mp ha
  clear hpm
  induction hall with
  | nil => cases ha
  | cons hab _ ih =>
    rcases mem_cons.mp ha with rfl | ha
    · exact ⟨_, mem_cons_self .., hab⟩
    · obtain ⟨b, hb, hR⟩ := ih ha
      exact ⟨b, mem_cons_of_mem _ hb, hR⟩

end

theorem Result.mapM_perm {α β : Type} {f : α → Result β} {l l' : List α} (hpm : l.Perm l')
    {r : List β} (h : l.mapM f = .ok r) : ∃ r', l'.mapM f = .ok r' ∧ r.Perm r' := by
  have hrun : Rearranged (fun a b => f a = .ok b) l' r := ⟨l, hpm.symm, mapM_eq_ok h⟩
  obtain ⟨m, hpm', hall⟩ := hrun.flip
  refine ⟨m, ?_, hpm'⟩
  clear h hpm hpm' hrun
  induction hall with
  | nil => rfl
  | cons hab _ ih => rw [mapM_cons, hab, ih]; rfl

/-! ### Identifiers in another order -/

namespace Definition

/-- The second definition has the entries of the first, its identifiers in another order. -/
structure Reorders (d d' : Definition) : Prop where
  others : ∀ key, key ≠ "identifiers" → d.get? key = d'.get? key
  identifiers : d.get? "identifiers" = d'.get? "identifiers" ∨ ∃ items items',
    d.get? "identifiers" = some (.list items) ∧ d'.get? "identifiers" = some (.list items') ∧
      items.Perm items'

variable (h : d.Reorders d')
include h

theorem Reorders.symm : d'.Reorders d := by
  refine ⟨fun key hkey => (h.others key hkey).symm, h.identifiers.imp Eq.symm ?_⟩
  rintro ⟨items, items', hd, hd', hpm⟩
  exact ⟨items', items, hd', hd, hpm.symm⟩

theorem Reorders.get (hkey : key ≠ "identifiers") : d.get key = d'.get key := by
  rw [Definition.get, h.others key hkey, Definition.get]

theorem Reorders.has (key : String) : d.has key = d'.has key := by
  rw [has_eq_isSome, has_eq_isSome]
  by_cases hkey : key = "identifiers"
  · subst hkey
    rcases h.identifiers with heq | ⟨items, items', hd, hd', -⟩
    · rw [heq]
    · rw [hd, hd']
      rfl
  · rw [h.others key hkey]

theorem Reorders.set (hkey : key ≠ "identifiers") (v : Value) :
    (d.set key v).Reorders (d'.set key v) where
  others k hk := by rw [get?_set, get?_set, h.others k hk]
  identifiers := by
    rw [get?_set, get?_set, if_neg hkey, if_neg hkey]
    exact h.identifiers

theorem Reorders.erase (hkey : key ≠ "identifiers") :
    (d.erase key).Reorders (d'.erase key) where
  others k hk := by rw [get?_erase, get?_erase, h.others k hk]
  identifiers := by
    rw [get?_erase, get?_erase, if_neg hkey, if_neg hkey]
    exact h.identifiers

theorem Reorders.items_perm : (d.get "identifiers").itemsD.Perm (d'.get "identifiers").itemsD := by
  rcases h.identifiers with heq | ⟨items, items', hd, hd', hpm⟩
  · rw [Definition.get, heq, Definition.get]
  · rw [get_of_get? hd, get_of_get? hd']
    exact hpm

end Definition

/-- Views in another order, with their identifiers in another order. -/
abbrev AreReordered (views views' : List Definition) : Prop :=
  Rearranged Definition.Reorders views views'

theorem AreReordered.symm (h : AreReordered views views') : AreReordered views' views := by
  obtain ⟨m, hpm, hall⟩ := h.flip
  exact ⟨m, hpm, hall.imp fun _ _ hd => hd.symm⟩

namespace Project

/-! ### Views and their copies in another order -/

section

variable (h : d.Reorders d')

include h

theorem identifiersOf_perm : (identifiersOf d).Perm (identifiersOf d') := h.items_perm.map _

theorem moved_perm : (moved d).Perm (moved d') := (identifiersOf_perm h).filter _

theorem copyNames_perm : (copyNames d).Perm (copyNames d') := (moved_perm h).map _

theorem isNamed_reorders (hd : IsNamed d) : IsNamed d' where
  text i hi := hd.text i ((identifiersOf_perm h).mem_iff.mpr hi)
  nodup := ((identifiersOf_perm h).map _).nodup_iff.mp hd.nodup

theorem canSplit_reorders (hd : CanSplit d) : CanSplit d' where
  listed := by
    obtain ⟨items, hits⟩ := hd.listed
    rw [written] at hits ⊢
    rcases h.identifiers with heq | ⟨-, items', -, hd', -⟩
    · exact ⟨items, heq ▸ hits⟩
    · rw [hd']
      exact ⟨items', rfl⟩
  movable i hi := hd.movable i ((identifiersOf_perm h).mem_iff.mpr hi)

theorem kept_reorders : (kept d).Reorders (kept d') := by
  have hem : (moved d).isEmpty = (moved d').isEmpty := by
    rw [Bool.eq_iff_iff, List.isEmpty_iff, List.isEmpty_iff]
    exact ⟨fun heq => (heq ▸ moved_perm h).nil_eq.symm, fun heq => (heq ▸ moved_perm h).eq_nil⟩
  unfold kept
  rw [hem]
  split_ifs
  · exact h
  · refine ⟨fun key hkey => ?_, Or.inr ⟨_, _, (get?_set ..).trans (if_pos rfl),
      (get?_set ..).trans (if_pos rfl), h.items_perm.filter _⟩⟩
    rw [get?_set, get?_set, if_neg (Ne.symm hkey), if_neg (Ne.symm hkey),
      h.others key hkey]

theorem copyOf_reorders (i : Definition) : (copyOf d i).Reorders (copyOf d' i) := by
  unfold copyOf
  cases he : copyEntries i with
  | error e => exact h
  | ok e =>
    refine ⟨fun key hkey => get?_merge_congr e (h.others key hkey), Or.inl ?_⟩
    obtain ⟨-, ⟨rest, rfl, hr⟩, -⟩ := (copyEntries_meets i).only e he
    -- a copy has the identifier it is joined by, whatever the view has
    change (Definition.merge (Definition.set _ _ _) rest).get? _ =
      (Definition.merge (Definition.set _ _ _) rest).get? _
    rw [Definition.get?_merge_of_not_has _ hr, Definition.get?_merge_of_not_has _ hr]
    simp

theorem copiesOf_reordered : AreReordered (copiesOf d) (copiesOf d') := by
  have hmoved := rearranged_eq_iff.mpr (moved_perm h)
  refine hmoved.map _ _ ?_
  rintro i _ rfl
  exact (copyOf_reorders h i).set (by decide) _

end

section

variable (h : AreReordered views views')

include h

theorem areNamed_reordered (hnm : AreNamed views) : AreNamed views' where
  text d' hd' := by
    obtain ⟨d, hd, hreorders⟩ := h.symm.exists_of_mem hd'
    rw [hreorders.get (by decide)]
    exact hnm.text d hd
  nodup := by
    have hns := h.map (S := Eq) nameOf nameOf fun _ _ h => congrArg Value.plain (h.get (by decide))
    exact (rearranged_eq_iff.mp hns).nodup_iff.mp hnm.nodup
  identifiers d' hd' := by
    obtain ⟨d, hd, hreorders⟩ := h.symm.exists_of_mem hd'
    exact isNamed_reorders hreorders.symm (hnm.identifiers d hd)

theorem areSplit_reordered (hsp : AreSplit views) : AreSplit views' := by
  intro d' hd'
  obtain ⟨d, hd, hreorders⟩ := h.symm.exists_of_mem hd'
  exact (copyNames_perm hreorders).nodup_iff.mpr (hsp d hd)

def formsOf (views : List Definition) : List Definition := views.map kept ++ views.flatMap copiesOf

theorem formsOf_reordered : AreReordered (formsOf views) (formsOf views') :=
  (h.map kept kept fun _ _ => kept_reorders).append (h.flatMap fun _ _ => copiesOf_reordered)

theorem copyNames_reordered : (views.flatMap copyNames).Perm (views'.flatMap copyNames) :=
  rearranged_eq_iff.mp (h.flatMap fun _ _ hd => rearranged_eq_iff.mpr (copyNames_perm hd))

end

end Project

/-! ### Listing views -/

namespace Store

/-- A view as it is listed: with its sets, if only with none. -/
def withSets (d : Definition) : Definition :=
  if d.has "sets" then d else d.set "sets" (.list [])

/-- Whether the user may see a view; not if that cannot be decided. -/
def sees (s : Setting) (d : Definition) : Bool :=
  (s.permits (d.get "required_access_grants")).toOption.getD false

structure CanOpen (s : Setting) (e : ViewEntry) : Prop where
  named : e.definition.has "name" = true
  fields : e.shelf.isSome = true
  decided : ∃ b, s.permits (e.definition.get "required_access_grants") = .ok b

theorem get?_withSets (d : Definition) (hkey : key ≠ "sets") :
    (withSets d).get? key = d.get? key := by
  unfold withSets
  split_ifs
  · rfl
  · rw [get?_set, if_neg (Ne.symm hkey)]

theorem open_eq_ok :
    p.open_ asked e = .ok v ↔ e.definition.has "name" = true ∧ ∃ i, e.shelf = some i ∧
      v = { definition := withSets e.definition, shelf := i,
            always := (p.shelves.getD i default).always, asked := asked, expanded := false } := by
  unfold open_ require
  cases hn : e.definition.has "name" with
  | false => simp [hn, bind, Except.bind]
  | true =>
    cases hshf : e.shelf with
    | none => simp [hn, bind, Except.bind]
    | some i =>
      simp only [List.find?_cons, hn]
      constructor
      · intro h
        cases h
        exact ⟨trivial, i, rfl, rfl⟩
      · rintro ⟨-, j, hj, rfl⟩
        cases hj
        rfl

theorem canAccessView_eq (hv : v.definition = withSets d) :
    s.canAccessView v = s.permits (d.get "required_access_grants") := by
  rw [Setting.canAccessView, View.property, hv, Definition.get, get?_withSets _ (by decide),
    Definition.get]

theorem listViews_meets (p : Store) (asked : Option Model) :
    Result.Meets (p.listViews asked) (∀ e ∈ p.views, CanOpen p.toSetting e) fun vs =>
      vs.map View.definition =
        ((p.views.map ViewEntry.definition).filter (sees p.toSetting)).map withSets := by
  have hone : ∀ e : ViewEntry, Result.Meets (do
      let v ← p.open_ asked e
      return if ← p.canAccessView v then [v] else []) (CanOpen p.toSetting e) fun l =>
        l.map View.definition =
          if sees p.toSetting e.definition then [withSets e.definition] else [] := by
    intro e
    refine Result.Meets.of_run (fun hcan => ?_) fun l hl => ?_
    · obtain ⟨i, hi⟩ := Option.isSome_iff_exists.mp hcan.fields
      obtain ⟨b, hb⟩ := hcan.decided
      refine ⟨_, bind_eq_ok.mpr ⟨_, open_eq_ok.mpr ⟨hcan.named, i, hi, rfl⟩,
        bind_eq_ok.mpr ⟨b, (canAccessView_eq rfl).trans hb, rfl⟩⟩, ?_⟩
      cases b <;> simp [sees, hb, Except.toOption]
    · obtain ⟨v, hv, hl⟩ := of_bind hl
      obtain ⟨b, hb, -⟩ := of_bind hl
      obtain ⟨hn, i, hi, rfl⟩ := open_eq_ok.mp hv
      exact ⟨hn, by rw [hi]; rfl, b, (canAccessView_eq rfl).symm.trans hb⟩
  constructor
  · intro hcan
    obtain ⟨found, hfd⟩ := mapM_ok_iff.mpr fun e he => (hone e).succeeds (hcan e he)
    exact ⟨_, bind_eq_ok.mpr ⟨found, hfd, rfl⟩⟩
  · intro vs hvs
    obtain ⟨found, hfd, hvs⟩ := of_bind hvs
    cases hvs
    refine ⟨fun e he => ?_, ?_⟩
    · obtain ⟨l, hl⟩ := mapM_ok_iff.mp ⟨found, hfd⟩ e he
      exact ((hone e).only l hl).1
    · rw [map_flatten, map_of_mapM (fun e l hl => ((hone e).only l hl).2) hfd]
      induction p.views with
      | nil => rfl
      | cons e es ih =>
        rw [map_cons, flatten_cons, ih, map_cons, filter_cons]
        split_ifs <;> rfl

/-- The names of the views that the user may see. -/
def seenNames (p : Store) : List String :=
  ((p.views.map ViewEntry.definition).filter (sees p.toSetting)).map fun d => (d.get "name").plain

theorem map_name_of_listViews {views : List View} (h : p.listViews asked = .ok views) :
    views.map View.name = p.seenNames := by
  have hdefs := ((listViews_meets p asked).only views h).2
  have hn : ∀ d : Definition, ((withSets d).get "name").plain = (d.get "name").plain := fun d => by
    rw [Definition.get, get?_withSets d (by decide), Definition.get]
  calc views.map View.name = (views.map View.definition).map fun d => (d.get "name").plain := by
        rw [map_map]
        rfl
    _ = p.seenNames := by
        rw [hdefs, map_map]
        exact map_congr_left fun d _ => hn d

end Store

/-! ### Projects of views in another order -/

namespace Project

open Store (sees withSets)

def storeOf (s : Setting) (views : List Definition) : Result Store := do
  let p ← ofDefinitions s.models views s.dashboards s.environment s.connectionTypes s.manifest
    s.almanac
  return { p with toSetting := s }

/-- A view without the parts that it shares with its copies. -/
def stripped (d : Definition) : Definition := (d.erase "fields").erase "always_filter"

theorem get?_stripped (d : Definition) (hfs : key ≠ "fields")
    (hfil : key ≠ "always_filter") : (stripped d).get? key = d.get? key := by
  rw [stripped, Definition.get?_erase, Definition.get?_erase, if_neg (Ne.symm hfil),
    if_neg (Ne.symm hfs)]

theorem storeOf_meets (s : Setting) (hnm : AreNamed views) (hsp : AreSplit views) :
    Result.Meets (storeOf s views) ((∀ d ∈ views, CanSplit d) ∧ (views.flatMap copyNames).Nodup)
      fun p => p.toSetting = s ∧ p.views.map (fun e => (e.definition, e.shelf.isSome)) =
        (formsOf views).map fun d => (stripped d, d.has "fields") := by
  have hmeets := duplicate_meets hnm hsp
  have hent : ∀ (d : Definition) (i : Nat),
      ((entryOf d i).definition, (entryOf d i).shelf.isSome) = (stripped d, d.has "fields") := by
    intro d i
    unfold entryOf
    cases d.has "fields" <;> rfl
  refine Result.Meets.of_run (fun hcan => ?_) fun p hp => ?_
  · obtain ⟨⟨stay, copies⟩, hr⟩ := hmeets.succeeds hcan
    obtain ⟨-, rfl, hcpy⟩ := hmeets.only _ hr
    refine ⟨_, bind_eq_ok.mpr ⟨_, bind_eq_ok.mpr ⟨_, hr, rfl⟩, rfl⟩, rfl, ?_⟩
    -- the number of the shelf does not matter here
    rw [formsOf, ← hcpy]
    simp only [map_append, map_map, Function.comp_def, hent]
    congr 1
    have hstay := congrArg (List.map fun d => (stripped d, Definition.has d "fields"))
      (zipIdx_map_fst 0 (views.map kept))
    simpa only [map_map, Function.comp_def] using hstay
  · obtain ⟨p0, hp0, -⟩ := of_bind hp
    obtain ⟨r, hr, -⟩ := of_bind hp0
    exact (hmeets.only r hr).1

structure IsComplete (s : Setting) (d : Definition) : Prop where
  named : d.has "name" = true
  fields : d.has "fields" = true
  decided : ∃ b, s.permits (d.get "required_access_grants") = .ok b

def shown (d : Definition) : Definition := withSets (stripped d)

theorem grants_stripped (d : Definition) :
    (stripped d).get "required_access_grants" = d.get "required_access_grants" := by
  rw [Definition.get, get?_stripped d (by decide) (by decide), Definition.get]

theorem canOpen_iff (he : (e.definition, e.shelf.isSome) = (stripped d, d.has "fields")) :
    Store.CanOpen s e ↔ IsComplete s d := by
  obtain ⟨hdef, hfs⟩ := Prod.mk.inj he
  have hn : e.definition.has "name" = d.has "name" := by
    rw [hdef, has_eq_isSome, get?_stripped d (by decide) (by decide),
      has_eq_isSome]
  have hgrants := congrArg (Definition.get · "required_access_grants") hdef
  simp only [grants_stripped] at hgrants
  constructor
  · rintro ⟨h1, h2, h3⟩
    exact ⟨hn ▸ h1, hfs ▸ h2, hgrants ▸ h3⟩
  · rintro ⟨h1, h2, h3⟩
    exact ⟨hn ▸ h1, hfs ▸ h2, hgrants ▸ h3⟩

theorem listed_meets (s : Setting) (hnm : AreNamed views)
    (hsp : AreSplit views) (asked : Option Model) :
    Result.Meets (do (← storeOf s views).listViews asked)
      (((∀ d ∈ views, CanSplit d) ∧ (views.flatMap copyNames).Nodup) ∧
        ∀ d ∈ formsOf views, IsComplete s d)
      fun vs => vs.map View.definition = ((formsOf views).filter (sees s)).map shown := by
  have hstore := storeOf_meets s hnm hsp
  have hopen : ∀ p, storeOf s views = .ok p →
      ((∀ e ∈ p.views, Store.CanOpen p.toSetting e) ↔ ∀ d ∈ formsOf views, IsComplete s d) := by
    intro p hp
    obtain ⟨-, rfl, hviews⟩ := hstore.only p hp
    constructor
    · intro hall d hd
      obtain ⟨e, he, heq⟩ := mem_map.mp (hviews ▸ mem_map_of_mem hd)
      exact (canOpen_iff heq).mp (hall e he)
    · intro hall e he
      obtain ⟨d, hd, heq⟩ := mem_map.mp (hviews.symm ▸ mem_map_of_mem he)
      exact (canOpen_iff heq.symm).mpr (hall d hd)
  constructor
  · intro hcan
    obtain ⟨p, hp⟩ := hstore.succeeds hcan.1
    obtain ⟨vs, hvs⟩ := (Store.listViews_meets p asked).succeeds ((hopen p hp).mpr hcan.2)
    exact ⟨vs, bind_eq_ok.mpr ⟨p, hp, hvs⟩⟩
  · intro vs hvs
    obtain ⟨p, hp, hvs⟩ := of_bind hvs
    obtain ⟨hcan, hsetting, hviews⟩ := hstore.only p hp
    obtain ⟨hall, hls⟩ := (Store.listViews_meets p asked).only vs hvs
    refine ⟨⟨hcan, (hopen p hp).mp hall⟩, hls.trans ?_⟩
    have hdefs := congrArg (List.map Prod.fst) hviews
    simp only [map_map, Function.comp_def] at hdefs
    have hsees : ∀ d, sees s (stripped d) = sees s d := fun d => by
      rw [sees, grants_stripped, sees]
    rw [hsetting, hdefs, filter_map, map_map]
    simp only [Function.comp_def, hsees]
    rfl

theorem isComplete_reorders (h : d.Reorders d') (hd : IsComplete s d) : IsComplete s d' where
  named := h.has "name" ▸ hd.named
  fields := h.has "fields" ▸ hd.fields
  decided := by
    rw [← h.get (by decide)]
    exact hd.decided

theorem shown_reorders (h : d.Reorders d') : (shown d).Reorders (shown d') := by
  have hstripped : (stripped d).Reorders (stripped d') :=
    (h.erase (by decide)).erase (by decide)
  unfold shown withSets
  rw [hstripped.has]
  split_ifs
  · exact hstripped
  · exact hstripped.set (by decide) _

theorem listViews_reordered (h : AreReordered views views')
    (hnm : AreNamed views) (hsp : AreSplit views) {vs : List View}
    (hvs : (do (← storeOf s views).listViews asked) = .ok vs) :
    ∃ vs', (do (← storeOf s views').listViews asked) = .ok vs' ∧
      AreReordered (vs.map View.definition) (vs'.map View.definition) := by
  obtain ⟨⟨⟨hcan, hnd⟩, hcpt⟩, hls⟩ := (listed_meets s hnm hsp asked).only vs hvs
  have hmeets' := listed_meets s (areNamed_reordered h hnm) (areSplit_reordered h hsp) asked
  have hforms := formsOf_reordered h
  obtain ⟨vs', hvs'⟩ := hmeets'.succeeds <| by
    refine ⟨⟨fun d' hd' => ?_, (copyNames_reordered h).nodup_iff.mp hnd⟩, fun d' hd' => ?_⟩
    · obtain ⟨d, hd, hreorders⟩ := h.symm.exists_of_mem hd'
      exact canSplit_reorders hreorders.symm (hcan d hd)
    · obtain ⟨d, hd, hreorders⟩ := hforms.symm.exists_of_mem hd'
      exact isComplete_reorders hreorders.symm (hcpt d hd)
  refine ⟨vs', hvs', ?_⟩
  rw [hls, (hmeets'.only vs' hvs').2]
  refine (hforms.filter fun d d' hd => ?_).map _ _ fun _ _ => shown_reorders
  rw [sees, hd.get (by decide), sees]

/-! ### Identifiers of listed views -/

theorem IsNamed.of_sublist (hd : IsNamed d)
    (h : (identifiersOf d').Sublist (identifiersOf d)) : IsNamed d' where
  text i hi := hd.text i (h.subset hi)
  nodup := (h.map _).nodup hd.nodup

theorem IsNamed.of_get? (hd : IsNamed d)
    (h : d'.get? "identifiers" = d.get? "identifiers") : IsNamed d' := by
  refine hd.of_sublist ?_
  rw [identifiersOf, Definition.get, h, identifiersOf, Definition.get]

theorem IsNamed.kept (hd : IsNamed d) : IsNamed (kept d) := by
  unfold Project.kept
  split_ifs
  · exact hd
  · refine hd.of_sublist ?_
    rw [identifiersOf, get_set, if_pos rfl]
    exact filter_sublist.map _

theorem identifiersOf_copyOf (d : Definition) {e : Definition} (he : copyEntries i = .ok e) :
    identifiersOf (copyOf d i) = [i.erase "join_as"] := by
  obtain ⟨-, ⟨rest, rfl, hr⟩, -⟩ := (copyEntries_meets i).only e he
  rw [identifiersOf, copyOf, he]
  change (((Definition.merge (d.set "identifiers" _) rest).get? "identifiers").getD _).itemsD.map _
    = _
  rw [Definition.get?_merge_of_not_has _ hr, get?_set]
  rfl

theorem IsNamed.copyOf (hd : IsNamed d) (hi : i ∈ identifiersOf d) :
    IsNamed (copyOf d i) := by
  cases he : copyEntries i with
  | error e =>
    rw [Project.copyOf, he]
    exact hd
  | ok e =>
    have hids := identifiersOf_copyOf d he
    constructor
    · intro j hj
      cases mem_singleton.mp (hids ▸ hj)
      rw [Definition.get, Definition.get?_erase]
      exact hd.text i hi
    · rw [hids]
      exact nodup_singleton _

theorem isNamed_of_mem_formsOf (hnm : AreNamed views) (hd : d ∈ formsOf views) : IsNamed d := by
  rcases mem_append.mp hd with hkp | hcopy
  · obtain ⟨v, hv, rfl⟩ := mem_map.mp hkp
    exact (hnm.identifiers v hv).kept
  · obtain ⟨v, hv, hcopy⟩ := mem_flatMap.mp hcopy
    obtain ⟨i, hi, rfl⟩ := mem_map.mp hcopy
    refine ((hnm.identifiers v hv).copyOf (mem_filter.mp hi).1).of_get? ?_
    rw [get?_set, if_neg (by decide)]

theorem isNamed_shown (hd : IsNamed d) : IsNamed (shown d) := by
  refine hd.of_get? ?_
  rw [shown, Store.get?_withSets _ (by decide), get?_stripped _ (by decide) (by decide)]

end Project

end SemanticLayer
