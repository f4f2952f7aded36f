import SemanticLayer.Proofs.Project.Declared

/-!
# Fields that are lent to views

The table of a window is made with a measure that is lent to a view and taken back.  What is written
of all fields but those that can be lent (`Store.definitionsBut`) is framed by what queries do
(`Store.Frames`); under which names that can be lent a view has a field (`Store.Holds`) is traced
separately.
-/

namespace SemanticLayer

open Result List Definition SemanticLayer.Field

variable {d m m0 : Definition} {e e' : ViewEntry} {i k j : Nat} {t view name t' : String}
  {q' : Store}

/-! ### Names that are lent -/

namespace Field

/-- The name of the measure that the table of a window is made with. -/
def lentName (m : Definition) : String :=
  (m.get "window_choice").plain ++ "_" ++ ((Text.split (m.get "name").plain ".").getLast?).getD ""

/-- The names under which a field can be lent, as they are written and in small letters. -/
def lentNames (d : Definition) : List String :=
  match (d.get "non_additive_dimension").map? with
  | some m => [lentName m, Text.lower (lentName m)]
  | none => []

theorem nameOf_congr {d' : Definition} (h : d'.get "name" = d.get "name") :
    nameOf d' = nameOf d := by
  unfold nameOf
  rw [h]

theorem lentName_congr {m' : Definition} (hn : m'.get "name" = m.get "name")
    (hchoice : m'.get "window_choice" = m.get "window_choice") : lentName m' = lentName m := by
  unfold lentName
  rw [hn, hchoice]

section

variable (dimensions : List String) (d : Definition)

theorem collecting_cases :
    collecting dimensions d = d ∨ ∃ m, (d.get "non_additive_dimension").map? = some m ∧
      m.get? "window_groupings" = some (.list []) ∧ collecting dimensions d
        = d.set "non_additive_dimension" (.map (m.set "window_groupings" (.texts dimensions))) := by
  unfold collecting
  split
  · next m hm =>
    split
    · next hgs => exact .inr ⟨m, hm, hgs, rfl⟩
    · exact .inl rfl
  · exact .inl rfl

theorem nameOf_collecting : nameOf (collecting dimensions d) = nameOf d := by
  refine nameOf_congr ?_
  obtain hsame | ⟨m, -, -, hset⟩ := collecting_cases dimensions d
  · rw [hsame]
  · rw [hset, get_set, if_neg (by decide)]

theorem erase_collecting :
    (collecting dimensions d).erase "non_additive_dimension" = d.erase "non_additive_dimension" := by
  obtain hsame | ⟨m, -, -, hset⟩ := collecting_cases dimensions d
  · rw [hsame]
  · rw [hset]
    exact erase_set d _ _

theorem lentNames_collecting : lentNames (collecting dimensions d) = lentNames d := by
  obtain hsame | ⟨m, hm, -, hset⟩ := collecting_cases dimensions d
  · rw [hsame]
  · unfold lentNames
    rw [hset, get_set, if_pos rfl, hm]
    dsimp only [Value.map?]
    rw [lentName_congr (m := m)]
    · rw [get_set, if_neg (by decide)]
    · rw [get_set, if_neg (by decide)]

end

theorem lentName_qualify (view : String) (hn : m.get "name" = .text (Name.qualify view name))
    (hn0 : m0.get "name" = .text name) (hchoice : m.get "window_choice" = m0.get "window_choice") :
    lentName m = lentName m0 := by
  unfold lentName
  rw [hn, hn0, hchoice]
  dsimp only [Value.plain]
  rw [Text.getLast?_split_qualify]

theorem Qualifies.lentName_eq {f : Field} (h : f.Qualifies m0 m) :
    lentName m = lentName m0 := by
  obtain ⟨n, hn0, hn⟩ := h.name
  refine lentName_qualify f.view.name hn hn0 ?_
  rw [Definition.get, h.others _ (by decide), Definition.get]

end Field

/-! ### Contents of views -/

namespace Store

/-- The names on a shelf, in small letters. -/
def namesOn (p : Store) (i : Nat) : List Value := (p.fieldsOn i).map Field.nameOf

def namesOf (p : Store) (e : ViewEntry) : List Value :=
  match e.shelf with
  | some i => p.namesOn i
  | none => []

def isOwn (names : List String) (name : Value) : Bool := !names.any name.isTextOf

/-- What is written of the fields under other names; windows are left out, as they collect
groupings. -/
def own (names : List String) (fields : List Definition) : List Definition :=
  (fields.filter fun d => isOwn names (Field.nameOf d)).map (·.erase "non_additive_dimension")

/-- What is written in a project apart from fields under some names. -/
def definitionsBut (p : Store) (names : List String) :
    Setting × List (Definition × Option (List Definition)) :=
  ({ p.toSetting with schema := .null },
    p.views.map fun e => (e.definition, e.shelf.map fun i => own names (p.fieldsOn i)))

/-- All views, each with the names of its fields apart from some names. -/
def contents (p : Store) (names : List String) : List (Definition × List Value) :=
  p.views.map fun e => (e.definition, (p.namesOf e).filter (isOwn names))

/-- The names of all fields that the project can lend. -/
def lent (p : Store) : List String := p.shelves.flatMap fun s => s.fields.flatMap Field.lentNames

/-- Every view with fields has a shelf of the project. -/
def IsShelved (p : Store) : Prop := ∀ e ∈ p.views, ∀ i, e.shelf = some i → i < p.shelves.length

/-- Another state of a project in which at most fields that can be lent came and went. -/
structure Frames (names : List String) (p q : Store) : Prop where
  isShelved : q.IsShelved
  lent : q.lent ⊆ names
  definitions : q.definitionsBut names = p.definitionsBut names

/-- A view has a field of a name. -/
def Holds (p : Store) (k : Nat) (t : String) : Prop :=
  ∃ e, p.views[k]? = some e ∧ .text t ∈ p.namesOf e

variable {names : List String} {p q : Store}

theorem isOwn_eq_false {v : Value} : isOwn names v = false ↔ ∃ t ∈ names, v = .text t := by
  simp [isOwn, Value.isTextOf_iff]

theorem isOwn_text (h : t ∈ names) : isOwn names (.text t) = false :=
  isOwn_eq_false.mpr ⟨t, h, rfl⟩

theorem own_map {g : Definition → Definition} (hn : ∀ d, Field.nameOf (g d) = Field.nameOf d)
    (herase : ∀ d, (g d).erase "non_additive_dimension" = d.erase "non_additive_dimension")
    (names : List String) (fields : List Definition) :
    own names (fields.map g) = own names fields := by
  simp [own, filter_map, Function.comp_def, hn, herase]

theorem nameOf_erase (d : Definition) :
    Field.nameOf (d.erase "non_additive_dimension") = Field.nameOf d := by
  refine nameOf_congr ?_
  unfold Definition.get
  rw [Definition.get?_erase, if_neg (by decide)]

theorem contents_eq (h : q.definitionsBut names = p.definitionsBut names) :
    q.contents names = p.contents names := by
  have hns : ∀ p : Store, p.contents names = (p.definitionsBut names).2.map
      fun e => (e.1, (e.2.getD []).map nameOf) := by
    intro p
    unfold contents definitionsBut
    rw [map_map]
    refine map_congr_left fun e _ => congrArg (e.definition, ·) ?_
    unfold namesOf
    dsimp only [Function.comp]
    cases e.shelf with
    | none => rfl
    | some i => simp [namesOn, own, filter_map, Function.comp_def, nameOf_erase]
  rw [hns, hns, h]

theorem mem_lent : t ∈ p.lent ↔ ∃ s ∈ p.shelves, ∃ d ∈ s.fields, t ∈ Field.lentNames d := by
  simp [Store.lent]

theorem lent_subset_iff :
    p.lent ⊆ names ↔ ∀ s ∈ p.shelves, ∀ d ∈ s.fields, Field.lentNames d ⊆ names := by
  refine ⟨fun h s hs d hd t ht => h (mem_lent.mpr ⟨s, hs, d, hd, ht⟩), fun h t ht => ?_⟩
  obtain ⟨s, hs, d, hd, ht⟩ := mem_lent.mp ht
  exact h s hs d hd ht

theorem lentNames_of_fieldsOn (h : p.lent ⊆ names)
    (hd : d ∈ p.fieldsOn i) : Field.lentNames d ⊆ names := by
  obtain ⟨s, hs, hd⟩ := exists_of_mem_fieldsOn hd
  exact lent_subset_iff.mp h s hs d hd

/-! ### Another shelf in the place of one -/

theorem getD_set {α : Type} (l : List α) (i j : Nat) (a d : α) :
    (l.set i a).getD j d = if i = j ∧ i < l.length then a else l.getD j d := by
  by_cases hij : i = j
  · subst hij
    by_cases hi : i < l.length
    · simp [hi]
    · simp [hi]
  · simp [hij]

theorem fieldsOn_set (p : Store) (i : Nat) (s : Shelf) (j : Nat) :
    { p with shelves := p.shelves.set i s }.fieldsOn j
      = if i = j ∧ i < p.shelves.length then s.fields else p.fieldsOn j := by
  unfold fieldsOn
  rw [getD_set, apply_ite Shelf.fields]

theorem Frames.set {s : Shelf} (h : Frames names p q)
    (hfs : own names s.fields = own names (q.fieldsOn i))
    (hlent : ∀ d ∈ s.fields, Field.lentNames d ⊆ names) :
    Frames names p { q with shelves := q.shelves.set i s } where
  isShelved := by
    intro e he j hj
    rw [length_set]
    exact h.isShelved e he j hj
  lent := by
    rw [lent_subset_iff]
    intro s' hs' d hd
    obtain hs' | rfl := mem_or_eq_of_mem_set hs'
    · exact lent_subset_iff.mp h.lent s' hs' d hd
    · exact hlent d hd
  definitions := by
    rw [← h.definitions]
    unfold definitionsBut
    refine congrArg (_, ·) (map_congr_left fun e _ => congrArg (e.definition, ·) ?_)
    refine congrArg (Option.map · e.shelf) (funext fun j => ?_)
    rw [fieldsOn_set]
    split_ifs with hij
    · rw [← hij.1, hfs]
    · rfl

theorem Frames.schema (h : Frames names p q) (schema : Value) :
    Frames names p { q with schema := schema } := ⟨h.isShelved, h.lent, h.definitions⟩

theorem definitions_setAlways (p : Store) (i : Nat) (always : Value) :
    (p.setAlways i always).definitions = p.definitions := by
  unfold definitions
  refine congrArg (_, ·) (map_congr_left fun e _ => congrArg (e.definition, ·) ?_)
  refine congrArg (Option.map · e.shelf) (funext fun j => congrArg (List.map _) ?_)
  unfold setAlways
  rw [fieldsOn_set]
  split_ifs with hij
  · rw [← hij.1, fieldsOn]
  · rfl

theorem Frames.setAlways (h : Frames names p q) (i : Nat) (always : Value) :
    Frames names p (q.setAlways i always) :=
  h.set rfl fun _ hd => lentNames_of_fieldsOn h.lent hd

theorem Frames.collect (h : Frames names p q) (i : Nat) (name : String) (dimensions : List String) :
    Frames names p (q.updateField i name (Field.collecting dimensions)) := by
  refine h.set ?_ fun d hd => ?_
  · refine own_map (fun d => ?_) (fun d => ?_) names (q.fieldsOn i)
    · split_ifs
      · exact nameOf_collecting dimensions d
      · rfl
    · split_ifs
      · exact erase_collecting dimensions d
      · rfl
  · obtain ⟨d0, hd0, rfl⟩ := mem_map.mp hd
    split_ifs
    · rw [lentNames_collecting]
      exact lentNames_of_fieldsOn h.lent hd0
    · exact lentNames_of_fieldsOn h.lent hd0

/-! ### Lending and taking back -/

theorem entryOf?_eq_some (h : p.entryOf? view = .ok (some (k, e))) :
    p.views[k]? = some e ∧ e.definition.get? "name" = some (.text view) ∧
      ∀ j e', j < k → p.views[j]? = some e' → e'.definition.get? "name" ≠ some (.text view) := by
  obtain ⟨found, hfd, h⟩ := of_bind h
  cases found with
  | none => cases h
  | some found =>
    obtain ⟨e', k'⟩ := found
    cases h
    obtain ⟨before, behind, hsp, hat, hbef⟩ := Result.findM?_eq_some hfd
    have hix : ∀ j : Nat,
        (p.views[j]?).map (fun e => (e, j)) = (before ++ (e, k) :: behind)[j]? := by
      intro j
      rw [← hsp]
      simp
    have hhere := hix before.length
    rw [List.getElem?_append_right (Nat.le_refl _), Nat.sub_self, List.getElem?_cons_zero,
      Option.map_eq_some_iff] at hhere
    obtain ⟨e', he', heq⟩ := hhere
    cases heq
    refine ⟨he', ?_, fun j e' hj he' hn => ?_⟩
    · obtain ⟨v, hv, htrue⟩ := of_bind hat
      rw [need_eq_ok.mp hv, Value.isTextOf_iff.mp (Except.ok.inj htrue)]
    · have hmem : (e', j) ∈ before := by
        have hj' := hix j
        rw [he', List.getElem?_append_left hj] at hj'
        exact mem_of_getElem? hj'.symm
      have hff := hbef _ hmem
      dsimp only at hff
      rw [need_eq_ok.mpr hn] at hff
      simp [Value.isTextOf] at hff

theorem entryOf?_index (hsm : q.views.map (·.definition) = p.views.map (·.definition))
    (hp : p.entryOf? view = .ok (some (j, e))) (hq : q.entryOf? view = .ok (some (k, e'))) :
    j = k := by
  obtain ⟨hj, hn, hbef⟩ := entryOf?_eq_some hp
  obtain ⟨hk, hn', hbef'⟩ := entryOf?_eq_some hq
  have hget : ∀ i : Nat, (q.views[i]?).map (·.definition) = (p.views[i]?).map (·.definition) := by
    intro i
    rw [← List.getElem?_map, ← List.getElem?_map, hsm]
  rcases Nat.lt_trichotomy j k with hlt | heq | hlt
  · have hat := hget j
    rw [hj, Option.map_some, Option.map_eq_some_iff] at hat
    obtain ⟨other, hot, hdef⟩ := hat
    exact absurd (by rw [hdef]; exact hn) (hbef' j other hlt hot)
  · exact heq
  · have hat := hget k
    rw [hk, Option.map_some, eq_comm, Option.map_eq_some_iff] at hat
    obtain ⟨other, hot, hdef⟩ := hat
    exact absurd (by rw [hdef]; exact hn') (hbef k other hlt hot)

theorem shelfIndex_eq_ok (h : shelfIndex e = .ok i) : e.shelf = some i := by
  unfold shelfIndex at h
  split at h
  · next hshf =>
    cases h
    exact hshf
  · cases h

/-- A field at the end of a shelf. -/
def added (p : Store) (i : Nat) (d : Definition) : Store :=
  { p with shelves :=
      p.shelves.set i { p.shelves.getD i default with fields := p.fieldsOn i ++ [d] } }

/-- A view with a shelf of its own, without the fields of a name. -/
def removed (p : Store) (k : Nat) (e : ViewEntry) (i : Nat) (name : String) : Store :=
  let kept := (p.fieldsOn i).filter fun d => !(Field.nameOf d).isTextOf name
  { p with
    views := p.views.set k { e with shelf := some p.shelves.length },
    shelves := p.shelves ++ [{ p.shelves.getD i default with fields := kept }] }

theorem addField_cases (h : p.addField d view = .ok q) :
    q = p ∨ ∃ k e i, p.entryOf? view = .ok (some (k, e)) ∧ e.shelf = some i ∧ q = p.added i d := by
  obtain ⟨entry, hent, h⟩ := of_bind h
  cases entry with
  | none => cases h
  | some entry =>
    obtain ⟨k, e⟩ := entry
    obtain ⟨i, hi, h⟩ := of_bind h
    obtain ⟨v, -, h⟩ := of_bind h
    obtain ⟨n, -, h⟩ := of_bind h
    obtain ⟨taken, -, h⟩ := of_bind h
    cases taken with
    | true =>
      cases h
      exact .inl rfl
    | false =>
      cases h
      exact .inr ⟨k, e, i, hent, shelfIndex_eq_ok hi, rfl⟩

theorem removeField_eq_ok (h : p.removeField name view = .ok q) :
    ∃ k e i, p.entryOf? view = .ok (some (k, e)) ∧ e.shelf = some i ∧ q = p.removed k e i name := by
  obtain ⟨entry, hent, h⟩ := of_bind h
  cases entry with
  | none => cases h
  | some entry =>
    obtain ⟨k, e⟩ := entry
    obtain ⟨i, hi, h⟩ := of_bind h
    obtain ⟨kept, hkp, h⟩ := of_bind h
    cases h
    have hfil : kept = (p.fieldsOn i).filter fun d => !(nameOf d).isTextOf name := by
      refine filterM_eq_ok (fun d b hb => ?_) hkp
      obtain ⟨v, hv, hb⟩ := of_bind hb
      have hn := get_of_get? (need_eq_ok.mp hv)
      unfold nameOf
      rw [hn]
      cases v <;> cases hb <;> rfl
    exact ⟨k, e, i, hent, shelfIndex_eq_ok hi, by rw [hfil, removed]⟩

theorem Frames.lend (h : Frames names p q) (hn : d.get "name" = .text t) (ht : Text.lower t ∈ names)
    (hd : d.get "non_additive_dimension" = .null) (hadd : q.addField d view = .ok q') :
    Frames names p q' := by
  obtain rfl | ⟨k, e, i, -, -, rfl⟩ := addField_cases hadd
  · exact h
  · refine h.set ?_ fun d' hd' => ?_
    · have hown : isOwn names (nameOf d) = false := by
        unfold nameOf
        rw [hn]
        exact isOwn_text ht
      simp [own, hown]
    · obtain hd' | hd' := mem_append.mp hd'
      · exact lentNames_of_fieldsOn h.lent hd'
      · cases mem_singleton.mp hd'
        unfold lentNames
        rw [hd]
        exact nil_subset _

section

variable (k : Nat) (e : ViewEntry) (i : Nat) (name : String)

theorem fieldsOn_removed (hj : j < q.shelves.length) :
    (q.removed k e i name).fieldsOn j = q.fieldsOn j := by
  simp [fieldsOn, removed, List.getElem?_append_left hj]

theorem fieldsOn_removed_self : (q.removed k e i name).fieldsOn q.shelves.length
      = (q.fieldsOn i).filter fun d => !(Field.nameOf d).isTextOf name := by
  simp [fieldsOn, removed]

theorem namesOf_removed (hq : q.IsShelved) (he' : e' ∈ q.views) :
    (q.removed k e i name).namesOf e' = q.namesOf e' := by
  unfold namesOf namesOn
  cases hshf : e'.shelf with
  | none => rfl
  | some j =>
    dsimp only
    rw [fieldsOn_removed k e i name (hq e' he' j hshf)]

theorem IsShelved.removed (h : q.IsShelved) : (q.removed k e i name).IsShelved := by
  intro e' he' j hj
  rw [Store.removed, length_append]
  obtain he' | rfl := mem_or_eq_of_mem_set he'
  · exact Nat.lt_succ_of_lt (h e' he' j hj)
  · cases hj
    exact Nat.lt_succ_self _

end

theorem namesOf_removed_self (q : Store) (k : Nat) (name : String) (he : e.shelf = some i) :
    (q.removed k e i name).namesOf { e with shelf := some q.shelves.length }
      = (q.namesOf e).filter fun v => !v.isTextOf name := by
  simp [namesOf, he, namesOn, fieldsOn_removed_self, filter_map, Function.comp_def]

theorem own_filter (ht : t ∈ names) (fields : List Definition) :
    own names (fields.filter fun d => !(Field.nameOf d).isTextOf t) = own names fields := by
  unfold own
  rw [filter_filter]
  refine congrArg (List.map _) (filter_congr fun d _ => ?_)
  cases hd : (nameOf d).isTextOf t with
  | true => simp [Value.isTextOf_iff.mp hd, isOwn_text ht]
  | false => simp

theorem Frames.takeBack (h : Frames names p q) (ht : t ∈ names)
    (hrem : q.removeField t view = .ok q') : Frames names p q' := by
  obtain ⟨k, e, i, hent, hshf, rfl⟩ := removeField_eq_ok hrem
  obtain ⟨he, -, -⟩ := entryOf?_eq_some hent
  refine ⟨h.isShelved.removed k e i t, lent_subset_iff.mpr fun s hs d hd => ?_, ?_⟩
  · obtain hs | hs := mem_append.mp hs
    · exact lent_subset_iff.mp h.lent s hs d hd
    · cases mem_singleton.mp hs
      exact lentNames_of_fieldsOn h.lent (mem_filter.mp hd).1
  · rw [← h.definitions]
    -- The view has another shelf; what is gone from it is one of the names.
    let written (p : Store) (e : ViewEntry) : Definition × Option (List Definition) :=
      (e.definition, e.shelf.map fun i => own names (p.fieldsOn i))
    have hself : written (q.removed k e i t) { e with shelf := some q.shelves.length }
        = written q e := by
      simp only [written, hshf, Option.map_some, fieldsOn_removed_self, own_filter ht]
    have hoth : q.views.map (written (q.removed k e i t)) = q.views.map (written q) := by
      refine map_congr_left fun e' he' => congrArg (e'.definition, ·) ?_
      refine Option.map_congr fun j hj => ?_
      rw [fieldsOn_removed k e i t (h.isShelved e' he' j hj)]
    have hat : (q.views.map (written q))[k]? = some (written q e) := by
      rw [List.getElem?_map, he, Option.map_some]
    obtain ⟨hk, hke⟩ := List.getElem?_eq_some_iff.mp hat
    have hvs : (q.views.set k { e with shelf := some q.shelves.length }).map
        (written (q.removed k e i t)) = q.views.map (written q) := by
      rw [map_set, hoth, hself, ← hke]
      exact set_getElem_self hk
    exact congrArg ({ q.toSetting with schema := .null }, ·) hvs

/-! ### Loans that leave no trace -/

/-- No two views have one shelf. -/
def IsUnshared (p : Store) : Prop :=
  ∀ (j k : Nat) (e e' : ViewEntry), p.views[j]? = some e → p.views[k]? = some e' →
    ∀ i, e.shelf = some i → e'.shelf = some i → j = k

/-- No view has more fields under the names than it had before. -/
def Settled (names : List String) (p q : Store) : Prop :=
  ∀ k, ∀ t ∈ names, q.Holds k t → p.Holds k t

instance : IsPreorder Store (Settled names) where
  refl _ _ _ _ h := h
  trans _ _ _ h h' k t ht hq := h k t ht (h' k t ht hq)

theorem Holds.of_namesOn (hvs : q.views = p.views)
    (hns : ∀ i, q.namesOn i = p.namesOn i) (h : q.Holds k t) : p.Holds k t := by
  obtain ⟨e, he, ht⟩ := h
  refine ⟨e, by rwa [hvs] at he, ?_⟩
  unfold namesOf at ht ⊢
  rwa [funext hns] at ht

theorem namesOn_setAlways (p : Store) (i : Nat) (always : Value) (j : Nat) :
    (p.setAlways i always).namesOn j = p.namesOn j := by
  unfold namesOn setAlways
  rw [fieldsOn_set]
  split_ifs with hij
  · rw [← hij.1, fieldsOn]
  · rfl

theorem namesOn_collect (p : Store) (i : Nat) (name : String) (dimensions : List String)
    (j : Nat) : (p.updateField i name (Field.collecting dimensions)).namesOn j = p.namesOn j := by
  unfold namesOn updateField
  rw [fieldsOn_set]
  split_ifs with hij
  · rw [← hij.1, map_map]
    refine map_congr_left fun d _ => ?_
    dsimp only [Function.comp]
    split_ifs
    · exact nameOf_collecting dimensions d
    · rfl
  · rfl

theorem holds_of_addField (hp : p.IsUnshared) (hn : d.get "name" = .text t)
    (hadd : p.addField d view = .ok q) (h : q.Holds k t') :
    p.Holds k t' ∨ t' = Text.lower t ∧ ∃ e, p.entryOf? view = .ok (some (k, e)) := by
  obtain rfl | ⟨k0, e0, i, hent, hshf, rfl⟩ := addField_cases hadd
  · exact .inl h
  · obtain ⟨e, he, ht'⟩ := h
    obtain ⟨he0, -, -⟩ := entryOf?_eq_some hent
    have hfs := p.fieldsOn_set i { p.shelves.getD i default with fields := p.fieldsOn i ++ [d] }
    unfold namesOf at ht'
    cases hj : e.shelf with
    | none =>
      rw [hj] at ht'
      cases ht'
    | some j =>
      rw [hj] at ht'
      dsimp only at ht'
      unfold namesOn added at ht'
      rw [hfs] at ht'
      split_ifs at ht' with hij
      · rw [map_append, mem_append] at ht'
        obtain ht' | ht' := ht'
        · refine .inl ⟨e, he, ?_⟩
          rw [namesOf, hj, ← hij.1]
          exact ht'
        · have hsm : k = k0 := hp k k0 e e0 he he0 j hj (by rw [hshf, hij.1])
          rw [map_singleton, mem_singleton, nameOf, hn] at ht'
          cases ht'
          exact .inr ⟨rfl, e0, by rw [hsm]; exact hent⟩
      · refine .inl ⟨e, he, ?_⟩
        rw [namesOf, hj]
        exact ht'

theorem view_of_removed {e0 : ViewEntry} {k0 : Nat} (h : (p.removed k0 e0 i t).views[k]? = some e) :
    (k = k0 ∧ e = { e0 with shelf := some p.shelves.length }) ∨ k ≠ k0 ∧ p.views[k]? = some e := by
  have hget : (p.views.set k0 { e0 with shelf := some p.shelves.length })[k]? = some e := h
  rw [List.getElem?_set] at hget
  split_ifs at hget with hk
  · exact .inl ⟨hk.symm, (Option.some.inj hget).symm⟩
  · exact .inr ⟨Ne.symm hk, hget⟩

theorem holds_of_removeField (hp : p.IsShelved) (hrem : p.removeField t view = .ok q)
    (h : q.Holds k t') :
    p.Holds k t' ∧ ∃ k0 e0, p.entryOf? view = .ok (some (k0, e0)) ∧ (k = k0 → t' ≠ t) := by
  obtain ⟨k0, e0, i, hent, hshf, rfl⟩ := removeField_eq_ok hrem
  obtain ⟨he0, -, -⟩ := entryOf?_eq_some hent
  obtain ⟨e, he, ht'⟩ := h
  obtain ⟨rfl, rfl⟩ | ⟨hk, hget⟩ := view_of_removed he
  · rw [namesOf_removed_self p k t hshf, mem_filter] at ht'
    refine ⟨⟨e0, he0, ht'.1⟩, k, e0, hent, fun _ heq => ?_⟩
    subst heq
    simp [Value.isTextOf] at ht'
  · rw [namesOf_removed k0 e0 i t hp (mem_of_getElem? hget)] at ht'
    exact ⟨⟨e, hget, ht'⟩, k0, e0, hent, fun heq => absurd heq hk⟩

theorem IsUnshared.added (hp : p.IsUnshared) (hadd : p.addField d view = .ok q) : q.IsUnshared := by
  obtain rfl | ⟨k, e, i, -, -, rfl⟩ := addField_cases hadd
  · exact hp
  · exact hp

theorem IsUnshared.removed (hp : p.IsUnshared) (hshelved : p.IsShelved)
    (hrem : p.removeField t view = .ok q) : q.IsUnshared := by
  obtain ⟨k0, e0, i0, hent, hshf, rfl⟩ := removeField_eq_ok hrem
  have hfresh : ∀ (k : Nat) (e : ViewEntry), p.views[k]? = some e →
      e.shelf ≠ some p.shelves.length := fun k e he hlen =>
    Nat.lt_irrefl _ (hshelved e (mem_of_getElem? he) _ hlen)
  intro j k e e' he he' i hi hi'
  obtain ⟨rfl, rfl⟩ | ⟨-, hs⟩ := view_of_removed he
  · obtain ⟨rfl, -⟩ | ⟨-, hs'⟩ := view_of_removed he'
    · rfl
    · exact absurd (by rw [hi', ← hi]) (hfresh k e' hs')
  · obtain ⟨rfl, rfl⟩ | ⟨-, hs'⟩ := view_of_removed he'
    · exact absurd (by rw [hi, ← hi']) (hfresh j e hs)
    · exact hp j k e e' hs hs' i hi hi'

/-- **A loan leaves no trace**: nothing is held under the names that was not held before, if the
name is in small letters and no view shares its fields. -/
theorem Settled.loan (hp : p.IsUnshared) {p1 p2 p3 : Store}
    (hn : d.get "name" = .text t) (hlow : Text.lower t = t)
    (hadd : p.addField d view = .ok p1) (hbetween : Settled names p1 p2)
    (hvs : p2.views.map (·.definition) = p.views.map (·.definition)) (hp2 : p2.IsShelved)
    (hrem : p2.removeField t view = .ok p3) : Settled names p p3 := by
  intro k t' ht' h
  obtain ⟨h2, k0, e0, hent, hne⟩ := holds_of_removeField hp2 hrem h
  obtain h1 | ⟨rfl, e, he⟩ := holds_of_addField hp hn hadd (hbetween k t' ht' h2)
  · exact h1
  · exact absurd hlow (hne (entryOf?_index hvs he hent))

theorem definitionsBut_of_free (h : ∀ k, ∀ t ∈ names, ¬ p.Holds k t) :
    p.definitionsBut names = p.definitionsBut [] := by
  unfold definitionsBut
  refine congrArg (_, ·) (map_congr_left fun e he => congrArg (e.definition, ·) ?_)
  refine Option.map_congr fun i hi => congrArg (List.map _) (filter_congr fun d hd => ?_)
  have hown : isOwn names (nameOf d) ≠ false := by
    intro hff
    obtain ⟨t, ht, heq⟩ := isOwn_eq_false.mp hff
    obtain ⟨k, hk⟩ := mem_iff_getElem?.mp he
    refine h k t ht ⟨e, hk, ?_⟩
    rw [namesOf, hi, ← heq]
    exact mem_map_of_mem hd
  rw [Bool.not_eq_false _ |>.mp hown]
  rfl

/-! ### Complete projects -/

/-- All fields of views have a name and a type. -/
def IsComplete (p : Store) : Prop :=
  ∀ e ∈ p.views, ∀ i, e.shelf = some i → ∀ d ∈ p.fieldsOn i, Field.isComplete d = true

theorem own_nil (fields : List Definition) :
    own [] fields = fields.map (·.erase "non_additive_dimension") := by
  simp [own, isOwn]

theorem IsComplete.definitions (h : p.IsComplete) : p.definitions = p.definitionsBut [] := by
  unfold Store.definitions definitionsBut
  refine congrArg (_, ·) (map_congr_left fun e he => congrArg (e.definition, ·) ?_)
  refine Option.map_congr fun i hi => ?_
  rw [own_nil]
  exact map_congr_left fun d hd => if_pos (h e he i hi d hd)

theorem IsComplete.congr (h : p.IsComplete) (hsm : q.definitionsBut [] = p.definitionsBut []) :
    q.IsComplete := by
  have herase : ∀ d : Definition,
      isComplete (d.erase "non_additive_dimension") = isComplete d := by
    intro d
    simp [isComplete, has_eq_isSome]
  intro e he i hi d hd
  have hmem := mem_map_of_mem (f := fun e : ViewEntry =>
    (e.definition, e.shelf.map fun i => own [] (q.fieldsOn i))) he
  have hvs := congrArg Prod.snd hsm
  unfold definitionsBut at hvs
  dsimp only at hvs
  rw [hvs] at hmem
  obtain ⟨e', he', heq⟩ := mem_map.mp hmem
  have hfs := (Prod.mk.inj heq).2
  rw [hi, Option.map_some, Option.map_eq_some_iff] at hfs
  obtain ⟨j, hj, hsm⟩ := hfs
  have hd' := mem_map_of_mem (f := (·.erase "non_additive_dimension")) hd
  rw [← own_nil, ← hsm, own_nil] at hd'
  obtain ⟨d', hd', heq⟩ := mem_map.mp hd'
  rw [← herase, ← heq, herase, h e' he' j hj d' hd']

end Store

end SemanticLayer
