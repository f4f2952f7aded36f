import SemanticLayer.Proofs.Project.Redaction

/-!
# Projects with the same definitions

Projects with the same definitions (`Store.definitions`) can differ in the schema of the last query,
in conditions, shelves and windows.  Their fields are alike (`Field.Like`): a lookup finds alike
fields in both, or fails with the same error in both (`Store.getField_like`).
-/

namespace SemanticLayer

open List Definition Definition

open Result (Related)

variable {k : String}

theorem rel_find? {α β : Type} {R : α → β → Prop} {p : α → Bool} {q : β → Bool}
    (hpq : ∀ a b, R a b → p a = q b) {l : List α} {l' : List β} (h : List.Forall₂ R l l') :
    Option.Rel R (l.find? p) (l'.find? q) := by
  induction h with
  | nil => exact .none
  | @cons a b _ _ hab _ ih =>
    rw [List.find?_cons, List.find?_cons, hpq a b hab]
    cases q b with
    | true => exact .some hab
    | false => exact ih

theorem map_eq_map_iff_rel {α β γ : Type} {f : α → γ} {g : β → γ} {l : List α} {l' : List β} :
    l.map f = l'.map g ↔ List.Forall₂ (fun a b => f a = g b) l l' := by
  rw [← forall₂_eq_eq_eq, forall₂_map_left_iff, forall₂_map_right_iff]

/-! ### Definitions of fields -/

namespace Field

/-- A field that has a name and a type. -/
def isComplete (d : Definition) : Bool := d.has "name" && d.has "field_type"

/-- What queries leave alone of a field: all but its window.  A field that is not complete is shown
as a whole in the error it gives. -/
def lasting (d : Definition) : Definition :=
  if isComplete d then d.erase "non_additive_dimension" else d

/-- The same entries, apart from the label prefix and the window. -/
def Agree (d d' : Definition) : Prop :=
  ∀ k, k ∉ ["label_prefix", "non_additive_dimension"] → d'.get? k = d.get? k

variable {d d' : Definition}

theorem isComplete_congr (h : Agree d d') : isComplete d' = isComplete d := by
  unfold isComplete
  simp only [has_eq_isSome]
  rw [h _ (by decide), h _ (by decide)]

theorem isComplete_set (k : String) (v : Value) (h : isComplete d = true) :
    isComplete (d.set k v) = true := by
  unfold isComplete at h ⊢
  rw [Bool.and_eq_true] at h
  simp [h.1, h.2]

namespace Agree

theorem refl (d : Definition) : Agree d d := fun _ _ => rfl

theorem set_label (d : Definition) (v : Value) : Agree d (d.set "label_prefix" v) := by
  intro k hk
  rw [get?_set, if_neg]
  rintro rfl
  simp at hk

theorem erase_label (d : Definition) : Agree d (d.erase "label_prefix") := by
  intro k hk
  rw [get?_erase, if_neg]
  rintro rfl
  simp at hk

variable (h : Agree d d')
include h

theorem get (hk : k ∉ ["label_prefix", "non_additive_dimension"]) :
    d'.get k = d.get k := by
  unfold Definition.get
  rw [h k hk]

theorem has (hk : k ∉ ["label_prefix", "non_additive_dimension"]) :
    d'.has k = d.has k := by
  rw [has_eq_isSome, has_eq_isSome, h k hk]

theorem set (k : String) (v : Value) : Agree (d.set k v) (d'.set k v) := by
  intro k' hk'
  rw [get?_set, get?_set, h k' hk']

theorem dropPrefix : Agree (dropPrefix d) (dropPrefix d') := by
  have hdrop : ∀ (d : Definition) {k}, k ∉ ["label_prefix", "non_additive_dimension"] →
      (Field.dropPrefix d).get? k = d.get? k := by
    intro d k hk
    unfold Field.dropPrefix
    split_ifs
    · exact erase_label d k hk
    · rfl
  intro k hk
  rw [hdrop d hk, hdrop d' hk, h k hk]

theorem yesNo {key : String} (hkey : key ∉ ["label_prefix", "non_additive_dimension"]) :
    Agree (yesNo d key) (yesNo d' key) := by
  unfold Field.yesNo
  rw [h key hkey]
  split
  · exact h.set _ _
  · exact h

theorem markCount : Agree (markCount d) (markCount d') := by
  unfold Field.markCount
  rw [h.has (by decide), h.get (by decide), h.get (by decide)]
  split_ifs
  · exact h.set _ _
  · exact h

theorem tidy : Agree (tidy d) (tidy d') :=
  ((h.dropPrefix.yesNo (by decide)).yesNo (by decide)).markCount

theorem lowerName (hd : isComplete d = true) :
    Related (fun e e' => isComplete e = true ∧ Agree e e') (lowerName d) (lowerName d') := by
  unfold Field.lowerName need
  rw [h "name" (by decide)]
  refine (Related.of_eq rfl).bind fun v v' hv => ?_
  subst hv
  split
  · exact .ok ⟨hd, h⟩
  · refine (Related.of_eq rfl).bind fun s s' hs => ?_
    subst hs
    exact .ok ⟨isComplete_set _ _ hd, h.set _ _⟩

end Agree

theorem isComplete_tidy (d : Definition) : isComplete (tidy d) = isComplete d := by
  unfold isComplete
  rw [has_tidy (by decide), has_tidy (by decide)]

theorem isComplete_normalize (h : normalize d = .ok d') : isComplete d' = true := by
  obtain ⟨d1, -, h⟩ := Result.of_bind h
  unfold checkKeys at h
  split at h
  · cases h
  · next hall =>
    cases h
    simpa [isComplete] using List.find?_eq_none.mp hall

theorem lasting_eq (h : lasting d' = lasting d) : d' = d ∨ isComplete d = true ∧ Agree d d' := by
  have hcpt : ∀ d, isComplete (lasting d) = isComplete d := by
    intro d
    unfold lasting
    split_ifs with hd
    · simp [isComplete, has_eq_isSome]
    · rfl
  have hsm : isComplete d' = isComplete d := by rw [← hcpt, h, hcpt]
  cases hd : isComplete d with
  | false =>
    rw [lasting, lasting, hsm, hd] at h
    exact .inl h
  | true =>
    refine .inr ⟨rfl, fun k hk => ?_⟩
    rw [lasting, lasting, hsm, hd, if_pos rfl] at h
    have hget := congrArg (get? · k) h
    have hne : "non_additive_dimension" ≠ k := by
      rintro rfl
      simp at hk
    simpa [hne] using hget

theorem normalize_like (h : d' = d ∨ isComplete d = true ∧ Agree d d') :
    Related (fun e e' => isComplete e = true ∧ Agree e e') (normalize d) (normalize d') := by
  obtain rfl | ⟨hd, h⟩ := h
  · cases hn : normalize d' with
    | error e => exact .error e
    | ok e => exact .ok ⟨isComplete_normalize hn, .refl e⟩
  · refine (h.lowerName hd).bind fun e e' ⟨he, hag⟩ => ?_
    have hck : ∀ {d}, isComplete d = true → checkKeys d = .ok d := fun hd => by
      rw [isComplete, Bool.and_eq_true] at hd
      exact checkKeys_of_has hd.1 hd.2
    have htidy : isComplete (tidy e) = true := by rw [isComplete_tidy, he]
    rw [hck htidy, hck ((isComplete_congr hag.tidy).trans htidy)]
    exact .ok ⟨htidy, hag.tidy⟩

end Field

theorem Project.settlePrefix_agree (views : List View) (f : Field) :
    (settlePrefix views f).view = f.view ∧ (settlePrefix views f).chosen = f.chosen ∧
      (settlePrefix views f).property "non_additive_dimension"
        = f.property "non_additive_dimension" ∧
      Field.Agree f.definition (settlePrefix views f).definition := by
  unfold settlePrefix
  split_ifs
  · split
    · refine ⟨rfl, rfl, ?_⟩
      unfold Field.property
      dsimp only
      split_ifs
      · exact ⟨by simp [Definition.get], .erase_label _⟩
      · exact ⟨by simp, .set_label _ _⟩
    · exact ⟨rfl, rfl, rfl, .refl _⟩
  · exact ⟨rfl, rfl, rfl, .refl _⟩

/-! ### Alike fields -/

/-- The same field, up to the label prefix, the window and the state of its view. -/
structure Field.Like (f f' : Field) : Prop where
  view : f'.view.definition = f.view.definition
  chosen : f'.chosen = f.chosen
  isComplete : isComplete f.definition = true
  entries : Agree f.definition f'.definition

namespace Field

variable {f f' : Field}

theorem make_like {d d' : Definition} {v v' : View} (hv : v'.definition = v.definition)
    (h : d' = d ∨ Field.isComplete d = true ∧ Agree d d') :
    Related Like (make d v) (make d' v') :=
  (normalize_like h).bind fun _ _ he => .ok ⟨hv, rfl, he.1, he.2⟩

namespace Like

variable (h : f.Like f')
include h

theorem property (hk : k ∉ ["label_prefix", "non_additive_dimension"]) :
    f'.property k = f.property k := h.entries.get hk

theorem name : f'.name = f.name := by
  unfold Field.name
  rw [h.property (by decide)]

theorem viewName : f'.view.name = f.view.name := by
  unfold View.name
  rw [h.view]

theorem hasType (type : String) : f'.hasType type = f.hasType type := by
  unfold Field.hasType
  rw [h.property (by decide)]

theorem isGroup : f'.isGroup = f.isGroup := by
  unfold Field.isGroup
  rw [h.property (by decide)]

theorem isMeasure : f'.isMeasure = f.isMeasure := by
  unfold Field.isMeasure
  rw [h.property (by decide)]

theorem isHidden : f'.isHidden = f.isHidden := by
  unfold Field.isHidden
  rw [h.property (by decide)]

theorem group : f'.group = f.group := by
  unfold Field.group
  rw [h.chosen, h.property (by decide)]

theorem aliasName : f'.aliasName = f.aliasName := by
  unfold Field.aliasName
  rw [h.isGroup, h.hasType, h.hasType, h.name, h.group]

theorem id : f'.id = f.id := by
  unfold Field.id
  rw [h.viewName, h.aliasName]

theorem key : f'.key = f.key := by
  unfold Field.key
  rw [h.viewName, h.name]

theorem groupNames : f'.groupNames = f.groupNames := by
  unfold Field.groupNames
  rw [h.isGroup, h.hasType, h.hasType, h.name, h.entries _ (by decide), h.entries _ (by decide)]

theorem groupOfName (name : String) : f'.groupOfName name = f.groupOfName name := by
  unfold Field.groupOfName
  rw [h.hasType, h.hasType, h.name]

theorem choose (group : Option Value) :
    { f with chosen := group }.Like { f' with chosen := group } :=
  ⟨h.view, rfl, h.isComplete, h.entries⟩

theorem matching (name : String) :
    Related (Option.Rel Like) (f.matching? name) (f'.matching? name) := by
  unfold Field.matching?
  dsimp only
  rw [h.viewName, h.isGroup, h.group, h.groupNames, h.aliasName, h.groupOfName]
  split_ifs
  · exact .ok .none
  · refine (Related.of_eq rfl).bind fun names names' heq => ?_
    subst heq
    split_ifs
    · exact .ok (.some (h.choose _))
    · exact .ok .none
  · exact .ok (.some h)
  · exact .ok .none

theorem expand : Related (List.Forall₂ Like) f.expand f'.expand := by
  have hmake : ∀ {d d' : Definition}, Field.isComplete d = true → Agree d d' →
      Related Like (make d f.view) (make d' f'.view) :=
    fun hd hag => make_like h.view (.inr ⟨hd, hag⟩)
  unfold Field.expand
  dsimp only
  rw [h.property (by decide), h.property (by decide)]
  split_ifs
  · refine (Related.of_eq rfl).bind fun frames frames' heq => ?_
    subst heq
    refine .mapM (forall₂_same.mpr fun t _ => rfl) fun t t' heq => ?_
    subst heq
    split_ifs
    · exact hmake (isComplete_set _ _ (isComplete_set _ _ h.isComplete))
        ((h.entries.set _ _).set _ _)
    · exact hmake (isComplete_set _ _ h.isComplete) (h.entries.set _ _)
  · refine (Related.of_eq rfl).bind fun intervals intervals' heq => ?_
    subst heq
    refine .mapM (forall₂_same.mpr fun t _ => rfl) fun t t' heq => ?_
    subst heq
    exact hmake (isComplete_set _ _ h.isComplete) (h.entries.set _ _)
  · exact .ok .nil

theorem settlePrefix (views views' : List View) :
    (Project.settlePrefix views f).Like (Project.settlePrefix views' f') := by
  obtain ⟨hv, hch, -, hag⟩ := Project.settlePrefix_agree views f
  obtain ⟨hv', hch', -, hag'⟩ := Project.settlePrefix_agree views' f'
  refine ⟨?_, ?_, ?_, fun k hk => ?_⟩
  · rw [hv, hv', h.view]
  · rw [hch, hch', h.chosen]
  · rw [isComplete_congr hag, h.isComplete]
  · rw [hag k hk, hag' k hk, h.entries k hk]

omit h in
theorem filter {keep : Field → Bool} (hkp : ∀ f f' : Field, f.Like f' → keep f' = keep f)
    {fields fields' : List Field} (h : List.Forall₂ Like fields fields') :
    List.Forall₂ Like (fields.filter keep) (fields'.filter keep) :=
  rel_filter (fun f f' hf => by simp only [hkp f f' hf]) h

end Like

end Field

/-! ### Alike projects -/

/-- What is written in a project, and for whom it is looked at: the setting apart from the schema,
and the views with their fields. -/
def Store.definitions (p : Store) : Setting × List (Definition × Option (List Definition)) :=
  ({ p.toSetting with schema := .null },
    p.views.map fun e => (e.definition, e.shelf.map fun i => (p.fieldsOn i).map Field.lasting))

structure View.Like (p q : Store) (v v' : View) : Prop where
  definition : v'.definition = v.definition
  expanded : v'.expanded = v.expanded
  fields : (q.fieldsOn v'.shelf).map Field.lasting = (p.fieldsOn v.shelf).map Field.lasting

namespace Store

variable {p q : Store} (h : q.definitions = p.definitions)
include h

theorem permits_like (required : Value) : q.permits required = p.permits required := by
  have hsm := congrArg (fun d => d.1.permits required) h
  exact hsm

theorem listModels_like : q.listModels = p.listModels := by
  have hsm := congrArg (fun d => d.1.listModels) h
  exact hsm

theorem userKey_like : q.userKey = p.userKey := by
  have hsm := congrArg (fun d => d.1.userKey) h
  exact hsm

theorem canAccessView_like {v v' : View} (hv : v'.definition = v.definition) :
    q.canAccessView v' = p.canAccessView v := by
  unfold Setting.canAccessView View.property
  rw [hv]
  exact permits_like h _

omit h in
theorem open_like {e e' : ViewEntry} (hdef : e'.definition = e.definition)
    (hfs : e'.shelf.map (fun i => (q.fieldsOn i).map Field.lasting)
      = e.shelf.map fun i => (p.fieldsOn i).map Field.lasting) (asked : Option Model) :
    Related (View.Like p q) (p.open_ asked e) (q.open_ asked e') := by
  unfold open_
  rw [hdef]
  refine (Related.of_eq rfl).bind fun _ _ _ => ?_
  cases hi : e.shelf with
  | none =>
    rw [hi, Option.map_none, Option.map_eq_none_iff] at hfs
    rw [hfs]
    exact .error _
  | some i =>
    rw [hi, Option.map_some, Option.map_eq_some_iff] at hfs
    obtain ⟨j, hj, hsm⟩ := hfs
    rw [hj]
    exact .ok ⟨rfl, rfl, hsm⟩

omit h in
theorem listViews_related {R : View → View → Prop} {asked : Option Model}
    (hviews : Forall₂ (fun e e' => Related R (p.open_ asked e) (q.open_ asked e')) p.views q.views)
    (haccess : ∀ v v', R v v' → q.canAccessView v' = p.canAccessView v) :
    Related (Forall₂ R) (p.listViews asked) (q.listViews asked) := by
  refine (Related.mapM hviews fun e e' he => he.bind fun v v' hv => ?_).bind
    fun found found' hfd => .ok (rel_flatten hfd)
  rw [haccess v v' hv]
  refine (Related.of_eq rfl).bind fun isSeen isSeen' heq => ?_
  subst heq
  split_ifs
  · exact .ok (.cons hv .nil)
  · exact .ok .nil

theorem listViews_like (asked : Option Model) :
    Related (List.Forall₂ (View.Like p q)) (p.listViews asked) (q.listViews asked) := by
  have hviews := map_eq_map_iff_rel.mp (congrArg Prod.snd h).symm
  refine listViews_related (hviews.imp fun e e' he => ?_) fun _ _ hv =>
    canAccessView_like h hv.definition
  obtain ⟨hdef, hfs⟩ := Prod.mk.inj he
  exact open_like hdef.symm hfs.symm asked

theorem listFields_like {v v' : View} (hv : View.Like p q v v') :
    Related (List.Forall₂ Field.Like) (p.listFields v) (q.listFields v') := by
  unfold listFields
  rw [canAccessView_like h hv.definition]
  refine (Related.of_eq rfl).bind fun isSeen isSeen' heq => ?_
  subst heq
  refine (Related.mapM (map_eq_map_iff_rel.mp hv.fields.symm) fun d d' hd => ?_).bind
    fun found found' hfd => .ok (rel_flatten hfd)
  have hlabel : ∀ x, d'.set "label_prefix" x = d.set "label_prefix" x ∨
      Field.isComplete (d.set "label_prefix" x) = true ∧
        Field.Agree (d.set "label_prefix" x) (d'.set "label_prefix" x) := by
    intro x
    obtain rfl | ⟨hcpt, hag⟩ := Field.lasting_eq hd.symm
    · exact .inl rfl
    · exact .inr ⟨Field.isComplete_set _ _ hcpt, hag.set _ _⟩
  unfold View.property
  rw [hv.definition, hv.expanded]
  refine (Field.make_like hv.definition (hlabel _)).bind fun f f' hf => ?_
  rw [hf.property (by decide), permits_like h, hf.isGroup]
  refine (Related.of_eq rfl).bind fun isPermitted isPermitted' heq => ?_
  subst heq
  split_ifs
  · exact hf.expand
  · exact .ok (.cons hf .nil)
  · exact .ok .nil

theorem getView_like (name : String) (asked : Option Model) :
    Related (View.Like p q) (p.seen.getView name asked) (q.seen.getView name asked) := by
  refine (listViews_like h asked).bind fun views views' hvs => ?_
  have hn : ∀ v v', View.Like p q v v' → (v.name == name) = (v'.name == name) := by
    intro v v' hv
    unfold View.name
    rw [hv.definition]
  have hfd := rel_find? hn hvs
  generalize views.find? (fun v => v.name == name) = found at hfd
  generalize views'.find? (fun v => v.name == name) = found' at hfd
  cases hfd with
  | none => exact .error _
  | some hv => exact .ok hv

theorem fieldsWith_like {v v' : View} (hv : View.Like p q v v') (hidden : Bool) :
    Related (List.Forall₂ Field.Like) (v.fieldsWith p hidden) (v'.fieldsWith q hidden) := by
  refine (listFields_like h hv).bind fun all all' hall => ?_
  split_ifs
  · exact .ok hall
  · exact .ok (Field.Like.filter (fun f f' hf => by rw [hf.isHidden]) hall)

theorem fields_like (view : Option String) (hidden expanded : Bool) (asked : Option Model) :
    Related (List.Forall₂ Field.Like) (p.seen.fields view hidden expanded asked)
      (q.seen.fields view hidden expanded asked) := by
  have hfs : ∀ v v', View.Like p q v v' → Related (List.Forall₂ Field.Like)
      ({ v with expanded := expanded }.fieldsWith p hidden)
      ({ v' with expanded := expanded }.fieldsWith q hidden) := by
    intro v v' hv
    have hlike : View.Like p q { v with expanded := expanded } { v' with expanded := expanded } :=
      ⟨hv.definition, rfl, hv.fields⟩
    exact fieldsWith_like h hlike hidden
  unfold Project.fields
  cases view with
  | some name => exact (getView_like h name asked).bind hfs
  | none =>
    refine (listViews_like h asked).bind fun views views' hvs => ?_
    refine (Related.mapM hvs hfs).bind fun found found' hfd => .ok ?_
    exact rel_map (fun f f' hf => hf.settlePrefix views views') (rel_flatten hfd)

theorem single_like {found found' : List Field} (hfd : List.Forall₂ Field.Like found found')
    (name : String) (view : Option String) :
    Related Field.Like (p.seen.single found name view) (q.seen.single found' name view) := by
  cases hfd with
  | nil =>
    unfold Project.single
    dsimp only
    split
    · split_ifs
      · exact (getView_like h _ none).bind fun v v' hv => Field.make_like hv.definition (.inl rfl)
      · exact .error _
    · exact .error _
  | cons hf hr =>
    cases hr with
    | nil => exact .ok hf
    | @cons g g' rest rest' hg hr =>
      have hids : rest'.map Field.id = rest.map Field.id :=
        map_eq_map_iff_rel.mpr (hr.flip.imp fun _ _ hf => hf.id)
      unfold Project.single
      simp only [map_cons, hf.id, hg.id, hids]
      exact .error _

theorem getField_like (name : String) (view : Option String) (asked : Option Model) :
    Related Field.Like (p.seen.getField name view asked) (q.seen.getField name view asked) := by
  refine (Related.of_eq rfl).bind fun parsed parsed' heq => ?_
  subst heq
  refine (fields_like h parsed.2 true true asked).bind fun all all' hall => ?_
  exact (Related.filterMapM hall fun f f' hf => hf.matching parsed.1).bind
    fun found found' hfd => single_like h hfd parsed.1 parsed.2

end Store

end SemanticLayer
