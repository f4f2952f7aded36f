import SemanticLayer.Proofs.Naming
import SemanticLayer.Proofs.Project.Likeness

/-!
# What is found under a name

A listed field comes from a definition on the shelf of its view, or is one timeframe of a group
(`Store.mem_listFields`).  The field that is looked up under the name of a view and a field has that
name as its id (`Store.id_of_getField`), if no group has a timeframe without a name.
-/

namespace SemanticLayer

open Result List Definition Project SemanticLayer.Field

variable {asked : Option Model} {expanded hidden : Bool} {fs : List Field} {name : String}
  {v : View} {view : Option String} {d : Definition}

/-! ### Names of fields -/

namespace Field

variable {f g : Field}

theorem matching?_eq_some (h : f.matching? name = .ok (some g)) :
    (g = f ∧ f.aliasName = (Name.parts name).field ∧ (f.isGroup && f.group.isNull) = false) ∨
    (f.group.isNull = true ∧ ∃ names, f.groupNames = .ok names ∧ (Name.parts name).field ∈ names ∧
      g = { f with chosen := some (f.groupOfName (Name.parts name).field) }) := by
  unfold matching? at h
  dsimp only at h
  split_ifs at h with hv hgr hn
  · cases h
  · rw [Bool.and_eq_true] at hgr
    obtain ⟨names, hns, h⟩ := of_bind h
    split_ifs at h with hmem
    · cases h
      exact .inr ⟨hgr.2, names, hns, by simpa using hmem, rfl⟩
    · cases h
  · cases h
    exact .inl ⟨rfl, by simpa using hn, by simpa using hgr⟩
  · cases h

theorem aliasName_of_matching (hgr : (f.isGroup && f.group.isNull) = false)
    (h : f.matching? name = .ok (some g)) : g = f ∧ f.aliasName = (Name.parts name).field := by
  obtain ⟨heq, hal, -⟩ | ⟨hnl, names, hns, hmem, -⟩ := matching?_eq_some h
  · exact ⟨heq, hal⟩
  · rw [hnl, Bool.and_true] at hgr
    unfold groupNames at hns
    rw [hgr] at hns
    cases hns
    cases hmem

theorem groupOfName_isNull {names : List String} (h : f.groupNames = .ok names)
    (hn : name ∈ names) : (f.groupOfName name).isNull = false := by
  unfold groupNames at h
  unfold groupOfName
  split_ifs at h with htime hdur
  · rw [Bool.and_eq_true] at htime
    rw [if_pos htime.2]
    split_ifs <;> rfl
  · rw [Bool.and_eq_true] at hdur
    obtain ⟨intervals, rfl⟩ : ∃ intervals : List Value,
        names = intervals.map fun t => t.plain ++ "s_" ++ f.name := by
      split at h
      · cases h
        exact ⟨_, rfl⟩
      · obtain ⟨intervals, -, h⟩ := of_bind h
        cases h
        exact ⟨intervals, rfl⟩
    obtain ⟨t, -, rfl⟩ := mem_map.mp hn
    have hcontains : Text.contains (t.plain ++ "s_" ++ f.name) ("_" ++ f.name) = true := by
      have hsp : t.plain ++ "s_" ++ f.name = t.plain ++ "s" ++ ("_" ++ f.name) ++ "" := by
        rw [String.append_empty, ← String.append_assoc, show "s_" = "s" ++ "_" from rfl,
          ← String.append_assoc]
      rw [hsp]
      exact Text.contains_append _ _ _
    rw [hdur.2, hcontains]
    rfl
  · cases h
    cases hn

/-! ### Listed fields -/

theorem make_eq_ok (h : make d v = .ok f) :
    ∃ d', normalize d = .ok d' ∧ f = { view := v, definition := d' } := by
  obtain ⟨d', hd', h⟩ := of_bind h
  cases h
  exact ⟨d', hd', rfl⟩

theorem get_of_make (h : make d v = .ok f) {k : String}
    (hk : k ∉ ["name", "label_prefix", "primary_key", "hidden", "primary_key_count"]) :
    f.property k = d.get k := by
  obtain ⟨d', hd', rfl⟩ := make_eq_ok h
  exact get_normalize hd' hk

theorem name_of_make (h : make d v = .ok f) :
    (∃ s, d.get? "name" = some (.text s) ∧ f.definition.get? "name" = some (.text (Text.lower s))) ∨
      d.get? "name" = some .null ∧ f.definition.get? "name" = some .null := by
  obtain ⟨d', hd', rfl⟩ := make_eq_ok h
  obtain ⟨d1, hlow, rfl⟩ := normalize_eq_ok hd'
  obtain ⟨name, hn, hlow⟩ := of_bind hlow
  rw [need_eq_ok] at hn
  rw [get?_tidy (by decide), hn]
  split at hlow
  · cases hlow
    exact .inr ⟨rfl, hn⟩
  · obtain ⟨s, hs, hlow⟩ := of_bind hlow
    cases hlow
    cases name <;> cases hs
    exact .inl ⟨s, rfl, by simp⟩

theorem mem_expand {gs : List Field} (h : f.expand = .ok gs) (hg : g ∈ gs) :
    g.view = f.view ∧ g.chosen = none ∧
      (∃ d, make d f.view = .ok g ∧ ∀ k ∉ ["hidden", "dimension_group"], d.get k = f.property k) ∧
      ((∃ ts, (f.property "timeframes").iterate = .ok ts ∧ g.group ∈ ts) ∨
        ∃ ts, (f.property "intervals").iterate = .ok ts ∧
          ∃ t ∈ ts, g.group = .text (t.plain ++ "s")) := by
  have hmade : ∀ {d : Definition} {t : Value}, make (d.set "dimension_group" t) f.view = .ok g →
      (∀ k ≠ "hidden", d.get k = f.property k) → g.view = f.view ∧ g.chosen = none ∧
        (∃ d, make d f.view = .ok g ∧ ∀ k ∉ ["hidden", "dimension_group"], d.get k = f.property k) ∧
        g.group = t := by
    intro d t hmake hd
    have hgr := get_of_make hmake (k := "dimension_group") (by decide)
    rw [get_set] at hgr
    have hens : ∀ k ∉ ["hidden", "dimension_group"],
        (d.set "dimension_group" t).get k = f.property k := by
      intro k hk
      simp only [mem_cons, not_mem_nil, or_false, not_or] at hk
      rw [get_set, if_neg (Ne.symm hk.2), hd k hk.1]
    obtain ⟨d', -, rfl⟩ := make_eq_ok hmake
    exact ⟨rfl, rfl, ⟨_, hmake, hens⟩, hgr⟩
  unfold expand at h
  dsimp only at h
  split_ifs at h
  · obtain ⟨ts, hts, h⟩ := of_bind h
    obtain ⟨t, ht, hmake⟩ := exists_of_mem_mapM h hg
    obtain ⟨hv, hch, hfrom, rfl⟩ := hmade hmake fun k hk => by
      split_ifs
      · rw [get_set, if_neg (Ne.symm hk), property]
      · rfl
    exact ⟨hv, hch, hfrom, .inl ⟨ts, hts, ht⟩⟩
  · obtain ⟨ts, hts, h⟩ := of_bind h
    obtain ⟨t, ht, hmake⟩ := exists_of_mem_mapM h hg
    obtain ⟨hv, hch, hfrom, hgr⟩ := hmade hmake fun k _ => rfl
    exact ⟨hv, hch, hfrom, .inr ⟨ts, hts, t, ht, hgr⟩⟩
  · cases h
    cases hg

end Field

namespace Store

variable {p : Store} {f : Field}

theorem mem_listFields (h : p.listFields v = .ok fs) (hf : f ∈ fs) :
    ∃ d ∈ p.fieldsOn v.shelf, p.withholds d = false ∧ ∃ g,
      Field.make (d.set "label_prefix" (v.property "field_prefix")) v = .ok g ∧
      if v.expanded && g.isGroup then ∃ gs, g.expand = .ok gs ∧ f ∈ gs else f = g := by
  obtain ⟨isSeen, -, h⟩ := of_bind h
  obtain ⟨found, hfd, h⟩ := of_bind h
  cases h
  obtain ⟨gs, hgs, hf⟩ := mem_flatten.mp hf
  obtain ⟨d, hd, hs⟩ := exists_of_mem_mapM hfd hgs
  obtain ⟨g, hg, hs⟩ := of_bind hs
  obtain ⟨isPermitted, hper, hs⟩ := of_bind hs
  rw [get_of_make hg (by decide), get_set, if_neg (by decide)] at hper
  cases isPermitted with
  | false =>
    cases hs
    cases hf
  | true =>
    refine ⟨d, hd, by unfold Setting.withholds; rw [hper], g, hg, ?_⟩
    split at hs
    · split_ifs at hs ⊢
      · exact ⟨gs, hs, hf⟩
      · cases hs
        exact mem_singleton.mp hf
    · cases hs
      cases hf

theorem chosen_of_listFields (h : p.listFields v = .ok fs) (hf : f ∈ fs) :
    f.view = v ∧ f.chosen = none := by
  obtain ⟨d, -, -, g, hg, hfg⟩ := mem_listFields h hf
  obtain ⟨d', -, rfl⟩ := make_eq_ok hg
  split_ifs at hfg
  · obtain ⟨gs, hgs, hf⟩ := hfg
    obtain ⟨hv, hch, -⟩ := mem_expand hgs hf
    exact ⟨hv, hch⟩
  · subst hfg
    exact ⟨rfl, rfl⟩

def NamesFrames (p : Store) : Prop :=
  ∀ s ∈ p.shelves, ∀ d ∈ s.fields, ∀ ts, (d.get "timeframes").iterate = .ok ts → .null ∉ ts

theorem group_of_listFields (hp : p.NamesFrames) (hv : v.expanded = true)
    (h : p.listFields v = .ok fs) (hf : f ∈ fs) : (f.isGroup && f.group.isNull) = false := by
  obtain ⟨d, hd, -, g, hg, hfg⟩ := mem_listFields h hf
  rw [hv, Bool.true_and] at hfg
  split_ifs at hfg with hgr
  · obtain ⟨gs, hgs, hf⟩ := hfg
    obtain ⟨-, -, -, htimeframe⟩ := mem_expand hgs hf
    have hnl : f.group.isNull = false := by
      obtain ⟨ts, hts, hmem⟩ | ⟨_, _, _, _, heq⟩ := htimeframe
      · rw [get_of_make hg (by decide), get_set] at hts
        obtain ⟨s, hs, hd⟩ := exists_of_mem_fieldsOn hd
        have hnot := hp s hs d hd ts hts
        cases hgr : f.group with
        | null => exact absurd (hgr ▸ hmem) hnot
        | _ => rfl
      · rw [heq]
        rfl
    rw [hnl, Bool.and_false]
  · subst hfg
    rw [Bool.not_eq_true] at hgr
    rw [hgr, Bool.false_and]

end Store

namespace Project

variable {p : Project} {f : Field}

theorem parseName_dotted {view : String} (hv : '.' ∉ view.toList) (hn : '.' ∉ name.toList) :
    parseName (view ++ "." ++ name) none = .ok (Text.lower name, some view) := by
  unfold parseName
  rw [if_pos (Text.contains_append view "." name), Name.parts_dotted hv hn]

theorem mem_of_getView (h : p.getView name asked = .ok v) :
    ∃ views, p.listViews asked = .ok views ∧ v ∈ views ∧ v.name = name := by
  obtain ⟨views, hvs, h⟩ := of_bind h
  split at h
  · next found hfd =>
    cases h
    exact ⟨views, hvs, mem_of_find?_eq_some hfd, by simpa using List.find?_some hfd⟩
  · cases h

theorem mem_fields (h : p.fields view hidden expanded asked = .ok fs) (hf : f ∈ fs) :
    ∃ (views : List View) (v : View) (listed : List Field) (g : Field),
      p.listViews asked = .ok views ∧ v ∈ views ∧ (∀ name, view = some name → v.name = name) ∧
      p.listFields { v with expanded := expanded } = .ok listed ∧ g ∈ listed ∧
      f.view = g.view ∧ f.chosen = g.chosen ∧
      f.property "non_additive_dimension" = g.property "non_additive_dimension" ∧
      Field.Agree g.definition f.definition := by
  have hls : ∀ {v : View} {fs : List Field} {f : Field}, v.fieldsWith p hidden = .ok fs →
      f ∈ fs → ∃ listed, p.listFields v = .ok listed ∧ f ∈ listed := by
    intro v fs f hfs hf
    obtain ⟨listed, hls, hfs⟩ := of_bind hfs
    cases hfs
    refine ⟨listed, hls, ?_⟩
    split_ifs at hf
    · exact hf
    · exact (mem_filter.mp hf).1
  unfold fields at h
  cases view with
  | some name =>
    obtain ⟨v, hv, h⟩ := of_bind h
    obtain ⟨views, hvs, hmem, hname⟩ := mem_of_getView hv
    obtain ⟨listed, hli, hg⟩ := hls h hf
    refine ⟨views, v, listed, f, hvs, hmem, fun n hn => ?_, hli, hg, rfl, rfl, rfl, .refl _⟩
    cases hn
    exact hname
  | none =>
    obtain ⟨views, hvs, h⟩ := of_bind h
    obtain ⟨found, hfd, h⟩ := of_bind h
    cases h
    obtain ⟨g, hg, rfl⟩ := mem_map.mp hf
    obtain ⟨gs, hgs, hg⟩ := mem_flatten.mp hg
    obtain ⟨v, hmem, hv⟩ := exists_of_mem_mapM hfd hgs
    obtain ⟨listed, hli, hg⟩ := hls hv hg
    exact ⟨views, v, listed, g, hvs, hmem, fun _ hn => (nomatch hn), hli, hg,
      settlePrefix_agree views g⟩

theorem getField_eq_ok (h : p.getField name view asked = .ok f) :
    ∃ own given all, parseName name view = .ok (own, given) ∧
      p.fields given true true asked = .ok all ∧ ((∃ g ∈ all, g.matching? own = .ok (some f)) ∨
        own = "count" ∧ ∃ n v, given = some n ∧ p.getView n = .ok v ∧
          Field.make rowCount v = .ok f) := by
  obtain ⟨⟨own, given⟩, hparsed, h⟩ := of_bind h
  obtain ⟨all, hall, h⟩ := of_bind h
  obtain ⟨found, hfd, h⟩ := of_bind h
  refine ⟨own, given, all, hparsed, hall, ?_⟩
  unfold single at h
  dsimp only at h
  split at h
  · cases h
    exact .inl (((filterMapM_eq_ok hfd).2 f).mp (by simp))
  · cases h
  · split at h
    · next n hn =>
      split_ifs at h with hct
      obtain ⟨v, hv, h⟩ := of_bind h
      exact .inr ⟨eq_of_beq hct, n, v, (Option.filter_eq_some_iff.mp hn).1, hv, h⟩
    · cases h

end Project

namespace Store

variable {p : Store} {f : Field}

theorem chosen_of_fields (h : p.seen.fields view hidden expanded asked = .ok fs) (hf : f ∈ fs) :
    f.chosen = none := by
  obtain ⟨-, v, listed, g, -, -, -, hls, hg, -, hch, -⟩ := mem_fields h hf
  rw [hch, (chosen_of_listFields hls hg).2]

theorem viewName_of_fields
    (h : p.seen.fields (some name) hidden expanded asked = .ok fs) (hf : f ∈ fs) :
    f.view.name = name := by
  obtain ⟨-, v, listed, g, -, -, hv, hls, hg, hview, -, -⟩ := mem_fields h hf
  rw [hview, (chosen_of_listFields hls hg).1]
  exact hv name rfl

/-- A view of the project, with the conditions on its shelf. -/
def Opens (p : Store) (v : View) : Prop :=
  ∃ e ∈ p.views, v.name = (e.definition.get "name").plain ∧ e.shelf = some v.shelf ∧
    v.always = (p.shelves.getD v.shelf default).always

theorem opens_of_mem_listViews {views : List View} (h : p.listViews asked = .ok views)
    (hv : v ∈ views) : p.Opens v := by
  obtain ⟨found, hfd, h⟩ := of_bind h
  cases h
  obtain ⟨one, hone, hv⟩ := mem_flatten.mp hv
  obtain ⟨e, he, hs⟩ := exists_of_mem_mapM hfd hone
  obtain ⟨u, hopen, hs⟩ := of_bind hs
  obtain ⟨isSeen, -, hs⟩ := of_bind hs
  cases hs
  split_ifs at hv
  · cases mem_singleton.mp hv
    obtain ⟨-, -, hopen⟩ := of_bind hopen
    split at hopen
    · cases hopen
    · next i hi =>
      cases hopen
      refine ⟨e, he, ?_, hi, rfl⟩
      unfold View.name
      split_ifs
      · rfl
      · rw [get_set, if_neg (by decide)]
  · cases hv

theorem opens_of_fields (h : p.seen.fields view hidden expanded asked = .ok fs) (hf : f ∈ fs) :
    p.Opens f.view := by
  obtain ⟨views, v, listed, g, hvs, hv, -, hls, hg, hview, -⟩ := mem_fields h hf
  rw [hview, (chosen_of_listFields hls hg).1]
  exact opens_of_mem_listViews (v := v) hvs hv

theorem group_of_fields (hp : p.NamesFrames) (h : p.seen.fields view hidden true asked = .ok fs)
    (hf : f ∈ fs) : (f.isGroup && f.group.isNull) = false := by
  obtain ⟨-, v, listed, g, -, -, -, hls, hg, -, hch, -, hag⟩ := mem_fields h hf
  have hlike := group_of_listFields hp rfl hls hg
  unfold isGroup group property at hlike ⊢
  rwa [hch, hag.get (by decide), hag.get (by decide)]

theorem id_of_rowCount (h : Field.make Project.rowCount v = .ok f) :
    f.id = v.name ++ "." ++ "count" := by
  have hrs : normalize rowCount
      = .ok (rowCount.set "primary_key_count" (.bool true)) := rfl
  obtain ⟨d, hd, rfl⟩ := make_eq_ok h
  cases hrs.symm.trans hd
  rfl

/-- **The field that is looked up by its view and its name has that name**, in small letters. -/
theorem id_of_getField (hp : p.NamesFrames) {view : String} (hview : '.' ∉ view.toList)
    (hn : '.' ∉ name.toList) (h : p.seen.getField (view ++ "." ++ name) none asked = .ok f) :
    f.id = view ++ "." ++ Text.lower name := by
  obtain ⟨own, given, all, hparsed, hall, h⟩ := getField_eq_ok h
  cases (parseName_dotted hview hn).symm.trans hparsed
  obtain ⟨g, hg, hmt⟩ | ⟨hct, n, v, hgiven, hv, h⟩ := h
  · obtain ⟨rfl, hal⟩ := Field.aliasName_of_matching (group_of_fields hp hall hg) hmt
    rw [Field.id, viewName_of_fields hall hg, hal, Name.parts_undotted (Text.lower_undotted hn)]
  · cases hgiven
    obtain ⟨-, -, -, hname⟩ := mem_of_getView hv
    rw [id_of_rowCount h, hname, hct]

end Store

end SemanticLayer
