import SemanticLayer.Project.Edit
import SemanticLayer.Proofs.Outcome
import SemanticLayer.Proofs.Value.Definition

/-!
# Projects without what is kept from the user

`Store.redacted` deletes the views and the fields whose access grants the user does not meet.  What
the user sees stays the same (`seen_redacted`), if what is deleted could be read in the first place.
-/

namespace SemanticLayer

open Result List Definition

variable {d d' : Definition} {k : String} {i : Nat}

theorem Result.flatten_mapM_filter {α β : Type} {f : α → Result (List β)} {keep : α → Bool}
    {l : List α} (h : ∀ a ∈ l, keep a = false → f a = .ok []) :
    ((l.filter keep).mapM f >>= fun found => pure found.flatten)
      = (l.mapM f >>= fun found => pure found.flatten) := by
  induction l with
  | nil => rfl
  | cons a l ih =>
    have hr := ih fun b hb => h b (mem_cons_of_mem _ hb)
    have hsp : ∀ (b : List β) (x : Result (List (List β))), (x >>= fun bs => pure (b ++ bs.flatten))
          = (x >>= fun bs => pure bs.flatten) >>= fun r => pure (b ++ r) := by
      simp
    by_cases hkp : keep a = true
    · rw [filter_cons_of_pos hkp]
      simp only [mapM_cons, bind_assoc, pure_bind, flatten_cons]
      simp only [hsp, hr]
    · have hno : f a = pure [] := h a (mem_cons_self ..) (by simpa using hkp)
      rw [filter_cons_of_neg hkp, hr, mapM_cons, hno]
      simp

/-! ### Definitions of fields -/

namespace Field

theorem get?_yesNo {key : String} (hk : key ≠ k) : (yesNo d key).get? k = d.get? k := by
  unfold yesNo
  split
  · rw [Definition.get?_set, if_neg hk]
  · rfl

theorem get?_tidy (hk : k ∉ ["label_prefix", "primary_key", "hidden", "primary_key_count"]) :
    (tidy d).get? k = d.get? k := by
  simp only [mem_cons, not_mem_nil, or_false, not_or] at hk
  obtain ⟨hlabel, hkey, hhidden, hct⟩ := hk
  have hdrop : (dropPrefix d).get? k = d.get? k := by
    unfold dropPrefix
    split_ifs
    · rw [Definition.get?_erase, if_neg (Ne.symm hlabel)]
    · rfl
  have hmark : ∀ d : Definition, (markCount d).get? k = d.get? k := by
    intro d
    unfold markCount
    split_ifs
    · rw [Definition.get?_set, if_neg (Ne.symm hct)]
    · rfl
  rw [tidy, hmark, get?_yesNo (Ne.symm hhidden), get?_yesNo (Ne.symm hkey), hdrop]

theorem get?_lowerName (h : lowerName d = .ok d') (hk : "name" ≠ k) : d'.get? k = d.get? k := by
  unfold lowerName at h
  obtain ⟨v, -, h⟩ := of_bind h
  split at h
  · cases h
    rfl
  · obtain ⟨s, -, h⟩ := of_bind h
    cases h
    rw [Definition.get?_set, if_neg hk]

theorem has_tidy (hk : k ∉ ["label_prefix", "primary_key", "hidden", "primary_key_count"]) :
    (tidy d).has k = d.has k := by
  rw [has_eq_isSome, get?_tidy hk, ← has_eq_isSome]

theorem normalize_eq_ok (h : normalize d = .ok d') :
    ∃ d1, lowerName d = .ok d1 ∧ d' = tidy d1 := by
  unfold normalize checkKeys at h
  obtain ⟨d1, hlow, h⟩ := of_bind h
  split at h
  · cases h
  · cases h
    exact ⟨d1, hlow, rfl⟩

theorem get_normalize (h : normalize d = .ok d')
    (hk : k ∉ ["name", "label_prefix", "primary_key", "hidden", "primary_key_count"]) :
    d'.get k = d.get k := by
  rw [mem_cons, not_or] at hk
  obtain ⟨d1, hlow, rfl⟩ := normalize_eq_ok h
  unfold Definition.get
  rw [get?_tidy hk.2, get?_lowerName hlow (Ne.symm hk.1)]

theorem checkKeys_of_has (hn : d.has "name" = true)
    (hty : d.has "field_type" = true) : checkKeys d = .ok d := by
  unfold checkKeys
  rw [List.find?_eq_none.mpr (by simp [hn, hty])]
  rfl

structure IsReadable (d : Definition) : Prop where
  name : d.get? "name" = some .null ∨ ∃ s, d.get? "name" = some (.text s)
  type : d.has "field_type" = true

namespace IsReadable

theorem set_label (h : IsReadable d) (v : Value) : IsReadable (d.set "label_prefix" v) where
  name := by simpa using h.name
  type := by simpa [has_eq_isSome] using h.type

theorem lowerName_eq_ok (h : IsReadable d) :
    ∃ d1, lowerName d = .ok d1 ∧ d1.has "name" = true ∧ d1.has "field_type" = true := by
  unfold lowerName Definition.need
  obtain hn | ⟨s, hn⟩ := h.name
  · rw [hn]
    exact ⟨d, rfl, by rw [has_eq_isSome, hn]; rfl, h.type⟩
  · rw [hn]
    refine ⟨d.set "name" (.text (Text.lower s)), rfl, ?_, ?_⟩
    · simp [has_eq_isSome]
    · simpa [has_eq_isSome] using h.type

theorem normalize_eq_ok (h : IsReadable d) : ∃ d', normalize d = .ok d' := by
  obtain ⟨d1, hlow, hn, hty⟩ := h.lowerName_eq_ok
  have hks : checkKeys (tidy d1) = .ok (tidy d1) := by
    apply checkKeys_of_has
    · rw [has_tidy (by decide), hn]
    · rw [has_tidy (by decide), hty]
  exact ⟨tidy d1, bind_eq_ok.mpr ⟨d1, hlow, hks⟩⟩

end IsReadable

end Field

/-! ### Redaction -/

namespace Store

/-- The project without the views and the fields that are kept from its user. -/
def redacted (p : Store) : Store :=
  { p with
    views := p.views.filter fun e => !p.withholds e.definition
    shelves := p.shelves.map fun s => { s with fields := s.fields.filter fun d => !p.withholds d } }

/-- What is kept from the user can be read: views have a name and fields, and fields a name and a
type. -/
structure IsReadable (p : Store) : Prop where
  views : ∀ e ∈ p.views, p.withholds e.definition = true →
    e.definition.has "name" = true ∧ e.shelf.isSome = true
  fields : ∀ s ∈ p.shelves, ∀ d ∈ s.fields, p.withholds d = true → Field.IsReadable d

variable {p : Store}

theorem shelves_redacted (p : Store) (i : Nat) :
    p.redacted.shelves.getD i default = { p.shelves.getD i default with
          fields := (p.fieldsOn i).filter fun d => !p.withholds d } := by
  unfold redacted fieldsOn
  rw [List.getD_eq_getElem?_getD, List.getD_eq_getElem?_getD, List.getElem?_map]
  cases p.shelves[i]? with
  | none => rfl
  | some s => rfl

theorem fieldsOn_redacted (p : Store) (i : Nat) :
    p.redacted.fieldsOn i = (p.fieldsOn i).filter fun d => !p.withholds d := by
  rw [fieldsOn, shelves_redacted]

theorem open_redacted (p : Store) : p.redacted.open_ = p.open_ := by
  funext asked e
  unfold open_
  cases e.shelf with
  | none => rfl
  | some i => simp only [shelves_redacted]

theorem exists_of_mem_fieldsOn (hd : d ∈ p.fieldsOn i) :
    ∃ s ∈ p.shelves, d ∈ s.fields := by
  unfold fieldsOn at hd
  rw [List.getD_eq_getElem?_getD] at hd
  cases hs : p.shelves[i]? with
  | none =>
    rw [hs] at hd
    cases hd
  | some s =>
    rw [hs] at hd
    exact ⟨s, mem_of_getElem? hs, hd⟩

theorem IsReadable.of_fieldsOn (h : p.IsReadable) (hd : d ∈ p.fieldsOn i)
    (hw : p.withholds d = true) : Field.IsReadable d := by
  obtain ⟨s, hs, hd⟩ := exists_of_mem_fieldsOn hd
  exact h.fields s hs d hd hw

theorem permits_of_withholds {s : Setting} (h : s.withholds d = true) :
    s.permits (d.get "required_access_grants") = .ok false := by
  unfold Setting.withholds at h
  split at h
  · assumption
  · cases h

theorem listFields_redacted (h : p.IsReadable) : p.redacted.listFields = p.listFields := by
  funext v
  unfold listFields
  rw [fieldsOn_redacted]
  change (p.canAccessView v >>= _) = _
  cases hv : p.canAccessView v with
  | error e => rfl
  | ok isSeen =>
    refine flatten_mapM_filter fun d hd hkp => ?_
    have hw : p.withholds d = true := by simpa using hkp
    have hrd := h.of_fieldsOn hd hw
    obtain ⟨d', hd'⟩ := (hrd.set_label (v.property "field_prefix")).normalize_eq_ok
    have hgrants : p.permits (d'.get "required_access_grants") = .ok false := by
      rw [Field.get_normalize hd' (by decide), Definition.get, Definition.get?_set, if_neg (by decide)]
      exact permits_of_withholds hw
    refine bind_eq_ok.mpr ⟨{ view := v, definition := d' }, ?_, ?_⟩
    · exact bind_eq_ok.mpr ⟨d', hd', rfl⟩
    · exact bind_eq_ok.mpr ⟨false, hgrants, rfl⟩

theorem open_of_isReadable (p : Store) {e : ViewEntry} (hn : e.definition.has "name" = true)
    (hshf : e.shelf.isSome = true) (asked : Option Model) :
    ∃ v, p.open_ asked e = .ok v ∧
      v.property "required_access_grants" = e.definition.get "required_access_grants" := by
  have hreq : e.definition.require "View" ["name"] = .ok () := by
    unfold Definition.require
    rw [List.find?_eq_none.mpr (by simp [hn])]
  obtain ⟨i, hi⟩ := Option.isSome_iff_exists.mp hshf
  unfold open_
  rw [hreq, hi]
  refine ⟨_, rfl, ?_⟩
  unfold View.property
  split_ifs
  · rfl
  · rw [Definition.get, Definition.get?_set, if_neg (by decide), ← Definition.get]

theorem listViews_redacted (h : p.IsReadable) : p.redacted.listViews = p.listViews := by
  funext asked
  unfold listViews
  rw [open_redacted]
  refine flatten_mapM_filter fun e he hkp => ?_
  have hw : p.withholds e.definition = true := by simpa using hkp
  obtain ⟨hn, hshf⟩ := h.views e he hw
  obtain ⟨v, hopen, hgrants⟩ := p.open_of_isReadable hn hshf asked
  have hseen : p.canAccessView v = .ok false := by
    unfold Setting.canAccessView
    rw [hgrants]
    exact permits_of_withholds hw
  exact bind_eq_ok.mpr ⟨v, hopen, bind_eq_ok.mpr ⟨false, hseen, rfl⟩⟩

theorem size_redacted (p : Store) : p.redacted.size = p.size := by
  have hvs : p.redacted.views.filter (fun e => !p.withholds e.definition) = p.redacted.views := by
    simp [redacted]
  have hfs : ∀ i, (p.redacted.fieldsOn i).filter (fun d => !p.withholds d)
      = (p.fieldsOn i).filter fun d => !p.withholds d := by
    intro i
    simp [fieldsOn_redacted]
  have hwithholds : p.redacted.withholds = p.withholds := rfl
  unfold size
  rw [hwithholds, hvs]
  simp only [hfs]
  rfl

theorem seen_redacted (h : p.IsReadable) : p.redacted.seen = p.seen := by
  unfold seen
  rw [listViews_redacted h, listFields_redacted h, size_redacted]
  rfl

/-! ### Edits -/

theorem setAlways_redacted (p : Store) (i : Nat) (always : Value) :
    (p.setAlways i always).redacted = p.redacted.setAlways i always := by
  unfold setAlways
  rw [shelves_redacted]
  unfold redacted
  simp only [map_set]
  rfl

theorem IsReadable.setAlways (h : p.IsReadable) (i : Nat) (always : Value) :
    (p.setAlways i always).IsReadable where
  views := h.views
  fields := by
    intro s hs d hd hw
    obtain hs | rfl := mem_or_eq_of_mem_set hs
    · exact h.fields s hs d hd hw
    · exact h.of_fieldsOn hd hw

theorem IsReadable.schema (h : p.IsReadable) (schema : Value) :
    ({ p with schema := schema } : Store).IsReadable := ⟨h.views, h.fields⟩

end Store

end SemanticLayer
