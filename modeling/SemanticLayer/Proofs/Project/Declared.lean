import SemanticLayer.Proofs.Project.Lookup

/-!
# What fields say of their windows

Listing fields, taking groups apart and looking fields up changes neither their names nor their
windows: a field that is looked up stems from a definition on the shelf of its view
(`Store.stems_of_getField`).
-/

namespace SemanticLayer

open Result List Definition SemanticLayer.Field

variable {Q : Value → Prop}

namespace Field

variable {d : Definition} {f g : Field} {v : View}

/-- The name of a field, in small letters. -/
def nameOf (d : Definition) : Value :=
  match d.get "name" with
  | .text n => .text (Text.lower n)
  | v => v

/-- The field has the name of a definition, and its non-additive dimension. -/
structure Stems (d : Definition) (f : Field) : Prop where
  name : f.property "name" = nameOf d
  window : f.property "non_additive_dimension" = d.get "non_additive_dimension"

theorem nameOf_of_make (h : make d v = .ok f) : f.property "name" = nameOf d := by
  unfold nameOf property Definition.get
  obtain ⟨s, hs, hs'⟩ | ⟨hs, hs'⟩ := name_of_make h
  · rw [hs, hs']
    rfl
  · rw [hs, hs']
    rfl

theorem Stems.expand {gs : List Field} (hf : Stems d f) (h : f.expand = .ok gs) (hg : g ∈ gs) :
    Stems d g := by
  obtain ⟨-, -, ⟨e, he, hsame⟩, -⟩ := mem_expand h hg
  refine ⟨?_, ?_⟩
  · rw [nameOf_of_make he, nameOf, hsame _ (by decide), hf.name, nameOf]
    cases d.get "name" with
    | text n => exact congrArg Value.text (Text.lower_lower n)
    | _ => rfl
  · rw [get_of_make he (by decide), hsame _ (by decide), hf.window]

/-- The groupings that are written for a window. -/
def groupings (m : Definition) : List String :=
  ((m.get "window_groupings").iterate.toOption.getD []).map Value.plain

/-- A window with qualified names in the place of the names that are written. -/
structure Qualifies (f : Field) (m m' : Definition) : Prop where
  isEmpty : m.isEmpty = false ∧ m'.isEmpty = false
  name : ∃ n, m.get "name" = .text n ∧ m'.get "name" = .text (Name.qualify f.view.name n)
  others : ∀ k ∉ ["name", "window_groupings"], m'.get? k = m.get? k
  groupings : m'.get? "window_groupings" = m.get? "window_groupings" ∧
      (m.get "window_groupings").truthy = false ∨
    m'.get? "window_groupings"
      = some (.list ((groupings m).map fun n => .text (Name.qualify f.view.name n)))

theorem qualified_eq {items qualified : List Value} (view : String)
    (h : (items.mapM fun g => do return Value.text (Name.qualify view (← g.needText)) :
      Result (List Value)) = .ok qualified) :
    qualified = (items.map Value.plain).map fun n => .text (Name.qualify view n) := by
  rw [map_map, ← map_id qualified]
  refine map_of_mapM (fun g v hv => ?_) h
  obtain ⟨n, hn, hv⟩ := of_bind hv
  cases hv
  rw [Value.eq_text_of_needText hn]
  rfl

/-- **A window is read as it is written, but for its names, which are qualified**; where nothing is
written, there is none. -/
theorem nonAdditive_eq_ok {v : Value} (h : f.nonAdditive = .ok v) :
    (f.property "non_additive_dimension").truthy = false ∧ v = f.property "non_additive_dimension" ∨
      ∃ m m', f.property "non_additive_dimension" = .map m ∧ v = .map m' ∧ f.Qualifies m m' := by
  have hset : ∀ (m : Definition) (k : String) (v : Value), (m.set k v).isEmpty = false := by
    intro m k v
    cases hm : m.set k v with
    | nil =>
      have hget := get?_set m k v k
      rw [hm, if_pos rfl] at hget
      cases hget
    | cons e m' => rfl
  obtain h | ⟨hne, -⟩ := orWritten_cases h
  · dsimp only at h
    split_ifs at h with htruthy
    · cases h
      exact .inl ⟨by simpa using htruthy, rfl⟩
    · cases hwritten : f.property "non_additive_dimension" with
      | map m =>
        rw [hwritten] at h htruthy
        obtain ⟨name, hname, h⟩ := of_bind h
        have hget := get_of_get? (need_eq_ok.mp hname)
        cases name with
        | text n =>
          dsimp only at h
          rw [pure_bind] at h
          have hem : m.isEmpty = false := by simpa [Value.truthy] using htruthy
          refine .inr ⟨m, ?_⟩
          rw [get_set, if_neg (show "name" ≠ "window_groupings" by decide)] at h
          split_ifs at h with hgs
          · obtain ⟨items, hitems, h⟩ := of_bind h
            obtain ⟨qualified, hqualified, h⟩ := of_bind h
            cases h
            refine ⟨_, rfl, rfl, ⟨hem, hset _ _ _⟩, ⟨n, hget, by simp⟩, fun k hk => ?_, .inr ?_⟩
            · simp only [mem_cons, not_mem_nil, or_false, not_or] at hk
              rw [get?_set, if_neg (Ne.symm hk.2), get?_set, if_neg (Ne.symm hk.1)]
            · rw [get?_set, qualified_eq _ hqualified, groupings, hitems]
              rfl
          · cases h
            refine ⟨_, rfl, rfl, ⟨hem, hset _ _ _⟩, ⟨n, hget, by simp⟩, fun k hk => ?_, .inl ?_⟩
            · simp only [mem_cons, not_or] at hk
              rw [get?_set, if_neg (Ne.symm hk.1)]
            · exact ⟨by rw [get?_set, if_neg (by decide)], by simpa using hgs⟩
        | _ => cases h
      | _ =>
        rw [hwritten] at h
        cases h
  · refine absurd hne ?_
    dsimp only
    split_ifs
    · exact fun h => nomatch h
    · split
      · exact fun h => nomatch h
      · next m hm =>
        refine bind_ne_error ?_ fun name _ => ?_
        · unfold Definition.need
          split <;> exact fun h => nomatch h
        · cases name with
          | text n =>
            dsimp only
            rw [pure_bind]
            split_ifs
            · refine bind_ne_error ?_ fun items _ => bind_ne_error (mapM_ne_error fun g => ?_) ?_
              · unfold Value.iterate
                split <;> exact fun h => nomatch h
              · refine bind_ne_error ?_ fun _ _ h => nomatch h
                unfold Value.needText
                split <;> exact fun h => nomatch h
              · exact fun _ _ h => nomatch h
            · exact fun h => nomatch h
          | _ => exact fun h => nomatch h

end Field

namespace Store

variable {p : Store} {f : Field} {asked : Option Model} {name : String} {view : Option String}

/-- What the fields on all shelves say of a non-additive dimension has a property. -/
def Declares (Q : Value → Prop) (p : Store) : Prop :=
  ∀ s ∈ p.shelves, ∀ d ∈ s.fields, Q (d.get "non_additive_dimension")

theorem Declares.of_fieldsOn (h : p.Declares Q) {i : Nat} {d : Definition} (hd : d ∈ p.fieldsOn i) :
    Q (d.get "non_additive_dimension") := by
  obtain ⟨s, hs, hd⟩ := exists_of_mem_fieldsOn hd
  exact h s hs d hd

theorem stems_of_listFields {v : View} {fs : List Field} (h : p.listFields v = .ok fs)
    (hf : f ∈ fs) : f.view = v ∧ ∃ d ∈ p.fieldsOn v.shelf, f.Stems d := by
  refine ⟨(chosen_of_listFields h hf).1, ?_⟩
  obtain ⟨d, hd, -, g, hg, hfg⟩ := mem_listFields h hf
  have hstem : g.Stems d := by
    refine ⟨?_, ?_⟩
    · rw [nameOf_of_make hg, nameOf, get_set, if_neg (by decide), nameOf]
    · rw [get_of_make hg (by decide), get_set, if_neg (by decide)]
  refine ⟨d, hd, ?_⟩
  split_ifs at hfg
  · obtain ⟨gs, hgs, hf⟩ := hfg
    exact hstem.expand hgs hf
  · subst hfg
    exact hstem

/-- **A field that is looked up stems from what is written on the shelf of its view**; only the
number of rows of a view is not written, and has no window. -/
theorem stems_of_getField (h : p.seen.getField name view asked = .ok f) : p.Opens f.view ∧
    (f.property "non_additive_dimension" = .null ∨ ∃ d ∈ p.fieldsOn f.view.shelf, f.Stems d) := by
  obtain ⟨own, given, all, -, hall, ⟨g, hg, hmt⟩ | ⟨-, n, v, -, hv, h⟩⟩ := Project.getField_eq_ok h
  · obtain ⟨views, v, listed, g0, hvs, hv, -, hls, hg0, hview, -, hwin, hag⟩ :=
      Project.mem_fields hall hg
    obtain ⟨hview0, d, hd, hstem⟩ := stems_of_listFields hls hg0
    have hf : f.view = g.view ∧ f.definition = g.definition := by
      obtain ⟨rfl, -⟩ | ⟨-, -, -, -, rfl⟩ := matching?_eq_some hmt
      · exact ⟨rfl, rfl⟩
      · exact ⟨rfl, rfl⟩
    rw [hf.1, hview, hview0]
    refine ⟨opens_of_mem_listViews (v := v) hvs hv, .inr ⟨d, hd, ?_, ?_⟩⟩
    · rw [← hstem.name, property, hf.2, hag.get (by decide), property]
    · rw [← hstem.window, ← hwin, property, hf.2, property]
  · obtain ⟨views, hvs, hmem, -⟩ := Project.mem_of_getView hv
    obtain ⟨d, -, rfl⟩ := make_eq_ok h
    exact ⟨opens_of_mem_listViews hvs hmem, .inl (get_of_make h (by decide))⟩

theorem Declares.getField (h : p.Declares Q) (hnl : Q .null)
    (hf : p.seen.getField name view asked = .ok f) : Q (f.property "non_additive_dimension") := by
  obtain ⟨-, hnone | ⟨d, hd, hstem⟩⟩ := stems_of_getField hf
  · rwa [hnone]
  · rw [hstem.window]
    exact h.of_fieldsOn hd

end Store

end SemanticLayer
