import SemanticLayer.Proofs.Join.Graph

/-!
# Join graphs of plain identifiers

Where no identifier is of type join and none allows repeated rows, every arc is a left outer join to
a primary key, on the equation of two identifiers of one name (`build_isPlain`).
-/

namespace SemanticLayer

open Result Definition

variable {data identifier first : Definition} {views : List View} {r : Relationship}

theorem Relationship.eq_primary_of_derive {base join : Value}
    (h : Relationship.derive base join = .ok r) (hr : r.isFanout = false) :
    join = .text "primary" := by
  unfold Relationship.derive at h
  split at h
  · rfl
  · rfl
  · cases h
    cases hr
  · cases h
    cases hr
  · cases h

namespace JoinGraph

/-- An identifier as it is by default: it joins views by its name, and no repeated rows are
allowed. -/
structure IsPlain (identifier : Definition) : Prop where
  byName : (identifier.get "type").isTextOf "join" = false
  once : identifier.has "allowed_fanouts" = false

def ArePlain (views : List View) : Prop :=
  ∀ v ∈ views, ∀ ids, identifiers v = .ok ids → ∀ i ∈ ids, IsPlain i

instance (identifier : Definition) : Decidable (IsPlain identifier) :=
  decidable_of_iff ((identifier.get "type").isTextOf "join" = false ∧
    identifier.has "allowed_fanouts" = false)
    ⟨fun h => ⟨h.1, h.2⟩, fun h => ⟨h.byName, h.once⟩⟩

instance (views : List View) : Decidable (ArePlain views) :=
  decidable_of_iff (∀ v ∈ views, ∀ ids ∈ (identifiers v).toOption, ∀ i ∈ ids, IsPlain i) <| by
    have hok : ∀ (v : View) ids, ids ∈ (identifiers v).toOption ↔ identifiers v = .ok ids := by
      intro v ids
      cases identifiers v <;> simp [Except.toOption]
    simp only [ArePlain, hok]

def IsSide (views : List View) (view : String) (identifier : Definition) (text : String) : Prop :=
  ∃ v ∈ views, v.name = view ∧ ∃ ids, identifiers v = .ok ids ∧ identifier ∈ ids ∧
    clause identifier view = .ok text

/-- A left outer join by two identifiers, the second a primary key. -/
structure IsKeyJoin (views : List View) (u v : String) (data : Definition) : Prop where
  kind : data.get? "type" = some (.text "left_outer")
  relation : ∃ r : Relationship, r.isFanout = false ∧
    data.get? "relationship" = some (.text r.name)
  condition : ∃ first second a b, IsSide views u first a ∧ IsSide views v second b ∧
    second.get "type" = .text "primary" ∧ data.get? "sql_on" = some (.text (a ++ "=" ++ b))

/-! ### Without written arcs -/

theorem isJoin_eq_ok {b : Bool} (h : isJoin identifier = .ok b) :
    b = (identifier.get "type").isTextOf "join" := by
  unfold isJoin at h
  obtain ⟨v, hv, h⟩ := of_bind h
  cases h
  simp [Definition.get, need_eq_ok.mp hv]

theorem referenceStep_of_isPlain {view : String} {table table' : References}
    (hpl : IsPlain identifier)
    (h : referenceStep view table identifier = .ok table') : table' = table := by
  unfold referenceStep at h
  obtain ⟨b, hb, h⟩ := of_bind h
  rw [isJoin_eq_ok hb, hpl.byName] at h
  cases h
  rfl

theorem references_of_arePlain {table : References} (hpl : ArePlain views)
    (h : references views = .ok table) : table = [] := by
  refine foldlM_induct (P := fun t : References => t = []) views h rfl ?_
  intro t v t' hv ht hs
  obtain ⟨ids, hids, hs⟩ := of_bind hs
  refine foldlM_induct (P := fun t : References => t = []) ids hs ht ?_
  intro t i t' hi ht hs
  rw [referenceStep_of_isPlain (hpl v hv ids hids i hi) hs]
  exact ht

/-! ### Arcs of two identifiers -/

theorem not_allowsFanout (hpl : IsPlain identifier) (view : String) :
    allowsFanout identifier view ≠ .ok true := by
  have hno : identifier.get? "allowed_fanouts" = none := by
    have honce := hpl.once
    rw [has_eq_isSome] at honce
    simpa using honce
  unfold allowsFanout
  rw [hno]
  intro h
  cases h

theorem matchData_eq_ok {second : Definition} {u v : String}
    (h : matchData first u second v = .ok (r, data)) :
    ∃ base join a b, first.get? "type" = some base ∧ second.get? "type" = some join ∧
      Relationship.derive base join = .ok r ∧ clause first u = .ok a ∧ clause second v = .ok b ∧
      data = [("relationship", .text r.name), ("type", .text "left_outer"),
        ("sql_on", .text (a ++ "=" ++ b)), ("weight", .int r.weight)] := by
  unfold matchData at h
  obtain ⟨base, hbase, h⟩ := of_bind h
  obtain ⟨join, hj, h⟩ := of_bind h
  obtain ⟨r', hr, h⟩ := of_bind h
  obtain ⟨a, ha, h⟩ := of_bind h
  obtain ⟨b, hb, h⟩ := of_bind h
  cases h
  exact ⟨base, join, a, b, need_eq_ok.mp hbase, need_eq_ok.mp hj, hr, ha,
    hb, rfl⟩

theorem get?_merge_of_nodup (hda : (data.map (·.1)).Nodup) (old : Definition)
    {k : String} {x : Value} (hx : data.get? k = some x) : (old.merge data).get? k = some x := by
  have hmem := mem_of_get? hx
  refine Definition.get?_merge old data k x (fun y hy => ?_) (Or.inl ⟨x, hmem⟩)
  have hsm := List.inj_on_of_nodup_map hda hy hmem rfl
  exact congrArg Prod.snd hsm

theorem IsKeyJoin.merge {u v : String}
    (h : IsKeyJoin views u v data) (hda : (data.map (·.1)).Nodup) (old : Definition) :
    IsKeyJoin views u v (old.merge data) := by
  have hget : ∀ {k : String} {x : Value}, data.get? k = some x →
      (old.merge data).get? k = some x := get?_merge_of_nodup hda old
  obtain ⟨r, hr, hrel⟩ := h.relation
  obtain ⟨first, second, a, b, hfst, hsnd, hpri, hcnd⟩ := h.condition
  exact ⟨hget h.kind, ⟨r, hr, hget hrel⟩, ⟨first, second, a, b, hfst, hsnd, hpri, hget hcnd⟩⟩

theorem IsMatch.isKeyJoin {v : View} {other : String} (h : IsMatch views v first other data)
    (hv : v ∈ views) {ids : List Definition} (hids : identifiers v = .ok ids) (hfst : first ∈ ids)
    (hpl : IsPlain first) :
    IsKeyJoin views v.name other data ∧ (data.map (·.1)).Nodup := by
  obtain ⟨-, w, hw, hot, ids', hids', second, hsnd, r, hda, hallowed⟩ := h
  obtain ⟨base, join, a, b, -, hj, hr, ha, hb, rfl⟩ := matchData_eq_ok hda
  have honce : r.isFanout = false := by
    by_contra hrep
    exact not_allowsFanout hpl other (hallowed (by simpa using hrep))
  have hpri : second.get "type" = .text "primary" := by
    simp [Definition.get, hj, Relationship.eq_primary_of_derive hr honce]
  refine ⟨⟨rfl, ⟨r, honce, rfl⟩, first, second, a, b, ?_, ?_, hpri, rfl⟩, by simp⟩
  · exact ⟨v, hv, rfl, ids, hids, hfst, ha⟩
  · exact ⟨w, hw, hot, ids', hids', hsnd, hb⟩

/-- **A join graph of plain identifiers**: no arc leads back to its view, and all are left outer
joins to a primary key. -/
theorem build_isPlain {g : JoinGraph} (hpl : ArePlain views) (h : build views = .ok g) :
    ∀ a ∈ g.graph.arcs, a.source ≠ a.target ∧ IsKeyJoin views a.source a.target a.data := by
  refine build_induct_matches (P := fun g => ∀ a ∈ g.arcs, a.source ≠ a.target ∧
    IsKeyJoin views a.source a.target a.data) ?_ ?_ ?_ ?_ h
  · intro a ha
    simp [Digraph.empty] at ha
  · intro v _ g hg a ha
    exact hg a (by simpa using ha)
  · intro v _ table htab e he
    rw [references_of_arePlain hpl htab] at he
    cases he
  · intro v hv ids hids i hi g other data hmt hg a ha
    obtain ⟨hj, hnd⟩ := hmt.isKeyJoin hv hids hi (hpl v hv ids hids i hi)
    rcases Digraph.mem_addArc_ends ha with ha | ⟨hsrc, htgt, hda⟩
    · exact hg a ha
    · rw [hsrc, htgt]
      refine ⟨hmt.1.symm, ?_⟩
      rcases hda with hda | ⟨old, hda⟩
      · rw [hda]
        exact hj
      · rw [hda]
        exact hj.merge hnd old

end JoinGraph

end SemanticLayer
