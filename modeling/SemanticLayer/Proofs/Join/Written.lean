import SemanticLayer.Proofs.Join.Identifiers

/-!
# Arcs that are written out

The arcs that identifiers of type join write out are gathered in a table; the last one written stays
(`IsFor.put`).  It has an entry exactly where an arc is offered, the best one where at most one
identifier relates any two views (`references_meets`).
-/

namespace SemanticLayer

open Result List Definition Relationship

variable {data i : Definition} {on on' : Value} {r r' : Relationship} {u v v' : String}
  {views : List View}

variable {identifier : Definition}

/-! ### Relationships -/

namespace Relationship

theorem name_inj (h : r.name = r'.name) : r = r' := by
  cases r <;> cases r' <;> first | rfl | (revert h; decide)

theorem idxOf_all (r : Relationship) : all.idxOf r + 1 = r.weight := by
  cases r <;> decide

theorem ofValue?_eq_some {v : Value} : ofValue? v = some r ↔ v = .text r.name := by
  constructor
  · intro h
    cases v with
    | text s =>
      have hn : r.name = s := by simpa using List.find?_some h
      rw [hn]
    | _ => cases h
  · rintro rfl
    cases r <;> rfl

theorem read_eq_ok {v : Value} : read v = .ok r ↔ ofValue? v = some r := by
  unfold read
  cases ofValue? v with
  | none => cases v <;> simp [malformed]
  | some r' => simp

theorem weight_invert_le (h : r.invert.isFanout = false) : r.invert.weight ≤ r.weight := by
  revert h
  cases r <;> decide

end Relationship

namespace JoinGraph

/-! ### Data of arcs -/

/-- The data of an arc say a relationship, with its weight, and a condition. -/
structure Tells (data : Definition) (r : Relationship) (on : Value) : Prop where
  relationship : data.get? "relationship" = some (.text r.name)
  weight : data.get? "weight" = some (.int r.weight)
  condition : data.get? "sql_on" = some on

theorem Tells.unique (h : Tells data r on) (h' : Tells data r' on') : r = r' ∧ on = on' := by
  have hn := h.relationship.symm.trans h'.relationship
  have hon := h.condition.symm.trans h'.condition
  simp only [Option.some.injEq, Value.text.injEq] at hn hon
  exact ⟨name_inj hn, hon⟩

theorem Tells.merge (h : Tells data r on)
    (hda : (data.map (·.1)).Nodup) (old : Definition) : Tells (old.merge data) r on :=
  ⟨get?_merge_of_nodup hda old h.relationship, get?_merge_of_nodup hda old h.weight,
    get?_merge_of_nodup hda old h.condition⟩

/-! ### Arcs that are written out -/

structure RefersTo (identifier : Definition) (view : String) (r : Relationship) (on : Value) :
    Prop where
  kind : (identifier.get "type").isTextOf "join" = true
  reference : (identifier.get "reference").plain = view
  relationship : Relationship.ofValue? (identifier.get "relationship") = some r
  condition : identifier.get? "sql_on" = some on

theorem RefersTo.unique (h : RefersTo identifier v r on) (h' : RefersTo identifier v' r' on') :
    v = v' ∧ r = r' ∧ on = on' :=
  ⟨h.reference.symm.trans h'.reference, Option.some.inj (h.relationship.symm.trans h'.relationship),
    Option.some.inj (h.condition.symm.trans h'.condition)⟩

/-- Among identifiers, each given with its view, one of type join offers an arc: as it is written,
and backwards unless that repeats rows. -/
inductive Written (ids : List (String × Definition)) (u v : String) : Relationship → Value → Prop
  | forwards {i : Definition} {r : Relationship} {on : Value} (hi : (u, i) ∈ ids)
      (hrefers : RefersTo i v r on) : Written ids u v r on
  | backwards {i : Definition} {r : Relationship} {on : Value} (hi : (v, i) ∈ ids)
      (hrefers : RefersTo i u r on) (honce : r.invert.isFanout = false) :
      Written ids u v r.invert on

/-- Two identifiers of type join relate the same views. -/
def RelateSame (e e' : String × Definition) : Prop :=
  (e.2.get "type").isTextOf "join" = true ∧ (e'.2.get "type").isTextOf "join" = true ∧
    (e.1 = e'.1 ∧ (e.2.get "reference").plain = (e'.2.get "reference").plain ∨
      e.1 = (e'.2.get "reference").plain ∧ (e.2.get "reference").plain = e'.1)

/-- At most one identifier of type join relates any two views. -/
def AreSingle (ids : List (String × Definition)) : Prop :=
  ids.Pairwise fun e e' => ¬ RelateSame e e'

instance (e e' : String × Definition) : Decidable (RelateSame e e') := by
  unfold RelateSame
  infer_instance

instance (ids : List (String × Definition)) : Decidable (AreSingle ids) := by
  unfold AreSingle
  infer_instance

/-- The table holds one entry wherever arcs are offered, and it is an offer; where it has to be the
best one, no other is preferred. -/
structure References.IsFor (table : References) (best : Prop)
    (offered : String → String → Relationship → Value → Prop) : Prop where
  nodup : (table.map fun e => (e.1, e.2.1)).Nodup
  sound : ∀ e ∈ table, ∃ r on, offered e.1 e.2.1 r on ∧ Tells e.2.2 r on ∧
    (best → ∀ r' on', offered e.1 e.2.1 r' on' → r.weight ≤ r'.weight)
  complete : ∀ u v r on, offered u v r on → ∃ data, (u, v, data) ∈ table

namespace References

variable {table : References} {best : Prop}
  {offered : String → String → Relationship → Value → Prop}

theorem mem_put {e : String × String × Definition} :
    e ∈ table.put u v data ↔ e = (u, v, data) ∨ e ∈ table ∧ ¬ (e.1 = u ∧ e.2.1 = v) := by
  unfold put
  split_ifs with hany
  · rw [mem_map]
    constructor
    · rintro ⟨e', he', rfl⟩
      by_cases hkey : e'.1 = u ∧ e'.2.1 = v
      · simp [hkey]
      · simp [hkey, he']
    · rintro (rfl | ⟨he, hkey⟩)
      · obtain ⟨e', he', hkey⟩ := any_eq_true.mp hany
        exact ⟨e', he', by rw [if_pos hkey]⟩
      · exact ⟨e, he, by rw [if_neg (by simpa using hkey)]⟩
  · rw [mem_append, mem_singleton]
    have hno : e ∈ table → ¬ (e.1 = u ∧ e.2.1 = v) := fun he hkey =>
      hany (any_eq_true.mpr ⟨e, he, by simpa using hkey⟩)
    tauto

theorem nodup_put (h : (table.map fun e => (e.1, e.2.1)).Nodup) (u v : String)
    (data : Definition) : ((table.put u v data).map fun e => (e.1, e.2.1)).Nodup := by
  unfold put
  split_ifs with hany
  · have hks : ∀ e : String × String × Definition,
        ((if e.1 == u && e.2.1 == v then (u, v, data) else e).1,
          (if e.1 == u && e.2.1 == v then (u, v, data) else e).2.1) = (e.1, e.2.1) := by
      intro e
      split_ifs with hkey
      · simp only [Bool.and_eq_true, beq_iff_eq] at hkey
        rw [hkey.1, hkey.2]
      · rfl
    rw [map_map]
    simpa only [Function.comp_def, hks] using h
  · rw [map_append, nodup_append]
    refine ⟨h, nodup_singleton _, ?_⟩
    rintro a ha b hb rfl
    obtain ⟨e, he, rfl⟩ := mem_map.mp ha
    rw [map_singleton, mem_singleton, Prod.mk.injEq] at hb
    exact hany (any_eq_true.mpr ⟨e, he, by simpa using hb⟩)

theorem IsFor.congr {offered' : String → String → Relationship → Value → Prop}
    (h : table.IsFor best offered) (hiff : ∀ u v r on, offered u v r on ↔ offered' u v r on) :
    table.IsFor best offered' := by
  have heq : offered = offered' := by
    funext u v r on
    exact propext (hiff u v r on)
  exact heq ▸ h

theorem IsFor.put (h : table.IsFor best offered) (htel : Tells data r on)
    (hbest : best → ∀ r' on', offered u v r' on' → r.weight ≤ r'.weight) :
    (table.put u v data).IsFor best fun u' v' r' on' =>
      offered u' v' r' on' ∨ u' = u ∧ v' = v ∧ r' = r ∧ on' = on where
  nodup := nodup_put h.nodup u v data
  sound := by
    intro e he
    rcases mem_put.mp he with rfl | ⟨he, hkey⟩
    · refine ⟨r, on, Or.inr ⟨rfl, rfl, rfl, rfl⟩, htel, fun hb r' on' hr' => ?_⟩
      rcases hr' with hr' | ⟨-, -, rfl, -⟩
      · exact hbest hb r' on' hr'
      · exact Nat.le_refl _
    · obtain ⟨r0, on0, hoff, htel0, hle⟩ := h.sound e he
      refine ⟨r0, on0, Or.inl hoff, htel0, fun hb r' on' hr' => ?_⟩
      rcases hr' with hr' | ⟨hu, hv, -⟩
      · exact hle hb r' on' hr'
      · exact absurd ⟨hu, hv⟩ hkey
  complete := by
    intro u' v' r' on' hr'
    by_cases hkey : u' = u ∧ v' = v
    · obtain ⟨rfl, rfl⟩ := hkey
      exact ⟨data, mem_put.mpr (Or.inl rfl)⟩
    · rcases hr' with hr' | ⟨hu, hv, -⟩
      · obtain ⟨d, hd⟩ := h.complete u' v' r' on' hr'
        exact ⟨d, mem_put.mpr (Or.inr ⟨hd, hkey⟩)⟩
      · exact absurd ⟨hu, hv⟩ hkey

end References

structure IsLegible (identifier : Definition) : Prop where
  typed : identifier.has "type" = true
  refers : (identifier.get "type").isTextOf "join" = true →
    identifier.has "reference" = true ∧ ∃ v r on, RefersTo identifier v r on

theorem explicitData_meets (hr : Relationship.ofValue? (identifier.get "relationship") = some r) :
    Result.Meets (explicitData identifier) (∃ on, identifier.get? "sql_on" = some on) fun data =>
      ∀ on, identifier.get? "sql_on" = some on → Tells data r on := by
  have htx := ofValue?_eq_some.mp hr
  have hget : identifier.get? "relationship" = some (.text r.name) := by
    cases hget : identifier.get? "relationship" with
    | none => simp [Definition.get, hget] at htx
    | some v => simpa [Definition.get, hget] using htx
  have hrd : read (.text r.name) = .ok r :=
    read_eq_ok.mpr (ofValue?_eq_some.mpr rfl)
  unfold explicitData
  rw [hget]
  constructor
  · rintro ⟨on, hon⟩
    exact ⟨_, bind_eq_ok.mpr ⟨on, need_eq_ok.mpr hon, bind_eq_ok.mpr ⟨r, hrd, rfl⟩⟩⟩
  · intro data h
    obtain ⟨on, hon, h⟩ := of_bind h
    obtain ⟨r', hr', h⟩ := of_bind h
    cases hrd.symm.trans hr'
    cases h
    rw [need_eq_ok] at hon
    refine ⟨⟨on, hon⟩, fun on' hon' => ?_⟩
    cases hon.symm.trans hon'
    exact ⟨by simp, by simp, by simp⟩

theorem written_singleton (h : RefersTo i v r on) {u' : String} :
    Written [(u, i)] u' v' r' on' ↔ (u' = u ∧ v' = v ∧ r' = r ∧ on' = on) ∨
      (r.invert.isFanout = false ∧ u' = v ∧ v' = u ∧ r' = r.invert ∧ on' = on) := by
  constructor
  · intro hw
    cases hw with
    | forwards hi href =>
      rw [mem_singleton] at hi
      obtain ⟨rfl, rfl⟩ := hi
      obtain ⟨rfl, rfl, rfl⟩ := h.unique href
      exact Or.inl ⟨rfl, rfl, rfl, rfl⟩
    | backwards hi href honce =>
      rw [mem_singleton] at hi
      obtain ⟨rfl, rfl⟩ := hi
      obtain ⟨rfl, rfl, rfl⟩ := h.unique href
      exact Or.inr ⟨honce, rfl, rfl, rfl, rfl⟩
  · rintro (⟨rfl, rfl, rfl, rfl⟩ | ⟨honce, rfl, rfl, rfl, rfl⟩)
    · exact .forwards (mem_singleton.mpr rfl) h
    · exact .backwards (mem_singleton.mpr rfl) h honce

theorem has_of_isJoin {b : Bool} (h : isJoin i = .ok b) : i.has "type" = true := by
  obtain ⟨v, hv, -⟩ := of_bind h
  exact has_of_get? (need_eq_ok.mp hv)

theorem isLegible_of_referenceStep {table table' : References}
    (h : referenceStep u table i = .ok table') : IsLegible i := by
  unfold referenceStep at h
  obtain ⟨b, hb, h⟩ := of_bind h
  refine ⟨has_of_isJoin hb, fun hj => ?_⟩
  rw [isJoin_eq_ok hb, hj] at h
  obtain ⟨value, hval, h⟩ := of_bind h
  obtain ⟨r, hr, h⟩ := of_bind h
  obtain ⟨other, hot, h⟩ := of_bind h
  obtain ⟨data, hda, -⟩ := of_bind h
  have hrd : ofValue? (i.get "relationship") = some r := by
    rw [get_of_get? (need_eq_ok.mp hval)]
    exact read_eq_ok.mp hr
  obtain ⟨⟨on, hon⟩, -⟩ := (explicitData_meets hrd).only data hda
  exact ⟨has_of_get? (need_eq_ok.mp hot), _, r, on, hj, rfl, hrd, hon⟩

theorem isJoin_of_has (h : i.has "type" = true) :
    isJoin i = .ok ((i.get "type").isTextOf "join") := by
  obtain ⟨v, hv⟩ := exists_of_has h
  rw [get_of_get? hv]
  exact bind_eq_ok.mpr ⟨v, need_eq_ok.mpr hv, rfl⟩

theorem referenceStep_of_refersTo (href : RefersTo i v r on) (htyped : i.has "type" = true)
    (hrefd : i.has "reference" = true) (u : String) (table : References) :
    ∃ data back, Tells data r on ∧ Tells back r.invert on ∧ referenceStep u table i = .ok
      (if r.invert.isFanout then table.put u v data
        else (table.put u v data).put v u back) := by
  have hinverse : ofValue?
      ((i.set "relationship" (.text r.invert.name)).get "relationship") = some r.invert := by
    rw [get_set]
    exact ofValue?_eq_some.mpr rfl
  have hon : (i.set "relationship" (.text r.invert.name)).get? "sql_on" = some on := by
    rw [Definition.get?_set]
    exact href.condition
  obtain ⟨data, hda⟩ := (explicitData_meets href.relationship).succeeds ⟨on, href.condition⟩
  obtain ⟨back, hback⟩ := (explicitData_meets hinverse).succeeds ⟨on, hon⟩
  have htel := ((explicitData_meets href.relationship).only data hda).2 on href.condition
  refine ⟨data, back, htel, ((explicitData_meets hinverse).only back hback).2 on hon, ?_⟩
  obtain ⟨reference, hrefd⟩ := exists_of_has hrefd
  have hval : i.get? "relationship" = some (.text r.name) :=
    Definition.get?_of_get (ofValue?_eq_some.mp href.relationship)
  have hv : reference.plain = v := by
    rw [← href.reference, get_of_get? hrefd]
  unfold referenceStep
  refine bind_eq_ok.mpr ⟨true, href.kind ▸ isJoin_of_has htyped, ?_⟩
  rw [if_neg (by simp)]
  refine bind_eq_ok.mpr ⟨_, need_eq_ok.mpr hval, ?_⟩
  refine bind_eq_ok.mpr ⟨r, read_eq_ok.mpr
    (ofValue?_eq_some.mpr rfl), ?_⟩
  refine bind_eq_ok.mpr ⟨reference, need_eq_ok.mpr hrefd, ?_⟩
  refine bind_eq_ok.mpr ⟨data, hda, ?_⟩
  rw [hv]
  split_ifs
  · rfl
  · exact bind_eq_ok.mpr ⟨back, hback, rfl⟩

/-- **An identifier adds the arcs it offers to the table**, provided that no others are there where
the best ones are wanted. -/
theorem referenceStep_meets {table : References} {best : Prop}
    {offered : String → String → Relationship → Value → Prop} (h : table.IsFor best offered)
    (hnew : best → ∀ v r on, RefersTo i v r on →
      ∀ r' on', ¬ offered u v r' on' ∧ ¬ offered v u r' on') :
    Result.Meets (referenceStep u table i) (IsLegible i) fun table' =>
      table'.IsFor best fun u' v' r on => offered u' v' r on ∨ Written [(u, i)] u' v' r on := by
  refine .of_run (fun hlegible => ?_) fun _ => isLegible_of_referenceStep
  by_cases hj : (i.get "type").isTextOf "join" = true
  · obtain ⟨hrefd, v, r, on, href⟩ := hlegible.refers hj
    obtain ⟨data, back, htel, hback, hrun⟩ :=
      referenceStep_of_refersTo href hlegible.typed hrefd u table
    refine ⟨_, hrun, ?_⟩
    have hforwards := h.put htel fun hb r' on' hr' =>
      absurd hr' (hnew hb v r on href r' on').1
    split_ifs with hfan
    · refine hforwards.congr fun u' v' r' on' => ?_
      simp [written_singleton href, hfan]
    · rw [Bool.not_eq_true] at hfan
      refine (hforwards.put hback fun hb r' on' hr' => ?_).congr fun u' v' r' on' => ?_
      · rcases hr' with hr' | ⟨-, -, rfl, -⟩
        · exact absurd hr' (hnew hb v r on href r' on').2
        · -- an identifier that refers to its own view
          exact weight_invert_le hfan
      · simp [written_singleton href, hfan, or_assoc]
  · refine ⟨table, ?_, h.congr fun u' v' r on => ?_⟩
    · exact bind_eq_ok.mpr ⟨_, isJoin_of_has hlegible.typed, by rw [if_pos (by simpa using hj)]; rfl⟩
    · refine ⟨Or.inl, fun hr => hr.resolve_right fun hw => hj ?_⟩
      cases hw with
      | forwards hi href =>
        rw [mem_singleton, Prod.mk.injEq] at hi
        exact hi.2 ▸ href.kind
      | backwards hi href _ =>
        rw [mem_singleton, Prod.mk.injEq] at hi
        exact hi.2 ▸ href.kind

def owned (views : List View) : List (String × Definition) :=
  views.flatMap fun v => ((identifiers v).toOption.getD []).map fun i => (v.name, i)

def AreListed (views : List View) : Prop := ∀ v ∈ views, ∃ ids, identifiers v = .ok ids

theorem mem_owned :
    (u, i) ∈ owned views ↔ ∃ v ∈ views, v.name = u ∧ ∃ ids, identifiers v = .ok ids ∧ i ∈ ids := by
  have hli : ∀ v, i ∈ (identifiers v).toOption.getD [] ↔
      ∃ ids, identifiers v = .ok ids ∧ i ∈ ids := by
    intro v
    cases identifiers v <;> simp [Except.toOption]
  simp [owned, hli, and_comm]

theorem references_eq (hids : AreListed views) :
    references views = (owned views).foldlM (fun table e => referenceStep e.1 table e.2) [] := by
  have hrun : ∀ table : References,
      views.foldlM (fun table v => do (← identifiers v).foldlM (referenceStep v.name) table) table
        = (owned views).foldlM (fun table e => referenceStep e.1 table e.2) table := by
    induction views with
    | nil => exact fun _ => rfl
    | cons v views ih =>
      intro table
      obtain ⟨ids, hv⟩ := hids v (by simp)
      have hcons : owned (v :: views) = ids.map (fun i => (v.name, i)) ++ owned views := by
        simp [owned, hv, Except.toOption]
      rw [foldlM_cons, hcons, foldlM_append, List.foldlM_map, hv]
      exact congrArg _ (funext (ih fun w hw => hids w (by simp [hw])))
  exact hrun []

theorem written_append {ids ids' : List (String × Definition)}
    : Written (ids ++ ids') u v r on ↔ Written ids u v r on ∨ Written ids' u v r on := by
  constructor
  · intro h
    cases h with
    | forwards hi href =>
      exact (mem_append.mp hi).imp (.forwards · href) (.forwards · href)
    | backwards hi href honce =>
      exact (mem_append.mp hi).imp (.backwards · href honce) (.backwards · href honce)
  · rintro (h | h)
    · cases h with
      | forwards hi href => exact .forwards (mem_append_left _ hi) href
      | backwards hi href honce => exact .backwards (mem_append_left _ hi) href honce
    · cases h with
      | forwards hi href => exact .forwards (mem_append_right _ hi) href
      | backwards hi href honce => exact .backwards (mem_append_right _ hi) href honce

theorem Written.exists_relateSame {ids : List (String × Definition)} (href : RefersTo i v r on)
    (h : Written ids u v r' on' ∨ Written ids v u r' on') : ∃ e ∈ ids, RelateSame e (u, i) := by
  rcases h with h | h
  · cases h with
    | @forwards j _ _ hj hj' =>
      exact ⟨(u, j), hj, hj'.kind, href.kind, Or.inl ⟨rfl, hj'.reference.trans href.reference.symm⟩⟩
    | @backwards j _ _ hj hj' _ =>
      exact ⟨(v, j), hj, hj'.kind, href.kind, Or.inr ⟨href.reference.symm, hj'.reference⟩⟩
  · cases h with
    | @forwards j _ _ hj hj' =>
      exact ⟨(v, j), hj, hj'.kind, href.kind, Or.inr ⟨href.reference.symm, hj'.reference⟩⟩
    | @backwards j _ _ hj hj' _ =>
      exact ⟨(u, j), hj, hj'.kind, href.kind, Or.inl ⟨rfl, hj'.reference.trans href.reference.symm⟩⟩

theorem references_meets (hids : AreListed views) :
    Result.Meets (references views) (∀ e ∈ owned views, IsLegible e.2) fun table =>
      table.IsFor (AreSingle (owned views)) (Written (owned views)) := by
  rw [references_eq hids]
  have hem : References.IsFor [] (AreSingle (owned views)) (Written []) := by
    refine ⟨nodup_nil, fun e he => absurd he not_mem_nil, fun u v r on h => ?_⟩
    cases h with
    | forwards hi _ => cases hi
    | backwards hi _ _ => cases hi
  refine .foldlM (P := fun done (table : References) =>
    table.IsFor (AreSingle (owned views)) (Written done)) hem
    fun done e rest table hsp htab => ?_
  have hs := referenceStep_meets htab (u := e.1) (i := e.2) fun hsg v r on href => by
    have hno : ∀ e' ∈ done, ¬ RelateSame e' e := by
      unfold AreSingle at hsg
      rw [hsp] at hsg
      exact fun e' he' => (pairwise_append.mp hsg).2.2 e' he' e (by simp)
    refine fun r' on' => ⟨fun hw => ?_, fun hw => ?_⟩
    · obtain ⟨e', he', hsm⟩ := Written.exists_relateSame href (Or.inl hw)
      exact hno e' he' hsm
    · obtain ⟨e', he', hsm⟩ := Written.exists_relateSame href (Or.inr hw)
      exact hno e' he' hsm
  refine ⟨hs.succeeds, fun table' hrun => ?_⟩
  obtain ⟨hlegible, hfor⟩ := hs.only table' hrun
  exact ⟨hlegible, hfor.congr fun u v r on => written_append.symm⟩

end JoinGraph

end SemanticLayer
