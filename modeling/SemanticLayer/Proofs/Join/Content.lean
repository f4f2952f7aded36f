import SemanticLayer.Proofs.Join.Written

/-!
# What a join graph holds

The identifiers of the views offer arcs: one of type join as it is written, and backwards unless
that repeats rows; two of one name where both may be joined to the other's view (`Offers`).  A join
graph has an arc exactly where one is offered, and of several offers a preferred one
(`build_meets`).  All arcs that leave a view are written when its turn comes, each match settled
against the arc that is there (`settle_holds`, `viewStep_meets`).
-/

namespace SemanticLayer.JoinGraph

open Result List Definition SemanticLayer.Digraph View

variable {before g : Digraph String Definition} {best : Prop} {data first i second : Definition}
  {ids : List Definition} {ns : Names} {offered : Relationship → Value → Prop} {on : Value}
  {r : Relationship} {table : References} {u v : String} {views : List View} {w x : View}

variable {o : Option (Arc String Definition)}

/-! ### The best offer -/

/-- Where arcs are offered, one of the preferred ones is there. -/
def Holds (offered : Relationship → Value → Prop) : Option (Arc String Definition) → Prop
  | none => ∀ r on, ¬ offered r on
  | some a => ∃ r on, offered r on ∧ Tells a.data r on ∧
      ∀ r' on', offered r' on' → r.weight ≤ r'.weight

theorem Holds.congr {offered' : Relationship → Value → Prop} (h : Holds offered o)
    (hiff : ∀ r on, offered r on ↔ offered' r on) : Holds offered' o := by
  have heq : offered = offered' := funext fun r => funext fun on => propext (hiff r on)
  exact heq ▸ h

theorem Holds.isSome_iff (h : Holds offered o) : o.isSome = true ↔ ∃ r on, offered r on := by
  cases o with
  | none => simpa [Holds] using h
  | some a =>
    obtain ⟨r, on, hoff, -⟩ := h
    exact ⟨fun _ => ⟨r, on, hoff⟩, fun _ => rfl⟩

theorem isPreferred_of_tells {r' : Relationship}
    (h : Tells data r' on) : isPreferred r data = .ok (decide (r.weight < r'.weight)) := by
  have hrd : Relationship.ofValue? (data.get "relationship") = some r' := by
    rw [Definition.get, h.relationship]
    cases r' <;> rfl
  unfold isPreferred
  rw [hrd]
  rfl

/-- **Settling an offer**: of it and the offers before, a preferred one is kept. -/
theorem settle_holds
    (h : Holds offered (g.arc? u v)) (htel : Tells data r on) (hda : (data.map (·.1)).Nodup) :
    ∃ g', settle g u v r data = .ok g' ∧
      Holds (fun r' on' => offered r' on' ∨ r' = r ∧ on' = on) (g'.arc? u v) ∧
      ∀ u' v', ¬ (u = u' ∧ v = v') → g'.arc? u' v' = g.arc? u' v' := by
  have hot : ∀ u' v', ¬ (u = u' ∧ v = v') →
      (addArc g u v data).arc? u' v' = g.arc? u' v' := fun u' v' hne => by
    rw [addArc, arc?_addArc, if_neg hne]
  have hnew : (addArc g u v data).arc? u v
      = some ⟨u, v, ((g.arc? u v).map fun a => a.data.merge data).getD data⟩ := by
    rw [addArc, arc?_addArc, if_pos ⟨rfl, rfl⟩]
  unfold settle
  cases harc : g.arc? u v with
  | none =>
    rw [harc] at h hnew
    refine ⟨_, rfl, ?_, hot⟩
    rw [hnew]
    refine ⟨r, on, Or.inr ⟨rfl, rfl⟩, htel, fun r' on' hr' => ?_⟩
    rcases hr' with hr' | ⟨rfl, -⟩
    · exact absurd hr' (h r' on')
    · exact Nat.le_refl _
  | some existing =>
    rw [harc] at h hnew
    obtain ⟨r0, on0, hoff, htel0, hle⟩ := h
    dsimp only
    rw [isPreferred_of_tells htel0]
    by_cases hlt : r.weight < r0.weight
    · refine ⟨addArc g u v data, by simp [hlt, bind, Except.bind, pure, Except.pure], ?_, hot⟩
      rw [hnew]
      refine ⟨r, on, Or.inr ⟨rfl, rfl⟩, htel.merge hda _, fun r' on' hr' => ?_⟩
      rcases hr' with hr' | ⟨rfl, -⟩
      · exact Nat.le_trans (Nat.le_of_lt hlt) (hle r' on' hr')
      · exact Nat.le_refl _
    · refine ⟨g, by simp [hlt, bind, Except.bind, pure, Except.pure], ?_, fun _ _ _ => rfl⟩
      rw [harc]
      refine ⟨r0, on0, Or.inl hoff, htel0, fun r' on' hr' => ?_⟩
      rcases hr' with hr' | ⟨rfl, -⟩
      · exact hle r' on' hr'
      · exact Nat.not_lt.mp hlt

/-! ### The arcs that leave a view -/

/-- The arcs that leave a view are the best of those offered; all others are as before. -/
structure LeavesBy (before : Digraph String Definition) (u : String)
    (offered : String → Relationship → Value → Prop) (g : Digraph String Definition) : Prop where
  own : ∀ v, Holds (offered v) (g.arc? u v)
  others : ∀ u' v, u' ≠ u → g.arc? u' v = before.arc? u' v

theorem LeavesBy.congr
    {offered offered' : String → Relationship → Value → Prop} (h : LeavesBy before u offered g)
    (hiff : ∀ v r on, offered v r on ↔ offered' v r on) : LeavesBy before u offered' g :=
  ⟨fun v => (h.own v).congr (hiff v), h.others⟩

/-- An identifier of a view offers an arc by its name. -/
def Offered (views : List View) (x : View) (i : Definition) (v : String) (r : Relationship)
    (on : Value) : Prop :=
  ∃ data, offer views x i v = .ok (some (r, data)) ∧ Tells data r on

theorem matchData_tells (h : matchData first u second v = .ok (r, data)) :
    ∃ a b, clause first u = .ok a ∧ clause second v = .ok b ∧
      Tells data r (.text (a ++ "=" ++ b)) ∧ (data.map (·.1)).Nodup := by
  obtain ⟨_, _, a, b, -, -, -, ha, hb, rfl⟩ := matchData_eq_ok h
  exact ⟨a, b, ha, hb, ⟨rfl, rfl, rfl⟩, by simp⟩

theorem matchStep_meets (views : List View) (i : Definition) (other : String)
    {offered : String → Relationship → Value → Prop} (h : LeavesBy before x.name offered g) :
    Result.Meets (matchStep views x i g other) (∃ o, offer views x i other = .ok o)
      (LeavesBy before x.name fun v r on =>
        offered v r on ∨ v = other ∧ Offered views x i v r on) := by
  refine .of_run ?_ fun g' hrun => ?_
  · rintro ⟨o, ho⟩
    cases o with
    | none =>
      refine ⟨g, bind_eq_ok.mpr ⟨none, ho, rfl⟩, h.congr fun v r on => ?_⟩
      refine ⟨Or.inl, fun hr => hr.resolve_right ?_⟩
      rintro ⟨rfl, data, hda, -⟩
      cases ho.symm.trans hda
    | some offer =>
      obtain ⟨r, data⟩ := offer
      obtain ⟨-, -, w, name, ids, second, -, -, -, -, -, hda, -⟩ := offer_eq_some_iff.mp ho
      obtain ⟨a, b, -, -, htel, hnd⟩ := matchData_tells hda
      obtain ⟨g', hrun, hbest, hoth⟩ := settle_holds (h.own other) htel hnd
      refine ⟨g', bind_eq_ok.mpr ⟨some (r, data), ho, hrun⟩, fun v => ?_, fun u' v hu' => ?_⟩
      · by_cases hv : v = other
        · subst hv
          refine hbest.congr fun r' on' => or_congr_right ⟨?_, ?_⟩
          · rintro ⟨rfl, rfl⟩
            exact ⟨rfl, data, ho, htel⟩
          · rintro ⟨-, data', ho', htel'⟩
            cases ho.symm.trans ho'
            exact htel'.unique htel
        · rw [hoth _ _ fun heq => hv heq.2.symm]
          exact (h.own v).congr fun r' on' => by simp [hv]
      · rw [hoth _ _ fun heq => hu' heq.1.symm]
        exact h.others u' v hu'
  · obtain ⟨o, ho, -⟩ := of_bind hrun
    exact ⟨o, ho⟩

/-- An identifier of a view has a name, and with every view that has one of this name it can be said
what it offers. -/
def CanMatch (views : List View) (names : Names) (x : View) (i : Definition) : Prop :=
  ∃ name, i.get? "name" = some name ∧
    ∀ other ∈ Names.views names.all name.plain, ∃ o, offer views x i other = .ok o

/-- An identifier of a view offers an arc to a view that has one of its name. -/
def Matched (views : List View) (names : Names) (x : View) (i : Definition) (v : String)
    (r : Relationship) (on : Value) : Prop :=
  ∃ name, i.get? "name" = some name ∧ v ∈ Names.views names.all name.plain ∧
    Offered views x i v r on

theorem matches_meets (views : List View) (names : Names) (ids : List Definition)
    {offered : String → Relationship → Value → Prop}
    (h : LeavesBy before x.name offered g) :
    Result.Meets (ids.foldlM (fun g i => do
        let name := (← i.need "name").plain
        (Names.views names.all name).foldlM (matchStep views x i) g) g)
      (∀ i ∈ ids, CanMatch views names x i)
      (LeavesBy before x.name fun v r on =>
        offered v r on ∨ ∃ i ∈ ids, Matched views names x i v r on) := by
  refine .foldlM (P := fun done => LeavesBy before x.name fun v r on =>
    offered v r on ∨ ∃ i ∈ done, Matched views names x i v r on)
    (h.congr fun v r on => by simp) fun done i rest g _ hg => ?_
  have hoth : ∀ name : Value, Result.Meets
      ((Names.views names.all name.plain).foldlM (matchStep views x i) g)
      (∀ other ∈ Names.views names.all name.plain, ∃ o, offer views x i other = .ok o)
      (LeavesBy before x.name fun v r on =>
        (offered v r on ∨ ∃ i ∈ done, Matched views names x i v r on) ∨
          v ∈ Names.views names.all name.plain ∧ Offered views x i v r on) := by
    intro name
    refine .foldlM (P := fun gone => LeavesBy before x.name fun v r on =>
      (offered v r on ∨ ∃ i ∈ done, Matched views names x i v r on) ∨
        v ∈ gone ∧ Offered views x i v r on)
      (hg.congr fun v r on => by simp) fun gone other _ g _ hg => ?_
    have hs := matchStep_meets views i other hg
    refine ⟨hs.succeeds, fun g' hrun => ?_⟩
    obtain ⟨hoffer, hleaves⟩ := hs.only g' hrun
    refine ⟨hoffer, hleaves.congr fun v r on => ?_⟩
    rw [mem_append, mem_singleton, or_and_right, or_assoc]
  refine .of_run ?_ fun g' hrun => ?_
  · rintro ⟨name, hn, hall⟩
    obtain ⟨g', hg'⟩ := (hoth name).succeeds hall
    refine ⟨g', bind_eq_ok.mpr ⟨name, need_eq_ok.mpr hn, hg'⟩,
      ((hoth name).only g' hg').2.congr fun v r on => ?_⟩
    simp only [mem_append, mem_singleton, or_and_right, exists_or, exists_eq_left, or_assoc]
    refine or_congr_right (or_congr_right ⟨fun hv => ⟨name, hn, hv⟩, ?_⟩)
    rintro ⟨name', hn', hv⟩
    cases hn.symm.trans hn'
    exact hv
  · obtain ⟨name, hn, hrun⟩ := of_bind hrun
    exact ⟨name, need_eq_ok.mp hn, ((hoth name).only g' hrun).1⟩

theorem foldl_addArc_arc? {entries : References}
    (hsrc : ∀ e ∈ entries, e.1 = u) (hnd : (entries.map (·.2.1)).Nodup)
    (hfresh : ∀ v, g.arc? u v = none) :
    let g' := entries.foldl (fun g (u, w, d) => addArc g u w d) g
    (∀ v, g'.arc? u v = (entries.find? (·.2.1 == v)).map fun e => ⟨u, v, e.2.2⟩) ∧
      (∀ u' v, u' ≠ u → g'.arc? u' v = g.arc? u' v) := by
  induction entries using List.reverseRecOn with
  | nil => exact ⟨fun v => by simpa using hfresh v, fun _ _ _ => rfl⟩
  | append_singleton entries e ih =>
    obtain ⟨hown, hoth⟩ := ih (fun e he => hsrc e (by simp [he]))
      (by rw [map_append] at hnd; exact (nodup_append.mp hnd).1)
    have he : e.1 = u := hsrc e (by simp)
    have hnew : e.2.1 ∉ entries.map (·.2.1) := by
      rw [map_append, nodup_append] at hnd
      exact fun hmem => hnd.2.2 _ hmem _ (by simp) rfl
    have hno : entries.find? (·.2.1 == e.2.1) = none := by
      rw [List.find?_eq_none]
      exact fun e' he' heq => hnew (mem_map.mpr ⟨e', he', by simpa using heq⟩)
    dsimp only at hown hoth ⊢
    rw [foldl_append, foldl_cons, foldl_nil, he]
    refine ⟨fun v => ?_, fun u' v hu' => ?_⟩
    · rw [addArc, arc?_addArc, List.find?_append]
      by_cases hv : e.2.1 = v
      · subst hv
        rw [hown, hno]
        simp
      · rw [if_neg fun h => hv h.2, hown]
        simp [hv]
    · rw [addArc, arc?_addArc, if_neg fun h => hu' h.1.symm]
      exact hoth u' v hu'

def References.Lists (table : References) (u v : String) (r : Relationship) (on : Value) : Prop :=
  ∃ data, (u, v, data) ∈ table ∧ Tells data r on

theorem written_leavesBy
    {offered : String → String → Relationship → Value → Prop} (h : table.IsFor best offered)
    (hfresh : ∀ v, g.arc? u v = none) : LeavesBy g u (table.Lists u)
      ((table.filter (·.1 == u)).foldl (fun g (u, w, d) => addArc g u w d) g) := by
  have hsrc : ∀ e ∈ table.filter (·.1 == u), e.1 = u := fun e he => by
    simpa using (mem_filter.mp he).2
  have hnd : ((table.filter (·.1 == u)).map (·.2.1)).Nodup := by
    have hks : ((table.filter (·.1 == u)).map fun e => (e.1, e.2.1)).Nodup :=
      (filter_sublist.map _).nodup h.nodup
    refine List.Nodup.of_map (fun v => (u, v)) ?_
    rw [map_map]
    convert hks using 1
    exact map_congr_left fun e he => by simp [hsrc e he]
  obtain ⟨hown, hoth⟩ := foldl_addArc_arc? hsrc hnd hfresh
  refine ⟨fun v => ?_, hoth⟩
  rw [hown]
  cases hfi : (table.filter (·.1 == u)).find? (·.2.1 == v) with
  | none =>
    rintro r on ⟨data, hda, -⟩
    have := List.find?_eq_none.mp hfi (u, v, data) (mem_filter.mpr ⟨hda, by simp⟩)
    simp at this
  | some e =>
    obtain ⟨he, hu⟩ := mem_filter.mp (List.mem_of_find?_eq_some hfi)
    obtain ⟨r, on, -, htel, -⟩ := h.sound e he
    have hkey : (e.1, e.2.1) = (u, v) := by
      rw [Prod.mk.injEq]
      exact ⟨by simpa using hu, by simpa using List.find?_some hfi⟩
    refine ⟨r, on, ⟨e.2.2, ?_, htel⟩, htel, ?_⟩
    · rw [Prod.mk.injEq] at hkey
      rw [← hkey.1, ← hkey.2]
      exact he
    · -- there is one entry of these views
      rintro r' on' ⟨data, hda, htel'⟩
      have hsm := inj_on_of_nodup_map h.nodup he hda hkey
      rw [hsm] at htel
      cases (htel.unique htel').1
      exact Nat.le_refl _

theorem viewStep_meets (views : List View) (names : Names)
    {offered : String → String → Relationship → Value → Prop} (htab : table.IsFor best offered)
    {seen : List String} (hids : identifiers x = .ok ids) (hnew : x.name ∉ seen)
    (hfresh : ∀ v, g.arc? x.name v = none) :
    Result.Meets (viewStep views names table (g, seen) x) (∀ i ∈ ids, CanMatch views names x i)
      fun s => s.2 = x.name :: seen ∧ LeavesBy (g.addNode x.name) x.name (fun v r on =>
        table.Lists x.name v r on ∨ ∃ i ∈ ids, Matched views names x i v r on) s.1 := by
  have hwr := written_leavesBy htab (g := g.addNode x.name) (u := x.name) fun v => by
    rw [arc?_addNode]
    exact hfresh v
  have hmatches := matches_meets views names ids hwr
  have hseen : ¬ seen.contains x.name = true := by simpa using hnew
  unfold viewStep
  dsimp only
  rw [if_neg hseen]
  constructor
  · intro hall
    obtain ⟨g', hg'⟩ := hmatches.succeeds hall
    exact ⟨(g', x.name :: seen), bind_eq_ok.mpr ⟨ids, hids, bind_eq_ok.mpr ⟨g', hg', rfl⟩⟩⟩
  · intro s hs
    obtain ⟨ids', hids', hs⟩ := of_bind hs
    cases hids.symm.trans hids'
    obtain ⟨g', hg', hs⟩ := of_bind hs
    cases hs
    obtain ⟨hall, hleaves⟩ := hmatches.only g' hg'
    exact ⟨hall, rfl, hleaves⟩

/-! ### The names of identifiers -/

/-- Two identifiers of one name, the first of a view `u` and the second of a view `v`, offer an arc:
both may be joined to the other's view, and rows are repeated only if the first allows so. -/
structure Fit (first : Definition) (u : String) (second : Definition) (v : String)
    (r : Relationship) (on : Value) : Prop where
  name : (first.get "name").plain = (second.get "name").plain
  allowed : allows first v = .ok true
  allowedBack : allows second u = .ok true
  relationship : Relationship.derive (first.get "type") (second.get "type") = .ok r
  fanout : r.isFanout = true → allowsFanout first v = .ok true
  condition : ∃ a b, clause first u = .ok a ∧ clause second v = .ok b ∧ on = .text (a ++ "=" ++ b)

/-- Among identifiers, each given with its view, two of one name offer an arc. -/
def Shared (ids : List (String × Definition)) (u v : String) (r : Relationship) (on : Value) :
    Prop :=
  u ≠ v ∧ ∃ first second, (u, first) ∈ ids ∧ (v, second) ∈ ids ∧ Fit first u second v r on

structure AreNamed (views : List View) : Prop where
  text : ∀ e ∈ owned views, (e.2.get "name").isText = true
  nodup : ((owned views).map fun e => (e.1, (e.2.get "name").plain)).Nodup

instance (views : List View) : Decidable (AreNamed views) :=
  decidable_of_iff ((∀ e ∈ owned views, (e.2.get "name").isText = true) ∧
    ((owned views).map fun e => (e.1, (e.2.get "name").plain)).Nodup)
    ⟨fun h => ⟨h.1, h.2⟩, fun h => ⟨h.text, h.nodup⟩⟩

theorem type_of_derive (h : Relationship.derive (first.get "type") (second.get "type") = .ok r) :
    (first.get? "type" = some (first.get "type") ∧ (first.get "type").isTextOf "join" = false) ∧
      second.get? "type" = some (second.get "type") ∧
        (second.get "type").isTextOf "join" = false := by
  have hsome : ∀ {d : Definition} {t : String}, d.get "type" = .text t →
      d.get? "type" = some (d.get "type") := by
    intro d t ht
    cases hget : d.get? "type" with
    | none => simp [Definition.get, hget] at ht
    | some v => simp [Definition.get, hget]
  unfold Relationship.derive at h
  split at h
  case h_5 => cases h
  all_goals
    next hfst hsnd =>
      refine ⟨⟨hsome hfst, ?_⟩, hsome hsnd, ?_⟩
      · rw [hfst]
        rfl
      · rw [hsnd]
        rfl

theorem matchData_of_derive {a b : String}
    (hr : Relationship.derive (first.get "type") (second.get "type") = .ok r)
    (ha : clause first u = .ok a) (hb : clause second v = .ok b) :
    ∃ data, matchData first u second v = .ok (r, data) ∧ Tells data r (.text (a ++ "=" ++ b)) := by
  obtain ⟨⟨hfst, -⟩, hsnd, -⟩ := type_of_derive hr
  have hrun : matchData first u second v = .ok (r, [("relationship", .text r.name),
      ("type", .text "left_outer"), ("sql_on", .text (a ++ "=" ++ b)), ("weight", .int r.weight)]) :=
    bind_eq_ok.mpr ⟨_, need_eq_ok.mpr hfst, bind_eq_ok.mpr
      ⟨_, need_eq_ok.mpr hsnd, bind_eq_ok.mpr ⟨r, hr, bind_eq_ok.mpr
        ⟨a, ha, bind_eq_ok.mpr ⟨b, hb, rfl⟩⟩⟩⟩⟩
  exact ⟨_, hrun, rfl, rfl, rfl⟩

theorem exists_allowsFanout {name : Value} {d : Relationship × Definition}
    (hne : v ≠ x.name) (hallowed : allows first v = .ok true)
    (hfi : views.find? (·.name == v) = some w) (hn : first.need "name" = .ok name)
    (hids : identifiers w = .ok ids)
    (hsnd : ids.findM? (fun i => do return (← i.need "name").same name) = .ok (some second))
    (hback : allows second x.name = .ok true) (hda : matchData first x.name second v = .ok d)
    {o : Option (Relationship × Definition)} (h : offer views x first v = .ok o) :
    ∃ fanout, allowsFanout first v = .ok fanout := by
  unfold offer at h
  rw [if_neg (by simpa using hne)] at h
  obtain ⟨_, heq, h⟩ := of_bind h
  cases hallowed.symm.trans heq
  rw [hfi] at h
  obtain ⟨_, heq, h⟩ := of_bind h
  cases hn.symm.trans heq
  obtain ⟨_, heq, h⟩ := of_bind h
  cases hids.symm.trans heq
  obtain ⟨_, heq, h⟩ := of_bind h
  cases hsnd.symm.trans heq
  obtain ⟨_, heq, h⟩ := of_bind h
  cases hback.symm.trans heq
  obtain ⟨_, heq, h⟩ := of_bind h
  cases hda.symm.trans heq
  obtain ⟨fanout, hfan, -⟩ := of_bind h
  exact ⟨fanout, hfan⟩

section Names

variable (hviews : (views.map View.name).Nodup) (hnamed : AreNamed views)

include hviews

theorem find?_of_mem (hx : x ∈ views) : views.find? (·.name == x.name) = some x := by
  cases hfi : views.find? (·.name == x.name) with
  | none => simpa using List.find?_eq_none.mp hfi x hx
  | some w =>
    have hn : w.name = x.name := by simpa using List.find?_some hfi
    rw [inj_on_of_nodup_map hviews (List.mem_of_find?_eq_some hfi) hx hn]

theorem mem_owned_of_mem (hx : x ∈ views)
    (hids : identifiers x = .ok ids) : (x.name, i) ∈ owned views ↔ i ∈ ids := by
  rw [mem_owned]
  constructor
  · rintro ⟨w, hw, hn, ids', hids', hi⟩
    cases inj_on_of_nodup_map hviews hw hx hn
    cases hids.symm.trans hids'
    exact hi
  · exact fun hi => ⟨x, hx, rfl, ids, hids, hi⟩

include hnamed

theorem findM?_name (hw : w ∈ views) (hids : identifiers w = .ok ids) {n : String} :
    ids.findM? (fun i => do return (← i.need "name").same (.text n))
      = .ok (ids.find? fun i => (i.get "name").plain == n) := by
  refine Result.findM?_of_ok fun i hi => ?_
  obtain ⟨m, hm⟩ := exists_of_isText
    (hnamed.text (w.name, i) ((mem_owned_of_mem hviews hw hids).mpr hi))
  refine bind_eq_ok.mpr ⟨.text m, need_eq_ok.mpr hm, ?_⟩
  rw [Definition.get, hm]
  rfl

theorem find?_name_of_mem (hw : w ∈ views) (hids : identifiers w = .ok ids) (hi : i ∈ ids) :
    ids.find? (fun j => (j.get "name").plain == (i.get "name").plain) = some i := by
  cases hfi : ids.find? fun j => (j.get "name").plain == (i.get "name").plain with
  | none => simpa using List.find?_eq_none.mp hfi i hi
  | some j =>
    have hn : (j.get "name").plain = (i.get "name").plain := by simpa using List.find?_some hfi
    have hmem := fun {k} => mem_owned_of_mem hviews hw hids (i := k)
    have hsm := inj_on_of_nodup_map hnamed.nodup
      (hmem.mpr (List.mem_of_find?_eq_some hfi)) (hmem.mpr hi) (by simp [hn])
    rw [(Prod.mk.inj hsm).2]

theorem offered_iff (hx : x ∈ views) (hids : identifiers x = .ok ids) (hi : i ∈ ids)
    (hcan : ∃ o, offer views x i v = .ok o) : Offered views x i v r on ↔
      x.name ≠ v ∧ ∃ second, (v, second) ∈ owned views ∧ Fit i x.name second v r on := by
  obtain ⟨n, hn⟩ := exists_of_isText
    (hnamed.text (x.name, i) ((mem_owned_of_mem hviews hx hids).mpr hi))
  have hneed : i.need "name" = .ok (.text n) := need_eq_ok.mpr hn
  have hpl : (i.get "name").plain = n := by
    rw [Definition.get, hn]
    rfl
  constructor
  · rintro ⟨data, hoffer, htel⟩
    obtain ⟨hne, hallowed, w, name, wids, second, hfi, hname, hwids, hsnd, hback, hda, fanout,
      hfanout, hrep⟩ := offer_eq_some_iff.mp hoffer
    cases hneed.symm.trans hname
    have hw := List.mem_of_find?_eq_some hfi
    have hwname : w.name = v := by simpa using List.find?_some hfi
    rw [findM?_name hviews hnamed hw hwids, Except.ok.injEq] at hsnd
    obtain ⟨base, join, a, b, hbase, hj, hr, ha, hb, rfl⟩ := matchData_eq_ok hda
    refine ⟨hne.symm, second, ?_, ?_, hallowed, hback, ?_, fun hfan => ?_, a, b, ha, hb, ?_⟩
    · rw [← hwname]
      exact (mem_owned_of_mem hviews hw hwids).mpr (List.mem_of_find?_eq_some hsnd)
    · rw [hpl]
      have := List.find?_some hsnd
      exact (by simpa using this : (second.get "name").plain = n).symm
    · rw [Definition.get, Definition.get, hbase, hj]
      exact hr
    · rw [hfanout, hrep hfan]
    · exact Option.some.inj (htel.condition.symm.trans rfl)
  · rintro ⟨hne, second, hsnd, hfit⟩
    obtain ⟨w, hw, rfl, wids, hwids, hsnd⟩ := mem_owned.mp hsnd
    obtain ⟨a, b, ha, hb, rfl⟩ := hfit.condition
    obtain ⟨data, hda, htel⟩ := matchData_of_derive hfit.relationship ha hb
    have hfi := find?_of_mem hviews hw
    have hfd : wids.findM? (fun i => do return (← i.need "name").same (.text n))
        = .ok (some second) := by
      rw [findM?_name hviews hnamed hw hwids, ← hpl, hfit.name,
        find?_name_of_mem hviews hnamed hw hwids hsnd]
    obtain ⟨o, ho⟩ := hcan
    obtain ⟨fanout, hfanout⟩ := exists_allowsFanout hne.symm hfit.allowed hfi hneed hwids hfd
      hfit.allowedBack hda ho
    refine ⟨data, offer_eq_some_iff.mpr ⟨hne.symm, hfit.allowed, w, _, wids, second, hfi, hneed,
      hwids, hfd, hfit.allowedBack, hda, fanout, hfanout, fun hr => ?_⟩, htel⟩
    cases hfanout.symm.trans (hfit.fanout hr)
    rfl

end Names

/-! ### Building the graph -/

/-- Whether an identifier joins views by its name, and so needs one. -/
def IsByName (i : Definition) : Prop := (i.get "type").isTextOf "join" = false

def HasName (views : List View) (u n : String) : Prop :=
  ∃ i, (u, i) ∈ owned views ∧ IsByName i ∧ (i.get "name").plain = n

theorem isJoin_of_byName (hty : i.has "type" = true) (hby : IsByName i) : isJoin i = .ok false := by
  rw [isJoin_of_has hty, hby]

theorem nameEntry_eq_ok {v : View} {o : Option (String × String × Bool)} :
    nameEntry v i = .ok o ↔ i.has "type" = true ∧ (¬ IsByName i ∧ o = none ∨
      IsByName i ∧ i.has "name" = true ∧
        o = some ((i.get "name").plain, v.name, (i.get "type").isTextOf "primary")) := by
  unfold nameEntry
  constructor
  · intro h
    obtain ⟨b, hb, h⟩ := of_bind h
    refine ⟨has_of_isJoin hb, ?_⟩
    have hj := isJoin_eq_ok hb
    cases b with
    | true =>
      cases h
      exact Or.inl ⟨by simp [IsByName, ← hj], rfl⟩
    | false =>
      obtain ⟨name, hn, h⟩ := of_bind h
      cases h
      rw [need_eq_ok] at hn
      rw [get_of_get? hn]
      exact Or.inr ⟨hj.symm, has_of_get? hn, rfl⟩
  · rintro ⟨hty, ⟨hj, rfl⟩ | ⟨hj, hn, rfl⟩⟩
    · refine bind_eq_ok.mpr ⟨true, ?_, rfl⟩
      rw [isJoin_of_has hty]
      simpa [IsByName] using hj
    · obtain ⟨name, hn⟩ := exists_of_has hn
      rw [get_of_get? hn]
      refine bind_eq_ok.mpr ⟨false, isJoin_of_byName hty hj, ?_⟩
      exact bind_eq_ok.mpr ⟨name, need_eq_ok.mpr hn, rfl⟩

theorem names_meets (views : List View) :
    Result.Meets (names views) (AreListed views ∧ ∀ e ∈ owned views, e.2.has "type" = true ∧
        (IsByName e.2 → e.2.has "name" = true))
      fun ns => ∀ u n, u ∈ Names.views ns.all n ↔ HasName views u n := by
  constructor
  · rintro ⟨hls, hall⟩
    have hview : ∀ v ∈ views, ∃ l,
        (do (← identifiers v).filterMapM (nameEntry v) : Result _) = .ok l := by
      intro v hv
      obtain ⟨ids, hids⟩ := hls v hv
      obtain ⟨l, hl⟩ := filterMapM_ok_iff (f := nameEntry v) (l := ids).mpr fun i hi => by
        obtain ⟨hty, hn⟩ := hall (v.name, i) (mem_owned.mpr ⟨v, hv, rfl, ids, hids, hi⟩)
        by_cases hby : IsByName i
        · exact ⟨_, nameEntry_eq_ok.mpr ⟨hty, Or.inr ⟨hby, hn hby, rfl⟩⟩⟩
        · exact ⟨_, nameEntry_eq_ok.mpr ⟨hty, Or.inl ⟨hby, rfl⟩⟩⟩
      exact ⟨l, bind_eq_ok.mpr ⟨ids, hids, hl⟩⟩
    obtain ⟨entries, hens⟩ := mapM_ok_iff.mpr hview
    exact ⟨_, bind_eq_ok.mpr ⟨entries, hens, rfl⟩⟩
  · intro ns h
    obtain ⟨entries, hens, h⟩ := of_bind h
    cases h
    have hview : ∀ v ∈ views, ∃ ids, identifiers v = .ok ids ∧ ∃ l ∈ entries,
        ids.filterMapM (nameEntry v) = .ok l := fun v hv => by
      obtain ⟨l, hl, hrun⟩ := exists_of_mapM hens hv
      obtain ⟨ids, hids, hrun⟩ := of_bind hrun
      exact ⟨ids, hids, l, hl, hrun⟩
    refine ⟨⟨fun v hv => ?_, fun e he => ?_⟩, fun u n => ?_⟩
    · obtain ⟨ids, hids, -⟩ := hview v hv
      exact ⟨ids, hids⟩
    · obtain ⟨v, hv, -, ids, hids, hi⟩ := mem_owned.mp he
      obtain ⟨ids', hids', l, -, hrun⟩ := hview v hv
      cases hids.symm.trans hids'
      obtain ⟨o, ho⟩ := (filterMapM_eq_ok hrun).1 e.2 hi
      obtain ⟨hty, hby⟩ := nameEntry_eq_ok.mp ho
      refine ⟨hty, fun hn => ?_⟩
      rcases hby with ⟨hnot, -⟩ | ⟨-, hhas, -⟩
      · exact absurd hn hnot
      · exact hhas
    · have hmem : u ∈ Names.views (entries.flatten.map fun e => (e.1, e.2.1)) n ↔
          ∃ l ∈ entries, ∃ primary, (n, u, primary) ∈ l := by
        simp only [Names.views, mem_map, mem_filter, mem_flatten, beq_iff_eq]
        constructor
        · rintro ⟨_, ⟨⟨⟨n', u', primary⟩, ⟨l, hl, he⟩, rfl⟩, rfl⟩, rfl⟩
          exact ⟨l, hl, primary, he⟩
        · rintro ⟨l, hl, primary, he⟩
          exact ⟨(n, u), ⟨⟨(n, u, primary), ⟨l, hl, he⟩, rfl⟩, rfl⟩, rfl⟩
      refine hmem.trans ⟨?_, ?_⟩
      · rintro ⟨l, hl, primary, he⟩
        obtain ⟨v, hv, hrun⟩ := exists_of_mem_mapM hens hl
        obtain ⟨ids, hids, hrun⟩ := of_bind hrun
        obtain ⟨i, hi, hent⟩ := ((filterMapM_eq_ok hrun).2 _).mp he
        obtain ⟨-, ⟨-, hno⟩ | ⟨hby, -, hsome⟩⟩ := nameEntry_eq_ok.mp hent
        · cases hno
        · simp only [Option.some.injEq, Prod.mk.injEq] at hsome
          exact ⟨i, mem_owned.mpr ⟨v, hv, hsome.2.1.symm, ids, hids, hi⟩, hby, hsome.1.symm⟩
      · rintro ⟨i, hi, hby, rfl⟩
        obtain ⟨v, hv, rfl, ids, hids, hi⟩ := mem_owned.mp hi
        obtain ⟨ids', hids', l, hl, hrun⟩ := hview v hv
        cases hids.symm.trans hids'
        obtain ⟨hall, hens⟩ := filterMapM_eq_ok hrun
        obtain ⟨o, ho⟩ := hall i hi
        obtain ⟨-, ⟨hnot, -⟩ | ⟨-, -, rfl⟩⟩ := nameEntry_eq_ok.mp ho
        · exact absurd hby hnot
        · exact ⟨l, hl, _, (hens _).mpr ⟨i, hi, ho⟩⟩

/-- The parts of an identifier, if it is made of others, have names. -/
def IsComposed (i : Definition) : Prop :=
  ∀ parts, i.get? "identifiers" = some parts → ∃ items, parts.iterate = .ok items ∧
    ∀ part ∈ items, ∃ d, part.needMap = .ok d ∧ d.has "name" = true

theorem bridgeEntries_isOk_iff (ns : Names) (v : View) (hty : i.has "type" = true) :
    (∃ l, bridgeEntries ns v i = .ok l) ↔ (IsByName i → IsComposed i) := by
  have hpt : ∀ part : Value, (∃ l, (do
      return Names.views ns.primary (← (← part.needMap).need "name").plain : Result _) = .ok l) ↔
      ∃ d, part.needMap = .ok d ∧ d.has "name" = true := by
    intro part
    constructor
    · rintro ⟨l, h⟩
      obtain ⟨d, hd, h⟩ := of_bind h
      obtain ⟨name, hn, -⟩ := of_bind h
      exact ⟨d, hd, has_of_get? (need_eq_ok.mp hn)⟩
    · rintro ⟨d, hd, hn⟩
      obtain ⟨name, hn⟩ := exists_of_has hn
      exact ⟨_, bind_eq_ok.mpr ⟨d, hd, bind_eq_ok.mpr
        ⟨name, need_eq_ok.mpr hn, rfl⟩⟩⟩
  unfold bridgeEntries
  constructor
  · rintro ⟨l, h⟩ hby parts hpts
    obtain ⟨b, hb, h⟩ := of_bind h
    cases hb.symm.trans (isJoin_of_has hty)
    rw [hby, hpts] at h
    obtain ⟨items, hits, h⟩ := of_bind h
    obtain ⟨options, hopt, -⟩ := of_bind h
    exact ⟨items, hits, fun part hmem =>
      (hpt part).mp (mapM_ok_iff.mp ⟨_, hopt⟩ part hmem)⟩
  · intro hcomposed
    by_cases hby : IsByName i
    · cases hpts : i.get? "identifiers" with
      | none => exact ⟨[], bind_eq_ok.mpr ⟨false, isJoin_of_byName hty hby, rfl⟩⟩
      | some parts =>
        obtain ⟨items, hits, hall⟩ := hcomposed hby parts hpts
        obtain ⟨options, hopt⟩ := mapM_ok_iff.mpr fun part hmem =>
          (hpt part).mpr (hall part hmem)
        exact ⟨_, bind_eq_ok.mpr ⟨false, isJoin_of_byName hty hby, bind_eq_ok.mpr
          ⟨items, hits, bind_eq_ok.mpr ⟨options, hopt, rfl⟩⟩⟩⟩
    · refine ⟨[], bind_eq_ok.mpr ⟨_, isJoin_of_has hty, ?_⟩⟩
      rw [if_pos (by simpa [IsByName] using hby)]
      rfl

theorem bridgesOf_isOk_iff (hls : AreListed views)
    (hty : ∀ e ∈ owned views, e.2.has "type" = true) (ns : Names) :
    (∃ l, bridgesOf views ns = .ok l) ↔ ∀ e ∈ owned views, IsByName e.2 → IsComposed e.2 := by
  have hview : (∃ found, views.mapM (fun v => do
      return (← (← identifiers v).mapM (bridgeEntries ns v)).flatten) = (.ok found : Result _)) ↔
      ∀ e ∈ owned views, IsByName e.2 → IsComposed e.2 := by
    rw [mapM_ok_iff]
    constructor
    · intro h e he
      obtain ⟨v, hv, -, ids, hids, hi⟩ := mem_owned.mp he
      obtain ⟨l, hl⟩ := h v hv
      obtain ⟨ids', hids', hl⟩ := of_bind hl
      cases hids.symm.trans hids'
      obtain ⟨groups, hgs, -⟩ := of_bind hl
      exact (bridgeEntries_isOk_iff ns v (hty e he)).mp
        (mapM_ok_iff.mp ⟨groups, hgs⟩ e.2 hi)
    · intro h v hv
      obtain ⟨ids, hids⟩ := hls v hv
      obtain ⟨groups, hgs⟩ := mapM_ok_iff.mpr fun i (hi : i ∈ ids) => by
        have he : (v.name, i) ∈ owned views := mem_owned.mpr ⟨v, hv, rfl, ids, hids, hi⟩
        exact (bridgeEntries_isOk_iff ns v (hty _ he)).mpr (h _ he)
      exact ⟨_, bind_eq_ok.mpr ⟨ids, hids, bind_eq_ok.mpr ⟨groups, hgs, rfl⟩⟩⟩
  rw [← hview]
  constructor
  · rintro ⟨l, h⟩
    obtain ⟨found, hfd, -⟩ := of_bind h
    exact ⟨found, hfd⟩
  · rintro ⟨found, hfd⟩
    exact ⟨_, bind_eq_ok.mpr ⟨found, hfd, rfl⟩⟩

/-- The identifiers of the views can be read as far as they are needed. -/
structure CanBuild (views : List View) : Prop where
  listed : AreListed views
  legible : ∀ e ∈ owned views, IsLegible e.2
  named : ∀ e ∈ owned views, e.2.has "name" = true
  composed : ∀ e ∈ owned views, IsByName e.2 → IsComposed e.2
  matched : ∀ x ∈ views, ∀ i, (x.name, i) ∈ owned views → ∀ v,
    HasName views v (i.get "name").plain → ∃ o, offer views x i v = .ok o

/-- What is offered for an arc between two views. -/
def Offers (ids : List (String × Definition)) (u v : String) (r : Relationship) (on : Value) :
    Prop :=
  Written ids u v r on ∨ Shared ids u v r on

/-- A graph holds what the identifiers of the views offer. -/
structure IsOf (views : List View) (g : Digraph String Definition) : Prop where
  nodes : ∀ x, x ∈ g.nodes ↔ x ∈ views.map View.name ∨ ∃ u, g.hasArc u x = true
  arcs : ∀ u v, g.hasArc u v = true ↔
    u ∈ views.map View.name ∧ ∃ r on, Offers (owned views) u v r on
  best : AreSingle (owned views) → ∀ u v a, g.arc? u v = some a →
    ∃ r on, Offers (owned views) u v r on ∧ Tells a.data r on ∧
      ∀ r' on', Offers (owned views) u v r' on' → r.weight ≤ r'.weight

/-- What is offered for the arcs that leave a view, from the table and by its identifiers. -/
def OffersOf (views : List View) (ns : Names) (table : References) (x : View) (v : String)
    (r : Relationship) (on : Value) : Prop :=
  table.Lists x.name v r on ∨ ∃ i, (x.name, i) ∈ owned views ∧ Matched views ns x i v r on

theorem viewSteps_meets (hviews : (views.map View.name).Nodup) (hls : AreListed views) (ns : Names)
    {offered : String → String → Relationship → Value → Prop} (htab : table.IsFor best offered) :
    Result.Meets (views.foldlM (viewStep views ns table) (Digraph.empty, []))
      (∀ x ∈ views, ∀ i, (x.name, i) ∈ owned views → CanMatch views ns x i)
      fun s => (∀ x ∈ views, ∀ v, Holds (OffersOf views ns table x v) (s.1.arc? x.name v)) ∧
        ∀ u ∉ views.map View.name, ∀ v, s.1.arc? u v = none := by
  have hrun : Result.Meets (views.foldlM (viewStep views ns table) (empty, []))
      (∀ x ∈ views, ∀ i, (x.name, i) ∈ owned views → CanMatch views ns x i)
      fun s => s.2 = (views.map name).reverse ∧
        (∀ x ∈ views, ∀ v, Holds (OffersOf views ns table x v) (s.1.arc? x.name v)) ∧
        ∀ u ∉ views.map name, ∀ v, s.1.arc? u v = none := by
    refine .foldlM (P := fun done (s : Digraph String Definition × List String) =>
      s.2 = (done.map name).reverse ∧
        (∀ x ∈ done, ∀ v, Holds (OffersOf views ns table x v) (s.1.arc? x.name v)) ∧
        ∀ u ∉ done.map name, ∀ v, s.1.arc? u v = none)
      ⟨rfl, by simp, fun _ _ _ => rfl⟩ ?_
    rintro done x rest ⟨g, seen⟩ hsp ⟨rfl, hdone, hfresh⟩
    have hx : x ∈ views := by simp [hsp]
    obtain ⟨ids, hids⟩ := hls x hx
    have hmem := fun {i} => mem_owned_of_mem hviews hx hids (i := i)
    have hnew : x.name ∉ done.map name := by
      rw [hsp, map_append, nodup_append] at hviews
      exact fun hin => hviews.2.2 _ hin _ (by simp) rfl
    have hseen : x.name ∉ (done.map name).reverse := by simpa using hnew
    have hstep := viewStep_meets views ns htab hids hseen (hfresh x.name hnew)
    refine ⟨fun hall => hstep.succeeds fun i hi => hall i (hmem.mpr hi), fun s' hs' => ?_⟩
    obtain ⟨hcan, hs2, hleaves⟩ := hstep.only s' hs'
    have hot : ∀ u v, u ≠ x.name → s'.1.arc? u v = g.arc? u v := fun u v hu => by
      rw [hleaves.others u v hu, arc?_addNode]
    refine ⟨fun i hi => hcan i (hmem.mp hi), by simp [hs2], fun y hy v => ?_, fun u hu v => ?_⟩
    · rcases mem_append.mp hy with hy | hy
      · rw [hot y.name v fun heq => hnew (heq ▸ mem_map_of_mem hy)]
        exact hdone y hy v
      · rw [mem_singleton.mp hy]
        exact (hleaves.own v).congr fun r on => by simp [OffersOf, hmem]
    · rw [map_append, mem_append, not_or] at hu
      rw [hot u v (by simpa using hu.2)]
      exact hfresh u hu.1 v
  exact ⟨hrun.succeeds, fun s hs => ⟨(hrun.only s hs).1, (hrun.only s hs).2.2⟩⟩

theorem canMatch_iff (hns : ∀ u n, u ∈ Names.views ns.all n ↔ HasName views u n) :
    CanMatch views ns x i ↔ i.has "name" = true ∧
      ∀ v, HasName views v (i.get "name").plain → ∃ o, offer views x i v = .ok o := by
  constructor
  · rintro ⟨name, hn, hall⟩
    refine ⟨has_of_get? hn, fun v hv => hall v ((hns v _).mpr ?_)⟩
    rwa [get_of_get? hn] at hv
  · rintro ⟨hhas, hall⟩
    obtain ⟨name, hn⟩ := exists_of_has hhas
    refine ⟨name, hn, fun v hv => hall v ?_⟩
    rw [get_of_get? hn]
    exact (hns v _).mp hv

theorem matched_iff_shared (hviews : (views.map View.name).Nodup) (hnamed : AreNamed views)
    (hns : ∀ u n, u ∈ Names.views ns.all n ↔ HasName views u n) (hx : x ∈ views)
    (hcan : ∀ i, (x.name, i) ∈ owned views → CanMatch views ns x i) :
    (∃ i, (x.name, i) ∈ owned views ∧ Matched views ns x i v r on) ↔
      Shared (owned views) x.name v r on := by
  constructor
  · rintro ⟨i, hi, name, hn, hv, hoff⟩
    obtain ⟨w, hw, hwname, ids, hids, hiw⟩ := mem_owned.mp hi
    cases inj_on_of_nodup_map hviews hw hx hwname
    have hoffer : ∃ o, offer views x i v = .ok o := by
      obtain ⟨data, hda, -⟩ := hoff
      exact ⟨_, hda⟩
    obtain ⟨hne, second, hsnd, hfit⟩ :=
      (offered_iff hviews hnamed hx hids hiw hoffer).mp hoff
    exact ⟨hne, i, second, hi, hsnd, hfit⟩
  · rintro ⟨hne, first, second, hfst, hsnd, hfit⟩
    obtain ⟨w, hw, hwname, ids, hids, hiw⟩ := mem_owned.mp hfst
    cases inj_on_of_nodup_map hviews hw hx hwname
    have hv : HasName views v (first.get "name").plain :=
      ⟨second, hsnd, (type_of_derive hfit.relationship).2.2, hfit.name.symm⟩
    obtain ⟨hhas, hoffers⟩ := (canMatch_iff hns).mp (hcan first hfst)
    obtain ⟨name, hn⟩ := exists_of_has hhas
    refine ⟨first, hfst, name, hn, ?_, (offered_iff hviews hnamed hx hids hiw
      (hoffers v hv)).mpr ⟨hne, second, hsnd, hfit⟩⟩
    rw [get_of_get? hn] at hv
    exact (hns v _).mpr hv

theorem mem_nodes_of_viewSteps {todo : List View} {s s' : Digraph String Definition × List String}
    (h : todo.foldlM (viewStep views ns table) s = .ok s') {x : String}
    (hx : x ∈ s.1.nodes ∨ x ∈ todo.map View.name) : x ∈ s'.1.nodes := by
  induction todo generalizing s with
  | nil =>
    cases h
    simpa using hx
  | cons v todo ih =>
    obtain ⟨⟨g, seen⟩, hs, h⟩ := of_bind h
    refine ih h ?_
    by_cases htodo : x ∈ todo.map name
    · exact Or.inr htodo
    have hnode : x ∈ (s.1.addNode v.name).nodes := mem_addNode.mpr <| by
      rw [map_cons, mem_cons] at hx
      tauto
    have harc : ∀ g : Digraph String Definition, x ∈ g.nodes → ∀ u w data,
        x ∈ (addArc g u w data).nodes :=
      fun g hg u w data => mem_nodes_addArc.mpr (Or.inr (Or.inr hg))
    exact Or.inl <| viewStep_induct (P := fun g => x ∈ g.nodes)
      (fun e _ _ g hg => harc g hg _ _ _) (fun _ _ _ _ g _ _ _ hg => harc g hg _ _ _) hnode hs

theorem mem_nodes_iff_of_build {g : JoinGraph} (h : build views = .ok g) {x : String} :
    x ∈ g.graph.nodes ↔ x ∈ views.map View.name ∨ ∃ u, g.graph.hasArc u x = true := by
  refine ⟨fun hx => ?_, ?_⟩
  swap
  · rintro (hx | ⟨u, hu⟩)
    · unfold build at h
      obtain ⟨ns, -, h⟩ := of_bind h
      obtain ⟨bridges, -, h⟩ := of_bind h
      obtain ⟨table, -, h⟩ := of_bind h
      obtain ⟨s, hs, h⟩ := of_bind h
      cases h
      exact mem_nodes_of_viewSteps hs (Or.inr hx)
    · exact ((build_isWhole h).closed.mem_of_hasArc hu).2
  have harc : ∀ {g : Digraph String Definition} {u v : String} {data : Definition},
      u ∈ views.map name →
      (∀ x ∈ g.nodes, x ∈ views.map name ∨ ∃ u, g.hasArc u x = true) →
      ∀ x ∈ (addArc g u v data).nodes,
        x ∈ views.map name ∨ ∃ w, (addArc g u v data).hasArc w x = true := by
    intro g u v data hu hg x hx
    have hhas : ∀ w y, (addArc g u v data).hasArc w y = (decide (u = w ∧ v = y) || g.hasArc w y) := by
      intro w y
      rw [hasArc, hasArc, addArc, arc?_addArc]
      split_ifs with h <;> simp [h]
    rcases mem_nodes_addArc.mp hx with rfl | rfl | hx
    · exact Or.inr ⟨u, by simp [hhas]⟩
    · exact Or.inl hu
    · exact (hg x hx).imp_right (Exists.imp fun w hw => by simp [hhas, hw])
  refine build_induct_matches (P := fun g => ∀ x ∈ g.nodes,
    x ∈ views.map name ∨ ∃ u, g.hasArc u x = true) ?_ ?_ ?_ ?_ h x hx
  · simp [empty]
  · intro v hv g hg x hx
    rcases mem_addNode.mp hx with rfl | hx
    · exact Or.inl (mem_map_of_mem hv)
    · exact (hg x hx).imp_right (Exists.imp fun u hu => by simpa [hasArc] using hu)
  · intro v hv table _ e _ he g hg
    exact harc (he ▸ mem_map_of_mem hv) hg
  · intro v hv ids _ i _ g other data _ hg
    exact harc (mem_map_of_mem hv) hg

/-- The offers from the table and by the names are all there are; from the table comes one of
several, and the best where that is said. -/
theorem exists_offersOf_iff (htab : table.IsFor (AreSingle (owned views)) (Written (owned views)))
    (hsh : ∀ r on, (∃ i, (x.name, i) ∈ owned views ∧ Matched views ns x i v r on) ↔
      Shared (owned views) x.name v r on) :
    (∃ r on, OffersOf views ns table x v r on) ↔ ∃ r on, Offers (owned views) x.name v r on := by
  constructor
  · rintro ⟨r, on, ⟨data, hda, -⟩ | hmat⟩
    · obtain ⟨r, on, hwr, -⟩ := htab.sound _ hda
      exact ⟨r, on, Or.inl hwr⟩
    · exact ⟨r, on, Or.inr ((hsh r on).mp hmat)⟩
  · rintro ⟨r, on, hwr | hmat⟩
    · obtain ⟨data, hda⟩ := htab.complete _ _ r on hwr
      obtain ⟨r, on, -, htel, -⟩ := htab.sound _ hda
      exact ⟨r, on, Or.inl ⟨data, hda, htel⟩⟩
    · exact ⟨r, on, Or.inr ((hsh r on).mpr hmat)⟩

theorem best_of_holds (hsg : AreSingle (owned views))
    (htab : table.IsFor (AreSingle (owned views)) (Written (owned views)))
    (hsh : ∀ r on, (∃ i, (x.name, i) ∈ owned views ∧ Matched views ns x i v r on) ↔
      Shared (owned views) x.name v r on)
    {a : Arc String Definition} (h : Holds (OffersOf views ns table x v) (some a)) :
    ∃ r on, Offers (owned views) x.name v r on ∧ Tells a.data r on ∧
      ∀ r' on', Offers (owned views) x.name v r' on' → r.weight ≤ r'.weight := by
  obtain ⟨r, on, hoffer, htel, hle⟩ := h
  refine ⟨r, on, ?_, htel, fun r' on' hr' => ?_⟩
  · rcases hoffer with ⟨data, hda, htel'⟩ | hmat
    · obtain ⟨r0, on0, hwr, htel0, -⟩ := htab.sound _ hda
      obtain ⟨rfl, rfl⟩ := htel'.unique htel0
      exact Or.inl hwr
    · exact Or.inr ((hsh r on).mp hmat)
  · rcases hr' with hwr | hmat
    · obtain ⟨data, hda⟩ := htab.complete _ _ r' on' hwr
      obtain ⟨r0, on0, -, htel0, hbest⟩ := htab.sound _ hda
      exact Nat.le_trans (hle r0 on0 (Or.inl ⟨data, hda, htel0⟩))
        (hbest hsg r' on' hwr)
    · exact hle r' on' (Or.inr ((hsh r' on').mpr hmat))

/-- **What a join graph holds.**  It is built exactly if the identifiers can be read, and then it
has an arc wherever one is offered. -/
theorem build_meets (hviews : (views.map View.name).Nodup) (hnamed : AreNamed views) :
    Result.Meets (build views) (CanBuild views) fun g => IsOf views g.graph := by
  constructor
  · intro hcan
    have hty := fun e he => (hcan.legible e he).typed
    obtain ⟨ns, hns⟩ := (names_meets views).succeeds
      ⟨hcan.listed, fun e he => ⟨hty e he, fun _ => hcan.named e he⟩⟩
    have hnames := ((names_meets views).only ns hns).2
    obtain ⟨bridges, hbridges⟩ := (bridgesOf_isOk_iff hcan.listed hty ns).mpr hcan.composed
    obtain ⟨table, htab⟩ := (references_meets hcan.listed).succeeds hcan.legible
    have hfor := ((references_meets hcan.listed).only table htab).2
    obtain ⟨s, hs⟩ := (viewSteps_meets hviews hcan.listed ns hfor).succeeds fun x hx i hi =>
      (canMatch_iff hnames).mpr ⟨hcan.named _ hi, hcan.matched x hx i hi⟩
    exact ⟨_, bind_eq_ok.mpr ⟨ns, hns, bind_eq_ok.mpr ⟨bridges, hbridges,
      bind_eq_ok.mpr ⟨table, htab, bind_eq_ok.mpr ⟨s, hs, rfl⟩⟩⟩⟩⟩
  · intro g hbd
    have h := hbd
    unfold build at h
    obtain ⟨ns, hns, h⟩ := of_bind h
    obtain ⟨bridges, hbridges, h⟩ := of_bind h
    obtain ⟨table, htab, h⟩ := of_bind h
    obtain ⟨s, hs, h⟩ := of_bind h
    cases h
    obtain ⟨⟨hls, hty⟩, hnames⟩ := (names_meets views).only ns hns
    obtain ⟨hlegible, hfor⟩ := (references_meets hls).only table htab
    obtain ⟨hcan, hown, hno⟩ := (viewSteps_meets hviews hls ns hfor).only s hs
    have hsh : ∀ x ∈ views, ∀ {v r on},
        (∃ i, (x.name, i) ∈ owned views ∧ Matched views ns x i v r on) ↔
          Shared (owned views) x.name v r on := fun x hx =>
      matched_iff_shared hviews hnamed hnames hx (hcan x hx)
    refine ⟨⟨hls, hlegible, fun e he => ?_, ?_, fun x hx i hi => ?_⟩,
      fun y => mem_nodes_iff_of_build hbd, fun u v => ?_,
      fun hsg u v a ha => ?_⟩
    · obtain ⟨u, i⟩ := e
      obtain ⟨x, hx, rfl, -⟩ := mem_owned.mp he
      exact ((canMatch_iff hnames).mp (hcan x hx i he)).1
    · exact (bridgesOf_isOk_iff hls (fun e he => (hty e he).1) ns).mp ⟨bridges, hbridges⟩
    · exact ((canMatch_iff hnames).mp (hcan x hx i hi)).2
    · by_cases hu : u ∈ views.map name
      · obtain ⟨x, hx, rfl⟩ := mem_map.mp hu
        rw [← exists_offersOf_iff hfor fun r on => hsh x hx]
        exact (hown x hx v).isSome_iff.trans ⟨fun h => ⟨hu, h⟩, And.right⟩
      · refine ⟨fun harc => ?_, fun h => absurd h.1 hu⟩
        rw [hasArc, show (ofGraph s.1 bridges).graph.arc? u v = none from hno u hu v] at harc
        cases harc
    · by_cases hu : u ∈ views.map name
      · obtain ⟨x, hx, rfl⟩ := mem_map.mp hu
        have hholds := hown x hx v
        rw [show s.1.arc? x.name v = some a from ha] at hholds
        exact best_of_holds hsg hfor (fun r on => hsh x hx) hholds
      · cases ha.symm.trans (hno u hu v)

end SemanticLayer.JoinGraph
