import SemanticLayer.Proofs.Join.Rows
import SemanticLayer.Proofs.Query.Joins

/-!
# Keys of joined rows

A design names a view whose primary key is meant to identify the joined rows.  It does so exactly if
the joins on the way to the view never give one row several bases, and the joins off the way never
give one base several rows (`KeepsRows`): the sides of a join that fails this can be given one row
and two rows.
-/

namespace SemanticLayer

open SemanticLayer.Action List JoinGraph

open JoinGraph (Pair IsTree targets)

variable {d : Design} {e e' : Pair} {js : List Join} {pairs : List Pair} {root v view : String}
  {before : Option Join} {j : Join}

def Join.ends (j : Join) : Pair := (j.base.plain, j.target.plain)

theorem JoinGraph.map_ends_of_leads
    (h : List.Forall₂ JoinGraph.Leads js pairs) : js.map Join.ends = pairs := by
  induction h with
  | nil => rfl
  | @cons j e js pairs hj _ ih =>
    have hends : j.ends = e := by simp [Join.ends, hj.1, hj.2, Value.plain]
    rw [map_cons, hends, ih]

/-! ### Ways through a tree -/

namespace JoinGraph

def Reaches (pairs : List Pair) : String → String → Prop :=
  Relation.ReflTransGen fun u v => (u, v) ∈ pairs

variable (h : IsTree root pairs)
include h

theorem IsTree.exists_rank :
    ∃ rank : String → Nat, ∀ e ∈ pairs, rank e.1 < rank e.2 := by
  induction pairs using List.reverseRecOn with
  | nil => exact ⟨fun _ => 0, by simp⟩
  | append_singleton pairs e ih =>
    obtain ⟨htr, hfrom, hto⟩ := isTree_snoc.mp h
    obtain ⟨rank, hrank⟩ := ih htr
    refine ⟨Function.update rank e.2 (rank e.1 + 1), ?_⟩
    have hold : ∀ v ∈ root :: targets pairs, Function.update rank e.2 (rank e.1 + 1) v = rank v :=
      fun v hv => Function.update_of_ne (fun heq => hto (by rwa [← heq])) _ _
    intro e' he'
    rcases mem_append.mp he' with he' | he'
    · rw [hold _ (htr.source_mem he'), hold _ (mem_cons_of_mem _ (mem_targets he'))]
      exact hrank e' he'
    · rw [mem_singleton] at he'
      subst he'
      rw [hold _ hfrom]
      simp

theorem IsTree.not_reaches_source (he : e ∈ pairs) :
    ¬ Reaches pairs e.2 e.1 := by
  obtain ⟨rank, hrank⟩ := h.exists_rank
  have hmono : ∀ u v, Reaches pairs u v → rank u ≤ rank v := by
    intro u v huv
    induction huv with
    | refl => exact Nat.le_refl _
    | tail _ hs ih => exact Nat.le_trans ih (Nat.le_of_lt (hrank _ hs))
  intro hback
  exact absurd (hrank e he) (Nat.not_lt.mpr (hmono _ _ hback))

theorem IsTree.eq_of_target_eq (he : e ∈ pairs) (he' : e' ∈ pairs) (heq : e.2 = e'.2) : e = e' :=
  inj_on_of_nodup_map (nodup_cons.mp h.distinct).2 he he' heq

/-- Every other pair stays on one side of the views behind the target of a pair. -/
theorem IsTree.reaches_iff (he : e ∈ pairs) (he' : e' ∈ pairs) (hne : e' ≠ e) :
    Reaches pairs e.2 e'.1 ↔ Reaches pairs e.2 e'.2 := by
  constructor
  · exact fun hway => hway.tail he'
  · intro hway
    rcases Relation.ReflTransGen.cases_tail hway with heq | ⟨u, hu, hlast⟩
    · exact absurd (h.eq_of_target_eq he' he heq) hne
    · have := h.eq_of_target_eq he' hlast rfl
      rw [this]
      exact hu

theorem IsTree.reaches_of_mem (hv : v ∈ root :: targets pairs) : Reaches pairs root v := by
  induction pairs using List.reverseRecOn generalizing v with
  | nil =>
    rw [mem_singleton.mp hv]
    exact Relation.ReflTransGen.refl
  | append_singleton pairs e ih =>
    obtain ⟨htr, hfrom, -⟩ := isTree_snoc.mp h
    have hold : ∀ u ∈ root :: targets pairs, Reaches (pairs ++ [e]) root u := fun u hu =>
      Relation.ReflTransGen.mono (fun _ _ hab => mem_append_left _ hab) _ _ (ih htr hu)
    rw [targets_append, ← cons_append, mem_append] at hv
    rcases hv with hv | hv
    · exact hold v hv
    · rw [targets_cons, targets_nil, mem_singleton] at hv
      subst hv
      exact (hold _ hfrom).tail (by simp)

end JoinGraph

/-! ### Tables that respect relationships -/

namespace Tables

variable {ρ κ : Type} {T : Tables ρ κ}

/-- The primary key of every view is unique. -/
def IsKeyed (T : Tables ρ κ) : Prop := ∀ v, ((T.rows v).map (T.key v)).Nodup

/-- The rows that a join links are those its relationship allows: many or one to one, a base row is
linked to at most one row; one to many or to one, a row is linked to at most one base row. -/
structure Respects (T : Tables ρ κ) (j : Join) : Prop where
  target_unique : Design.isRelation j .manyToOne ∨ Design.isRelation j .oneToOne →
    ∀ x ∈ T.rows j.ends.1, ∀ y ∈ T.rows j.ends.2, ∀ y' ∈ T.rows j.ends.2,
      T.links j.ends x y → T.links j.ends x y' → y = y'
  base_unique : Design.isRelation j .oneToMany ∨ Design.isRelation j .oneToOne →
    ∀ x ∈ T.rows j.ends.1, ∀ x' ∈ T.rows j.ends.1, ∀ y ∈ T.rows j.ends.2,
      T.links j.ends x y → T.links j.ends x' y → x = x'

/-- No two rows of the result have the same key of a view, unless it is null. -/
def Identifies (T : Tables ρ κ) (root : String) (js : List Join) (view : String) : Prop :=
  ((T.joined root (js.map Join.ends)).filterMap fun r => (r view).map (T.key view)).Nodup

theorem Follows.mem_rows {r : Choice ρ}
    (h : T.Follows root pairs r) {x : ρ} (hx : r v = some x) : x ∈ T.rows v := by
  by_cases hv : v ∈ root :: targets pairs
  · rcases mem_cons.mp hv with rfl | hv
    · obtain ⟨x', hx', heq⟩ := h.start
      rw [heq] at hx
      cases hx
      exact hx'
    · obtain ⟨e, he, rfl⟩ := mem_map.mp hv
      have hpa := h.pair e he
      rw [hx, mem_partners] at hpa
      rcases hpa with ⟨b, hb, heq⟩ | ⟨hno, -⟩
      · cases heq
        exact ((T.mem_linked).mp hb).1
      · cases hno
  · rw [h.other v hv] at hx
    cases hx

theorem Follows.base {r : Choice ρ}
    (h : T.Follows root pairs r) (he : e ∈ pairs) {y : ρ} (hy : r e.2 = some y) :
    ∃ x, r e.1 = some x ∧ T.links e x y := by
  have hpa := h.pair e he
  rw [hy, mem_partners] at hpa
  rcases hpa with ⟨b, hb, heq⟩ | ⟨hno, -⟩
  · cases heq
    exact ((T.mem_linked).mp hb).2
  · cases hno

theorem partners_subsingleton {x : Option ρ}
    (h : ∀ b ∈ T.linked e x, ∀ b' ∈ T.linked e x, b = b') {y y' : Option ρ}
    (hy : y ∈ T.partners e x) (hy' : y' ∈ T.partners e x) : y = y' := by
  rw [mem_partners] at hy hy'
  rcases hy with ⟨b, hb, rfl⟩ | ⟨rfl, hnil⟩ <;> rcases hy' with ⟨b', hb', rfl⟩ | ⟨rfl, hnil'⟩
  · rw [h b hb b' hb']
  · simp [hnil'] at hb
  · simp [hnil] at hb'
  · rfl

end Tables

namespace Design

/-! ### Joins that keep the rows of a view -/

/-- The joins on the way to a view are one to many or one to one, all others many to one or one to
one. -/
def KeepsRows (js : List Join) (view : String) : Prop :=
  ∀ j ∈ js, (JoinGraph.Reaches (js.map Join.ends) j.ends.2 view →
      isRelation j .oneToMany ∨ isRelation j .oneToOne) ∧
    (¬ JoinGraph.Reaches (js.map Join.ends) j.ends.2 view →
      isRelation j .manyToOne ∨ isRelation j .oneToOne)

section Identify

variable {ρ κ : Type} {T : Tables ρ κ} {view : String} {r r' : Tables.Choice ρ} {x : ρ}

section

variable (hT : ∀ j ∈ js, T.Respects j) (hkp : KeepsRows js view)
  (hr : T.Follows root (js.map Join.ends) r) (hr' : T.Follows root (js.map Join.ends) r')
  (hx : r view = some x) (hx' : r' view = some x)
include hT hkp hr hr' hx hx'

theorem eq_on_way (hv : JoinGraph.Reaches (js.map Join.ends) v view) :
    ∃ y, r v = some y ∧ r' v = some y := by
  induction hv using Relation.ReflTransGen.head_induction_on with
  | refl => exact ⟨x, hx, hx'⟩
  | @head u v hs hway ih =>
    obtain ⟨y, hy, hy'⟩ := ih
    obtain ⟨j, hj, hends⟩ := mem_map.mp hs
    obtain ⟨a, ha, hlink⟩ := hr.base hs hy
    obtain ⟨a', ha', hlink'⟩ := hr'.base hs hy'
    have hrel := (hkp j hj).1 (by rw [hends]; exact hway)
    have := (hT j hj).base_unique hrel a (by rw [hends]; exact hr.mem_rows ha) a'
      (by rw [hends]; exact hr'.mem_rows ha') y (by rw [hends]; exact hr.mem_rows hy)
      (by rw [hends]; exact hlink) (by rw [hends]; exact hlink')
    subst this
    exact ⟨a, ha, ha'⟩

theorem eq_of_eq_at (htr : IsTree root (js.map Join.ends)) : r = r' := by
  have hview : view ∈ root :: targets (js.map Join.ends) := by
    by_contra hnot
    rw [hr.other view hnot] at hx
    cases hx
  have hrd : ∀ v, JoinGraph.Reaches (js.map Join.ends) root v → r v = r' v := by
    intro v hv
    induction hv with
    | refl =>
      obtain ⟨y, hy, hy'⟩ := eq_on_way hT hkp hr hr' hx hx' (htr.reaches_of_mem hview)
      rw [hy, hy']
    | @tail u v _ hs ih =>
      by_cases hway : JoinGraph.Reaches (js.map Join.ends) v view
      · obtain ⟨y, hy, hy'⟩ := eq_on_way hT hkp hr hr' hx hx' hway
        rw [hy, hy']
      · -- off the way the base decides what is next to it
        obtain ⟨j, hj, hends⟩ := mem_map.mp hs
        have hrel := (hkp j hj).2 (by rw [hends]; exact hway)
        have hone : ∀ b ∈ T.linked (u, v) (r u), ∀ b' ∈ T.linked (u, v) (r u), b = b' := by
          intro b hb b' hb'
          obtain ⟨hb, a, ha, hlink⟩ := T.mem_linked.mp hb
          obtain ⟨hb', a', ha', hlink'⟩ := T.mem_linked.mp hb'
          rw [ha] at ha'
          cases ha'
          have huni := (hT j hj).target_unique hrel
          rw [hends] at huni
          exact huni a (hr.mem_rows ha) b hb b' hb' hlink hlink'
        refine Tables.partners_subsingleton hone (hr.pair (u, v) hs) ?_
        have := hr'.pair (u, v) hs
        rwa [← ih] at this
  funext v
  by_cases hv : v ∈ root :: targets (js.map Join.ends)
  · exact hrd v (htr.reaches_of_mem hv)
  · rw [hr.other v hv, hr'.other v hv]

end

theorem KeepsRows.identifies (htr : IsTree root (js.map Join.ends)) (hkd : T.IsKeyed)
    (hT : ∀ j ∈ js, T.Respects j) (hkp : KeepsRows js view) : T.Identifies root js view := by
  unfold Tables.Identifies
  rw [List.Nodup, pairwise_filterMap]
  refine (T.nodup_joined htr fun v => .of_map _ (hkd v)).imp_of_mem ?_
  intro r r' hr hr' hne k hk k' hk' hkk
  obtain ⟨x, hx, rfl⟩ := Option.map_eq_some_iff.mp hk
  obtain ⟨x', hx', rfl⟩ := Option.map_eq_some_iff.mp hk'
  rw [T.mem_joined htr] at hr hr'
  have := inj_on_of_nodup_map (hkd view) (hr.mem_rows hx) (hr'.mem_rows hx') hkk
  subst this
  exact hne (eq_of_eq_at hT hkp hr hr' hx hx' htr)

end Identify

/-! ### Two sides of a pair -/

theorem eq_of_nodup_filterMap {α β : Type} {l : List α} {f : α → Option β}
    (h : (l.filterMap f).Nodup) {a a' : α} {b : β} (ha : a ∈ l) (ha' : a' ∈ l)
    (hb : f a = some b) (hb' : f a' = some b) : a = a' := by
  induction l with
  | nil => simp at ha
  | cons c l ih =>
    have hnot : ∀ x ∈ l, f c = some b → f x = some b → False := by
      intro x hx hc hfx
      rw [filterMap_cons_some hc, nodup_cons] at h
      exact h.1 (mem_filterMap.mpr ⟨x, hx, hfx⟩)
    have hl : (l.filterMap f).Nodup := by
      refine h.sublist ?_
      cases hc : f c with
      | none => rw [filterMap_cons_none hc]
      | some y => rw [filterMap_cons_some hc]; exact sublist_cons_self ..
    rcases mem_cons.mp ha with rfl | hal <;> rcases mem_cons.mp ha' with rfl | hal'
    · rfl
    · exact (hnot a' hal' hb hb').elim
    · exact (hnot a hal hb' hb).elim
    · exact ih hl hal hal'

/-- Tables in which the views of one side have two rows and all others one: along `e` all rows are
linked, along any other pair those that are equal. -/
def twoSided (side : String → Bool) (wide : Bool) (e : Pair) : Tables Bool Bool where
  rows v := if side v = wide then [false, true] else [false]
  key _ x := x
  links e' x y := decide (e' = e) || x == y

def wideChoice (side : String → Bool) (wide : Bool) (views : List String) (b : Bool) :
    Tables.Choice Bool := fun v =>
  if v ∈ views then some (if side v = wide then b else false) else none

section TwoSided

variable {view : String} {side : String → Bool} {wide : Bool}

theorem twoSided_mem_rows (v : String) (b : Bool) :
    (if side v = wide then b else false) ∈ (twoSided side wide e).rows v := by
  unfold twoSided
  dsimp only
  split_ifs
  · cases b <;> simp
  · simp

theorem twoSided_isKeyed : (twoSided side wide e).IsKeyed := by
  intro v
  unfold twoSided
  dsimp only
  split_ifs <;> simp

theorem wideChoice_follows (htr : IsTree root pairs)
    (hside : ∀ e' ∈ pairs, e' ≠ e → side e'.1 = side e'.2) (b : Bool) :
    (twoSided side wide e).Follows root pairs (wideChoice side wide (root :: targets pairs) b) := by
  refine ⟨⟨_, twoSided_mem_rows root b, by simp [wideChoice]⟩, fun e' he' => ?_, fun v hv => ?_⟩
  · have htgt := mem_cons_of_mem root (mem_targets he')
    simp only [wideChoice, if_pos htgt, if_pos (htr.source_mem he')]
    rw [Tables.mem_partners]
    refine Or.inl ⟨_, (Tables.mem_linked _).mpr ⟨twoSided_mem_rows e'.2 b, _, rfl, ?_⟩, rfl⟩
    by_cases heq : e' = e
    · simp [twoSided, heq]
    · simp [twoSided, hside e' he' heq]
  · simp only [wideChoice, if_neg hv]

theorem not_identifies_twoSided (wide : Bool) (htr : IsTree root (js.map Join.ends))
    (hside : ∀ e' ∈ js.map Join.ends, e' ≠ e → side e'.1 = side e'.2)
    (hview : view ∈ root :: targets (js.map Join.ends)) (hnarrow : side view ≠ wide)
    (hv : v ∈ root :: targets (js.map Join.ends)) (hwide : side v = wide) :
    ¬ (twoSided side wide e).Identifies root js view := by
  intro hnd
  have hmem := fun b => ((twoSided side wide e).mem_joined htr _).mpr
    (wideChoice_follows htr hside b)
  have hkey : ∀ b, (wideChoice side wide (root :: targets (js.map Join.ends)) b view).map
      ((twoSided side wide e).key view) = some false := by
    intro b
    simp only [wideChoice, if_pos hview, if_neg hnarrow, Option.map_some, twoSided]
  have heq := congrFun (eq_of_nodup_filterMap hnd (hmem false) (hmem true) (hkey false)
    (hkey true)) v
  simp only [wideChoice, if_pos hv, if_pos hwide, Option.some.injEq, Bool.false_eq_true] at heq

theorem twoSided_respects (htr : IsTree root (js.map Join.ends)) (hj : j ∈ js)
    (hb : isRelation j .oneToMany ∨ isRelation j .oneToOne → side j.ends.1 ≠ wide)
    (htgt : isRelation j .manyToOne ∨ isRelation j .oneToOne → side j.ends.2 ≠ wide) {j' : Join}
    (hj' : j' ∈ js) : (twoSided side wide j.ends).Respects j' := by
  have hnarrow : ∀ v x, side v ≠ wide → x ∈ (twoSided side wide j.ends).rows v → x = false := by
    intro v x hv hx
    simpa [twoSided, hv] using hx
  by_cases heq : j'.ends = j.ends
  · -- a target has one join only
    have hsm : j' = j := by
      have hnd := (nodup_cons.mp htr.distinct).2
      rw [targets, map_map] at hnd
      exact inj_on_of_nodup_map hnd hj' hj (congrArg Prod.snd heq)
    subst hsm
    refine ⟨fun hrel x _ y hy y' hy' _ _ => ?_, fun hrel x hx x' hx' y _ _ _ => ?_⟩
    · rw [hnarrow _ y (htgt hrel) hy, hnarrow _ y' (htgt hrel) hy']
    · rw [hnarrow _ x (hb hrel) hx, hnarrow _ x' (hb hrel) hx']
  · have hlinks : ∀ x y, (twoSided side wide j.ends).links j'.ends x y = true → x = y := by
      intro x y hxy
      simpa [twoSided, heq] using hxy
    refine ⟨fun _ x _ y _ y' _ h h' => ?_, fun _ x _ x' _ y _ h h' => ?_⟩
    · rw [← hlinks x y h, hlinks x y' h']
    · rw [hlinks x y h, ← hlinks x' y h']

end TwoSided

/-- **When the key of a view identifies the rows of joins**, in all tables that respect the
relationships: exactly if the joins keep its rows. -/
theorem identifies_iff_keepsRows (htr : IsTree root (js.map Join.ends))
    (hv : view ∈ root :: targets (js.map Join.ends)) :
    (∀ (ρ κ : Type) (T : Tables ρ κ), T.IsKeyed → (∀ j ∈ js, T.Respects j) →
      T.Identifies root js view) ↔ KeepsRows js view := by
  constructor
  · intro h j hj
    classical
    have he : j.ends ∈ js.map Join.ends := mem_map_of_mem hj
    -- one side is everything behind the target of the join
    let side : String → Bool := fun v =>
      decide (JoinGraph.Reaches (js.map Join.ends) j.ends.2 v)
    have hside : ∀ e' ∈ js.map Join.ends, e' ≠ j.ends → side e'.1 = side e'.2 := by
      intro e' he' hne
      simp only [side, htr.reaches_iff he he' hne]
    have hsrc : side j.ends.1 = false := by
      simp [side, htr.not_reaches_source he]
    have htgt : side j.ends.2 = true := by
      exact decide_eq_true Relation.ReflTransGen.refl
    constructor
    · intro hway
      by_contra hrel
      refine not_identifies_twoSided false htr hside hv ?_
        (htr.source_mem he) hsrc (h _ _ _ twoSided_isKeyed fun j' hj' =>
          twoSided_respects htr hj (fun hr => absurd hr hrel) (fun _ => by simp [htgt]) hj')
      simpa [side] using hway
    · intro hway
      by_contra hrel
      refine not_identifies_twoSided true htr hside hv ?_
        (mem_cons_of_mem _ (mem_targets he)) htgt
        (h _ _ _ twoSided_isKeyed fun j' hj' =>
          twoSided_respects htr hj (fun _ => by simp [hsrc]) (fun hr => absurd hr hrel) hj')
      simpa [side] using hway
  · intro hkp ρ κ T hkd hT
    exact hkp.identifies htr hkd hT

/-! ### The key of a design -/

theorem isRelation_unique {r r' : Relationship} (h : isRelation j r = true)
    (h' : isRelation j r' = true) : r = r' := by
  unfold isRelation Value.isTextOf at h h'
  cases hj : j.relationship with
  | text t =>
    simp only [hj, beq_iff_eq] at h h'
    rw [h] at h'
    revert h'
    cases r <;> cases r' <;> decide
  | _ => simp [hj] at h

theorem rowView_eq_base {base : String}
    (h : ∀ j ∈ js, isRelation j .manyToOne ∨ isRelation j .oneToOne) :
    rowView base before js = some base := by
  induction js generalizing before with
  | nil => rfl
  | cons j js ih =>
    have hnot : ∀ r, r ≠ .manyToOne → r ≠ .oneToOne → ¬ isRelation j r = true := by
      intro r h1 h2 hr
      rcases h j (by simp) with hj | hj
      · exact h1 (isRelation_unique hr hj)
      · exact h2 (isRelation_unique hr hj)
    rw [rowView, if_neg (hnot _ (by decide) (by decide)), if_neg (hnot _ (by decide) (by decide))]
    exact ih fun j' hj' => h j' (by simp [hj'])

theorem rowView_mem {base : String} (h : rowView base before js = some view) :
    view ∈ base :: targets (js.map Join.ends) := by
  induction js generalizing base before with
  | nil =>
    cases h
    simp
  | cons j js ih =>
    rw [rowView] at h
    split_ifs at h
    · exact mem_cons_of_mem _ (ih h)
    · rcases mem_cons.mp (ih h) with rfl | hmem
      · simp
      · simp [hmem]

theorem rowKeyOf_eq_field {p : Project} {id : String} (h : d.rowKeyOf p js = .ok (.field id)) :
    ∃ base view, d.baseOf p js = .ok base ∧ rowView base none js = some view ∧
      d.keyOf p view = .ok (.field id) := by
  unfold rowKeyOf at h
  by_cases hmany : (js.any (isRelation · .manyToMany)) = true
  · rw [if_pos hmany] at h
    cases h
  rw [if_neg hmany] at h
  obtain ⟨base, hb, h⟩ := Result.of_bind h
  split_ifs at h with hall
  · refine ⟨base, base, hb, rowView_eq_base fun j hj => ?_, h⟩
    simpa using all_eq_true.mp hall j hj
  · obtain ⟨_, -, h⟩ := Result.of_bind h
    cases hv : rowView base none js with
    | none =>
      rw [hv] at h
      cases h
    | some view =>
      rw [hv] at h
      exact ⟨base, view, hb, hv, h⟩

theorem rowKey_eq_ok {w w' : Workspace} {key : RowKey} : d.rowKey w = (.ok key, w') ↔
      ∃ js, d.joins w = (.ok js, w') ∧ d.rowKeyOf w'.project js = .ok key := by
  unfold rowKey
  constructor
  · intro h
    obtain ⟨js, w1, hjs, h⟩ := of_bind h
    replace h := of_project_bind h
    obtain ⟨hkey, rfl⟩ := lift_eq_ok.mp h
    exact ⟨js, hjs, hkey⟩
  · rintro ⟨js, hjs, hkey⟩
    refine bind_eq_ok.mpr ⟨js, w', hjs, ?_⟩
    refine bind_eq_ok.mpr ⟨_, w', project_eq_ok.mpr ⟨rfl, rfl⟩, ?_⟩
    exact lift_eq_ok.mpr ⟨hkey, rfl⟩

theorem views_ne_nil_of_baseOf {w w' : Workspace} {views : List String}
    {base : String} (hvs : d.requiredViews w.project = .ok views)
    (hjoins : d.joins w = (.ok js, w')) (hb : d.baseOf w.project js = .ok base) : views ≠ [] := by
  rintro rfl
  obtain ⟨views', g, pairs, hvs', -, hpn, hjs⟩ := joins_eq_ok.mp hjoins
  cases hvs.symm.trans hvs'
  cases (plan_nil g).symm.trans hpn
  cases hjs
  obtain ⟨views', hvs', hb⟩ := Result.of_bind hb
  cases hvs.symm.trans hvs'
  cases hb

/-- **When the key of a design identifies its rows.**  In all tables that respect the relationships
of the joins no two rows of the result have the same key, exactly if the joins keep the rows of the
view whose key it is. -/
theorem rowKey_identifies_iff {d : Design} {w w' : Workspace} {id : String}
    (hkey : d.rowKey w = (.ok (.field id), w')) :
    ∃ js root view, d.joins w = (.ok js, w') ∧ d.baseOf w.project js = .ok root ∧
      d.keyOf w.project view = .ok (.field id) ∧
      ((∀ j ∈ js, j.ends.1 ≠ j.ends.2) →
        ((∀ (ρ κ : Type) (T : Tables ρ κ), T.IsKeyed → (∀ j ∈ js, T.Respects j) →
          T.Identifies root js view) ↔ KeepsRows js view)) := by
  obtain ⟨js, hjoins, hkeyOf⟩ := rowKey_eq_ok.mp hkey
  obtain ⟨views, g, -, hviews, hg, -, -⟩ := joins_eq_ok.mp hjoins
  have hproject : w'.project = w.project := by
    obtain ⟨_, rfl⟩ := joinGraph_eq_ok hg
    rfl
  rw [hproject] at hkeyOf
  obtain ⟨root, view, hbase, hview, hid⟩ := rowKeyOf_eq_field hkeyOf
  have hsome := views_ne_nil_of_baseOf hviews hjoins hbase
  obtain ⟨pairs, hleads, -, hpairs⟩ := joins_follow_plan hg hviews hsome hjoins
  refine ⟨js, root, view, hjoins, hbase, hid, fun hself => ?_⟩
  have hends := map_ends_of_leads hleads
  obtain ⟨root', hplan⟩ := hpairs fun e he => by
    rw [← hends] at he
    obtain ⟨j, hj, rfl⟩ := mem_map.mp he
    exact hself j hj
  cases hbase.symm.trans (baseOf_isPlan hviews hplan hleads)
  have htree : IsTree root (js.map Join.ends) := by
    rw [hends]
    exact hplan.toIsTree
  exact identifies_iff_keepsRows htree (rowView_mem hview)

end Design

/-! ### The key of tickets

Of sales, customers, accounts and tickets the key is that of the tickets.  But a ticket is there once
for every sale of its customer: only the join in front of a join to many is looked at, and that is
one to one here. -/

namespace Tickets

theorem keyOf_tickets : design.keyOf project "tickets" = .ok (.field "tickets.id") := by cbv

theorem map_ends_joins : joins.map Join.ends
    = [("sales", "customers"), ("customers", "accounts"), ("accounts", "tickets")] := rfl

theorem rowView_joins : Design.rowView "sales" none joins = some "tickets" := rfl

theorem rowKey_design : design.rowKey workspace = (.ok (.field "tickets.id"), built) := by
  have hview : ∃ v, design.view project "sales" = .ok v := ⟨_, by cbv⟩
  obtain ⟨v, hv⟩ := hview
  refine Design.rowKey_eq_ok.mpr ⟨joins, joins_design, ?_⟩
  unfold Design.rowKeyOf
  refine Result.bind_eq_ok.mpr ⟨"sales", rfl, ?_⟩
  refine Result.bind_eq_ok.mpr ⟨v, hv, ?_⟩
  rw [rowView_joins]
  exact keyOf_tickets

/-- Two sales, and one row in every other table. -/
def twoSales : Tables Bool Bool := Design.twoSided (· == "sales") true ("sales", "customers")

theorem isTree_joins : IsTree "sales" (joins.map Join.ends) := by
  rw [map_ends_joins]
  exact ⟨by simp [JoinGraph.Linked], by decide⟩

theorem twoSales_respects : ∀ j ∈ joins, twoSales.Respects j := fun _ hj =>
  Design.twoSided_respects isTree_joins (mem_cons_self ..) (by decide) (by decide) hj

end Tickets

namespace Design

theorem rowKey_identifies_iff_tickets : ∃ js root view,
    Tickets.design.joins Tickets.workspace = (.ok js, Tickets.built) ∧
      Tickets.design.baseOf Tickets.project js = .ok root ∧
      Tickets.design.keyOf Tickets.project view = .ok (.field "tickets.id") ∧
      ((∀ (ρ κ : Type) (T : Tables ρ κ), T.IsKeyed → (∀ j ∈ js, T.Respects j) →
        T.Identifies root js view) ↔ KeepsRows js view) := by
  obtain ⟨js, root, view, hjoins, hbase, hid, hiff⟩ :=
    rowKey_identifies_iff Tickets.rowKey_design
  cases hjoins.symm.trans Tickets.joins_design
  refine ⟨Tickets.joins, root, view, hjoins, hbase, hid, hiff fun j hj => ?_⟩
  have hmem := mem_map_of_mem (f := Join.ends) hj
  rw [Tickets.map_ends_joins] at hmem
  revert hmem
  generalize j.ends = e
  simp only [mem_cons, not_mem_nil, or_false]
  rintro (rfl | rfl | rfl) <;> decide

/-- The key of the tickets is the key of the design, and a result has a ticket twice. -/
theorem tickets_key_repeats :
    Tickets.design.rowKey Tickets.workspace = (.ok (.field "tickets.id"), Tickets.built) ∧
    Tickets.design.joins Tickets.workspace = (.ok Tickets.joins, Tickets.built) ∧
    Tickets.twoSales.IsKeyed ∧ (∀ j ∈ Tickets.joins, Tickets.twoSales.Respects j) ∧
    ¬ Tickets.twoSales.Identifies "sales" Tickets.joins "tickets" := by
  refine ⟨Tickets.rowKey_design, Tickets.joins_design, twoSided_isKeyed,
    Tickets.twoSales_respects, ?_⟩
  unfold Tables.Identifies
  rw [Tickets.map_ends_joins]
  decide

end Design

end SemanticLayer
