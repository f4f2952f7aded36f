import SemanticLayer.Proofs.Project.Declared
import SemanticLayer.Query.Merged

/-!
# Queries of additive metrics

A measure that is not additive is taken at the rows of a window.  A query looks at more measures
than it names (`Project.Involves`); if all of them are additive, its selections have no windows
(`readWindows_eq_nil`).
-/

namespace SemanticLayer

open Result

variable {d : Design} {f g : Field} {p : Project} {name : String} {v : Value}

variable {metrics : List String} {ws : List Window}

/-! ### Fields that a query looks at -/

namespace Field

/-- A field that can be added up along all dimensions. -/
def IsAdditive (f : Field) : Prop := (f.property "non_additive_dimension").truthy = false

/-- A metric that is computed from the results of queries: it merges results or it adds up over
time. -/
def IsDerived (p : Project) (f : Field) : Prop :=
  (∃ v, f.isMergedResult p = .ok v ∧ v.truthy = true) ∨ f.isCumulative p = .ok true

/-- A measure whose results a metric is computed from. -/
inductive IsPart (p : Project) (f g : Field) : Prop where
  | mentioned {rs : List Reached} (hf : f.IsDerived p) (hrs : MergedQuery.measuresOf p f = .ok rs)
      (hg : .field g ∈ rs)
  | addedUp (hf : f.isCumulative p = .ok true) (hg : f.measure p = .ok (.field g))

end Field

/-- The fields that a query of a model looks at for the metrics it names.  Sub-queries look up what
they are made of once more. -/
inductive Project.Involves (p : Project) (m : Option Model) (names : List String) : Field → Prop where
  | named {n : String} {asked : Option Model} {f : Field} (hn : n ∈ names)
      (hm : asked = none ∨ asked = m) (hf : p.getField n none asked = .ok f) : p.Involves m names f
  | part {f g : Field} (hf : p.Involves m names f) (hg : f.IsPart p g) : p.Involves m names g
  | again {asked : Option Model} {f g : Field} (hf : p.Involves m names f)
      (hm : asked = none ∨ asked = m) (hg : p.getField f.id none asked = .ok g) :
      p.Involves m names g

namespace Project

variable {m : Option Model} {names names' : List String}

theorem Involves.of_subset (h : names' ⊆ names) (hf : p.Involves m names' f) :
    p.Involves m names f := by
  induction hf with
  | named hn hm hf => exact .named (h hn) hm hf
  | part _ hg ih => exact .part ih hg
  | again _ hm hg ih => exact .again ih hm hg

theorem Involves.of_ids (h : ∀ n ∈ names', ∃ f, p.Involves m names f ∧ f.id = n)
    (hg : p.Involves m names' g) : p.Involves m names g := by
  induction hg with
  | named hn hm hf =>
    obtain ⟨f, hinv, rfl⟩ := h _ hn
    exact .again hinv hm hf
  | part _ hg ih => exact .part ih hg
  | again _ hm hg ih => exact .again ih hm hg

/-- All fields that a query looks at for its metrics are additive. -/
def AllAdditive (p : Project) (m : Option Model) (names : List String) : Prop :=
  ∀ f, p.Involves m names f → f.IsAdditive

theorem AllAdditive.of_subset (h : p.AllAdditive m names) (hsub : names' ⊆ names) :
    p.AllAdditive m names' :=
  fun f hf => h f (hf.of_subset hsub)

theorem AllAdditive.of_ids (h : p.AllAdditive m names)
    (hids : ∀ n ∈ names', ∃ f, p.Involves m names f ∧ f.id = n) : p.AllAdditive m names' :=
  fun f hf => h f (hf.of_ids hids)

theorem AllAdditive.nil (p : Project) (m : Option Model) : p.AllAdditive m [] := by
  intro f hf
  exfalso
  induction hf with
  | named hn => cases hn
  | part _ _ ih => exact ih
  | again _ _ _ ih => exact ih

end Project

def Conditions.names (cs : Conditions) : List String :=
  cs.items.map fun c => (c.definition.get "field").plain

/-- The measures that a funnel counts and those in its conditions on groups. -/
def Funnel.names (f : Funnel) : List String := f.metrics ++ f.havings.names

/-- A selection of additive metrics, over events with additive metrics. -/
structure Selection.IsAdditive (p : Project) (m : Option Model) (q : Selection) : Prop where
  metrics : p.AllAdditive m q.metrics
  events : ∀ f ∈ q.events, p.AllAdditive m f.names

theorem Conditions.mem_names {items : List Condition} {c : Condition} {n : String} (hc : c ∈ items)
    (hv : c.definition.need "field" = .ok v) (hn : v.needText = .ok n) :
    n ∈ (Conditions.listed items).names := by
  refine List.mem_map.mpr ⟨c, hc, ?_⟩
  rw [Definition.get_of_get? (Definition.need_eq_ok.mp hv), Value.eq_text_of_needText hn]
  rfl

/-! ### Designs -/

namespace Design

variable {name : String}

theorem field_eq_ok (h : d.field p name = .ok f) :
    ∃ g, p.getField name none d.model = .ok g ∧ f.definition = g.definition ∧ f.view = g.view ∧
      (d.shifts = [] → f = g) := by
  unfold field at h
  obtain ⟨g, hg, h⟩ := of_bind h
  obtain ⟨⟨own, view⟩, -, h⟩ := of_bind h
  refine ⟨g, hg, ?_⟩
  dsimp only at h
  split at h
  · next hs =>
    cases h
    refine ⟨rfl, rfl, fun hnil => ?_⟩
    rw [hnil] at hs
    cases hs
  · cases h
    exact ⟨rfl, rfl, fun _ => rfl⟩

theorem model_put (d : Design) (name : String) (f : Field) : (d.put name f).model = d.model := by
  unfold put
  split_ifs
  · rfl
  · rfl

theorem shifts_put (d : Design) (name : String) (f : Field) : (d.put name f).shifts = d.shifts := by
  unfold put
  split_ifs
  · rfl
  · rfl

theorem foldl_put {α : Type} (name : α → String) (field : α → Field) (l : List α) (d : Design) :
    (l.foldl (fun d a => d.put (name a) (field a)) d).model = d.model ∧
      (l.foldl (fun d a => d.put (name a) (field a)) d).shifts = d.shifts := by
  induction l generalizing d with
  | nil => exact ⟨rfl, rfl⟩
  | cons a l ih =>
    obtain ⟨hmodel, hshifts⟩ := ih (d.put (name a) (field a))
    exact ⟨hmodel.trans (d.model_put _ _), hshifts.trans (d.shifts_put _ _)⟩

theorem foldl_put_id (fields : List Field) (d : Design) :
    (fields.foldl (fun d f => d.put f.id f) d).model = d.model :=
  (foldl_put Field.id (fun f => f) fields d).1

end Design

/-! ### Windows -/

theorem Value.isEmpty_of_map? {d : Definition} (h : v.map? = some d) (hv : v.truthy = false) :
    d.isEmpty = true := by
  cases v with
  | map entries =>
    cases h
    simpa [truthy] using hv
  | _ => cases h

namespace Field

end Field

namespace Selection

theorem readWindow_eq_ok {o : Option Window} (h : readWindow p d name = .ok o) :
    ∃ f, d.field p name = .ok f ∧ (f.IsAdditive ∧ o = none ∨
      ∃ m win, f.property "non_additive_dimension" = .map m ∧ o = some win ∧ win.field = f ∧
        f.nonAdditiveTable.map Field.orNone = .ok win.table ∧ f.Qualifies m win.definition) := by
  obtain ⟨f, hf, h⟩ := of_bind h
  refine ⟨f, hf, ?_⟩
  obtain ⟨v, hv, h⟩ := of_bind h
  obtain ⟨hadditive, rfl⟩ | ⟨m, m', hm, rfl, hq⟩ := Field.nonAdditive_eq_ok hv
  · refine .inl ⟨hadditive, ?_⟩
    split at h
    · next definition hmap =>
      rw [if_pos (Value.isEmpty_of_map? hmap hadditive)] at h
      cases h
      rfl
    · cases h
      rfl
  · dsimp only [Value.map?] at h
    rw [if_neg (by simp [hq.isEmpty.2])] at h
    obtain ⟨column, -, h⟩ := of_bind h
    obtain ⟨table, htable, h⟩ := of_bind h
    cases h
    exact .inr ⟨m, _, hm, rfl, rfl, by rw [htable]; rfl, hq⟩

theorem mem_readWindows {win : Window} (h : readWindows p d metrics = .ok ws) (hwin : win ∈ ws) :
    ∃ n ∈ metrics, d.field p n = .ok win.field ∧
      ∃ m, win.field.property "non_additive_dimension" = .map m ∧
        win.field.Qualifies m win.definition := by
  obtain ⟨n, hn, hs⟩ := ((filterMapM_eq_ok h).2 win).mp hwin
  obtain ⟨f, hf, ⟨-, hnone⟩ | ⟨m, win', hm, heq, rfl, -, hq⟩⟩ := readWindow_eq_ok hs
  · cases hnone
  · cases heq
    exact ⟨n, hn, hf, m, hm, hq⟩

theorem readWindows_eq_nil (hadd : p.AllAdditive d.model metrics)
    (h : readWindows p d metrics = .ok ws) : ws = [] := by
  rw [List.eq_nil_iff_forall_not_mem]
  intro win hwin
  obtain ⟨n, hn, hf, m, hm, hq⟩ := mem_readWindows h hwin
  obtain ⟨g, hg, hdef, -⟩ := Design.field_eq_ok hf
  have hadditive : win.field.IsAdditive := by
    unfold Field.IsAdditive Field.property
    rw [hdef]
    exact hadd g (.named hn (.inr rfl) hg)
  unfold Field.IsAdditive at hadditive
  rw [hm] at hadditive
  simp [Value.truthy, hq.isEmpty.1] at hadditive

theorem readWindows_of_read {q : Selection} {w w' : Workspace} {r : Reading}
    (h : q.read d w = (.ok r, w')) : readWindows w.project d q.metrics = .ok r.windows := by
  replace h := Action.of_project_bind h
  obtain ⟨access, w1, -, h⟩ := Action.of_bind h
  obtain ⟨wheres, w2, -, h⟩ := Action.of_bind h
  have hr : ∀ {w2 : Workspace}, (do
      let havings ← q.readHavings d
      let orders ← q.readOrder d
      let windows ← readWindows w.project d q.metrics
      return { wheres := wheres.filter fun r => !r.isGrouped && !r.isFunnel,
               funnels := wheres.filter Restriction.isFunnel,
               grouped := wheres.filter Restriction.isGrouped
                 ++ havings.filter Restriction.isGrouped,
               havings := havings.filter fun r => !r.isGrouped,
               orders := orders, windows := windows } : Action Reading) w2 = (.ok r, w') →
      readWindows w.project d q.metrics = .ok r.windows := by
    intro w2 h
    obtain ⟨havings, w3, -, h⟩ := Action.of_bind h
    obtain ⟨orders, w4, -, h⟩ := Action.of_bind h
    obtain ⟨windows, hwin, rfl⟩ := Action.of_bind_pure h
    exact (Action.lift_eq_ok.mp hwin).1
  dsimp only at h
  split_ifs at h
  · cases h
  · exact hr h

end Selection

/-! ### Projects without windows -/

theorem Field.refer_of_measure (h : f.measure p = .ok (.field g)) :
    ∃ name, f.refer p name = .ok g := by
  obtain h | h := (orWritten_cases h).imp_right And.right
  · dsimp only at h
    split_ifs at h
    · obtain ⟨name, -, h⟩ := of_bind h
      obtain ⟨g', hg', h⟩ := of_bind h
      cases h
      exact ⟨name, hg'⟩
    · cases h
  · cases h

theorem Field.refer_of_mem_references {depth : Nat} {sql : String}
    {rs : List Reached} (hrs : f.referencesWithin p depth sql = .ok rs)
    (hg : .field g ∈ rs) : ∃ (f' : Field) (name : String), f'.refer p name = .ok g := by
  induction depth generalizing f sql rs with
  | zero => cases hrs
  | succ depth ih =>
    obtain ⟨found, hfd, hrs⟩ := of_bind hrs
    cases hrs
    obtain ⟨gs, hgs, hg⟩ := List.mem_flatten.mp hg
    obtain ⟨name, -, hs⟩ := exists_of_mem_mapM hfd hgs
    split_ifs at hs
    · cases hs
      cases hg
    · split at hs
      · split_ifs at hs
        cases hs
        simp at hg
      · next f' hrefer =>
        split_ifs at hs
        · obtain ⟨sql', -, hs⟩ := of_bind hs
          cases sql' with
          | none =>
            cases hs
            cases hg
          | some sql' =>
            dsimp only at hs
            split_ifs at hs
            · cases hs
              cases hg
            · exact ih hs hg
        · cases hs
          cases List.mem_singleton.mp hg
          exact ⟨f, name, hrefer⟩

/-- No measure of the project has a non-additive dimension. -/
def Store.IsAdditive (p : Store) : Prop :=
  ∀ s ∈ p.shelves, ∀ d ∈ s.fields, (d.get "non_additive_dimension").truthy = false

namespace Store.IsAdditive

variable {p : Store} (h : p.IsAdditive)
include h

theorem of_fieldsOn {i : Nat} {d : Definition} (hd : d ∈ p.fieldsOn i) :
    (d.get "non_additive_dimension").truthy = false :=
  Store.Declares.of_fieldsOn (Q := fun v => v.truthy = false) h hd

theorem getField {view : Option String} {asked : Option Model}
    (hf : p.seen.getField name view asked = .ok f) : f.IsAdditive :=
  Store.Declares.getField (Q := fun v => v.truthy = false) h rfl hf

theorem isPart (hg : f.IsPart p g) : g.IsAdditive := by
  cases hg with
  | mentioned _ hrs hg =>
    obtain ⟨sql, -, hrs⟩ := of_bind hrs
    cases sql with
    | none =>
      cases hrs
      cases hg
    | some sql =>
      obtain ⟨f', name, hrefer⟩ := Field.refer_of_mem_references hrs hg
      exact h.getField hrefer
  | addedUp _ hg =>
    obtain ⟨name, hrefer⟩ := Field.refer_of_measure hg
    exact h.getField hrefer

theorem allAdditive (m : Option Model) (names : List String) : p.seen.AllAdditive m names := by
  intro f hf
  cases hf with
  | named _ _ hf => exact h.getField hf
  | part _ hg => exact h.isPart hg
  | again _ _ hg => exact h.getField hg

end Store.IsAdditive

end SemanticLayer
