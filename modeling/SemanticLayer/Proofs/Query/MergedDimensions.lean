import SemanticLayer.Proofs.Project.Mapping
import SemanticLayer.Proofs.Query.MergedDates

/-!
# The dimensions of merged results

Sub-queries are joined on their dimensions place by place, so the fields at one place should mean
the same (`Setting.Related`).  Each list is made of blocks, one for every dimension of the query
(`Steps.inBlocks`), so the lists fit exactly if every dimension has equally many fields in all of
them (`parts_aligned_iff`).
-/

namespace SemanticLayer

open SemanticLayer.Action List Grouping

variable {P : Field → Prop} {f g : Field} {k : String} {t t' : Grouping Field}

variable {c : Counterpart} {fs : List Field}

/-! ### Lists in blocks -/

section Blocks

variable {φ α : Type} {In : φ → α → Prop} {R : α → α → Prop} {fs : List φ} {l l' : List α}

/-- A list made of blocks, one for each of some kinds in their order. -/
inductive InBlocks (In : φ → α → Prop) : List φ → List α → Prop
  | nil : InBlocks In [] []
  | cons {f : φ} {fs : List φ} {b l : List α} : (∀ x ∈ b, In f x) → InBlocks In fs l →
      InBlocks In (f :: fs) (b ++ l)

namespace InBlocks

theorem snoc {f : φ} {b : List α} (h : InBlocks In fs l) (hb : ∀ x ∈ b, In f x) :
    InBlocks In (fs ++ [f]) (l ++ b) := by
  induction h with
  | nil => simpa using cons hb nil
  | cons hb' _ ih =>
    rw [append_assoc]
    exact cons hb' ih

theorem sublist (h : InBlocks In fs l) (hl : l'.Sublist l) : InBlocks In fs l' := by
  induction h generalizing l' with
  | nil =>
    rw [sublist_nil.mp hl]
    exact nil
  | cons hb _ ih =>
    obtain ⟨b', rest, rfl, hb', hr⟩ := sublist_append_iff.mp hl
    exact cons (fun x hx => hb x (hb'.subset hx)) (ih hr)

theorem exists_mem (h : InBlocks In fs l) {x : α} (hx : x ∈ l) : ∃ f ∈ fs, In f x := by
  induction h with
  | nil => cases hx
  | @cons f _ _ _ hb _ ih =>
    rcases mem_append.mp hx with hx | hx
    · exact ⟨f, by simp, hb x hx⟩
    · obtain ⟨f', hf', hx'⟩ := ih hx
      exact ⟨f', by simp [hf'], hx'⟩

end InBlocks

theorem countP_eq_of_forall₂ {p : α → Bool} (h : List.Forall₂ R l l')
    (hp : ∀ x ∈ l, ∀ y ∈ l', R x y → p x = p y) : l.countP p = l'.countP p := by
  induction h with
  | nil => rfl
  | @cons x y l l' hxy _ ih =>
    have hr := ih fun x' hx' y' hy' => hp x' (by simp [hx']) y' (by simp [hy'])
    rw [countP_cons, countP_cons, hr, hp x (by simp) y (by simp) hxy]

theorem forall₂_of_length_eq (hlen : l.length = l'.length) (h : ∀ x ∈ l, ∀ y ∈ l', R x y) :
    List.Forall₂ R l l' := by
  refine forall₂_iff_get.mpr ⟨hlen, fun i h1 h2 => ?_⟩
  exact h _ (get_mem _ _) _ (get_mem _ _)

/-- **When lists of the same blocks fit place by place**: exactly if they have equally many elements
of every kind, where elements of one kind are related and those of different kinds are not. -/
theorem InBlocks.forall₂_iff {p : φ → α → Bool} (hl : InBlocks In fs l) (hl' : InBlocks In fs l')
    (hp : ∀ f ∈ fs, ∀ f' ∈ fs, ∀ x, In f' x → (p f x = true ↔ In f x))
    (hk : ∀ f ∈ fs, ∀ x y, In f x → In f y → R x y)
    (hap : fs.Pairwise fun f f' => ∀ x y, In f x → In f' y → ¬ R x y ∧ ¬ R y x) :
    List.Forall₂ R l l' ↔ ∀ f ∈ fs, l.countP (p f) = l'.countP (p f) := by
  constructor
  · intro hfit f hf
    refine countP_eq_of_forall₂ hfit fun x hx y hy hxy => ?_
    obtain ⟨f1, hf1, hx1⟩ := hl.exists_mem hx
    obtain ⟨f2, hf2, hy2⟩ := hl'.exists_mem hy
    -- related elements are of one kind
    have hsm : ∀ f ∈ fs, ∀ f' ∈ fs, In f x → In f' y → f = f' := by
      intro f hf f' hf' hfx hfy
      by_contra hne
      have hsymm : Std.Symm fun f f' : φ => ∀ x y, In f x → In f' y → ¬ R x y ∧ ¬ R y x :=
        ⟨fun f f' hff x y hx hy => (hff y x hy hx).symm⟩
      exact (hap.forall hf hf' hne x y hfx hfy).1 hxy
    rw [Bool.eq_iff_iff, hp f hf f1 hf1 x hx1, hp f hf f2 hf2 y hy2]
    constructor
    · intro hfx
      rwa [hsm f hf f2 hf2 hfx hy2]
    · intro hfy
      rwa [← hsm f1 hf1 f hf hx1 hfy]
  · intro hct
    induction hl generalizing l' with
    | nil =>
      cases hl'
      exact List.Forall₂.nil
    | @cons f fs b l hb hl ih =>
      cases hl' with
      | @cons _ _ b' rest hb' hr =>
        obtain ⟨hhead, hap'⟩ := pairwise_cons.mp hap
        -- an element is of one kind only
        have hone : ∀ f' ∈ fs, ∀ x, In f x → ¬ In f' x := fun f' hf' x hx hx' =>
          (hhead f' hf' x x hx hx').1 (hk f (by simp) x x hx hx)
        have hall : ∀ {c : List α}, (∀ x ∈ c, In f x) → c.countP (p f) = c.length := fun hc =>
          countP_eq_length.mpr fun x hx =>
            (hp f (by simp) f (by simp) x (hc x hx)).mpr (hc x hx)
        have hno : ∀ {c : List α}, InBlocks In fs c → c.countP (p f) = 0 := fun hc =>
          countP_eq_zero.mpr fun x hx hfx => by
            obtain ⟨f', hf', hx'⟩ := hc.exists_mem hx
            exact hone f' hf' x ((hp f (by simp) f' (by simp [hf']) x hx').mp hfx) hx'
        have hot : ∀ f' ∈ fs, ∀ {c : List α}, (∀ x ∈ c, In f x) → c.countP (p f') = 0 :=
          fun f' hf' c hc => countP_eq_zero.mpr fun x hx hfx =>
            hone f' hf' x (hc x hx) ((hp f' (by simp [hf']) f (by simp) x (hc x hx)).mp hfx)
        have hlen : b.length = b'.length := by
          have heq := hct f (by simp)
          rw [countP_append, countP_append, hall hb, hall hb', hno hl, hno hr] at heq
          simpa using heq
        have hblock : List.Forall₂ R b b' := forall₂_of_length_eq hlen fun x hx y hy =>
          hk f (by simp) x y (hb x hx) (hb' y hy)
        have hk' : ∀ f' ∈ fs, ∀ x y, In f' x → In f' y → R x y := fun f' hf' =>
          hk f' (by simp [hf'])
        refine rel_append hblock (ih hr ?_ hk' hap' ?_)
        · exact fun f1 hf1 f2 hf2 => hp f1 (by simp [hf1]) f2 (by simp [hf2])
        · intro f' hf'
          have heq := hct f' (by simp [hf'])
          rw [countP_append, countP_append, hot f' hf' hb, hot f' hf' hb'] at heq
          simpa using heq

end Blocks

namespace MergedQuery

/-! ### Lists of dimensions -/

theorem Adds.get (h : Adds P t t') (k : String) :
    ∃ b, (∀ g ∈ b, P g) ∧ t'.get k = t.get k ++ b := by
  induction h with
  | refl => exact ⟨[], by simp, by simp⟩
  | @add t' g key _ hg ih =>
    obtain ⟨b, hb, hget⟩ := ih
    rw [get_add]
    by_cases hk : k = key
    · refine ⟨b ++ [g], fun x hx => ?_, by simp [← hk, hget]⟩
      rcases mem_append.mp hx with hx | hx
      · exact hb x hx
      · rwa [mem_singleton.mp hx]
    · exact ⟨b, hb, by simp [hk, hget]⟩

theorem Adds.mem (h : Adds P t t') (hg : g ∈ t.get k) : g ∈ t'.get k := by
  obtain ⟨b, -, hget⟩ := h.get k
  rw [hget]
  exact mem_append_left b hg

theorem Adds.Has.mem (h : Has P f t t') : ∃ k, f ∈ t'.get k := by
  obtain ⟨t1, key, -, hbeh⟩ := h
  exact ⟨key, hbeh.mem (mem_get_add.mpr (Or.inr ⟨rfl, rfl⟩))⟩

variable {q : MergedQuery} {parts : Parts} {w w' : Workspace}

structure Setting where
  project : Project
  dates : List String
  counterparts : Grouping Counterpart
  /-- The names that each mapping lists. -/
  mapped : List (List String)

def Setting.family (c : Setting) (f : Field) : List Field :=
  MergedQuery.family c.project c.dates c.counterparts f

namespace Steps

variable (s : q.Steps w parts w')

def setting : Setting where
  project := w.project
  dates := s.layout.dates
  counterparts := s.counterparts
  mapped := s.model.mappedNames w.project

/-- **The lists are made of blocks**, one of the family of each dimension in their order. -/
theorem inBlocks : ∃ fs, (q.dimensions.mapM fun name => w.project.seen.getField name) = .ok fs ∧
    (∀ k, InBlocks (fun f g => g ∈ s.setting.family f) fs (parts.dimensions.get k)) ∧
      ∀ f ∈ fs, ∃ k, ∃ g ∈ parts.dimensions.get k, g.id = f.id := by
  have hrun := foldlM_track (P := fun done t w1 => w1.project = w.project ∧
      ∃ fs, (done.mapM fun name => w.project.seen.getField name) = .ok fs ∧
        (∀ k, InBlocks (fun f g => g ∈ s.setting.family f) fs (t.2.get k)) ∧
          ∀ f ∈ fs, ∃ k, f ∈ t.2.get k) s.arePlaced ?_ ?_
  · obtain ⟨-, fs, hfs, hblk, hmem⟩ := hrun
    refine ⟨fs, hfs, fun k => ?_, fun f hf => ?_⟩
    · rw [s.areDistinct, get_distinctAll]
      exact (hblk k).sublist (Project.distinct_sublist _)
    · obtain ⟨k, hk⟩ := hmem f hf
      obtain ⟨g, hg, hid⟩ := Project.exists_mem_distinct hk
      exact ⟨k, g, by rwa [s.areDistinct, get_distinctAll], hid⟩
  · exact ⟨s.extends_mapped.project.trans s.extends_laid.project, [], rfl, fun k => .nil, by simp⟩
  · rintro done t name t' w1 w2 ⟨hpr, fs, hfs, hblk, hmem⟩ hs
    obtain ⟨f, hf, hhas⟩ := dimensionStep_adds hs
    rw [hpr] at hf hhas
    have hadds := hhas.adds self_mem_family
    have hw : w1.Extends w2 := (dimensionStep_follows _ _ _ _ _).way hs
    refine ⟨hw.project.trans hpr, fs ++ [f], ?_, fun k => ?_, fun g hg => ?_⟩
    · rw [mapM_append, hfs, mapM_cons, hf]
      rfl
    · obtain ⟨b, hb, hget⟩ := hadds.get k
      rw [hget]
      exact (hblk k).snoc hb
    · rcases mem_append.mp hg with hg | hg
      · obtain ⟨k, hk⟩ := hmem g hg
        exact ⟨k, hadds.mem hk⟩
      · rw [mem_singleton.mp hg]
        exact hhas.mem

end Steps

/-! ### Related fields -/

namespace Setting

variable (c : Setting)

def IsListed (names : List String) (g : Field) : Prop :=
  g.key ∈ names ∨ ∃ n ∈ names, ∃ e ∈ (c.project.getField n).toOption, e.id = g.id

instance (names : List String) (g : Field) : Decidable (c.IsListed names g) :=
  inferInstanceAs (Decidable (_ ∨ ∃ n ∈ names, ∃ e ∈ (c.project.getField n).toOption, e.id = g.id))

/-- Fields that mean the same in merged results: one field, dates of the query at one timeframe, or
fields of one mapping. -/
def Related (g g' : Field) : Prop :=
  g.id = g'.id ∨ (g.key ∈ c.dates ∧ g'.key ∈ c.dates ∧ g.group.plain = g'.group.plain) ∨
    ∃ names ∈ c.mapped, c.IsListed names g ∧ c.IsListed names g'

instance (g g' : Field) : Decidable (c.Related g g') :=
  inferInstanceAs (Decidable (_ ∨ _ ∨ ∃ names ∈ c.mapped, c.IsListed names g ∧ c.IsListed names g'))

variable {c} in
theorem Related.symm {g' : Field} (h : c.Related g g') : c.Related g' g := by
  rcases h with hid | ⟨hg, hg', hgr⟩ | ⟨names, hns, hg, hg'⟩
  · exact Or.inl hid.symm
  · exact Or.inr (Or.inl ⟨hg', hg, hgr.symm⟩)
  · exact Or.inr (Or.inr ⟨names, hns, hg', hg⟩)

/-- The names of dates with the timeframes of dimensions mean these dates at these timeframes. -/
def NamesDates (fs : List Field) : Prop :=
  ∀ f ∈ fs, f.key ∈ c.dates → ∀ d ∈ c.dates,
    ∀ g ∈ (c.project.getField (d ++ "_" ++ f.group.plain)).toOption,
      g.key = d ∧ g.group.plain = f.group.plain

instance (fs : List Field) : Decidable (c.NamesDates fs) :=
  inferInstanceAs (Decidable (∀ f ∈ fs, f.key ∈ c.dates → ∀ d ∈ c.dates,
    ∀ g ∈ (c.project.getField (d ++ "_" ++ f.group.plain)).toOption,
      g.key = d ∧ g.group.plain = f.group.plain))

def MapsNoDate (fs : List Field) : Prop :=
  ∀ f ∈ fs, f.key ∈ c.dates → ∀ names ∈ c.mapped, f.key ∉ names

instance (fs : List Field) : Decidable (c.MapsNoDate fs) :=
  inferInstanceAs (Decidable (∀ f ∈ fs, f.key ∈ c.dates → ∀ names ∈ c.mapped, f.key ∉ names))

/-- No field that stands for one dimension means the same as one that stands for another. -/
def AreApart (fs : List Field) : Prop :=
  fs.Pairwise fun f f' => ∀ x ∈ c.family f, ∀ y ∈ c.family f', ¬ c.Related x y

instance (fs : List Field) : Decidable (c.AreApart fs) :=
  inferInstanceAs (Decidable
    (fs.Pairwise fun f f' => ∀ x ∈ c.family f, ∀ y ∈ c.family f', ¬ c.Related x y))

end Setting

/-! ### Families of related fields -/

theorem layout_counterpart {l : Layout} {mappings : List (String × Mapping)}
    (hc : c ∈ (l.counterparts mappings).get k) : c ∈ l.byDate.get k ∨
      ∃ e ∈ mappings, e.1 = k ∧ c.field = e.2.field ∧ c.component = some e.2.target := by
  unfold Layout.counterparts at hc
  refine List.foldlRecOn (motive := fun r : Grouping Counterpart × Grouping Counterpart =>
    ∀ c ∈ r.2.get k, c ∈ l.byDate.get k ∨
      ∃ e ∈ mappings, e.1 = k ∧ c.field = e.2.field ∧ c.component = some e.2.target)
    mappings _ (fun c hc => Or.inl hc) (fun r hr e he => ?_) c hc
  unfold mappingStep
  refine List.foldlRecOn
    (motive := fun r : Grouping Counterpart × Grouping Counterpart × String =>
      ∀ c ∈ r.2.1.get k, c ∈ l.byDate.get k ∨
        ∃ e ∈ mappings, e.1 = k ∧ c.field = e.2.field ∧ c.component = some e.2.target)
    l.keys _ hr fun r hr part _ c hc => ?_
  rcases mem_get_add.mp hc with hc | ⟨hk, rfl⟩
  · exact hr c hc
  · exact Or.inr ⟨e, he, hk.symm, rfl, rfl⟩

theorem dateCounterparts_dates {ds : List String} {t : Grouping Counterpart}
    (h : dateCounterparts ds w = (.ok t, w')) {d : String} (hc : c ∈ t.get d) :
    d ∈ ds ∧ c.field ∈ ds := by
  unfold dateCounterparts at h
  refine foldlM_induct_mem (P := fun t => ∀ d, ∀ c ∈ t.get d, d ∈ ds ∧ c.field ∈ ds) h
    (fun d c hc => nomatch hc) (fun t pair t' w1 w2 hpa ht hs => ?_) d c hc
  obtain ⟨f, w3, -, hs⟩ := of_bind hs
  obtain ⟨components, -, rfl⟩ := of_bind_pure hs
  intro d c hc
  rcases mem_get_add.mp hc with hc | ⟨rfl, rfl⟩
  · exact ht d c hc
  · obtain ⟨d, hd, hpa⟩ := mem_flatMap.mp hpa
    obtain ⟨other, hot, rfl⟩ := mem_map.mp hpa
    exact ⟨hd, (mem_filter.mp hot).1⟩

namespace Steps

variable (s : q.Steps w parts w')

theorem fieldMappings_eq : ∃ component,
    s.model.fieldMappings s.setting.project component true = .ok s.mappings := by
  have h := s.areMapped
  unfold Action.fieldMappings at h
  obtain ⟨g, w1, hg, h⟩ := of_bind h
  replace h := of_project_bind h
  have hw1 : s.laid.Extends w1 := Action.Pane.tells.outcome_any.way hg
  rw [hw1.project, s.extends_laid.project] at h
  exact ⟨_, (lift_eq_ok.mp h).1⟩

theorem counterpart_cases (hc : c ∈ s.setting.counterparts.get k) :
    (k ∈ s.setting.dates ∧ c.field ∈ s.setting.dates) ∨
      ∃ e ∈ s.mappings, e.1 = k ∧ c.field = e.2.field := by
  rcases layout_counterpart hc with hc | hc
  · obtain ⟨_, _, _, w1, -, -, -, hbyDate, -⟩ := layout_eq_ok s.isLaid
    exact Or.inl (dateCounterparts_dates hbyDate hc)
  · obtain ⟨e, he, hkey, hfld, -⟩ := hc
    exact Or.inr ⟨e, he, hkey, hfld⟩

theorem family_of_date (hns : s.setting.NamesDates fs) (hmp : s.setting.MapsNoDate fs) (hf : f ∈ fs)
    (hdt : f.key ∈ s.setting.dates) (hg : g ∈ s.setting.family f) :
    g.key ∈ s.setting.dates ∧ g.group.plain = f.group.plain := by
  rcases mem_family.mp hg with rfl | ⟨c, hc, hrd⟩
  · exact ⟨hdt, rfl⟩
  · rcases s.counterpart_cases hc with ⟨-, hfld⟩ | ⟨e, he, hkey, -⟩
    · rw [counterpartName, if_pos (by simpa using hdt)] at hrd
      obtain ⟨hkey, hgr⟩ := hns f hf hdt c.field hfld g (by rw [hrd]; rfl)
      exact ⟨hkey ▸ hfld, hgr⟩
    · obtain ⟨component, hmappings⟩ := s.fieldMappings_eq
      obtain ⟨names, hls, hmem, -⟩ := (Model.fieldMappings_spec hmappings).1 e he
      exact absurd (hkey ▸ hmem) (hmp f hf hdt names hls)

theorem family_of_mapping (hnot : f.key ∉ s.setting.dates) (hg : g ∈ s.setting.family f) :
    g = f ∨ ∃ e ∈ s.mappings, e.1 = f.key ∧ s.setting.project.getField e.2.field = .ok g := by
  rcases mem_family.mp hg with rfl | ⟨c, hc, hrd⟩
  · exact Or.inl rfl
  · rcases s.counterpart_cases hc with ⟨hdt, -⟩ | ⟨e, he, hkey, hfld⟩
    · exact absurd hdt hnot
    · rw [counterpartName, if_neg (by simpa using hnot), hfld] at hrd
      exact Or.inr ⟨e, he, hkey, hrd⟩

theorem family_related (hns : s.setting.NamesDates fs) (hmp : s.setting.MapsNoDate fs) {x y : Field}
    (hf : f ∈ fs) (hx : x ∈ s.setting.family f) (hy : y ∈ s.setting.family f) :
    s.setting.Related x y := by
  by_cases hdt : f.key ∈ s.setting.dates
  · obtain ⟨hxdate, hxgroup⟩ := s.family_of_date hns hmp hf hdt hx
    obtain ⟨hydate, hygroup⟩ := s.family_of_date hns hmp hf hdt hy
    exact Or.inr (Or.inl ⟨hxdate, hydate, hxgroup.trans hygroup.symm⟩)
  · obtain ⟨component, hmappings⟩ := s.fieldMappings_eq
    obtain ⟨hls, hnd⟩ := Model.fieldMappings_spec hmappings
    have hself : ∀ g, g ∈ s.setting.family f → s.setting.Related f g := by
      intro g hg
      rcases s.family_of_mapping hdt hg with rfl | ⟨e, he, hkey, hrd⟩
      · exact Or.inl rfl
      · obtain ⟨names, hns, hkd, hfld⟩ := hls e he
        refine Or.inr (Or.inr ⟨names, hns, Or.inl (hkey ▸ hkd), Or.inr ?_⟩)
        exact ⟨e.2.field, hfld, g, by rw [hrd]; rfl, rfl⟩
    rcases s.family_of_mapping hdt hx with rfl | ⟨e, he, hkey, hrd⟩
    · exact hself y hy
    rcases s.family_of_mapping hdt hy with rfl | ⟨e', he', hkey', hrd'⟩
    · exact (hself x hx).symm
    -- one name has one mapping
    have heq : e = e' := inj_on_of_nodup_map hnd he he' (hkey.trans hkey'.symm)
    subst heq
    cases hrd.symm.trans hrd'
    exact Or.inl rfl

end Steps

/-! ### Joining place by place -/

theorem equationText_of_lt {warehouse : Warehouse} {first second : String}
    (hsnd : second ∈ t.keys) (f : Field) {i : Nat} (hi : i < (t.get second).length) :
    ∃ text, equationText warehouse t first second (f, i) = .ok text := by
  obtain ⟨fs, hfi⟩ := exists_find hsnd
  rw [get_of_find? hfi] at hi
  unfold equationText
  simp only [hfi, pure_bind, List.getElem?_eq_getElem hi]
  split_ifs
  · exact ⟨_, rfl⟩
  · exact ⟨_, rfl⟩

theorem joinCondition_eq_ok_iff (warehouse : Warehouse)
    {first second : String} (hfil : t.IsFilled) (hfst : first ∈ t.keys) (hsnd : second ∈ t.keys) :
    joinCondition warehouse t first second = .ok (renderOn (equations warehouse t first second)) ↔
      (t.get first).length ≤ (t.get second).length := by
  constructor
  · intro h
    rcases (joinCondition_eq hfil h).2 with rfl | hcmp
    · cases hfst
    · exact hcmp.length_le
  · intro hlen
    have hwr : ∃ text, joinCondition warehouse t first second = .ok text := by
      obtain ⟨fs, hfi⟩ := exists_find hfst
      have hget : t.get first = fs := get_of_find? hfi
      rw [hget] at hlen
      have htx : ∃ texts, fs.zipIdx.mapM (equationText warehouse t first second) = .ok texts := by
        refine Result.mapM_ok_iff.mpr ?_
        rintro ⟨f, i⟩ hmem
        have hi := (mem_zipIdx hmem).2.1
        exact equationText_of_lt hsnd f (by omega)
      obtain ⟨texts, htx⟩ := htx
      unfold joinCondition
      split_ifs
      · exact ⟨_, rfl⟩
      · simp only [hfi, pure_bind, htx]
        exact ⟨_, rfl⟩
    obtain ⟨text, h⟩ := hwr
    rw [h, (joinCondition_eq hfil h).1]

/-! ### Aligned dimensions -/

/-- The lists of dimensions fit: every sub-query with metrics has one where there are dimensions,
and fields at one place mean the same. -/
structure IsAligned (q : MergedQuery) (parts : Parts) (R : Field → Field → Prop) : Prop where
  listed : q.dimensions ≠ [] → ∀ k ∈ parts.metrics.keys, k ∈ parts.dimensions.keys
  fits : ∀ k ∈ parts.dimensions.keys, ∀ k' ∈ parts.dimensions.keys,
    List.Forall₂ R (parts.dimensions.get k) (parts.dimensions.get k')

theorem IsAligned.equations_related {R : Field → Field → Prop} (h : IsAligned q parts R)
    {k' : String}
    (hk : k ∈ parts.dimensions.keys) (hk' : k' ∈ parts.dimensions.keys) (warehouse : Warehouse) :
    ∀ e ∈ equations warehouse parts.dimensions k k', ∃ f g, R f g ∧
      e = equation warehouse k k' f g := by
  have hfit := h.fits k hk k' hk'
  unfold equations
  generalize parts.dimensions.get k = l at hfit ⊢
  generalize parts.dimensions.get k' = l' at hfit ⊢
  induction hfit with
  | nil => simp
  | cons hfg _ ih =>
    rw [zipWith_cons_cons, forall_mem_cons]
    exact ⟨⟨_, _, hfg, rfl⟩, ih⟩

def countOf (kin l : List Field) : Nat := l.countP fun g => kin.any (·.id == g.id)

theorem Setting.AreApart.mem_family_iff {c : Setting} (hap : c.AreApart fs) {f' : Field}
    (hf : f ∈ fs) (hf' : f' ∈ fs) (hg : g ∈ c.family f') :
    (c.family f).any (·.id == g.id) = true ↔ g ∈ c.family f := by
  rw [any_eq_true]
  constructor
  · rintro ⟨e, he, hid⟩
    by_cases hsm : f = f'
    · rwa [hsm]
    · have hsymm : Std.Symm fun f f' => ∀ x ∈ c.family f, ∀ y ∈ c.family f', ¬ c.Related x y :=
        ⟨fun f f' hff x hx y hy hrelated => hff y hy x hx hrelated.symm⟩
      exact absurd (Or.inl (by simpa using hid)) (hap.forall hf hf' hsm e he g hg)
  · exact fun hkin => ⟨g, hkin, by simp⟩

theorem Steps.forall₂_iff (s : q.Steps w parts w') (hap : s.setting.AreApart fs)
    (hns : s.setting.NamesDates fs) (hmp : s.setting.MapsNoDate fs) {l l' : List Field}
    (hl : InBlocks (fun f g => g ∈ s.setting.family f) fs l)
    (hl' : InBlocks (fun f g => g ∈ s.setting.family f) fs l') :
    List.Forall₂ s.setting.Related l l' ↔
      ∀ f ∈ fs, countOf (s.setting.family f) l = countOf (s.setting.family f) l' := by
  refine InBlocks.forall₂_iff hl hl' (fun f hf f' hf' g => hap.mem_family_iff hf hf')
    (fun f hf x y => s.family_related hns hmp hf) ?_
  exact hap.imp fun hff x y hx hy => ⟨hff x hx y hy, fun h => hff x hx y hy h.symm⟩

/-- **When the dimensions of merged results fit.**  The list of every sub-query goes through the
families of the dimensions in their order.  Where dimensions are apart, the lists fit place by place
if and only if all sub-queries have equally many fields of every family.  Two sub-queries can be
joined if and only if the second list is as long as the first. -/
theorem parts_aligned_iff (h : q.parts w = (.ok parts, w')) :
    ∃ s : q.Steps w parts w', ∃ fs,
      (q.dimensions.mapM fun name => w.project.seen.getField name) = .ok fs ∧
      (∀ k, InBlocks (fun f g => g ∈ s.setting.family f) fs (parts.dimensions.get k)) ∧
      (s.setting.NamesDates fs → s.setting.MapsNoDate fs →
        (∀ f ∈ fs, ∀ x ∈ s.setting.family f, ∀ y ∈ s.setting.family f, s.setting.Related x y) ∧
        (s.setting.AreApart fs → (IsAligned q parts s.setting.Related ↔
          ∀ f ∈ fs, ∀ k ∈ parts.keys, ∀ k' ∈ parts.keys,
            countOf (s.setting.family f) (parts.dimensions.get k)
              = countOf (s.setting.family f) (parts.dimensions.get k')))) ∧
      ∀ warehouse, ∀ k ∈ parts.dimensions.keys, ∀ k' ∈ parts.dimensions.keys,
        (joinCondition warehouse parts.dimensions k k'
            = .ok (renderOn (equations warehouse parts.dimensions k k')) ↔
          (parts.dimensions.get k).length ≤ (parts.dimensions.get k').length) ∧
        (IsAligned q parts s.setting.Related →
          ∀ e ∈ equations warehouse parts.dimensions k k', ∃ f g, s.setting.Related f g ∧
            e = equation warehouse k k' f g) := by
  obtain ⟨s⟩ := parts_eq_ok h
  obtain ⟨fs, hfs, hblocks, hmem⟩ := s.inBlocks
  have hlength : q.dimensions.length = fs.length := (Result.mapM_eq_ok hfs).length_eq
  have hmetrics : ∀ k ∈ parts.metrics.keys, k ∈ parts.keys := fun k hk =>
    mem_eraseDups.mpr (mem_append_left _ hk)
  have hdimensions : ∀ k ∈ parts.dimensions.keys, k ∈ parts.keys := fun k hk =>
    mem_eraseDups.mpr (mem_append_right _ hk)
  refine ⟨s, fs, hfs, hblocks, fun hnames hmaps => ⟨fun f hf x hx y hy =>
    s.family_related hnames hmaps hf hx hy, fun hapart => ⟨fun haligned f hf k hk k' hk' => ?_,
      fun hcount => ⟨fun hasked k hk => ?_, fun k hk k' hk' => ?_⟩⟩⟩,
    fun warehouse k hk k' hk' => ⟨joinCondition_eq_ok_iff warehouse (parts_isFilled h) hk hk',
      fun haligned => haligned.equations_related hk hk' warehouse⟩⟩
  · have hlisted : ∀ k ∈ parts.keys, k ∈ parts.dimensions.keys := by
      intro k hk
      have hasked : q.dimensions ≠ [] := by
        rw [← length_pos_iff, hlength]
        exact length_pos_of_mem hf
      rcases mem_append.mp (mem_eraseDups.mp hk) with hk | hk
      · exact haligned.listed hasked k hk
      · exact hk
    exact (s.forall₂_iff hapart hnames hmaps (hblocks k) (hblocks k')).mp
      (haligned.fits k (hlisted k hk) k' (hlisted k' hk')) f hf
  · -- the first dimension is in some list, so all lists have a field of its family
    obtain ⟨f, hf⟩ := exists_mem_of_length_pos (hlength ▸ length_pos_iff.mpr hasked)
    obtain ⟨k', g, hg, hid⟩ := hmem f hf
    have hpos : 0 < countOf (s.setting.family f) (parts.dimensions.get k') :=
      countP_pos_iff.mpr ⟨g, hg, any_eq_true.mpr ⟨f, self_mem_family, by simp [hid]⟩⟩
    rw [hcount f hf k' (hdimensions k' (mem_keys_of_mem_get hg)) k (hmetrics k hk)] at hpos
    obtain ⟨g', hg', -⟩ := countP_pos_iff.mp hpos
    exact mem_keys_of_mem_get hg'
  · exact (s.forall₂_iff hapart hnames hmaps (hblocks k) (hblocks k')).mpr fun f hf =>
      hcount f hf k (hdimensions k hk) k' (hdimensions k' hk')

/-! ### Channels of calls, sales and visits

The channels of three views are mapped to each other and so are their sources.  A mapping leads from
a field to one other field only, so one of three sub-queries has none of the family. -/

def findSetting (q : MergedQuery) : Action Setting := do
  let l ← q.layout
  let m ← q.needModel
  let mappings ← Action.fieldMappings m true
  let p ← Action.project
  return ⟨p, l.dates, l.counterparts mappings, m.mappedNames p⟩

theorem Steps.findSetting_eq (s : q.Steps w parts w') :
    q.findSetting w = (.ok s.setting, s.mapped) := by
  have hmd : (liftM q.needModel : Action Model) s.laid = (.ok s.model, s.laid) := by
    rw [lift_apply, s.isModel]
  have hpr : Action.project s.mapped = (.ok w.project.seen, s.mapped) := by
    rw [project_eq_ok, s.extends_mapped.project, s.extends_laid.project]
    exact ⟨rfl, rfl⟩
  unfold findSetting
  rw [bind_of_eq_ok s.isLaid, bind_of_eq_ok hmd, bind_of_eq_ok s.areMapped, bind_of_eq_ok hpr]
  rfl

theorem exists_steps {check : Setting → Parts → Bool}
    (h : ((q.findSetting w).1.toOption.any fun c => (q.parts w).1.toOption.any (check c)) = true) :
    ∃ parts w', q.parts w = (.ok parts, w') ∧
      ∀ s : q.Steps w parts w', check s.setting parts = true := by
  rcases hrun : q.parts w with ⟨e | parts, w'⟩
  · rw [hrun] at h
    simp [Except.toOption] at h
  · refine ⟨parts, w', rfl, fun s => ?_⟩
    rw [hrun, s.findSetting_eq] at h
    exact h

namespace Channels

def dimension (name : String) : Definition :=
  [("name", .text name), ("field_type", .text "dimension"), ("type", .text "string"),
    ("sql", .text name)]

def fields : List Definition := dimension "channel" :: dimension "source" :: Shops.fields

def mapping (first second third : String) : Value :=
  .map [("fields", .texts [first, second, third])]

def shop : Definition :=
  [("name", .text "shop"), ("connection", .text "warehouse"),
    ("mappings", .map [("channel", mapping "sales.channel" "calls.channel" "visits.channel"),
      ("source", mapping "sales.source" "visits.source" "calls.source")])]

def project : Store :=
  { (default : Store) with
    models := [shop]
    views := [Shops.entry "visits" 0, Shops.entry "sales" 1, Shops.entry "calls" 2]
    shelves := [⟨fields, .null⟩, ⟨fields, .null⟩, ⟨fields, .null⟩] }

def view (name : String) (shelf : Nat) : View where
  definition := (Shops.entry name shelf).definition ++ [("sets", .list [])]
  shelf := shelf
  always := .null
  asked := none
  expanded := false

def graph : JoinGraph where
  graph := ⟨["visits", "sales", "calls"], []⟩
  bridges := []
  components := [["visits"], ["sales"], ["calls"]]
  reached := [["visits"], ["sales"], ["calls"]]

theorem ofGraph_eq : JoinGraph.ofGraph ⟨["visits", "sales", "calls"], []⟩ [] = graph := by
  have hcom : (⟨["visits", "sales", "calls"], []⟩ : Digraph String Definition).components
      = [["visits"], ["sales"], ["calls"]] := by
    decide +kernel
  have hsrt : JoinGraph.sortedComponents ⟨["visits", "sales", "calls"], []⟩
      = [["visits"], ["sales"], ["calls"]] := by
    unfold JoinGraph.sortedComponents
    rw [hcom]
    simp only [map_cons, mergeSort_singleton]
    exact mergeSort_of_pairwise (by decide +kernel)
  unfold JoinGraph.ofGraph
  rw [hsrt]
  rfl

theorem exists_build : ∃ views, project.listViews none = .ok views ∧
    JoinGraph.build views = .ok graph := by
  refine ⟨[view "visits" 0, view "sales" 1, view "calls" 2], rfl, ?_⟩
  rw [← ofGraph_eq]
  -- the components are not looked at
  unfold JoinGraph.build
  generalize JoinGraph.ofGraph = make
  rfl

def workspace : Workspace where
  project := project
  joinGraph := some ⟨graph, exists_build.imp fun _ h => h.2⟩
  remembered := ["visits", "sales", "calls"].zipIdx.flatMap fun (view, i) =>
    ["made_None", "made_raw", "number", "channel", "source"].map fun name =>
      ((project.userKey, view ++ "." ++ name), [JoinGraph.componentName i])

def query (metrics dimensions : List String) : MergedQuery where
  metrics := metrics
  dimensions := dimensions
  wheres := .listed []
  havings := .listed []
  model := some ⟨shop⟩
  warehouse := some .snowflake
  options := []

/-- Sales and visits, by channel and date. -/
def byDate : MergedQuery :=
  query ["sales.number", "visits.number"] ["sales.channel", "sales.made_raw"]

def bySource : MergedQuery :=
  query ["calls.number", "sales.number", "visits.number"] ["sales.channel", "sales.source"]

/-- Whether dimensions are apart and all sub-queries have equally many fields of each. -/
def fits (q : MergedQuery) (c : Setting) (parts : Parts) : Bool :=
  (q.dimensions.mapM fun name => c.project.getField name).toOption.any fun fs =>
    decide (c.NamesDates fs ∧ c.MapsNoDate fs ∧ c.AreApart fs ∧
      ∀ f ∈ fs, ∀ k ∈ parts.keys, ∀ k' ∈ parts.keys, countOf (c.family f) (parts.dimensions.get k)
          = countOf (c.family f) (parts.dimensions.get k'))

/-- Whether two sub-queries are joined on fields that are not related. -/
def joinsApart (first second text : String) (c : Setting) (parts : Parts) : Bool :=
  decide (∃ f ∈ (parts.dimensions.get first).head?, ∃ g ∈ (parts.dimensions.get second).head?,
    ¬ c.Related f g) &&
    (joinCondition .snowflake parts.dimensions first second).toOption == some text

theorem parts_byDate : ∃ parts w', byDate.parts workspace = (.ok parts, w') ∧
    ∀ s : byDate.Steps workspace parts w', fits byDate s.setting parts = true := by
  apply exists_steps
  unfold findSetting Layout.counterparts MergedQuery.parts layout dates Layout.keys partsOf
    Action.fieldMappings Model.mappedNames Model.fieldMappings Model.mappings Mapping.mostCommon
  simp only [mergeSort_by_text, mergeSort_by_count]
  decide +kernel

theorem parts_bySource : ∃ parts w', bySource.parts workspace = (.ok parts, w') ∧
    ∀ s : bySource.Steps workspace parts w',
      joinsApart "calls_made__subquery_2" "sales_made__subquery_1"
        "calls_made__subquery_2.calls_source=sales_made__subquery_1.sales_channel"
        s.setting parts = true := by
  apply exists_steps
  unfold findSetting Layout.counterparts MergedQuery.parts layout dates Layout.keys partsOf
    Action.fieldMappings Model.mappedNames Model.fieldMappings Model.mappings Mapping.mostCommon
  simp only [mergeSort_by_text, mergeSort_by_count]
  decide +kernel

end Channels

theorem parts_aligned_iff_channels : ∃ parts w',
    Channels.byDate.parts Channels.workspace = (.ok parts, w') ∧
    ∃ s : Channels.byDate.Steps Channels.workspace parts w', ∃ fs,
      (Channels.byDate.dimensions.mapM fun name => Channels.project.seen.getField name) = .ok fs ∧
      (s.setting.NamesDates fs ∧ s.setting.MapsNoDate fs ∧ s.setting.AreApart fs) ∧
      IsAligned Channels.byDate parts s.setting.Related := by
  obtain ⟨parts, w', h, hfits⟩ := Channels.parts_byDate
  obtain ⟨s, fs, hfs, -, hiff, -⟩ := parts_aligned_iff h
  have hcheck := hfits s
  have hread : (Channels.byDate.dimensions.mapM fun name => s.setting.project.getField name)
      = .ok fs := hfs
  rw [Channels.fits, hread] at hcheck
  obtain ⟨hnames, hmaps, hapart, hcount⟩ := of_decide_eq_true hcheck
  exact ⟨parts, w', h, s, fs, hfs, ⟨hnames, hmaps, hapart⟩,
    ((hiff hnames hmaps).2 hapart).mpr hcount⟩

/-- The sub-queries of calls and of sales do not fit: the sources of calls are joined with the
channels of sales. -/
theorem calls_source_joined_with_sales_channel : ∃ parts w',
    Channels.bySource.parts Channels.workspace = (.ok parts, w') ∧
    (∃ s : Channels.bySource.Steps Channels.workspace parts w',
      ¬ IsAligned Channels.bySource parts s.setting.Related ∧
      ∃ f ∈ (parts.dimensions.get "calls_made__subquery_2").head?,
        ∃ g ∈ (parts.dimensions.get "sales_made__subquery_1").head?, ¬ s.setting.Related f g) ∧
    joinCondition .snowflake parts.dimensions "calls_made__subquery_2" "sales_made__subquery_1"
      = .ok "calls_made__subquery_2.calls_source=sales_made__subquery_1.sales_channel" := by
  obtain ⟨parts, w', h, hjoins⟩ := Channels.parts_bySource
  obtain ⟨s⟩ := parts_eq_ok h
  have hcheck := hjoins s
  rw [Channels.joinsApart, Bool.and_eq_true, decide_eq_true_eq, beq_iff_eq] at hcheck
  obtain ⟨⟨f, hf, g, hg, hnot⟩, htext⟩ := hcheck
  refine ⟨parts, w', h, ⟨s, fun haligned => ?_, f, hf, g, hg, hnot⟩, ?_⟩
  · obtain ⟨rest, hrest⟩ := List.head?_eq_some_iff.mp hf
    obtain ⟨rest', hrest'⟩ := List.head?_eq_some_iff.mp hg
    have hfit := haligned.fits "calls_made__subquery_2"
      (mem_keys_of_mem_get (mem_of_mem_head? hf)) "sales_made__subquery_1"
      (mem_keys_of_mem_get (mem_of_mem_head? hg))
    rw [hrest, hrest', forall₂_cons] at hfit
    exact hnot hfit.1
  · revert htext
    cases joinCondition .snowflake parts.dimensions "calls_made__subquery_2"
      "sales_made__subquery_1" <;> simp [Except.toOption]

end MergedQuery

end SemanticLayer
