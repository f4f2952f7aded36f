import SemanticLayer.Proofs.Query.Effect
import SemanticLayer.Proofs.Query.Noninterference
import SemanticLayer.Session

/-!
# Compiling leaves the project alone

Whatever comes of a request, every view has the same fields as before, apart from fields under the
names of measures that windows are made with.  Under those names a field can be lost
(`Cash.latest_lost`), and a measure stays if its table cannot be compiled.
-/

namespace SemanticLayer

open SemanticLayer.Action

/-! ### Steps that only lend -/

theorem Selection.lentName_mem {p : Store} {names : List String} (h : p.lent ⊆ names) {d : Design}
    {metrics : List String} {ws : List Window} (hrd : readWindows p d metrics = .ok ws)
    {win : Window} (hwin : win ∈ ws) :
    Field.lentName win.definition ∈ names ∧ Text.lower (Field.lentName win.definition) ∈ names := by
  have hdec : p.Declares fun v => ∀ m, v.map? = some m →
      Field.lentName m ∈ names ∧ Text.lower (Field.lentName m) ∈ names := by
    intro s hs field hfld m hm
    have hlent := Store.lent_subset_iff.mp h s hs field hfld
    unfold Field.lentNames at hlent
    rw [hm] at hlent
    exact ⟨hlent (by simp), hlent (by simp)⟩
  obtain ⟨n, -, hf, m, hm, hq⟩ := mem_readWindows hrd hwin
  obtain ⟨g, hg, hdef, -⟩ := Design.field_eq_ok hf
  have hgdeclares := hdec.getField (fun _ hm => nomatch hm) hg
  rw [hq.lentName_eq]
  refine hgdeclares m ?_
  unfold Field.property at hm ⊢
  rw [← hdef, hm]
  rfl

namespace Store

variable {p : Store} {names : List String}

def Lends (names : List String) (m : Definition) : Prop :=
  Field.lentName m ∈ names ∧ Text.lower (Field.lentName m) ∈ names

theorem frames_steps (names : List String) (p : Store) :
    Steps (Frames names p) Store.Any (Lends names) where
  setAlways i always h := ⟨h.setAlways i always, trivial⟩
  schema schema h := ⟨h.schema schema, trivial⟩
  windows h hrd _ hwin := Selection.lentName_mem h.lent hrd hwin
  collect i name dimensions _ h := ⟨h.collect i name dimensions, trivial⟩
  lend hm hn hd h hadd := h.lend hn hm.2 hd hadd
  takeBack hm h hrem := h.takeBack hm.1 hrem
  settle _ _ _ _ _ _ _ := trivial

def AreLower (names : List String) : Prop := ∀ t ∈ names, Text.lower t = t

theorem Frames.views {q : Store} (h : Frames names p q) :
    q.views.map (·.definition) = p.views.map (·.definition) := by
  have hmap := congrArg (fun d => d.2.map Prod.fst) h.definitions
  unfold definitionsBut at hmap
  rwa [List.map_map, List.map_map] at hmap

theorem settled_steps (hns : AreLower names) (p : Store) :
    Steps (fun q => Frames names p q ∧ q.IsUnshared) (Settled names) (Lends names) where
  setAlways i always h := ⟨⟨h.1.setAlways i always, h.2⟩, fun _ _ _ =>
    Holds.of_namesOn rfl (namesOn_setAlways _ i always)⟩
  schema schema h := ⟨⟨h.1.schema schema, h.2⟩, fun _ _ _ hq => hq⟩
  windows h hrd _ hwin := Selection.lentName_mem h.1.lent hrd hwin
  collect i name dimensions _ h := ⟨⟨h.1.collect i name dimensions, h.2⟩, fun _ _ _ =>
    Holds.of_namesOn rfl (namesOn_collect _ i name dimensions)⟩
  lend hm hn hd h hadd := ⟨h.1.lend hn hm.2 hd hadd, h.2.added hadd⟩
  takeBack hm h hrem := ⟨h.1.takeBack hm.1 hrem, h.2.removed h.1.isShelved hrem⟩
  settle hm hn h hadd hbetween h2 hrem :=
    .loan h.2 hn (hns _ hm.1) hadd hbetween (h2.1.views.trans h.1.views.symm)
      h2.1.isShelved hrem

/-- A project in which nothing is left of what is lent: the names are in small letters and not in
use, and no two views share their fields. -/
structure IsLendable (p : Store) : Prop where
  isShelved : p.IsShelved
  isUnshared : p.IsUnshared
  lower : AreLower p.lent
  free : ∀ t ∈ p.lent, ∀ k, ¬ p.Holds k t

theorem Frames.refl (h : p.IsShelved) : Frames p.lent p p := ⟨h, fun _ ht => ht, rfl⟩

end Store

/-! ### Sessions -/

namespace Session

variable {s : Session}

theorem perform_apply {α : Type} (a : Action α) (s : Session) :
    s.perform a = ((a s.workspace).1, { s with workspace := (a s.workspace).2 }) := rfl

section

variable {J : Store → Prop} {K : Definition → Prop} (hs : Steps J Store.Any K) (h : J s.store)
include hs h

theorem compile_keeps (r : Request) :
    J (s.compile r).2.store ∧ (s.compile r).2.workspace.chosen = s.workspace.chosen := by
  unfold compile
  cases s.connections with
  | error e => exact ⟨h, rfl⟩
  | ok cs =>
    exact Request.compile_keeps hs cs _ h

theorem convert_keeps (sql : String) (options : Definition) :
    J (s.convert sql options).2.store ∧
      (s.convert sql options).2.workspace.chosen = s.workspace.chosen := by
  unfold convert
  cases s.connections with
  | error e => exact ⟨h, rfl⟩
  | ok cs =>
    exact Mql.convert_keeps hs cs _ sql h

end

theorem compile_settled (h : s.store.IsLendable) {r : Request} {c : CompiledQuery} {s' : Session}
    (hrun : s.compile r = (.ok c, s')) (hkind : c.kind = .single) :
    s'.store.IsLendable ∧ s'.store.definitionsBut [] = s.store.definitionsBut [] := by
  have hss := Store.settled_steps h.lower s.store
  have hst : Store.Frames s.store.lent s.store s.store ∧ s.store.IsUnshared :=
    ⟨.refl h.isShelved, h.isUnshared⟩
  have hkp : (Store.Frames s.store.lent s.store s'.store ∧ s'.store.IsUnshared) ∧
      Store.Settled s.store.lent s.store s'.store := by
    unfold compile at hrun
    cases hcon : s.connections with
    | error e =>
      rw [hcon] at hrun
      cases hrun
    | ok cs =>
      rw [hcon] at hrun
      dsimp only at hrun
      rw [perform_apply, Prod.mk.injEq] at hrun
      obtain ⟨hc, rfl⟩ := hrun
      exact ⟨(Request.compile_keeps hss cs _ hst).1,
        Request.compile_single hss hst (Prod.ext hc rfl) hkind⟩
  obtain ⟨⟨hfrs, hunshared⟩, hset⟩ := hkp
  have hfree : ∀ k, ∀ t ∈ s.store.lent, ¬ s'.store.Holds k t := fun k t ht hk =>
    h.free t ht k (hset k t ht hk)
  refine ⟨⟨hfrs.isShelved, hunshared, fun t ht => h.lower t (hfrs.lent ht),
    fun t ht k => hfree k t (hfrs.lent ht)⟩, ?_⟩
  calc s'.store.definitionsBut []
      = s'.store.definitionsBut s.store.lent := (Store.definitionsBut_of_free hfree).symm
    _ = s.store.definitionsBut s.store.lent := hfrs.definitions
    _ = s.store.definitionsBut [] := Store.definitionsBut_of_free fun k t ht => h.free t ht k

/-- **Compiling leaves the project alone.**  Whatever comes of a request or of a text with requests
in it, all views have the same fields, in the same order, apart from fields under the names that
windows lend.  A single query leaves no trace of these either, if their names are in small letters
and not in use and no two views share their fields. -/
theorem compile_keeps_contents (h : s.store.IsShelved) :
    (∀ r, (s.compile r).2.store.IsShelved ∧
      (s.compile r).2.store.contents s.store.lent = s.store.contents s.store.lent) ∧
    (∀ sql options, (s.convert sql options).2.store.IsShelved ∧
      (s.convert sql options).2.store.contents s.store.lent = s.store.contents s.store.lent) ∧
    (s.store.IsUnshared → (∀ t ∈ s.store.lent, Text.lower t = t ∧ ∀ k, ¬ s.store.Holds k t) →
      ∀ r c s', s.compile r = (.ok c, s') → c.kind = .single →
        s'.store.contents [] = s.store.contents []) := by
  refine ⟨fun r => ?_, fun sql options => ?_, fun hunshared hnames r c s' hrun hkind => ?_⟩
  · have hframes := (compile_keeps (Store.frames_steps _ _) (.refl h) r).1
    exact ⟨hframes.isShelved, Store.contents_eq hframes.definitions⟩
  · have hframes := (convert_keeps (Store.frames_steps _ _) (.refl h) sql options).1
    exact ⟨hframes.isShelved, Store.contents_eq hframes.definitions⟩
  · have hlendable : s.store.IsLendable :=
      ⟨h, hunshared, fun t ht => (hnames t ht).1, fun t ht => (hnames t ht).2⟩
    exact Store.contents_eq (compile_settled hlendable hrun hkind).2

end Session

/-! ### Cash

The window of `held` lends the measure `max_at_raw` to the view of cash. -/

namespace Cash

/-- A measure of the name that the window lends. -/
def latest : Definition :=
  [("name", .text "max_at_raw"), ("field_type", .text "measure"), ("type", .text "max"),
   ("sql", .text "$\x7bTABLE\x7d.at")]

/-- What is held, with a choice that cannot be compiled. -/
def misheld : Definition :=
  held.set "non_additive_dimension"
    (.map [("name", .text "at_raw"), ("window_choice", .text "Max")])

def session (measures : List Definition) : Session where
  workspace :=
    { project :=
        { (default : Store) with
          models := [model], almanac := .ofInstant 63822421230, views := [⟨view, some 0⟩],
          shelves := [⟨moment :: measures, .null⟩] } }

def fieldNames (s : Session) : List (List String) :=
  (s.store.contents []).map fun e => e.2.map Value.plain

/-- Whether what is held can be compiled, and the names of all fields after it. -/
def afterHeld (s : Session) : Bool × List (List String) :=
  match s.compile (request "cash.held") with
  | (r, s') => (r.isOk, fieldNames s')

theorem isShelved_session (measures : List Definition) : (session measures).store.IsShelved := by
  intro e he i hi
  cases List.mem_singleton.mp he
  cases hi
  exact Nat.zero_lt_one

theorem isUnshared_session (measures : List Definition) : (session measures).store.IsUnshared := by
  intro j k e e' he he' i _ _
  have hix : ∀ (k : Nat) (e : ViewEntry), [(⟨view, some 0⟩ : ViewEntry)][k]? = some e → k = 0 :=
    fun k e h => Nat.lt_one_iff.mp (List.getElem?_eq_some_iff.mp h).1
  rw [hix j e he, hix k e' he']

theorem isFree_held {t : String} (ht : t ∈ (session [held]).store.lent) :
    Text.lower t = t ∧ ∀ k, ¬ (session [held]).store.Holds k t := by
  have hlent : (session [held]).store.lent = ["max_at_raw", "max_at_raw"] := by decide +kernel
  have hns : (session [held]).store.namesOn 0 = [.text "at", .text "held"] := rfl
  rw [hlent] at ht
  obtain rfl : t = "max_at_raw" := by simpa using ht
  refine ⟨by decide +kernel, fun k hk => ?_⟩
  obtain ⟨e, he, hmem⟩ := hk
  cases List.mem_singleton.mp (List.mem_of_getElem? he)
  change Value.text "max_at_raw" ∈ (session [held]).store.namesOn 0 at hmem
  rw [hns] at hmem
  simp at hmem

theorem isLendable_held : (session [held]).store.IsLendable where
  isShelved := isShelved_session _
  isUnshared := isUnshared_session _
  lower _ ht := (isFree_held ht).1
  free _ ht := (isFree_held ht).2

theorem compile_held : ∃ c s', (session [held]).compile (request "cash.held") = (.ok c, s') ∧
    c.kind = .single := by
  have hk : ((session [held]).compile (request "cash.held")).1.toOption.any
      (fun c => c.kind == .single) = true := by decide +kernel
  rcases hrun : (session [held]).compile (request "cash.held") with ⟨e | c, s'⟩
  · rw [hrun] at hk
    cases hk
  · rw [hrun] at hk
    exact ⟨c, s', rfl, by simpa [Except.toOption] using hk⟩

end Cash

theorem Session.compile_keeps_contents_held :
    (Cash.session [Cash.held]).store.lent = ["max_at_raw", "max_at_raw"] ∧
    ∃ c s', (Cash.session [Cash.held]).compile (Cash.request "cash.held") = (.ok c, s') ∧
      c.kind = .single ∧ s'.store.contents [] = (Cash.session [Cash.held]).store.contents [] := by
  obtain ⟨c, s', hrun, hsingle⟩ := Cash.compile_held
  refine ⟨by decide +kernel, c, s', hrun, hsingle, ?_⟩
  exact (compile_keeps_contents (Cash.isShelved_session _)).2.2 (Cash.isUnshared_session _)
    (fun t ht => Cash.isFree_held ht) _ c s' hrun hsingle

/-- A measure of the name that a window lends is lost when the window is compiled, and the measure
that was lent stays where its table cannot be compiled. -/
theorem Cash.latest_lost :
    fieldNames (session [held, latest]) = [["at", "held", "max_at_raw"]] ∧
    afterHeld (session [held, latest]) = (true, [["at", "held"]]) ∧
    fieldNames (session [misheld]) = [["at", "held"]] ∧
    afterHeld (session [misheld]) = (false, [["at", "held", "max_at_raw"]]) := by
  refine ⟨?_, ?_, ?_, ?_⟩ <;> decide +kernel

end SemanticLayer
