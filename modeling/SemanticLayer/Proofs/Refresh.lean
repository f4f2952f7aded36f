import SemanticLayer.Proofs.Join.Content
import SemanticLayer.Proofs.Memory
import SemanticLayer.Proofs.Project.Order
import SemanticLayer.Session

/-!
# What a new user or new definitions leave behind

A session is compared with one whose project is made anew of the same definitions, for the same user
(`Session.anew`): after a change of the definitions, and after a change of the user.
-/

namespace SemanticLayer

open SemanticLayer.Action

variable {f : Field} {w : Workspace}

/-- The session with a project made anew of the same definitions, for the same user. -/
def Session.anew (s : Session) : Session :=
  { s with workspace := { project := s.store }, found := [] }

/-! ### Graphs that are worked out -/

structure Workspace.SameGraphs (w w' : Workspace) : Prop where
  project : w'.project = w.project
  joinGraph : w'.joinGraph = w.joinGraph
  merged : w'.merged = w.merged

namespace Action

instance : Frame Workspace.SameGraphs where
  seen h := by rw [h.project]

instance : Pane Workspace.SameGraphs where
  tells := joinGraph_follows (·.joinGraph) fun _ h => ⟨h.project, rfl, h.merged⟩

theorem derivedGraphs_sameGraphs (f : Field) : Follows Workspace.SameGraphs Eq (derivedGraphs f) :=
  derivedGraphs_follows fun _ _ =>
    mergedGraph_follows (·.merged) (fun _ _ h => ⟨h.project, h.joinGraph, rfl⟩) _

theorem joinGraphs_of_known {found : List String}
    (h : w.known (w.project.userKey, f.id) = some found) : joinGraphs f w = (.ok found, w) := by
  rw [joinGraphs_eq, get_bind, h]
  rfl

theorem joinGraphs_of_unknown (h : w.known (w.project.userKey, f.id) = none) :
    (joinGraphs f w).1 = (derivedGraphs f w).1 := by
  rw [joinGraphs_eq, get_bind, h]
  dsimp only
  rcases hrun : derivedGraphs f w with ⟨e | found, w'⟩
  · rw [bind_of_eq_error hrun]
  · rw [bind_of_eq_ok hrun]
    rfl

end Action

/-! ### Lookups that are kept -/

/-- What a lookup finds in a project. -/
def Project.answer (p : Project) : Inquiry → Result (List Field)
  | .fields view hidden expanded => p.fields view hidden expanded none
  | .field name view => do return [← p.getField name view]
  | .fieldByName name view => do return [← p.getFieldByName name view]

namespace Session

variable {α β : Type} {s : Session} {i : Inquiry} {a : SessionAction α} {x : Project → Result α}

/-- What was found for the user is what the project gives, and no timeframe was left on a date. -/
structure Recalls (s : Session) : Prop where
  found : ∀ i fields, s.found.lookup (s.store.userKey, i) = some fields →
    s.project.answer i = .ok fields
  dated : s.workspace.dated = []

/-- The work gives what the project does, and changes nothing but what was found. -/
def Tells (a : SessionAction α) (x : Project → Result α) : Prop :=
  ∀ s : Session, s.Recalls → ∃ t, a s = (x s.project, t) ∧ t.workspace = s.workspace ∧ t.Recalls

theorem Tells.of_result (r : Result α) : Tells (liftM r) fun _ => r :=
  fun s hs => ⟨s, lift_apply r s, rfl, hs⟩

theorem Tells.of_project (x : Project → Result α) : Tells (do x (← get).project) x :=
  fun s hs => ⟨s, lift_apply (x s.project) s, rfl, hs⟩

theorem bind_of_run {f : α → SessionAction β} {r : Result α} {t : Session} (h : a s = (r, t)) :
    (a >>= f) s = ExceptT.bindCont f r t := by
  change ExceptT.bindCont f (a s).1 (a s).2 = _
  rw [h]

theorem Tells.bind {f : α → SessionAction β} {y : α → Project → Result β} (h : Tells a x)
    (hf : ∀ v, Tells (f v) (y v)) : Tells (a >>= f) fun p => x p >>= fun v => y v p := by
  intro s hs
  obtain ⟨t, hrun, hws, ht⟩ := h s hs
  rw [bind_of_run hrun]
  dsimp only
  cases hx : x s.project with
  | error e => exact ⟨t, rfl, hws, ht⟩
  | ok v =>
    obtain ⟨t', hrun', hws', ht'⟩ := hf v t ht
    have hproject : t.project = s.project := by rw [project, hws]; rfl
    refine ⟨t', ?_, hws'.trans hws, ht'⟩
    rw [Result.ok_bind, ← hproject]
    exact hrun'

theorem Tells.congr {y : Project → Result α} (h : Tells a x) (hxy : ∀ p, x p = y p) : Tells a y :=
  funext hxy ▸ h

theorem Recalls.keep {fields : List Field} (hs : s.Recalls) (h : s.project.answer i = .ok fields) :
    Recalls { s with found := ((s.store.userKey, i), fields) :: s.found } := by
  refine ⟨fun j fields' hj => ?_, hs.dated⟩
  change (((s.store.userKey, i), fields) :: s.found).lookup (s.store.userKey, j) = _ at hj
  by_cases hij : j = i
  · subst hij
    rw [List.lookup_cons_self] at hj
    cases hj
    exact h
  · have hother : ((s.store.userKey, j) == (s.store.userKey, i)) = false := by simp [hij]
    rw [List.lookup_cons, hother] at hj
    exact hs.found j fields' hj

theorem Tells.kept {find : SessionAction (List Field)} (h : Tells find (·.answer i)) :
    Tells (kept i find) (·.answer i) := by
  intro s hs
  obtain ⟨t, hrun, hws, ht⟩ := h s hs
  have hstore : t.store = s.store := by rw [store, hws]; rfl
  have hproject : t.project = s.project := congrArg Store.seen hstore
  have hget : ∀ f : Session → SessionAction (List Field), (get >>= f) s = f s s := fun _ => rfl
  rw [Session.kept, hget]
  dsimp only
  cases hknown : s.found.lookup (s.store.userKey, i) with
  | some fields =>
    rw [hs.found i fields hknown]
    exact ⟨s, rfl, rfl, hs⟩
  | none =>
    dsimp only
    rw [bind_of_run hrun]
    dsimp only
    cases hx : s.project.answer i with
    | error e => exact ⟨t, rfl, hws, ht⟩
    | ok fields =>
      refine ⟨_, rfl, hws, ?_⟩
      rw [← hstore]
      exact ht.keep (hproject ▸ hx)

theorem list_tells (view : Option String) (hidden expanded : Bool) :
    Tells (list view hidden expanded) (·.fields view hidden expanded none) :=
  Tells.kept (i := .fields view hidden expanded)
    (.of_project (·.fields view hidden expanded none))

theorem search_tells (name : String) (view : Option String) (expanded : Bool)
    (pick : Project → String → Option String → List Field → Result (List Field)) :
    Tells (search name view expanded pick) fun p =>
      Project.parseName name view >>= fun place =>
        p.fields place.2 true expanded none >>= pick p place.1 place.2 :=
  (Tells.of_result _).bind fun place => (list_tells place.2 true expanded).bind fun all =>
    .of_project fun p => pick p place.1 place.2 all

theorem choices_tells (name : String) (view : Option String) (fields : List Field) :
    Tells (do
        let w := (← get).workspace
        let place ← Project.parseName name view
        return withChoices w.dated w.project.userKey place.2 fields) fun _ =>
      Project.parseName name view >>= fun _ => .ok fields := by
  intro s hs
  refine ⟨s, ?_, rfl, hs⟩
  change (liftM (Project.parseName name view) >>= fun place =>
    pure (withChoices s.workspace.dated s.workspace.project.userKey place.2 fields) :
      SessionAction (List Field)) s = _
  rw [hs.dated]
  cases Project.parseName name view with
  | error e => rfl
  | ok place =>
    have hnone : withChoices [] s.workspace.project.userKey place.2 fields = fields := by
      simp [withChoices]
    change (Except.ok (withChoices [] _ _ _), s) = _
    rw [hnone]
    rfl

theorem inquire_tells (i : Inquiry) : Tells (inquire i) (·.answer i) := by
  cases i with
  | fields view hidden expanded => exact list_tells view hidden expanded
  | field name view =>
    refine Tells.kept ((search_tells name view true ofAlias).congr fun p => ?_)
    simp only [Project.answer, Project.getField, bind_assoc]
    rfl
  | fieldByName name view =>
    have h : Tells (Session.kept (.fieldByName name view) (search name view false ofName))
        (·.answer (.fieldByName name view)) := by
      refine Tells.kept ((search_tells name view false ofName).congr fun p => ?_)
      simp only [Project.answer, Project.getFieldByName, bind_assoc]
      rfl
    refine (h.bind fun fields => choices_tells name view fields).congr fun p => ?_
    simp only [Project.answer, Project.getFieldByName]
    cases Project.parseName name view with
    | error e => rfl
    | ok place => exact bind_pure _

/-- What lookups give one after the other. -/
def answers : List Inquiry → Session → List (Result (List Field))
  | [], _ => []
  | i :: inquiries, s => (inquire i s).1 :: answers inquiries (inquire i s).2

theorem answers_eq (hs : s.Recalls) (inquiries : List Inquiry) :
    s.answers inquiries = inquiries.map s.project.answer := by
  induction inquiries generalizing s with
  | nil => rfl
  | cons i inquiries ih =>
    obtain ⟨t, hrun, hws, ht⟩ := inquire_tells i s hs
    have hproject : t.project = s.project := by rw [project, hws]; rfl
    rw [answers, hrun, ih ht, hproject]
    rfl

end Session

/-! ### Changed definitions -/

/-- **After a change of the definitions** every lookup, alone or behind others, finds what it does in
a session whose project is made anew, whatever was looked up before.  The join graphs of fields are
as anew exactly if those that were remembered, of the same user, are. -/
theorem Session.edit_as_anew {s s' : Session} {change : Store → Result Store} {u : Unit}
    (h : s.edit change = (.ok u, s')) :
    change s.store = .ok s'.store ∧
    (∀ inquiries, s'.answers inquiries = inquiries.map fun i => (inquire i s'.anew).1) ∧
    ∀ f, (s'.perform (joinGraphs f)).1 = (s'.anew.perform (joinGraphs f)).1 ↔
      ∀ found, s.workspace.known (s'.store.userKey, f.id) = some found →
        (s'.anew.perform (joinGraphs f)).1 = .ok found := by
  unfold Session.edit at h
  cases hchange : change s.store with
  | error e =>
    rw [hchange] at h
    cases h
  | ok p =>
    rw [hchange] at h
    cases h
    refine ⟨rfl, fun inquiries => ?_, fun f => ?_⟩
    · have hnothing : ∀ s : Session, s.found = [] → s.workspace.dated = [] → s.Recalls :=
        fun s hfound hdated => ⟨fun i fields h => by simp [hfound] at h, hdated⟩
      rw [answers_eq (hnothing _ rfl rfl)]
      refine List.map_congr_left fun i _ => ?_
      obtain ⟨t, hrun, -, -⟩ := inquire_tells i _ (hnothing (anew _) rfl rfl)
      rw [hrun]
      rfl
    -- after the change nothing is kept but the memory, and the new project has none
    let w : Workspace :=
      { s.workspace with project := p, joinGraph := none, merged := none, chosen := [], dated := [] }
    have hanew : (joinGraphs f { project := p }).1 = (derivedGraphs f w).1 :=
      (joinGraphs_of_unknown rfl).trans
        (derivedGraphs_sameGraphs f w { project := p } ⟨rfl, rfl, rfl⟩).1
    change (joinGraphs f w).1 = (joinGraphs f { project := p }).1 ↔
      ∀ found, w.known (w.project.userKey, f.id) = some found →
        (joinGraphs f { project := p }).1 = .ok found
    cases hknown : w.known (w.project.userKey, f.id) with
    | none =>
      rw [joinGraphs_of_unknown hknown, hanew]
      simp
    | some found =>
      rw [joinGraphs_of_known hknown]
      exact ⟨fun heq found' hfound => by cases hfound; exact heq.symm, fun hall => (hall _ rfl).symm⟩

/-! Calls by the time they were made, in a view to which a measure is added. -/

namespace Calls

open Session

def made : Definition :=
  [("name", .text "made"), ("field_type", .text "dimension_group"), ("type", .text "time"),
    ("timeframes", .list [.text "date"]), ("sql", .text "$\x7bTABLE\x7d.made")]

def count : Definition :=
  [("name", .text "n"), ("field_type", .text "measure"), ("type", .text "sum"),
    ("sql", .text "$\x7bTABLE\x7d.n")]

def session : Session where
  workspace :=
    { project :=
        { (default : Store) with
          models := [[("name", .text "m"), ("connection", .text "c")]]
          views := [⟨[("name", .text "calls"), ("model_name", .text "m"),
            ("default_date", .text "made"), ("identifiers", .list [])], some 0⟩]
          shelves := [⟨[made], .null⟩] } }

def graphs (s : Session) : Result (List String) × Session :=
  match s.field "made_date" (some "calls") with
  | .ok f => s.perform (joinGraphs f)
  | .error e => (.error e, s)

def added (s : Session) : Session := (s.edit fun p => p.addField count "calls").2

/-- The session in which the fields were listed before the measure came. -/
def listed : Session := (inquire (.fields (some "calls") true true) session).2

theorem edit_as_anew_calls :
    listed.found.map Prod.fst = [("", .fields (some "calls") true true)] ∧
    (added listed).answers [.fields (some "calls") true true, .field "n" (some "calls"),
        .fields (some "calls") true true]
      = [.fields (some "calls") true true, .field "n" (some "calls"),
          .fields (some "calls") true true].map fun i => (inquire i (added listed).anew).1 := by
  have hedit : listed.edit (fun p => p.addField count "calls") = (.ok (), added listed) :=
    Prod.ext rfl rfl
  exact ⟨by decide +kernel, (Session.edit_as_anew hedit).2.1 _⟩

/-- **Join graphs of old definitions:** the date was looked at before the measure came, so it is not
known to belong to the measure's merged results. -/
theorem date_not_merged :
    (graphs (added (graphs session).2)).1.toOption = some ["subquery_0"] ∧
      (graphs (added (graphs session).2).anew).1.toOption ≠ some ["subquery_0"] := by
  refine ⟨by decide +kernel, ?_⟩
  unfold graphs joinGraphs derivedGraphs
  simp only [mergeSort_by_text fun s => s]
  decide +kernel

end Calls

/-! ### Another user -/

theorem JoinGraph.Built.build_of_ofViews {views : List View} {b : Built}
    (h : ofViews views = .ok b) : build views = .ok b.1 := by
  unfold ofViews at h
  split at h
  · next g hg =>
    cases h
    exact hg
  · cases h

theorem Session.mem_nodes_anew {s : Session} {g : JoinGraph}
    (h : (s.anew.perform joinGraph).1 = .ok g) {name : String} :
    name ∈ g.graph.nodes ↔ name ∈ s.store.seenNames ∨ ∃ u, g.graph.hasArc u name = true := by
  have hgph : s.store.seen.graph = .ok g :=
    (joinGraph_of_holdsGraph (w := s.anew.workspace) (by rintro g ⟨⟩)).1.symm.trans h
  cases hblt : s.store.seen.built with
  | error e =>
    rw [Project.graph, hblt] at hgph
    cases hgph
  | ok b =>
    rw [Project.graph, hblt] at hgph
    cases hgph
    obtain ⟨views, hvs, hb⟩ := Result.of_bind hblt
    rw [← Store.map_name_of_listViews hvs]
    exact JoinGraph.mem_nodes_iff_of_build (JoinGraph.Built.build_of_ofViews hb)

/-- Sessions of one project, one user and the same connections, which keep no join graph but that of
the project, keep the same graph of merged results and remember the same for the user. -/
structure Session.Alongside (s t : Session) : Prop where
  store : t.store = s.store
  declared : t.declared = s.declared
  disk : t.disk = s.disk
  options : t.options = s.options
  graph : s.workspace.HoldsGraph
  graph' : t.workspace.HoldsGraph
  merged : t.workspace.merged = s.workspace.merged
  known : ∀ id, t.workspace.known (s.store.userKey, id) = s.workspace.known (s.store.userKey, id)

theorem Session.Alongside.compile_fst {s t : Session} (h : s.Alongside t) (r : Request) :
    (s.compile r).1 = (t.compile r).1 := by
  have hconnections : t.connections = s.connections := by
    rw [connections, connections, h.disk, h.declared]
  unfold Session.compile
  rw [hconnections, h.options]
  cases s.connections with
  | error e => rfl
  | ok cs =>
    let q : Request := { r with options := s.options.merge r.options }
    change (q.compile cs s.workspace).1 = (q.compile cs t.workspace).1
    rw [q.compile_of_held cs s.workspace, q.compile_of_held cs t.workspace]
    refine (q.compile_abreast cs _ _ ?_).1.symm
    exact ⟨h.store, h.graph, h.graph', h.merged, h.known, rfl, rfl, rfl⟩

namespace Budgets

def named (name : String) (grants : List Value) : ViewEntry where
  definition := [("name", .text name), ("model_name", .text "m"), ("identifiers", .list []),
    ("required_access_grants", .list grants)]
  shelf := some 0

def soFar : Definition :=
  [("name", .text "so_far"), ("field_type", .text "measure"), ("type", .text "cumulative"),
    ("measure", .text "total")]

def of (department : String) : Option Definition := some [("department", .text department)]

def session (department : String) : Session where
  workspace :=
    { project :=
        { (default : Store) with
          models := [[("name", .text "m"), ("connection", .text "c"),
            ("access_grants", .list [.map [("name", .text "finance"),
              ("user_attribute", .text "department"),
              ("allowed_values", .texts ["finance", "audit"])]])]]
          views := [named "orders" [], named "budgets" [.text "finance"]]
          shelves := [⟨[soFar], .null⟩]
          user := of department } }

/-- The views in the join graph that a session knows. -/
def nodes (s : Session) : Option (List String) :=
  (s.perform joinGraph).1.toOption.map fun g => g.graph.nodes

/-- The session in which audit asked for the join graphs of a measure. -/
def audited : Session :=
  match (session "audit").project.getField "so_far" (some "orders") with
  | .ok f => ((session "audit").perform (joinGraphs f)).2
  | .error _ => session "audit"

theorem audited_holdsGraph :
    audited.workspace.HoldsGraph ∧ audited.store = (session "audit").store := by
  let w := (session "audit").workspace
  have hw : w.Abreast w := ⟨rfl, nofun, nofun, rfl, fun _ => rfl, rfl, rfl, rfl⟩
  unfold audited
  split
  · next f hf =>
    have hfinds : w.project.seen.Finds f := .named hf
    obtain ⟨-, hafter, -⟩ := Glass.tellsOf (V := Workspace.Abreast) ⟨w, w, hw, rfl⟩ hfinds w w hw
    exact ⟨hafter.graph, ((joinGraphs_settles f).moves w).project⟩
  · exact ⟨nofun, rfl⟩

/-- The session in which the department of sales looked at the graph before that of finance. -/
def handed : Session := ((session "sales").perform joinGraph).2.setUser (of "finance")

end Budgets

end SemanticLayer
