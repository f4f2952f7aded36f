import SemanticLayer.Proofs.Query.ParallelCompile

/-!
# Noninterference of access grants

The redacted project gives the same statement or the same error (`compile_redacted`), if what is
kept from the user is readable and no metric that the request looks at needs a window: the measure
that its table is made with is written into the project, where a hidden name is taken all the same.
-/

namespace SemanticLayer

/-! ### Blind actions -/

namespace Workspace

def redacted (w : Workspace) : Workspace := { w with project := w.project.redacted }

structure Within (J : Store → Prop) (w : Workspace) : Prop where
  readable : w.project.IsReadable
  kind : J w.project

variable {J : Store → Prop} {w w' : Workspace}

theorem Within.of_project (h : w.Within J) (hp : w'.project = w.project) : w'.Within J := by
  obtain ⟨hrd, hk⟩ := h
  rw [← hp] at hrd hk
  exact ⟨hrd, hk⟩

theorem Within.seen_redacted (h : w.Within J) : w.redacted.project.seen = w.project.seen :=
  Store.seen_redacted h.readable

end Workspace

namespace Action

variable {J : Store → Prop} {α : Type}

/-- On a project of the given kind the action does the same whether what is kept from the user is
there or not, and leaves a project of that kind. -/
def Blind (J : Store → Prop) (a : Action α) : Prop :=
  ∀ w, w.Within J → a w.redacted = ((a w).1, (a w).2.redacted) ∧ (a w).2.Within J

/-- A workspace of the given kind and that of the redacted project. -/
def Redaction (J : Store → Prop) (w w' : Workspace) : Prop := w.Within J ∧ w' = w.redacted

theorem Follows.blind {a : Action α} (h : Follows (Redaction J) Store.Any a) : Blind J a := by
  intro w hw
  obtain ⟨heq, ⟨hk, hleft⟩, -⟩ := h w w.redacted ⟨hw, rfl⟩
  exact ⟨Prod.ext heq hleft, hk⟩

instance : Kept (Redaction J) where
  seen := fun ⟨hw, h⟩ => h ▸ hw.seen_redacted
  rows := fun ⟨_, h⟩ => h ▸ rfl
  groups := fun ⟨_, h⟩ => h ▸ rfl
  writeRows := fun _ ⟨hw, h⟩ => ⟨hw.of_project rfl, h ▸ rfl⟩
  writeGroups := fun _ ⟨hw, h⟩ _ _ => ⟨hw.of_project rfl, h ▸ rfl⟩
  writeRequest := fun _ ⟨hw, h⟩ => ⟨hw.of_project rfl, h ▸ rfl⟩
  sameGraph := fun ⟨_, h⟩ => h ▸ rfl
  sameMerged := fun ⟨_, h⟩ => h ▸ rfl
  sameMemory := fun ⟨_, h⟩ => h ▸ rfl
  keepGraph := fun _ ⟨hw, h⟩ => ⟨hw.of_project rfl, h ▸ rfl⟩
  keepMerged := fun _ _ ⟨hw, h⟩ => ⟨hw.of_project rfl, h ▸ rfl⟩
  remember := fun _ ⟨hw, h⟩ => ⟨hw.of_project rfl, h ▸ rfl⟩

end Action

open SemanticLayer.Action List

variable {J : Store → Prop} {p : Store}

/-! ### Resolving -/

namespace Resolution

/-- A kind of projects that does not hang on what a request changes. -/
structure IsSteady (J : Store → Prop) : Prop where
  setAlways : ∀ {p} i always, J p → J (p.setAlways i always)
  schema : ∀ {p} schema, J p → J { p with schema := schema }

theorem IsSteady.redaction (hJ : IsSteady J) : Responsive (Redaction J) Store.Any where
  setAlways := by
    rintro i always w w' ⟨hw, rfl⟩
    refine ⟨rfl, ⟨⟨hw.readable.setAlways i always, hJ.setAlways i always hw.kind⟩, ?_⟩,
      fun _ _ => trivial⟩
    exact congrArg (fun p => { w with project := p }) (Store.setAlways_redacted ..).symm
  schema := by
    rintro schema w w' ⟨hw, rfl⟩
    exact ⟨rfl, ⟨⟨hw.readable.schema schema, hJ.schema schema hw.kind⟩, rfl⟩, fun _ _ => trivial⟩
  takeGroups := fun _ h => ⟨h.1.of_project rfl, h.2 ▸ rfl⟩

theorem ofRequest_blind (hJ : IsSteady J) (connections : List Connection) (r : Request) :
    Blind J (ofRequest connections r) :=
  have := hJ.redaction
  (ofRequest_follows (fun _ _ h => ⟨h.1.of_project rfl, h.2 ▸ rfl⟩) connections).blind

/-! ### Compiling -/

theorem compile_fst_redacted {r : Resolution} {w : Workspace} (hrd : w.project.IsReadable)
    (hadd : r.IsAdditive w) :
    r.compile w.redacted = ((r.compile w).1, (r.compile w).2.redacted) := by
  have hspared : ∀ {names}, names ⊆ r.metrics ++ w.groups.map (fun e =>
      (e.definition.get "field").plain) → Spared (Redaction (· = w.project)) Store.Any fun p =>
        p.seen.AllAdditive (some r.model) names :=
    fun hsub => .inr ⟨w.project, fun _ _ hw => hw.1.kind, hadd.of_subset hsub⟩
  have hsg : Follows (Redaction (· = w.project)) Store.Any
      (r.single (heldBy w .rows r.wheres) (heldBy w .groups r.havings)).compile := by
    refine SingleQuery.compile_follows (hspared (append_subset.mpr ⟨?_, ?_⟩))
    · exact subset_append_left _ _
    · exact List.Subset.trans (names_heldBy w r.havings) (subset_append_right _ _)
  have hatt := hsg.bind fun compiled => .of_result compiled.statementOf.render
  have hblind := (compileBy_follows (V := Redaction (· = w.project)) (r := r) (fun _ _ hw => hw.2 ▸ rfl)
    (fun _ => compileMerged_follows (hspared (subset_append_left _ _))) hatt).blind
  have hredacted := r.compileSingle_apply w.redacted
  unfold compile
  rw [compileBy_congr r (r.compileSingle_apply w), compileBy_congr r hredacted]
  exact (hblind w ⟨hrd, rfl⟩).1

end Resolution

/-! ### Requests -/

theorem Resolution.isAdditive_of_ofRequest {connections : List Connection} {r : Request}
    {w w' : Workspace} {resolved : Resolution} (hrd : w.project.IsReadable)
    (hadd : w.project.IsAdditive) (h : ofRequest connections r w = (.ok resolved, w')) :
    resolved.IsAdditive w' := by
  have hsteady : IsSteady Store.IsAdditive := by
    refine ⟨fun {p} i always hp s hs d hd => ?_, fun {p} schema hp => hp⟩
    obtain hs | rfl := mem_or_eq_of_mem_set hs
    · exact hp s hs d hd
    · exact hp.of_fieldsOn hd
  have hw' := (ofRequest_blind hsteady connections r w ⟨hrd, hadd⟩).2
  rw [h] at hw'
  exact hw'.kind.allAdditive _ _

/-- **Noninterference.**  A request is compiled to the same statement, or fails with the same error,
without what is kept from the user, and leaves the same behind. -/
theorem Request.compile_redacted {connections : List Connection} {r : Request} {w : Workspace}
    (hread : w.project.IsReadable)
    (hadd : ∀ resolved w', Resolution.ofRequest connections r w = (.ok resolved, w') →
      resolved.IsAdditive w') :
    r.compile connections w.redacted
      = ((r.compile connections w).1, (r.compile connections w).2.redacted) := by
  have hsteady : Resolution.IsSteady fun _ => True := ⟨fun _ _ => id, fun _ => id⟩
  obtain ⟨heq, hw1⟩ := Resolution.ofRequest_blind hsteady connections r w ⟨hread, trivial⟩
  unfold Request.compile
  rcases hrun : Resolution.ofRequest connections r w with ⟨e | resolved, w1⟩
  · rw [hrun] at heq
    rw [bind_of_eq_error hrun, bind_of_eq_error heq]
  · rw [hrun] at heq hw1
    rw [bind_of_eq_ok hrun, bind_of_eq_ok heq]
    have hcompile := Resolution.compile_fst_redacted hw1.readable (hadd resolved w1 hrun)
    rcases hrun : resolved.compile w1 with ⟨e | ⟨sql, kind⟩, w2⟩
    · rw [hrun] at hcompile
      rw [bind_of_eq_error hrun, bind_of_eq_error hcompile]
    · rw [hrun] at hcompile
      rw [bind_of_eq_ok hrun, bind_of_eq_ok hcompile]
      rfl

/-! ### Cash

A salesperson looks at a view of cash.  One of its fields is kept from them, and its name is that of
the measure which the window of `held` is made with. -/

namespace Cash

def moment : Definition :=
  [("name", .text "at"), ("field_type", .text "dimension_group"), ("type", .text "time"),
   ("timeframes", .texts ["raw", "date"]), ("sql", .text "$\x7bTABLE\x7d.at")]

/-- Kept from everyone but the department of finance. -/
def last : Definition :=
  [("name", .text "max_at_raw"), ("field_type", .text "dimension"), ("type", .text "string"),
   ("sql", .text "$\x7bTABLE\x7d.last"), ("required_access_grants", .texts ["finance"])]

def spent : Definition :=
  [("name", .text "spent"), ("field_type", .text "measure"), ("type", .text "sum"),
   ("sql", .text "$\x7bTABLE\x7d.spent")]

/-- What is held at one moment cannot be added up over time. -/
def held : Definition :=
  [("name", .text "held"), ("field_type", .text "measure"), ("type", .text "sum"),
   ("sql", .text "$\x7bTABLE\x7d.held"),
   ("non_additive_dimension", .map [("name", .text "at_raw"), ("window_choice", .text "max")])]

/-- A metric that adds it up all the same, and has no non-additive dimension itself. -/
def total : Definition :=
  [("name", .text "total"), ("field_type", .text "measure"), ("type", .text "cumulative"),
   ("measure", .text "held")]

def model : Definition :=
  [("name", .text "m"), ("connection", .text "wh"),
   ("access_grants", .list [.map [("name", .text "finance"),
     ("user_attribute", .text "department"), ("allowed_values", .texts ["finance"])]])]

def view : Definition :=
  [("name", .text "cash"), ("model_name", .text "m"), ("sql_table_name", .text "cash"),
   ("default_date", .text "at"), ("identifiers", .list [])]

def workspace (measures : List Definition) : Workspace where
  project :=
    { (default : Store) with
      models := [model], user := some [("department", .text "sales")],
      almanac := .ofInstant 63822421230,
      views := [⟨view, some 0⟩], shelves := [⟨moment :: last :: measures, .null⟩] }

def request (metric : String) : Request where
  metrics := [metric]
  options := [("query_type", .text "SNOWFLAKE")]

theorem isReadable_workspace (measures : List Definition)
    (h : ∀ d ∈ measures, Field.IsReadable d) : (workspace measures).project.IsReadable where
  views := by
    intro e he _
    cases mem_singleton.mp he
    exact ⟨rfl, rfl⟩
  fields := by
    intro s hs d hd _
    cases mem_singleton.mp hs
    rcases mem_cons.mp hd with rfl | hd
    · exact ⟨.inr ⟨"at", rfl⟩, rfl⟩
    · rcases mem_cons.mp hd with rfl | hd
      · exact ⟨.inr ⟨"max_at_raw", rfl⟩, rfl⟩
      · exact h d hd

theorem isReadable_spent : (workspace [spent]).project.IsReadable :=
  isReadable_workspace [spent] fun d hd => by
    cases mem_singleton.mp hd
    exact ⟨.inr ⟨"spent", rfl⟩, rfl⟩

theorem isAdditive_spent : (workspace [spent]).project.IsAdditive := by
  intro s hs d hd
  cases mem_singleton.mp hs
  simp only [mem_cons, not_mem_nil, or_false] at hd
  rcases hd with rfl | rfl | rfl <;> rfl

def failsFor (name : String) {α : Type} : Result α → Bool
  | .error (.fieldNotFound n _) => n == name
  | _ => false

end Cash

theorem Request.compile_redacted_spent :
    (Cash.workspace [Cash.spent]).project.withholds Cash.last = true ∧
    (Cash.request "cash.spent").compile [] (Cash.workspace [Cash.spent]).redacted
      = (((Cash.request "cash.spent").compile [] (Cash.workspace [Cash.spent])).1,
        ((Cash.request "cash.spent").compile [] (Cash.workspace [Cash.spent])).2.redacted) :=
  ⟨by decide +kernel, compile_redacted Cash.isReadable_spent fun _ _ h =>
    Resolution.isAdditive_of_ofRequest Cash.isReadable_spent Cash.isAdditive_spent h⟩

/-- The total of what is held cannot be compiled on account of a field that is kept from the user;
without that field it can. -/
theorem Cash.total_tells_of_last :
    let w := workspace [held, total]
    (w.project.seen.getField "cash.total").toOption.any
      (fun f => !(f.property "non_additive_dimension").truthy) = true ∧
    w.project.withholds last = true ∧
    failsFor "max_at_raw" ((request "cash.total").compile [] w).1 = true ∧
    ((request "cash.total").compile [] w.redacted).1.isOk = true := by
  refine ⟨?_, ?_, ?_, ?_⟩ <;> decide +kernel

end SemanticLayer
