import SemanticLayer.Proofs.Query.ParallelCompile
import SemanticLayer.Query.Mql

/-!
# What compiling does to the project

A query completes the conditions that views always have, sets the schema of its connection, collects
groupings for windows, and lends a view the measure of a window.  What these changes keep (`Steps`)
is kept by every request (`Request.compile_keeps`) and every text with requests in it
(`Mql.convert_keeps`).  A request compiled to a single query also keeps the relation
(`Request.compile_single`).
-/

namespace SemanticLayer

open SemanticLayer.Action

variable {change : Store → Result Store} {w : Workspace}

variable {w' : Workspace}

/-! ### Changes of the project -/

/-- What the changes that a query makes keep: a kind of projects, a relation between the project
before and after, and a kind of windows. -/
structure Steps (J : Store → Prop) (S : Store → Store → Prop) (K : Definition → Prop) : Prop where
  setAlways : ∀ {p} i always, J p → J (p.setAlways i always) ∧ S p (p.setAlways i always)
  schema : ∀ {p} schema, J p → J { p with schema := schema } ∧ S p { p with schema := schema }
  windows : ∀ {p : Store} {d metrics ws}, J p → Selection.readWindows p d metrics = .ok ws →
    ∀ win ∈ ws, K win.definition
  collect : ∀ {p m} i name dimensions, K m → J p →
    J (p.updateField i name (Field.collecting dimensions)) ∧
      S p (p.updateField i name (Field.collecting dimensions))
  lend : ∀ {p p1 : Store} {m d view}, K m → d.get "name" = .text (Field.lentName m) →
    d.get "non_additive_dimension" = .null → J p → p.addField d view = .ok p1 → J p1
  takeBack : ∀ {p p1 : Store} {m view}, K m → J p →
    p.removeField (Field.lentName m) view = .ok p1 → J p1
  /-- After something was lent and taken back, the relation holds if it held in between. -/
  settle : ∀ {p p1 p2 p3 : Store} {m d view}, K m → d.get "name" = .text (Field.lentName m) →
    J p → p.addField d view = .ok p1 → S p1 p2 → J p2 →
    p2.removeField (Field.lentName m) view = .ok p3 → S p p3

variable {J : Store → Prop} {S : Store → Store → Prop} {K : Definition → Prop}
  {chosen : List Choice}

namespace Action

theorem edit_eq_ok {u : Unit} (h : edit change w = (.ok u, w')) :
    ∃ p, change w.project = .ok p ∧ w' = { w with project := p } := by
  rw [edit_apply] at h
  cases hp : change w.project with
  | error e =>
    rw [hp] at h
    cases h
  | ok p =>
    rw [hp] at h
    cases h
    exact ⟨p, rfl, rfl⟩

theorem edit_alone (h : ∀ p p', J p → change p = .ok p' → J p' ∧ S p p') :
    Follows (Workspace.Alone J chosen) S (edit change) := by
  rintro w w' ⟨rfl, hw, hch⟩
  rw [edit_apply]
  cases hp : change w'.project with
  | error e => exact ⟨rfl, ⟨rfl, hw, hch⟩, fun _ h => nomatch h⟩
  | ok p =>
    obtain ⟨hJ, hS⟩ := h _ p hw hp
    exact ⟨rfl, ⟨rfl, hJ, hch⟩, fun _ _ => hS⟩

theorem loan_alone {α : Type} {add remove : Store → Result Store} {a : Action α}
    (ha : Follows (Workspace.Alone J chosen) S a) (hadd : ∀ p p1, J p → add p = .ok p1 → J p1)
    (hrem : ∀ p p1, J p → remove p = .ok p1 → J p1)
    (hsettle : ∀ p p1 p2 p3, J p → add p = .ok p1 → S p1 p2 → J p2 → remove p2 = .ok p3 → S p p3) :
    Follows (Workspace.Alone J chosen) S (do edit add; let x ← a; edit remove; return x) := by
  have hlend : Follows (Workspace.Alone J chosen) Store.Any (edit add) :=
    edit_alone fun p p1 hp h => ⟨hadd p p1 hp h, trivial⟩
  have htake : Follows (Workspace.Alone J chosen) Store.Any (edit remove) :=
    edit_alone fun p p1 hp h => ⟨hrem p p1 hp h, trivial⟩
  have hkp : Follows (Workspace.Alone J chosen) Store.Any
      (do edit add; let x ← a; edit remove; return x) :=
    hlend.bind fun _ => ha.any.bind fun _ => htake.bind fun _ => .of_pure _
  rintro w w' ⟨rfl, hw, hch⟩
  obtain ⟨heq, hV, -⟩ := hkp w' w' ⟨rfl, hw, hch⟩
  refine ⟨heq, hV, fun x hx => ?_⟩
  obtain ⟨w4, hrun⟩ : ∃ w4, (do edit add; let x ← a; edit remove; return x : Action α) w'
      = (.ok x, w4) := ⟨_, Prod.ext hx rfl⟩
  rw [hrun]
  obtain ⟨u, w1, hw1, hrun⟩ := of_bind hrun
  obtain ⟨y, w2, hw2, hrun⟩ := of_bind hrun
  obtain ⟨u', hw3, -⟩ := of_bind_pure hrun
  obtain ⟨p1, hp1, rfl⟩ := edit_eq_ok hw1
  obtain ⟨p3, hp3, rfl⟩ := edit_eq_ok hw3
  obtain ⟨-, ⟨-, hJ2, -⟩, hS⟩ := ha { w' with project := p1 } _ ⟨rfl, hadd _ _ hw hp1, hch⟩
  rw [hw2] at hJ2 hS
  exact hsettle _ _ _ _ hw hp1 (hS y rfl) hJ2 hp3

end Action

namespace Steps

variable (hs : Steps J S K)
include hs

theorem any : Steps J Store.Any K where
  setAlways i always h := ⟨(hs.setAlways i always h).1, trivial⟩
  schema schema h := ⟨(hs.schema schema h).1, trivial⟩
  windows := hs.windows
  collect i name dimensions hm h := ⟨(hs.collect i name dimensions hm h).1, trivial⟩
  lend := hs.lend
  takeBack := hs.takeBack
  settle _ _ _ _ _ _ _ := trivial

theorem windowed : Windowed (Workspace.Alone J chosen) S := by
  have hk : ∀ {win : Window}, HasWindow (Workspace.Alone J chosen) win → K win.definition := by
    rintro win ⟨p, d, metrics, ws, ⟨w, w', hw, rfl⟩, hrd, hwin⟩
    exact hs.windows hw.2.1 hrd win hwin
  refine ⟨fun i name dimensions hwin => ?_, fun hwin hn hd ha => ?_⟩
  · refine edit_alone fun p p' hp h => ?_
    cases h
    exact hs.collect i name dimensions (hk hwin) hp
  · refine loan_alone ha (fun p p1 hp h => ?_) (fun p p1 hp h => ?_) fun p p1 p2 p3 => ?_
    · exact hs.lend (hk hwin) hn hd hp h
    · exact hs.takeBack (hk hwin) hp h
    · exact hs.settle (hk hwin) hn

theorem responsive : Responsive (Workspace.Alone J chosen) S where
  setAlways i always := by
    refine edit_alone fun p p' hp h => ?_
    cases h
    exact hs.setAlways i always hp
  schema schema := by
    rintro w w' ⟨rfl, hw, hch⟩
    obtain ⟨hJ, hS⟩ := hs.schema schema hw
    exact ⟨rfl, ⟨rfl, hJ, hch⟩, fun _ _ => hS⟩
  takeGroups _ h := ⟨by rw [h.1], h.2⟩

end Steps

/-! ### Requests -/

theorem Resolution.compileSingle_of_compile {r : Resolution} {sql : String}
    (h : r.compile w = (.ok (sql, .single), w')) : r.compileSingle w = (.ok sql, w') := by
  replace h := of_project_bind h
  obtain ⟨isMerged, -, h⟩ := of_lift_bind h
  have hk : ∀ {a : Action String} {w1}, (do return (← a, QueryKind.merged) : Action _) w1
      ≠ (.ok (sql, .single), w') := by
    intro a w1 h
    obtain ⟨sql', w2, -, h⟩ := of_bind h
    cases (pure_eq_ok.mp h).1
  cases isMerged with
  | true => exact absurd h hk
  | false =>
    obtain ⟨given, w1, hget, h⟩ := of_bind h
    cases hget
    obtain ⟨found, w2, hfd, h⟩ := of_bind h
    unfold outcome at hfd
    rcases hrun : r.compileSingle w with ⟨e | sql', w3⟩
    · rw [hrun] at hfd
      cases hfd
      dsimp only at h
      split_ifs at h
      · exact absurd h hk
      · cases h
    · rw [hrun] at hfd
      cases hfd
      cases h
      rfl

namespace Request

/-- **Whatever comes of a request, it leaves a project of the same kind**, and the chosen
timeframes. -/
theorem compile_keeps (hs : Steps J S K) (connections : List Connection) (r : Request)
    (hw : J w.project) :
    J (r.compile connections w).2.project ∧ (r.compile connections w).2.chosen = w.chosen := by
  have : Responsive (Workspace.Alone J w.chosen) Store.Any := hs.any.responsive
  have hcompile : Follows (Workspace.Alone J w.chosen) Store.Any (r.compile connections) :=
    compile_follows hs.any.windowed (fun _ _ h => by rw [h.1]) (fun _ _ h => ⟨by rw [h.1], h.2⟩)
      connections
  exact ⟨(hcompile.alone hw).1, (hcompile.alone hw).2.1⟩

theorem compile_single [IsPreorder Store S] (hs : Steps J S K) {connections : List Connection}
    {r : Request} {c : CompiledQuery} (hw : J w.project) (h : r.compile connections w = (.ok c, w'))
    (hk : c.kind = .single) :
    S w.project w'.project := by
  obtain ⟨resolved, w1, hresolved, h⟩ := of_bind h
  obtain ⟨⟨sql, kind⟩, hcompiled, rfl⟩ := of_bind_pure h
  cases hk
  have : Responsive (Workspace.Alone J w.chosen) S := hs.responsive
  have hres : Follows (Workspace.Alone J w.chosen) S (Resolution.ofRequest connections r) :=
    Resolution.ofRequest_follows (fun _ _ h => ⟨by rw [h.1], h.2⟩) connections
  have hsg : Follows (Workspace.Alone J w1.chosen) S resolved.compileSingle :=
    Resolution.compileSingle_follows fun _ => .inl hs.windowed
  obtain ⟨hJ1, -, hS1⟩ := hres.alone hw
  rw [hresolved] at hJ1 hS1
  obtain ⟨-, -, hS2⟩ := hsg.alone hJ1
  rw [Resolution.compileSingle_of_compile hcompiled] at hS2
  exact trans_of S (hS1 _ rfl) (hS2 _ rfl)

end Request

/-! ### Texts with requests -/

namespace Mql

variable {V : Workspace → Workspace → Prop} {connections : List Connection}

section

variable (hcompile : ∀ r : Request, Follows V Store.Any (r.compile connections))
  (options : Definition) (sql : String)
include hcompile

theorem callSql_follows (call : Sql.Node) :
    Follows V Store.Any (callSql connections options sql call) := by
  refine .guard (.of_result _) fun _ => ?_
  split
  · refine .ite (.of_pure _) ?_
    split
    · exact .of_result _
    · exact .result_bind fun r => (hcompile r).bind fun _ => .of_pure _
  · exact .of_result _

theorem replaceCall_follows (converted : String) (call : Sql.Node) :
    Follows V Store.Any (replaceCall connections options sql converted call) := by
  refine (callSql_follows hcompile options sql call).bind fun found => ?_
  cases found with
  | some s => exact .of_pure _
  | none => exact .of_pure _

theorem convertStep_follows (converted : String) (n : Sql.Node) :
    Follows V Store.Any (convertStep connections options sql converted n) := by
  have hcall := replaceCall_follows hcompile options sql converted
  refine .ite (hcall n) (.ite (.guard (.of_throw _) fun _ => .ite ?_ (.of_pure _)) (.of_pure _))
  split
  · exact hcall _
  · exact .of_pure _

theorem convert_follows : Follows V Store.Any (convert connections options sql) := by
  unfold convert
  split
  · exact .of_result _
  · exact (Follows.foldlM (fun s n _ => convertStep_follows hcompile options sql s n) _).bind
      fun _ => .of_pure _

end

theorem convert_keeps (hs : Steps J Store.Any K) (connections : List Connection)
    (options : Definition) (sql : String) (hw : J w.project) :
    J (convert connections options sql w).2.project ∧
      (convert connections options sql w).2.chosen = w.chosen := by
  have : Responsive (Workspace.Alone J w.chosen) Store.Any := hs.responsive
  have hcompile : ∀ r : Request,
      Follows (Workspace.Alone J w.chosen) Store.Any (r.compile connections) := fun _ =>
    Request.compile_follows hs.windowed (fun _ _ h => by rw [h.1])
      (fun _ _ h => ⟨by rw [h.1], h.2⟩) connections
  obtain ⟨hJ, hch, -⟩ := (convert_follows hcompile options sql).alone hw
  exact ⟨hJ, hch⟩

end Mql

end SemanticLayer
