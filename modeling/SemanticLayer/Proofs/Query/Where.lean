import SemanticLayer.Proofs.Outcome
import SemanticLayer.Proofs.Sql.SearchCondition
import SemanticLayer.Query.Funnel

/-!
# Literal conditions beside added ones

A condition that is given as text is put into a statement as it stands.  In front of it comes the
access filter of the user, behind it, in a funnel, the time within which a step is to be done, with
nothing but an `AND` between.
-/

namespace SemanticLayer

open SemanticLayer.Action List Restriction

open Sql.SearchCondition (Lexeme Formula Selects SameRows bracketed conjoin read)

variable {a c w b date : String} {cs : List Sql.Criterion} {d : Design} {f : Funnel}
  {js : List Join} {p : Project} {q : Selection} {warehouse : Warehouse} {ws ws' : Workspace}
  {n : Nat} {r : Reading}

variable {body : Sql.Select} {compilers : Compilers}
  {select : Selection → Design → Action Sql.Statement} {st : Sql.Statement} {steps : List Value}
  {t : FunnelTables}

/-! ### The access filter -/

theorem Sql.Criterion.renderAlone_ne_empty {left text : String} {e : Expression} {v : Value}
    {c : Sql.Criterion} (h : ofExpression left e v = .ok c) (htx : c.renderAlone = .ok text) :
    text ≠ "" := by
  rintro rfl
  cases e with
  | isIn | isNotIn =>
    cases h
    cases v <;> simp [renderAlone, render, malformed] at htx
  | booleanTrue => cases h; cases htx
  | unknown | isMatch => cases h
  | _ =>
    cases h
    simp [renderAlone, render] at htx

theorem Design.ne_empty_of_accessCondition {filter : Value} {conditions : List String} {f : Field}
    (h : accessCondition p warehouse filter = .ok (some (conditions, f))) :
    ∀ c ∈ conditions, c ≠ "" := by
  unfold accessCondition at h
  iterate 6 obtain ⟨_, -, h⟩ := Result.of_bind h
  extract_lets value at h
  split at h
  · cases h
  · obtain ⟨read, -, h⟩ := Result.of_bind h
    obtain ⟨texts, htx, h⟩ := Result.of_bind h
    cases h
    intro c hc
    obtain ⟨e, -, he⟩ := Result.exists_of_mem_mapM htx hc
    obtain ⟨criterion, hcriterion, htext⟩ := Result.of_bind he
    exact Sql.Criterion.renderAlone_ne_empty hcriterion htext

theorem Design.accessFilter_ne_empty {fields : List Field}
    (h : d.accessFilter p = .ok (some c, fields)) : c ≠ "" := by
  unfold accessFilter at h
  obtain ⟨views, -, h⟩ := Result.of_bind h
  obtain ⟨found, hfd, h⟩ := Result.of_bind h
  extract_lets conditions used at h
  split at h
  · cases h
  · next hne =>
    have hall : ∀ c ∈ conditions, c ≠ "" := by
      intro c hc
      obtain ⟨⟨texts, f⟩, hmem, hc⟩ := mem_flatMap.mp hc
      obtain ⟨parts, hpts, hmem⟩ := mem_flatten.mp hmem
      obtain ⟨name, -, hpts⟩ := Result.exists_of_mem_mapM hfd hpts
      obtain ⟨v, -, hpts⟩ := Result.of_bind hpts
      extract_lets filters at hpts
      split at hpts
      · obtain ⟨items, -, hpts⟩ := Result.of_bind hpts
        obtain ⟨item, -, hitem⟩ := ((Result.filterMapM_eq_ok hpts).2 _).mp hmem
        exact ne_empty_of_accessCondition hitem c hc
      · cases hpts
        simp at hmem
    cases hcds : conditions with
    | nil => simp [hcds] at hne
    | cons first rest =>
      have hfst := hall first (by simp [hcds])
      simp only [hcds, pure, Except.pure, Except.ok.injEq, Prod.mk.injEq, Option.some.injEq] at h
      rw [← h.1]
      cases rest <;> simp [Text.join, String.intercalate_cons_cons, hfst]

/-! ### Literals -/

namespace Restriction

/-- A literal condition on rows, as it is read. -/
def literal (d : Design) (w : String) : Restriction :=
  { side := .rows, definition := [("literal", .text w)], field := none,
    warehouse := d.warehouse, weekStart := .null, zone := .null }

theorem isTruth_literal (w : String) : isTruth [("literal", .text w)] = false := by
  have hval : Definition.get [("literal", Value.text w)] "value" = .null := rfl
  have hnl : (Text.lower (Value.plain .null) == "true") = false := by decide +kernel
  simp [isTruth, hval, hnl]

theorem check_literal {b : Bool} (h : check [("literal", .text w)] = .ok b) :
    b = false := by
  have hfld : Definition.get [("literal", Value.text w)] "field" = .null := rfl
  have hlit : Definition.get [("literal", Value.text w)] "literal" = .text w := rfl
  simp only [check, hfld, hlit, isTruth_literal, Value.isNull, Value.truthy] at h
  by_cases hw : w = ""
  · subst hw
    simp at h
    cases h
  · simp [hw] at h
    cases h
    rfl

theorem read_literal {r : Restriction}
    (h : read d .rows { definition := [("literal", .text w)] } ws = (.ok r, ws')) :
    r = literal d w ∧ ws = ws' := by
  unfold read at h
  simp only [isTruth_literal] at h
  obtain ⟨b, hck, h⟩ := of_lift_bind h
  cases check_literal hck
  obtain ⟨rfl, rfl⟩ := pure_eq_ok.mp h
  exact ⟨rfl, rfl⟩

theorem inDesign_literal (h : (literal d w).inDesign p d js = .ok cs) :
    ∃ sql, cs = [.raw sql] := by
  have hlit : (literal d w).isLiteral = true := rfl
  rw [inDesign, if_pos hlit] at h
  iterate 5 obtain ⟨_, -, h⟩ := Result.of_bind h
  cases h
  exact ⟨_, rfl⟩

theorem isFunnel_literal (d : Design) (w : String) : (literal d w).isFunnel = false := rfl

end Restriction

/-- The SQL of a literal condition in a design: references in it are replaced, and nothing is put
around it. -/
def Design.LiteralSql (p : Project) (d : Design) (js : List Join) (w sql : String) : Prop :=
  (Restriction.literal d w).inDesign p d js = .ok [.raw sql]

/-! ### Behind the access filter -/

namespace Selection

theorem readConditions_text {rs : List Restriction}
    (h : readConditions d .rows (some c) (.text w) ws = (.ok rs, ws'))
    (hc : c ≠ "") : rs = [.literal d c, .literal d w] := by
  have hfr : (Option.filter (fun s : String => !s.isEmpty) (some c)).toList = [c] := by
    simp [hc]
  simp only [readConditions, hfr, map_cons, map_nil, cons_append, nil_append,
    mapM_cons, mapM_nil] at h
  obtain ⟨r1, w1, h1, h⟩ := of_bind h
  obtain ⟨rfl, rfl⟩ := read_literal h1
  obtain ⟨rs2, w2, h2, h⟩ := of_bind h
  obtain ⟨r2, w3, h3, h2⟩ := of_bind h2
  obtain ⟨rfl, rfl⟩ := read_literal h3
  obtain ⟨_, w4, h4, h2⟩ := of_bind h2
  obtain ⟨rfl, -⟩ := pure_eq_ok.mp h4
  obtain ⟨rfl, -⟩ := pure_eq_ok.mp h2
  obtain ⟨rfl, -⟩ := pure_eq_ok.mp h
  rfl

theorem read_text {fields : List Field} (h : q.read d ws = (.ok r, ws')) (hw : q.wheres = .text w)
    (hacc : d.accessFilter ws.project = .ok (some c, fields)) :
    r.wheres = [.literal d c, .literal d w] ∧ r.funnels = [] := by
  have hc := Design.accessFilter_ne_empty hacc
  unfold read at h
  replace h := of_project_bind h
  obtain ⟨⟨_, _⟩, ha, h⟩ := of_lift_bind h
  cases hacc.symm.trans ha
  have hgv : (q.wheres.isGiven || (some c).any (!·.isEmpty)) = true := by simp [hc]
  obtain ⟨rs, w3, hrs, h⟩ := of_bind h
  rw [readWheres, if_pos hgv, hw] at hrs
  obtain rfl := readConditions_text hrs hc
  have hfew : ¬ 1 < (List.filter isFunnel
      [literal d c, literal d w]).length := by
    simp [isFunnel_literal]
  rw [if_neg hfew] at h
  iterate 3 obtain ⟨_, _, -, h⟩ := of_bind h
  obtain ⟨rfl, -⟩ := pure_eq_ok.mp h
  exact ⟨rfl, rfl⟩

theorem build_wheres (h : q.build compilers d r ws = (.ok st, ws')) (hfun : r.funnels = []) :
    ∃ js ws1 wheres tables body more, d.joins ws = (.ok js, ws1) ∧
      criteria ws1.project d js r.wheres = .ok wheres ∧
      st = .select tables body ∧ body.wheres = wheres ++ more := by
  unfold build at h
  obtain ⟨⟨front, link, d'⟩, w1, htbs, h⟩ := of_bind h
  rw [funnelTables, hfun] at htbs
  obtain ⟨_, -, htbs⟩ := of_lift_bind htbs
  obtain ⟨heq, rfl⟩ := pure_eq_ok.mp htbs
  cases heq
  obtain ⟨dialect, -, h⟩ := of_lift_bind h
  obtain ⟨js, w4, hjs, h⟩ := of_bind h
  replace h := of_project_bind h
  -- the tables and columns
  iterate 5 obtain ⟨_, _, -, h⟩ := of_bind h
  obtain ⟨wheres, _, hlift, h⟩ := of_bind h
  obtain ⟨hwh, -⟩ := lift_eq_ok.mp hlift
  -- everything else is put beside the conditions on rows, or behind them
  iterate 9 obtain ⟨_, _, -, h⟩ := of_bind h
  obtain ⟨rfl, -⟩ := pure_eq_ok.mp h
  exact ⟨js, w4, wheres, _, _, _, hjs, hwh, rfl, append_assoc ..⟩

theorem criteria_literals (h : criteria p d js [.literal d c, .literal d w] = .ok cs) :
    ∃ c' w', d.LiteralSql p js c c' ∧ d.LiteralSql p js w w' ∧ cs = [.raw c', .raw w'] := by
  obtain ⟨found, hfd, h⟩ := Result.of_bind h
  cases h
  cases Result.mapM_eq_ok hfd with
  | cons hc hr =>
    cases hr with
    | cons hw hnil =>
      cases hnil
      obtain ⟨c', rfl⟩ := inDesign_literal hc
      obtain ⟨w', rfl⟩ := inDesign_literal hw
      exact ⟨c', w', hc, hw, rfl⟩

theorem compileWith_text {fields : List Field} (h : q.compileWith compilers d ws = (.ok st, ws'))
    (hw : q.wheres = .text w) (hacc : d.accessFilter ws.project = .ok (some c, fields)) :
    ∃ r ws1 js ws2 c' w' tables body more,
      q.read d ws = (.ok r, ws1) ∧ d.joins ws1 = (.ok js, ws2) ∧
      d.LiteralSql ws2.project js c c' ∧ d.LiteralSql ws2.project js w w' ∧
      st = .select tables body ∧ body.wheres = .raw c' :: .raw w' :: more := by
  obtain ⟨r, ws1, hrd, hbd⟩ := of_bind h
  obtain ⟨hwh, hfun⟩ := read_text hrd hw hacc
  obtain ⟨js, ws2, wheres, tables, body, more, hjs, hcri, rfl, hbody⟩ :=
    build_wheres hbd hfun
  rw [hwh] at hcri
  obtain ⟨c', w', hc', hw', rfl⟩ := criteria_literals hcri
  exact ⟨r, ws1, js, ws2, c', w', tables, body, more, hrd, hjs, hc', hw', rfl, hbody⟩

end Selection

/-! ### In front of the time of a step -/

namespace Funnel

theorem within_eq_ok {number : Nat} {c : Sql.Criterion}
    (h : f.within warehouse date number = .ok c) :
    ∃ text, c = .raw text := by
  unfold within at h
  iterate 7 obtain ⟨_, -, h⟩ := Result.of_bind h
  cases h
  exact ⟨_, rfl⟩

theorem stepCriteria_text (h : stepCriteria p d js (.text w) ws = (.ok cs, ws')) :
    ∃ w', d.LiteralSql p js w w' ∧ cs = [.raw w'] := by
  unfold stepCriteria at h
  obtain ⟨r, w1, hr, h⟩ := of_bind h
  obtain ⟨rfl, rfl⟩ := read_literal hr
  obtain ⟨hcs, rfl⟩ := lift_eq_ok.mp h
  obtain ⟨w', rfl⟩ := inDesign_literal hcs
  exact ⟨w', hcs, rfl⟩

theorem stepWheres_text (h : f.stepWheres p warehouse d js date (.text w) (n + 2) ws = (.ok cs, ws')) :
    ∃ w' c, d.LiteralSql p js w w' ∧ f.within warehouse date (n + 2) = .ok (.raw c) ∧
      cs = [.raw w', .raw c] := by
  unfold stepWheres at h
  obtain ⟨own, w1, hown, h⟩ := of_bind h
  obtain ⟨w', hw', rfl⟩ := stepCriteria_text hown
  rw [if_neg (by omega)] at h
  obtain ⟨c, hc, h⟩ := of_lift_bind h
  obtain ⟨rfl, -⟩ := pure_eq_ok.mp h
  obtain ⟨c, rfl⟩ := within_eq_ok hc
  exact ⟨w', c, hw', hc, rfl⟩

theorem wheres_stepStatement (dialect : Sql.Dialect) (date link : String) (n : Nat)
    (wheres : List Sql.Criterion) :
    ∃ body, stepStatement dialect date link (n + 2) wheres = .select [] body ∧
      body.wheres = wheres :=
  ⟨_, rfl, rfl⟩

theorem tables_eq_ok (h : tables select f d ws = (.ok t, ws')) (hss : f.steps = .ok steps) :
    ∃ dialect date base js ws1 ws2 columns groups found union,
      Sql.Dialect.ofWarehouse d.warehouse = .ok dialect ∧ f.eventDate ws.project d = .ok date ∧
      t.design.joins ws1 = (.ok js, ws2) ∧
      Forall₂ (fun (step : Value × Nat) part => ∃ wheres ws3 ws4,
        f.stepWheres ws.project d.warehouse t.design js date.column step.1 (step.2 + 1) ws3
          = (.ok wheres, ws4) ∧
        part = (Selection.stepTable (toString (step.2 + 1)),
          stepStatement dialect date.column t.link.column (step.2 + 1) wheres,
          resultStatement dialect columns groups (step.2 + 1))) steps.zipIdx found ∧
      resultUnion (found.map (·.2.2)) = .ok union ∧
      t.tables = (baseTable, base) :: found.map (fun part => (part.1, part.2.1))
        ++ [(resultTable, union)] := by
  unfold tables at h
  obtain ⟨dialect, hdialect, h⟩ := of_lift_bind h
  replace h := of_project_bind h
  obtain ⟨date, hdt, h⟩ := of_lift_bind h
  iterate 3 obtain ⟨_, _, -, h⟩ := of_bind h
  obtain ⟨link, _, -, h⟩ := of_bind h
  obtain ⟨_, _, -, h⟩ := of_bind h
  obtain ⟨⟨design, keys⟩, _, -, h⟩ := of_bind h
  obtain ⟨base, ws1, -, h⟩ := of_bind h
  obtain ⟨js, ws2, hjs, h⟩ := of_bind h
  obtain ⟨⟨columns, groups⟩, _, -, h⟩ := of_bind h
  obtain ⟨given, hgv, h⟩ := of_lift_bind h
  cases hss.symm.trans hgv
  obtain ⟨found, _, hfd, h⟩ := of_bind h
  obtain ⟨union, hunion, h⟩ := of_lift_bind h
  obtain ⟨rfl, -⟩ := pure_eq_ok.mp h
  refine ⟨dialect, date, base, js, ws1, ws2, columns, groups, found, union, hdialect, hdt, hjs,
    (mapM_eq_ok hfd).imp fun step part ⟨ws3, ws4, hrun⟩ => ?_, hunion, rfl⟩
  obtain ⟨wheres, hwheres, rfl⟩ := of_bind_pure hrun
  exact ⟨wheres, ws3, ws4, hwheres, rfl⟩

theorem tables_text (h : tables select f d ws = (.ok t, ws')) (hss : f.steps = .ok steps)
    (hs : steps[n + 1]? = some (.text w)) :
    ∃ date ws1 js ws2 w' c body, f.eventDate ws.project d = .ok date ∧
      t.design.joins ws1 = (.ok js, ws2) ∧ t.design.LiteralSql ws.project js w w' ∧
      f.within d.warehouse date.column (n + 2) = .ok (.raw c) ∧
      (Selection.stepTable (toString (n + 2)), .select [] body) ∈ t.tables ∧
      body.wheres = [.raw w', .raw c] := by
  obtain ⟨dialect, date, base, js, ws1, ws2, columns, groups, found, union, -, hdt, hjs, hfd, -,
    htables⟩ := tables_eq_ok h hss
  have hmem : (Value.text w, n + 1) ∈ steps.zipIdx := mk_mem_zipIdx_iff_getElem?.mpr hs
  obtain ⟨part, hpt, cs, ws3, ws4, hcs, rfl⟩ := exists_right_of_forall₂ hfd hmem
  obtain ⟨w', c, hw', hc, rfl⟩ := stepWheres_text hcs
  obtain ⟨body, hbody, hwh⟩ :=
    wheres_stepStatement dialect date.column t.link.column n [.raw w', .raw c]
  refine ⟨date, ws1, js, ws2, w', c, body, hdt, hjs, hw', hc, ?_, hwh⟩
  have hin := mem_map_of_mem (f := fun x => (x.1, x.2.1)) hpt
  rw [hbody] at hin
  rw [htables]
  simp only [cons_append, mem_cons, mem_append]
  exact .inr (.inl hin)

end Funnel

/-! ### What is selected -/

/-- **A selection by two texts around an `AND`**, and when its rows satisfy the one, the other or
both: the terms that do not touch the `AND` have to.  `meaning` tells the value of an atom in a
row. -/
structure Sql.Select.IsConjoined {ρ : Type} (meaning : ρ → List Lexeme → Sql.Truth)
    (body : Sql.Select) (a b : String) (as bs : List (List Formula)) : Prop where
  text : body.conditions "WHERE" body.wheres = .ok (" WHERE " ++ (a ++ " AND " ++ b))
  reads : read (a ++ " AND " ++ b) = some (conjoin as bs)
  left_iff : (∀ row, Selects (meaning row) (conjoin as bs) → Selects (meaning row) as) ↔
    ∀ row, Selects (meaning row) bs.tail → Selects (meaning row) as
  right_iff : (∀ row, Selects (meaning row) (conjoin as bs) → Selects (meaning row) bs) ↔
    ∀ row, Selects (meaning row) as.dropLast → Selects (meaning row) bs
  same_iff : SameRows meaning (a ++ " AND " ++ b) (bracketed a ++ " AND " ++ bracketed b) ↔
    (∀ row, Selects (meaning row) bs.tail → Selects (meaning row) as) ∧
      ∀ row, Selects (meaning row) as.dropLast → Selects (meaning row) bs

theorem Sql.Criterion.renderAll_cons_cons {style : Sql.ListStyle} {c : Sql.Criterion}
    {rest : String} (h : renderAll style (c :: cs) = .ok rest) :
    renderAll style (.raw a :: c :: cs) = .ok (a ++ " AND " ++ rest) := by
  obtain ⟨texts, htx, h⟩ := Result.of_bind h
  cases h
  refine Result.bind_eq_ok.mpr ⟨a :: texts, ?_, ?_⟩
  · rw [mapM_cons, Result.bind_eq_ok]
    exact ⟨a, rfl, Result.bind_eq_ok.mpr ⟨texts, htx, rfl⟩⟩
  · cases Result.mapM_eq_ok htx with
    | cons hc hcs => simp [Text.join, String.intercalate_cons_cons]; rfl

theorem Sql.Select.isConjoined {ρ : Type} (meaning : ρ → List Lexeme → Sql.Truth)
    {as bs : List (List Formula)} {c : Sql.Criterion} (hwh : body.wheres = .raw a :: c :: cs)
    (hr : Criterion.renderAll body.dialect.lists (c :: cs) = .ok b) (ha : read a = some as)
    (hb : read b = some bs) : body.IsConjoined meaning a b as bs where
  text := by
    rw [hwh, conditions, if_neg (by simp)]
    exact Result.bind_eq_ok.mpr ⟨_, Criterion.renderAll_cons_cons hr, rfl⟩
  reads := SearchCondition.read_and ha hb
  left_iff := SearchCondition.selects_left_iff (SearchCondition.read_ne_nil ha)
    (SearchCondition.read_ne_nil hb)
  right_iff := SearchCondition.selects_right_iff (SearchCondition.read_ne_nil ha)
    (SearchCondition.read_ne_nil hb)
  same_iff := SearchCondition.sameRows_bracketed_iff ha hb

/-- **When the rows of a literal satisfy what was added to it.**  In a selection with a literal and
an access filter, the text behind `WHERE` is the filter, an `AND` and the rest, which begins with
the literal; in a later step of a funnel it is the literal, an `AND` and the time within which the
step is to be done.  In both, the added condition holds in all selected rows exactly if it does in
those of the terms that the `AND` does not touch; without an `OR` outside of brackets there are
none. -/
theorem literal_where_isConjoined {ρ : Type} (meaning : ρ → List Lexeme → Sql.Truth) :
    (∀ {compilers : Compilers} {q : Selection} {d : Design} {st : Sql.Statement} {c w : String}
        {fields : List Field} {ws ws' : Workspace},
      q.compileWith compilers d ws = (.ok st, ws') → q.wheres = .text w →
      d.accessFilter ws.project = .ok (some c, fields) →
      ∃ r ws1 js ws2 c' w' tables body more,
        q.read d ws = (.ok r, ws1) ∧ d.joins ws1 = (.ok js, ws2) ∧
        d.LiteralSql ws2.project js c c' ∧ d.LiteralSql ws2.project js w w' ∧
        st = .select tables body ∧ body.wheres = .raw c' :: .raw w' :: more ∧
        ∀ {rest : String} {as bs : List (List Formula)},
          Sql.Criterion.renderAll body.dialect.lists (.raw w' :: more) = .ok rest →
          read c' = some as → read rest = some bs → body.IsConjoined meaning c' rest as bs) ∧
    ∀ {select : Selection → Design → Action Sql.Statement} {f : Funnel} {d : Design}
        {t : FunnelTables} {steps : List Value} {n : Nat} {w : String} {ws ws' : Workspace},
      f.tables select d ws = (.ok t, ws') → f.steps = .ok steps →
      steps[n + 1]? = some (.text w) →
      ∃ date ws1 js ws2 w' c body,
        f.eventDate ws.project d = .ok date ∧ t.design.joins ws1 = (.ok js, ws2) ∧
        t.design.LiteralSql ws.project js w w' ∧
        f.within d.warehouse date.column (n + 2) = .ok (.raw c) ∧
        (Selection.stepTable (toString (n + 2)), .select [] body) ∈ t.tables ∧
        body.wheres = [.raw w', .raw c] ∧
        ∀ {as bs : List (List Formula)},
          read w' = some as → read c = some bs → body.IsConjoined meaning w' c as bs := by
  constructor
  · intro compilers q d st c w fields ws ws' h hw haccess
    obtain ⟨r, ws1, js, ws2, c', w', tables, body, more, hread, hjs, hc', hw', hst, hwheres⟩ :=
      Selection.compileWith_text h hw haccess
    exact ⟨r, ws1, js, ws2, c', w', tables, body, more, hread, hjs, hc', hw', hst, hwheres,
      Sql.Select.isConjoined meaning hwheres⟩
  · intro select f d t steps n w ws ws' h hsteps hstep
    obtain ⟨date, ws1, js, ws2, w', c, body, hdate, hjs, hw', hc, hmem, hwheres⟩ :=
      Funnel.tables_text h hsteps hstep
    exact ⟨date, ws1, js, ws2, w', c, body, hdate, hjs, hw', hc, hmem, hwheres,
      Sql.Select.isConjoined meaning hwheres rfl⟩

/-! ### Sales by region

A user sees the sales of a region and asks for those of two channels. -/

namespace Regions

structure Sale where
  region : String
  channel : String

/-- The value of `column = 'text'` for a sale. -/
def meaning (s : Sale) : List Lexeme → Sql.Truth
  | [.word column, .mark '=', .quoted text] =>
    let value := if column = "sales.region".toList then s.region else s.channel
    if text = (Sql.quote value).toList then .yes else .no
  | _ => .unknown

def field (type name : String) (more : Definition) : Definition :=
  [("name", .text name), ("field_type", .text type), ("sql", .text ("sales." ++ name))] ++ more

def channel : Definition := field "dimension" "channel" [("type", .text "string")]

def fields : List Definition :=
  [channel, field "dimension" "region" [("type", .text "string")],
    field "dimension" "buyer" [("type", .text "string"), ("primary_key", .text "yes"),
      ("tags", .list [.text "customer"])],
    field "dimension_group" "made" [("type", .text "time"), ("timeframes", .list [.text "raw"])],
    field "measure" "number" [("type", .text "count")]]

def sales : ViewEntry where
  definition :=
    [("name", .text "sales"), ("sql_table_name", .text "sales"), ("default_date", .text "made"),
      ("access_filters", .list
        [.map [("field", .text "sales.region"), ("user_attribute", .text "region")]])]
  shelf := some 0

def project : Store :=
  { (default : Store) with
    views := [sales], shelves := [⟨fields, .null⟩], user := some [("region", .text "Europe")] }

/-- All fields belong to the one join graph, which is remembered. -/
def workspace : Workspace where
  project := project
  remembered := ["channel", "buyer", "made_raw", "number"].map fun name =>
    ((project.userKey, "sales." ++ name), ["subquery_0"])

def design : Design where
  warehouse := .snowflake
  model := none
  fields := [("sales.channel",
    { view := { (default : View) with definition := [("name", .text "sales")] },
      definition := channel })]

def access : String := "sales.region='Europe'"

def literal : String := "sales.channel = 'Email' OR sales.channel = 'Web'"

def query : Selection where
  metrics := []
  dimensions := ["sales.channel"]
  wheres := .text literal

def funnel : Funnel where
  metrics := ["sales.number"]
  dimensions := []
  definition := .map
    [("steps", .list [.text "sales.channel = 'Shop'", .text literal]),
      ("within", .map [("value", .int 7), ("unit", .text "days")])]
  wheres := .absent
  havings := .absent

def within : String := "DATEDIFF('DAY', step_1.step_1_time, base.sales_made_raw) <= 7"

def events (_ : Selection) (_ : Design) : Action Sql.Statement := pure (.text "SELECT * FROM events")

def equation (column text : String) : Formula :=
  .atom [.word column.toList, .mark '=', .quoted (Sql.quote text).toList]

theorem read_access : read access = some [[equation "sales.region" "Europe"]] := rfl

theorem read_literal : read literal
    = some [[equation "sales.channel" "Email"], [equation "sales.channel" "Web"]] := rfl

def texts? : Sql.Statement → Option (String × String)
  | .select _ body =>
    match body.wheres with
    | [.raw a, .raw b] => some (a, b)
    | _ => none
  | _ => none

theorem wheres_of_texts? (tables : List (String × Sql.Statement))
    (h : texts? (.select tables body) = some (a, b)) :
    body.wheres = [.raw a, .raw b] := by
  rw [texts?] at h
  split at h
  · next h' => cases h; exact h'
  · cases h

theorem accessFilter_design : ∃ used, design.accessFilter project = .ok (some access, used) := by
  have h : (design.accessFilter project).toOption.map (·.1) = some (some access) := by
    decide +kernel
  rcases hrun : design.accessFilter project with e | ⟨c, used⟩
  · rw [hrun] at h
    cases h
  · rw [hrun] at h
    cases h
    exact ⟨used, rfl⟩

theorem compile_query : ∃ tables body ws', query.compile design workspace
    = (.ok (.select tables body), ws') ∧ body.wheres = [.raw access, .raw literal] := by
  have h : (query.compile design workspace).1.toOption.bind texts? = some (access, literal) := by
    decide +kernel
  rcases hrun : query.compile design workspace with ⟨e | st, ws'⟩
  · rw [hrun] at h
    cases h
  · rw [hrun] at h
    cases st with
    | select tables body => exact ⟨tables, body, ws', rfl, wheres_of_texts? tables h⟩
    | _ => cases h

theorem tables_funnel : ∃ t ws', funnel.tables events design workspace = (.ok t, ws') ∧
    ∀ s, ("step_2", s) ∈ t.tables → texts? s = some (literal, within) := by
  have h : (funnel.tables events design workspace).1.toOption.any (fun t =>
      t.tables.all fun e => e.1 != "step_2" || texts? e.2 == some (literal, within)) = true := by
    decide +kernel
  rcases hrun : funnel.tables events design workspace with ⟨e | t, ws'⟩
  · rw [hrun] at h
    cases h
  · rw [hrun] at h
    refine ⟨t, ws', rfl, fun s hs => ?_⟩
    simpa using all_eq_true.mp h _ hs

end Regions

theorem literal_where_isConjoined_regions :
    (∃ tables body ws' as bs,
      Regions.query.compile Regions.design Regions.workspace = (.ok (.select tables body), ws') ∧
      body.IsConjoined Regions.meaning Regions.access Regions.literal as bs) ∧
    ∃ t body ws' as bs,
      Regions.funnel.tables Regions.events Regions.design Regions.workspace = (.ok t, ws') ∧
      ("step_2", .select [] body) ∈ t.tables ∧
      body.IsConjoined Regions.meaning Regions.literal Regions.within as bs := by
  obtain ⟨bs, hbs⟩ := Option.isSome_iff_exists.mp
    (show (read Regions.within).isSome = true by decide +kernel)
  constructor
  · obtain ⟨used, haccess⟩ := Regions.accessFilter_design
    obtain ⟨tables, body, ws', hrun, hwheres⟩ := Regions.compile_query
    obtain ⟨_, _, _, _, c', w', _, _, more, -, -, -, -, hst, hbody, hall⟩ :=
      (literal_where_isConjoined Regions.meaning).1 hrun rfl haccess
    cases hst
    rw [hwheres] at hbody
    cases hbody
    exact ⟨tables, body, ws', _, _, hrun, hall rfl Regions.read_access Regions.read_literal⟩
  · obtain ⟨t, ws', hrun, htexts⟩ := Regions.tables_funnel
    obtain ⟨_, _, _, _, w', c, body, -, -, -, -, hmem, hwheres, hall⟩ :=
      (literal_where_isConjoined Regions.meaning).2 hrun rfl (n := 0) rfl
    have hbody := Regions.wheres_of_texts? [] (htexts _ hmem)
    rw [hwheres] at hbody
    cases hbody
    exact ⟨t, body, ws', _, bs, hrun, hmem, hall Regions.read_literal hbs⟩

/-- A sale of another region is selected: it came by the web, and the access filter stands only
beside the sales by mail. -/
theorem regions_selects_beyond_access : ∃ tables body ws' used terms filter,
    Regions.query.compile Regions.design Regions.workspace = (.ok (.select tables body), ws') ∧
    Regions.design.accessFilter Regions.workspace.project = .ok (some Regions.access, used) ∧
    body.conditions "WHERE" body.wheres
      = .ok (" WHERE " ++ (Regions.access ++ " AND " ++ Regions.literal)) ∧
    read (Regions.access ++ " AND " ++ Regions.literal) = some terms ∧
    read Regions.access = some filter ∧
    Selects (Regions.meaning ⟨"Asia", "Web"⟩) terms ∧
    ¬ Selects (Regions.meaning ⟨"Asia", "Web"⟩) filter := by
  obtain ⟨used, haccess⟩ := Regions.accessFilter_design
  obtain ⟨tables, body, ws', hrun, hwheres⟩ := Regions.compile_query
  have hsplice := Sql.Select.isConjoined Regions.meaning hwheres rfl Regions.read_access
    Regions.read_literal
  exact ⟨tables, body, ws', used, _, _, hrun, haccess, hsplice.text, hsplice.reads,
    Regions.read_access, by decide +kernel, by decide +kernel⟩

end SemanticLayer
