import SemanticLayer.Proofs.Query.Parallel

/-!
# What a selection is put together from

A compiled selection is taken apart into the parts of its `SELECT` and the computations they come
from (`Selection.build_eq_ok`).
-/

namespace SemanticLayer

open SemanticLayer.Action

variable {q : Selection} {r : Reading}

namespace Selection

theorem funnelTables_induct {P : Design → Prop}
    (hput : ∀ d f, d.has f.id = false → P d → P (d.put f.id f))
    {select inner : Selection → Design → Action Sql.Statement} {d d' : Design}
    {front : List (String × Sql.Statement)} {link : Option (Restriction × Field)} {w w' : Workspace}
    (hd : P d)
    (h : funnelTables ⟨select, Funnel.tables inner⟩ q d r w = (.ok (front, link, d'), w')) :
    P d' := by
  exact funnelTables_of (fun ht => Funnel.tables_induct hput hd ht) hd h

structure Assembly where
  /-- The tables of a funnel and the condition that refers to them. -/
  front : List (String × Sql.Statement)
  link : Option (Restriction × Field)
  design : Design
  /-- The workspace in which joins are planned, and the one behind that. -/
  opened : Workspace
  joined : Workspace
  dialect : Sql.Dialect
  joins : List Join
  base : View
  source : Sql.Source
  clauses : List Sql.JoinClause
  columns : List Sql.Column
  wheres : List Sql.Criterion
  groups : List String
  havings : List Sql.Criterion
  grouped : List ((String × Sql.Statement) × Sql.Criterion)
  windows : List ((String × Sql.Statement) × Sql.JoinClause)
  linked : List ((String × Sql.Statement) × Sql.Criterion)
  orders : List (String × Sql.Direction)

namespace Assembly

def tables (a : Assembly) : List (String × Sql.Statement) :=
  a.front ++ a.grouped.map (·.1) ++ a.windows.map (·.1) ++ a.linked.map (·.1)

def body (a : Assembly) (limit : Value) : Sql.Select :=
  { dialect := a.dialect, columns := a.columns, source := some a.source,
    joins := a.clauses ++ a.windows.map (·.2),
    wheres := a.wheres ++ a.grouped.map (·.2) ++ a.linked.map (·.2),
    groups := a.groups, havings := a.havings, orders := a.orders, limit := limit }

/-- The parts come from a selection whose conditions were read, between two workspaces. -/
structure Of (a : Assembly) (compilers : Compilers) (q : Selection) (d : Design) (r : Reading)
    (ws ws' : Workspace) : Prop where
  front : funnelTables compilers q d r ws = (.ok (a.front, a.link, a.design), a.opened)
  dialect : Sql.Dialect.ofWarehouse a.design.warehouse = .ok a.dialect
  joins : a.design.joins a.opened = (.ok a.joins, a.joined)
  base : ∃ name, a.design.baseOf a.joined.project a.joins = .ok name ∧
    a.design.view a.joined.project name = .ok a.base
  source : sourceOf a.joined.project a.base = .ok a.source
  clauses : joinClauses a.joined.project a.design a.joins = .ok a.clauses
  columns : q.columns a.joined.project a.design (a.design.rowKeyOf a.joined.project a.joins)
    = .ok a.columns
  wheres : criteria a.joined.project a.design a.joins r.wheres = .ok a.wheres
  groups : q.ifGrouped (q.groups a.joined.project a.design) = .ok a.groups
  havings : q.ifGrouped (criteria a.joined.project a.design a.joins r.havings) = .ok a.havings
  orders : q.ifGrouped (q.orderColumns ws'.project a.design r.orders) = .ok a.orders

end Assembly

/-- **A selection that is built is one `SELECT` behind its tables**, of parts that were computed one
after the other. -/
theorem build_eq_ok {compilers : Compilers} {d : Design} {st : Sql.Statement} {ws ws' : Workspace}
    (h : q.build compilers d r ws = (.ok st, ws')) :
    ∃ a : Assembly, a.Of compilers q d r ws ws' ∧ st = .select a.tables (a.body q.limit) := by
  unfold build at h
  obtain ⟨⟨front, link, d'⟩, ws1, hfr, h⟩ := of_bind h
  obtain ⟨dialect, hdialect, h⟩ := of_lift_bind h
  obtain ⟨js, ws2, hjs, h⟩ := of_bind h
  replace h := of_project_bind h
  obtain ⟨base, hb, h⟩ := of_lift_bind h
  obtain ⟨view, hv, h⟩ := of_lift_bind h
  obtain ⟨source, hsrc, h⟩ := of_lift_bind h
  obtain ⟨clauses, hclauses, h⟩ := of_lift_bind h
  obtain ⟨columns, hcol, h⟩ := of_lift_bind h
  obtain ⟨wheres, hwh, h⟩ := of_lift_bind h
  obtain ⟨groups, hgs, h⟩ := of_lift_bind h
  obtain ⟨havings, hhav, h⟩ := of_lift_bind h
  -- the tables in front
  obtain ⟨_, _, -, h⟩ := of_bind h
  obtain ⟨grouped, _, -, h⟩ := of_bind h
  obtain ⟨_, _, -, h⟩ := of_bind h
  obtain ⟨windows, _, -, h⟩ := of_bind h
  obtain ⟨linked, _, -, h⟩ := of_bind h
  -- the order, by the project as it is then
  replace h := of_project_bind h
  obtain ⟨orders, hord, h⟩ := of_lift_bind h
  obtain ⟨rfl, rfl⟩ := pure_eq_ok.mp h
  exact ⟨⟨front, link, d', ws1, ws2, dialect, js, view, source, clauses, columns, wheres, groups,
      havings, grouped, windows, linked, orders⟩,
    ⟨hfr, hdialect, hjs, ⟨base, hb, hv⟩, hsrc, hclauses, hcol, hwh, hgs, hhav, hord⟩, rfl⟩

end Selection

end SemanticLayer
