import SemanticLayer.Query.Design
import SemanticLayer.Validate

/-!
# Looking into projects

What there is to know of fields, views, dashboards, joins and designs, as values: an attribute is
asked for by its name.
-/

namespace SemanticLayer

def Value.inOrder (xs : List String) : Value := .texts (xs.mergeSort fun a b => decide (a ≤ b))

def Reached.toValue : Reached → Value
  | .field g => .text g.id
  | .missing n => .text n
  | .unwritten => .null

def RowKey.toValue : RowKey → Value
  | .none => .null
  | .missing => .text "__DOES_NOT_EXIST__"
  | .field id => .text id

def Field.attribute (f : Field) (name : String) : Action Value := do
  let p ← Action.project
  match name with
  | "id" => return .text f.id
  | "id_capitalized" => return .text f.idInCapitals
  | "alias" => return .text f.aliasName
  | "alias_with_view" => return .text f.column
  | "repr" => return .text f.describe
  | "label" => f.label
  | "datatype" => return f.datatype
  | "sql" => return .ofOption (← f.expression p)
  | "filters" => return f.filters
  | "measure" => do return (← f.measure p).toValue
  | "canon_date" => return .ofOption (← f.canonDate)
  | "convert_timezone" => f.convertsTimezone p
  | "drill_fields" => f.drillFields p
  | "non_additive_dimension" => f.nonAdditive
  | "is_merged_result" => f.isMergedResult p
  | "dimension_group" => return f.group
  | "update_where_timeframe" => return f.followsTimeframe
  | "non_additive_alias" => return .ofOption (← f.nonAdditiveColumn)
  | "non_additive_cte_alias" => return .ofOption (← f.nonAdditiveTable)
  | "is_cumulative" => return .bool (← f.isCumulative p)
  | "dimension_group_names" => return .texts (← f.groupNames)
  | "strict_replaced_query" => return .text (← f.columnSql p)
  | "cte_prefix" => return .ofOption (f.cumulativeTable true)
  | "cte_prefix_subquery" => return .ofOption (f.cumulativeTable false)
  | "required_views" => return Value.inOrder (← f.requiredViews p)
  | "join_graphs" => return Value.inOrder (← Action.joinGraphs f)
  | "references" => return ((← f.referenceKeys p).map Value.inOrder).getD .null
  | "reference_fields" =>
    return ((← f.allReferences p).map fun found => .list (found.map Reached.toValue)).getD .null
  | "to_dict" => return .map (← f.toDefinition p (some .snowflake))
  | "printable" => return .map (← f.printable p)
  | "errors" => return .texts (← f.errors p)
  | "name_not_valid_sql" => return .bool (← f.isNotValidSql)
  | other => return f.property other

def View.attribute (v : View) (name : String) : Action Value := do
  let p ← Action.project
  match name with
  | "repr" => return .text v.describe
  | "sql_table_name" => v.tableName p
  | "identifiers" => return v.identifiers
  | "model" => return ((← v.model p).map Model.name).getD .null
  | "week_start_day" => return .text (← v.weekStart p)
  | "primary_key" => return .ofOption ((← v.primaryKey p).map Field.id)
  | "printable" => return .map (← v.printable (← get).project)
  | "errors" => return .texts (← v.errors p)
  | "referenced_fields" => return .list ((← v.reachedFields p).map Reached.toValue)
  | "fields" => return .texts ((← v.fieldsWith p true).map Field.id)
  | "visible_fields" => return .texts ((← v.fieldsWith p false).map Field.id)
  | "sets" => return .list ((← v.listSets).map (·.name))
  | other => return v.property other

def Dashboard.attribute (b : Dashboard) (name : String) : Action Value := do
  let p ← Action.project
  match name with
  | "label" => b.label
  | "to_dict" => return .map (← b.toDefinition p)
  | "printable" => return .map (← b.printable p)
  | "errors" => return .texts (← b.errors p)
  | "filters" => return .list ((← b.filters p).map .map)
  | "elements" => do
    let es ← b.elements
    return .list (← es.mapM fun e => do return .map (← e.toDefinition p))
  | "metrics" => return .list ((← b.elements).map Element.metrics)
  | "slice_by" => return .list ((← b.elements).map Element.sliceBy)
  | other => return b.definition.get other

def Join.summary (j : Join) : Definition :=
  [("repr", .text j.describe), ("type", j.property "type"), ("relationship", j.relationship)]

def Mapping.toValue (m : Mapping) : Value :=
  .map [("field", .text m.field), ("field_type", m.fieldType), ("from_join_hash", .text m.source),
    ("to_join_hash", .text m.target), ("is_canon_date_mapping", .bool m.isDate)]

def Design.report (d : Design) : Action Value := do
  let p ← Action.project
  let js ← d.joins
  let views ← d.requiredViews p
  let on ← js.mapM fun j => do return (← j.conditionSql p d.warehouse)
  let base ← d.baseView
  let key ← d.rowKey
  let (access, _) ← d.accessFilter p
  return .map [("required_views", Value.inOrder views),
    ("joins", .list (js.map fun j =>
      .list [j.base, j.target, j.property "type", j.relationship])),
    ("on", .texts on), ("base_view", .text base), ("functional_pk", key.toValue),
    ("access_filter", .ofOption access)]

def JoinGraph.report (g : JoinGraph) : Result Value := do
  let arcs := g.graph.arcs.mergeSort fun a b => decide (a.source < b.source)
    || (a.source == b.source && decide (a.target ≤ b.target))
  let hashes ← g.graph.nodes.mapM fun v => do return (v, Value.text (← g.componentOf v))
  return .map [("nodes", Value.inOrder g.graph.nodes),
    ("edges", .list (arcs.map fun a =>
      .map [("base", .text a.source), ("join", .text a.target), ("data", .map a.data)])),
    ("graphs", .texts g.componentNames), ("hashes", .map hashes),
    ("weak", .map (g.graph.nodes.map fun v => (v, .texts (g.joinableFrom v))))]

end SemanticLayer
