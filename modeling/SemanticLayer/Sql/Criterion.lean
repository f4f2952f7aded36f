import SemanticLayer.Error
import SemanticLayer.Filter.Expression

/-!
# Criteria

The conditions of a statement.  A criterion compares SQL text with a value; conditions are joined
by `AND` without brackets, and raw SQL stands as it is.
-/

namespace SemanticLayer.Sql

inductive ListStyle where
  | brackets
  /-- `ARRAY[1,2]`, and a quoted pair of braces when empty. -/
  | array
  deriving DecidableEq, Repr, Inhabited

def quote (s : String) : String := "'" ++ Text.replace s "'" "''" ++ "'"

mutual

def term (style : ListStyle) : Value → String
  | .null => "NULL"
  | .bool b => if b then "true" else "false"
  | .text s => quote s
  | .moment t => "'" ++ t.iso ++ "'"
  | .sql s => s
  | .list items =>
    match style with
    | .brackets => "[" ++ Text.join "," (terms style items) ++ "]"
    | .array =>
      if items.isEmpty then "'\x7b\x7d'" else "ARRAY[" ++ Text.join "," (terms style items) ++ "]"
  | v => v.plain

def terms (style : ListStyle) : List Value → List String
  | [] => []
  | v :: vs => term style v :: terms style vs

end

inductive Criterion where
  | compare (sign left : String) (value : Value)
  | like (isNegated : Bool) (left : String) (value : Value)
  | likeFolded (isNegated : Bool) (left pattern : String)
  | isNull (left : String)
  | isNotNull (left : String)
  | isIn (isNegated : Bool) (left : String) (value : Value)
  | isInTable (isNegated : Bool) (left column table : String)
  | holds (left : String)
  | fails (left : String)
  | raw (text : String)
  deriving Repr, Inhabited

namespace Criterion

def ofExpression (left : String) (e : Expression) (value : Value) : Result Criterion :=
  let v := value.plain
  match e with
  | .lessThan => .ok (.compare "<" left value)
  | .lessOrEqualThan => .ok (.compare "<=" left value)
  | .equalTo => .ok (.compare "=" left value)
  | .notEqualTo => .ok (.compare "<>" left value)
  | .greaterOrEqualThan => .ok (.compare ">=" left value)
  | .greaterThan => .ok (.compare ">" left value)
  | .like => .ok (.like false left value)
  | .contains => .ok (.like false left (.text ("%" ++ v ++ "%")))
  | .doesNotContain => .ok (.like true left (.text ("%" ++ v ++ "%")))
  | .containsCaseInsensitive => .ok (.likeFolded false left ("%" ++ v ++ "%"))
  | .doesNotContainCaseInsensitive => .ok (.likeFolded true left ("%" ++ v ++ "%"))
  | .startsWith => .ok (.like false left (.text (v ++ "%")))
  | .endsWith => .ok (.like false left (.text ("%" ++ v)))
  | .doesNotStartWith => .ok (.like true left (.text (v ++ "%")))
  | .doesNotEndWith => .ok (.like true left (.text ("%" ++ v)))
  | .startsWithCaseInsensitive => .ok (.likeFolded false left (v ++ "%"))
  | .endsWithCaseInsensitive => .ok (.likeFolded false left ("%" ++ v))
  | .doesNotStartWithCaseInsensitive => .ok (.likeFolded true left (v ++ "%"))
  | .doesNotEndWithCaseInsensitive => .ok (.likeFolded true left ("%" ++ v))
  | .isNull => .ok (.isNull left)
  | .isNotNull => .ok (.isNotNull left)
  | .isIn => .ok (.isIn false left value)
  | .isNotIn => .ok (.isIn true left value)
  | .booleanTrue => .ok (.holds left)
  | .booleanFalse => .ok (.fails left)
  | .unknown | .isMatch => .error (.unknownExpression e.label)

private def word (isNegated : Bool) (w : String) : String := if isNegated then "NOT " ++ w else w

def render (style : ListStyle) : Criterion → Result String
  | .compare sign left v => .ok (left ++ sign ++ term style v)
  | .like n left v => .ok (left ++ " " ++ word n "LIKE" ++ " " ++ term style v)
  | .likeFolded n left p =>
    .ok ("LOWER(" ++ left ++ ") " ++ word n "LIKE" ++ " LOWER(" ++ quote p ++ ")")
  | .isNull left => .ok (left ++ " IS NULL")
  | .isNotNull left => .ok ("NOT " ++ left ++ " IS NULL")
  | .isIn n left v =>
    match v with
    | .list items =>
      .ok (left ++ " " ++ word n "IN" ++ " (" ++ Text.join "," (terms style items) ++ ")")
    | .sql s => .ok (left ++ " " ++ word n "IN" ++ " " ++ s)
    | _ => malformed .noAttribute
  | .isInTable n left column table =>
    .ok (left ++ " " ++ word n "IN" ++ " (SELECT DISTINCT " ++ column ++ " FROM " ++ table ++ ")")
  | .holds left => .ok left
  | .fails left => .ok ("NOT " ++ left)
  | .raw text => .ok text

def renderAlone : Criterion → Result String
  | .holds _ => malformed .wrongType
  | c => c.render .brackets

def renderAll (style : ListStyle) (cs : List Criterion) : Result String := do
  return Text.join " AND " (← cs.mapM (render style))

def renderAllAlone : List Criterion → Result String
  | [c] => c.renderAlone
  | cs => renderAll .brackets cs

end Criterion

end SemanticLayer.Sql
