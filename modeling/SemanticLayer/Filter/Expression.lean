import SemanticLayer.Value.Show

/-!
# Filter expressions

The comparisons a condition can make, and the names under which definitions write them.
-/

namespace SemanticLayer

inductive Expression where
  | unknown
  | lessThan
  | lessOrEqualThan
  | equalTo
  | notEqualTo
  | greaterOrEqualThan
  | greaterThan
  | like
  | contains
  | doesNotContain
  | containsCaseInsensitive
  | doesNotContainCaseInsensitive
  | startsWith
  | endsWith
  | doesNotStartWith
  | doesNotEndWith
  | startsWithCaseInsensitive
  | endsWithCaseInsensitive
  | doesNotStartWithCaseInsensitive
  | doesNotEndWithCaseInsensitive
  | isNull
  | isNotNull
  | isIn
  | isNotIn
  | booleanTrue
  | booleanFalse
  | isMatch
  deriving DecidableEq, Repr, Inhabited

namespace Expression

def name : Expression → String
  | .unknown => "UNKNOWN"
  | .lessThan => "less_than"
  | .lessOrEqualThan => "less_or_equal_than"
  | .equalTo => "equal_to"
  | .notEqualTo => "not_equal_to"
  | .greaterOrEqualThan => "greater_or_equal_than"
  | .greaterThan => "greater_than"
  | .like => "like"
  | .contains => "contains"
  | .doesNotContain => "does_not_contain"
  | .containsCaseInsensitive => "contains_case_insensitive"
  | .doesNotContainCaseInsensitive => "does_not_contain_case_insensitive"
  | .startsWith => "starts_with"
  | .endsWith => "ends_with"
  | .doesNotStartWith => "does_not_start_with"
  | .doesNotEndWith => "does_not_end_with"
  | .startsWithCaseInsensitive => "starts_with_case_insensitive"
  | .endsWithCaseInsensitive => "ends_with_case_insensitive"
  | .doesNotStartWithCaseInsensitive => "does_not_start_with_case_insensitive"
  | .doesNotEndWithCaseInsensitive => "does_not_end_with_case_insensitive"
  | .isNull => "is_null"
  | .isNotNull => "is_not_null"
  | .isIn => "isin"
  | .isNotIn => "isnotin"
  | .booleanTrue => "boolean_true"
  | .booleanFalse => "boolean_false"
  | .isMatch => "matches"

def all : List Expression :=
  [.unknown, .lessThan, .lessOrEqualThan, .equalTo, .notEqualTo, .greaterOrEqualThan, .greaterThan,
   .like, .contains, .doesNotContain, .containsCaseInsensitive, .doesNotContainCaseInsensitive,
   .startsWith, .endsWith, .doesNotStartWith, .doesNotEndWith, .startsWithCaseInsensitive,
   .endsWithCaseInsensitive, .doesNotStartWithCaseInsensitive, .doesNotEndWithCaseInsensitive,
   .isNull, .isNotNull, .isIn, .isNotIn, .booleanTrue, .booleanFalse, .isMatch]

def parse (v : Value) : Expression :=
  match v with
  | .text s => ((all.filter (· != .unknown)).find? (·.name == s)).getD .unknown
  | _ => .unknown

def label : Expression → String
  | .isMatch => "MetricsLayerFilterExpressionType.Matches"
  | .unknown => "MetricsLayerFilterExpressionType.Unknown"
  | e => e.name

end Expression

end SemanticLayer
