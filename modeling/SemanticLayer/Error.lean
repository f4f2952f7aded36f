import SemanticLayer.Value.Show

/-!
# Errors

Every way in which reading definitions, compiling a query or loading a project can fail, by cause.
All wording stands in `Error.message?`.  Malformed data has no wording: only its kind is known.
-/

namespace SemanticLayer

/-- Data without the shape that is asked of it. -/
inductive Malformed where
  | missingKey
  /-- A value of another type is needed. -/
  | wrongType
  /-- A value lacks the property that is read from it. -/
  | noAttribute
  /-- A list or text is shorter than the position read from it. -/
  | outOfRange
  /-- A text does not denote a value of the type it is read as. -/
  | badValue
  /-- Nothing matches where a match has to exist. -/
  | noMatch
  /-- A name is read before it has a value. -/
  | unset
  | noFile
  | unknownZone
  /-- A number of days leaves the calendar. -/
  | overflow
  | git
  /-- References lead back to themselves. -/
  | endless
  | unknownNode
  deriving DecidableEq, Repr

inductive ErrorKind where
  | query
  | join
  | parse
  | argument
  | access
  | connection
  | config
  | unsupported
  | missingModule
  | malformed (m : Malformed)
  deriving DecidableEq, Repr

inductive Error where
  -- Definitions
  | missingKey (entity key : String)
  | fieldMissingKey (key : String) (definition : Value)
  | filterMissingKey (key : String) (definition : Value)
  | duplicateJoinAs
  | duplicateView (view : String)
  | undeterminedRelationship (baseType joinType : Value)
  | joinMissingKey (key : String) (base join : Value)
  | joinWithoutCondition (base : Value)
  | joinWithManyConditions (base : Value)
  | conditionalTable (table : String) (environment : Value)
  | schemaRequired
  | referenceNotInManifest (name : String)
  | grantNotFound (name : Value)
  | setWithoutView (field : String) (set : Value)
  | dashboardModelNotFound (model dashboard : Value)
  -- Lookup
  | fieldNotFound (field : String) (view : Option String)
  | fieldAmbiguous (name : String) (view : Option String) (ids : List String)
  | viewNotFound (view : String)
  | viewNotMatching (view : String)
  | dashboardNotFound (dashboard : String)
  | twoViews (specified given : String)
  | viewNotInGraph (view : String)
  | noModelInView (view : String)
  -- Filters
  | mixedNegation
  | unknownExpression (expression : String)
  | filterWithoutKey (definition : Value)
  | filterWithoutValue (expression : Value)
  | unknownFilter (expression : Value)
  -- Field SQL
  | countWithoutKey
  | aggregateUnsupported (type : Value)
  | primaryKeyUndefined (view : String)
  | symmetricUnsupported (warehouse : Value) (plain distinct : String)
  | medianUnsupported (warehouse : Value) (field : String)
  | durationUnsupported (group warehouse : Value)
  | timezoneUnsupported (warehouse : Value)
  | weekUnsupported (warehouse : Value)
  | cumulativeSql (field : String)
  | unknownSql (field : Value)
  | wrongMeasureType (field : Value) (reference : String)
  | numberWithoutReferences (sql : Value)
  | warehouseWithoutModel (field : String)
  | warehouseWithoutConnection (connection model : Value)
  -- Queries
  | noJoinPath (views : List String)
  | ambiguousNames
  | conditionWithoutField (condition : Value)
  | funnelKeys
  | funnelWithCumulative
  | funnelWithMerged
  | warehouseUndetermined
  | noModels
  | manyModels
  | fieldNotCombinable (field : String)
  | fieldsNotCombinable (fields : List String)
  | mappedFieldWithoutPath (name : String)
  | mappedFieldMissing (name : String)
  | unmerged (attempted : Bool) (cause : Error)
  | reservedMapping (name : String)
  | mappingWithGroup (field : String)
  | mappingOfDifferentTypes (first second : String)
  | referenceNotFound (reference : String)
  | noDateForMetric (metric : Value)
  | noMappingFor (field : String)
  | oneFunnelFilter
  | eventDateUndetermined (query : Value)
  | noLinkField (metrics : Value)
  | cumulativeDateNotFound (metric : Value) (date view : String)
  | havingWithoutGroups
  | orderWithoutGroups
  | groupByFilterNeeded
  | dateSpineUnsupported (warehouse : Value)
  | currentDateUnsupported (warehouse : Value)
  | mqlParenthesis (token sql : String)
  | mqlIdentifier (identifier sql : String)
  -- Connections, files and seeding
  | notLoaded
  | branchesNotLoaded
  | noDbtProject
  | connectionUnsupported (type : Value)
  | clientMissing (client option : String)
  | credentialsType (type : String) (value : Value)
  | profilesNotFound (path : String)
  | profileNotFound (profile path : String)
  | targetNotFound (target profile path : String)
  | noConfiguration
  | repoType (type : Value)
  | folderKeyMissing (key : String)
  | privateKeyRequired
  | seedWarehouses (supported : String)
  | seedConnectionType (type : Value)
  | seedUnknownConnection (type : Value)
  | tagNeeds (argument : String)
  | seedDatabaseAndSchema
  | seedDatabase
  | seedConnectionUndetermined
  | seedProfileNotFound
  | notProvided
  | notInteger (text : String)
  | malformed (m : Malformed)
  deriving Repr, Inhabited

namespace Error

def kind : Error → ErrorKind
  | .noJoinPath _ => .join
  | .filterWithoutKey _ | .filterWithoutValue _ | .mqlParenthesis _ _ | .mqlIdentifier _ _ => .parse
  | .havingWithoutGroups | .orderWithoutGroups => .argument
  | .fieldNotFound _ _ | .viewNotFound _ | .viewNotMatching _ | .dashboardNotFound _
  | .cumulativeDateNotFound _ _ _ => .access
  | .connectionUnsupported _ => .connection
  | .profilesNotFound _ | .profileNotFound _ _ | .targetNotFound _ _ _ | .noConfiguration => .config
  | .unknownFilter _ | .numberWithoutReferences _ | .dateSpineUnsupported _
  | .currentDateUnsupported _ | .seedWarehouses _ | .seedConnectionType _
  | .seedUnknownConnection _ | .notProvided => .unsupported
  | .clientMissing _ _ => .missingModule
  | .credentialsType _ _ | .repoType _ => .malformed .wrongType
  | .folderKeyMissing _ => .malformed .missingKey
  | .privateKeyRequired | .tagNeeds _ | .seedDatabaseAndSchema | .seedDatabase
  | .seedConnectionUndetermined | .seedProfileNotFound => .malformed .badValue
  | .unmerged _ cause => cause.kind
  | .notInteger _ => .malformed .badValue
  | .malformed m => .malformed m
  | _ => .query

def isQuery (e : Error) : Bool := e.kind == .query || e.kind == .join

def isAccess (e : Error) : Bool := e.kind == .access

private def brackets (names : List String) : String :=
  "[" ++ Text.join ", " (names.map Text.quoted) ++ "]"

private def noDate (metric : Value) : String :=
  "Could not find a date field associated with metric " ++ metric.plain
    ++ " in the project. \n\nMake sure you have this defined either in the view "
    ++ "with the property 'default_date' or on the metric under 'canon_date'"

private def mergeHint : String :=
  "Zenlytic tries to merge query results by default if there is no join path between "
    ++ "the views. If you'd like to disable this behavior pass single_query=True to the "
    ++ "function call.\n\nIf you're seeing this and you expected the views to join on a "
    ++ "primary or foreign key, make sure you have the right identifiers set on the views."

private def singleAttempt : String :=
  "Could not execute the query as a single query. Trying as a merged result query."

def message? : Error → Option String
  | .missingKey entity key => some s!"{entity} missing required key {key}"
  | .fieldMissingKey key d =>
    some ("Field missing required key '" ++ key ++ "' The field passed was " ++ d.quoted)
  | .filterMissingKey key d =>
    some ("Filter missing required key '" ++ key ++ "' The filter passed was " ++ d.quoted)
  | .duplicateJoinAs =>
    some ("You cannot have join_as with identical names on different views. "
      ++ "Please rename your join_as statement on one of your views.")
  | .duplicateView view =>
    some (s!"Duplicate view names found in your project for the name {view}."
      ++ " Please make sure all view names are unique (note: join_as on identifiers "
      ++ "will create a view under its that name and the name must be unique).")
  | .undeterminedRelationship b j =>
    some ("This join type cannot be determined from the identifier properties. "
      ++ "Make sure you've set the properties correctly. Base type: " ++ b.plain
      ++ ", join type: " ++ j.plain)
  | .joinMissingKey key b j =>
    some (s!"Join missing required key {key} in join with view " ++ b.plain ++ " and " ++ j.plain)
  | .joinWithoutCondition b =>
    some ("No join arguments found in join " ++ b.plain ++ ", please pass sql_on or foreign_key")
  | .joinWithManyConditions b =>
    some ("Multiple join arguments found in join " ++ b.plain
      ++ ", please pass only one of: sql_on, foreign_key")
  | .conditionalTable table env =>
    some ("Your sql_table_name: '" ++ table ++ "' contains a conditional and\n"
      ++ "                we could not match that to the conditional value you passed: "
      ++ env.plain)
  | .schemaRequired =>
    some ("You must specify a schema in the connection to "
      ++ "use references without a dbt project manifest")
  | .referenceNotInManifest name =>
    some (s!"Could not find the ref {name} in the co-located dbt project."
      ++ " Please check the name in your dbt project.")
  | .grantNotFound name =>
    some ("Could not find the access grant " ++ name.plain ++ " in your project.")
  | .setWithoutView field set =>
    some (s!"Cannot find a valid view name for the field {field} in set " ++ set.plain)
  | .dashboardModelNotFound model dashboard =>
    some ("Could not find model " ++ model.plain ++ " referenced in dashboard "
      ++ dashboard.plain ++ ".")
  | .fieldNotFound field view =>
    some (s!"Field {field} not found"
      ++ (match view with
        | some v => s!" in view {v}"
        | none => "")
      ++ ", please check that this field exists AND that you have access to it. \n\n"
      ++ "If this is a dimension group specify the group parameter, if not already specified, "
      ++ "for example, with a dimension group named 'order' with timeframes: [raw, date, month]"
      ++ " specify 'order_raw' or 'order_date' or 'order_month'")
  | .fieldAmbiguous name view ids =>
    some (s!"Multiple fields found for the name {name}"
      ++ (match view with
        | some v => s!", in view {v}"
        | none => "")
      ++ " - those fields were " ++ brackets ids
      ++ "\n\nPlease specify a view name like this: 'view_name.field_name' "
      ++ "\n\nor change the names of the fields to ensure uniqueness")
  | .viewNotFound view => some s!"Could not find or you do not have access to view {view}"
  | .viewNotMatching view => some s!"Could not find a view matching the name {view}"
  | .dashboardNotFound dashboard =>
    some s!"Could not find or you do not have access to dashboard {dashboard}"
  | .twoViews specified given =>
    some s!"You specified two different view names {specified} and {given}"
  | .viewNotInGraph view =>
    some (s!"View name {view} not found in any joinable part of your data model. "
      ++ "Please make sure this is the right name for the view.")
  | .noModelInView view =>
    some (s!"Could not find a model in view {view}, "
      ++ "please pass the model or set the model_name argument in the view")
  | .mixedNegation =>
    some "Invalid filter some elements are negated with '-' and some are not"
  | .unknownExpression expression => some s!"Unknown filter expression_type: {expression}."
  | .filterWithoutKey d =>
    some ("An attribute key or literal was not provided for filter '" ++ d.quoted ++ "'.")
  | .filterWithoutValue expression =>
    some ("Filter expression: " ++ expression.plain ++ " needs a non-empty value.")
  | .unknownFilter expression => some ("Unknown filter expression: " ++ expression.plain ++ ".")
  | .countWithoutKey =>
    some ("To apply filters to a count measure you must have the primary_key specified "
      ++ "for the view. You can do this by adding the tag 'primary_key: yes' to the "
      ++ "necessary dimension")
  | .aggregateUnsupported type =>
    some ("Aggregate type " ++ type.plain ++ " not supported. Supported types are: "
      ++ brackets ["sum", "sum_distinct", "count", "count_distinct", "average",
        "average_distinct", "median", "max", "min", "number"])
  | .primaryKeyUndefined view =>
    some (s!"The primary key for the view {view} is not defined. "
      ++ "To use symmetric aggregates, you need to define the primary key. "
      ++ "Define the primary key by adding primary_key: yes to the field "
      ++ "that is the primary key of the table.")
  | .symmetricUnsupported warehouse plain distinct =>
    some ("Symmetric aggregates are not supported in " ++ warehouse.plain ++ ". Use the '" ++ plain
      ++ "' type instead of '" ++ distinct ++ "'.")
  | .medianUnsupported warehouse field =>
    some ("Median is not supported in " ++ warehouse.plain ++ ". Please choose another "
      ++ s!"aggregate function for the {field} measure.")
  | .durationUnsupported group warehouse =>
    some ("Unable to find a valid method for running " ++ group.plain ++ " with query type "
      ++ warehouse.plain)
  | .timezoneUnsupported warehouse =>
    some ("Unable to apply timezone to sql for query type " ++ warehouse.plain)
  | .weekUnsupported warehouse =>
    some ("Unable to find a valid method for running week with query type " ++ warehouse.plain)
  | .cumulativeSql field =>
    some (s!"You cannot call sql_query() on cumulative type field {field} because cumulative "
      ++ "queries are dependent on the 'FROM' clause to be correct and the sql_query() method "
      ++ "only returns the aggregation of the individual metric, not the whole SQL query. "
      ++ "To see the query, use get_sql_query() with the cumulative metric.")
  | .unknownSql field => some ("Unknown type of SQL query for field " ++ field.plain)
  | .wrongMeasureType field reference =>
    some ("Field " ++ field.plain ++ " has the wrong type. You must use the type 'number' "
      ++ s!"if you reference other measures in your expression (like {reference} "
      ++ "referenced here)")
  | .numberWithoutReferences sql => some ("handle case for sql: " ++ sql.plain)
  | .warehouseWithoutModel field =>
    some (s!"Could not find a model in field {field} to use to detect the query type, "
      ++ "please pass the query type explicitly using the query_type argument"
      ++ "or pass an model name using the model_name argument")
  | .warehouseWithoutConnection connection model =>
    some ("Could not find the connection named " ++ connection.plain ++ " in model "
      ++ model.plain ++ " to use in detecting the query type, "
      ++ "please pass the query type explicitly using the query_type argument")
  | .noJoinPath views =>
    some ("There was no join path between the views: " ++ brackets views
      ++ ". Check the identifiers on your views and make sure they are joinable.")
  | .ambiguousNames => some "Ambiguous field names in the metrics and dimensions"
  | .conditionWithoutField condition =>
    some ("Identifier was missing required 'field' key: " ++ condition.plain)
  | .funnelKeys => some "Funnel query must have 'steps' and 'within' keys"
  | .funnelWithCumulative => some "Cumulative metrics cannot be used with funnel queries"
  | .funnelWithMerged => some "Funnel queries are not supported in merged results queries"
  | .warehouseUndetermined =>
    some ("Could not determine query_type. Please have connection information for "
      ++ "your warehouse in the configuration or explicitly pass the "
      ++ "'query_type' argument to this function")
  | .noModels =>
    some ("No models found in this data model. Please specify a model "
      ++ "to connect a data warehouse to your data model.")
  | .manyModels =>
    some ("More than one model found in this query. Please specify a model "
      ++ "to use by either passing the name of the model using 'model_name' parameter or by  "
      ++ "setting the `model_name` property on the view.")
  | .fieldNotCombinable field =>
    some (s!"The field {field} could not be either joined into the query "
      ++ "or mapped and merged into the query as a merged result. \n\n"
      ++ "Check that you specify joins to join it in, or specify a mapping "
      ++ "for a query with two tables that cannot be merged")
  | .fieldsNotCombinable fields =>
    some ("The query could not be either joined or mapped and merged into a valid query"
      ++ " with the fields:\n\n" ++ Text.join ", " fields ++ "\n\n"
      ++ "Check that those fields can be joined together or are mapped so they can "
      ++ "be merged across tables")
  | .mappedFieldWithoutPath name =>
    some ("No valid join path found for mapped field \"" ++ name ++ "\"")
  | .mappedFieldMissing name => some s!"Could not find mapped field {name} in query"
  | .unmerged attempted cause =>
    cause.message?.map fun text =>
      (if attempted then singleAttempt else "") ++ "\n\n" ++ mergeHint ++ " \n\n" ++ text
  | .reservedMapping name =>
    some s!"The mapping name {name} is a reserved name and cannot be used as a mapping name"
  | .mappingWithGroup field =>
    some ("This mapping is invalid because it contains a dimension group. "
      ++ s!"Mappings can only contain dimensions or measures. Mapping with {field}")
  | .mappingOfDifferentTypes first second =>
    some (s!"This mapping is invalid because the mapped fields {first} "
      ++ s!"and {second} are not the same type")
  | .referenceNotFound reference => some s!"Unable to find the field {reference} in the project"
  | .noDateForMetric metric => some (noDate metric)
  | .noMappingFor field =>
    some (s!"Could not find mapping from field {field} to other views. "
      ++ "Please add a mapping to your model definition to allow the mapping "
      ++ "if you'd like to use this field in a merged result query.")
  | .oneFunnelFilter => some "Only one funnel filter is allowed per query"
  | .eventDateUndetermined query =>
    some ("Could not determine event date for funnel: " ++ query.plain)
  | .noLinkField metrics =>
    some ("No link (customer) field found for query with metrics: " ++ metrics.plain ++ ". "
      ++ "Make sure you have added a customer tag to the view or a view that can be joined in.")
  | .cumulativeDateNotFound metric date view =>
    some ("Could not find date needed to aggregate cumulative metric " ++ metric.plain ++ ", "
      ++ s!"looking for date field named {date} in view {view}")
  | .havingWithoutGroups =>
    some ("You cannot include the 'having' argument with the table's primary key\n"
      ++ "                as a dimension, there is no group by statement in this case, "
      ++ "and no having can be applied")
  | .orderWithoutGroups =>
    some ("You cannot include the 'order_by' argument with the table's primary key\n"
      ++ "                as a dimension, metrics that reference multiple values do not exist "
      ++ "by themselves\n                and cannot be referenced in the query")
  | .groupByFilterNeeded => some "A CTE is invalid for a filter with no group_by property"
  | .dateSpineUnsupported warehouse =>
    some ("Database " ++ warehouse.plain ++ " not implemented yet")
  | .currentDateUnsupported warehouse =>
    some ("Query type " ++ warehouse.plain ++ " not supported")
  | .mqlParenthesis token sql =>
    some ("Expected beginning and ending parenthesis around statement beginning with "
      ++ s!"{token} in statement {sql}")
  | .mqlIdentifier identifier sql =>
    some s!"Could not parse identifier {identifier} in statement {sql}"
  | .notLoaded => some "You must call the load() method before accessing the project."
  | .branchesNotLoaded =>
    some "You must call the load() method before accessing the branch options."
  | .noDbtProject => some "No dbt project found"
  | .connectionUnsupported type =>
    some ("Connection type " ++ type.plain ++ " not supported, supported types are "
      ++ brackets ["SNOWFLAKE", "BIGQUERY", "REDSHIFT", "POSTGRES"])
  | .clientMissing client option =>
    some (s!"MetricsLayer could not find the {client} modules it needs to run the query. "
      ++ "Make sure that you have those modules installed or reinstall MetricsLayer with "
      ++ s!"the [{option}] option e.g. pip install metrics-layer[{option}]")
  | .credentialsType type value =>
    some (s!"BigQuery credentials json had wrong type: {type} for value " ++ value.plain)
  | .profilesNotFound path => some s!"Could not find dbt profiles.yml at {path}"
  | .profileNotFound profile path =>
    some s!"Could not find profile {profile} in profiles.yml at {path}"
  | .targetNotFound target profile path =>
    some s!"Could not find target {target} in profile {profile} in profiles.yml at {path}"
  | .noConfiguration =>
    some (" We could not find a valid configuration in the environment. Try following the\n"
      ++ "            documentation (https://docs.zenlytic.com/docs/development_environment/"
      ++ "development_environment)\n"
      ++ "            to properly set your environment variables, or pass the configuration "
      ++ "explicitly\n        ")
  | .repoType type =>
    some ("Unknown repo type: " ++ type.plain ++ ", valid types are 'metrics_layer', 'metricflow'")
  | .folderKeyMissing key =>
    some (s!"Missing required key '{key}' in zenlytic_project.yml \n"
      ++ "Learn more about setting these keys here: https://docs.zenlytic.com")
  | .privateKeyRequired =>
    some "Private key is required for SSH mode of connection to Github."
  | .seedWarehouses supported =>
    some s!"The only data warehouses supported for seeding are {supported}"
  | .seedConnectionType type => some ("Unsupported connection type " ++ type.plain)
  | .seedUnknownConnection type => some ("Unknown connection type: " ++ type.plain)
  | .tagNeeds argument => some s!"{argument} is required to auto tag searchable fields"
  | .seedDatabaseAndSchema =>
    some "You must specify a database (project) AND a schema (dataset) for seeding in BigQuery"
  | .seedDatabase => some "You must specify at least a database for seeding"
  | .seedConnectionUndetermined =>
    some ("Could not determine the connection to use, "
      ++ "please pass the connection name with the --connection arg")
  | .seedProfileNotFound =>
    some ("Could not find a profile for the metrics layer in either the zenlytic_project.yml "
      ++ "file or in\n         the dbt_project.yml file, if neither of those files exist, "
      ++ "please create the file")
  | .notProvided => some ""
  | .notInteger _ | .malformed _ => none

def detail (e : Error) : String :=
  match e with
  | .notInteger text => "invalid literal for int() with base 10: " ++ Text.quoted text
  | _ => e.message?.getD ""

end Error

abbrev Result (α : Type) := Except Error α

def malformed {α : Type} (m : Malformed) : Result α := .error (.malformed m)

/-- A computed property: where something lacks what is read from it, the property is what was
written. -/
def orWritten {α : Type} (written : Result α) : Result α → Result α
  | .error (.malformed .noAttribute) => written
  | r => r

end SemanticLayer
