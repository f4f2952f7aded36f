import SemanticLayer.Text.Unicode
import SemanticLayer.Text.Basic

/-!
# SQL tokens

A SQL text is cut into tokens.  At each position the rules are tried in order and the first that
matches decides; letter case does not count.  A character that no rule matches is a token of its
own.
-/

namespace SemanticLayer.Sql

inductive TokenKind where
  | comment
  | newline
  | whitespace
  | assignment
  | punctuation
  | wildcard
  | name
  | placeholder
  | literal
  | command
  | keyword
  | keywordCte
  | keywordDml
  | keywordDdl
  | keywordOrder
  | builtin
  | number
  | quoted
  | symbol
  | comparison
  | operator
  | error
  deriving DecidableEq, Repr, Inhabited

structure Token where
  kind : TokenKind
  text : String
  deriving DecidableEq, Repr, Inhabited

namespace Token

/-! ### Characters -/

/-- Ranges of characters beyond ASCII that do not belong to words. -/
def wordless : List (Nat × Nat) :=
  [(0x80, 0xA9), (0xAB, 0xB1), (0xB4, 0xB4), (0xB6, 0xB8), (0xBB, 0xBB), (0xBF, 0xBF), (0xD7, 0xD7),
   (0xF7, 0xF7), (0x2C2, 0x2C5), (0x1680, 0x1680), (0x2000, 0x206F), (0x2080, 0x2080),
   (0x20A0, 0x20CF), (0x2190, 0x245F), (0x2500, 0x2BFF), (0x3000, 0x3004), (0x3008, 0x3020),
   (0xD800, 0xF8FF), (0xFE10, 0xFE6F), (0xFF01, 0xFF0F), (0xFF1A, 0xFF20), (0xFF3B, 0xFF40),
   (0xFF5B, 0xFF65), (0x1F000, 0x1FAFF)]

def isWord (c : Char) : Bool :=
  if c.toNat < 0x80 then c.isAlphanum || c == '_'
  else !wordless.any fun (lo, hi) => lo ≤ c.toNat && c.toNat ≤ hi

def isLetter (c : Char) : Bool :=
  c.isAlpha || (0xC0 ≤ c.toNat && c.toNat ≤ 0xDC)
    || (0xE0 ≤ c.toNat && c.toNat ≤ 0xFC && c.toNat != 0xF7)

def isLetterOrLine (c : Char) : Bool := isLetter c || c == '_'

/-! ### Matching -/

/-- A matcher gives the number of characters it takes at the start of a text. -/
abbrev Matcher := List Char → Option Nat

def word (w : String) : Matcher := fun cs =>
  let front := cs.take w.length
  if front.map Char.toUpper == w.toList then some w.length else none

def blanks : Matcher := fun cs =>
  match (cs.takeWhile Text.isBlank).length with
  | 0 => none
  | n => some n

def thenMatch (a b : Matcher) : Matcher := fun cs => do
  let n ← a cs
  let m ← b (cs.drop n)
  some (n + m)

def orMatch (a b : Matcher) : Matcher := fun cs => (a cs).orElse fun _ => b cs

def optional (a : Matcher) : Matcher := fun cs => some ((a cs).getD 0)

def atWordEnd : Matcher := fun cs =>
  match cs with
  | c :: _ => if isWord c then none else some 0
  | [] => some 0

def phrase : List String → Matcher
  | [] => atWordEnd
  | [w] => thenMatch (word w) atWordEnd
  | w :: ws => thenMatch (word w) (thenMatch blanks (phrase ws))

def anyOf (ms : List Matcher) : Matcher := fun cs => ms.findSome? (· cs)

def wordBlanks (ws : List String) : Matcher := anyOf (ws.map fun w => thenMatch (word w) blanks)

def identifier : Matcher := fun cs =>
  match cs with
  | c :: rest => if isLetter c then some (1 + (rest.takeWhile isWord).length) else none
  | [] => none

def run (p : Char → Bool) : Matcher := fun cs =>
  match (cs.takeWhile p).length with
  | 0 => none
  | n => some n

def char (c : Char) : Matcher := fun cs =>
  match cs with
  | d :: _ => if c == d then some 1 else none
  | [] => none

/-! ### Numbers -/

def minus : Matcher := optional (char '-')

def notBeforeLetter (low high : Nat) (cs : List Char) : Option Nat :=
  ((List.range (high + 1 - low)).map (high - ·)).find? fun n =>
    match cs.drop n with
    | c :: _ => !isLetterOrLine c
    | [] => true

def hexadecimal : Matcher :=
  thenMatch minus (thenMatch (char '0') (thenMatch (anyOf [char 'x', char 'X'])
    (run fun c => Text.isDigit c || ('a' ≤ c.toLower && c.toLower ≤ 'f'))))

def scientific : Matcher :=
  thenMatch minus (thenMatch (run Text.isDigit)
    (thenMatch (optional (thenMatch (char '.') (run Text.isDigit)))
      (thenMatch (anyOf [char 'e', char 'E']) (thenMatch minus (run Text.isDigit)))))

def decimal : Matcher := fun cs =>
  let sign := (char '-' cs).getD 0
  let rest := cs.drop sign
  let front := (rest.takeWhile Text.isDigit).length
  match rest.drop front with
  | '.' :: more =>
    let digits := (more.takeWhile Text.isDigit).length
    let start := sign + front + 1
    if front == 0 then
      if digits == 0 then none else notBeforeLetter (start + 1) (start + digits) cs
    else notBeforeLetter start (start + digits) cs
  | _ => none

def integer : Matcher := fun cs =>
  let sign := (char '-' cs).getD 0
  let digits := ((cs.drop sign).takeWhile Text.isDigit).length
  if digits == 0 then none else notBeforeLetter (sign + 1) (sign + digits) cs

/-! ### Quotes, comments, brackets -/

/-- The length up to the closing quote; `taken` counts the characters read, `doubled` is where the
last doubled or escaped quote would close the text. -/
def closing (q : Char) : Nat → Option Nat → List Char → Option Nat
  | _, doubled, [] => doubled
  | taken, doubled, c :: cs =>
    if c == q then
      match cs with
      | d :: rest =>
        if d == q then closing q (taken + 2) (some (taken + 1)) rest else some (taken + 1)
      | [] => some (taken + 1)
    else if c == '\\' then
      match cs with
      | d :: rest =>
        if d == q then closing q (taken + 2) (some (taken + 2)) rest
        else closing q (taken + 1) doubled (d :: rest)
      | [] => doubled
    else closing q (taken + 1) doubled cs
  termination_by _ _ cs => cs.length

def quotedBy (q : Char) : Matcher := fun cs =>
  match cs with
  | c :: rest => if c == q then closing q 1 none rest else none
  | [] => none

def backquoted : Matcher := fun cs =>
  match cs with
  | c :: rest =>
    if c.toNat == 0x60 then
      let inner := (rest.takeWhile (·.toNat != 0x60)).length
      if inner < rest.length then some (inner + 2) else none
    else none
  | [] => none

def lineComment : Matcher :=
  thenMatch (anyOf [word "--", word "# "]) fun cs =>
    let n := (cs.takeWhile fun c => c != '\n' && c != '\r').length
    match cs.drop n with
    | '\r' :: '\n' :: _ => some (n + 2)
    | _ :: _ => some (n + 1)
    | [] => some n

def commentEnd : Nat → List Char → Option Nat
  | taken, '*' :: '/' :: _ => some (taken + 2)
  | taken, _ :: cs => commentEnd (taken + 1) cs
  | _, [] => none

def blockComment : Matcher := fun cs =>
  match cs with
  | '/' :: '*' :: rest => commentEnd 2 rest
  | _ => none

def bracketed : Matcher := fun cs =>
  match cs with
  | '[' :: rest =>
    let inner := (rest.takeWhile fun c => c != ']' && c != '[').length
    match rest.drop inner with
    | ']' :: _ => if inner == 0 then none else some (inner + 2)
    | _ => none
  | _ => none

def lineBreak : Matcher := fun cs =>
  match cs with
  | '\r' :: '\n' :: _ => some 2
  | '\r' :: _ => some 1
  | '\n' :: _ => some 1
  | _ => none

/-! ### Words -/

/-- The words that are no names, with the kinds of their tokens. -/
def keywords : List (String × TokenKind) :=
  (["ABORT", "ABS", "ABSOLUTE", "ACCESS", "ADA", "ADD", "ADMIN", "AFTER", "AGGREGATE", "ALIAS",
    "ALL", "ALLOCATE", "ANALYSE", "ANALYZE", "AND", "ANY", "ARCHIVE", "ARCHIVELOG", "ARE",
    "ARRAYLEN", "ARRAY_CONTAINS", "AS", "ASENSITIVE", "ASSERTION", "ASSIGNMENT", "ASYMMETRIC", "AT",
    "ATOMIC", "AUDIT", "AUTHORIZATION", "AUTO_INCREMENT", "AVG", "BACKUP", "BACKWARD", "BECOME",
    "BEFORE", "BEGIN", "BETWEEN", "BIGSERIAL", "BITVAR", "BIT_LENGTH", "BLOCK", "BODY", "BOTH",
    "BOX", "BREADTH", "BREAK", "BY", "BYTEA", "CACHE", "CALL", "CALLED", "CANCEL", "CARDINALITY",
    "CASCADE", "CASCADED", "CASE", "CAST", "CATALOG", "CATALOG_NAME", "CHAIN", "CHANGE",
    "CHARACTERISTICS", "CHARACTER_LENGTH", "CHARACTER_SET_CATALOG", "CHARACTER_SET_NAME",
    "CHARACTER_SET_SCHEMA", "CHARSET", "CHAR_LENGTH", "CHECK", "CHECKED", "CHECKPOINT", "CIDR",
    "CIRCLE", "CLASS", "CLASS_ORIGIN", "CLOB", "CLOSE", "CLUSTER", "CMP", "COALESCE", "COBOL",
    "COLLATE", "COLLATION", "COLLATION_CATALOG", "COLLATION_NAME", "COLLATION_SCHEMA", "COLLECT",
    "COLLECT_LIST", "COLUMN", "COLUMN_NAME", "COMMAND_FUNCTION", "COMMAND_FUNCTION_CODE", "COMMENT",
    "COMMITTED", "COMPILE", "COMPLETION", "COMPRESS", "CONCAT", "CONCURRENTLY", "CONDITION",
    "CONDITION_NUMBER", "CONFLICT", "CONNECT", "CONNECTION", "CONNECTION_NAME", "CONSTRAINT",
    "CONSTRAINTS", "CONSTRAINT_CATALOG", "CONSTRAINT_NAME", "CONSTRAINT_SCHEMA", "CONSTRUCTOR",
    "CONTAINS", "CONTENTS", "CONTINUE", "CONTROLFILE", "CONVERSION", "CONVERT", "COPY",
    "CORRESPONDING", "COUNT", "CREATEDB", "CREATEUSER", "CROSS", "CUBE", "CURRENT", "CURRENT_DATE",
    "CURRENT_PATH", "CURRENT_ROLE", "CURRENT_TIME", "CURRENT_TIMESTAMP", "CURRENT_USER", "CURSOR",
    "CURSOR_NAME", "CYCLE", "DATA", "DATABASE", "DATAFILE", "DATETIME_INTERVAL_CODE",
    "DATETIME_INTERVAL_PRECISION", "DATE_ADD", "DATE_SUB", "DAY", "DBA", "DBMS_OUTPUT",
    "DEALLOCATE", "DECLARE", "DECODE", "DEFAULT", "DEFAULTS", "DEFERRABLE", "DEFERRED", "DEFINED",
    "DEFINER", "DELIMITER", "DELIMITERS", "DEREF", "DESCRIBE", "DESCRIPTOR", "DESTROY",
    "DESTRUCTOR", "DETERMINISTIC", "DIAGNOSTICS", "DICTIONARY", "DIRECTORY", "DISABLE",
    "DISCONNECT", "DISMOUNT", "DISPATCH", "DISTINCT", "DISTINCTROW", "DISTRIBUTE", "DO", "DOMAIN",
    "DOUBLE", "DUMP", "DYNAMIC", "DYNAMIC_FUNCTION", "DYNAMIC_FUNCTION_CODE", "EACH", "ELEMENTS",
    "ELSE", "ELSIF", "ENABLE", "ENCODING", "ENCRYPTED", "END", "ENGINE", "EQUALS", "ESCAPE",
    "EVENTS", "EVERY", "EXCEPT", "EXCEPTION", "EXCEPTIONS", "EXCHANGE", "EXCLUDING", "EXCLUSIVE",
    "EXEC", "EXECUTE", "EXISTING", "EXISTS", "EXIT", "EXPLAIN", "EXTENDED", "EXTENSION", "EXTENT",
    "EXTERNAL", "EXTERNALLY", "EXTRACT", "FALSE", "FETCH", "FILE", "FINAL", "FIRST", "FLOOR",
    "FLUSH", "FOLLOWING", "FOR", "FORCE", "FOREACH", "FOREIGN", "FORTRAN", "FORWARD", "FOUND",
    "FREE", "FREELIST", "FREELISTS", "FREEZE", "FROM", "FROM_UNIXTIME", "FTP", "FULL", "FUNCTION",
    "GENERAL", "GENERATED", "GET", "GLOBAL", "GO", "GOTO", "GRANT", "GRANTED", "GROUP", "GROUPING",
    "HAVING", "HIERARCHY", "HOLD", "HOST", "HOUR", "IDENTIFIED", "IDENTITY", "IF", "IGNORE",
    "ILIKE", "IMMEDIATE", "IMMUTABLE", "IMPLEMENTATION", "IMPLICIT", "IN", "INCLUDE", "INCLUDING",
    "INCREMENT", "INDEX", "INDEXES", "INDICATOR", "INDITCATOR", "INET", "INFIX", "INHERIT",
    "INHERITS", "INITIAL", "INITIALIZE", "INITIALLY", "INITRANS", "INLINE", "INNER", "INOUT",
    "INPUT", "INSENSITIVE", "INSTANCE", "INSTANTIABLE", "INSTEAD", "INSTR", "INTERSECT", "INTO",
    "INVOKER", "IS", "ISNULL", "ISOLATION", "ITERATE", "JOIN", "JSON", "JSONB", "KEY", "KEY_MEMBER",
    "KEY_TYPE", "LANCOMPILER", "LANGUAGE", "LARGE", "LAST", "LATERAL", "LAYER", "LEADING", "LEAVE",
    "LEFT", "LEN", "LENGTH", "LESS", "LEVEL", "LIKE", "LIMIT", "LINE", "LINK", "LISTEN", "LISTS",
    "LOAD", "LOCAL", "LOCALTIME", "LOCALTIMESTAMP", "LOCATE", "LOCATION", "LOCATOR", "LOCK",
    "LOGFILE", "LOOP", "LOWER", "LSEG", "MACADDR", "MANAGE", "MANUAL", "MAP", "MATCH", "MAX",
    "MAXDATAFILES", "MAXELEMENT", "MAXEXTENTS", "MAXINDEX", "MAXINSTANCES", "MAXLOGFILES",
    "MAXLOGHISTORY", "MAXLOGMEMBERS", "MAXTRANS", "MAXVALUE", "MAX_PART_DATE", "MAX_PART_INT",
    "MAX_PART_STRING", "MESSAGE_LENGTH", "MESSAGE_OCTET_LENGTH", "MESSAGE_TEXT", "METHOD", "MIN",
    "MINELEMENT", "MINEXTENTS", "MININDEX", "MINUS", "MINUTE", "MINVALUE", "MIN_PART_DATE",
    "MIN_PART_INT", "MIN_PART_STRING", "MOD", "MODE", "MODIFIES", "MODIFY", "MODULE", "MONEY",
    "MONTH", "MORE", "MOUNT", "MOVE", "MUMPS", "NAMES", "NATIONAL", "NATURAL", "NCHAR", "NCLOB",
    "NEW", "NEXT", "NO", "NOARCHIVELOG", "NOAUDIT", "NOCACHE", "NOCOMPRESS", "NOCREATEDB",
    "NOCREATEUSER", "NOCYCLE", "NOMAXVALUE", "NOMINVALUE", "NONE", "NOORDER", "NORESETLOGS",
    "NORMAL", "NOSORT", "NOT", "NOTFOUND", "NOTHING", "NOTICE", "NOTIFY", "NOTNULL", "NOW",
    "NOWAIT", "NULL", "NULLABLE", "NULLIF", "NVL", "NVL2", "OBJECT", "OCTET_LENGTH", "OF", "OFF",
    "OFFLINE", "OFFSET", "OIDS", "OLD", "ON", "ONLINE", "ONLY", "ON_ERROR_STOP", "OPEN",
    "OPERATION", "OPERATOR", "OPTIMAL", "OPTION", "OPTIONS", "OR", "ORDER", "ORDINALITY", "OUT",
    "OUTER", "OUTPUT", "OVER", "OVERLAPS", "OVERLAY", "OVERRIDING", "OVERWRITE", "OWN", "OWNER",
    "PACKAGE", "PAD", "PARALLEL", "PARAMETER", "PARAMETERS", "PARAMETER_MODE", "PARAMETER_NAME",
    "PARAMETER_ORDINAL_POSITION", "PARAMETER_SPECIFIC_CATALOG", "PARAMETER_SPECIFIC_NAME",
    "PARAMETER_SPECIFIC_SCHEMA", "PARSE_URL_TUPLE", "PARTIAL", "PARTITION", "PART_COUNT",
    "PART_COUNT_BY", "PART_LOC", "PASCAL", "PATH", "PCTFREE", "PCTINCREASE", "PCTUSED", "PENDANT",
    "PERFORM", "PG_LSN", "PLACING", "PLAN", "PLI", "PLPGSQL", "POINT", "POLYGON", "POSEXPLODE",
    "POSITION", "POSTFIX", "PRECISION", "PREFIX", "PREORDER", "PREPARE", "PRESERVE", "PRIMARY",
    "PRINT", "PRIOR", "PRIVATE", "PRIVILEGES", "PROCEDURAL", "PROCEDURE", "PROFILE", "PUBLIC",
    "PUT_LINE", "QUARTER", "QUOTA", "RAISE", "RANGE", "RAW", "READ", "READS", "RECHECK", "RECOVER",
    "RECURSIVE", "REDUCE", "REF", "REFERENCES", "REFERENCING", "REGEXP_REPLACE", "REINDEX",
    "RELATIVE", "RENAME", "REPEATABLE", "RESET", "RESETLOGS", "RESIGNAL", "RESOURCE", "RESTART",
    "RESTRICT", "RESTRICTED", "RESULT", "RETURN", "RETURNED_LENGTH", "RETURNED_OCTET_LENGTH",
    "RETURNED_SQLSTATE", "RETURNING", "RETURNS", "REUSE", "REVOKE", "RIGHT", "ROLE", "ROLES",
    "ROLLUP", "ROUTINE", "ROUTINE_CATALOG", "ROUTINE_NAME", "ROUTINE_SCHEMA", "ROW", "ROWS",
    "ROW_COUNT", "RTRIM", "RULE", "SAVEPOINT", "SAVE_POINT", "SCALE", "SCHEMA", "SCHEMA_NAME",
    "SCN", "SCOPE", "SCROLL", "SEARCH", "SECOND", "SECTION", "SECURITY", "SEGMENT", "SELF",
    "SENSITIVE", "SEQUENCE", "SERIALIZABLE", "SERVER_NAME", "SESSION", "SESSION_USER", "SET",
    "SETOF", "SETS", "SHARE", "SHARED", "SHOW", "SIGN", "SIGNAL", "SIMILAR", "SIMPLE", "SIN",
    "SIZE", "SMALLSERIAL", "SNAPSHOT", "SOME", "SORT", "SOURCE", "SPACE", "SPECIFIC",
    "SPECIFICTYPE", "SPECIFIC_NAME", "SPLIT", "SQL", "SQLBUF", "SQLCODE", "SQLERROR",
    "SQLEXCEPTION", "SQLSTATE", "SQLWARNING", "SQRT", "STABLE", "STACK", "STATEMENT",
    "STATEMENT_ID", "STATIC", "STATISTICS", "STDIN", "STDOUT", "STOP", "STORAGE", "STR",
    "STRAIGHT_JOIN", "STRICT", "STRUCTURE", "STYPE", "SUBCLASS_ORIGIN", "SUBLIST", "SUBSTR",
    "SUBSTRING", "SUCCESSFUL", "SUM", "SUMMARY", "SWITCH", "SYMMETRIC", "SYNONYM", "SYSID",
    "SYSTEM", "SYSTEM_USER", "TABLE", "TABLES", "TABLESPACE", "TABLE_NAME", "TBLPROPERTIES", "TEMP",
    "TEMPLATE", "TEMPORARY", "TERMINATE", "THAN", "THEN", "THREAD", "TIME", "TIMESTAMP",
    "TIMESTAMP_ISO", "TIMEZONE_HOUR", "TIMEZONE_MINUTE", "TO", "TOAST", "TO_CHAR", "TO_DATE",
    "TO_TIMESTAMP", "TRACING", "TRAILING", "TRANSACTION", "TRANSACTIONS_COMMITTED",
    "TRANSACTIONS_ROLLED_BACK", "TRANSATION", "TRANSATION_ACTIVE", "TRANSFORM", "TRANSFORMS",
    "TRANSLATE", "TRANSLATION", "TREAT", "TRIGGER", "TRIGGERS", "TRIGGER_CATALOG", "TRIGGER_NAME",
    "TRIGGER_SCHEMA", "TRIM", "TRUE", "TRUNC", "TRUSTED", "TSQUERY", "TSVECTOR", "TXID_SNAPSHOT",
    "TYPE", "UID", "UNBASE64", "UNCOMMITTED", "UNDER", "UNENCRYPTED", "UNION", "UNIQUE",
    "UNIQUEJOIN", "UNIX_TIMESTAMP", "UNKNOWN", "UNLIMITED", "UNLISTEN", "UNLOCK", "UNNAMED",
    "UNNEST", "UNTIL", "UPPER", "USAGE", "USE", "USER", "USER_DEFINED_TYPE_CATALOG",
    "USER_DEFINED_TYPE_NAME", "USER_DEFINED_TYPE_SCHEMA", "USING", "UTC_TIMESTAMP", "UUID",
    "VACUUM", "VALID", "VALIDATE", "VALIDATOR", "VALUES", "VARIABLE", "VERBOSE", "VERSION", "VIEW",
    "VIEWS", "VOLATILE", "WEEK", "WHEN", "WHENEVER", "WHERE", "WHILE", "WINDOW", "WITHOUT", "WORK",
    "WRITE", "XML", "YEAR", "ZONE"].map fun w => (w, .keyword))
  ++ (["ARRAY", "BIGINT", "BINARY", "BIT", "BLOB", "BOOLEAN", "CHAR", "CHARACTER", "DATE", "DEC",
      "DECIMAL", "FILE_TYPE", "FLOAT", "INT", "INT8", "INTEGER", "INTERVAL", "LONG", "NATURALN",
      "NUMBER", "NUMERIC", "NVARCHAR", "PLS_INTEGER", "POSITIVE", "POSITIVEN", "REAL", "ROWID",
      "ROWLABEL", "ROWNUM", "SERIAL", "SERIAL8", "SIGNED", "SIGNTYPE", "SIMPLE_DOUBLE",
      "SIMPLE_FLOAT", "SIMPLE_INTEGER", "SMALLINT", "STRING", "SYSDATE", "SYS_REFCURSOR", "TEXT",
      "TINYINT", "UNSIGNED", "UROWID", "UTL_FILE", "VARCHAR", "VARCHAR2",
      "VARYING"].map fun w => (w, .builtin))
  ++ (["COMMIT", "DELETE", "INSERT", "MERGE", "REPLACE", "ROLLBACK", "SELECT", "START", "UPDATE",
      "UPSERT"].map fun w => (w, .keywordDml))
  ++ (["ALTER", "CREATE", "DROP", "TRUNCATE"].map fun w => (w, .keywordDdl))
  ++ [("WITH", .keywordCte), ("ASC", .keywordOrder), ("DESC", .keywordOrder), ("DIV", .operator)]

def wordKind (w : String) : TokenKind :=
  ((keywords.find? (·.1 == Text.upper w)).map (·.2)).getD .name

def joinPhrase : Matcher :=
  let side := optional (wordBlanks ["LEFT", "RIGHT", "FULL"])
  let kind := optional (wordBlanks ["INNER", "OUTER", "STRAIGHT"])
  orMatch (thenMatch side (thenMatch kind (phrase ["JOIN"])))
    (thenMatch (optional (wordBlanks ["CROSS", "NATURAL"])) (phrase ["JOIN"]))

def isComparisonSign (c : Char) : Bool :=
  c == '<' || c == '>' || c == '=' || c == '~' || c == '!'

def isOperatorSign (c : Char) : Bool :=
  c == '+' || c == '/' || c == '@' || c == '#' || c == '%' || c == '^' || c == '&' || c == '|'
    || c == '-'

def isPunctuation (c : Char) : Bool :=
  c == ';' || c == ':' || c == '(' || c == ')' || c == '[' || c == ']' || c == ',' || c == '.'

structure Rule where
  kind : List Char → TokenKind
  take : Option Char → Matcher

def rule (kind : TokenKind) (m : Matcher) : Rule := ⟨fun _ => kind, fun _ => m⟩

def ruleNotAfter (p : Char → Bool) (kind : TokenKind) (m : Matcher) : Rule :=
  ⟨fun _ => kind, fun before cs => if before.any p then none else m cs⟩

def placeholderS : Matcher :=
  thenMatch (char '%') (thenMatch
    (optional (thenMatch (char '(') (thenMatch (run isWord) (char ')'))))
    (anyOf [char 's', char 'S']))

def beforeDot : Matcher := fun cs => do
  let n ← identifier cs
  match (cs.drop n).dropWhile Text.isBlank with
  | '.' :: _ => some n
  | _ => none

def beforeParenthesis : Matcher := fun cs => do
  let n ← identifier cs
  match cs.drop n with
  | '(' :: _ => some n
  | _ => none

def dollarQuote : Matcher :=
  thenMatch (char '$') (thenMatch (optional (fun cs => match cs with
    | c :: rest => if isLetterOrLine c then some (1 + (rest.takeWhile isWord).length) else none
    | [] => none)) (char '$'))

def plainWord : Matcher := fun cs =>
  match cs with
  | c :: rest =>
    if isWord c then some (1 + (rest.takeWhile fun d => isWord d || d == '$' || d == '#').length)
    else none
  | [] => none

def rules : List Rule :=
  [rule .comment lineComment,
   rule .comment blockComment,
   rule .newline lineBreak,
   rule .whitespace (fun cs => match cs with
     | c :: _ => if Text.isBlank c then some 1 else none
     | [] => none),
   rule .assignment (word ":="),
   rule .punctuation (word "::"),
   rule .wildcard (char '*'),
   rule .name backquoted,
   ruleNotAfter (fun c => isWord c || c == '"' || c == '$') .literal dollarQuote,
   rule .placeholder (char '?'),
   rule .placeholder placeholderS,
   ruleNotAfter isWord .placeholder
     (thenMatch (anyOf [char '$', char ':', char '?']) (run isWord)),
   rule .command (thenMatch (char '\\') (run isWord)),
   rule .keyword
     (anyOf ((["CASE", "IN", "VALUES", "USING", "FROM", "AS"]).map fun w => phrase [w])),
   rule .name (thenMatch (anyOf [word "@", word "##", word "#"])
     (fun cs => (identifier cs).filter (1 < ·))),
   rule .name beforeDot,
   ⟨fun _ => .name, fun before cs => if before == some '.' then identifier cs else none⟩,
   rule .name beforeParenthesis,
   rule .number hexadecimal,
   rule .number scientific,
   rule .number decimal,
   rule .number integer,
   rule .quoted (quotedBy '\''),
   rule .symbol (quotedBy '"'),
   ruleNotAfter (fun c => isWord c || c == ']' || c == ')') .name bracketed,
   rule .keyword joinPhrase,
   rule .keyword (anyOf [phrase ["END", "IF"], phrase ["END", "LOOP"], phrase ["END", "WHILE"],
     phrase ["END"]]),
   rule .keyword (phrase ["NOT", "NULL"]),
   rule .keywordOrder (anyOf ((["ASC", "DESC"]).flatMap fun w =>
     [phrase [w, "NULLS", "FIRST"], phrase [w, "NULLS", "LAST"], phrase [w]])),
   rule .keywordOrder (anyOf [phrase ["NULLS", "FIRST"], phrase ["NULLS", "LAST"]]),
   rule .keyword (phrase ["UNION", "ALL"]),
   rule .keywordDdl (anyOf [phrase ["CREATE", "OR", "REPLACE"], phrase ["CREATE"]]),
   rule .builtin (phrase ["DOUBLE", "PRECISION"]),
   rule .keyword (phrase ["GROUP", "BY"]),
   rule .keyword (phrase ["ORDER", "BY"]),
   rule .keyword (phrase ["PRIMARY", "KEY"]),
   rule .keyword (phrase ["HANDLER", "FOR"]),
   rule .comparison (anyOf ((["LIKE", "ILIKE", "RLIKE", "REGEXP"]).flatMap fun w =>
     [phrase ["NOT", w], phrase [w]])),
   ⟨fun cs => wordKind (String.ofList cs), fun _ => plainWord⟩,
   rule .punctuation (fun cs => match cs with
     | c :: _ => if isPunctuation c then some 1 else none
     | [] => none),
   rule .operator (anyOf [word "->>", word "->", word "#>>", word "#>", word "@>", word "<@",
     word "-", word "#-"]),
   rule .comparison (run isComparisonSign),
   rule .operator (run isOperatorSign)]

def nextToken (before : Option Char) (cs : List Char) : TokenKind × Nat :=
  (rules.findSome? fun r =>
    match r.take before cs with
    | some (n + 1) => some (r.kind (cs.take (n + 1)), n + 1)
    | _ => none).getD (.error, 1)

/-- The tokens of a text, given the character before it and how many characters of the last token
are still to come. -/
def scanFrom : Option Char → Nat → List Char → List Token
  | _, _, [] => []
  | _, pending + 1, c :: cs => scanFrom (some c) pending cs
  | before, 0, c :: cs =>
    let (kind, n) := nextToken before (c :: cs)
    ⟨kind, String.ofList ((c :: cs).take n)⟩ :: scanFrom (some c) (n - 1) cs

def scan (s : String) : List Token := scanFrom none 0 s.toList

def isWhitespace (t : Token) : Bool := t.kind == .whitespace || t.kind == .newline

end Token

end SemanticLayer.Sql
