import SemanticLayer.Sql.Clause

/-!
# SQL trees

The tokens of a statement are gathered into groups: parentheses, calls of functions, conditions,
names with dots and aliases, operations and lists.  One pass after the other makes the groups of one
kind; a tree always spells the text it was made of.
-/

namespace SemanticLayer.Sql

inductive GroupKind where
  | comment
  | brackets
  | parenthesis
  | case_
  | loop
  | over
  | function
  | where_
  | identifier
  | operation
  | comparison
  | identifierList
  deriving DecidableEq, Repr, Inhabited

inductive Node where
  | leaf (t : Token)
  | group (kind : GroupKind) (children : List Node)
  deriving Repr, Inhabited

namespace Node

mutual

def text : Node → String
  | .leaf t => t.text
  | .group _ cs => textOf cs

def textOf : List Node → String
  | [] => ""
  | n :: ns => n.text ++ textOf ns

end

/-! ### Looking at nodes -/

def children : Node → List Node
  | .leaf _ => []
  | .group _ cs => cs

def isKind (k : GroupKind) : Node → Bool
  | .group l _ => k == l
  | .leaf _ => false

def isGroup : Node → Bool
  | .group _ _ => true
  | .leaf _ => false

def isToken (k : TokenKind) : Node → Bool
  | .leaf t => t.kind == k
  | .group _ _ => false

def isBlank : Node → Bool
  | .leaf t => t.isWhitespace
  | .group _ _ => false

def isSign (signs : List String) : Node → Bool
  | .leaf t => t.kind == .punctuation && signs.contains t.text
  | .group _ _ => false

def isKeyword (words : List String) : Node → Bool
  | .leaf t => t.kind == .keyword && words.contains (Text.upper t.text)
  | .group _ _ => false

def isAnyKeyword : Node → Bool
  | .leaf t =>
    [TokenKind.keyword, .keywordCte, .keywordDml, .keywordDdl, .keywordOrder].contains t.kind
  | .group _ _ => false

def isNamed (n : Node) : Bool :=
  [TokenKind.name, .placeholder, .builtin].any fun k => n.isToken k

def isPlainValue (n : Node) : Bool :=
  [TokenKind.name, .placeholder, .number, .quoted, .symbol].any fun k => n.isToken k

def isAnyKind (ks : List GroupKind) (n : Node) : Bool := ks.any fun k => n.isKind k

/-! ### Passes -/

mutual

/-- Rewrites the children of a node and of all nodes below it, the deepest first.  What is below a
node of a kind that is skipped stays as it is. -/
def regroup (skips : GroupKind → Bool) (f : List Node → List Node) : Node → Node
  | .leaf t => .leaf t
  | .group k cs => if skips k then .group k cs else .group k (f (regroupAll skips f cs))

def regroupAll (skips : GroupKind → Bool) (f : List Node → List Node) : List Node → List Node
  | [] => []
  | n :: ns => regroup skips f n :: regroupAll skips f ns

end

def pass (skips : GroupKind → Bool) (f : List Node → List Node) (ns : List Node) : List Node :=
  f (regroupAll skips f ns)

/-! ### Opening and closing tokens -/

/-- The levels that are open, the innermost first; each level is reversed. -/
abbrev Levels := List (List Node)

def addTo (ls : Levels) (n : Node) : Levels :=
  match ls with
  | [] => [[n]]
  | l :: rest => (n :: l) :: rest

def matchStep (kind : GroupKind) (opens closes : Node → Bool) (ls : Levels) (n : Node) : Levels :=
  if opens n then [n] :: ls
  else if closes n then
    match ls with
    | inner :: outer :: rest =>
      ((.group kind (n :: inner).reverse) :: outer) :: rest
    | _ => addTo ls n
  else addTo ls n

/-- Groups what stands between an opening and its closing node; those without a partner stay. -/
def matchPairs (kind : GroupKind) (opens closes : Node → Bool) (ns : List Node) : List Node :=
  (ns.foldl (matchStep kind opens closes) [[]]).reverse.flatMap List.reverse

/-! ### Middle tokens -/

structure Joiner where
  kind : GroupKind
  isMiddle : Node → Bool
  /-- Whether the node before the middle lets it join. -/
  validPrev : Option Node → Bool
  validNext : Option Node → Bool
  /-- Whether the node behind the middle belongs to the group. -/
  takesNext : Option Node → Bool
  /-- Whether a group of the same kind before the middle grows, and is not put into a new one. -/
  grows : Node → Bool
  /-- Whether the group begins with the middle itself. -/
  fromMiddle : Bool := false
  /-- Whether a group that was made can be the node before the next middle. -/
  chains : Bool := true

/-- Where a joiner is: finished nodes (reversed), the last node with the blanks behind it
(reversed), what counts as the node before, and whether the next node is taken. -/
structure Joining where
  done : List Node := []
  last : Option Node := none
  blanks : List Node := []
  prev : Option Node := none
  takes : Bool := false

namespace Joining

def nodes (s : Joining) : List Node := s.blanks ++ s.last.toList ++ s.done

def push (s : Joining) (n : Node) : Joining :=
  { done := s.nodes, last := some n, blanks := [], prev := some n, takes := false }

def absorb (s : Joining) (n : Node) : Joining :=
  match s.last with
  | some (.group k cs) => { s with last := some (.group k (cs ++ [n])) }
  | _ => s

def join (j : Joiner) (s : Joining) (n : Node) (takes : Bool) : Joining :=
  let group : Node :=
    if j.fromMiddle then .group j.kind [n]
    else
      match s.last with
      | some (.group k cs) =>
        if j.grows (.group k cs) then .group k (cs ++ s.blanks.reverse ++ [n])
        else .group j.kind (.group k cs :: s.blanks.reverse ++ [n])
      | some l => .group j.kind (l :: s.blanks.reverse ++ [n])
      | none => .group j.kind [n]
  let done := if j.fromMiddle then s.nodes else s.done
  { done := done, last := some group, blanks := [],
    prev := if j.chains then some group else none, takes := takes }

end Joining

def joinFrom (j : Joiner) : Joining → List Node → List Node
  | s, [] => s.nodes.reverse
  | s, n :: rest =>
    if s.takes then
      if n.isBlank then joinFrom j (s.absorb n) rest
      else
        let s := s.absorb n
        joinFrom j { s with takes := false, prev := if j.chains then some n else none } rest
    else if n.isBlank then joinFrom j { s with blanks := n :: s.blanks } rest
    else
      let next := rest.find? fun m => !m.isBlank
      if j.isMiddle n && j.validPrev s.prev && j.validNext next then
        joinFrom j (s.join j n (j.takesNext next)) rest
      else joinFrom j (s.push n) rest

def joinAll (j : Joiner) (ns : List Node) : List Node := pass (· == j.kind) (joinFrom j {}) ns

/-! ### The groups, kind by kind -/

def comments : List Node → List Node → List Node
  | held, [] => held.reverse
  | held, n :: rest =>
    if n.isToken .comment || (!held.isEmpty && n.isToken .newline) then comments (n :: held) rest
    else if held.isEmpty then n :: comments [] rest
    else .group .comment held.reverse :: n :: comments [] rest

def functions : Joiner :=
  { kind := .function, isMiddle := isKind .parenthesis, validPrev := fun p => p.any isNamed,
    validNext := fun _ => true, takesNext := fun n => n.any (isKind .over),
    grows := fun _ => false }

def overs : Joiner :=
  { kind := .over, isMiddle := isKeyword ["OVER"], validPrev := fun _ => true,
    validNext := fun n => n.any fun m => m.isKind .parenthesis || m.isNamed,
    takesNext := fun _ => true, grows := fun _ => false, fromMiddle := true }

def conditionEnds : List String :=
  ["ORDER BY", "GROUP BY", "LIMIT", "UNION", "UNION ALL", "EXCEPT", "HAVING", "RETURNING", "INTO"]

/-- Gathers conditions; `held` is the one that is open, reversed. -/
def conditions : Option (List Node) → List Node → List Node
  | none, [] => []
  | some held, [] => [.group .where_ held.reverse]
  | none, n :: rest =>
    if n.isKeyword ["WHERE"] then conditions (some [n]) rest else n :: conditions none rest
  | some held, n :: rest =>
    if n.isKeyword conditionEnds then .group .where_ held.reverse :: n :: conditions none rest
    else conditions (some (n :: held)) rest

def conditionsInside (ns : List Node) : List Node :=
  match ns.head?, ns.getLast? with
  | some first, some last =>
    if first.isSign ["(", "["] && last.isSign [")", "]"] then
      conditions none ns.dropLast ++ [last]
    else conditions none ns
  | _, _ => ns

def isDotted (n : Node) : Bool :=
  n.isToken .name || n.isToken .symbol || n.isAnyKind [.brackets, .function]

def periods : Joiner :=
  { kind := .identifier,
    isMiddle := fun n => n.isSign ["."] || (n.isToken .operator && ["->", "->>"].contains n.text),
    validPrev := fun p => p.any isDotted, validNext := fun _ => true,
    takesNext := fun n => n.any fun m => isDotted m || m.isToken .wildcard || m.isToken .quoted,
    grows := isKind .identifier }

def names (ns : List Node) : List Node :=
  ns.map fun n => if n.isToken .name || n.isToken .symbol then .group .identifier [n] else n

def orders : Joiner :=
  { kind := .identifier, isMiddle := isToken .keywordOrder,
    validPrev := fun p => p.any fun n => n.isKind .identifier || n.isToken .number,
    validNext := fun _ => true, takesNext := fun _ => false, grows := fun _ => false }

def casts : Joiner :=
  { kind := .identifier, isMiddle := isSign ["::"], validPrev := Option.isSome,
    validNext := Option.isSome, takesNext := fun _ => true, grows := isKind .identifier }

def isOperand (n : Node) : Bool :=
  n.isPlainValue || n.isAnyKind [.brackets, .parenthesis, .function, .identifier, .operation]

def operations : Joiner :=
  { kind := .operation, isMiddle := fun n => n.isToken .operator || n.isToken .wildcard,
    validPrev := fun p => p.any isOperand, validNext := fun n => n.any isOperand,
    takesNext := fun _ => true, grows := fun _ => false }

def isCompared (n : Node) : Bool :=
  n.isPlainValue || n.isAnyKind [.parenthesis, .function, .identifier, .operation]
    || n.isKeyword ["NULL"]

def comparisons : Joiner :=
  { kind := .comparison, isMiddle := isToken .comparison, validPrev := fun p => p.any isCompared,
    validNext := fun n => n.any isCompared, takesNext := fun _ => true, grows := fun _ => false }

def aliases : Joiner :=
  { kind := .identifier, isMiddle := isKeyword ["AS"],
    validPrev := fun p => p.any fun n => n.isKeyword ["NULL"] || !n.isAnyKeyword,
    validNext := fun n => n.any fun m =>
      !(m.isToken .keywordDml || m.isToken .keywordDdl || m.isToken .keywordCte),
    takesNext := fun _ => true, grows := isKind .identifier }

def bareAliases : Joiner :=
  { kind := .identifier, isMiddle := isKind .identifier,
    validPrev := fun p => p.any fun n =>
      n.isToken .number
        || n.isAnyKind [.parenthesis, .function, .case_, .identifier, .operation, .comparison],
    validNext := fun _ => true, takesNext := fun _ => false, grows := isKind .identifier,
    chains := false }

def trailingComments : Joiner :=
  { kind := .comment, isMiddle := isKind .comment, validPrev := fun p => p.any isGroup,
    validNext := fun _ => true, takesNext := fun _ => false, grows := isGroup }

def isListed (n : Node) : Bool :=
  n.isPlainValue || n.isToken .keyword || n.isToken .wildcard
    || n.isAnyKind [.function, .case_, .identifier, .comparison, .identifierList, .operation]

def lists : Joiner :=
  { kind := .identifierList, isMiddle := isSign [","], validPrev := fun p => p.any isListed,
    validNext := fun n => n.any isListed, takesNext := fun _ => true,
    grows := isKind .identifierList }

def matched (kind : GroupKind) (opens closes : Node → Bool) (ns : List Node) : List Node :=
  pass (· == kind) (matchPairs kind opens closes) ns

def ofTokens (ts : List Token) : List Node :=
  let ns := comments [] (ts.map .leaf)
  let ns := matched .brackets (isSign ["["]) (isSign ["]"]) ns
  let ns := matched .parenthesis (isSign ["("]) (isSign [")"]) ns
  let ns := matched .case_ (isKeyword ["CASE"]) (isKeyword ["END"]) ns
  let ns := matched .loop (isKeyword ["FOR", "FOREACH"]) (isKeyword ["END LOOP"]) ns
  let ns := joinAll overs ns
  let ns := joinAll functions ns
  let ns := pass (· == .where_) conditionsInside ns
  let ns := joinAll periods ns
  let ns := pass (· == .identifier) names ns
  let ns := [orders, casts, operations, comparisons, aliases].foldl (fun ns j => joinAll j ns) ns
  let ns := pass (fun _ => false) (joinFrom bareAliases {}) ns
  let ns := pass (fun _ => false) (joinFrom trailingComments {}) ns
  joinAll lists ns

def parse? (s : String) : Option (List Node) := (Token.statement? s).map ofTokens

def items (n : Node) : List Node := n.children.filter fun c => !(c.isBlank || c.isSign [","])

end Node

end SemanticLayer.Sql
