import SemanticLayer.Sql.Tree
import SemanticLayer.Proofs.Sql.Names

/-!
# The tree of a call

The tokens of `MQL(a, b BY c, d)` are grouped into one function: its name, and a parenthesis that
holds the metrics and the dimensions, each as one name or as one list of names.
-/

namespace SemanticLayer.Sql

open List Token

variable {closes opens : Node → Bool} {ds ms : List String} {f : List Node → List Node} {j : Joiner}
  {kind : GroupKind} {ns : List Node} {skips : GroupKind → Bool} {t : Token} {ts : List Token}

variable {n : Node} {rest : List Node} {signs : List String}

namespace Node

/-! ### Passes that change nothing -/

/-- The nodes of a call before its names are gathered in lists. -/
inductive Plain : Node → Prop
  | name (n : String) : Plain (.leaf ⟨.name, n⟩)
  | sign {s : String} (hs : s = "(" ∨ s = "," ∨ s = ")") : Plain (.leaf ⟨.punctuation, s⟩)
  | blank : Plain (.leaf ⟨.whitespace, " "⟩)
  | by_ : Plain (.leaf ⟨.keyword, "BY"⟩)
  | group {k : GroupKind} {cs : List Node}
      (hk : k = .function ∨ k = .parenthesis ∨ k = .identifier) (hcs : ∀ c ∈ cs, Plain c) :
      Plain (.group k cs)

theorem regroupAll_eq_self (h : ∀ n ∈ ns, regroup skips f n = n) : regroupAll skips f ns = ns := by
  induction ns with
  | nil => rfl
  | cons n ns ih =>
    rw [forall_mem_cons] at h
    rw [regroupAll, h.1, ih h.2]

section

variable (hf : ∀ cs, (∀ c ∈ cs, Plain c) → f cs = cs)
include hf

theorem Plain.regroup (hn : Plain n) : regroup skips f n = n := by
  induction hn with
  | group hk hcs ih =>
    unfold Node.regroup
    rw [regroupAll_eq_self ih, hf _ hcs, ite_self]
  | _ => rfl

theorem pass_eq_self (hns : ∀ n ∈ ns, Plain n) : pass skips f ns = ns := by
  unfold pass
  rw [regroupAll_eq_self fun n hn => (hns n hn).regroup hf, hf ns hns]

end

theorem foldl_addTo (hopens : ∀ n ∈ ns, opens n = false) (hcloses : ∀ n ∈ ns, closes n = false)
    (l : List Node) (ls : Levels) :
    ns.foldl (matchStep kind opens closes) (l :: ls) = (ns.reverse ++ l) :: ls := by
  induction ns generalizing l with
  | nil => rfl
  | cons n ns ih =>
    rw [forall_mem_cons] at hopens hcloses
    have hs : matchStep kind opens closes (l :: ls) n = (n :: l) :: ls := by
      unfold matchStep
      rw [hopens.1, hcloses.1]
      rfl
    rw [foldl_cons, hs, ih hopens.2 hcloses.2, reverse_cons, append_assoc, singleton_append]

theorem matchPairs_eq_self
    (hopens : ∀ n ∈ ns, opens n = false) (hcloses : ∀ n ∈ ns, closes n = false) :
    matchPairs kind opens closes ns = ns := by
  unfold matchPairs
  rw [foldl_addTo hopens hcloses]
  simp

/-- No node is a middle that what stands before it lets join. -/
def Unjoined (j : Joiner) : Option Node → List Node → Prop
  | _, [] => True
  | p, n :: rest =>
    if n.isBlank then Unjoined j p rest
    else (j.isMiddle n && j.validPrev p) = false ∧ Unjoined j (some n) rest

theorem joinFrom_eq_self {s : Joining} (hs : s.takes = false)
    (h : Unjoined j s.prev ns) : joinFrom j s ns = s.nodes.reverse ++ ns := by
  induction ns generalizing s with
  | nil => simp [joinFrom]
  | cons n ns ih =>
    unfold Unjoined at h
    unfold joinFrom
    rw [hs]
    simp only [Bool.false_eq_true, if_false]
    split_ifs at h ⊢ with hbl hmiddle
    · rw [@ih { done := s.done, last := s.last, blanks := n :: s.blanks, prev := s.prev } rfl h]
      simp [Joining.nodes]
    · rw [h.1] at hmiddle
      simp at hmiddle
    · rw [ih (s := s.push n) rfl h.2]
      simp [Joining.nodes, Joining.push]

theorem unjoined_of_isMiddle (h : ∀ n ∈ ns, j.isMiddle n = false)
    (p : Option Node) : Unjoined j p ns := by
  induction ns generalizing p with
  | nil => trivial
  | cons n ns ih =>
    rw [forall_mem_cons] at h
    unfold Unjoined
    split_ifs
    · exact ih h.2 p
    · exact ⟨by rw [h.1]; rfl, ih h.2 _⟩

theorem joinAll_eq_self (hj : ∀ n, Plain n → j.isMiddle n = false)
    (hns : ∀ n ∈ ns, Plain n) : joinAll j ns = ns :=
  pass_eq_self (fun _ hcs =>
    joinFrom_eq_self rfl (unjoined_of_isMiddle (fun n hn => hj n (hcs n hn)) _)) hns

theorem matched_eq_self
    (hopens : ∀ n, Plain n → opens n = false) (hcloses : ∀ n, Plain n → closes n = false)
    (hns : ∀ n ∈ ns, Plain n) : matched kind opens closes ns = ns :=
  pass_eq_self (fun _ hcs => matchPairs_eq_self (fun n hn => hopens n (hcs n hn))
    fun n hn => hcloses n (hcs n hn)) hns

section

variable (hn : Plain n)
include hn

theorem Plain.isSign (hsigns : "(" ∉ signs ∧ "," ∉ signs ∧ ")" ∉ signs) :
    n.isSign signs = false := by
  cases hn with
  | sign hs =>
    obtain rfl | rfl | rfl := hs
    · simp [Node.isSign, hsigns.1]
    · simp [Node.isSign, hsigns.2.1]
    · simp [Node.isSign, hsigns.2.2]
  | _ => rfl

theorem Plain.isKeyword {words : List String} (hwords : "BY" ∉ words) :
    n.isKeyword words = false := by
  cases hn with
  | by_ =>
    have hupper : Text.upper "BY" = "BY" := by decide +kernel
    simp [Node.isKeyword, hupper, hwords]
  | _ => rfl

theorem Plain.isToken {k : TokenKind}
    (hk : k ≠ .name ∧ k ≠ .punctuation ∧ k ≠ .whitespace ∧ k ≠ .keyword) : n.isToken k = false := by
  cases hn with
  | group => rfl
  | name => simp [Node.isToken, hk.1.symm]
  | sign => simp [Node.isToken, hk.2.1.symm]
  | blank => simp [Node.isToken, hk.2.2.1.symm]
  | by_ => simp [Node.isToken, hk.2.2.2.symm]

theorem Plain.isKind {k : GroupKind} (hk : k ≠ .function ∧ k ≠ .parenthesis ∧ k ≠ .identifier) :
    n.isKind k = false := by
  cases hn with
  | group hl =>
    obtain rfl | rfl | rfl := hl
    · simp [Node.isKind, hk.1]
    · simp [Node.isKind, hk.2.1]
    · simp [Node.isKind, hk.2.2]
  | _ => rfl

end

theorem comments_eq_self (h : ∀ n ∈ ns, n.isToken .comment = false) : comments [] ns = ns := by
  induction ns with
  | nil => rfl
  | cons n ns ih =>
    rw [forall_mem_cons] at h
    unfold comments
    rw [h.1, ih h.2]
    rfl

theorem conditions_eq_self (h : ∀ n ∈ ns, n.isKeyword ["WHERE"] = false) :
    conditions none ns = ns := by
  induction ns with
  | nil => rfl
  | cons n ns ih =>
    rw [forall_mem_cons] at h
    unfold conditions
    rw [h.1, ih h.2]
    rfl

theorem conditionsInside_eq_self (hns : ∀ n ∈ ns, Plain n) : conditionsInside ns = ns := by
  have hwhere : ∀ n ∈ ns, n.isKeyword ["WHERE"] = false :=
    fun n hn => (hns n hn).isKeyword (by decide)
  unfold conditionsInside
  split
  · next first last hfst hlast =>
    split_ifs
    · rw [conditions_eq_self fun n hn => hwhere n (dropLast_subset ns hn)]
      exact dropLast_append_getLast? last hlast
    · exact conditions_eq_self hwhere
  · rfl

/-! ### The lists of names -/

def named (n : String) : Node := .group .identifier [.leaf ⟨.name, n⟩]

/-- A name behind a comma. -/
def further (n : String) : List Node :=
  [.leaf ⟨.punctuation, ","⟩, .leaf ⟨.whitespace, " "⟩, named n]

def namesNodes : List String → List Node
  | [] => []
  | n :: ns => named n :: ns.flatMap further

def listNode : List String → Node
  | [n] => named n
  | ns => .group .identifierList (namesNodes ns)

theorem unjoined_further (hr : ∀ n, Unjoined bareAliases (some (named n)) rest) (n : String)
    (ns : List String) : Unjoined bareAliases (some (named n)) (ns.flatMap further ++ rest) := by
  induction ns generalizing n with
  | nil => exact hr n
  | cons m ms ih => exact ⟨rfl, rfl, ih m⟩

theorem unjoined_names (hr : ∀ n, Unjoined bareAliases (some (named n)) rest) {ns : List String}
    (hne : ns ≠ []) {p : Option Node} (hp : bareAliases.validPrev p = false) :
    Unjoined bareAliases p (namesNodes ns ++ rest) := by
  cases ns with
  | nil => exact absurd rfl hne
  | cons n ns =>
    refine ⟨?_, unjoined_further hr n ns⟩
    rw [hp, Bool.and_false]

theorem joinFrom_further (done cs : List Node) (n : String) (ns : List String) (rest : List Node) :
    ∃ last, joinFrom lists
        { done := done, last := some (.group .identifierList cs), prev := some (named n) }
        (ns.flatMap further ++ rest)
      = joinFrom lists
        { done := done, last := some (.group .identifierList (cs ++ ns.flatMap further)),
          prev := some (named last) } rest := by
  induction ns generalizing cs n with
  | nil => exact ⟨n, by simp⟩
  | cons m ms ih =>
    obtain ⟨last, ih⟩ := ih (((cs ++ [] ++ [.leaf ⟨.punctuation, ","⟩])
      ++ [.leaf ⟨.whitespace, " "⟩]) ++ [named m]) m
    refine ⟨last, ?_⟩
    refine Eq.trans ?_ (ih.trans ?_)
    · rfl
    · simp [further]

theorem joinFrom_names (s : Joining) (hs : s.takes = false) {ns : List String} (hne : ns ≠ [])
    (rest : List Node) : ∃ last, joinFrom lists s (namesNodes ns ++ rest)
      = joinFrom lists { done := s.nodes, last := some (listNode ns), prev := some (named last) }
        rest := by
  have hfst : ∀ n rest, joinFrom lists s (named n :: rest) = joinFrom lists
      { done := s.nodes, last := some (named n), prev := some (named n) } rest := by
    intro n rest
    rw [joinFrom, hs]
    rfl
  cases ns with
  | nil => exact absurd rfl hne
  | cons n ns =>
    cases ns with
    | nil => exact ⟨n, hfst n rest⟩
    | cons m ms =>
      obtain ⟨last, h⟩ := joinFrom_further s.nodes ([named n] ++ further m) m ms rest
      refine ⟨last, ?_⟩
      refine Eq.trans ?_ (h.trans ?_)
      · exact hfst n _
      · rfl

end Node

/-! ### The tokens of a call -/

def callText (metrics dimensions : List String) : String :=
  "MQL(" ++ Text.join ", " metrics
    ++ (if dimensions = [] then "" else " BY " ++ Text.join ", " dimensions) ++ ")"

namespace Token

def byTokens (dimensions : List String) : List Token :=
  if dimensions = [] then []
  else [⟨.whitespace, " "⟩, ⟨.keyword, "BY"⟩, ⟨.whitespace, " "⟩] ++ namesTokens dimensions

def callTokens (metrics dimensions : List String) : List Token :=
  [⟨.name, "MQL"⟩, ⟨.punctuation, "("⟩] ++ (namesTokens metrics ++ byTokens dimensions)
    ++ [⟨.punctuation, ")"⟩]

theorem toList_join (sep : String) (ns : List String) :
    (Text.join sep ns).toList = sep.toList.intercalate (ns.map String.toList) :=
  String.toList_intercalate

theorem scanFrom_closing (before : Option Char) :
    scanFrom before 0 [')'] = [⟨.punctuation, ")"⟩] := by
  rw [scanFrom_sign (nextToken_sign (.inr rfl) before [])]
  rfl

theorem IsName.intercalate_head {n : String} (hn : IsName n) (ns : List String) :
    ∃ c t, ", ".toList.intercalate ((n :: ns).map String.toList) = c :: t ∧
      Text.isBlank c = false ∧ c ≠ '.' := by
  obtain ⟨c, t, hchs, hc⟩ := hn.head
  cases ns with
  | nil => exact ⟨c, t, by rw [map_singleton, intercalate_singleton, hchs], hc⟩
  | cons m ms =>
    refine ⟨c, t ++ (", ".toList ++ ", ".toList.intercalate ((m :: ms).map String.toList)), ?_, hc⟩
    rw [map_cons, map_cons, intercalate_cons_cons, hchs, cons_append, cons_append, append_assoc]

theorem scanFrom_by (hds : ∀ d ∈ ds, IsName d) (hne : ds ≠ []) (before : Option Char) :
    scanFrom before 0 (" BY ".toList ++ (", ".toList.intercalate (ds.map String.toList) ++ [')']))
      = byTokens ds ++ [⟨.punctuation, ")"⟩] := by
  obtain ⟨d, ds, rfl⟩ := exists_cons_of_ne_nil hne
  obtain ⟨c, t, hchs, hbl, hdot⟩ := (hds d (by simp)).intercalate_head ds
  obtain ⟨last, hns⟩ := scanFrom_names hds hne (.closing []) (.inr rfl)
  have hby : nextToken (some ' ') (['B', 'Y'] ++ (' ' :: (", ".toList.intercalate
      ((d :: ds).map String.toList) ++ [')']))) = (.keyword, 2) := by
    rw [hchs]
    exact nextToken_by hbl hdot
  change scanFrom before 0 (' ' :: (['B', 'Y'] ++ (' ' :: (_ ++ [')'])))) = _
  rw [scanFrom_sign (nextToken_blank _ _), scanFrom_append (by simp) hby,
    scanFrom_sign (nextToken_blank _ _), hns, scanFrom_closing, byTokens]
  rfl

theorem scan_callText (hms : ∀ m ∈ ms, IsName m) (hne : ms ≠ [])
    (hds : ∀ d ∈ ds, IsName d) : scan (callText ms ds) = callTokens ms ds := by
  have hopen : ∀ t, scanFrom none 0 ("MQL(".toList ++ t)
      = ⟨.name, "MQL"⟩ :: ⟨.punctuation, "("⟩ :: scanFrom (some '(') 0 t := by
    intro t
    change scanFrom none 0 (['M', 'Q', 'L'] ++ ('(' :: t)) = _
    exact congrArg _ (scanFrom_sign (show nextToken (some 'L') ('(' :: t) = (.punctuation, 1)
      from rfl))
  unfold scan callText callTokens
  by_cases hno : ds = []
  · obtain ⟨last, hns⟩ := scanFrom_names hms hne (.closing []) (.inl rfl)
    rw [if_pos hno, byTokens, if_pos hno]
    simp only [String.toList_append, toList_join, append_assoc, cons_append, nil_append]
    rw [hopen]
    exact congrArg (fun ts => _ :: _ :: ts) (hns.trans (by rw [scanFrom_closing]))
  · obtain ⟨last, hns⟩ := scanFrom_names hms hne
      (.by_ (", ".toList.intercalate (ds.map String.toList) ++ [')'])) (.inl rfl)
    rw [if_neg hno]
    simp only [String.toList_append, toList_join, append_assoc, cons_append, nil_append]
    rw [hopen]
    refine congrArg (fun ts => _ :: _ :: ts) (hns.trans ?_)
    rw [show ' ' :: 'B' :: 'Y' :: ' ' :: (", ".toList.intercalate (ds.map String.toList) ++ [')'])
      = " BY ".toList ++ (", ".toList.intercalate (ds.map String.toList) ++ [')']) from rfl,
      scanFrom_by hds hno]

theorem firstStatement_eq_self
    (h : ∀ t ∈ ts, (t.kind == .punctuation && t.text == ";") = false) (depth : Int) :
    firstStatement depth ts = ts := by
  induction ts generalizing depth with
  | nil => rfl
  | cons t ts ih =>
    rw [forall_mem_cons] at h
    unfold firstStatement
    simp only [Bool.and_assoc, h.1, Bool.and_false, Bool.false_eq_true, if_false, ih h.2]

theorem mem_inner (h : t ∈ namesTokens ms ++ byTokens ds) :
    t.kind = .name ∨ t ∈ [⟨.punctuation, ","⟩, ⟨.whitespace, " "⟩, ⟨.keyword, "BY"⟩] := by
  have hns : ∀ ns, t ∈ namesTokens ns →
      t.kind = .name ∨ t ∈ [⟨.punctuation, ","⟩, ⟨.whitespace, " "⟩, ⟨.keyword, "BY"⟩] := by
    intro ns h
    cases ns with
    | nil => cases h
    | cons n ns =>
      obtain rfl | h := mem_cons.mp h
      · exact .inl rfl
      · obtain ⟨m, -, h⟩ := mem_flatMap.mp h
        simp only [mem_cons, not_mem_nil, or_false] at h
        obtain rfl | rfl | rfl := h <;> simp
  obtain h | h := mem_append.mp h
  · exact hns ms h
  · unfold byTokens at h
    split_ifs at h
    · cases h
    · simp only [cons_append, mem_cons] at h
      obtain rfl | rfl | rfl | h := h
      · simp
      · simp
      · simp
      · exact hns ds h

end Token

namespace Node

theorem plain_inner (h : t ∈ Token.namesTokens ms ++ Token.byTokens ds) : Plain (.leaf t) := by
  obtain ⟨kind, text⟩ := t
  obtain rfl | h := mem_inner h
  · exact .name text
  · simp only [mem_cons, not_mem_nil, or_false] at h
    obtain ⟨rfl, rfl⟩ | ⟨rfl, rfl⟩ | ⟨rfl, rfl⟩ := h
    · exact .sign (.inr (.inl rfl))
    · exact .blank
    · exact .by_

theorem plain_callTokens (h : t ∈ Token.callTokens ms ds) : Plain (.leaf t) := by
  simp only [callTokens, cons_append, nil_append, mem_cons,
    mem_append, not_mem_nil, or_false] at h
  obtain rfl | rfl | h | rfl := h
  · exact .name _
  · exact .sign (.inl rfl)
  · exact plain_inner (mem_append.mpr h)
  · exact .sign (.inr (.inr rfl))

/-- What stands in parentheses, with them. -/
def parens (ns : List Node) : List Node :=
  [.leaf ⟨.punctuation, "("⟩] ++ ns ++ [.leaf ⟨.punctuation, ")"⟩]

theorem mem_parens : n ∈ parens ns ↔
    n = .leaf ⟨.punctuation, "("⟩ ∨ n ∈ ns ∨ n = .leaf ⟨.punctuation, ")"⟩ := by
  simp [parens]

def enclosed (ns : List Node) : Node :=
  .group .parenthesis ([.leaf ⟨.punctuation, "("⟩] ++ ns ++ [.leaf ⟨.punctuation, ")"⟩])

def byNodes (dimensions : List String) : List Node :=
  if dimensions = [] then []
  else [.leaf ⟨.whitespace, " "⟩, .leaf ⟨.keyword, "BY"⟩, .leaf ⟨.whitespace, " "⟩,
    listNode dimensions]

def callNode (metrics dimensions : List String) : Node :=
  .group .function [named "MQL", enclosed (listNode metrics :: byNodes dimensions)]

theorem Plain.enclosed (hns : ∀ n ∈ ns, Plain n) : Plain (enclosed ns) := by
  refine .group (.inr (.inl rfl)) fun c hc => ?_
  obtain rfl | hc | rfl := mem_parens.mp hc
  · exact .sign (.inl rfl)
  · exact hns c hc
  · exact .sign (.inr (.inr rfl))

theorem regroup_enclosed (hskips : skips .parenthesis = false)
    (hns : ∀ n ∈ ns, regroup skips f n = n) :
    regroup skips f (enclosed ns) = .group .parenthesis (f (parens ns)) := by
  unfold enclosed regroup
  rw [hskips, regroupAll_eq_self]
  · rfl
  · intro n hn
    obtain rfl | hn | rfl := mem_parens.mp hn
    · rfl
    · exact hns n hn
    · rfl

theorem regroup_leaves : ∀ n ∈ ts.map leaf, regroup skips f n = n := by
  intro n hn
  obtain ⟨t, -, rfl⟩ := mem_map.mp hn
  rfl

theorem pass_call (hskips : skips .function = false ∧ skips .parenthesis = false) {name : Node}
    (hns : ∀ n ∈ ns, regroup skips f n = n) : pass skips f [.group .function [name, enclosed ns]]
      = f [.group .function (f [regroup skips f name, .group .parenthesis (f (parens ns))])] := by
  unfold pass
  simp only [regroupAll]
  rw [regroup, hskips.1, if_neg Bool.false_ne_true]
  simp only [regroupAll]
  rw [regroup_enclosed hskips.2 hns]

theorem matched_parenthesis (hopens : ∀ t ∈ ts, (leaf t).isSign ["("] = false)
    (hcloses : ∀ t ∈ ts, (leaf t).isSign [")"] = false) :
    matched .parenthesis (isSign ["("]) (isSign [")"])
      (([⟨.name, "MQL"⟩, ⟨.punctuation, "("⟩] ++ ts ++ [⟨.punctuation, ")"⟩] : List Token).map leaf)
      = [leaf ⟨.name, "MQL"⟩, enclosed (ts.map leaf)] := by
  have hinner : (ts.map leaf).foldl (matchStep .parenthesis (isSign ["("]) (isSign [")"]))
      [[leaf ⟨.punctuation, "("⟩], [leaf ⟨.name, "MQL"⟩]]
      = ((ts.map leaf).reverse ++ [leaf ⟨.punctuation, "("⟩]) :: [[leaf ⟨.name, "MQL"⟩]] :=
    foldl_addTo (by simpa using hopens) (by simpa using hcloses) _ _
  have hfr : [leaf ⟨.name, "MQL"⟩, leaf ⟨.punctuation, "("⟩].foldl
      (matchStep .parenthesis (isSign ["("]) (isSign [")"])) [[]]
      = [[leaf ⟨.punctuation, "("⟩], [leaf ⟨.name, "MQL"⟩]] := rfl
  unfold matched pass matchPairs
  rw [regroupAll_eq_self regroup_leaves, map_append, map_append, foldl_append,
    foldl_append, map_cons, map_singleton, hfr, hinner]
  simp [matchStep, isSign, enclosed]

theorem joinAll_functions (ts : List Token) :
    joinAll functions [leaf ⟨.name, "MQL"⟩, enclosed (ts.map leaf)]
      = [.group .function [leaf ⟨.name, "MQL"⟩, enclosed (ts.map leaf)]] := by
  have hinner : joinFrom functions {} (parens (ts.map leaf)) = parens (ts.map leaf) := by
    refine joinFrom_eq_self rfl (unjoined_of_isMiddle ?_ _)
    simp only [mem_parens, mem_map]
    rintro n (rfl | ⟨t, -, rfl⟩ | rfl) <;> rfl
  unfold joinAll pass
  simp only [regroupAll]
  rw [regroup_enclosed rfl regroup_leaves, hinner]
  rfl

/-! ### Names become identifiers -/

theorem names_namesTokens (ns : List String) :
    names ((Token.namesTokens ns).map leaf) = namesNodes ns := by
  cases ns with
  | nil => rfl
  | cons n ns =>
    unfold namesTokens namesNodes names
    rw [map_cons, map_cons, map_flatMap, map_flatMap]
    rfl

/-- The dimensions before their names are gathered. -/
def flatBy (dimensions : List String) : List Node :=
  if dimensions = [] then []
  else [.leaf ⟨.whitespace, " "⟩, .leaf ⟨.keyword, "BY"⟩, .leaf ⟨.whitespace, " "⟩]
    ++ namesNodes dimensions

theorem names_inner (ms ds : List String) :
    names ((Token.namesTokens ms ++ Token.byTokens ds).map leaf) = namesNodes ms ++ flatBy ds := by
  have happ : ∀ ns ns' : List Node, names (ns ++ ns') = names ns ++ names ns' :=
    fun _ _ => map_append
  rw [map_append, happ, names_namesTokens]
  unfold byTokens flatBy
  split_ifs
  · rfl
  · rw [map_append, happ, names_namesTokens]
    rfl

theorem pass_names (ts : List Token) :
    pass (· == .identifier) names [.group .function [leaf ⟨.name, "MQL"⟩, enclosed (ts.map leaf)]]
      = [.group .function [named "MQL", enclosed (names (ts.map leaf))]] := by
  rw [pass_call ⟨rfl, rfl⟩ regroup_leaves]
  simp [regroup, names, isToken, named, enclosed, parens]

theorem mem_flat (h : n ∈ namesNodes ms ++ flatBy ds) :
    (∃ m, n = named m) ∨ ∃ t, n = leaf t ∧ Plain n := by
  rw [← names_inner] at h
  obtain ⟨n, hn, rfl⟩ := mem_map.mp h
  obtain ⟨t, ht, rfl⟩ := mem_map.mp hn
  obtain ⟨kind, text⟩ := t
  obtain rfl | h := mem_inner ht
  · exact .inl ⟨text, rfl⟩
  · have hpl := plain_inner ht
    simp only [mem_cons, not_mem_nil, or_false] at h
    obtain ⟨rfl, rfl⟩ | ⟨rfl, rfl⟩ | ⟨rfl, rfl⟩ := h <;> exact .inr ⟨_, rfl, hpl⟩

theorem Plain.named (n : String) : Plain (named n) :=
  .group (.inr (.inr rfl)) fun _ hc => mem_singleton.mp hc ▸ .name n

theorem regroup_flat (hf : ∀ n, f [leaf ⟨.name, n⟩] = [leaf ⟨.name, n⟩]) :
    ∀ n ∈ namesNodes ms ++ flatBy ds, regroup skips f n = n := by
  intro n hn
  obtain ⟨m, rfl⟩ | ⟨t, rfl, -⟩ := mem_flat hn
  · unfold Node.named regroup
    rw [regroupAll, regroupAll, regroup, hf, ite_self]
  · rfl

theorem pass_bareAliases (hms : ms ≠ []) (ds : List String) :
    pass (fun _ => false) (joinFrom bareAliases {})
      [.group .function [named "MQL", enclosed (namesNodes ms ++ flatBy ds)]]
      = [.group .function [named "MQL", enclosed (namesNodes ms ++ flatBy ds)]] := by
  have hinner : joinFrom bareAliases {} (parens (namesNodes ms ++ flatBy ds))
      = parens (namesNodes ms ++ flatBy ds) := by
    refine joinFrom_eq_self rfl ⟨rfl, ?_⟩
    change Unjoined _ _ ((namesNodes ms ++ flatBy ds) ++ _)
    rw [append_assoc]
    have hclosing : ∀ n, Unjoined bareAliases (some (named n)) [.leaf ⟨.punctuation, ")"⟩] :=
      fun _ => ⟨rfl, trivial⟩
    refine unjoined_names (fun n => ?_) hms rfl
    unfold flatBy
    split_ifs with hds
    · exact hclosing n
    · exact ⟨rfl, unjoined_names hclosing hds rfl⟩
  rw [pass_call ⟨rfl, rfl⟩ (regroup_flat fun _ => rfl), hinner]
  rfl

theorem joinAll_lists (hms : ms ≠ []) (ds : List String) :
    joinAll lists [.group .function [named "MQL", enclosed (namesNodes ms ++ flatBy ds)]]
      = [callNode ms ds] := by
  have hinner : joinFrom lists {} (parens (namesNodes ms ++ flatBy ds))
      = parens (listNode ms :: byNodes ds) := by
    change joinFrom lists
      { last := some (.leaf ⟨.punctuation, "("⟩), prev := some (.leaf ⟨.punctuation, "("⟩) }
      ((namesNodes ms ++ flatBy ds) ++ [.leaf ⟨.punctuation, ")"⟩]) = _
    rw [append_assoc]
    obtain ⟨last, h⟩ := joinFrom_names
      { last := some (.leaf ⟨.punctuation, "("⟩), prev := some (.leaf ⟨.punctuation, "("⟩) } rfl hms
      (flatBy ds ++ [.leaf ⟨.punctuation, ")"⟩])
    rw [h]
    unfold flatBy byNodes
    split_ifs with hds
    · rfl
    · obtain ⟨last, h⟩ := joinFrom_names
        { done := [.leaf ⟨.whitespace, " "⟩, listNode ms, .leaf ⟨.punctuation, "("⟩],
          last := some (.leaf ⟨.keyword, "BY"⟩), blanks := [.leaf ⟨.whitespace, " "⟩],
          prev := some (.leaf ⟨.keyword, "BY"⟩) } rfl hds [.leaf ⟨.punctuation, ")"⟩]
      exact h.trans rfl
  unfold joinAll
  rw [pass_call ⟨rfl, rfl⟩ (regroup_flat fun _ => rfl), hinner]
  rfl

theorem isSign_of_mem (hsigns : "," ∉ signs) (h : t ∈ Token.namesTokens ms ++ Token.byTokens ds) :
    (leaf t).isSign signs = false := by
  obtain ⟨kind, text⟩ := t
  obtain rfl | h := mem_inner h
  · rfl
  · simp only [mem_cons, not_mem_nil, or_false] at h
    obtain ⟨rfl, rfl⟩ | ⟨rfl, rfl⟩ | ⟨rfl, rfl⟩ := h
    · simp [isSign, hsigns]
    · rfl
    · rfl

theorem plain_passes (hns : ∀ n ∈ ns, Plain n) :
    [orders, casts, operations, comparisons, aliases].foldl (fun ns j => joinAll j ns) ns = ns := by
  have hord : joinAll orders ns = ns :=
    joinAll_eq_self (fun _ hn => hn.isToken (by decide)) hns
  have hcasts : joinAll casts ns = ns := joinAll_eq_self (fun _ hn => hn.isSign (by decide)) hns
  have hoperations : joinAll operations ns = ns := by
    refine joinAll_eq_self (fun n hn => ?_) hns
    change (n.isToken .operator || n.isToken .wildcard) = false
    rw [hn.isToken (by decide), hn.isToken (by decide), Bool.or_false]
  have hcomparisons : joinAll comparisons ns = ns :=
    joinAll_eq_self (fun _ hn => hn.isToken (by decide)) hns
  have haliases : joinAll aliases ns = ns :=
    joinAll_eq_self (fun _ hn => hn.isKeyword (by decide)) hns
  simp only [foldl_cons, foldl_nil, hord, hcasts, hoperations, hcomparisons, haliases]

theorem joinAll_periods (hns : ∀ n ∈ ns, Plain n) : joinAll periods ns = ns := by
  refine joinAll_eq_self (fun n hn => ?_) hns
  change (n.isSign ["."] || (n.isToken .operator && ["->", "->>"].contains n.text)) = false
  rw [hn.isSign (by decide), hn.isToken (by decide), Bool.false_and, Bool.or_false]

theorem ofTokens_callTokens (hms : ms ≠ []) (ds : List String) :
    ofTokens (Token.callTokens ms ds) = [callNode ms ds] := by
  have hflat : ∀ n ∈ (callTokens ms ds).map leaf, Plain n :=
    forall_mem_map.mpr fun _ => plain_callTokens
  have hinner : ∀ n ∈ (namesTokens ms ++ byTokens ds).map leaf, Plain n :=
    forall_mem_map.mpr fun _ => plain_inner
  have hmat : ∀ n ∈ [leaf ⟨.name, "MQL"⟩,
      enclosed ((namesTokens ms ++ byTokens ds).map leaf)], Plain n := by
    simp only [mem_cons, not_mem_nil, or_false]
    rintro n (rfl | rfl)
    · exact .name _
    · exact .enclosed hinner
  have hfunction : ∀ n ∈ [group .function [leaf ⟨.name, "MQL"⟩,
      enclosed ((namesTokens ms ++ byTokens ds).map leaf)]], Plain n :=
    fun n hn => mem_singleton.mp hn ▸ .group (.inl rfl) hmat
  have hnm : ∀ n ∈ [group .function [named "MQL", enclosed (namesNodes ms ++ flatBy ds)]],
      Plain n := by
    simp only [mem_singleton, forall_eq]
    refine .group (.inl rfl) ?_
    simp only [mem_cons, not_mem_nil, or_false]
    rintro n (rfl | rfl)
    · exact .named _
    · refine .enclosed fun n hn => ?_
      obtain ⟨m, rfl⟩ | ⟨t, -, hpl⟩ := mem_flat hn
      · exact .named m
      · exact hpl
  unfold ofTokens
  dsimp only
  rw [comments_eq_self fun n hn => (hflat n hn).isToken (by decide),
    matched_eq_self (fun _ hn => hn.isSign (by decide)) (fun _ hn => hn.isSign (by decide)) hflat,
    callTokens, matched_parenthesis (fun _ ht => isSign_of_mem (by decide) ht)
      (fun _ ht => isSign_of_mem (by decide) ht),
    matched_eq_self (fun _ hn => hn.isKeyword (by decide)) (fun _ hn => hn.isKeyword (by decide))
      hmat,
    matched_eq_self (fun _ hn => hn.isKeyword (by decide)) (fun _ hn => hn.isKeyword (by decide))
      hmat,
    joinAll_eq_self (fun _ hn => hn.isKeyword (by decide)) hmat, joinAll_functions,
    pass_eq_self (fun _ hcs => conditionsInside_eq_self hcs) hfunction, joinAll_periods hfunction,
    pass_names, names_inner, plain_passes hnm, pass_bareAliases hms,
    pass_eq_self (fun _ hcs => joinFrom_eq_self rfl (unjoined_of_isMiddle
      (fun n hn => (hcs n hn).isKind (by decide)) _)) hnm, joinAll_lists hms]

/-! ### Reading a call -/

theorem parse?_callText (hms : ∀ m ∈ ms, Token.IsName m) (hne : ms ≠ [])
    (hds : ∀ d ∈ ds, Token.IsName d) : parse? (callText ms ds) = some [callNode ms ds] := by
  have hstatement : statement? (callText ms ds) = some (callTokens ms ds) := by
    unfold statement?
    rw [scan_callText hms hne hds, firstStatement_eq_self]
    · simp [callTokens, isWhitespace]
    · intro t ht
      have hsign : (leaf t).isSign [";"] = false := (plain_callTokens ht).isSign (by decide)
      simpa [isSign] using hsign
  rw [parse?, hstatement, Option.map_some, ofTokens_callTokens hne]

theorem text_named (n : String) : (named n).text = n := by
  simp [named, text, textOf]

theorem textOf_namesNodes (ns : List String) : textOf (namesNodes ns) = Text.join ", " ns := by
  unfold Text.join
  cases ns with
  | nil => rfl
  | cons n ns =>
    unfold namesNodes
    rw [textOf, text_named]
    induction ns generalizing n with
    | nil => simp [textOf]
    | cons m ms ih =>
      rw [String.intercalate_cons_cons, ← ih m, flatMap_cons]
      refine String.toList_injective ?_
      simp [further, textOf, text_named, text]

theorem text_listNode (ns : List String) : (listNode ns).text = Text.join ", " ns := by
  unfold listNode
  split
  · rw [text_named]
    simp [Text.join]
  · rw [text, textOf_namesNodes]

theorem text_callNode (ms ds : List String) : (callNode ms ds).text = callText ms ds := by
  unfold callNode enclosed byNodes callText
  refine String.toList_injective ?_
  split_ifs
  · simp [text, textOf, text_named, text_listNode]
  · simp [text, textOf, text_named, text_listNode]

end Node

end SemanticLayer.Sql
