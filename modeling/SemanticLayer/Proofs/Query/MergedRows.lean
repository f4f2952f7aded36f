import SemanticLayer.Proofs.Query.Subqueries

/-!
# The rows of merged results

Sub-queries are put together by full outer joins, each with the first one (`joinClauses_eq`).  A row
of a later sub-query whose key the first does not have stays alone (`mergedRows_eq`).  So there is
one row for each key exactly if every key that two of the later sub-queries have is a key of the
first, or if there are no dimensions at all.
-/

namespace SemanticLayer.MergedQuery

open Result List

variable {first second text : String} {warehouse : Warehouse} {κ : Type}

variable {on : List Equation} {α : Type}

/-! ### Conditions between sub-queries -/

/-- An equation between a column of one sub-query and one of another; where their types differ,
both are cast. -/
structure Equation where
  left : String × String
  right : String × String
  isCast : Bool

def columnText (c : String × String) : String := c.1 ++ "." ++ c.2

def Equation.render (c : Equation) : String :=
  if c.isCast then
    "CAST(" ++ columnText c.left ++ " AS TIMESTAMP)=CAST(" ++ columnText c.right ++ " AS TIMESTAMP)"
  else columnText c.left ++ "=" ++ columnText c.right

/-- Equations as the condition of a join; without any the condition always holds. -/
def renderOn (cs : List Equation) : String :=
  if cs.isEmpty then "1=1" else Text.join " and " (cs.map Equation.render)

def equation (warehouse : Warehouse) (first second : String) (f g : Field) : Equation where
  left := (first, f.column)
  right := (second, g.column)
  isCast := warehouse == .bigquery && !f.datatype.same g.datatype

/-- The equations between two sub-queries, dimension by dimension. -/
def equations (warehouse : Warehouse) (dimensions : Grouping Field) (first second : String) :
    List Equation :=
  List.zipWith (equation warehouse first second) (dimensions.get first) (dimensions.get second)

/-- The first sub-query has dimensions, and the other has at least as many. -/
structure IsComparable (dimensions : Grouping Field) (first second : String) : Prop where
  ne_nil : dimensions.get first ≠ []
  length_le : (dimensions.get first).length ≤ (dimensions.get second).length

theorem get_of_find? {t : Grouping α} {key : String} {e : String × List α}
    (h : t.find? (·.1 == key) = some e) : t.get key = e.2 := by
  unfold Grouping.get
  rw [h]
  rfl

theorem get_nil (key : String) : Grouping.get ([] : Grouping α) key = [] := rfl

theorem equationText_eq_ok {dimensions : Grouping Field} {f : Field} {i : Nat}
    (h : equationText warehouse dimensions first second (f, i) = .ok text) :
    ∃ g, (dimensions.get second)[i]? = some g ∧
      text = (equation warehouse first second f g).render := by
  unfold equationText at h
  dsimp only at h
  cases hr : dimensions.find? (·.1 == second) with
  | none =>
    rw [hr] at h
    cases h
  | some right =>
    rw [hr] at h
    obtain ⟨gs, hgs, h⟩ := of_bind h
    cases hgs
    rw [get_of_find? hr]
    cases hg : right.2[i]? with
    | none =>
      rw [hg] at h
      cases h
    | some g =>
      refine ⟨g, rfl, ?_⟩
      rw [hg] at h
      dsimp only at h
      unfold equation Equation.render columnText
      split_ifs at h ⊢ <;> cases h <;> rfl

theorem mapM_equationText_eq_ok {dimensions : Grouping Field}
    {fs : List Field} {texts : List String}
    (h : fs.zipIdx.mapM (equationText warehouse dimensions first second) = .ok texts) :
    fs.length ≤ (dimensions.get second).length ∧
      texts = (List.zipWith (equation warehouse first second) fs (dimensions.get second)).map
        Equation.render := by
  have hall := mapM_eq_ok h
  rw [forall₂_iff_get] at hall
  obtain ⟨htx, hget⟩ := hall
  rw [length_zipIdx] at htx
  have hplace : ∀ i (hi : i < fs.length), ∃ g, (dimensions.get second)[i]? = some g ∧
      texts[i]? = some (equation warehouse first second fs[i] g).render := by
    intro i hi
    have htext := hget i (by simpa using hi) (by omega)
    simp only [get_eq_getElem, getElem_zipIdx, Nat.zero_add] at htext
    obtain ⟨g, hg, htext⟩ := equationText_eq_ok htext
    exact ⟨g, hg, by rw [List.getElem?_eq_getElem (by omega), htext]⟩
  have hlen : fs.length ≤ (dimensions.get second).length := by
    by_contra hlt
    obtain ⟨g, hg, -⟩ := hplace (dimensions.get second).length (by omega)
    simp at hg
  refine ⟨hlen, ext_getElem (by simp [← htx, hlen]) fun i h1 h2 => ?_⟩
  obtain ⟨g, hg, htext⟩ := hplace i (by omega)
  rw [List.getElem?_eq_some_iff] at hg htext
  obtain ⟨_, rfl⟩ := hg
  obtain ⟨_, htext⟩ := htext
  rw [htext, getElem_map, getElem_zipWith]

theorem joinCondition_eq {dimensions : Grouping Field} (hfil : dimensions.IsFilled)
    (h : joinCondition warehouse dimensions first second = .ok text) :
    text = renderOn (equations warehouse dimensions first second) ∧
      (dimensions = [] ∨ IsComparable dimensions first second) := by
  unfold joinCondition at h
  by_cases hno : dimensions = []
  · subst hno
    cases h
    exact ⟨rfl, Or.inl rfl⟩
  have hsome : ¬ (dimensions.all fun e => e.2.isEmpty) = true := by
    obtain ⟨e, t, rfl⟩ := exists_cons_of_ne_nil hno
    have := hfil e (by simp)
    simp [this]
  replace h := (if_neg hsome).symm.trans h
  cases hl : dimensions.find? (·.1 == first) with
  | none =>
    rw [hl] at h
    cases h
  | some left =>
    have hne : left.2 ≠ [] := hfil left (List.mem_of_find?_eq_some hl)
    rw [hl] at h
    obtain ⟨fs, hfs, h⟩ := of_bind h
    cases hfs
    obtain ⟨texts, htx, h⟩ := of_bind h
    cases h
    obtain ⟨hlen, htx⟩ := mapM_equationText_eq_ok htx
    rw [← get_of_find? hl] at hne hlen htx
    have hequations : equations warehouse dimensions first second ≠ [] := by
      rw [← length_pos_iff, equations, length_zipWith]
      have := length_pos_iff.mpr hne
      omega
    refine ⟨?_, Or.inr ⟨hne, hlen⟩⟩
    rw [renderOn, isEmpty_eq_false_iff.mpr hequations, htx]
    rfl

theorem joinClauses_eq {dimensions : Grouping Field}
    {rest : List String} {clauses : List Sql.JoinClause} (hfil : dimensions.IsFilled)
    (h : joinClauses warehouse dimensions (first :: rest) = .ok clauses) :
    clauses = (rest.map fun s => ⟨.fullOuter, { table := s },
        some (renderOn (equations warehouse dimensions first s))⟩) ∧
      (dimensions = [] ∨ ∀ s ∈ rest, IsComparable dimensions first s) := by
  have hall := mapM_eq_ok h
  clear h
  induction hall with
  | nil => simp
  | @cons s clause rest clauses hs _ ih =>
    obtain ⟨text, htx, hs⟩ := of_bind hs
    cases hs
    obtain ⟨rfl, hcmp⟩ := joinCondition_eq hfil htx
    refine ⟨by rw [map_cons, ih.1], ?_⟩
    rcases hcmp with hno | hcmp
    · exact Or.inl hno
    · exact ih.2.imp_right fun hr t ht => by
        rcases mem_cons.mp ht with rfl | ht
        · exact hcmp
        · exact hr t ht

/-! ### Full outer joins -/

/-- A row of a sub-query: the values of its columns.  Values of columns that are cast are compared
as the instants they stand for. -/
abbrev Row (γ : Type) := String → Option γ

/-- A row of merged results: of every sub-query a row or null. -/
abbrev MergedRow (γ : Type) := String → Option (Row γ)

variable {γ : Type} [DecidableEq γ]

/-- Whether an equation holds; null equals nothing. -/
def Equation.holds (c : Equation) (m : MergedRow γ) : Bool :=
  match (m c.left.1).bind (· c.left.2), (m c.right.1).bind (· c.right.2) with
  | some a, some b => a == b
  | _, _ => false

def alone (s : String) (b : Row γ) : MergedRow γ := Function.update (fun _ => none) s (some b)

def matching (on : List Equation) (s : String) (rows : List (Row γ)) (m : MergedRow γ) :
    List (Row γ) :=
  rows.filter fun b => on.all (·.holds (Function.update m s (some b)))

def withPartners (on : List Equation) (s : String) (rows : List (Row γ)) (m : MergedRow γ) :
    List (MergedRow γ) :=
  if (matching on s rows m).isEmpty then [Function.update m s none]
  else (matching on s rows m).map fun b => Function.update m s (some b)

/-- One full outer join: rows with those that go with them, then the rows that go with none. -/
def fullOuterJoin (on : List Equation) (s : String) (rows : List (Row γ))
    (result : List (MergedRow γ)) : List (MergedRow γ) :=
  result.flatMap (withPartners on s rows) ++ (rows.filter fun b =>
      !result.any fun m => on.all (·.holds (Function.update m s (some b)))).map (alone s)

/-- The result of joining the sub-queries behind the first, on the equations of each. -/
def mergedRows (tables : String → List (Row γ)) (on : String → List Equation) (first : String)
    (rest : List String) : List (MergedRow γ) :=
  rest.foldl (fun result s => fullOuterJoin (on s) s (tables s) result)
    ((tables first).map (alone first))

theorem mergedRows_snoc (tables : String → List (Row γ)) (on : String → List Equation)
    (first : String) (rest : List String) (s : String) : mergedRows tables on first (rest ++ [s])
      = fullOuterJoin (on s) s (tables s) (mergedRows tables on first rest) := by
  rw [mergedRows, foldl_append]
  rfl

/-! ### Keys -/

def keyOf (dimensions : Grouping Field) (s : String) (b : Row γ) : List (Option γ) :=
  (dimensions.get s).map fun f => b f.column

structure AreKeyed (dimensions : Grouping Field) (names : List String)
    (tables : String → List (Row γ)) : Prop where
  distinct : ∀ s ∈ names, ((tables s).map (keyOf dimensions s)).Nodup
  not_null : ∀ s ∈ names, ∀ b ∈ tables s, ∀ v ∈ keyOf dimensions s b, v ≠ none

/-- The row of a key: from every table that has the key its row. -/
def rowOf (dimensions : Grouping Field) (names : List String) (tables : String → List (Row γ))
    (k : List (Option γ)) : MergedRow γ := fun s =>
  if s ∈ names then (tables s).find? fun b => keyOf dimensions s b = k else none

/-- **One row for each key**: the rows of the result are those of the keys that occur in a table,
each once. -/
structure OneRowPerKey (dimensions : Grouping Field) (names : List String)
    (tables : String → List (Row γ)) (result : List (MergedRow γ)) : Prop where
  once : result.Nodup
  rows : ∀ m, m ∈ result ↔
    ∃ s ∈ names, ∃ b ∈ tables s, m = rowOf dimensions names tables (keyOf dimensions s b)

section Keys

variable {dimensions : Grouping Field} {names : List String} {tables : String → List (Row γ)}
  {m : MergedRow γ} {a b : Row γ} {s : String} {rest : List String}

variable {result : List (MergedRow γ)} {rows : List (Row γ)}

theorem filter_key [DecidableEq κ] (key : α → κ) (k : κ) {l : List α} (h : (l.map key).Nodup) :
    l.filter (key · = k) = (l.find? (key · = k)).toList := by
  induction l with
  | nil => rfl
  | cons a l ih =>
    rw [map_cons, nodup_cons] at h
    by_cases ha : key a = k
    · have hr : l.filter (key · = k) = [] := by
        rw [filter_eq_nil_iff]
        intro b hb
        have : key b ≠ k := fun hbk => h.1 (mem_map.mpr ⟨b, hb, by rw [hbk, ha]⟩)
        simpa using this
      rw [filter_cons_of_pos (by simpa using ha), hr, List.find?_cons_of_pos (by simpa using ha)]
      rfl
    · rw [filter_cons_of_neg (by simpa using ha), ih h.2,
        List.find?_cons_of_neg (by simpa using ha)]

theorem find?_key [DecidableEq κ] (key : α → κ) {l : List α} (h : (l.map key).Nodup) {a : α}
    (ha : a ∈ l) : l.find? (key · = key a) = some a := by
  have hmem : a ∈ l.filter (key · = key a) := mem_filter.mpr ⟨ha, by simp⟩
  rw [filter_key key _ h] at hmem
  simpa using hmem

theorem equation_holds_iff (hs : s ≠ first)
    (ha : m first = some a) {f g : Field} (hnl : a f.column ≠ none) :
    (equation warehouse first s f g).holds (Function.update m s (some b)) = true ↔
      a f.column = b g.column := by
  obtain ⟨x, hx⟩ := Option.ne_none_iff_exists'.mp hnl
  unfold equation Equation.holds
  simp only [Function.update_of_ne hs.symm, ha, Function.update_self, Option.bind_some, hx]
  cases b g.column <;> simp

/-! ### Sub-queries with dimensions -/

/-- Keys of a sub-query that begin with a key of the first are that key. -/
def IsWhole (dimensions : Grouping Field) (tables : String → List (Row γ)) (first s : String) :
    Prop :=
  ∀ a ∈ tables first, ∀ b ∈ tables s, keyOf dimensions first a <+: keyOf dimensions s b →
    keyOf dimensions first a = keyOf dimensions s b

/-- The rows of a sub-query whose key the first does not have, each alone. -/
def loners (dimensions : Grouping Field) (tables : String → List (Row γ)) (first s : String) :
    List (MergedRow γ) :=
  ((tables s).filter fun b =>
    keyOf dimensions s b ∉ (tables first).map (keyOf dimensions first)).map (alone s)

/-- The rows of the first sub-query with those of their keys, then the rows that stay alone. -/
def explicitRows (dimensions : Grouping Field) (tables : String → List (Row γ)) (first : String)
    (rest : List String) : List (MergedRow γ) :=
  (tables first).map (fun a => rowOf dimensions (first :: rest) tables (keyOf dimensions first a))
    ++ rest.flatMap (loners dimensions tables first)

theorem rowOf_self (hs : s ∈ names) (hdis : ((tables s).map (keyOf dimensions s)).Nodup)
    (hb : b ∈ tables s) : rowOf dimensions names tables (keyOf dimensions s b) s = some b := by
  rw [rowOf, if_pos hs]
  exact find?_key _ hdis hb

theorem rowOf_snoc (k : List (Option γ)) : Function.update (rowOf dimensions names tables k) s
      ((tables s).find? fun b => keyOf dimensions s b = k)
      = rowOf dimensions (names ++ [s]) tables k := by
  funext t
  by_cases ht : t = s
  · subst ht
    simp [rowOf]
  · simp [rowOf, ht]

theorem withPartners_of_matching (found : Option (Row γ))
    (h : matching on s rows m = found.toList) :
    withPartners on s rows m = [Function.update m s found] := by
  unfold withPartners
  rw [h]
  cases found <;> simp

theorem null_of_mem_loners (hm : m ∈ rest.flatMap (loners dimensions tables first))
    (hs : s ∉ rest) : m s = none := by
  obtain ⟨t, ht, hm⟩ := mem_flatMap.mp hm
  obtain ⟨b, -, rfl⟩ := mem_map.mp hm
  have hne : s ≠ t := by
    rintro rfl
    exact hs ht
  simp [alone, Function.update_of_ne hne]

section

variable (hcmp : IsComparable dimensions first s) (hs : s ≠ first)
include hcmp hs

theorem all_holds_iff (ha : m first = some a)
    (hnl : ∀ v ∈ keyOf dimensions first a, v ≠ none) :
    (equations warehouse dimensions first s).all (·.holds (Function.update m s (some b))) = true ↔
      keyOf dimensions first a <+: keyOf dimensions s b := by
  have hlen := hcmp.length_le
  unfold keyOf at hnl ⊢
  unfold equations
  generalize dimensions.get first = fs at hlen hnl ⊢
  generalize dimensions.get s = gs at hlen ⊢
  induction fs generalizing gs with
  | nil => simp
  | cons f fs ih =>
    cases gs with
    | nil => simp at hlen
    | cons g gs =>
      have hr := ih (fun v hv => hnl v (by simp [hv])) gs (by simpa using hlen)
      rw [zipWith_cons_cons, all_cons, Bool.and_eq_true,
        equation_holds_iff hs ha (hnl _ (by simp)), map_cons, map_cons,
        cons_prefix_cons]
      exact and_congr_right' hr

theorem all_holds_of_null (hm : m first = none) (b : Row γ) :
    (equations warehouse dimensions first s).all (·.holds (Function.update m s (some b)))
      = false := by
  obtain ⟨hne, hlen⟩ := hcmp
  unfold equations
  cases hfs : dimensions.get first with
  | nil => exact absurd hfs hne
  | cons f fs =>
    cases hgs : dimensions.get s with
    | nil => simp [hfs, hgs] at hlen
    | cons g gs =>
      simp [equation, Equation.holds, Function.update_of_ne hs.symm, hm]

theorem matching_of_null (hm : m first = none) :
    matching (equations warehouse dimensions first s) s (tables s) m = [] := by
  refine filter_eq_nil_iff.mpr fun b _ => ?_
  rw [all_holds_of_null hcmp hs hm b]
  exact Bool.false_ne_true

theorem withPartners_loner (hfst : m first = none) (hnl : m s = none) :
    withPartners (equations warehouse dimensions first s) s (tables s) m = [m] := by
  rw [withPartners_of_matching none (matching_of_null hcmp hs hfst), ← hnl, Function.update_eq_self]

variable (hwho : IsWhole dimensions tables first s)
include hwho

theorem all_holds_iff_eq (hmem : a ∈ tables first) (hb : b ∈ tables s) (ha : m first = some a)
    (hnl : ∀ v ∈ keyOf dimensions first a, v ≠ none) :
    (equations warehouse dimensions first s).all (·.holds (Function.update m s (some b))) = true ↔
      keyOf dimensions first a = keyOf dimensions s b := by
  rw [all_holds_iff hcmp hs ha hnl]
  exact ⟨hwho a hmem b hb, fun heq => heq ▸ prefix_rfl⟩

theorem matching_of_first (hdis : ((tables s).map (keyOf dimensions s)).Nodup)
    (hmem : a ∈ tables first) (ha : m first = some a)
    (hnl : ∀ v ∈ keyOf dimensions first a, v ≠ none) :
    matching (equations warehouse dimensions first s) s (tables s) m
      = ((tables s).find? fun b => keyOf dimensions s b = keyOf dimensions first a).toList := by
  rw [← filter_key _ _ hdis]
  refine filter_congr fun b hb => ?_
  rw [Bool.eq_iff_iff, all_holds_iff_eq hcmp hs hwho hmem hb ha hnl, decide_eq_true_eq, eq_comm]

theorem withPartners_rowOf (hkd : AreKeyed dimensions (first :: rest ++ [s]) tables)
    (ha : a ∈ tables first) :
    withPartners (equations warehouse dimensions first s) s (tables s)
        (rowOf dimensions (first :: rest) tables (keyOf dimensions first a))
      = [rowOf dimensions (first :: rest ++ [s]) tables (keyOf dimensions first a)] := by
  have hat : rowOf dimensions (first :: rest) tables (keyOf dimensions first a) first = some a :=
    rowOf_self (by simp) (hkd.distinct first (by simp)) ha
  rw [withPartners_of_matching _ (matching_of_first hcmp hs hwho
    (hkd.distinct s (by simp)) ha hat (hkd.not_null first (by simp) a ha)), rowOf_snoc]

theorem filter_unmatched (hkd : AreKeyed dimensions (first :: rest ++ [s]) tables)
    (hfst : first ∉ rest) :
    ((tables s).filter fun b => !(explicitRows dimensions tables first rest).any fun m =>
        (equations warehouse dimensions first s).all (·.holds (Function.update m s (some b))))
      = (tables s).filter fun b =>
        keyOf dimensions s b ∉ (tables first).map (keyOf dimensions first) := by
  refine filter_congr fun b hb => ?_
  have hholds : ∀ a ∈ tables first,
      ((equations warehouse dimensions first s).all (·.holds (Function.update (rowOf dimensions
        (first :: rest) tables (keyOf dimensions first a)) s (some b))) = true ↔
        keyOf dimensions first a = keyOf dimensions s b) := fun a ha =>
    all_holds_iff_eq hcmp hs hwho ha hb
      (rowOf_self (by simp) (hkd.distinct first (by simp)) ha)
      (hkd.not_null first (by simp) a ha)
  rw [Bool.eq_iff_iff]
  simp only [Bool.not_eq_true', any_eq_false, decide_eq_true_eq, mem_map, not_exists, not_and]
  constructor
  · intro h a ha heq
    exact h _ (mem_append_left _ (mem_map.mpr ⟨a, ha, rfl⟩)) ((hholds a ha).mpr heq)
  · intro h m hm hm'
    rcases mem_append.mp hm with hm | hm
    · obtain ⟨a, ha, rfl⟩ := mem_map.mp hm
      exact h a ha ((hholds a ha).mp hm')
    · rw [all_holds_of_null hcmp hs (null_of_mem_loners hm hfst) b] at hm'
      cases hm'

end

theorem fullOuterJoin_explicitRows (hkd : AreKeyed dimensions (first :: rest ++ [s]) tables)
    (hnd : (first :: rest ++ [s]).Nodup)
    (hcmp : IsComparable dimensions first s) (hwho : IsWhole dimensions tables first s) :
    fullOuterJoin (equations warehouse dimensions first s) s (tables s)
      (explicitRows dimensions tables first rest)
      = explicitRows dimensions tables first (rest ++ [s]) := by
  obtain ⟨⟨hfst, hs⟩, hnew⟩ : (first ∉ rest ∧ first ≠ s) ∧ s ∉ rest := by
    simp only [cons_append, nodup_cons, mem_append, mem_singleton, not_or, nodup_append] at hnd
    exact ⟨hnd.1, fun hmem => hnd.2.2.2 s hmem s rfl rfl⟩
  have hks : ((tables first).map fun a => rowOf dimensions (first :: rest) tables
        (keyOf dimensions first a)).flatMap
        (withPartners (equations warehouse dimensions first s) s (tables s))
      = (tables first).map fun a =>
        rowOf dimensions (first :: rest ++ [s]) tables (keyOf dimensions first a) := by
    rw [flatMap_map, ← flatMap_pure_eq_map]
    exact flatMap_congr fun a ha => withPartners_rowOf hcmp hs.symm hwho hkd ha
  have hloners : (rest.flatMap (loners dimensions tables first)).flatMap
        (withPartners (equations warehouse dimensions first s) s (tables s))
      = rest.flatMap (loners dimensions tables first) :=
    (flatMap_congr fun m hm => withPartners_loner hcmp hs.symm
      (null_of_mem_loners hm hfst) (null_of_mem_loners hm hnew)).trans (flatMap_singleton' _)
  rw [fullOuterJoin, filter_unmatched hcmp hs.symm hwho hkd hfst, explicitRows,
    flatMap_append, hks, hloners, append_assoc, explicitRows, flatMap_append,
    flatMap_singleton]
  rfl

omit [DecidableEq γ] in
theorem AreKeyed.mono {names' : List String} (h : AreKeyed dimensions names tables)
    (hsub : ∀ t ∈ names', t ∈ names) : AreKeyed dimensions names' tables :=
  ⟨fun t ht => h.distinct t (hsub t ht), fun t ht => h.not_null t (hsub t ht)⟩

/-- Every key that two of the later sub-queries have is a key of the first. -/
def FirstHasShared (dimensions : Grouping Field) (tables : String → List (Row γ)) (first : String)
    (rest : List String) : Prop :=
  ∀ s ∈ rest, ∀ t ∈ rest, s ≠ t → ∀ b ∈ tables s, ∀ c ∈ tables t,
    keyOf dimensions s b = keyOf dimensions t c →
      ∃ a ∈ tables first, keyOf dimensions first a = keyOf dimensions s b

theorem alone_eq_rowOf (hkd : AreKeyed dimensions names tables) (hs : s ∈ names) (hb : b ∈ tables s)
    (honly : ∀ t ∈ names, t ≠ s → ∀ c ∈ tables t, keyOf dimensions t c ≠ keyOf dimensions s b) :
    alone s b = rowOf dimensions names tables (keyOf dimensions s b) := by
  funext t
  by_cases ht : t = s
  · subst ht
    rw [rowOf_self hs (hkd.distinct t hs) hb, alone, Function.update_self]
  · rw [alone, Function.update_of_ne ht, rowOf]
    split_ifs with hmem
    · symm
      rw [List.find?_eq_none]
      intro c hc
      simpa using honly t hmem ht c hc
    · rfl

omit [DecidableEq γ] in
theorem alone_injective (s : String) : Function.Injective (alone s : Row γ → MergedRow γ) := by
  intro b b' h
  simpa [alone] using congrFun h s

omit [DecidableEq γ] in
theorem AreKeyed.nodup (hkd : AreKeyed dimensions names tables) (hs : s ∈ names) :
    (tables s).Nodup := List.Nodup.of_map _ (hkd.distinct s hs)

theorem mem_loners : m ∈ loners dimensions tables first s ↔ ∃ b ∈ tables s,
      keyOf dimensions s b ∉ (tables first).map (keyOf dimensions first) ∧ alone s b = m := by
  simp only [loners, mem_map, mem_filter, decide_eq_true_eq, and_assoc]

theorem firstHasShared_of_oneRowPerKey (h : OneRowPerKey dimensions (first :: rest) tables
    (explicitRows dimensions tables first rest)) : FirstHasShared dimensions tables first rest := by
  intro s hs t ht hst b hb c hc hkey
  by_contra hno
  have hnot : keyOf dimensions s b ∉ (tables first).map (keyOf dimensions first) := by
    intro hmem
    obtain ⟨a, ha, heq⟩ := mem_map.mp hmem
    exact hno ⟨a, ha, heq⟩
  have hmem : alone s b ∈ explicitRows dimensions tables first rest :=
    mem_append_right _ (mem_flatMap.mpr ⟨s, hs, mem_loners.mpr ⟨b, hb, hnot, rfl⟩⟩)
  obtain ⟨u, hu, d, hd, heq⟩ := (h.rows _).mp hmem
  -- the row has the key of `b`, but not the row of the other sub-query
  have hats := congrFun heq s
  rw [alone, Function.update_self, rowOf, if_pos (by simp [hs])] at hats
  have hkeyb : keyOf dimensions s b = keyOf dimensions u d := by
    simpa using List.find?_some hats.symm
  have hatt := congrFun heq t
  rw [alone, Function.update_of_ne hst.symm, rowOf, if_pos (by simp [ht])] at hatt
  have := List.find?_eq_none.mp hatt.symm c hc
  rw [← hkeyb, hkey] at this
  simp at this

/-! ### Rows that stay -/

theorem exists_mem_fullOuterJoin (hm : m ∈ result) :
    ∃ m' ∈ fullOuterJoin on s rows result, ∀ t, t ≠ s → m' t = m t := by
  have hpartner : ∃ o : Option (Row γ), Function.update m s o ∈ withPartners on s rows m := by
    unfold withPartners
    split_ifs with hem
    · exact ⟨none, by simp⟩
    · obtain ⟨b, hb⟩ := exists_mem_of_ne_nil _ (mt List.isEmpty_iff.mpr hem)
      exact ⟨some b, mem_map.mpr ⟨b, hb, rfl⟩⟩
  obtain ⟨o, ho⟩ := hpartner
  exact ⟨_, mem_append_left _ (mem_flatMap.mpr ⟨m, hm, ho⟩),
    fun t ht => Function.update_of_ne ht _ _⟩

theorem exists_mem_mergedRows (on : String → List Equation) (hfst : first ∉ rest)
    (ha : a ∈ tables first) : ∃ m ∈ mergedRows tables on first rest, m first = some a := by
  induction rest using List.reverseRecOn with
  | nil => exact ⟨alone first a, mem_map.mpr ⟨a, ha, rfl⟩, by simp [alone]⟩
  | append_singleton rest s ih =>
    simp only [mem_append, mem_singleton, not_or] at hfst
    obtain ⟨m, hm, hma⟩ := ih hfst.1
    rw [mergedRows_snoc]
    obtain ⟨m', hm', hsm⟩ := exists_mem_fullOuterJoin (s := s) hm
    exact ⟨m', hm', by rw [hsm first hfst.2, hma]⟩

theorem exists_mem_mergedRows_of_holds (on : String → List Equation)
    (hnd : (first :: rest).Nodup) (hs : s ∈ rest) (ha : a ∈ tables first)
    (hb : b ∈ tables s) (hholds : ∀ m : MergedRow γ, m first = some a →
      (on s).all (·.holds (Function.update m s (some b))) = true) :
    ∃ m ∈ mergedRows tables on first rest, m first = some a ∧ m s = some b := by
  induction rest using List.reverseRecOn with
  | nil => simp at hs
  | append_singleton rest t ih =>
    have hfst : first ∉ rest ∧ first ≠ t := by
      simpa using (nodup_cons.mp hnd).1
    rw [mergedRows_snoc]
    by_cases hst : s = t
    · subst hst
      obtain ⟨m, hm, hma⟩ := exists_mem_mergedRows on hfst.1 ha
      have hmat : b ∈ matching (on s) s (tables s) m :=
        mem_filter.mpr ⟨hb, hholds m hma⟩
      refine ⟨Function.update m s (some b), ?_, ?_, Function.update_self ..⟩
      · refine mem_append_left _ (mem_flatMap.mpr ⟨m, hm, ?_⟩)
        rw [withPartners, if_neg (by simpa using ne_nil_of_mem hmat)]
        exact mem_map.mpr ⟨b, hmat, rfl⟩
      · rw [Function.update_of_ne hfst.2, hma]
    · have hr : s ∈ rest := by simpa [hst] using hs
      obtain ⟨m, hm, hma, hmb⟩ := ih
        (hnd.sublist (List.Sublist.cons_cons _ (sublist_append_left _ _))) hr
      obtain ⟨m', hm', hsm⟩ := exists_mem_fullOuterJoin (s := t) hm
      exact ⟨m', hm', by rw [hsm first hfst.2, hma], by rw [hsm s hst, hmb]⟩

theorem OneRowPerKey.keyOf_eq (h : OneRowPerKey dimensions names tables result) (hm : m ∈ result)
    {t : String} (ha : m s = some a) (hb : m t = some b) :
    keyOf dimensions s a = keyOf dimensions t b := by
  obtain ⟨u, -, c, -, rfl⟩ := (h.rows m).mp hm
  have hkey : ∀ {t : String} {b : Row γ},
      rowOf dimensions names tables (keyOf dimensions u c) t = some b →
      keyOf dimensions t b = keyOf dimensions u c := by
    intro t b hb
    unfold rowOf at hb
    split_ifs at hb
    simpa using List.find?_some hb
  rw [hkey ha, hkey hb]

/-- The first sub-query decides: it has the keys that others share, and where it meets another their
keys are the same. -/
structure FirstDecides (dimensions : Grouping Field) (tables : String → List (Row γ))
    (first : String) (rest : List String) : Prop where
  shared : FirstHasShared dimensions tables first rest
  whole : ∀ s ∈ rest, IsWhole dimensions tables first s

section

variable (hkd : AreKeyed dimensions (first :: rest) tables)
include hkd

theorem FirstHasShared.alone_eq (hsh : FirstHasShared dimensions tables first rest)
    (hs : s ∈ rest) (hb : b ∈ tables s)
    (hnot : keyOf dimensions s b ∉ (tables first).map (keyOf dimensions first)) :
    alone s b = rowOf dimensions (first :: rest) tables (keyOf dimensions s b) := by
  refine alone_eq_rowOf hkd (by simp [hs]) hb fun t ht hts c hc heq => ?_
  rcases mem_cons.mp ht with rfl | ht
  · exact hnot (mem_map.mpr ⟨c, hc, heq⟩)
  · obtain ⟨a, ha, hkey⟩ := hsh t ht s hs hts c hc b hb heq
    exact hnot (mem_map.mpr ⟨a, ha, by rw [hkey, heq]⟩)

variable (hnd : (first :: rest).Nodup)
include hnd

theorem mergedRows_eq (hcmp : ∀ s ∈ rest, IsComparable dimensions first s)
    (hwho : ∀ s ∈ rest, IsWhole dimensions tables first s) :
    mergedRows tables (equations warehouse dimensions first) first rest
      = explicitRows dimensions tables first rest := by
  induction rest using List.reverseRecOn with
  | nil =>
    rw [explicitRows, flatMap_nil, append_nil]
    refine map_congr_left fun a ha => funext fun t => ?_
    by_cases ht : t = first
    · subst ht
      rw [rowOf_self (by simp) (hkd.distinct t (by simp)) ha, alone, Function.update_self]
    · simp [alone, rowOf, ht]
  | append_singleton rest s ih =>
    have hsub : ∀ t ∈ first :: rest, t ∈ first :: (rest ++ [s]) := by
      intro t ht
      exact mem_append_left _ ht
    have hprev := ih (hkd.mono hsub)
      (hnd.sublist (List.Sublist.cons_cons _ (sublist_append_left _ _)))
      (fun t ht => hcmp t (mem_append_left _ ht))
      fun t ht => hwho t (mem_append_left _ ht)
    rw [mergedRows_snoc, hprev]
    exact fullOuterJoin_explicitRows hkd hnd (hcmp s (by simp)) (hwho s (by simp))

theorem nodup_explicitRows : (explicitRows dimensions tables first rest).Nodup := by
  have hat : ∀ a ∈ tables first,
      rowOf dimensions (first :: rest) tables (keyOf dimensions first a) first = some a :=
    fun a ha => rowOf_self (by simp) (hkd.distinct first (by simp)) ha
  rw [nodup_cons] at hnd
  rw [explicitRows, nodup_append]
  refine ⟨?_, ?_, ?_⟩
  · refine (hkd.nodup (by simp)).map_on fun a ha a' ha' heq => ?_
    have := congrFun heq first
    rw [hat a ha, hat a' ha'] at this
    exact Option.some.inj this
  · rw [nodup_flatMap]
    refine ⟨fun s hs => ?_, hnd.2.imp fun {s t} hst m hm hm' => ?_⟩
    · exact ((hkd.nodup (by simp [hs])).filter _).map (alone_injective s)
    · obtain ⟨b, -, rfl⟩ := mem_map.mp hm
      obtain ⟨c, -, heq⟩ := mem_map.mp hm'
      have := congrFun heq s
      simp [alone, Function.update_of_ne hst] at this
  · intro m hm m' hm' heq
    subst heq
    obtain ⟨a, ha, rfl⟩ := mem_map.mp hm
    obtain ⟨t, ht, hm'⟩ := mem_flatMap.mp hm'
    obtain ⟨b, -, heq⟩ := mem_map.mp hm'
    have := congrFun heq first
    rw [hat a ha, alone, Function.update_of_ne (by rintro rfl; exact hnd.1 ht)] at this
    cases this

theorem explicitRows_oneRowPerKey :
    OneRowPerKey dimensions (first :: rest) tables (explicitRows dimensions tables first rest) ↔
      FirstHasShared dimensions tables first rest := by
  refine ⟨firstHasShared_of_oneRowPerKey, fun hsh => ?_⟩
  refine ⟨nodup_explicitRows hkd hnd, fun m => ⟨fun hm => ?_, ?_⟩⟩
  · rcases mem_append.mp hm with hm | hm
    · obtain ⟨a, ha, rfl⟩ := mem_map.mp hm
      exact ⟨first, by simp, a, ha, rfl⟩
    · obtain ⟨s, hs, hm⟩ := mem_flatMap.mp hm
      obtain ⟨b, hb, hnot, rfl⟩ := mem_loners.mp hm
      exact ⟨s, by simp [hs], b, hb, hsh.alone_eq hkd hs hb hnot⟩
  · rintro ⟨s, hs, b, hb, rfl⟩
    by_cases hmem : keyOf dimensions s b ∈ (tables first).map (keyOf dimensions first)
    · obtain ⟨a, ha, hkey⟩ := mem_map.mp hmem
      rw [← hkey]
      exact mem_append_left _ (mem_map.mpr ⟨a, ha, rfl⟩)
    · have hr : s ∈ rest := by
        rcases mem_cons.mp hs with rfl | hs
        · exact absurd (mem_map.mpr ⟨b, hb, rfl⟩) hmem
        · exact hs
      rw [← hsh.alone_eq hkd hr hb hmem]
      exact mem_append_right _ (mem_flatMap.mpr
        ⟨s, hr, mem_loners.mpr ⟨b, hb, hmem, rfl⟩⟩)

theorem mergedRows_oneRowPerKey_iff (hcmp : ∀ s ∈ rest, IsComparable dimensions first s) :
    OneRowPerKey dimensions (first :: rest) tables
        (mergedRows tables (equations warehouse dimensions first) first rest) ↔
      FirstDecides dimensions tables first rest := by
  constructor
  · intro h
    have hwho : ∀ s ∈ rest, IsWhole dimensions tables first s := by
      intro s hs a ha b hb hbegins
      have hne : s ≠ first := by
        rintro rfl
        exact (nodup_cons.mp hnd).1 hs
      obtain ⟨m, hm, hma, hmb⟩ := exists_mem_mergedRows_of_holds
        (equations warehouse dimensions first) hnd hs ha hb fun m hma =>
          (all_holds_iff (hcmp s hs) hne hma (hkd.not_null first (by simp) a ha)).mpr
            hbegins
      exact h.keyOf_eq hm hma hmb
    rw [mergedRows_eq hkd hnd hcmp hwho, explicitRows_oneRowPerKey hkd hnd] at h
    exact ⟨h, hwho⟩
  · rintro ⟨hsh, hwho⟩
    rw [mergedRows_eq hkd hnd hcmp hwho]
    exact (explicitRows_oneRowPerKey hkd hnd).mpr hsh

end

/-! ### Sub-queries without dimensions -/

omit [DecidableEq γ] in
theorem exists_toList_of_nil (hkd : AreKeyed dimensions names tables) (hs : s ∈ names)
    (hnil : dimensions.get s = []) : ∃ o : Option (Row γ), tables s = o.toList := by
  have hdis := hkd.distinct s hs
  match htab : tables s with
  | [] => exact ⟨none, rfl⟩
  | [b] => exact ⟨some b, rfl⟩
  | b :: c :: rows =>
    rw [htab] at hdis
    simp [keyOf, hnil] at hdis

/-- The one row of sub-queries without dimensions, if one of them has a row. -/
def onlyRow (dimensions : Grouping Field) (names : List String) (tables : String → List (Row γ)) :
    List (MergedRow γ) :=
  if names.all fun s => (tables s).isEmpty then [] else [rowOf dimensions names tables []]

theorem fullOuterJoin_onlyRow (hkd : AreKeyed dimensions (names ++ [s]) tables)
    (hnil : dimensions.get s = []) : fullOuterJoin [] s (tables s) (onlyRow dimensions names tables)
      = onlyRow dimensions (names ++ [s]) tables := by
  obtain ⟨o, ho⟩ := exists_toList_of_nil hkd (s := s) (by simp) hnil
  have hfi : ((tables s).find? fun b => keyOf dimensions s b = []) = o := by
    rw [ho]
    cases o <;> simp [keyOf, hnil]
  have hmat : ∀ m, matching [] s (tables s) m = o.toList := by
    intro m
    simp [matching, ho]
  by_cases hall : (names.all fun s => (tables s).isEmpty) = true
  · have hrow : rowOf dimensions (names ++ [s]) tables [] = Function.update (fun _ => none) s o := by
      rw [← rowOf_snoc]
      congr 1
      funext t
      rw [rowOf]
      split_ifs with ht
      · have := all_eq_true.mp hall t ht
        rw [List.isEmpty_iff] at this
        rw [this, List.find?_nil]
      · rfl
    rw [fullOuterJoin, onlyRow, onlyRow, all_append, hall, hrow]
    cases o <;> simp [alone, ho]
  · rw [fullOuterJoin, onlyRow, if_neg hall, onlyRow, flatMap_singleton,
      withPartners_of_matching o (hmat _), ← hfi, rowOf_snoc]
    simp [hall]

theorem mergedRows_eq_onlyRow (hkd : AreKeyed dimensions (first :: rest) tables)
    (hnil : ∀ s, dimensions.get s = []) :
    mergedRows tables (fun _ => []) first rest = onlyRow dimensions (first :: rest) tables := by
  induction rest using List.reverseRecOn with
  | nil =>
    -- the first sub-query is joined to nothing
    have hst : fullOuterJoin [] first (tables first) (onlyRow dimensions [] tables)
        = onlyRow dimensions ([] ++ [first]) tables := fullOuterJoin_onlyRow hkd (hnil first)
    simpa [fullOuterJoin, onlyRow, mergedRows] using hst
  | append_singleton rest s ih =>
    have hprev := ih (hkd.mono fun t ht => by
      exact mem_append_left _ ht)
    rw [mergedRows_snoc, hprev]
    exact fullOuterJoin_onlyRow hkd (hnil s)

theorem onlyRow_oneRowPerKey (hnil : ∀ s, dimensions.get s = []) :
    OneRowPerKey dimensions names tables (onlyRow dimensions names tables) := by
  have hkey : ∀ s (b : Row γ), keyOf dimensions s b = [] := fun s b => by simp [keyOf, hnil]
  unfold onlyRow
  split_ifs with hall
  · refine ⟨nodup_nil, fun m => ⟨fun hm => by simp at hm, ?_⟩⟩
    rintro ⟨s, hs, b, hb, -⟩
    have := all_eq_true.mp hall s hs
    rw [List.isEmpty_iff] at this
    simp [this] at hb
  · have hsome : ∃ s ∈ names, ∃ b, b ∈ tables s := by
      simp only [all_eq_true, not_forall, List.isEmpty_iff] at hall
      obtain ⟨s, hs, hne⟩ := hall
      exact ⟨s, hs, exists_mem_of_ne_nil _ hne⟩
    refine ⟨nodup_singleton _, fun m => ?_⟩
    simp only [mem_singleton, hkey]
    constructor
    · rintro rfl
      obtain ⟨s, hs, b, hb⟩ := hsome
      exact ⟨s, hs, b, hb, rfl⟩
    · rintro ⟨s, -, b, -, rfl⟩
      rfl

end Keys

/-! ### The joins of merged results -/

/-- **When merged results have one row for each key.**  A query of merged results is compiled to
full outer joins of its sub-queries with the first of them.  If their tables have distinct keys
without null, the result has one row for each key, with the rows of all tables that have the key,
exactly if there are no dimensions or every key that two of the others have is a key of the first.
-/
theorem compile_oneRowPerKey_iff {q : MergedQuery} {funnel : Value} {w w' : Workspace}
    {statement : Sql.Statement} (h : q.compile funnel w = (.ok statement, w')) :
    ∃ warehouse dimensions first rest tables body,
      q.warehouse = some warehouse ∧ statement = .select tables body ∧
      q.IsLaidOut w warehouse dimensions first rest tables body ∧
      body.joins = (rest.map fun s => ⟨.fullOuter, { table := s },
        some (renderOn (equations warehouse dimensions first s))⟩) ∧
      ∀ {γ : Type} [DecidableEq γ] (results : String → List (Row γ)),
        AreKeyed dimensions (first :: rest) results →
          (OneRowPerKey dimensions (first :: rest) results
              (mergedRows results (equations warehouse dimensions first) first rest) ↔
            dimensions = [] ∨ FirstDecides dimensions results first rest) := by
  obtain ⟨warehouse, dimensions, first, rest, tables, body, hwarehouse, rfl, hlaid⟩ :=
    compile_isLaidOut h
  obtain ⟨hjoins, hcomparable⟩ := joinClauses_eq hlaid.filled hlaid.joins
  refine ⟨warehouse, dimensions, first, rest, tables, body, hwarehouse, rfl, hlaid, hjoins, ?_⟩
  intro γ _ results hkeyed
  by_cases hnone : dimensions = []
  · subst hnone
    have heq : equations warehouse [] first = fun _ => [] := rfl
    rw [heq, mergedRows_eq_onlyRow hkeyed get_nil]
    exact ⟨fun _ => Or.inl rfl, fun _ => onlyRow_oneRowPerKey get_nil⟩
  · rw [mergedRows_oneRowPerKey_iff hkeyed hlaid.distinct (hcomparable.resolve_left hnone)]
    exact ⟨Or.inr, fun h => h.resolve_left hnone⟩

/-! ### Calls, sales and visits

Three views with a date and a number each, and the numbers by the days of the calls.  On a day
without calls, the sales and the visits of the day are in two rows. -/

namespace Shops

def fields : List Definition :=
  [[("name", .text "made"), ("field_type", .text "dimension_group"), ("type", .text "time"),
      ("sql", .text "made"), ("timeframes", .list [.text "raw"])],
    [("name", .text "number"), ("field_type", .text "measure"), ("type", .text "count"),
      ("sql", .text "id")]]

def entry (view : String) (shelf : Nat) : ViewEntry where
  definition :=
    [("name", .text view), ("model_name", .text "shop"), ("sql_table_name", .text view),
      ("default_date", .text "made")]
  shelf := some shelf

def shop : Definition := [("name", .text "shop"), ("connection", .text "warehouse")]

/-- Views with the same fields. -/
def store (views : List String) (fields : List Definition) : Store :=
  { (default : Store) with
    models := [shop], views := views.zipIdx.map fun (view, shelf) => entry view shelf
    shelves := views.map fun _ => ⟨fields, .null⟩ }

/-- The join graphs of the fields are remembered. -/
def among (views : List String) (fields : List Definition) : Workspace where
  project := store views fields
  remembered := views.flatMap fun view =>
    ["made_None", "made_raw", "number", "channel"].map fun name =>
      (((store views fields).userKey, view ++ "." ++ name), ["subquery_0"])

def numbers (views dimensions : List String) : MergedQuery where
  metrics := views.map (· ++ ".number")
  dimensions := dimensions
  wheres := .listed []
  havings := .listed []
  model := some ⟨shop⟩
  warehouse := some .snowflake
  options := []

def days : MergedQuery := numbers ["calls", "sales", "visits"] ["calls.made_raw"]

def workspaceOfDays : Workspace := among ["calls", "sales", "visits"] fields

def joinsTwo : Sql.Statement → Bool
  | .select _ body => body.joins.length == 2
  | _ => false

theorem compile_days : ∃ statement w',
    days.compile (.map []) workspaceOfDays = (.ok statement, w') ∧ joinsTwo statement = true := by
  apply Action.exists_of_any
  unfold MergedQuery.compile MergedQuery.parts layout dates Layout.keys partsOf Action.fieldMappings
    Model.fieldMappings Model.mappings Mapping.mostCommon tableNames columns metricColumns byKey
  simp only [mergeSort_by_text, mergeSort_by_count]
  decide +kernel

def areByDay (parts : Parts) : Bool :=
  (renamed (tableNames parts.keys) parts.dimensions).toOption.any fun t =>
    !t.isEmpty && t.all (·.2.length == 1)

theorem parts_days : ∃ parts w',
    days.parts workspaceOfDays = (.ok parts, w') ∧ areByDay parts = true := by
  apply Action.exists_of_any
  unfold MergedQuery.parts layout dates Layout.keys partsOf Action.fieldMappings
    Model.fieldMappings Model.mappings Mapping.mostCommon areByDay tableNames
  simp only [mergeSort_by_text, mergeSort_by_count]
  decide +kernel

/-- One row of the same day in every table but the first. -/
def closedOn (first s : String) : List (Row Nat) := if s = first then [] else [fun _ => some 1]

variable {dimensions : Grouping Field}

theorem areKeyed_closedOn (first : String) (names : List String) :
    AreKeyed dimensions names (closedOn first) := by
  constructor
  · intro s _
    unfold closedOn
    split_ifs <;> simp
  · intro s _ b hb v hv
    unfold closedOn at hb
    split_ifs at hb with hs
    · cases hb
    · cases mem_singleton.mp hb
      obtain ⟨f, -, rfl⟩ := mem_map.mp hv
      simp

theorem keyOf_of_all (hall : dimensions.all (·.2.length == 1) = true)
    (hne : dimensions.get second ≠ []) : keyOf dimensions second (fun _ => some 1) = [some 1] := by
  have hone : (dimensions.get second).length = 1 := by
    unfold Grouping.get at hne ⊢
    cases hfind : dimensions.find? (·.1 == second) with
    | none => simp [hfind] at hne
    | some e => simpa using all_eq_true.mp hall e (List.mem_of_find?_eq_some hfind)
  obtain ⟨f, hf⟩ := length_eq_one_iff.mp hone
  simp [keyOf, hf]

end Shops

theorem compile_oneRowPerKey_iff_days : ∃ statement w',
    Shops.days.compile (.map []) Shops.workspaceOfDays = (.ok statement, w') ∧
    Shops.joinsTwo statement = true ∧
    ∃ warehouse dimensions first rest tables body,
      Shops.days.warehouse = some warehouse ∧ statement = .select tables body ∧
      Shops.days.IsLaidOut Shops.workspaceOfDays warehouse dimensions first rest tables body ∧
      body.joins = (rest.map fun s => ⟨.fullOuter, { table := s },
        some (renderOn (equations warehouse dimensions first s))⟩) ∧
      ∀ {γ : Type} [DecidableEq γ] (results : String → List (Row γ)),
        AreKeyed dimensions (first :: rest) results →
          (OneRowPerKey dimensions (first :: rest) results
              (mergedRows results (equations warehouse dimensions first) first rest) ↔
            dimensions = [] ∨ FirstDecides dimensions results first rest) := by
  obtain ⟨statement, w', h, htwo⟩ := Shops.compile_days
  exact ⟨statement, w', h, htwo, compile_oneRowPerKey_iff h⟩

/-- The day without calls has two rows. -/
theorem days_not_oneRowPerKey : ∃ statement w',
    Shops.days.compile (.map []) Shops.workspaceOfDays = (.ok statement, w') ∧
    ∃ warehouse dimensions first rest tables body,
      Shops.days.warehouse = some warehouse ∧ statement = .select tables body ∧
      Shops.days.IsLaidOut Shops.workspaceOfDays warehouse dimensions first rest tables body ∧
      ∃ results : String → List (Row Nat), AreKeyed dimensions (first :: rest) results ∧
        ¬ OneRowPerKey dimensions (first :: rest) results
          (mergedRows results (equations warehouse dimensions first) first rest) := by
  obtain ⟨statement, w', h, htwo⟩ := Shops.compile_days
  obtain ⟨warehouse, dimensions, first, rest, tables, body, hwarehouse, rfl, hlaid⟩ :=
    compile_isLaidOut h
  refine ⟨_, w', h, warehouse, dimensions, first, rest, tables, body, hwarehouse, rfl, hlaid,
    Shops.closedOn first, Shops.areKeyed_closedOn first _, ?_⟩
  obtain ⟨hjoins, hcomparable⟩ := joinClauses_eq hlaid.filled hlaid.joins
  obtain ⟨s, t, rfl⟩ : ∃ s t, rest = [s, t] := by
    rw [Shops.joinsTwo, beq_iff_eq, hjoins, length_map] at htwo
    exact length_eq_two.mp htwo
  obtain ⟨hne, hall⟩ : dimensions ≠ [] ∧ dimensions.all (·.2.length == 1) = true := by
    obtain ⟨parts, w1, hparts, hdays⟩ := Shops.parts_days
    obtain ⟨parts', w1', hparts', hrenamed⟩ := hlaid.placed
    cases hparts.symm.trans hparts'
    rw [Shops.areByDay, hrenamed] at hdays
    simpa [Except.toOption] using hdays
  have hcmp := hcomparable.resolve_left hne
  have hkey : ∀ u ∈ [s, t], keyOf dimensions u (fun _ => some 1) = [some 1] := by
    refine fun u hu => Shops.keyOf_of_all hall fun hnil => ?_
    simpa [hnil, (hcmp u hu).ne_nil] using (hcmp u hu).length_le
  rw [mergedRows_oneRowPerKey_iff (Shops.areKeyed_closedOn first _) hlaid.distinct hcmp]
  intro hdecides
  obtain ⟨hfirst, hst⟩ : (first ≠ s ∧ first ≠ t) ∧ s ≠ t := by simpa using hlaid.distinct
  obtain ⟨a, ha, -⟩ := hdecides.shared s (by simp) t (by simp) hst (fun _ => some 1)
    (by simp [Shops.closedOn, hfirst.1.symm]) (fun _ => some 1)
    (by simp [Shops.closedOn, hfirst.2.symm]) (by rw [hkey s (by simp), hkey t (by simp)])
  simp [Shops.closedOn] at ha

end SemanticLayer.MergedQuery
