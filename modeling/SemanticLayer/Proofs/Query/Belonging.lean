import SemanticLayer.Proofs.Join.Joinable
import SemanticLayer.Proofs.Naming
import SemanticLayer.Query.Merged

/-!
# To which sub-query a field belongs

The key of a sub-query is the text of its date and the names of its components.  It is read back in
three ways: by the numbers between its words (`componentsOf`), by a component's name somewhere in
it, which also finds numbers that only begin alike, and by the names behind the date (`behindDate`),
which knows no field of several components (`belongs_iff`).
-/

namespace SemanticLayer

open List JoinGraph Text

variable {c m : Char} {n : Nat} {p : Char → Bool} {piece x : List Char} {ns : List Nat}

/-- The word in the name of every component. -/
def componentWord : List Char := ['s', 'u', 'b', 'q', 'u', 'e', 'r', 'y']

namespace Text

variable {s sep pre rest acc : List Char}

theorem prefix_of_not_mem (h : m ∉ s) : s <+: pre ++ m :: rest ↔ s <+: pre := by
  refine ⟨fun hs => ?_, fun hs => hs.trans (prefix_append _ _)⟩
  have hnext : pre ++ [m] <+: pre ++ m :: rest := ⟨rest, by simp⟩
  rcases prefix_or_prefix_of_prefix hs hnext with hs | hs
  · rcases prefix_concat_iff.mp hs with rfl | hs
    · simp at h
    · exact hs
  · exact absurd (hs.subset (by simp)) h

/-- A text without a match is clear if what is put behind it cannot belong to one. -/
theorem Clear.append {marks : List Char} (hm : m ∉ sep) (hpre : ¬ sep <:+: pre)
    (h : Clear sep (m :: marks)) : Clear sep (pre ++ m :: marks) := by
  induction pre with
  | nil => exact h
  | cons c pre ih =>
    rw [infix_cons_iff, not_or] at hpre
    intro rest b hb hb0 hmatch
    rcases suffix_cons_iff.mp hb with rfl | hb
    · have hmatch : sep <+: c :: pre ++ m :: (marks ++ (sep ++ rest)) := by simpa using hmatch
      exact hpre.1 ((prefix_of_not_mem hm).mp hmatch)
    · exact ih hpre.2 rest b hb hb0 hmatch

theorem Clear.infix_append_iff (h : Clear sep pre) :
    sep ++ x <:+: pre ++ (sep ++ rest) ↔ sep ++ x <:+: sep ++ rest := by
  induction pre with
  | nil => rfl
  | cons c pre ih =>
    rw [cons_append, infix_cons_iff, ih h.of_cons, or_iff_right]
    exact fun hx => h rest (c :: pre) suffix_rfl (by simp) ((prefix_append sep x).trans hx)

theorem infix_skip {y : List Char} (h : c ∉ pre) : c :: y <:+: pre ++ rest ↔ c :: y <:+: rest := by
  induction pre with
  | nil => rfl
  | cons d pre ih =>
    rw [mem_cons, not_or] at h
    rw [cons_append, infix_cons_iff, ih h.2]
    simp [h.1]

theorem infix_word {tail : List Char} (h : c ∉ tail) :
    c :: tail ++ x <:+: c :: tail ++ rest ↔ x <+: rest ∨ c :: tail ++ x <:+: rest := by
  rw [cons_append, cons_append, infix_cons_iff, cons_prefix_cons, infix_skip h]
  simp

theorem dropWhile_marks (ha : ∀ c ∈ acc, p c = true) (hs : s ≠ [])
    (hfirst : ∀ c ∈ s.head?, p c = false) : (acc ++ s).dropWhile p = s := by
  obtain ⟨c, s, rfl⟩ := exists_cons_of_ne_nil hs
  rw [dropWhile_append_of_pos ha, dropWhile_cons_of_neg (by simp [hfirst c rfl])]

theorem trimBy_ofList {a b : List Char} (ha : ∀ c ∈ a, p c = true) (hb : ∀ c ∈ b, p c = true)
    (hs : s ≠ []) (hfirst : ∀ c ∈ s.head?, p c = false) (hlast : ∀ c ∈ s.getLast?, p c = false) :
    trimBy p (String.ofList (a ++ (s ++ b))) = String.ofList s := by
  have hfront : (a ++ (s ++ b)).dropWhile p = s ++ b := by
    refine dropWhile_marks ha (by simp [hs]) ?_
    rwa [head?_append_of_ne_nil s hs]
  have hback : (s ++ b).reverse.dropWhile p = s.reverse := by
    rw [reverse_append]
    refine dropWhile_marks (by simpa using hb) (by simpa using hs) ?_
    rwa [head?_reverse]
  rw [trimBy, String.toList_ofList, hfront, hback, reverse_reverse]

end Text

/-! ### Keys -/

namespace MergedQuery

/-- The digits of a component's number. -/
def digitsOf (n : Nat) : List Char := Nat.toDigits 10 n

/-- The names of components in one text. -/
def namesOf (ns : List Nat) : String := Text.join "_" (ns.map componentName)

theorem isDigit_of_mem_digitsOf (h : c ∈ digitsOf n) : c.isDigit = true :=
  Nat.isDigit_of_mem_toDigits (by decide) (by decide) h

theorem not_mem_digitsOf (n : Nat) : 's' ∉ digitsOf n ∧ '_' ∉ digitsOf n :=
  ⟨fun h => absurd (isDigit_of_mem_digitsOf h) (by decide),
    fun h => absurd (isDigit_of_mem_digitsOf h) (by decide)⟩

theorem digitsOf_ne_nil (n : Nat) : digitsOf n ≠ [] :=
  Nat.toDigits_ne_nil

theorem toList_componentName (n : Nat) :
    (componentName n).toList = componentWord ++ '_' :: digitsOf n := by
  simp only [componentName, String.toList_append, Nat.toString_eq_repr, Nat.toList_repr]
  rfl

theorem toList_namesOf (n : Nat) (ns : List Nat) :
    (namesOf (n :: ns)).toList = componentWord ++ ('_' :: digitsOf n ++
      if ns = [] then [] else '_' :: (namesOf ns).toList) := by
  cases ns with
  | nil => simp [namesOf, Text.join, toList_componentName]
  | cons m ns => simp [namesOf, Text.join, toList_componentName]

/-- What stands behind the word of a component in a key. -/
def IsPiece (n : Nat) (piece : List Char) : Prop :=
  ∃ marks, (∀ c ∈ marks, c = '_') ∧ piece = '_' :: digitsOf n ++ marks

theorem splitChars_namesOf {pre : List Char} (h : Text.Clear componentWord pre) (acc : List Char)
    (n : Nat) (ns : List Nat) : ∃ pieces, Forall₂ IsPiece (n :: ns) pieces ∧
      Text.splitChars componentWord 0 acc (pre ++ (namesOf (n :: ns)).toList)
        = (acc.reverse ++ pre) :: pieces := by
  induction ns generalizing n acc pre with
  | nil =>
    have hword : 's' ∉ '_' :: digitsOf n := by simp [not_mem_digitsOf]
    refine ⟨['_' :: digitsOf n], .cons ⟨[], by simp, by simp⟩ .nil, ?_⟩
    rw [toList_namesOf, splitChars_next (by decide) h, if_pos rfl, append_nil]
    exact congrArg _ <| splitChars_of_not_infix (not_infix_of_not_mem hword) _
  | cons m ns ih =>
    have hclear : Text.Clear componentWord ('_' :: digitsOf n ++ ['_']) :=
      clear_of_not_mem (by simp [not_mem_digitsOf])
    obtain ⟨pieces, hpieces, heq⟩ := ih hclear [] m
    refine ⟨_ :: pieces, .cons ⟨['_'], by simp, rfl⟩ hpieces, ?_⟩
    rw [append_assoc, singleton_append] at heq
    rw [toList_namesOf, splitChars_next (by decide) h, if_neg (by simp), heq]
    rfl

theorem split_namesOf (pre : List Char) (h : Text.Clear componentWord pre) (hns : ns ≠ []) :
    ∃ pieces, Forall₂ IsPiece ns pieces ∧
      Text.split (String.ofList pre ++ namesOf ns) "subquery"
        = String.ofList pre :: pieces.map String.ofList := by
  obtain ⟨n, ns, rfl⟩ := exists_cons_of_ne_nil hns
  obtain ⟨pieces, hpieces, hsplit⟩ := splitChars_namesOf h [] n ns
  refine ⟨pieces, hpieces, ?_⟩
  have hword : "subquery".toList = componentWord := by simp [componentWord]
  rw [split, hword, String.toList_append, String.toList_ofList, hsplit]
  rfl

theorem IsPiece.trimBy (h : IsPiece n piece) :
    Text.trimBy (· == '_') (String.ofList piece) = String.ofList (digitsOf n) ∧
      Text.trimBy (· == '_') ("subquery" ++ String.ofList piece) = componentName n := by
  obtain ⟨marks, hmarks, rfl⟩ := h
  have hdigit : ∀ c ∈ digitsOf n, (c == '_') = false := fun c hc => by
    simpa using ne_of_mem_of_not_mem hc (not_mem_digitsOf n).2
  have hlast : ∀ c ∈ (digitsOf n).getLast?, (c == '_') = false :=
    fun c hc => hdigit c (mem_of_getLast? hc)
  constructor
  · exact trimBy_ofList (a := ['_']) (by simp) (by simpa using hmarks) (digitsOf_ne_nil n)
      (fun c hc => hdigit c (mem_of_mem_head? hc)) hlast
  · have hend : (componentWord ++ '_' :: digitsOf n).getLast? = (digitsOf n).getLast? := by
      rw [getLast?_append_of_ne_nil _ (by simp), getLast?_cons_of_ne_nil (digitsOf_ne_nil n)]
    have htext : "subquery" ++ String.ofList ('_' :: digitsOf n ++ marks)
        = String.ofList ([] ++ (componentWord ++ '_' :: digitsOf n ++ marks)) := by
      rw [← String.toList_inj]
      simp [componentWord]
    rw [htext, trimBy_ofList (by simp) (by simpa using hmarks) (by simp)
      (by simp [componentWord]) (by rwa [hend]), ← toList_componentName, String.ofList_toList]

/-- The component whose number a piece is. -/
def readPiece (piece : String) : Option String :=
  let digits := Text.trimBy (· == '_') piece
  if Text.allBy Text.isDigit digits then some ("subquery_" ++ digits) else none

theorem IsPiece.readPiece (h : IsPiece n piece) :
    readPiece (String.ofList piece) = some (componentName n) := by
  have hall : allBy isDigit (String.ofList (digitsOf n)) = true := by
    simp only [allBy, String.toList_ofList, Bool.and_eq_true, all_eq_true]
    refine ⟨by simpa using digitsOf_ne_nil n, fun c hc => ?_⟩
    have hc := isDigit_of_mem_digitsOf hc
    rw [isDigit, digitValue?, Option.isSome_map, find?_isSome]
    refine ⟨0x30, by decide, ?_⟩
    simp only [Char.isDigit, Bool.and_eq_true, decide_eq_true_eq] at hc
    simp only [Bool.and_eq_true, decide_eq_true_eq]
    exact ⟨hc.1, Nat.lt_succ_of_le hc.2⟩
  rw [MergedQuery.readPiece, h.trimBy.1, if_pos hall, componentName, Nat.toString_eq_repr]
  rfl

theorem read_pieces {pieces : List (List Char)} (h : Forall₂ IsPiece ns pieces) :
    (pieces.map String.ofList).filterMap readPiece = ns.map componentName ∧
      (((pieces.map String.ofList).filter (!·.isEmpty)).map fun piece =>
        Text.trimBy (· == '_') ("subquery" ++ piece)) = ns.map componentName := by
  induction h with
  | nil => exact ⟨rfl, rfl⟩
  | @cons n piece _ _ h _ ih =>
    have hfull : (!(String.ofList piece).isEmpty) = true := by
      obtain ⟨marks, -, rfl⟩ := h
      simp
    rw [map_cons, map_cons, filterMap_cons_some h.readPiece, ih.1, filter_cons, if_pos hfull,
      map_cons, h.trimBy.2, ih.2]
    exact ⟨rfl, rfl⟩

theorem not_double_namesOf (ns : List Nat) : ¬ ['_', '_'] <:+: (namesOf ns).toList := by
  induction ns with
  | nil => simp [namesOf, Text.join]
  | cons n ns ih =>
    have hno := (not_mem_digitsOf n).2
    obtain ⟨d, ds, hd⟩ := exists_cons_of_ne_nil (digitsOf_ne_nil n)
    have hd0 : '_' ≠ d := fun h => hno (hd ▸ h ▸ mem_cons_self)
    rw [toList_namesOf, infix_skip (by simp [componentWord]), cons_append, infix_cons_iff,
      infix_skip hno, hd]
    cases ns with
    | nil => simp [hd0]
    | cons m ns =>
      have hnext : ¬ ['_', '_'] <+: '_' :: (namesOf (m :: ns)).toList := by
        simp [toList_namesOf, componentWord]
      rw [if_neg (by simp), infix_cons_iff]
      simp [hd0, ih, hnext]

theorem infix_namesOf (t : Nat) (ns : List Nat) :
    componentWord ++ '_' :: digitsOf t <:+: (namesOf ns).toList ↔
      ∃ n ∈ ns, digitsOf t <+: digitsOf n := by
  induction ns with
  | nil => simp [namesOf, Text.join]
  | cons n ns ih =>
    have hword : 's' ∉ '_' :: digitsOf n := by simp [not_mem_digitsOf]
    have hskip (pre : List Char) {rest : List Char} (h : 's' ∉ pre) :
        componentWord ++ '_' :: digitsOf t <:+: pre ++ rest ↔
          componentWord ++ '_' :: digitsOf t <:+: rest := infix_skip h
    have hhere {rest : List Char} : componentWord ++ '_' :: digitsOf t <:+: componentWord ++ rest ↔
        '_' :: digitsOf t <+: rest ∨ componentWord ++ '_' :: digitsOf t <:+: rest :=
      infix_word (by simp)
    rw [toList_namesOf, hhere, hskip _ hword, cons_append, cons_prefix_cons]
    simp only [true_and, mem_cons, exists_eq_or_imp]
    cases ns with
    | nil => simp
    | cons m ns =>
      rw [if_neg (by simp), prefix_of_not_mem (not_mem_digitsOf t).2]
      exact or_congr_right ((hskip ['_'] (by simp)).trans ih)

section Key

variable {date : String} {ns : List Nat} (hns : ns ≠ [])
  (hdate : Text.contains date "subquery" = false)
include hdate

theorem clear_date : Text.Clear componentWord (date.toList ++ ['_', '_']) := by
  have hmarks : Text.Clear componentWord ['_', '_'] := clear_of_not_mem (by simp)
  refine hmarks.append (by simp [componentWord]) ?_
  simpa [contains_iff, componentWord, ← Bool.not_eq_true] using hdate

include hns

theorem componentsOf_key (hnumber : readPiece (date ++ "__") = none) :
    componentsOf (date ++ "__" ++ namesOf ns) = ns.map componentName := by
  obtain ⟨pieces, hpieces, hsplit⟩ := split_namesOf _ (clear_date hdate) hns
  have hfirst : String.ofList (date.toList ++ ['_', '_']) = date ++ "__" := by simp
  rw [hfirst] at hsplit
  change (split _ "subquery").filterMap readPiece = _
  rw [hsplit, filterMap_cons_none hnumber, (read_pieces hpieces).1]

omit hdate in
theorem behindDate_key (date : String) :
    behindDate (date ++ "__" ++ namesOf ns) = ns.map componentName ∨
    behindDate (date ++ "__" ++ namesOf ns) = "subquery" :: ns.map componentName := by
  have hbody : ∀ j, 0 < j → ¬ ['_', '_'] <:+: ['_', '_'].drop j ++ (namesOf ns).toList := by
    have hhead : ¬ ['_', '_'] <+: '_' :: (namesOf ns).toList := by
      obtain ⟨n, ns, rfl⟩ := exists_cons_of_ne_nil hns
      simp [toList_namesOf, componentWord]
    rintro (_ | _ | j) hj
    · cases hj
    · exact fun h => (infix_cons_iff.mp h).elim hhead (not_double_namesOf ns)
    · simpa using not_double_namesOf ns
  have hkey : (date ++ "__" ++ namesOf ns).toList
      = date.toList ++ (['_', '_'] ++ (namesOf ns).toList) := by simp
  obtain ⟨j, hj, -, hlast⟩ := getLast?_splitChars (by simp) hbody date.toList 0 [] (by simp)
    (by simp) (by simp)
  have hcut : (split (date ++ "__" ++ namesOf ns) "__").getLast?
      = some (String.ofList (['_', '_'].drop j ++ (namesOf ns).toList)) := by
    rw [split, hkey, show "__".toList = ['_', '_'] from by simp, getLast?_map, hlast]
    rfl
  unfold behindDate
  dsimp only
  rw [hcut, Option.getD_some]
  rcases j with _ | _ | j
  · cases hj
  · -- the mark that is left makes a name without a number
    right
    obtain ⟨pieces, hpieces, hsplit⟩ := split_namesOf ['_'] (clear_of_not_mem (by simp)) hns
    have htext : String.ofList (['_', '_'].drop 1 ++ (namesOf ns).toList)
        = String.ofList ['_'] ++ namesOf ns := by simp
    rw [htext, hsplit, filter_cons, if_pos (by decide), map_cons, (read_pieces hpieces).2]
    rfl
  · left
    obtain ⟨pieces, hpieces, hsplit⟩ := split_namesOf [] (clear_of_not_mem not_mem_nil) hns
    have htext : String.ofList (['_', '_'].drop (j + 2) ++ (namesOf ns).toList)
        = String.ofList [] ++ namesOf ns := by simp
    rw [htext, hsplit, filter_cons, if_neg (by decide), (read_pieces hpieces).2]

theorem contains_key (t : Nat) :
    Text.contains (date ++ "__" ++ namesOf ns) (componentName t) = true ↔
      ∃ n ∈ ns, digitsOf t <+: digitsOf n := by
  obtain ⟨n, ns, rfl⟩ := exists_cons_of_ne_nil hns
  rw [← infix_namesOf, contains_iff, toList_componentName]
  have hkey : (date ++ "__" ++ namesOf (n :: ns)).toList
      = date.toList ++ ['_', '_'] ++ (namesOf (n :: ns)).toList := by simp
  rw [hkey, toList_namesOf, (clear_date hdate).infix_append_iff]

end Key

theorem namesOf_eq_componentName {fs : List Nat} : namesOf fs = componentName n ↔ fs = [n] := by
  refine ⟨fun h => ?_, fun h => by simp [h, namesOf, Text.join]⟩
  have h := congrArg String.toList h
  match fs with
  | [] => simp [namesOf, Text.join, componentName] at h
  | [m] => exact congrArg (fun i => [i]) (componentName_inj (String.toList_inj.mp (by
      simpa [namesOf, Text.join] using h)))
  | m :: k :: fs =>
    rw [toList_namesOf, toList_componentName] at h
    refine absurd ?_ (not_mem_digitsOf n).2
    simp only [cons_append, append_cancel_left_eq, cons.injEq, true_and] at h
    simp [← h]

/-- **What each place takes for a field of a sub-query**, by the numbers `ns` of its components.  A
dimension and the target of a mapping belong to it if they share one of these.  A mapped dimension
belongs to it also if the number of a component only begins with that of its own.  A condition
belongs to it if its field has one component only, which is one of these. -/
theorem belongs_iff {date : String} {ns : List Nat} (hns : ns ≠ [])
    (hdate : Text.contains date "subquery" = false)
    (hnumber : readPiece (date ++ "__") = none) :
    (∀ graphs, containsAny (date ++ "__" ++ namesOf ns) graphs = true ↔
      ∃ n ∈ ns, componentName n ∈ graphs) ∧
    (∀ t, Text.contains (date ++ "__" ++ namesOf ns) (componentName t) = true ↔
      ∃ n ∈ ns, digitsOf t <+: digitsOf n) ∧
    ∀ fs, (behindDate (date ++ "__" ++ namesOf ns)).contains (namesOf fs) = true ↔
      ∃ n ∈ ns, fs = [n] := by
  refine ⟨fun graphs => ?_, contains_key hns hdate, fun fs => ?_⟩
  · rw [containsAny, componentsOf_key hns hdate hnumber]
    simp only [any_eq_true, contains_iff_mem, mem_map]
    exact ⟨fun ⟨_, hg, n, hn, he⟩ => ⟨n, hn, he ▸ hg⟩, fun ⟨n, hn, hg⟩ => ⟨_, hg, n, hn, rfl⟩⟩
  · have hword : namesOf fs ≠ "subquery" := by
      intro h
      have h := congrArg String.toList h
      cases fs with
      | nil => simp [namesOf, Text.join] at h
      | cons f fs => simp [toList_namesOf, componentWord] at h
    have hnames : namesOf fs ∈ ns.map componentName ↔ ∃ n ∈ ns, fs = [n] := by
      simp only [mem_map, eq_comm (b := namesOf fs), namesOf_eq_componentName]
    rw [contains_iff_mem, ← hnames]
    rcases behindDate_key hns date with h | h
    · rw [h]
    · rw [h, mem_cons, or_iff_right hword]

theorem belongs_iff_twelve :
    Text.contains "calls_made" "subquery" = false ∧ readPiece ("calls_made" ++ "__") = none ∧
    containsAny ("calls_made" ++ "__" ++ namesOf [3, 12]) [componentName 1] = false ∧
    Text.contains ("calls_made" ++ "__" ++ namesOf [3, 12]) (componentName 1) = true ∧
    (behindDate ("calls_made" ++ "__" ++ namesOf [3, 12])).contains (namesOf [3, 12]) = false := by
  have hdate : Text.contains "calls_made" "subquery" = false := by decide +kernel
  have hnumber : readPiece ("calls_made" ++ "__") = none := by decide +kernel
  obtain ⟨hany, hin, hbehind⟩ := belongs_iff (cons_ne_nil 3 [12]) hdate hnumber
  refine ⟨hdate, hnumber, ?_, (hin 1).mpr ⟨12, by decide, by decide⟩, ?_⟩
  · rw [Bool.eq_false_iff, ne_eq, hany]
    rintro ⟨n, hn, h⟩
    cases componentName_inj (mem_singleton.mp h)
    exact absurd hn (by decide)
  · rw [Bool.eq_false_iff, ne_eq, hbehind]
    simp

/-- A field of three components belongs to the sub-query of the third one as a dimension, but not as
a condition. -/
theorem condition_apart :
    containsAny "calls_at__subquery_2" ["subquery_0", "subquery_1", "subquery_2"] = true ∧
      (behindDate "calls_at__subquery_2").contains "subquery_0_subquery_1_subquery_2" = false := by
  refine ⟨?_, ?_⟩ <;> decide +kernel

end MergedQuery

end SemanticLayer
