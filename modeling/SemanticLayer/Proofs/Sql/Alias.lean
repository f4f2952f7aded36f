import SemanticLayer.Proofs.Naming
import SemanticLayer.Sql.Clause

/-!
# Aliases

An alias is cut off at the last alias word, wherever that stands, and the words before it come out
in capitals.  So an expression with an alias loses the alias alone, but one without loses what
follows an alias word within parentheses (`stripAlias_spec`).
-/

namespace SemanticLayer

open List

variable {c x y : Char} {new cs rest word : List Char} {k : Nat} {found : List String}

namespace Text

variable {sep old : List Char}

theorem intercalate_splitChars (hsep : sep ≠ []) (k : Nat) (acc cs : List Char) :
    sep.intercalate (splitChars sep k acc cs) = acc.reverse ++ cs.drop k := by
  fun_induction splitChars sep k acc cs with
  | case1 => simp
  | case2 _ _ _ _ ih => simpa using ih
  | case3 acc c cs hpre ih =>
    obtain ⟨rest, hrest⟩ := isPrefixOf_iff_prefix.mp hpre
    obtain ⟨d, tail, rfl⟩ := exists_cons_of_ne_nil hsep
    obtain ⟨rfl, rfl⟩ := cons.inj hrest
    rw [intercalate_cons_of_ne_nil (splitChars_ne_nil _ _ _ _), ih]
    simp
  | case4 acc c cs _ ih => simpa using ih

theorem join_split {sep : String} (hsep : sep ≠ "") (s : String) : join sep (split s sep) = s := by
  apply String.toList_injective
  rw [join, split, String.toList_intercalate, map_map]
  simpa [Function.comp_def] using
    intercalate_splitChars (fun h => hsep (String.toList_injective h)) 0 [] s.toList

theorem length_join_dropLast {s sep : String} (hsep : sep ≠ "") (hs : 0 < s.length) :
    (join sep (split s sep).dropLast).length < s.length := by
  have hjoin := join_split hsep s
  generalize split s sep = pieces at hjoin ⊢
  subst hjoin
  rcases eq_nil_or_concat' pieces with rfl | ⟨init, last, rfl⟩
  · exact hs
  · rw [dropLast_concat]
    rcases eq_or_ne init [] with rfl | hinit
    · exact hs
    · have : sep.length ≠ 0 := fun h => hsep (String.length_eq_zero_iff.mp h)
      rw [join, join, String.intercalate_append_of_ne_nil hinit (by simp)]
      simp only [String.length_append]
      omega

theorem replaceChars_of_not_infix (h : ¬ old <:+: cs) : replaceChars old new 0 cs = cs := by
  induction cs with
  | nil => rfl
  | cons c cs ih =>
    rw [infix_cons_iff, not_or] at h
    rw [replaceChars, if_neg (mt isPrefixOf_iff_prefix.mp h.1), ih h.2]

theorem length_of_isPrefixOf (h : word.isPrefixOf (c :: cs) = true) :
    word.length - 1 ≤ cs.length := by
  have := ( isPrefixOf_iff_prefix.mp h).length_le
  rw [length_cons] at this
  omega

/-- A blank behind a text completes no word between blanks, unless the text ends in one but for that
blank. -/
theorem isPrefixOf_blank (hx : x ≠ ' ') (hy : y ≠ ' ') (hcs : ¬ [' ', x, y] <:+ c :: cs) :
    [' ', x, y, ' '].isPrefixOf (c :: (cs ++ ' ' :: rest))
      = [' ', x, y, ' '].isPrefixOf (c :: cs) := by
  rcases cs with _ | ⟨d, _ | ⟨e, _ | ⟨f, cs⟩⟩⟩
  · simp [isPrefixOf, hx]
  · simp [isPrefixOf, hy]
  · have : ¬ (' ' = c ∧ x = d ∧ y = e) := by
      rintro ⟨rfl, rfl, rfl⟩
      exact hcs suffix_rfl
    simpa [isPrefixOf] using this
  · rfl

section

variable (hx : x ≠ ' ') (hy : y ≠ ' ')
include hx hy

theorem replaceChars_blank (hk : k ≤ cs.length) (hcs : ¬ [' ', x, y] <:+ cs) :
    replaceChars [' ', x, y, ' '] new k (cs ++ ' ' :: rest)
      = replaceChars [' ', x, y, ' '] new k cs
        ++ replaceChars [' ', x, y, ' '] new 0 (' ' :: rest) := by
  induction cs generalizing k with
  | nil => cases k <;> simp_all [replaceChars]
  | cons c cs ih =>
    have ih := fun k hk => @ih k hk fun h => hcs (h.trans (suffix_cons c cs))
    cases k with
    | succ k => exact ih k (by simpa using hk)
    | zero =>
      rw [cons_append, replaceChars, replaceChars, isPrefixOf_blank hx hy hcs]
      split_ifs with hpre
      · rw [ih _ (length_of_isPrefixOf hpre), append_assoc]
      · rw [ih 0 (Nat.zero_le _), cons_append]

theorem splitChars_blank (hk : k ≤ cs.length) (hcs : ¬ [' ', x, y] <:+ cs)
    (hrest : ¬ [' ', x, y, ' '] <:+: rest) (acc : List Char) :
    splitChars [' ', x, y, ' '] k acc (cs ++ ' ' :: x :: y :: ' ' :: rest)
      = splitChars [' ', x, y, ' '] k acc cs ++ [rest] := by
  induction cs generalizing k acc with
  | nil =>
    obtain rfl : k = 0 := by simpa using hk
    simp [splitChars, splitChars_of_not_infix hrest]
  | cons c cs ih =>
    have ih := fun k hk => @ih k hk fun h => hcs (h.trans (suffix_cons c cs))
    cases k with
    | succ k => exact ih k (by simpa using hk) acc
    | zero =>
      rw [cons_append, splitChars, splitChars, isPrefixOf_blank hx hy hcs]
      split_ifs with hpre
      · rw [ih _ (length_of_isPrefixOf hpre), cons_append]
      · rw [ih 0 (Nat.zero_le _)]

end

end Text

namespace Sql.Clause

open Text

/-- A letter of an alias word without its case; a long s is an s. -/
def aliasLetter (c : Char) : Char :=
  if c = 'A' then 'a' else if c = 'S' ∨ c = 'ſ' then 's' else c

/-- Characters up to the case of the letters of alias words. -/
abbrev small : List Char → List Char := map aliasLetter

/-- How many parentheses are open behind a text. -/
def depth (cs : List Char) : Int := cs.count '(' - cs.count ')'

/-- An alias word stands in the text within so many parentheses. -/
def AliasAt (s : String) (d : Int) : Prop :=
  ∃ w ∈ aliasWords, ∃ before after, before ++ w.toList ++ after = s.toList ∧ depth before = d

theorem toList_of_mem_aliasWords :
    ∀ w ∈ aliasWords,
      ∃ x y, w.toList = [' ', x, y, ' '] ∧ aliasLetter x = 'a' ∧ aliasLetter y = 's' := by
  simp [aliasWords, aliasLetter]

theorem count_small {c : Char} (hc : c ∉ ['A', 'S', 'ſ', 'a', 's']) (cs : List Char) :
    (small cs).count c = cs.count c := by
  have hkeep : ∀ d, aliasLetter d = c ↔ d = c := by
    intro d
    unfold aliasLetter
    split_ifs <;> simp_all
    all_goals grind
  induction cs with
  | nil => rfl
  | cons d cs ih => simp [count_cons, ih, hkeep]

theorem depth_of_small {ds : List Char} (h : small ds = small cs) : depth ds = depth cs := by
  rw [depth, depth, ← count_small (by decide) ds, ← count_small (by decide) ds, h,
    count_small (by decide), count_small (by decide)]

section

variable (hx : aliasLetter x = 'a') (hy : aliasLetter y = 's')
include hx hy

theorem ne_blank : x ≠ ' ' ∧ y ≠ ' ' := by
  constructor <;> rintro rfl <;> contradiction

theorem not_suffix_of_small (hcs : ¬ [' ', 'a', 's'] <:+ small cs) : ¬ [' ', x, y] <:+ cs := by
  intro h
  have := h.map aliasLetter
  rw [map_cons, map_cons, map_cons, hx, hy] at this
  exact hcs this

theorem small_replaceChars (k : Nat) (cs : List Char) :
    small (replaceChars [' ', x, y, ' '] [' ', 'A', 'S', ' '] k cs) = small (cs.drop k) := by
  fun_induction replaceChars [' ', x, y, ' '] [' ', 'A', 'S', ' '] k cs with
  | case1 => simp
  | case2 _ _ _ ih => simpa using ih
  | case3 c cs hpre ih =>
    obtain ⟨rest, hrest⟩ := isPrefixOf_iff_prefix.mp hpre
    obtain ⟨rfl, rfl⟩ := cons.inj hrest
    have hcapitals : aliasLetter 'A' = 'a' ∧ aliasLetter 'S' = 's' := ⟨rfl, rfl⟩
    simpa [hx, hy, hcapitals] using ih
  | case4 c cs _ ih => simpa using ih

end

theorem findAlias_eq_nil_iff : findAlias 0 cs = [] ↔ ∀ w ∈ aliasWords, ¬ w.toList <:+: cs := by
  induction cs with
  | nil => simp [findAlias, aliasWords]
  | cons c cs ih =>
    rw [findAlias]
    simp only [infix_cons_iff, not_or, forall_and, ← isPrefixOf_iff_prefix]
    split
    next w hw =>
      have hpre := List.find?_some hw
      exact iff_of_false nofun fun h => h.1 w (mem_of_find?_eq_some hw) hpre
    next hnone =>
      rw [List.find?_eq_none] at hnone
      rw [ih, and_iff_right hnone]

theorem subset_aliasWords (k : Nat) (cs : List Char) : findAlias k cs ⊆ aliasWords := by
  fun_induction findAlias k cs with
  | case1 => simp
  | case2 _ _ _ ih => exact ih
  | case3 _ _ _ hw ih => exact cons_subset.mpr ⟨mem_of_find?_eq_some hw, ih⟩
  | case4 _ _ _ ih => exact ih

theorem mem_findAlias {w : String} (hw : w ∈ aliasWords) (hxy : w.toList = [' ', x, y, ' '])
    (hk : k ≤ cs.length) (hcs : ¬ [' ', 'a', 's'] <:+ small cs) :
    w ∈ findAlias k (cs ++ ' ' :: x :: y :: ' ' :: rest) := by
  induction cs generalizing k with
  | nil =>
    obtain rfl : k = 0 := by simpa using hk
    have hown : ∀ w ∈ aliasWords, w ∈ findAlias 0 (w.toList ++ rest) := by
      simp only [aliasWords, forall_mem_cons, not_mem_nil, false_imp_iff, implies_true, and_true]
      refine ⟨?_, ?_, ?_, ?_, ?_, ?_⟩ <;> exact mem_cons_self
    have := hown w hw
    rwa [hxy] at this
  | cons c cs ih =>
    have ih := fun k hk => @ih k hk fun h => hcs (h.trans (suffix_cons _ _))
    cases k with
    | succ k => exact ih k (by simpa using hk)
    | zero =>
      rw [cons_append, findAlias]
      split
      next v hv =>
        obtain ⟨p, q, hpq, hp, hq⟩ := toList_of_mem_aliasWords v (mem_of_find?_eq_some hv)
        have hpre := List.find?_some hv
        obtain ⟨hp', hq'⟩ := ne_blank hp hq
        rw [hpq, isPrefixOf_blank hp' hq' (not_suffix_of_small hp hq hcs)] at hpre
        exact mem_cons_of_mem _ (ih 3 (length_of_isPrefixOf hpre))
      next => exact ih 0 (Nat.zero_le _)

theorem replaceChars_alias {p q : Char} {a : List Char} (ha : ¬ [' ', p, q, ' '] <:+: ' ' :: a)
    (hx : x ≠ ' ') (hy : y ≠ ' ') : replaceChars [' ', p, q, ' '] new 0 (' ' :: x :: y :: ' ' :: a)
      = if x = p ∧ y = q then new ++ a else ' ' :: x :: y :: ' ' :: a := by
  split_ifs with hpq
  · obtain ⟨rfl, rfl⟩ := hpq
    have hend : replaceChars [' ', x, y, ' '] new 0 a = a :=
      replaceChars_of_not_infix fun h => ha (h.trans (suffix_cons ' ' a).isInfix)
    simp [replaceChars, hend]
  · have hblank : replaceChars [' ', p, q, ' '] new 0 (' ' :: a) = ' ' :: a :=
      replaceChars_of_not_infix ha
    have hno : ¬ (p = x ∧ q = y) := fun h => hpq ⟨h.1.symm, h.2.symm⟩
    rw [replaceChars, if_neg (by simpa [isPrefixOf] using hno), replaceChars,
      if_neg (by simp [isPrefixOf, hx.symm]), replaceChars, if_neg (by simp [isPrefixOf, hy.symm]),
      hblank]

theorem toList_replace {w s : String} (hw : w.toList = [' ', x, y, ' ']) :
    (Text.replace s w " AS ").toList
      = replaceChars [' ', x, y, ' '] [' ', 'A', 'S', ' '] 0 s.toList := by
  have hne : ¬ w.isEmpty = true := by
    intro h
    rw [String.isEmpty_iff.mp h] at hw
    cases hw
  rw [Text.replace, if_neg hne, String.toList_ofList, hw]
  rfl

/-- The text with all alias words that it has in capitals. -/
abbrev capitals (found : List String) (s : String) : String :=
  found.foldl (fun t w => Text.replace t w " AS ") s

theorem small_capitals (hfound : found ⊆ aliasWords) (s : String) :
    small (capitals found s).toList = small s.toList := by
  induction found generalizing s with
  | nil => rfl
  | cons w found ih =>
    rw [cons_subset] at hfound
    obtain ⟨x, y, hxy, hx, hy⟩ := toList_of_mem_aliasWords w hfound.1
    rw [capitals, foldl_cons, ih hfound.2, toList_replace hxy, small_replaceChars hx hy, drop_zero]

theorem capitals_alias {s v : String} {a : List Char}
    (ha : ∀ w ∈ aliasWords, ¬ w.toList <:+: ' ' :: a)
    (hfound : found ⊆ aliasWords) (hcs : ¬ [' ', 'a', 's'] <:+ small cs)
    (hs : s.toList = cs ++ ' ' :: x :: y :: ' ' :: a)
    (hxy : x = 'A' ∧ y = 'S' ∨ v.toList = [' ', x, y, ' '] ∧ v ∈ found) :
    ∃ ds, (capitals found s).toList = ds ++ ' ' :: 'A' :: 'S' :: ' ' :: a ∧
      ((∀ w ∈ aliasWords, ¬ w.toList <:+: cs) → ds = cs) := by
  induction found generalizing cs s x y with
  | nil =>
    obtain ⟨rfl, rfl⟩ := hxy.resolve_right (by simp)
    exact ⟨cs, hs, fun _ => rfl⟩
  | cons w found ih =>
    have hne : x ≠ ' ' ∧ y ≠ ' ' := by
      obtain ⟨rfl, rfl⟩ | ⟨hv, hmem⟩ := hxy
      · decide
      · obtain ⟨_, _, hv', hx, hy⟩ := toList_of_mem_aliasWords v (hfound hmem)
        cases hv.symm.trans hv'
        exact ne_blank hx hy
    rw [cons_subset] at hfound
    obtain ⟨p, q, hpq, hp, hq⟩ := toList_of_mem_aliasWords w hfound.1
    obtain ⟨hp', hq'⟩ := ne_blank hp hq
    have hrun := @toList_replace _ _ w s hpq
    have hplain : (∀ w ∈ aliasWords, ¬ w.toList <:+: cs) →
        replaceChars [' ', p, q, ' '] [' ', 'A', 'S', ' '] 0 cs = cs :=
      fun h => replaceChars_of_not_infix (hpq ▸ h w hfound.1)
    rw [hs, replaceChars_blank hp' hq' (Nat.zero_le _) (not_suffix_of_small hp hq hcs),
      replaceChars_alias (hpq ▸ ha w hfound.1) hne.1 hne.2] at hrun
    rw [← @drop_zero _ cs, ← small_replaceChars hp hq 0 cs] at hcs
    have hstep : ∃ x y, (Text.replace s w " AS ").toList
        = replaceChars [' ', p, q, ' '] [' ', 'A', 'S', ' '] 0 cs ++ ' ' :: x :: y :: ' ' :: a ∧
          (x = 'A' ∧ y = 'S' ∨ v.toList = [' ', x, y, ' '] ∧ v ∈ found) := by
      split_ifs at hrun with heq
      · exact ⟨_, _, hrun, .inl ⟨rfl, rfl⟩⟩
      · refine ⟨x, y, hrun, hxy.imp_right fun ⟨hv, hmem⟩ => ⟨hv, ?_⟩⟩
        refine (mem_cons.mp hmem).resolve_left ?_
        rintro rfl
        cases hpq.symm.trans hv
        exact heq ⟨rfl, rfl⟩
    obtain ⟨x', y', hrun, hxy⟩ := hstep
    obtain ⟨ds, hds, hsame⟩ := ih hfound.2 hcs hrun hxy
    refine ⟨ds, hds, fun h => ?_⟩
    rw [hplain h] at hsame
    exact hsame h

theorem stripAlias_of_ne_nil {s : String} (h : findAlias 0 s.toList ≠ []) : stripAlias s
    = Text.join " AS " (Text.split (capitals (findAlias 0 s.toList) s) " AS ").dropLast := by
  rw [stripAlias]
  split
  next hnil => exact absurd hnil h
  next => rfl

theorem length_stripAlias {s : String} (h : findAlias 0 s.toList ≠ []) :
    (stripAlias s).length < s.length := by
  have hlen := congrArg length (small_capitals (subset_aliasWords 0 s.toList) s)
  rw [length_map, length_map, String.length_toList, String.length_toList] at hlen
  have hpos : 0 < (capitals (findAlias 0 s.toList) s).length := by
    rw [hlen, Nat.pos_iff_ne_zero, ← String.length_toList, Ne, length_eq_zero_iff]
    intro hs
    exact h (by rw [hs, findAlias])
  rw [stripAlias_of_ne_nil h, ← hlen]
  exact length_join_dropLast (by decide) hpos

theorem not_aliasAt_iff {e : String} :
    (∀ d, ¬ AliasAt e d) ↔ ∀ w ∈ aliasWords, ¬ w.toList <:+: e.toList := by
  refine ⟨fun h w hw ⟨before, after, hcut⟩ => h _ ⟨w, hw, before, after, hcut, rfl⟩, ?_⟩
  rintro h d ⟨w, hw, before, after, hcut, -⟩
  exact h w hw ⟨before, after, hcut⟩

theorem stripAlias_eq_self_iff {e : String} : stripAlias e = e ↔ ∀ d, ¬ AliasAt e d := by
  rw [not_aliasAt_iff, ← findAlias_eq_nil_iff]
  refine ⟨fun h => ?_, fun h => by rw [stripAlias, h]⟩
  by_contra hne
  exact absurd (length_stripAlias hne) (by rw [h]; exact lt_irrefl _)

/-- What is in front of the last alias word stays, with its own alias words in capitals. -/
theorem stripAlias_append {e w a : String} (hw : w ∈ aliasWords)
    (ha : ∀ v ∈ aliasWords, Text.contains (" " ++ a) v = false)
    (he : ¬ [' ', 'a', 's'] <:+ small e.toList) :
    small (stripAlias (e ++ w ++ a)).toList = small e.toList ∧
      ((∀ d, ¬ AliasAt e d) → stripAlias (e ++ w ++ a) = e) := by
  obtain ⟨x, y, hxy, -, -⟩ := toList_of_mem_aliasWords w hw
  have htext : (e ++ w ++ a).toList = e.toList ++ ' ' :: x :: y :: ' ' :: a.toList := by simp [hxy]
  have hmem : w ∈ findAlias 0 (e ++ w ++ a).toList := by
    rw [htext]
    exact mem_findAlias hw hxy (Nat.zero_le _) he
  have hsub := subset_aliasWords 0 (e ++ w ++ a).toList
  have hend : ∀ v ∈ aliasWords, ¬ v.toList <:+: ' ' :: a.toList := by
    intro v hv h
    rw [show ' ' :: a.toList = (" " ++ a).toList by simp, ← Text.contains_iff, ha v hv] at h
    cases h
  obtain ⟨ds, hds, hsame⟩ := capitals_alias hend hsub he htext (.inr ⟨hxy, hmem⟩)
  have hsmall := small_capitals hsub (e ++ w ++ a)
  rw [hds, htext, small, map_append, map_append] at hsmall
  have hsmall : small ds = small e.toList := (append_inj' hsmall rfl).1
  have hcapital : ¬ [' ', 'A', 'S', ' '] <:+: a.toList := fun h =>
    hend " AS " (by decide) (h.trans (suffix_cons ' ' _).isInfix)
  have hcut : Text.split (capitals (findAlias 0 (e ++ w ++ a).toList) (e ++ w ++ a)) " AS "
      = Text.split (.ofList ds) " AS " ++ [a] := by
    rw [Text.split, hds, Text.split, String.toList_ofList]
    exact (congrArg (map String.ofList) (splitChars_blank (x := 'A') (y := 'S') (by decide)
      (by decide) (Nat.zero_le _) (not_suffix_of_small rfl rfl (hsmall ▸ he)) hcapital [])).trans
        (by simp)
  rw [stripAlias_of_ne_nil (ne_nil_of_mem hmem), hcut, dropLast_concat, join_split (by decide)]
  refine ⟨by rw [String.toList_ofList, hsmall], fun h => ?_⟩
  rw [hsame (not_aliasAt_iff.mp h), String.ofList_toList]

end Sql.Clause

end SemanticLayer
