import Mathlib
import SemanticLayer.Sql.Clause

/-!
# Matching a name and what follows it

A name in a call is followed by a comma, by the closing parenthesis or by the word `BY`.  What
follows does not change what a matcher takes of the name.
-/

namespace SemanticLayer.Sql.Token

open List

variable {c d : Char} {p : Char → Bool} {w : String} {m : Matcher}

variable {cs : List Char} {k : Nat} {ms : List Matcher} {ws : List String}

/-- What the characters of a list have in common is decided one by one, and not by going through all
characters there are. -/
scoped instance (priority := 2000) decidableForallMem {P : Char → Prop} [DecidablePred P]
    (cs : List Char) : Decidable (∀ c ∈ cs, P c) := List.decidableBAll P cs

/-! ### Matchers that stop at the end of a name -/

theorem anyOf_congr {cs' : List Char} (h : ∀ m ∈ ms, m cs' = m cs) :
    anyOf ms cs' = anyOf ms cs := by
  unfold anyOf
  induction ms with
  | nil => rfl
  | cons m ms ih =>
    rw [forall_mem_cons] at h
    rw [List.findSome?_cons, List.findSome?_cons, h.1, ih h.2]

def isNameChar (c : Char) : Bool := isWord c || c == '$' || c == '#'

/-- What follows a name does not matter to a matcher. -/
def Local (rest : List Char) (m : Matcher) : Prop :=
  ∀ cs, (∀ c ∈ cs, isNameChar c = true) → m (cs ++ rest) = m cs ∧ ∀ n, m cs = some n → n ≤ cs.length

namespace Local

variable {rest : List Char} {a b : Matcher}

theorem thenMatch (ha : Local rest a) (hb : Local rest b) : Local rest (thenMatch a b) := by
  intro cs hcs
  obtain ⟨hsm, hle⟩ := ha cs hcs
  unfold Token.thenMatch
  rw [hsm]
  cases hn : a cs with
  | none => simp
  | some n =>
    have hn' := hle n hn
    obtain ⟨hsm, hle'⟩ := hb (cs.drop n) fun c hc => hcs c (mem_of_mem_drop hc)
    simp only [Option.bind_eq_bind, Option.bind_some, drop_append_of_le_length hn', hsm, true_and]
    intro k hk
    obtain ⟨m, hm, hk⟩ := Option.bind_eq_some_iff.mp hk
    have := hle' m hm
    rw [length_drop] at this
    cases hk
    omega

theorem optional (ha : Local rest a) : Local rest (optional a) := by
  intro cs hcs
  obtain ⟨hsm, hle⟩ := ha cs hcs
  unfold Token.optional
  rw [hsm]
  refine ⟨rfl, fun n hn => ?_⟩
  cases hn
  cases ha : a cs with
  | none => exact Nat.zero_le _
  | some k => exact hle k ha

theorem anyOf (h : ∀ m ∈ ms, Local rest m) : Local rest (anyOf ms) := by
  intro cs hcs
  refine ⟨anyOf_congr fun m hm => (h m hm cs hcs).1, fun n hn => ?_⟩
  obtain ⟨m, hm, hn⟩ := List.exists_of_findSome?_eq_some hn
  exact (h m hm cs hcs).2 n hn

end Local

theorem word_eq_some : word w cs = some k ↔
    (cs.take w.length).map Char.toUpper = w.toList ∧ w.length = k := by
  simp [word]

section

variable {h : Char} {t : List Char} (hh : isNameChar h = false)
include hh

theorem local_word (hupper : h.toUpper = h)
    (hw : ∀ c ∈ w.toList, isNameChar c = true) : Local (h :: t) (word w) := by
  intro cs hcs
  by_cases hle : w.length ≤ cs.length
  · refine ⟨?_, fun n hn => (word_eq_some.mp hn).2 ▸ hle⟩
    unfold word
    rw [take_append_of_le_length hle]
  · have halone : word w cs = none := by
      refine Option.eq_none_iff_forall_ne_some.mpr fun n hn => ?_
      have := congrArg List.length (word_eq_some.mp hn).1
      rw [length_map, length_take, String.length_toList] at this
      omega
    have hcontext : word w (cs ++ h :: t) = none := by
      refine Option.eq_none_iff_forall_ne_some.mpr fun n hn => ?_
      have hmem : h ∈ (cs ++ h :: t).take w.length := by
        simp [take_append, take_cons (by omega : 0 < w.length - cs.length)]
      have hname := hw h ((word_eq_some.mp hn).1 ▸ mem_map.mpr ⟨h, hmem, hupper⟩)
      rw [hh] at hname
      cases hname
    rw [halone, hcontext]
    exact ⟨rfl, fun n hn => nomatch hn⟩

omit hh in
theorem local_char (hc : c ≠ h) : Local (h :: t) (char c) := by
  intro cs hcs
  unfold char
  cases cs with
  | nil => simp [hc]
  | cons d ds =>
    refine ⟨rfl, fun n hn => ?_⟩
    dsimp only at hn
    split_ifs at hn
    cases hn
    simp

omit hh in
theorem local_run (hp : p h = false) : Local (h :: t) (run p) := by
  intro cs hcs
  have htake : (cs ++ h :: t).takeWhile p = cs.takeWhile p := by
    rw [takeWhile_append]
    split_ifs with hall
    · rw [takeWhile_cons_of_neg (by simp [hp]), append_nil]
      exact ((List.takeWhile_prefix p).eq_of_length hall).symm
    · rfl
  unfold run
  rw [htake]
  refine ⟨rfl, fun n hn => ?_⟩
  have hle : (cs.takeWhile p).length ≤ cs.length := (List.takeWhile_prefix p).length_le
  split at hn
  · cases hn
  · cases hn
    omega

theorem local_atWordEnd : Local (h :: t) atWordEnd := by
  intro cs hcs
  unfold atWordEnd
  cases cs with
  | nil =>
    unfold isNameChar at hh
    simp only [Bool.or_eq_false_iff] at hh
    simp [hh.1.1]
  | cons c cs =>
    refine ⟨rfl, fun n hn => ?_⟩
    dsimp only at hn
    split_ifs at hn
    cases hn
    exact Nat.zero_le _

end

/-! ### What follows a name -/

/-- What stands behind a name in a call. -/
inductive Stop : List Char → Prop
  | nothing : Stop []
  | comma (t : List Char) : Stop (',' :: t)
  | closing (t : List Char) : Stop (')' :: t)
  | by_ (t : List Char) : Stop (' ' :: 'B' :: 'Y' :: ' ' :: t)

theorem toUpper_cases (c : Char) : c.toNat ∈ List.range' 97 26 ∨ c.toUpper = c := by
  by_cases h : 'a'.val ≤ c.val ∧ c.val ≤ 'z'.val
  · have hlow : 97 ≤ c.toNat := UInt32.le_iff_toNat_le.mp h.1
    have hhigh : c.toNat ≤ 122 := UInt32.le_iff_toNat_le.mp h.2
    exact .inl (mem_range'_1.mpr ⟨hlow, by omega⟩)
  · exact .inr (dif_neg h)

theorem eq_of_toUpper (h : c.toUpper = d) (hd : isWord d = false) : c = d := by
  have hletters : ∀ n ∈ List.range' 97 26, isWord (Char.ofNat n).toUpper = true := by decide
  obtain hlow | hsm := toUpper_cases c
  · have hwd := hletters c.toNat hlow
    rw [Char.ofNat_toNat, h, hd] at hwd
    cases hwd
  · rwa [hsm] at h

theorem ne_of_isWord (hc : isWord c = true) (hd : isWord d = false) : c ≠ d := by
  rintro rfl
  rw [hc] at hd
  cases hd

theorem not_isBlank_of_isNameChar (h : isNameChar c = true) : Text.isBlank c = false := by
  have hranges : ∀ e ∈ Text.blankRanges, ∀ n ∈ List.range' e.1 (e.2 + 1 - e.1),
      isNameChar (Char.ofNat n) = false := by decide
  by_contra hbl
  rw [Bool.not_eq_false] at hbl
  obtain ⟨⟨lo, hi⟩, he, hc⟩ := any_eq_true.mp hbl
  obtain ⟨hlo, hhi⟩ : lo ≤ c.toNat ∧ c.toNat ≤ hi := by simpa using hc
  have hn := hranges _ he c.toNat (by rw [mem_range'_1]; dsimp only; omega)
  rw [Char.ofNat_toNat, h] at hn
  cases hn

/-! ### Rules for texts that start with a word -/

/-- A matcher that takes nothing of a text that starts with a word. -/
def Spurns (m : Matcher) : Prop := ∀ c t, isWord c = true → m (c :: t) = none

theorem spurns_word (hw : w.toList.head?.any (!isWord ·) = true) : Spurns (word w) := by
  intro c t hc
  refine Option.eq_none_iff_forall_ne_some.mpr fun n hn => ?_
  have hwd := (word_eq_some.mp hn).1
  cases hds : w.toList with
  | nil =>
    rw [hds] at hw
    cases hw
  | cons d ds =>
    have hd : isWord d = false := by simpa [hds] using hw
    rw [← String.length_toList, hds, length_cons, take_succ_cons] at hwd
    exact ne_of_isWord hc hd (eq_of_toUpper (List.cons.inj hwd).1 hd)

theorem spurns_char (hd : isWord d = false) : Spurns (char d) :=
  fun _ _ hc => if_neg (by simpa using (ne_of_isWord hc hd).symm)

theorem spurns_quotedBy (hd : isWord d = false) : Spurns (quotedBy d) :=
  fun _ _ hc => if_neg (by simpa using ne_of_isWord hc hd)

theorem Spurns.thenMatch {a : Matcher} (ha : Spurns a) (b : Matcher) : Spurns (thenMatch a b) := by
  intro c t hc
  unfold Token.thenMatch
  rw [ha c t hc]
  rfl

theorem Spurns.anyOf (h : ∀ m ∈ ms, Spurns m) : Spurns (anyOf ms) :=
  fun c t hc => List.findSome?_eq_none_iff.mpr fun m hm => h m hm c t hc

theorem spurns_words (ws : List String) (h : ∀ w ∈ ws, w.toList.head?.any (!isWord ·) = true) :
    Spurns (anyOf (ws.map word)) :=
  .anyOf (forall_mem_map.mpr fun w hw => spurns_word (h w hw))

theorem spurns_chars (ds : List Char) (h : ∀ d ∈ ds, isWord d = false) :
    Spurns (anyOf (ds.map char)) :=
  .anyOf (forall_mem_map.mpr fun d hd => spurns_char (h d hd))

theorem spurns_blockComment : Spurns blockComment := by
  intro c t hc
  unfold blockComment
  split
  · next heq =>
    cases heq
    cases hc
  · rfl

theorem spurns_lineBreak : Spurns lineBreak := by
  intro c t hc
  unfold lineBreak
  split
  case h_4 => rfl
  all_goals
    next heq =>
    cases heq
    cases hc

theorem spurns_backquoted : Spurns backquoted := by
  intro c t hc
  refine if_neg fun h => ?_
  rw [← Char.ofNat_toNat c, beq_iff_eq.mp h] at hc
  cases hc

theorem spurns_bracketed : Spurns bracketed := by
  intro c t hc
  unfold bracketed
  split
  · next heq =>
    cases heq
    cases hc
  · rfl

/-! ### Rules for words -/

/-- The characters that end a name in a call. -/
def stops : List Char := [',', ')', ' ']

section

variable {rest : List Char} (hrest : Stop rest)
include hrest

theorem Stop.isLocal (hm : ∀ h ∈ stops, ∀ t, Local (h :: t) m) : Local rest m := by
  cases hrest with
  | nothing =>
    intro cs hcs
    rw [append_nil]
    exact ⟨rfl, (hm ',' (by decide) [] cs hcs).2⟩
  | comma t => exact hm _ (by decide) _
  | closing t => exact hm _ (by decide) _
  | by_ t => exact hm _ (by decide) _

theorem Stop.word (hw : ∀ c ∈ w.toList, isNameChar c = true) : Local rest (word w) := by
  have hstop : ∀ h ∈ stops, isNameChar h = false ∧ h.toUpper = h := by decide
  exact hrest.isLocal fun h hh t => local_word (hstop h hh).1 (hstop h hh).2 hw

theorem Stop.char (hc : c ∉ stops) : Local rest (char c) :=
  hrest.isLocal fun _ hh _ => local_char fun heq => hc (heq ▸ hh)

theorem Stop.run (hp : ∀ h ∈ stops, p h = false) : Local rest (run p) :=
  hrest.isLocal fun h hh _ => local_run (hp h hh)

theorem Stop.atWordEnd : Local rest atWordEnd := by
  have hstop : ∀ h ∈ stops, isNameChar h = false := by decide
  exact hrest.isLocal fun h hh t => local_atWordEnd (hstop h hh)

theorem Stop.oneOf (hc : c ∉ stops) (hd : d ∉ stops) :
    Local rest (anyOf [Token.char c, Token.char d]) := by
  refine .anyOf fun m hm => ?_
  simp only [mem_cons, not_mem_nil, or_false] at hm
  obtain rfl | rfl := hm
  · exact hrest.char hc
  · exact hrest.char hd

theorem Stop.hexadecimal : Local rest hexadecimal :=
  (hrest.char (by decide)).optional.thenMatch <| (hrest.char (by decide)).thenMatch <|
    (hrest.oneOf (by decide) (by decide)).thenMatch (hrest.run (by decide))

theorem Stop.scientific : Local rest scientific := by
  have hdig : Local rest (Token.run Text.isDigit) := hrest.run (by decide)
  have hmin : Local rest minus := (hrest.char (by decide)).optional
  exact hmin.thenMatch <| hdig.thenMatch <|
    ((hrest.char (by decide)).thenMatch hdig).optional.thenMatch <|
      (hrest.oneOf (by decide) (by decide)).thenMatch (hmin.thenMatch hdig)

theorem takeWhile_append_stop (hp : ∀ h ∈ stops, p h = false)
    (cs : List Char) : (cs ++ rest).takeWhile p = cs.takeWhile p := by
  have hno : rest.takeWhile p = [] := by
    cases hrest with
    | nothing => rfl
    | comma t => simp [hp ',' (by decide)]
    | closing t => simp [hp ')' (by decide)]
    | by_ t => simp [hp ' ' (by decide)]
  rw [takeWhile_append, hno, append_nil]
  split_ifs with hall
  · exact ((List.takeWhile_prefix p).eq_of_length hall).symm
  · rfl

theorem notBeforeLetter_append {low high : Nat} (hhigh : high ≤ cs.length) :
    notBeforeLetter low high (cs ++ rest) = notBeforeLetter low high cs := by
  unfold notBeforeLetter
  refine List.find?_congr fun n hn => ?_
  have hle : n ≤ cs.length := by
    obtain ⟨k, -, rfl⟩ := mem_map.mp hn
    omega
  rw [drop_append_of_le_length hle]
  cases cs.drop n with
  | cons d ds => rfl
  | nil => cases hrest <;> rfl

end

theorem dropWhile_append_or (hcs : ∀ c ∈ cs, isNameChar c = true) (rest : List Char)
    (p : Char → Bool) :
    (∃ d ds, (cs ++ rest).dropWhile p = d :: ds ∧ isNameChar d = true ∧ p d = false) ∨
      (cs ++ rest).dropWhile p = rest.dropWhile p := by
  induction cs with
  | nil => exact .inr rfl
  | cons c cs ih =>
    rw [forall_mem_cons] at hcs
    cases hpc : p c with
    | true => simpa [hpc] using ih hcs.2
    | false => exact .inl ⟨c, cs ++ rest, by simp [hpc], hcs.1, hpc⟩

theorem drop_length_takeWhile (p : Char → Bool) (cs : List Char) :
    cs.drop (cs.takeWhile p).length = cs.dropWhile p := by
  have hdrop : (cs.takeWhile p ++ cs.dropWhile p).drop (cs.takeWhile p).length = cs.dropWhile p :=
    drop_left
  rwa [takeWhile_append_dropWhile] at hdrop

section

variable {rest : List Char} (hc : isWord c = true) (hcs : ∀ d ∈ c :: cs, isNameChar d = true)
  (hrest : Stop rest)
include hcs hrest

include hc in
theorem decimal_append : decimal (c :: cs ++ rest) = none := by
  unfold decimal
  simp only [cons_append]
  rw [spurns_char (by decide) _ _ hc]
  simp only [Option.getD_none, drop_zero, drop_length_takeWhile]
  split
  · next more hmore =>
    exfalso
    rw [← cons_append] at hmore
    obtain ⟨d, ds, hd, hn, -⟩ | hsm := dropWhile_append_or hcs rest Text.isDigit
    · rw [hd] at hmore
      cases hmore
      cases hn
    · rw [hsm] at hmore
      cases hrest <;> cases hmore
  · rfl

theorem behindIdentifier {n : Nat} (hn : identifier (c :: cs ++ rest) = some n) :
    (∃ d ds, (c :: cs ++ rest).drop n = d :: ds ∧ isNameChar d = true) ∨
      (c :: cs ++ rest).drop n = rest := by
  unfold identifier at hn
  simp only [cons_append] at hn
  split_ifs at hn
  cases hn
  rw [cons_append, Nat.add_comm, drop_succ_cons, drop_length_takeWhile]
  rw [forall_mem_cons] at hcs
  obtain ⟨d, ds, hd, hname, -⟩ | hsm := dropWhile_append_or hcs.2 rest isWord
  · exact .inl ⟨d, ds, hd, hname⟩
  · rw [hsm]
    cases hrest <;> exact .inr rfl

theorem beforeDot_append : beforeDot (c :: cs ++ rest) = none := by
  unfold beforeDot
  cases hn : identifier (c :: cs ++ rest) with
  | none => rfl
  | some n =>
    simp only [Option.bind_eq_bind, Option.bind_some]
    obtain ⟨d, ds, hd, hname⟩ | hsm := behindIdentifier hcs hrest hn
    · rw [hd, dropWhile_cons_of_neg (by simp [not_isBlank_of_isNameChar hname])]
      split
      · next heq =>
        cases heq
        cases hname
      · rfl
    · rw [hsm]
      cases hrest <;> rfl

theorem beforeParenthesis_append : beforeParenthesis (c :: cs ++ rest) = none := by
  unfold beforeParenthesis
  cases hn : identifier (c :: cs ++ rest) with
  | none => rfl
  | some n =>
    simp only [Option.bind_eq_bind, Option.bind_some]
    obtain ⟨d, ds, hd, hname⟩ | hsm := behindIdentifier hcs hrest hn
    · rw [hd]
      split
      · next heq =>
        cases heq
        cases hname
      · rfl
    · rw [hsm]
      cases hrest <;> rfl

omit hcs in
include hc in
theorem integer_append : integer (c :: cs ++ rest) = integer (c :: cs) := by
  have hdig := takeWhile_append_stop hrest (p := Text.isDigit) (by decide) (c :: cs)
  unfold integer
  simp only [cons_append] at hdig ⊢
  rw [spurns_char (by decide) _ _ hc, spurns_char (by decide) _ _ hc]
  simp only [Option.getD_none, drop_zero, hdig]
  split_ifs
  · rfl
  · rw [← cons_append]
    exact notBeforeLetter_append hrest (by
      have := (List.takeWhile_prefix (l := c :: cs) Text.isDigit).length_le
      omega)

end

/-! Phrases of several words: a name has no blanks in it, so it could only be the first word. -/

section

variable {rest : List Char} (hcs : ∀ c ∈ cs, isNameChar c = true) (hrest : Stop rest)
include hcs hrest

theorem blanks_append (hw : ∀ c ∈ w.toList, isNameChar c = true)
    (hk : word w (cs ++ rest) = some k) :
    blanks ((cs ++ rest).drop k) = none ∨ cs.map Char.toUpper = w.toList ∧ k = cs.length ∧
        ∃ t, rest = ' ' :: 'B' :: 'Y' :: ' ' :: t := by
  obtain ⟨hsm, hle⟩ := hrest.word hw cs hcs
  rw [hsm] at hk
  have hle := hle k hk
  rw [drop_append_of_le_length hle]
  cases hdrop : cs.drop k with
  | cons d ds =>
    have hd : Text.isBlank d = false :=
      not_isBlank_of_isNameChar (hcs d (mem_of_mem_drop (hdrop ▸ mem_cons_self ..)))
    simp [blanks, hd]
  | nil =>
    have hlen := drop_eq_nil_iff.mp hdrop
    have hall : cs.map Char.toUpper = w.toList := by
      obtain ⟨hwd, rfl⟩ := word_eq_some.mp hk
      rwa [take_of_length_le hlen] at hwd
    cases hrest with
    | nothing => exact .inl rfl
    | comma t => exact .inl rfl
    | closing t => exact .inl rfl
    | by_ t => exact .inr ⟨hall, le_antisymm hle hlen, t, rfl⟩

theorem phrase_append {v : String} (hw : ∀ c ∈ w.toList, isNameChar c = true)
    (hby : cs.map Char.toUpper = w.toList → ∀ t, phrase (v :: ws) ('B' :: 'Y' :: ' ' :: t) = none) :
    phrase (w :: v :: ws) (cs ++ rest) = none := by
  change thenMatch (word w) (thenMatch blanks (phrase (v :: ws))) (cs ++ rest) = none
  unfold thenMatch
  cases hk : word w (cs ++ rest) with
  | none => rfl
  | some k =>
    simp only [Option.bind_eq_bind, Option.bind_some]
    obtain hno | ⟨hall, rfl, t, rfl⟩ := blanks_append hcs hrest hw hk
    · rw [hno]
      rfl
    · have hblanks : blanks (' ' :: 'B' :: 'Y' :: ' ' :: t) = some 1 := rfl
      rw [drop_left, hblanks, Option.bind_some, drop_one, tail_cons, hby hall]
      rfl

/-- A phrase that does not go on with `BY` is looked for in the name alone. -/
theorem phrase_same (hws : (∀ w ∈ ws, ∀ c ∈ w.toList, isNameChar c = true) ∧
    ∀ v ∈ ws.tail, word v ['B', 'Y'] = none) : phrase ws (cs ++ rest) = phrase ws cs := by
  obtain ⟨hname, hby⟩ := hws
  match ws with
  | [] => exact (hrest.atWordEnd cs hcs).1
  | [w] => exact ((hrest.word (hname w (by simp))).thenMatch hrest.atWordEnd cs hcs).1
  | w :: v :: ws =>
    have hnext : ∀ t, phrase (v :: ws) ('B' :: 'Y' :: ' ' :: t) = none := by
      intro t
      have hv : word v (['B', 'Y'] ++ ' ' :: t) = none := by
        rw [(local_word (by decide) (by decide) (hname v (by simp)) ['B', 'Y'] (by decide)).1]
        exact hby v (by simp)
      change word v ('B' :: 'Y' :: ' ' :: t) = none at hv
      cases ws <;> simp [phrase, thenMatch, hv]
    have halone := phrase_append hcs .nothing (hname w (by simp)) fun _ => hnext
    rw [append_nil] at halone
    rw [halone, phrase_append hcs hrest (hname w (by simp)) fun _ => hnext]

theorem phrases_same (wss : List (List String)) (hwss : ∀ ws ∈ wss,
    (∀ w ∈ ws, ∀ c ∈ w.toList, isNameChar c = true) ∧ ∀ v ∈ ws.tail, word v ['B', 'Y'] = none) :
    anyOf (wss.map phrase) (cs ++ rest) = anyOf (wss.map phrase) cs :=
  anyOf_congr (forall_mem_map.mpr fun ws hws => phrase_same hcs hrest (hwss ws hws))

theorem wordBlanks_eq_some (hws : ∀ w ∈ ws, ∀ c ∈ w.toList, isNameChar c = true)
    (h : wordBlanks ws (cs ++ rest) = some k) :
    k = cs.length + 1 ∧ ∃ t, rest = ' ' :: 'B' :: 'Y' :: ' ' :: t := by
  obtain ⟨m, hm, h⟩ := List.exists_of_findSome?_eq_some h
  obtain ⟨w, hw, rfl⟩ := mem_map.mp hm
  obtain ⟨j, hj, h⟩ := Option.bind_eq_some_iff.mp h
  obtain ⟨i, hi, h⟩ := Option.bind_eq_some_iff.mp h
  obtain hno | ⟨-, rfl, t, rfl⟩ := blanks_append hcs hrest (hws w hw) hj
  · rw [hno] at hi
    cases hi
  · rw [drop_left] at hi
    cases hi
    cases h
    exact ⟨rfl, t, rfl⟩

theorem sided_eq_none (sides : List String)
    (hsides : ∀ w ∈ sides, ∀ c ∈ w.toList, isNameChar c = true)
    (hby : ∀ t, m ('B' :: 'Y' :: ' ' :: t) = none) (hm : m (cs ++ rest) = none) :
    thenMatch (optional (wordBlanks sides)) m (cs ++ rest) = none := by
  unfold thenMatch optional
  cases hk : wordBlanks sides (cs ++ rest) with
  | none => simp [hm]
  | some k =>
    obtain ⟨rfl, t, rfl⟩ := wordBlanks_eq_some hcs hrest hsides hk
    rw [Option.getD_some, Option.bind_eq_bind, Option.bind_some, drop_append,
      drop_of_length_le (Nat.le_succ _), Nat.add_sub_cancel_left, nil_append, drop_one, tail_cons,
      hby t]
    rfl

omit hrest in
theorem wordBlanks_alone (ws : List String)
    (hws : ∀ w ∈ ws, ∀ c ∈ w.toList, isNameChar c = true) : wordBlanks ws cs = none := by
  refine Option.eq_none_iff_forall_ne_some.mpr fun k hk => ?_
  obtain ⟨-, t, ht⟩ := wordBlanks_eq_some hcs .nothing hws (by rwa [append_nil])
  cases ht

theorem joinPhrase_append (hno : ∀ n, joinPhrase cs ≠ some (n + 1)) :
    joinPhrase (cs ++ rest) = none := by
  have hj : phrase ["JOIN"] (cs ++ rest) = none := by
    rw [phrase_same hcs hrest (by decide)]
    refine Option.eq_none_iff_forall_ne_some.mpr fun k hk => ?_
    -- A name that begins with the word itself is a join already without what follows it.
    obtain ⟨n, rfl⟩ : ∃ n, k = n + 1 := by
      obtain ⟨n, hn, hk⟩ := Option.bind_eq_some_iff.mp hk
      obtain ⟨m, -, hk⟩ := Option.bind_eq_some_iff.mp hk
      obtain ⟨-, rfl⟩ := word_eq_some.mp hn
      cases hk
      exact ⟨3 + m, Nat.add_right_comm ..⟩
    have hside := wordBlanks_alone hcs ["LEFT", "RIGHT", "FULL"] (by decide)
    have hkind := wordBlanks_alone hcs ["INNER", "OUTER", "STRAIGHT"] (by decide)
    exact hno n (by simp [joinPhrase, orMatch, thenMatch, optional, hside, hkind, hk])
  unfold joinPhrase orMatch
  rw [sided_eq_none hcs hrest _ (by decide) (fun _ => rfl)
      (sided_eq_none hcs hrest _ (by decide) (fun _ => rfl) hj),
    sided_eq_none hcs hrest _ (by decide) (fun _ => rfl) hj]
  rfl

end

end SemanticLayer.Sql.Token
