import SemanticLayer.Proofs.Sorting
import SemanticLayer.Proofs.Value.Definition
import SemanticLayer.Value.Json

/-!
# Written texts can be told apart

A text that was written in quotes is read back as it was (`text?_escaped`).  So a map of texts can
be told from what is written for it (`render_texts_inj`), and if its entries are sorted before,
still the first entry of every key can (`find?_eq_of_byKey_eq`).
-/

namespace SemanticLayer

open List

variable {c : Char} {es es' : List (String × String)} {n : Nat}

namespace Json

/-! ### Escapes -/

theorem hexPadded_four (h : n < 65536) :
    Text.hexPadded 4 n = [(n / 4096).digitChar, (n / 256 % 16).digitChar, (n / 16 % 16).digitChar,
      (n % 16).digitChar] := by
  have hsm : ∀ {m : Nat}, m < 16 → Nat.toDigits 16 m = [m.digitChar] := fun hm =>
    Nat.toDigits_of_lt_base hm
  have hlarge : ∀ {m : Nat}, 16 ≤ m →
      Nat.toDigits 16 m = Nat.toDigits 16 (m / 16) ++ [(m % 16).digitChar] := fun hm =>
    Nat.toDigits_of_base_le (by omega) hm
  unfold Text.hexPadded
  rcases Nat.lt_or_ge n 16 with h1 | h1
  · have e1 : n / 4096 = 0 := by omega
    have e2 : n / 256 % 16 = 0 := by omega
    have e3 : n / 16 % 16 = 0 := by omega
    have e4 : n % 16 = n := by omega
    rw [hsm h1, e1, e2, e3, e4]
    rfl
  rcases Nat.lt_or_ge n 256 with h2 | h2
  · have e1 : n / 4096 = 0 := by omega
    have e2 : n / 256 % 16 = 0 := by omega
    have e3 : n / 16 % 16 = n / 16 := by omega
    rw [hlarge h1, hsm (m := n / 16) (by omega), e1, e2, e3]
    rfl
  rcases Nat.lt_or_ge n 4096 with h3 | h3
  · have e1 : n / 4096 = 0 := by omega
    have e2 : n / 256 % 16 = n / 16 / 16 := by omega
    rw [hlarge h1, hlarge (m := n / 16) (by omega), hsm (m := n / 16 / 16) (by omega), e1, e2]
    rfl
  · have e1 : n / 4096 = n / 16 / 16 / 16 := by omega
    have e2 : n / 256 % 16 = n / 16 / 16 % 16 := by omega
    rw [hlarge h1, hlarge (m := n / 16) (by omega), hlarge (m := n / 16 / 16) (by omega),
      hsm (m := n / 16 / 16 / 16) (by omega), e1, e2]
    rfl

theorem hexValue?_digitChar : ∀ d < 16, hexValue? d.digitChar = some d := by decide

theorem hex4?_hexPadded (h : n < 65536) (rest : List Char) :
    hex4? (Text.hexPadded 4 n ++ rest) = some (n, rest) := by
  rw [hexPadded_four h]
  simp only [cons_append, nil_append, hex4?]
  rw [hexValue?_digitChar _ (by omega), hexValue?_digitChar _ (by omega),
    hexValue?_digitChar _ (by omega), hexValue?_digitChar _ (by omega)]
  simp only [Option.bind_eq_bind, Option.bind_some, Option.some.injEq, Prod.mk.injEq, and_true]
  omega

theorem toNat_ne_surrogate (c : Char) : ¬ (0xD800 ≤ c.toNat ∧ c.toNat < 0xE000) := by
  have hvalid := c.valid
  rintro ⟨h1, h2⟩
  rcases hvalid with h | ⟨h, -⟩
  · change c.toNat < 0xD800 at h
    omega
  · change 0xDFFF < c.toNat at h
    omega

theorem toNat_lt (c : Char) : c.toNat < 0x110000 := by
  rcases c.valid with h | ⟨-, h⟩
  · change c.toNat < 0xD800 at h
    omega
  · exact h

theorem escape?_unit16 (h : c.toNat < 0x10000) (rest : List Char) :
    escape? ((unit16 c.toNat).tail ++ rest) = some (c, rest) := by
  have hhigh : ¬ (0xD800 ≤ c.toNat ∧ c.toNat < 0xDC00) := fun h =>
    toNat_ne_surrogate c ⟨h.1, by omega⟩
  have hlow : ¬ (0xDC00 ≤ c.toNat ∧ c.toNat < 0xE000) := fun h =>
    toNat_ne_surrogate c ⟨by omega, h.2⟩
  change escape? ('u' :: (Text.hexPadded 4 c.toNat ++ rest)) = _
  rw [escape?, hex4?_hexPadded h]
  simp only [Option.bind_eq_bind, Option.bind_some, Bool.and_eq_true, decide_eq_true_eq]
  rw [if_neg hhigh, if_neg hlow, Char.ofNat_toNat]

theorem escape?_surrogates {hi lo : Nat} (hhi : 0xD800 ≤ hi ∧ hi < 0xDC00)
    (hlo : 0xDC00 ≤ lo ∧ lo < 0xE000) (rest : List Char) :
    escape? ((unit16 hi).tail ++ (unit16 lo ++ rest))
      = some (Char.ofNat (0x10000 + (hi - 0xD800) * 1024 + (lo - 0xDC00)), rest) := by
  change escape? ('u' :: (Text.hexPadded 4 hi ++
    ('\\' :: 'u' :: (Text.hexPadded 4 lo ++ rest)))) = _
  rw [escape?, hex4?_hexPadded (by omega)]
  simp only [Option.bind_eq_bind, Option.bind_some, Bool.and_eq_true, decide_eq_true_eq]
  rw [if_pos hhi, hex4?_hexPadded (by omega)]
  simp only [Option.bind_some]
  rw [if_pos hlo]

theorem escape?_pair (h : 0x10000 ≤ c.toNat) (rest : List Char) :
    escape? ((unit16 (0xD800 + (c.toNat - 0x10000) / 1024)).tail ++
      (unit16 (0xDC00 + (c.toNat - 0x10000) % 1024) ++ rest)) = some (c, rest) := by
  have hlt := toNat_lt c
  have hnum : 0x10000 + (0xD800 + (c.toNat - 0x10000) / 1024 - 0xD800) * 1024
      + (0xDC00 + (c.toNat - 0x10000) % 1024 - 0xDC00) = c.toNat := by omega
  rw [escape?_surrogates (by omega) (by omega), hnum, Char.ofNat_toNat]

/-! ### Texts in quotes -/

theorem text?_plain (hquote : c ≠ '"') (hslash : c ≠ '\\') (n : Nat)
    (acc rest : List Char) : text? (n + 1) acc (c :: rest) = text? n (c :: acc) rest := by
  simp [text?, hquote, hslash]

theorem text?_escape {cs rest : List Char} (h : escape? cs = some (c, rest)) (n : Nat)
    (acc : List Char) : text? (n + 1) acc ('\\' :: cs) = text? n (c :: acc) rest := by
  simp [text?, h]

theorem text?_escapeChar (c : Char) (n : Nat) (acc rest : List Char) :
    text? (n + 1) acc (escapeChar c ++ rest) = text? n (c :: acc) rest := by
  unfold escapeChar
  split_ifs with h1 h2 h3 h4 h5 h6 h7 h8
  · rcases (by simpa using h1 : c = '"' ∨ c = '\\') with rfl | rfl
    · exact text?_escape rfl n acc
    · exact text?_escape rfl n acc
  · rw [show c = '\n' by simpa using h2]
    exact text?_escape rfl n acc
  · rw [show c = '\r' by simpa using h3]
    exact text?_escape rfl n acc
  · rw [show c = '\t' by simpa using h4]
    exact text?_escape rfl n acc
  · rw [show c = Char.ofNat 8 by rw [← Char.ofNat_toNat c, show c.toNat = 8 by simpa using h5]]
    exact text?_escape rfl n acc
  · rw [show c = Char.ofNat 12 by rw [← Char.ofNat_toNat c, show c.toNat = 12 by simpa using h6]]
    exact text?_escape rfl n acc
  · have hne : c ≠ '"' ∧ c ≠ '\\' := by simpa using h1
    exact text?_plain hne.1 hne.2 n acc rest
  · exact text?_escape (escape?_unit16 h8 rest) n acc
  · have hr := escape?_pair (c := c) (by omega) rest
    rw [append_assoc]
    exact text?_escape hr n acc

theorem text?_escaped (cs : List Char) (h : cs.length < n) (acc rest : List Char) :
    text? n acc (cs.flatMap escapeChar ++ '"' :: rest)
      = some (String.ofList (acc.reverse ++ cs), rest) := by
  induction cs generalizing n acc with
  | nil =>
    obtain ⟨m, rfl⟩ : ∃ m, n = m + 1 := ⟨n - 1, by simp at h; omega⟩
    simp [text?]
  | cons c cs ih =>
    obtain ⟨m, rfl⟩ : ∃ m, n = m + 1 := ⟨n - 1, by simp at h; omega⟩
    have hm : cs.length < m := by simpa using h
    rw [flatMap_cons, append_assoc, text?_escapeChar, ih hm]
    simp

theorem escaped_inj {s t : String} {rest rest' : List Char}
    (h : s.toList.flatMap escapeChar ++ '"' :: rest = t.toList.flatMap escapeChar ++ '"' :: rest') :
    s = t ∧ rest = rest' := by
  have hs := text?_escaped s.toList (n := s.toList.length + t.toList.length + 1) (by omega) [] rest
  have ht := text?_escaped t.toList (n := s.toList.length + t.toList.length + 1) (by omega) [] rest'
  rw [h, ht] at hs
  simpa [eq_comm] using hs

/-! ### Maps of texts -/

def entryChars (e : String × String) : List Char :=
  '"' :: (e.1.toList.flatMap escapeChar ++ '"' :: ':' :: ' ' :: '"' ::
    (e.2.toList.flatMap escapeChar ++ ['"']))

/-- Entries with a comma before each of them, and the brace behind. -/
def closingChars (es : List (String × String)) : List Char :=
  es.flatMap (fun e => ',' :: ' ' :: entryChars e) ++ ['\x7d']

def texts (es : List (String × String)) : List (String × Value) :=
  es.map fun e => (e.1, .text e.2)

/-- The entries in ascending order of their keys. -/
def byKey (es : List (String × String)) : List (String × String) :=
  es.mergeSort fun a b => a.1 ≤ b.1

section

variable (es)

theorem closingChars_cons (e : String × String) :
    closingChars (e :: es) = ',' :: ' ' :: '"' :: (e.1.toList.flatMap escapeChar ++ '"' :: ':' ::
      ' ' :: '"' :: (e.2.toList.flatMap escapeChar ++ '"' :: closingChars es)) := by
  simp [closingChars, entryChars]

theorem toList_renderEntries :
    (renderEntries (texts es)).map String.toList = es.map entryChars := by
  induction es with
  | nil => rfl
  | cons e es ih =>
    change (renderText e.1 ++ ": " ++ renderText e.2).toList
      :: (renderEntries (texts es)).map String.toList = _
    rw [ih]
    simp [entryChars, renderText]

theorem intercalate_cons_eq (e : String × String) :
    [',', ' '].intercalate (((e :: es).map entryChars)) ++ ['\x7d']
      = entryChars e ++ closingChars es := by
  induction es generalizing e with
  | nil => simp [closingChars]
  | cons e' es ih =>
    rw [map_cons, map_cons, intercalate_cons_cons, append_assoc, ← map_cons, ih e']
    simp [closingChars]

theorem sortEntries_texts : sortEntries (texts es) = texts es := by
  induction es with
  | nil => rfl
  | cons e es ih =>
    change (e.1, sortKeys (.text e.2)) :: sortEntries (texts es) = _
    rw [ih]
    rfl

theorem sortKeys_texts : sortKeys (.map (texts es)) = .map (texts (byKey es)) := by
  rw [sortKeys, sortEntries_texts]
  unfold texts byKey
  rw [map_mergeSort]
  intro a _ b _
  rfl

theorem filter_byKey (k : String) :
    (byKey es).filter (·.1 == k) = es.filter (·.1 == k) :=
  filter_mergeSort (·.1) es k

end

theorem closingChars_inj (h : closingChars es = closingChars es') : es = es' := by
  induction es generalizing es' with
  | nil =>
    cases es' with
    | nil => rfl
    | cons e' es' => simp [closingChars] at h
  | cons e es ih =>
    cases es' with
    | nil => simp [closingChars] at h
    | cons e' es' =>
      rw [closingChars_cons, closingChars_cons] at h
      simp only [List.cons.injEq, true_and] at h
      obtain ⟨hkey, h⟩ := escaped_inj h
      simp only [List.cons.injEq, true_and] at h
      obtain ⟨hval, h⟩ := escaped_inj h
      rw [ih h, Prod.ext hkey hval]

theorem render_texts_inj (h : render (.map (texts es)) = render (.map (texts es'))) : es = es' := by
  have hchs : ∀ es, (render (.map (texts es))).toList
      = '\x7b' :: ([',', ' '].intercalate (es.map entryChars) ++ ['\x7d']) := by
    intro es
    rw [render, String.toList_append, String.toList_append, Text.join, String.toList_intercalate,
      toList_renderEntries]
    rfl
  have hli := congrArg String.toList h
  rw [hchs, hchs, List.cons.injEq] at hli
  cases es with
  | nil =>
    cases es' with
    | nil => rfl
    | cons e' es' =>
      simp [entryChars] at hli
  | cons e es =>
    cases es' with
    | nil =>
      simp [entryChars] at hli
    | cons e' es' =>
      rw [intercalate_cons_eq, intercalate_cons_eq] at hli
      refine closingChars_inj ?_
      simpa [closingChars] using hli.2

theorem find?_eq_of_byKey_eq (h : byKey es = byKey es')
    (k : String) : es.find? (·.1 == k) = es'.find? (·.1 == k) := by
  rw [← List.head?_filter, ← List.head?_filter, ← filter_byKey, h, filter_byKey]

end Json

end SemanticLayer
