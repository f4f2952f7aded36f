import SemanticLayer.Proofs.Sql.Matching

/-!
# Names in a call

A text that is one name by itself is cut off as the same name where it stands in a list of names,
so the tokens of such a list are its names with commas and blanks between them.
-/

namespace SemanticLayer.Sql.Token

open List

variable {before : Option Char} {c : Char} {cs rest : List Char} {k : Nat} {kind : TokenKind}
  {n w : String} {r : Rule} {m : Matcher}

variable {p : Char → Bool}

/-! ### Rules -/

/-- What one rule says about the start of a text. -/
def attempt (before : Option Char) (cs : List Char) (r : Rule) : Option (TokenKind × Nat) :=
  match r.take before cs with
  | some (n + 1) => some (r.kind (cs.take (n + 1)), n + 1)
  | _ => none

theorem nextToken_eq (before : Option Char) (cs : List Char) :
    nextToken before cs = (rules.findSome? (attempt before cs)).getD (.error, 1) := rfl

/-! ### Plain names -/

theorem attempt_rule :
    attempt before cs (rule kind m) = none ↔ ∀ n, m cs ≠ some (n + 1) := by
  unfold attempt
  constructor
  · intro h n hn
    simp [rule, hn] at h
  · intro h
    split
    · next n hn => exact absurd hn (h n)
    · rfl

theorem attempt_eq_none {before' : Option Char} {cs' : List Char}
    (h : attempt before cs r = none) (hsm : r.take before' cs' = r.take before cs) :
    attempt before' cs' r = none := by
  unfold attempt at h ⊢
  rw [hsm]
  split at h
  · cases h
  · rfl

theorem attempt_notAfter (h : m cs = none) :
    attempt before cs (ruleNotAfter p kind m) = none := by
  unfold attempt ruleNotAfter
  dsimp only
  rw [h, ite_self]

theorem upper_of_map (hw : ∀ c ∈ w.toList, c.isUpper = true)
    (h : cs.map Char.toUpper = w.toList) : Text.upper (String.ofList cs) = w := by
  have hletters : ∀ n ∈ List.range' 65 26 ++ List.range' 97 26,
      Text.upperChars (Char.ofNat n) = [(Char.ofNat n).toUpper] := by decide
  have hchs : ∀ c ∈ cs, Text.upperChars c = [c.toUpper] := by
    intro c hc
    have hup : c.toUpper.isUpper = true := hw _ (h ▸ mem_map_of_mem hc)
    rw [← Char.ofNat_toNat c]
    refine hletters c.toNat ?_
    rw [mem_append, mem_range'_1, mem_range'_1]
    obtain hlow | hsm := toUpper_cases c
    · exact .inr (mem_range'_1.mp hlow)
    · rw [hsm, Char.isUpper, decide_eq_true_eq] at hup
      have h1 : 65 ≤ c.toNat := UInt32.le_iff_toNat_le.mp hup.1
      have h2 : c.toNat ≤ 90 := UInt32.le_iff_toNat_le.mp hup.2
      omega
  have hall : cs.flatMap Text.upperChars = cs.map Char.toUpper := by
    rw [flatMap_def, map_congr_left hchs, ← flatMap_def, map_eq_flatMap]
  rw [Text.upper, String.toList_ofList, hall, h, String.ofList_toList]

section

variable (hc : isWord c = true) (hcs : ∀ d ∈ c :: cs, isNameChar d = true) (hrest : Stop rest)
  (hbefore : before = some '(' ∨ before = some ' ') 
include hc hcs hrest hbefore

theorem attempt_append (hname : wordKind (String.ofList (c :: cs)) = .name)
    (halone : ∀ r ∈ rules.take 38, attempt none (c :: cs) r = none) :
    ∀ r ∈ rules.take 38, attempt before (c :: cs ++ rest) r = none := by
  have hsm : ∀ {kind m}, attempt none (c :: cs) (rule kind m) = none →
      m (c :: cs ++ rest) = m (c :: cs) → attempt before (c :: cs ++ rest) (rule kind m) = none :=
    fun h heq => attempt_eq_none h heq
  have hno : ∀ {kind m}, m (c :: cs ++ rest) = none →
      attempt before (c :: cs ++ rest) (rule kind m) = none :=
    fun h => attempt_rule.mpr fun n hn => by rw [h] at hn; cases hn
  have hreserved : ∀ {w : String}, (∀ c ∈ w.toList, c.isUpper = true) →
      (∀ c ∈ w.toList, isNameChar c = true) →
      ((keywords.find? (·.1 == w)).map (·.2)).getD .name ≠ .name →
      phrase [w, "BY"] (c :: cs ++ rest) = none := by
    intro w hupper hw hk
    refine phrase_append hcs hrest hw fun h => absurd ?_ hk
    rw [← upper_of_map hupper h]
    exact hname
  simp only [rules, take_succ_cons, forall_mem_cons] at halone ⊢
  obtain ⟨h0, h1, h2, h3, h4, h5, h6, h7, h8, h9, h10, h11, h12, h13, h14, h15, h16, h17, h18, h19,
    h20, h21, h22, h23, h24, h25, h26, h27, h28, h29, h30, h31, h32, h33, h34, h35, h36, h37, -⟩ :=
    halone
  refine ⟨hno ((spurns_words ["--", "# "] (by decide)).thenMatch _ _ _ hc),
    hno (spurns_blockComment _ _ hc),
    hno (spurns_lineBreak _ _ hc), hsm h3 rfl, hno (spurns_word (by decide) _ _ hc),
    hno (spurns_word (by decide) _ _ hc), hno (spurns_char (by decide) _ _ hc),
    hno (spurns_backquoted _ _ hc),
    attempt_notAfter ((spurns_char (by decide)).thenMatch _ _ _ hc),
    hno (spurns_char (by decide) _ _ hc), hno ((spurns_char (by decide)).thenMatch _ _ _ hc),
    attempt_notAfter ((spurns_chars ['$', ':', '?'] (by decide)).thenMatch _ _ _ hc),
    hno ((spurns_char (by decide)).thenMatch _ _ _ hc),
    hsm h13 (phrases_same hcs hrest (["CASE", "IN", "VALUES", "USING", "FROM", "AS"].map fun w => [w])
      (by decide)),
    hno ((spurns_words ["@", "##", "#"] (by decide)).thenMatch _ _ _ hc),
    hno (beforeDot_append hcs hrest), ?_, hno (beforeParenthesis_append hcs hrest),
    hsm h18 (hrest.hexadecimal _ hcs).1, hsm h19 (hrest.scientific _ hcs).1,
    hno (decimal_append hc hcs hrest), hsm h21 (integer_append hc hrest),
    hno (spurns_quotedBy (by decide) _ _ hc), hno (spurns_quotedBy (by decide) _ _ hc),
    attempt_notAfter (spurns_bracketed _ _ hc),
    hno (joinPhrase_append hcs hrest (attempt_rule.mp h25)),
    hsm h26 (phrases_same hcs hrest [["END", "IF"], ["END", "LOOP"], ["END", "WHILE"], ["END"]]
      (by decide)),
    hsm h27 (phrase_same hcs hrest (by decide)),
    hsm h28 (phrases_same hcs hrest (["ASC", "DESC"].flatMap fun w =>
      [[w, "NULLS", "FIRST"], [w, "NULLS", "LAST"], [w]]) (by decide)),
    hsm h29 (phrases_same hcs hrest [["NULLS", "FIRST"], ["NULLS", "LAST"]] (by decide)),
    hsm h30 (phrase_same hcs hrest (by decide)),
    hsm h31 (phrases_same hcs hrest [["CREATE", "OR", "REPLACE"], ["CREATE"]] (by decide)),
    hsm h32 (phrase_same hcs hrest (by decide)),
    hno (hreserved (by decide) (by decide) (by decide)),
    hno (hreserved (by decide) (by decide) (by decide)),
    hsm h35 (phrase_same hcs hrest (by decide)), hsm h36 (phrase_same hcs hrest (by decide)),
    hsm h37 (phrases_same hcs hrest (["LIKE", "ILIKE", "RLIKE", "REGEXP"].flatMap fun w =>
      [["NOT", w], [w]]) (by decide)), forall_mem_nil _⟩
  obtain rfl | rfl := hbefore <;> rfl

end


/-! ### Names of all kinds -/

def IsName (n : String) : Prop := scan n = [⟨.name, n⟩]

def marked : Matcher :=
  thenMatch (anyOf [word "@", word "##", word "#"]) fun cs => (identifier cs).filter (1 < ·)

theorem nextToken_of_rule {front back : List Rule}
    {x : TokenKind × Nat} (hrules : rules = front ++ r :: back)
    (hfr : ∀ q ∈ front, attempt before cs q = none) (hr : attempt before cs r = some x) :
    nextToken before cs = x := by
  rw [nextToken_eq, hrules, List.findSome?_append, List.findSome?_eq_none_iff.mpr hfr,
    List.findSome?_cons, hr]
  rfl

theorem attempt_eq_some (h : attempt before cs r = some (kind, k)) :
    r.take before cs = some k ∧ r.kind (cs.take k) = kind := by
  unfold attempt at h
  split at h
  · next n hn =>
    cases h
    exact ⟨hn, rfl⟩
  · cases h

theorem before_lt (h : beforeDot cs = some k ∨ beforeParenthesis cs = some k) : k < cs.length := by
  obtain h | h := h
  all_goals
    obtain ⟨n, -, h⟩ := Option.bind_eq_some_iff.mp h
    by_contra hle
    split at h
    · next heq =>
      cases h
      rw [drop_of_length_le (by omega)] at heq
      cases heq
    · cases h

theorem name_of_attempt : ∀ r ∈ rules.take 38, attempt none cs r = some (.name, k) →
    k < cs.length ∨ backquoted cs = some k ∨ marked cs = some k ∨ bracketed cs = some k := by
  simp only [rules, take_succ_cons, take_zero, forall_mem_cons, not_mem_nil,
    false_implies, implies_true, and_true]
  and_intros
  all_goals
    intro h
    obtain ⟨htake, hk⟩ := attempt_eq_some h
    first
    | cases hk; done
    | cases htake
    | exact .inl (before_lt (.inl htake))
    | exact .inl (before_lt (.inr htake))
    | exact .inr (.inl htake)
    | exact .inr (.inr (.inl htake))
    | exact .inr (.inr (.inr htake))

def wordRule : Rule := ⟨fun cs => wordKind (String.ofList cs), fun _ => plainWord⟩

theorem rules_eq : rules = rules.take 38 ++ wordRule :: rules.drop 39 := rfl

theorem name_cases (h : nextToken none cs = (.name, k)) :
    (k < cs.length ∨ backquoted cs = some k ∨ marked cs = some k ∨ bracketed cs = some k) ∨
    plainWord cs = some k ∧ wordKind (String.ofList (cs.take k)) = .name ∧
      ∀ r ∈ rules.take 38, attempt none cs r = none := by
  rw [nextToken_eq, rules_eq, List.findSome?_append, List.findSome?_cons] at h
  cases hfr : (rules.take 38).findSome? (attempt none cs) with
  | some x =>
    rw [hfr] at h
    cases h
    obtain ⟨r, hr, hatt⟩ := List.exists_of_findSome?_eq_some hfr
    exact .inl (name_of_attempt r hr hatt)
  | none =>
    rw [hfr] at h
    cases hwd : attempt none cs wordRule with
    | some x =>
      rw [hwd] at h
      cases h
      obtain ⟨htake, hk⟩ := attempt_eq_some hwd
      exact .inr ⟨htake, hk, List.findSome?_eq_none_iff.mp hfr⟩
    | none =>
      rw [hwd] at h
      cases hback : (rules.drop 39).findSome? (attempt none cs) with
      | none =>
        rw [hback] at h
        cases h
      | some x =>
        rw [hback] at h
        cases h
        obtain ⟨r, hr, hatt⟩ := List.exists_of_findSome?_eq_some hback
        have hkinds : ∀ r ∈ rules.drop 39, ∀ cs, r.kind cs ≠ .name := by
          simp only [rules]
          simp [rule]
        exact absurd (attempt_eq_some hatt).2 (hkinds r hr _)

theorem takeWhile_append_of_lt (h : (cs.takeWhile p).length < cs.length) (rest : List Char) :
    (cs ++ rest).takeWhile p = cs.takeWhile p := by
  rw [takeWhile_append, if_neg (by omega)]

theorem nextToken_append {front back : List Rule}
    (hrules : rules = front ++ r :: back) (hk : r.kind cs = .name) (hcs : cs ≠ [])
    (hfr : ∀ q ∈ front, attempt before (cs ++ rest) q = none)
    (htake : r.take before (cs ++ rest) = some cs.length) :
    nextToken before (cs ++ rest) = (.name, cs.length) := by
  obtain ⟨n, hn⟩ : ∃ n, cs.length = n + 1 := ⟨cs.length - 1, by
    have := length_pos_iff.mpr hcs
    omega⟩
  refine nextToken_of_rule hrules hfr ?_
  unfold attempt
  rw [htake, hn]
  dsimp only
  rw [← hn, take_left, hk]

section

theorem nextToken_backquoted (hk : cs.length ≤ k) (h : backquoted cs = some k) :
    nextToken before (cs ++ rest) = (.name, cs.length) := by
  cases cs with
  | nil => cases h
  | cons c cs =>
    unfold backquoted at h
    dsimp only at h
    split_ifs at h with hc hinner
    cases h
    rw [← Char.ofNat_toNat c, beq_iff_eq.mp hc]
    refine nextToken_append (show rules = rules.take 7 ++ _ :: rules.drop 8 from rfl) rfl
      (cons_ne_nil _ _) (List.findSome?_eq_none_iff.mp rfl) ?_
    change backquoted (Char.ofNat 96 :: (cs ++ rest)) = _
    unfold backquoted
    dsimp only
    rw [if_pos (by decide), takeWhile_append_of_lt hinner, if_pos (by rw [length_append]; omega)]
    rw [length_cons] at hk ⊢
    congr 1
    omega

variable (hbefore : before = some '(' ∨ before = some ' ')
include hbefore

theorem nextToken_bracketed (hk : cs.length ≤ k) (h : bracketed cs = some k) :
    nextToken before (cs ++ rest) = (.name, cs.length) := by
  unfold bracketed at h
  split at h
  · next inner =>
    dsimp only at h
    split at h
    · next behind hbeh =>
      split_ifs at h with hem
      cases h
      have hlt : (inner.takeWhile fun c => c != ']' && c != '[').length < inner.length := by
        have hdrop := congrArg List.length hbeh
        rw [length_drop, length_cons] at hdrop
        omega
      have htake : bracketed ('[' :: (inner ++ rest)) = some (inner.length + 1) := by
        rw [length_cons] at hk
        simp only [bracketed, takeWhile_append_of_lt hlt, drop_append_of_le_length hlt.le,
          hbeh, cons_append, if_neg hem, Option.some.injEq]
        omega
      obtain rfl | rfl := hbefore <;>
        exact nextToken_append (show rules = rules.take 24 ++ _ :: rules.drop 25 from rfl) rfl
          (cons_ne_nil _ _) (List.findSome?_eq_none_iff.mp rfl) htake
    · cases h
  · cases h

omit hbefore in
theorem identifier_append (hrest : Stop rest) {n : Nat} (h : identifier cs = some n) :
    identifier (cs ++ rest) = some n ∧ n ≤ cs.length := by
  unfold identifier at h ⊢
  cases cs with
  | nil => cases h
  | cons c cs =>
    dsimp only [cons_append] at h ⊢
    split_ifs at h with hc
    cases h
    rw [if_pos hc, takeWhile_append_stop hrest (by decide)]
    have := (List.takeWhile_prefix (l := cs) isWord).length_le
    exact ⟨rfl, by rw [length_cons]; omega⟩

omit hbefore in
theorem take_of_word (hw : ∀ d ∈ w.toList, isWord d = false)
    (h : word w cs = some k) : cs = w.toList ++ cs.drop k := by
  obtain ⟨heq, rfl⟩ := word_eq_some.mp h
  have hsm : (cs.take w.length).map Char.toUpper = cs.take w.length := by
    refine (map_congr_left fun c hc => ?_).trans (map_id _)
    refine (eq_of_toUpper rfl (hw _ ?_)).symm
    exact heq ▸ mem_map_of_mem hc
  rw [← heq, hsm, take_append_drop]

omit hbefore in
theorem word_append_of_le (h : w.length ≤ cs.length) : word w (cs ++ rest) = word w cs := by
  unfold word
  rw [take_append_of_le_length h]

omit hbefore in
theorem mark_cases (h : anyOf [word "@", word "##", word "#"] cs = some k) :
    cs = ['@'] ++ cs.drop k ∨ cs = ['#', '#'] ++ cs.drop k ∨ cs = ['#'] ++ cs.drop k := by
  obtain ⟨m, hm, hwd⟩ := List.exists_of_findSome?_eq_some h
  simp only [mem_cons, not_mem_nil, or_false] at hm
  obtain rfl | rfl | rfl := hm
  · exact .inl (take_of_word (by decide) hwd)
  · exact .inr (.inl (take_of_word (by decide) hwd))
  · exact .inr (.inr (take_of_word (by decide) hwd))

theorem nextToken_marked (hk : cs.length ≤ k) (hrest : Stop rest) (h : marked cs = some k) :
    nextToken before (cs ++ rest) = (.name, cs.length) := by
  obtain ⟨j, hj, h⟩ := Option.bind_eq_some_iff.mp h
  obtain ⟨n, hn, h⟩ := Option.bind_eq_some_iff.mp h
  cases h
  obtain ⟨hn, hlt⟩ := Option.filter_eq_some_iff.mp hn
  have hlt : 1 < n := by simpa using hlt
  obtain ⟨hname, hle⟩ := identifier_append hrest hn
  rw [length_drop] at hle
  have hcs : cs ≠ [] := by
    rintro rfl
    simp at hle
    omega
  have htake : marked (cs ++ rest) = some cs.length := by
    have hsm : anyOf [word "@", word "##", word "#"] (cs ++ rest) = some j := by
      rw [← hj]
      refine anyOf_congr ?_
      simp only [forall_mem_cons, not_mem_nil, false_implies, implies_true, and_true]
      have : 2 ≤ cs.length := by omega
      exact ⟨word_append_of_le (le_trans (by decide) this), word_append_of_le this,
        word_append_of_le (le_trans (by decide) this)⟩
    unfold marked thenMatch
    rw [hsm]
    simp only [Option.bind_eq_bind, Option.bind_some]
    rw [drop_append_of_le_length (by omega), hname]
    simp only [Option.filter_some, hlt, decide_true, if_true, Option.bind_some, Option.some.injEq]
    omega
  refine nextToken_append (show rules = rules.take 14 ++ _ :: rules.drop 15 from rfl) rfl hcs ?_
    htake
  obtain h | h | h := mark_cases hj
  · rw [h]
    obtain rfl | rfl := hbefore <;> exact List.findSome?_eq_none_iff.mp rfl
  · rw [h]
    obtain rfl | rfl := hbefore <;> exact List.findSome?_eq_none_iff.mp rfl
  · have hdashes : word "--" (cs ++ rest) = none := by rw [h]; rfl
    have hspace : word "# " (cs ++ rest) = none := by
      refine Option.eq_none_iff_forall_ne_some.mpr fun m hm => ?_
      have hhead := take_of_word (by decide) hm
      rw [h] at hhead
      simp only [cons_append, nil_append, String.reduceToList, List.cons.injEq, true_and] at hhead
      rw [hhead] at hname
      cases hname
    refine forall_mem_cons.mpr
      ⟨by simp [attempt, rule, lineComment, thenMatch, anyOf, hdashes, hspace], ?_⟩
    rw [h]
    obtain rfl | rfl := hbefore <;> exact List.findSome?_eq_none_iff.mp rfl

end

/-! ### Names in a call -/

theorem IsName.nextToken (hn : IsName n) :
    ∃ k, Token.nextToken none n.toList = (.name, k) ∧ n.toList.length ≤ k := by
  unfold IsName scan at hn
  cases hchs : n.toList with
  | nil =>
    rw [hchs] at hn
    cases hn
  | cons c cs =>
    rw [hchs, scanFrom] at hn
    simp only [List.cons.injEq, Token.mk.injEq] at hn
    obtain ⟨⟨hk, htx⟩, -⟩ := hn
    refine ⟨(Token.nextToken none (c :: cs)).2, Prod.ext hk rfl, ?_⟩
    rw [← htx, String.toList_ofList] at hchs
    exact (congrArg List.length hchs).symm.trans_le (length_take_le _ _)

theorem IsName.ne_nil (hn : IsName n) : n.toList ≠ [] := by
  intro hnil
  unfold IsName scan at hn
  rw [hnil] at hn
  cases hn

theorem plainWord_eq_some (h : plainWord cs = some k) (hk : cs.length ≤ k) :
    ∃ c t, cs = c :: t ∧ isWord c = true ∧ ∀ d ∈ c :: t, isNameChar d = true := by
  unfold plainWord at h
  cases cs with
  | nil => cases h
  | cons c t =>
    dsimp only at h
    split_ifs at h with hc
    cases h
    refine ⟨c, t, rfl, hc, forall_mem_cons.mpr ⟨by simp [isNameChar, hc], ?_⟩⟩
    have hall : t.takeWhile isNameChar = t := by
      refine (List.takeWhile_prefix _).eq_of_length_le ?_
      rw [length_cons] at hk
      change t.length ≤ (t.takeWhile fun d => isWord d || d == '$' || d == '#').length
      omega
    exact takeWhile_eq_self_iff.mp hall

theorem IsName.nextToken_append
    (hn : IsName n) (hrest : Stop rest) (hbefore : before = some '(' ∨ before = some ' ') :
    Token.nextToken before (n.toList ++ rest) = (.name, n.toList.length) := by
  obtain ⟨k, htoken, hk⟩ := hn.nextToken
  obtain (h | h | h | h) | ⟨h, hkind, halone⟩ := name_cases htoken
  · omega
  · exact nextToken_backquoted hk h
  · exact nextToken_marked hbefore hk hrest h
  · exact nextToken_bracketed hbefore hk h
  · obtain ⟨c, t, hcs, hc, hall⟩ := plainWord_eq_some h hk
    rw [take_of_length_le hk] at hkind
    rw [hcs] at hkind halone ⊢
    refine Token.nextToken_append rules_eq hkind (cons_ne_nil _ _)
      (attempt_append hc hall hrest hbefore hkind halone) ?_
    change plainWord (c :: (t ++ rest)) = _
    unfold plainWord
    dsimp only
    have hwho : (t.takeWhile fun d => isWord d || d == '$' || d == '#') = t :=
      takeWhile_eq_self_iff.mpr fun d hd => hall d (mem_cons_of_mem _ hd)
    rw [if_pos hc, takeWhile_append_stop hrest (by decide), hwho, length_cons, Nat.add_comm]

theorem IsName.head (hn : IsName n) :
    ∃ c t, n.toList = c :: t ∧ Text.isBlank c = false ∧ c ≠ '.' := by
  obtain ⟨k, htoken, hk⟩ := hn.nextToken
  obtain (h | h | h | h) | ⟨h, -, -⟩ := name_cases htoken
  · omega
  · unfold backquoted at h
    split at h
    · next c t hchs =>
      split_ifs at h with hc
      have hc : c = Char.ofNat 96 := by rw [← Char.ofNat_toNat c, beq_iff_eq.mp hc]
      exact ⟨c, t, hchs, by rw [hc]; decide, by rw [hc]; decide⟩
    · cases h
  · obtain ⟨j, hj, -⟩ := Option.bind_eq_some_iff.mp h
    obtain h | h | h := mark_cases hj <;> exact ⟨_, _, h, by decide, by decide⟩
  · unfold bracketed at h
    split at h
    · next t hchs => exact ⟨_, t, hchs, by decide, by decide⟩
    · cases h
  · obtain ⟨c, t, hcs, hc, hall⟩ := plainWord_eq_some h hk
    refine ⟨c, t, hcs, not_isBlank_of_isNameChar (hall c (by simp)), ?_⟩
    rintro rfl
    cases hc

/-! ### The tokens of a call -/

theorem scanFrom_pending (before : Option Char) (cs rest : List Char) :
    scanFrom before cs.length (cs ++ rest) = scanFrom (cs.getLast?.or before) 0 rest := by
  induction cs generalizing before with
  | nil => rfl
  | cons c cs ih =>
    rw [length_cons, cons_append, scanFrom, ih, List.getLast?_cons]
    cases cs.getLast? <;> rfl

theorem scanFrom_append (hcs : cs ≠ []) (h : nextToken before (cs ++ rest) = (kind, cs.length)) :
    scanFrom before 0 (cs ++ rest) = ⟨kind, String.ofList cs⟩ :: scanFrom cs.getLast? 0 rest := by
  cases cs with
  | nil => exact absurd rfl hcs
  | cons c cs =>
    rw [cons_append, scanFrom, ← cons_append, h]
    dsimp only
    rw [take_left, length_cons, Nat.add_sub_cancel, scanFrom_pending, List.getLast?_cons]
    cases cs.getLast? <;> rfl

theorem scanFrom_sign (h : nextToken before (c :: rest) = (kind, 1)) :
    scanFrom before 0 (c :: rest) = ⟨kind, String.ofList [c]⟩ :: scanFrom (some c) 0 rest :=
  scanFrom_append (cons_ne_nil c []) h

theorem nextToken_blank (before : Option Char) (rest : List Char) :
    nextToken before (' ' :: rest) = (.whitespace, 1) := rfl

theorem nextToken_sign (hc : c = ',' ∨ c = ')') (before : Option Char)
    (rest : List Char) : nextToken before (c :: rest) = (.punctuation, 1) := by
  have hdotted : ∀ {kind}, identifier (c :: rest) = none → attempt before (c :: rest)
        ⟨kind, fun b cs => if b == some '.' then identifier cs else none⟩ = none := by
    intro kind h
    unfold attempt
    dsimp only
    rw [h, ite_self]
  refine nextToken_of_rule (show rules = rules.take 39 ++ _ :: rules.drop 40 from rfl) ?_ ?_
  · simp only [rules, take_succ_cons, take_zero, forall_mem_cons, not_mem_nil,
      false_implies, implies_true, and_true]
    obtain rfl | rfl := hc <;> and_intros
    all_goals first | rfl | exact attempt_notAfter rfl | exact hdotted rfl
  · obtain rfl | rfl := hc <;> rfl

theorem beforeDot_by (cs : List Char) : beforeDot ('B' :: 'Y' :: ' ' :: cs)
    = match (' ' :: cs).dropWhile Text.isBlank with
      | '.' :: _ => some 2
      | _ => none :=
  rfl

theorem nextToken_by {t : List Char} (hbl : Text.isBlank c = false) (hdot : c ≠ '.') :
    nextToken (some ' ') ('B' :: 'Y' :: ' ' :: c :: t) = (.keyword, 2) := by
  have hno : beforeDot ('B' :: 'Y' :: ' ' :: c :: t) = none := by
    have hdrop : (' ' :: c :: t).dropWhile Text.isBlank = c :: t := by
      rw [dropWhile_cons_of_pos (by decide), dropWhile_cons_of_neg (by simp [hbl])]
    rw [beforeDot_by, hdrop]
    split
    · next heq => exact absurd (List.cons.inj heq).1 hdot
    · rfl
  refine nextToken_of_rule (show rules = rules.take 38 ++ _ :: rules.drop 39 from rfl) ?_ ?_
  · rw [show rules.take 38
      = rules.take 15 ++ rule .name beforeDot :: (rules.drop 16).take 22 from rfl]
    refine forall_mem_append.mpr ⟨List.findSome?_eq_none_iff.mp rfl,
      forall_mem_cons.mpr ⟨?_, List.findSome?_eq_none_iff.mp rfl⟩⟩
    exact attempt_rule.mpr fun n h => by rw [hno] at h; cases h
  · have hk : wordKind (String.ofList ['B', 'Y']) = .keyword := by decide +kernel
    have htake : plainWord ('B' :: 'Y' :: ' ' :: c :: t) = some 2 := by
      unfold plainWord
      dsimp only
      rfl
    unfold attempt
    dsimp only
    exact congrArg (fun kind => some (kind, 2)) hk

def namesTokens : List String → List Token
  | [] => []
  | n :: ns =>
    ⟨.name, n⟩ :: ns.flatMap fun m => [⟨.punctuation, ","⟩, ⟨.whitespace, " "⟩, ⟨.name, m⟩]

theorem scanFrom_names {ns : List String} (hns : ∀ n ∈ ns, IsName n) (hne : ns ≠ [])
    {rest : List Char} (hrest : Stop rest) (hbefore : before = some '(' ∨ before = some ' ') :
    ∃ last, scanFrom before 0 (", ".toList.intercalate (ns.map String.toList) ++ rest)
      = namesTokens ns ++ scanFrom last 0 rest := by
  induction ns generalizing before with
  | nil => exact absurd rfl hne
  | cons n ns ih =>
    rw [forall_mem_cons] at hns
    obtain ⟨hn, hns⟩ := hns
    cases ns with
    | nil =>
      refine ⟨n.toList.getLast?, ?_⟩
      rw [map_singleton, intercalate_singleton,
        scanFrom_append hn.ne_nil (hn.nextToken_append hrest hbefore), String.ofList_toList]
      rfl
    | cons m ms =>
      obtain ⟨last, ih⟩ := ih hns (cons_ne_nil _ _) (.inr rfl)
      refine ⟨last, ?_⟩
      rw [map_cons, map_cons, intercalate_cons_cons, append_assoc, append_assoc, ← map_cons]
      have hcomma : Stop (", ".toList ++ (", ".toList.intercalate ((m :: ms).map String.toList)
          ++ rest)) := .comma _
      rw [scanFrom_append hn.ne_nil (hn.nextToken_append hcomma hbefore), String.ofList_toList]
      change _ :: scanFrom _ 0 (',' :: ' ' :: (_ ++ rest)) = _
      rw [scanFrom_sign (nextToken_sign (.inl rfl) _ _), scanFrom_sign (nextToken_blank _ _), ih]
      rfl

end SemanticLayer.Sql.Token
