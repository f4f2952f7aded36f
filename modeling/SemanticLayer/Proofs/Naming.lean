import Mathlib
import SemanticLayer.Naming

/-!
# Names taken apart

A name of a view and a field with one dot between them is taken apart into the two
(`Name.parts_dotted`); small letters bring no dots into a name (`Text.lower_undotted`).
-/

namespace SemanticLayer

open List

variable {s name view w : String}

namespace Text

variable {c : Char} {sep old body pre rest tail cs acc : List Char}

/-! ### Searching -/

theorem not_infix_of_not_mem (h : c ∉ cs) : ¬ c :: tail <:+: cs :=
  fun hin => h (hin.subset mem_cons_self)

theorem findChars_isSome_iff {sub : List Char} :
    (findChars sub cs).isSome = true ↔ sub <:+: cs := by
  induction cs with
  | nil => simp [findChars]
  | cons c cs ih =>
    rw [findChars, infix_cons_iff, ← ih]
    split_ifs with h
    · simp [ isPrefixOf_iff_prefix.mp h]
    · simp [mt isPrefixOf_iff_prefix.mpr h]

theorem contains_iff {sub : String} : contains s sub = true ↔ sub.toList <:+: s.toList :=
  findChars_isSome_iff

theorem contains_append (front sub rest : String) : contains (front ++ sub ++ rest) sub = true :=
  contains_iff.mpr ⟨front.toList, rest.toList, by simp⟩

/-! ### Cutting -/

theorem splitChars_ne_nil (sep : List Char) (k : Nat) (acc cs : List Char) :
    splitChars sep k acc cs ≠ [] := by
  fun_induction splitChars sep k acc cs <;> simp_all

theorem splitChars_of_not_infix (h : ¬ sep <:+: cs) (acc : List Char) :
    splitChars sep 0 acc cs = [acc.reverse ++ cs] := by
  induction cs generalizing acc with
  | nil => simp [splitChars]
  | cons c cs ih =>
    rw [infix_cons_iff, not_or] at h
    rw [splitChars, if_neg (mt isPrefixOf_iff_prefix.mp h.1), ih h.2]
    simp

theorem splitChars_skip (sep acc rest skipped : List Char) :
    splitChars sep skipped.length acc (skipped ++ rest) = splitChars sep 0 acc rest := by
  induction skipped with
  | nil => rfl
  | cons c skipped ih => exact ih

/-- No match begins in a text, also if one follows it. -/
def Clear (sep pre : List Char) : Prop :=
  ∀ rest b, b <:+ pre → b ≠ [] → ¬ sep <+: b ++ (sep ++ rest)

theorem Clear.of_cons (h : Clear sep (c :: pre)) : Clear sep pre :=
  fun rest b hb => h rest b (hb.trans (suffix_cons c pre))

theorem clear_of_not_mem (h : c ∉ pre) : Clear (c :: tail) pre := by
  intro rest b hb hne hmatch
  obtain ⟨d, b, rfl⟩ := exists_cons_of_ne_nil hne
  rw [cons_append, cons_prefix_cons] at hmatch
  exact h (hb.subset (hmatch.1 ▸ mem_cons_self))

theorem splitChars_next (hsep : sep ≠ []) (h : Clear sep pre) (acc rest : List Char) :
    splitChars sep 0 acc (pre ++ (sep ++ rest))
      = (acc.reverse ++ pre) :: splitChars sep 0 [] rest := by
  induction pre generalizing acc with
  | nil =>
    obtain ⟨c, tail, rfl⟩ := exists_cons_of_ne_nil hsep
    have hyes : (c :: tail).isPrefixOf (c :: (tail ++ rest)) = true :=
      isPrefixOf_iff_prefix.mpr (prefix_append (c :: tail) rest)
    rw [nil_append, cons_append, splitChars, if_pos hyes, append_nil]
    exact congrArg _ (splitChars_skip _ _ _ _)
  | cons c pre ih =>
    have hno : ¬ sep.isPrefixOf (c :: (pre ++ (sep ++ rest))) = true :=
      mt isPrefixOf_iff_prefix.mp (h rest (c :: pre) suffix_rfl (by simp))
    rw [cons_append, splitChars, if_neg hno, ih h.of_cons]
    simp

theorem split_undotted (h : '.' ∉ s.toList) : split s "." = [s] := by
  rw [split, show ".".toList = ['.'] from rfl, splitChars_of_not_infix (not_infix_of_not_mem h)]
  simp

theorem split_dotted (h : '.' ∉ view.toList) (name : String) :
    split (view ++ "." ++ name) "." = view :: split name "." := by
  have hchs : (view ++ "." ++ name).toList = view.toList ++ (['.'] ++ name.toList) := by simp
  rw [split, split, hchs, show ".".toList = ['.'] from rfl,
    splitChars_next (by simp) (clear_of_not_mem h)]
  simp

/-- The last piece of a text that ends with a separator and a body: the body, with some of the
separator if another one ends in its middle. -/
theorem getLast?_splitChars (hsep : sep ≠ [])
    (hbody : ∀ j, 0 < j → ¬ sep <:+: sep.drop j ++ body) (s : List Char) (k : Nat)
    (acc : List Char) (hk : k < sep.length) (hacc : k ≠ 0 → acc = [])
    (hskip : sep.drop (sep.length - k) <+: s ++ (sep ++ body)) :
    ∃ j, 0 < j ∧ sep.drop (sep.length - j) <+: sep ++ body ∧
      (splitChars sep k acc (s ++ (sep ++ body))).getLast? = some (sep.drop j ++ body) := by
  induction s generalizing k acc with
  | nil =>
    cases k with
    | zero =>
      have hclear : Clear sep [] := fun _ b hb hb0 => absurd (suffix_nil.mp hb) hb0
      have hend := hbody sep.length (length_pos_iff.mpr hsep)
      rw [drop_length, nil_append] at hend
      refine ⟨sep.length, length_pos_iff.mpr hsep, by simp, ?_⟩
      rw [splitChars_next hsep hclear, splitChars_of_not_infix hend, drop_length]
      rfl
    | succ k =>
      have htake : (sep.take (k + 1)).length = k + 1 := by simpa using hk.le
      have hcut := splitChars_skip sep acc (sep.drop (k + 1) ++ body) (sep.take (k + 1))
      rw [htake, ← append_assoc, take_append_drop] at hcut
      refine ⟨k + 1, by omega, hskip, ?_⟩
      rw [nil_append, hcut, splitChars_of_not_infix (hbody _ (by omega)), hacc (by omega)]
      rfl
  | cons c s ih =>
    cases k with
    | zero =>
      rw [cons_append, splitChars]
      split_ifs with hmatch
      · rw [getLast?_cons_of_ne_nil (splitChars_ne_nil _ _ _ _)]
        refine ih _ [] (by omega) (fun _ => rfl) ?_
        rw [show sep.length - (sep.length - 1) = 1 by omega]
        obtain ⟨d, tail, rfl⟩ := exists_cons_of_ne_nil hsep
        exact (cons_prefix_cons.mp ( isPrefixOf_iff_prefix.mp hmatch)).2
      · exact ih 0 _ hk (fun h => absurd rfl h) (by simp)
    | succ k =>
      refine ih k acc (by omega) (fun _ => hacc (by omega)) ?_
      rw [drop_eq_getElem_cons (by omega)] at hskip
      have htail := (cons_prefix_cons.mp hskip).2
      rwa [show sep.length - (k + 1) + 1 = sep.length - k by omega] at htail

theorem splitChars_append (front : List Char) (acc cs : List Char) :
    ∃ pieces, splitChars ['.'] 0 acc (front ++ '.' :: cs) = pieces ++ splitChars ['.'] 0 [] cs := by
  induction front generalizing acc with
  | nil => exact ⟨[acc.reverse], by simp [splitChars]⟩
  | cons c front ih =>
    rw [cons_append, splitChars]
    split
    · obtain ⟨pieces, hpieces⟩ := ih []
      exact ⟨acc.reverse :: pieces, congrArg (acc.reverse :: ·) hpieces⟩
    · exact ih (c :: acc)

theorem getLast?_split_qualify (view name : String) :
    (split (Name.qualify view name) ".").getLast? = (split name ".").getLast? := by
  unfold Name.qualify
  split_ifs
  · rfl
  · have hchs : (view ++ "." ++ name).toList = view.toList ++ '.' :: name.toList := by simp
    obtain ⟨pieces, hpieces⟩ := splitChars_append view.toList [] name.toList
    unfold split
    rw [hchs, show ".".toList = ['.'] from rfl, hpieces, map_append, List.getLast?_append_of_ne_nil]
    simpa using splitChars_ne_nil _ _ _ _

/-! ### Replacing -/

theorem replaceChars_skip (old new cs rest : List Char) :
    replaceChars old new cs.length (cs ++ rest) = replaceChars old new 0 rest := by
  induction cs with
  | nil => rfl
  | cons c cs ih => exact ih

theorem replaceChars_own (hold : old ≠ []) (new rest : List Char) :
    replaceChars old new 0 (old ++ rest) = new ++ replaceChars old new 0 rest := by
  cases old with
  | nil => exact absurd rfl hold
  | cons c cs =>
    have hpre : (c :: cs).isPrefixOf (c :: (cs ++ rest)) = true :=
      isPrefixOf_iff_prefix.mpr (prefix_append (c :: cs) rest)
    rw [cons_append, replaceChars, if_pos hpre, length_cons, Nat.add_sub_cancel, replaceChars_skip]

theorem length_remove_le (old : List Char) (k : Nat) (cs : List Char) :
    (replaceChars old [] k cs).length ≤ cs.length := by
  fun_induction replaceChars old [] k cs <;> grind

theorem remove_eq_self_iff (hold : old ≠ []) : replaceChars old [] 0 cs = cs ↔ ¬ old <:+: cs := by
  induction cs with
  | nil => simpa [replaceChars] using hold
  | cons c cs ih =>
    rw [replaceChars, infix_cons_iff, ← isPrefixOf_iff_prefix]
    split_ifs with hpre
    · refine iff_of_false (fun h => ?_) (by simp [hpre])
      have := length_remove_le old (old.length - 1) cs
      simp_all
    · simp [hpre, ih]

theorem replaceChars_of_not_mem (hc : c ∉ pre) (new rest : List Char) :
    replaceChars (c :: tail) new 0 (pre ++ rest) = pre ++ replaceChars (c :: tail) new 0 rest := by
  induction pre with
  | nil => rfl
  | cons d pre ih =>
    rw [mem_cons, not_or] at hc
    simp [replaceChars, hc.1, ih hc.2]

theorem remove_front_iff (hs : s ≠ "") : replace (s ++ w) s "" = w ↔ contains w s = false := by
  have hne : s.toList ≠ [] := by simpa using hs
  rw [replace, if_neg (by simpa using hs), ← String.toList_inj, ← Bool.not_eq_true, contains_iff,
    ← remove_eq_self_iff hne]
  simp [replaceChars_own hne]

theorem remove_back (hc : c ∉ w.toList) (hs : s.toList = c :: tail) :
    replace (w ++ s) s "" = w := by
  have hne : s ≠ "" := by
    rintro rfl
    cases hs
  have hrun := @replaceChars_own (c :: tail) nofun [] []
  rw [append_nil] at hrun
  rw [replace, if_neg (by simpa using hne), ← String.toList_inj, String.toList_ofList,
    String.toList_append, hs, replaceChars_of_not_mem hc, show "".toList = [] from rfl, hrun]
  exact append_nil _

/-! ### Small letters -/

/-- The characters that small letters leave as they are. -/
def isSettled (c : Char) : Bool := c.toNat != 0x3A3 && lowerChars c == [c]

theorem shift?_eq_some {table : List (Nat × Nat × Int)} {n : Nat} {d : Int}
    (h : shift? table n = some d) :
    ∃ lo count, (lo, count, d) ∈ table ∧ ∃ i < count, n = lo + stepOf d * i := by
  fun_induction shift? table n with
  | case1 => cases h
  | case2 => cases h
  | case3 lo count d' rest n hlo hin =>
    cases h
    simp only [Bool.and_eq_true, decide_eq_true_eq, beq_iff_eq] at hin
    have hdiv : stepOf d * ((n - lo) / stepOf d) = n - lo :=
      Nat.mul_div_cancel' (Nat.dvd_of_mod_eq_zero hin.2)
    refine ⟨lo, count, mem_cons_self, (n - lo) / stepOf d, ?_, by omega⟩
    exact Nat.div_lt_of_lt_mul (by omega)
  | case4 lo count d' rest n hlo hin ih =>
    obtain ⟨lo', count', hmem, hi⟩ := ih h
    exact ⟨lo', count', mem_cons_of_mem _ hmem, hi⟩

/-- No letter of the table lies between the two; of a sparse run only every other letter counts. -/
def isFree (first last : Nat) (isSparse : Bool) : List (Nat × Nat × Int) → Bool
  | [] => true
  | (lo, count, d) :: rest =>
    Nat.blt last lo ||
      (Nat.blt (lo + stepOf d * (count - 1)) first ||
        isSparse && Nat.beq (stepOf d) 2 && !Nat.beq (first % 2) (lo % 2)) &&
      isFree first last isSparse rest

/-- What lies between the dot, the dotted capital I and the numbers of no character. -/
def gaps : List (Nat × Nat) := [(0x2E, 0x130), (0x130, 0xD800), (0xDFFF, 0x110000)]

/-- The small letters of a run are characters, and no capitals themselves. -/
def isFreeRun : Nat × Nat × Int → Bool
  | (lo, count, d) =>
    let first := ((lo : Int) + d).toNat
    let last := first + stepOf d * (count - 1)
    decide (0 ≤ (lo : Int) + d) &&
      gaps.any (fun (below, above) => Nat.blt below first && Nat.blt last above) &&
      isFree first last (Nat.beq (stepOf d) 2 || Nat.beq count 1) capitals

theorem stepOf_cases (d : Int) : stepOf d = 1 ∨ stepOf d = 2 := by
  unfold stepOf
  split_ifs <;> simp

theorem shift?_of_isFree {table : List (Nat × Nat × Int)} {first last n : Nat} {isSparse : Bool}
    (h : isFree first last isSparse table = true) (hfirst : first ≤ n) (hlast : n ≤ last)
    (hsparse : isSparse = true → n % 2 = first % 2) : shift? table n = none := by
  -- Both scans stop at the first run behind the letter.
  induction table with
  | nil => rfl
  | cons run rest ih =>
    obtain ⟨lo, count, d⟩ := run
    simp only [isFree, Bool.or_eq_true, Bool.and_eq_true, Nat.blt_eq, Nat.beq_eq,
      Bool.not_eq_true'] at h
    rw [shift?]
    split_ifs with hlo hin
    · rfl
    · simp only [Bool.and_eq_true, decide_eq_true_eq, beq_iff_eq] at hin
      obtain h | ⟨h | ⟨⟨hs, htwo⟩, hodd⟩, -⟩ := h
      · omega
      · obtain hd | hd := stepOf_cases d <;> rw [hd] at h hin <;> omega
      · have hne := Nat.ne_of_beq_eq_false hodd
        have hsame := hsparse hs
        rw [htwo] at hin
        omega
    · exact ih (h.resolve_left (by omega)).2

theorem isSettled_ofNat {n : Nat} {gap : Nat × Nat} (hgap : gap ∈ gaps) (hbelow : gap.1 < n)
    (habove : n < gap.2) (hcapital : shift? capitals n = none) :
    (isSettled (Char.ofNat n) && Char.ofNat n != '.') = true := by
  have hvalid : n.isValidChar ∧ n ≠ 0x2E ∧ n ≠ 0x130 := by
    rw [Nat.isValidChar]
    simp only [gaps, mem_cons, not_mem_nil, or_false] at hgap
    obtain rfl | rfl | rfl := hgap <;> omega
  have hn : (Char.ofNat n).toNat = n := by rw [Char.toNat_ofNat, if_pos hvalid.1]
  have hsigma : n ≠ 0x3A3 := by
    rintro rfl
    exact absurd hcapital (by decide)
  have hdot : Char.ofNat n ≠ '.' := fun h => hvalid.2.1 (by rw [← hn, h]; rfl)
  simp [isSettled, lowerChars, smallLetter?, hn, hcapital, hsigma, hvalid.2.2, hdot]

theorem smallLetter?_settled {d : Char} (h : smallLetter? c = some d) :
    (isSettled d && d != '.') = true := by
  have hfree : ∀ run ∈ capitals, isFreeRun run = true := by decide +kernel
  obtain ⟨shift, hshift, rfl⟩ := Option.map_eq_some_iff.mp h
  obtain ⟨lo, count, hmem, i, hi, hn⟩ := shift?_eq_some hshift
  have hrun := hfree _ hmem
  simp only [isFreeRun, Bool.and_eq_true, decide_eq_true_eq, any_eq_true, Nat.blt_eq] at hrun
  obtain ⟨⟨hpos, gap, hgap, hbelow, habove⟩, hcapital⟩ := hrun
  have hsmall : ((c.toNat : Int) + shift).toNat
      = ((lo : Int) + shift).toNat + stepOf shift * i := by omega
  have hlast : stepOf shift * i ≤ stepOf shift * (count - 1) := Nat.mul_le_mul_left _ (by omega)
  rw [hsmall]
  refine isSettled_ofNat hgap (by omega) (by omega)
    (shift?_of_isFree hcapital (by omega) (by omega) ?_)
  rw [Bool.or_eq_true, Nat.beq_eq, Nat.beq_eq]
  rintro (htwo | rfl)
  · rw [htwo, Nat.add_mul_mod_self_left]
  · rw [Nat.lt_one_iff.mp hi, mul_zero, add_zero]

theorem lowerChars_spec (c : Char) (isFinal : Bool) {out : List Char}
    (hout : out = if c.toNat == 0x3A3 then [Char.ofNat (if isFinal then 0x3C2 else 0x3C3)]
      else lowerChars c) :
    (∀ x ∈ out, isSettled x = true) ∧ ('.' ∈ out ↔ '.' = c) ∧ (isSettled c = true → out = [c]) := by
  have hsame : isSettled c = true → out = [c] := by
    intro hc
    rw [isSettled, Bool.and_eq_true, beq_iff_eq] at hc
    rw [hout, if_neg (by simpa using hc.1), hc.2]
  refine and_assoc.mp ⟨?_, hsame⟩
  by_cases hsigma : (c.toNat == 0x3A3) = true
  · rw [if_pos hsigma] at hout
    subst hout
    refine ⟨by cases isFinal <;> exact forall_mem_singleton.mpr (by decide),
      iff_of_false (by cases isFinal <;> decide) ?_⟩
    rintro rfl
    cases hsigma
  rw [lowerChars] at hout
  split_ifs at hout with hi
  · subst hout
    refine ⟨by rw [forall_mem_cons, forall_mem_singleton]; decide, iff_of_false (by decide) ?_⟩
    rintro rfl
    cases hi
  · cases hd : smallLetter? c with
    | none =>
      subst hout
      simp_all [isSettled, lowerChars]
    | some d =>
      have hsm := smallLetter?_settled hd
      rw [Bool.and_eq_true, bne_iff_ne] at hsm
      rw [hd] at hout
      subst hout
      refine ⟨by simpa using hsm.1, iff_of_false (by simpa using hsm.2.symm) ?_⟩
      rintro rfl
      cases hd

theorem lowerAll_spec (cs before : List Char) :
    (∀ x ∈ lowerAll before cs, isSettled x = true) ∧ ('.' ∈ lowerAll before cs ↔ '.' ∈ cs) ∧
      ((∀ c ∈ cs, isSettled c = true) → lowerAll before cs = cs) := by
  induction cs generalizing before with
  | nil => simp [lowerAll]
  | cons c cs ih =>
    obtain ⟨hset, hdot, hsm⟩ := lowerChars_spec c (isFinalSigma before cs) rfl
    obtain ⟨hset', hdot', hsm'⟩ := ih (c :: before)
    rw [lowerAll]
    refine ⟨forall_mem_append.mpr ⟨hset, hset'⟩, ?_, fun hcs => ?_⟩
    · rw [mem_append, mem_cons, hdot, hdot']
    · rw [forall_mem_cons] at hcs
      rw [hsm hcs.1, hsm' hcs.2, singleton_append]

theorem mem_lower_dot : '.' ∈ (lower s).toList ↔ '.' ∈ s.toList := by
  rw [lower, String.toList_ofList]
  exact (lowerAll_spec _ _).2.1

theorem lower_eq_self_iff : lower s = s ↔ ∀ c ∈ s.toList, isSettled c = true := by
  rw [lower, ← String.toList_inj, String.toList_ofList]
  obtain ⟨hset, -, hsm⟩ := lowerAll_spec s.toList []
  exact ⟨fun h => h ▸ hset, hsm⟩

theorem lower_lower (s : String) : lower (lower s) = lower s := by
  rw [lower_eq_self_iff, lower, String.toList_ofList]
  exact (lowerAll_spec _ _).1

theorem lower_append {t : String} (hs : lower s = s) (ht : lower t = t) :
    lower (s ++ t) = s ++ t := by
  rw [lower_eq_self_iff] at hs ht ⊢
  rw [String.toList_append]
  exact forall_mem_append.mpr ⟨hs, ht⟩

theorem lower_undotted (h : '.' ∉ s.toList) : '.' ∉ (lower s).toList :=
  mt mem_lower_dot.mp h

end Text

namespace Name

theorem parts_undotted (h : '.' ∉ name.toList) :
    parts name = ⟨none, none, name⟩ := by
  rw [parts, Text.split_undotted h]

theorem parts_dotted (hv : '.' ∉ view.toList) (hn : '.' ∉ name.toList) :
    parts (view ++ "." ++ name) = ⟨none, some view, name⟩ := by
  rw [parts, Text.split_dotted hv, Text.split_undotted hn]

end Name

end SemanticLayer
