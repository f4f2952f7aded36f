import SemanticLayer.Proofs.Filter.Shared
import SemanticLayer.Proofs.Naming
import SemanticLayer.Proofs.Outcome

/-!
# Values of filters

A text that holds no date phrase is read by its words, commas, signs and ends.  A minus in front of
it asks for the complement (`Filter.read_minus`); only garbled texts are not answered
(`Filter.conditions_isAnswer_iff`).
-/

namespace SemanticLayer

open List Text

variable {e : Error} {ps : List String} {z : Zone}

namespace Text

variable {s sep : String} {c : Char} {cs : List Char}

theorem split_of_contains (h : contains s sep = false) : split s sep = [s] := by
  rw [split, splitChars_of_not_infix (mt contains_iff.mpr (Bool.eq_false_iff.mp h))]
  simp

theorem head?_splitChars (sep acc cs : List Char) (k : Nat) :
    ∃ rest, (splitChars sep k acc cs).head? = some (acc.reverse ++ rest) := by
  fun_induction splitChars sep k acc cs with
  | case1 k acc => exact ⟨[], by simp⟩
  | case2 k acc c cs ih => exact ih
  | case3 acc c cs _ => exact ⟨[], by simp⟩
  | case4 acc c cs _ ih =>
    obtain ⟨rest, h⟩ := ih
    exact ⟨c :: rest, by simpa using h⟩

theorem minus_ne {w : String} (hw : w.toList.head? ≠ some '-') (v : String) : "-" ++ v ≠ w := by
  rintro rfl
  simp at hw

end Text

namespace Phrase

theorem read?_minus {s : String} (h : read? s = none) : read? ("-" ++ s) = none := by
  have hchs : ("-" ++ s).toList = '-' :: s.toList := by simp
  have hago : agoForAt? ('-' :: s.toList) = none := rfl
  have hmodified : modifiedAt? ('-' :: s.toList) = none := rfl
  have hrecent : recentAt? ('-' :: s.toList) = none := rfl
  unfold read? at h ⊢
  dsimp only at h ⊢
  split_ifs at h
  rw [hchs, search, search, search, hmodified]
  exact h

end Phrase

namespace Filter

variable {s v : String} {almanac : Almanac} {week timezone : Value}

theorem read_of_undated (h : Phrase.read? s = none) :
    read almanac (.text s) week timezone = valueConditions (.text s) none := by
  have hph : Phrase.read? (Value.text s).plain = none := h
  unfold read readOn dateBounds
  simp only [hph]
  rfl

/-! ### Complements -/

/-- Comparisons of which one holds where the other does not. -/
inductive Complements : Expression → Expression → Prop
  | equalTo : Complements .equalTo .notEqualTo
  | isNull : Complements .isNull .isNotNull
  | contains : Complements .containsCaseInsensitive .doesNotContainCaseInsensitive
  | startsWith : Complements .startsWithCaseInsensitive .doesNotStartWithCaseInsensitive
  | endsWith : Complements .endsWithCaseInsensitive .doesNotEndWithCaseInsensitive

theorem drop_minus (v : String) (n : Nat) : Text.drop ("-" ++ v) (n + 1) = Text.drop v n := by
  simp [Text.drop]

theorem last?_minus (hv : v ≠ "") : Text.last? ("-" ++ v) = Text.last? v := by
  have hne : v.toList ≠ [] := by simpa using hv
  simp [Text.last?, getLast?_cons, getLast?_eq_some_getLast hne]

theorem pattern_complements (hv : v ≠ "") :
    ∃ e e' x, Complements e e' ∧ pattern v = .ok (e, x) ∧
      negatedPattern ("-" ++ v) = .ok (e', x) := by
  obtain ⟨c, hc⟩ : ∃ c, Text.first? v = some c := by
    rw [← Option.isSome_iff_exists, Text.first?, isSome_head?]
    simpa using hv
  have hwhole : Text.drop v 0 = v := by simp [Text.drop]
  unfold pattern negatedPattern
  rw [drop_minus, drop_minus, hwhole, last?_minus hv, hc]
  dsimp only
  split_ifs
  · exact ⟨_, _, _, .contains, rfl, rfl⟩
  · exact ⟨_, _, _, .endsWith, rfl, rfl⟩
  · exact ⟨_, _, _, .startsWith, rfl, rfl⟩
  · exact ⟨_, _, _, .equalTo, rfl, rfl⟩

/-- The words that place a date. -/
def dateWords : List (List String) := [["after"], ["before"], ["on"], ["not", "on"]]

theorem dateWord?_eq_none_iff {words : List String} :
    dateWord? words = none ↔ ∀ ws ∈ dateWords, ¬ ws <+: words := by
  unfold dateWord? dateWords
  split <;> simp_all [List.IsPrefix, eq_comm]

theorem valueConditions_text (hnl : v ≠ "NULL" ∧ v ≠ "-NULL") (hbool : v ≠ "TRUE" ∧ v ≠ "FALSE") :
    valueConditions (.text v) none = (textCondition v).map ([·]) := by
  have hboolean : boolean? (.text v) = none := by simp [boolean?, Value.same, hbool.1, hbool.2]
  unfold valueConditions
  split <;> simp_all

theorem textCondition_pattern (hli : Text.contains v ", " = false)
    (hsign : ∀ w ∈ ["-", "<", ">", "=", "!="], Text.startsWith v w = false)
    (hwd : ∀ ws ∈ dateWords, ¬ ws <+: Text.split v " ") : textCondition v = pattern v := by
  have hlonger : ∀ w w' : String, w.toList <+: w'.toList → Text.startsWith v w = false →
      Text.startsWith v w' = false := by
    intro w w' hww h
    rw [Text.startsWith, ← Bool.not_eq_true, isPrefixOf_iff_prefix] at h ⊢
    exact fun h' => h (hww.trans h')
  simp only [forall_mem_cons] at hsign
  obtain ⟨hmin, hlt, hgt, heq, hne, -⟩ := hsign
  have hno : sign? v = none := by
    simp [sign?, signs, hlt, hgt, heq, hne, hlonger "<" "<=" (by decide) hlt,
      hlonger "<" "<>" (by decide) hlt, hlonger ">" ">=" (by decide) hgt]
  simp only [textCondition, dateWord?_eq_none_iff.mpr hwd, split_of_contains hli, hno]
  rw [if_neg (by simp)]
  split
  · next hfst =>
    obtain ⟨cs, hcs⟩ := List.head?_eq_some_iff.mp hfst
    rw [Text.startsWith, hcs] at hmin
    simp at hmin
  · rfl

theorem textCondition_minus (hli : Text.contains v ", " = false) :
    textCondition ("-" ++ v) = negatedPattern ("-" ++ v) := by
  have hchs : ("-" ++ v).toList = '-' :: v.toList := by simp
  have hwd : dateWord? (split ("-" ++ v) " ") = none := by
    obtain ⟨rest, hhead⟩ := head?_splitChars [' '] ['-'] v.toList 0
    have hsp : (split ("-" ++ v) " ").head? = some ("-" ++ String.ofList rest) := by
      rw [split, hchs, List.head?_map]
      change ((splitChars [' '] 0 ['-'] v.toList).head?).map String.ofList = _
      simp [hhead]
    unfold dateWord?
    split
    all_goals first
      | rfl
      | next heq =>
        rw [heq, List.head?_cons, Option.some_inj] at hsp
        exact absurd hsp.symm (minus_ne (by decide) _)
  have hpieces : Text.contains ("-" ++ v) ", " = false := by
    rw [Text.contains, Text.find?] at *
    simpa [Text.findChars] using hli
  have hsign : sign? ("-" ++ v) = none := by
    simp [sign?, signs, Text.startsWith]
  have hfst : Text.first? ("-" ++ v) = some '-' := by simp [Text.first?]
  simp [textCondition, hwd, split_of_contains hpieces, hsign, hfst]

/-- **A minus negates.** -/
theorem read_minus (hv : v ≠ "") (hlist : Text.contains v ", " = false)
    (hbool : v ≠ "TRUE" ∧ v ≠ "FALSE")
    (hsign : ∀ w ∈ ["-", "<", ">", "=", "!="], Text.startsWith v w = false)
    (hdate : Phrase.read? v = none) (hword : ∀ ws ∈ dateWords, ¬ ws <+: Text.split v " ")
    (almanac : Almanac) (week timezone : Value) :
    ∃ e e' x, Complements e e' ∧ read almanac (.text v) week timezone = .ok [(e, x)] ∧
      read almanac (.text ("-" ++ v)) week timezone = .ok [(e', x)] := by
  rw [read_of_undated hdate, read_of_undated (Phrase.read?_minus hdate)]
  by_cases hnull : v = "NULL"
  · subst hnull
    exact ⟨_, _, _, .isNull, rfl, rfl⟩
  have hminus : ∀ w : String, "-" ++ v = "-" ++ w → v = w := fun w h => by simpa using h
  obtain ⟨e, e', x, hcomplement, hplain, hnegated⟩ := pattern_complements hv
  refine ⟨e, e', x, hcomplement, ?_, ?_⟩
  · have hstart : v ≠ "-NULL" := by
      rintro rfl
      exact absurd (hsign "-" (by simp)) (by decide)
    rw [valueConditions_text ⟨hnull, hstart⟩ hbool, textCondition_pattern hlist hsign hword, hplain]
    rfl
  · rw [valueConditions_text ⟨Text.minus_ne (by decide) v, fun h => hnull (hminus "NULL" h)⟩
      ⟨Text.minus_ne (by decide) v, Text.minus_ne (by decide) v⟩, textCondition_minus hlist,
      hnegated]
    rfl

theorem read_minus_west :
    ∃ e e' x, Complements e e' ∧ read (.ofInstant 0) (.text "%west") .null .null = .ok [(e, x)] ∧
      read (.ofInstant 0) (.text ("-" ++ "%west")) .null .null = .ok [(e', x)] :=
  read_minus (by decide) (by decide) (by decide) (by decide) (by decide) (by decide)
    (.ofInstant 0) .null .null

/-! ### Values that cannot be read -/

/-- What a reading should come to: some conditions, or an error of the query. -/
def IsAnswer {α : Type} (x : Result (List α)) : Prop :=
  (∃ c cs, x = .ok (c :: cs)) ∨ ∃ e, x = .error e ∧ e.kind = .query

/-- An empty piece stands behind pieces that all have a property. -/
inductive Breaks (P : String → Prop) : List String → Prop
  | here (ps : List String) : Breaks P ("" :: ps)
  | later {p : String} {ps : List String} (hp : P p) (h : Breaks P ps) : Breaks P (p :: ps)

def IsNegated (p : String) : Prop := Text.first? p = some '-'

def IsPlain (p : String) : Prop := p ≠ "" ∧ Text.first? p ≠ some '-'

/-- The texts that no filter can have as its value. -/
inductive IsGarbled (c : Clock) : String → Prop
  | empty : IsGarbled c ""
  | minus : IsGarbled c "-"
  /-- A phrase that counts in no unit, or beyond the calendar. -/
  | phrase {s : String} {p : Phrase} {e : Error} (hp : Phrase.read? s = some p)
      (he : p.range c = .error e) : IsGarbled c s
  | date {s : String} (hp : Phrase.read? s = none)
      (hword : ∃ ws ∈ dateWords, ws <+: Text.split s " ")
      (hdate : date? ((Text.split s " ").getLast?.getD "") = none) : IsGarbled c s
  /-- A list with an empty piece where it is not yet known to be mixed. -/
  | list {s : String} (hp : Phrase.read? s = none)
      (hword : ∀ ws ∈ dateWords, ¬ ws <+: Text.split s " ")
      (hmany : 1 < (Text.split s ", ").length)
      (hbreak : Breaks IsNegated (Text.split s ", ") ∨ Breaks IsPlain (Text.split s ", ")) :
      IsGarbled c s
  | number {s rest : String} {e : Expression} (hp : Phrase.read? s = none)
      (hword : ∀ ws ∈ dateWords, ¬ ws <+: Text.split s " ")
      (hone : ¬ 1 < (Text.split s ", ").length) (hsign : sign? s = some (e, rest))
      (hnumber : Numeral.read? rest = none) : IsGarbled c s

theorem first?_eq_none_iff {p : String} : Text.first? p = none ↔ p = "" := by
  simp [Text.first?]

theorem breaks_cons_iff {P : String → Prop} :
    Breaks P (p :: ps) ↔ Text.first? p = none ∨ P p ∧ Breaks P ps := by
  rw [first?_eq_none_iff]
  constructor
  · rintro (_ | ⟨hp, h⟩)
    · exact .inl rfl
    · exact .inr ⟨hp, h⟩
  · rintro (rfl | ⟨hp, h⟩)
    · exact .here ps
    · exact .later hp h

theorem allNegated_cases (ps : List String) :
    (allNegated ps = malformed .outOfRange ∧ Breaks IsNegated ps) ∨
      ∃ b, allNegated ps = .ok b ∧ ¬ Breaks IsNegated ps := by
  fun_induction allNegated ps with
  | case1 => exact .inr ⟨true, rfl, nofun⟩
  | case2 p ps hp => exact .inl ⟨rfl, breaks_cons_iff.mpr (.inl hp)⟩
  | case3 p ps hp ih => simpa [breaks_cons_iff, IsNegated, hp] using ih
  | case4 p ps c hc hp =>
    refine .inr ⟨false, rfl, ?_⟩
    simpa [breaks_cons_iff, IsNegated, hp] using fun h => absurd h hc

theorem anyNegated_cases (ps : List String) :
    (anyNegated ps = malformed .outOfRange ∧ Breaks IsPlain ps) ∨
      ∃ b, anyNegated ps = .ok b ∧ ¬ Breaks IsPlain ps := by
  fun_induction anyNegated ps with
  | case1 => exact .inr ⟨false, rfl, nofun⟩
  | case2 p ps hp => exact .inl ⟨rfl, breaks_cons_iff.mpr (.inl hp)⟩
  | case3 p ps hp => exact .inr ⟨true, rfl, by simp [breaks_cons_iff, IsPlain, hp]⟩
  | case4 p ps c hp hc ih =>
    have hplain : c ≠ '-' := hp
    simpa [breaks_cons_iff, IsPlain, ← first?_eq_none_iff, hc, hplain] using ih

theorem not_breaks_of_allNegated (h : allNegated ps = .ok true) : ¬ Breaks IsPlain ps := by
  cases ps with
  | nil => exact nofun
  | cons p ps =>
    unfold allNegated at h
    split at h
    · cases h
    · next hp => simp [breaks_cons_iff, IsPlain, hp]
    · cases h

theorem listCondition_eq_error_iff : listCondition ps = .error e ↔
      e = .malformed .outOfRange ∧ (Breaks IsNegated ps ∨ Breaks IsPlain ps) ∨
        e = .mixedNegation ∧ listCondition ps = .error .mixedNegation := by
  unfold listCondition
  obtain ⟨hall, hbreak⟩ | ⟨b, hall, hnot⟩ := allNegated_cases ps
  · rw [hall]
    simp [malformed, bind, Except.bind, hbreak, eq_comm]
  cases b with
  | true =>
    have hpl := not_breaks_of_allNegated hall
    simp [hall, bind, Except.bind, pure, Except.pure, hnot, hpl]
  | false =>
    obtain ⟨hany, hbreak⟩ | ⟨b, hany, hnot'⟩ := anyNegated_cases ps
    · simp [hall, hany, malformed, bind, Except.bind, hbreak, eq_comm]
    · cases b <;> simp [hall, hany, bind, Except.bind, pure, Except.pure, hnot, hnot', eq_comm]

theorem pattern_eq_error (h : pattern s = .error e) : s = "" := by
  unfold pattern at h
  split at h
  · next hs => exact first?_eq_none_iff.mp hs
  · dsimp only at h
    split_ifs at h

theorem negatedPattern_eq_error (h : negatedPattern s = .error e) : Text.drop s 1 = "" := by
  unfold negatedPattern at h
  split at h
  · next hs => exact first?_eq_none_iff.mp hs
  · dsimp only at h
    split_ifs at h

variable {c : Clock}

theorem IsGarbled.textCondition (h : IsGarbled c s) (hp : Phrase.read? s = none) :
    ∃ m, textCondition s = malformed m := by
  cases h with
  | empty => exact ⟨_, rfl⟩
  | minus => exact ⟨_, rfl⟩
  | phrase hp' => rw [hp] at hp'; cases hp'
  | date _ hwd hdt =>
    obtain ⟨e, he⟩ : ∃ e, dateWord? (split s " ") = some e := by
      rw [← Option.ne_none_iff_exists', ne_eq, dateWord?_eq_none_iff]
      simpa using hwd
    exact ⟨.badValue, by simp only [Filter.textCondition, he, hdt]⟩
  | list _ hwd hmany hbreak =>
    simp only [Filter.textCondition, dateWord?_eq_none_iff.mpr hwd, if_pos hmany]
    exact ⟨_, listCondition_eq_error_iff.mpr (.inl ⟨rfl, hbreak⟩)⟩
  | number _ hwd hone hsign hnum =>
    exact ⟨.badValue, by
      simp only [Filter.textCondition, dateWord?_eq_none_iff.mpr hwd, if_neg hone, hsign, hnum]⟩

theorem isGarbled_of_textCondition (h : textCondition s = .error e) (hp : Phrase.read? s = none)
    (c : Clock) : e = .mixedNegation ∨ IsGarbled c s := by
  unfold Filter.textCondition at h
  dsimp only at h
  split at h
  · next e' hwd =>
    split at h
    · cases h
    · next hdt =>
      refine .inr (.date hp ?_ hdt)
      by_contra hnot
      rw [dateWord?_eq_none_iff.mpr (by simpa using hnot)] at hwd
      cases hwd
  · next hwd =>
    have hwd := dateWord?_eq_none_iff.mp hwd
    split_ifs at h with hmany
    · obtain ⟨-, hbreak⟩ | ⟨rfl, -⟩ := listCondition_eq_error_iff.mp h
      · exact .inr (.list hp hwd hmany hbreak)
      · exact .inl rfl
    split at h
    · next e' rest hsign =>
      split at h
      · cases h
      · next hnum => exact .inr (.number hp hwd hmany hsign hnum)
    · split at h
      · next hfst =>
        obtain ⟨cs, hcs⟩ := List.head?_eq_some_iff.mp hfst
        have hr := negatedPattern_eq_error h
        rw [Text.drop, hcs, drop_one, String.ofList_eq_empty_iff] at hr
        subst hr
        obtain rfl : s = "-" := String.toList_injective hcs
        exact .inr .minus
      · obtain rfl := pattern_eq_error h
        exact .inr .empty

/-! ### Answers -/

/-- A result that is not refused as a query. -/
def Unrefused {α : Type} (x : Result α) : Prop := ∀ e, x = .error e → e.kind ≠ .query

theorem Unrefused.of_ok {α : Type} (a : α) : Unrefused (.ok a) := nofun

theorem Unrefused.bind {α β : Type} {x : Result α} {f : α → Result β} (hx : Unrefused x)
    (hf : ∀ a, Unrefused (f a)) : Unrefused (x >>= f) := by
  cases x with
  | error e => exact fun e' h => by cases h; exact hx e rfl
  | ok a => exact hf a

theorem Unrefused.of_date (x : Except DateError Date) :
    Unrefused (x.mapError Clock.ofDateError) := by
  cases x with
  | error e => cases e <;> exact fun _ h => by cases h; decide
  | ok d => exact .of_ok d

theorem Unrefused.range (p : Phrase) (c : Clock) : Unrefused (p.range c) := by
  have hrch : ∀ d unit n, Unrefused (Clock.reach d unit n) := by
    intro d unit n
    unfold Clock.reach
    split_ifs
    · exact fun _ h => by cases h; decide
    · exact .of_date _
  have hst : ∀ lag unit, Unrefused (c.startDate lag unit) := fun _ _ =>
    (hrch _ _ _).bind fun _ => .of_date _
  have haft : ∀ d lag unit, Unrefused (c.endAfter d lag unit) := fun _ _ _ =>
    (hrch _ _ _).bind fun _ => (Unrefused.of_date _).bind fun _ => .of_ok _
  have hperiod : ∀ m n unit, Unrefused (Phrase.period c m n unit) := fun _ n unit =>
    (hst _ _).bind fun _ => (haft c.today (-n) unit).bind fun _ => .of_ok _
  cases p with
  | today => exact hperiod _ _ _
  | yesterday => exact hperiod _ _ _
  | agoFor n unit m span => exact (hst _ _).bind fun _ => (haft _ _ _).bind fun _ => .of_ok _
  | modified count unit modifier =>
    refine (hst _ _).bind fun start => ?_
    have hdays : Unrefused (c.elapsedDays unit) := (hst _ _).bind fun _ => .of_ok _
    cases modifier with
    | ago => exact (haft c.today _ _).bind fun _ => .of_ok _
    | toDate => exact hdays.bind fun _ => (haft _ _ _).bind fun _ => .of_ok _
    | agoToDate => exact hdays.bind fun _ => (haft _ _ _).bind fun _ => .of_ok _
    | openEnded _ => exact .of_ok _
  | recent count unit => cases count <;> exact hperiod _ _ _

theorem read_of_dated {p : Phrase} (hp : Phrase.read? s = some p)
    (hzone : zone almanac timezone = .ok z) :
    read almanac (.text s) week timezone
      = p.range { instant := almanac.instant, zone := z, weekStart := weekStart week } >>= fun r =>
        valueConditions (.text s) (some r.bounds) := by
  have hph : Phrase.read? (Value.text s).plain = some p := hp
  unfold read readOn dateBounds
  simp only [hph, hzone, bind_assoc]
  change ((liftM (p.range ⟨almanac.instant, z, weekStart week⟩) >>=
    fun r => set monday >>= fun _ => liftM (valueConditions (.text s) (some r.bounds)) :
      Reading _).run.run (weekStart week)).1 = _
  cases p.range ⟨almanac.instant, z, weekStart week⟩ <;> rfl

theorem isAnswer_map {α β : Type} (f : α → β) (x : Result (List α)) :
    IsAnswer (x.map (·.map f)) ↔ IsAnswer x := by
  unfold IsAnswer
  cases x with
  | error e => simp [Except.map]
  | ok l => cases l <;> simp [Except.map]

theorem isAnswer_valueConditions (s : String) (b : Expression × Value)
    (bs : List (Expression × Value)) : IsAnswer (valueConditions (.text s) (some (b :: bs))) := by
  unfold valueConditions
  split <;> try exact .inl ⟨_, _, rfl⟩
  · next h => cases h
  · next h => cases h
  · split <;> exact .inl ⟨_, _, rfl⟩

theorem isAnswer_undated (hp : Phrase.read? s = none) :
    IsAnswer (valueConditions (.text s) none) ↔ ¬ IsGarbled c s := by
  by_cases hwd : s ∈ ["NULL", "-NULL", "TRUE", "FALSE"]
  · simp only [mem_cons, not_mem_nil, or_false] at hwd
    rcases hwd with rfl | rfl | rfl | rfl
    all_goals
      refine iff_of_true (.inl ⟨_, _, rfl⟩) fun h => ?_
      obtain ⟨m, hm⟩ := h.textCondition hp
      exact Bool.noConfusion (show true = false from congrArg Except.isOk hm)
  simp only [mem_cons, not_mem_nil, or_false, not_or] at hwd
  obtain ⟨hnl, hnl', hbool⟩ := hwd
  rw [valueConditions_text ⟨hnl, hnl'⟩ hbool]
  have hgarbled : IsGarbled c s → ∃ m, Filter.textCondition s = malformed m :=
    fun h => h.textCondition hp
  cases ht : Filter.textCondition s with
  | ok x =>
    refine iff_of_true (.inl ⟨x, [], rfl⟩) fun h => ?_
    obtain ⟨m, hm⟩ := hgarbled h
    cases ht.symm.trans hm
  | error e =>
    obtain rfl | hg := isGarbled_of_textCondition ht hp c
    · refine iff_of_true (.inr ⟨_, rfl, rfl⟩) fun h => ?_
      obtain ⟨m, hm⟩ := hgarbled h
      cases ht.symm.trans hm
    · obtain ⟨m, hm⟩ := hgarbled hg
      cases ht.symm.trans hm
      refine iff_of_false ?_ fun h => h hg
      rintro (⟨_, _, h⟩ | ⟨e', h, hk⟩)
      · cases h
      · cases h
        cases hk

theorem isAnswer_read (hzone : zone almanac timezone = .ok z) :
    IsAnswer (read almanac (.text s) week timezone) ↔
      ¬ IsGarbled { instant := almanac.instant, zone := z, weekStart := weekStart week } s := by
  cases hp : Phrase.read? s with
  | none => rw [read_of_undated hp, isAnswer_undated hp]
  | some p =>
    rw [read_of_dated hp hzone]
    have hrg := Unrefused.range p
      { instant := almanac.instant, zone := z, weekStart := weekStart week }
    cases hr : p.range { instant := almanac.instant, zone := z, weekStart := weekStart week } with
    | error e =>
      refine iff_of_false ?_ fun h => h (.phrase hp hr)
      rintro (⟨_, _, h⟩ | ⟨e', h, hk⟩)
      · cases h
      · cases h
        exact hrg e hr hk
    | ok r =>
      refine iff_of_true (isAnswer_valueConditions s _ _) fun h => ?_
      cases h with
      | empty => cases (show Phrase.read? "" = none by decide).symm.trans hp
      | minus => cases (show Phrase.read? "-" = none by decide).symm.trans hp
      | phrase hp' he =>
        cases hp.symm.trans hp'
        cases hr.symm.trans he
      | date hp' => cases hp.symm.trans hp'
      | list hp' => cases hp.symm.trans hp'
      | number hp' => cases hp.symm.trans hp'

/-- **A filter on a text is read, or refused as a query, exactly if the text is not garbled.** -/
theorem conditions_isAnswer_iff {almanac : Almanac} {d : Definition} {z : Zone}
    (hfield : d.has "field" = true) (hvalue : d.has "value" = true) (hs : d.get "value" = .text s)
    (hzone : zone almanac (d.get "timezone") = .ok z) :
    IsAnswer (conditions almanac d) ↔
      ¬ IsGarbled { instant := almanac.instant, zone := z,
                    weekStart := weekStart (d.get "week_start_day") } s := by
  have hread : conditions almanac d
      = (read almanac (d.get "value") (d.get "week_start_day") (d.get "timezone")).map
        (·.map fun e => (d.set "expression" (.text e.1.name)).set "value" e.2) := by
    have hkeys : ["field", "value"].find? (!d.has ·) = none := by simp [hfield, hvalue]
    unfold conditions conditionsOn
    rw [hkeys]
    exact (readOn_forgets _ _ _ _).alone_bind fun _ => .of_pure _
  rw [hread, isAnswer_map, hs]
  exact isAnswer_read hzone

def onStatus (value : String) : Definition :=
  [("field", .text "orders.status"), ("value", .text value)]

/-- Two hours ahead at all times. -/
def eastern : Zone := ⟨fun _ => 7200, fun d => d.toOrdinal * 86400 - 7200⟩

theorem conditions_isAnswer_yesterday :
    IsAnswer (conditions ⟨63822421230, fun n => if n == "Europe/Athens" then eastern else none⟩
      ((onStatus "yesterday").set "timezone" (.text "Europe/Athens"))) ↔
      ¬ IsGarbled { instant := 63822421230, zone := eastern, weekStart := 1 } "yesterday" :=
  conditions_isAnswer_iff rfl rfl rfl rfl

/-- An empty piece of a list is looked at as if it had a first character. -/
theorem empty_piece_fails : ¬ IsAnswer (conditions (.ofInstant 0) (onStatus "paid, , open")) := by
  have hfails : conditions (.ofInstant 0) (onStatus "paid, , open") = malformed .outOfRange := rfl
  rw [hfails]
  rintro (⟨_, _, h⟩ | ⟨e, h, hkind⟩)
  · cases h
  · cases h
    cases hkind

end Filter

end SemanticLayer
