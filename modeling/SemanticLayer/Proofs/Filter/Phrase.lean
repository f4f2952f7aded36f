import SemanticLayer.Proofs.Calendar.Numbered

/-!
# Ranges of date phrases

`n units ago for m units` is the union of `m` whole periods (`Phrase.range_agoFor`).  A period to
date ends as many days behind its start as are over of the current one, so a shorter one runs into
the next (`Phrase.toDate_stays_iff`).
-/

namespace SemanticLayer

open List

variable {f : List Char → Option Phrase}

namespace Text

theorem isBlank_of_isDigit {c : Char} (hc : isDigit c = true) : isBlank c = false := by
  have happart : ∀ z ∈ digitZeros, ∀ r ∈ blankRanges, r.2 < z ∨ z + 9 < r.1 := by decide
  rw [isDigit, digitValue?, Option.isSome_map, List.find?_isSome] at hc
  obtain ⟨z, hz, hc⟩ := hc
  rw [isBlank, any_eq_false]
  intro r hr
  have := happart z hz r hr
  simp only [Bool.and_eq_true, decide_eq_true_iff] at hc ⊢
  omega

end Text

namespace Phrase

variable {unit : Interval} {s s' t u : String} {n m : Nat} {ds rest : List Char}

/-! ### Reading -/

structure IsNumeral (n : Nat) (t : String) : Prop where
  ne_nil : t.toList ≠ []
  digits : ∀ c ∈ t.toList, Text.isDigit c = true
  value : Text.digitsValue t.toList = n

theorem number?_digits (hds : ∀ c ∈ ds, Text.isDigit c = true) (hne : ds ≠ []) (rest : List Char) :
    number? (ds ++ ' ' :: rest) = some (Text.digitsValue ds, ' ' :: rest) := by
  have hstop : Text.isDigit ' ' = false := by decide
  have htake : (ds ++ ' ' :: rest).takeWhile Text.isDigit = ds := by
    rw [takeWhile_append_of_pos hds, takeWhile_cons_of_neg (by simp [hstop]), append_nil]
  have hdrop : (ds ++ ' ' :: rest).dropWhile Text.isDigit = ' ' :: rest := by
    rw [dropWhile_append_of_pos hds, dropWhile_cons_of_neg (by simp [hstop])]
  rw [number?, htake, hdrop]
  simp [hne]

theorem IsNumeral.number? (h : IsNumeral n t) (rest : List Char) :
    number? (t.toList ++ ' ' :: rest) = some (n, ' ' :: rest) := by
  rw [number?_digits h.digits h.ne_nil, h.value]

theorem IsNumeral.blanks? (h : IsNumeral n t) (rest : List Char) :
    blanks? (' ' :: (t.toList ++ rest)) = some (t.toList ++ rest) := by
  obtain ⟨c, ds, hds⟩ := exists_cons_of_ne_nil h.ne_nil
  have hc := Text.isBlank_of_isDigit (h.digits c (hds ▸ mem_cons_self))
  rw [hds, cons_append, Phrase.blanks?, if_pos (by decide), dropWhile_cons_of_neg (by simp [hc])]

theorem IsNumeral.word? {w : String} (h : IsNumeral n t)
    (hw : w.toList.head?.any (!Text.isDigit ·) = true) (rest : List Char) :
    word? w (t.toList ++ rest) = none := by
  obtain ⟨c, ds, hds⟩ := exists_cons_of_ne_nil h.ne_nil
  have hc := h.digits c (hds ▸ mem_cons_self)
  rw [Phrase.word?, hds]
  cases hli : w.toList with
  | nil => rw [hli] at hw; cases hw
  | cons a as =>
    have hne : (a == c) = false := by
      rw [beq_eq_false_iff_ne]
      rintro rfl
      simp [hli, hc] at hw
    rw [cons_append, List.isPrefixOf, hne]
    rfl

theorem search_digits (hds : ∀ c ∈ ds, Text.isDigit c = true)
    (hf : ∀ t, (∀ c ∈ t, Text.isDigit c = true) → t ≠ [] → f (t ++ rest) = none) :
    search f (ds ++ rest) = search f rest := by
  induction ds with
  | nil => rfl
  | cons c ds ih =>
    have hno := hf (c :: ds) hds (by simp)
    rw [cons_append] at hno ⊢
    rw [search, hno]
    exact ih fun d hd => hds d (mem_cons_of_mem c hd)

theorem search_of_some {p : Phrase} {cs : List Char} (h : f cs = some p) :
    search f cs = some p := by
  cases cs with
  | nil => exact h
  | cons c cs => rw [search, h]; rfl

theorem IsNumeral.read? (h : IsNumeral n t) (s : String) :
    read? (t ++ s) = (search agoForAt? (t.toList ++ s.toList) <|>
      search modifiedAt? (t.toList ++ s.toList) <|> search recentAt? (t.toList ++ s.toList)) := by
  have hne : ∀ {w : String}, w.toList.head?.any (!Text.isDigit ·) = true → t ++ s ≠ w := by
    rintro w hw rfl
    have hwd := h.word? hw s.toList
    rw [Phrase.word?, if_pos (by simp)] at hwd
    cases hwd
  rw [Phrase.read?, if_neg (by simpa using hne (w := "today") (by decide)),
    if_neg (by simpa using hne (w := "yesterday") (by decide)), String.toList_append]

def IsWord (unit : Interval) (u : String) : Prop := u = unit.word ∨ u = unit.word ++ "s"

def IsAmount (n : Nat) (unit : Interval) (s : String) : Prop :=
  ∃ t u, IsNumeral n t ∧ IsWord unit u ∧ s = t ++ " " ++ u

theorem IsWord.head?_units (hu : IsWord unit u) :
    ∃ r, (units u.toList).head? = some (unit, r) := by
  rcases hu with rfl | rfl <;> cases unit <;> exact ⟨_, rfl⟩

theorem IsWord.blanks? (hu : IsWord unit u) (r : List Char) :
    blanks? (' ' :: (u.toList ++ r)) = some (u.toList ++ r) := by
  rcases hu with rfl | rfl <;> cases unit <;> rfl

theorem IsWord.findSome?_units {f : Interval × List Char → Option Phrase} (hu : IsWord unit u)
    (hf : ∀ i r, f (i, 's' :: r) = none) (r : List Char) :
    (units (u.toList ++ ' ' :: r)).findSome? f = f (unit, ' ' :: r) := by
  have hone : ∀ x, [x].findSome? f = f x := fun x => by
    rw [List.findSome?_cons]
    cases f x <;> rfl
  rcases hu with rfl | rfl
  · have hunits : units (unit.word.toList ++ ' ' :: r) = [(unit, ' ' :: r)] := by cases unit <;> rfl
    rw [hunits, hone]
  · have hunits : units ((unit.word ++ "s").toList ++ ' ' :: r)
        = [(unit, 's' :: ' ' :: r), (unit, ' ' :: r)] := by cases unit <;> rfl
    rw [hunits, List.findSome?_cons, hf]
    exact hone _

theorem read?_agoFor (hs : IsAmount n unit s) (hs' : IsAmount m unit s') :
    read? (s ++ " ago for " ++ s') = some (.agoFor n unit m unit) := by
  obtain ⟨t, u, ht, hu, rfl⟩ := hs
  obtain ⟨t', v, ht', hv, rfl⟩ := hs'
  have hat : agoForAt? (t.toList ++ (" " ++ u ++ " ago for " ++ t' ++ " " ++ v).toList)
      = some (.agoFor n unit m unit) := by
    obtain ⟨r, hr⟩ := hv.head?_units
    have hago : ∀ s, blanks? (' ' :: 'a' :: s) = some ('a' :: s) := fun _ => rfl
    have hfor : ∀ s, blanks? (' ' :: 'f' :: s) = some ('f' :: s) := fun _ => rfl
    have hago' : ∀ s, word? "ago" ('a' :: 'g' :: 'o' :: s) = some s := fun _ => rfl
    have hfor' : ∀ s, word? "for" ('f' :: 'o' :: 'r' :: s) = some s := fun _ => rfl
    have hend := hv.blanks? []
    rw [append_nil] at hend
    simp only [String.toList_append, show " ".toList = [' '] by decide, append_assoc,
      show " ago for ".toList = [' ', 'a', 'g', 'o', ' ', 'f', 'o', 'r', ' '] by decide,
      cons_append, nil_append]
    rw [agoForAt?, ht.number?]
    simp only [Option.bind_eq_bind, Option.bind_some, hu.blanks?]
    rw [hu.findSome?_units fun _ _ => rfl]
    simp only [hago, hago', hfor, hfor', ht'.blanks?, ht'.number?, hend, hr, Option.bind_some]
  have hrd := ht.read? (" " ++ u ++ " ago for " ++ t' ++ " " ++ v)
  rw [search_of_some hat] at hrd
  simp only [String.append_assoc] at hrd ⊢
  exact hrd

theorem read?_agoToDate (hs : IsAmount n unit s) :
    read? (s ++ " ago to date") = some (.modified (some (.number n)) unit .agoToDate) := by
  obtain ⟨t, u, ht, hu, rfl⟩ := hs
  have htx : (" " ++ u ++ " ago to date").toList
      = ' ' :: (u.toList ++ ' ' :: "ago to date".toList) := by
    simp [String.toList_append]
  have hspan : search agoForAt? (t.toList ++ (" " ++ u ++ " ago to date").toList) = none := by
    rw [search_digits ht.digits]
    · rcases hu with rfl | rfl <;> cases unit <;> decide
    · intro ds hds hne
      rw [htx, agoForAt?, number?_digits hds hne]
      simp only [Option.bind_eq_bind, Option.bind_some, hu.blanks?]
      exact hu.findSome?_units (fun _ _ => rfl) _
  have hat : modifiedAt? (t.toList ++ (" " ++ u ++ " ago to date").toList)
      = some (.modified (some (.number n)) unit .agoToDate) := by
    have hthis := ht.word? (w := "this") (by decide)
    have hlast := ht.word? (w := "last") (by decide)
    rw [htx, modifiedAt?, counts, ht.number?]
    simp only [hlast, hu.blanks?, append_nil, filterMap_cons, Option.map_some, cons_append,
      List.findSome?_cons]
    rw [hu.findSome?_units fun _ _ => rfl]
    rfl
  have hrd := ht.read? (" " ++ u ++ " ago to date")
  rw [hspan, search_of_some hat] at hrd
  simp only [String.append_assoc] at hrd ⊢
  exact hrd

theorem read?_toDate (hu : IsWord unit u) :
    read? (u ++ " to date") = some (.modified none unit .toDate) := by
  rcases hu with rfl | rfl <;> cases unit <;> decide

/-! ### Spans -/

variable {c : Clock}

/-- **`n units ago for m units` is the union of `m` periods**: from the start of the period `n`
units ago to the end of the period `n - m + 1` units ago, if both are there. -/
theorem range_agoFor (hs : IsAmount n unit s) (hs' : IsAmount m unit s') (hm : 1 ≤ m) (c : Clock) :
    ∃ p, read? (s ++ " ago for " ++ s') = some p ∧
      p.range c = do
        let start ← c.startDate n unit
        let stop ← c.endMoment (n - m + 1) unit
        return ⟨.startOfDay start, some stop⟩ := by
  refine ⟨_, read?_agoFor hs hs', ?_⟩
  change (c.startDate n unit >>= fun start => _) = _
  cases hstart : c.startDate n unit with
  | error e => rfl
  | ok start =>
    change (c.endAfter start (m - 1) unit >>= fun stop => _) = _
    rw [Clock.endAfter_startDate (by omega) hstart, show (n : Int) - (m - 1) = n - m + 1 by ring]
    rfl

theorem isAmount_weeks : IsAmount 3 .week "3 weeks" ∧ IsAmount 5 .week "5 weeks" := by
  have hthree : IsNumeral 3 "3" := ⟨by decide, forall_mem_singleton.mpr (by decide), by decide⟩
  have hfive : IsNumeral 5 "5" := ⟨by decide, forall_mem_singleton.mpr (by decide), by decide⟩
  exact ⟨⟨"3", "weeks", hthree, .inr (by decide), by decide⟩,
    ⟨"5", "weeks", hfive, .inr (by decide), by decide⟩⟩

theorem range_agoFor_midJune :
    IsAmount 3 .week "3 weeks" ∧ IsAmount 5 .week "5 weeks" ∧
      ∃ p, read? ("3 weeks" ++ " ago for " ++ "5 weeks") = some p ∧
        p.range Clock.midJune = do
          let start ← Clock.midJune.startDate 3 .week
          let stop ← Clock.midJune.endMoment (3 - 5 + 1) .week
          return ⟨.startOfDay start, some stop⟩ :=
  ⟨isAmount_weeks.1, isAmount_weeks.2,
    range_agoFor isAmount_weeks.1 isAmount_weeks.2 (by decide) Clock.midJune⟩

/-! ### Periods to date -/

/-- The texts for a period to date, `k` periods ago. -/
inductive IsToDate (unit : Interval) : Nat → String → Prop
  | ago {k : Nat} {s : String} (hs : IsAmount k unit s) : IsToDate unit k (s ++ " ago to date")
  | this {u : String} (hu : IsWord unit u) : IsToDate unit 0 (u ++ " to date")

theorem IsToDate.read {k : Nat} {text : String} (h : IsToDate unit k text) :
    ∃ count modifier, read? text = some (.modified count unit modifier) ∧
      lagOf count modifier = k ∧ (modifier = .toDate ∨ modifier = .agoToDate) := by
  cases h with
  | ago hs => exact ⟨_, _, read?_agoToDate hs, rfl, .inr rfl⟩
  | this hu => exact ⟨_, _, read?_toDate hu, rfl, .inl rfl⟩

/-- **A period to date stays in its period exactly if the period is as long as what is over of the
current one**, which weeks and years always are. -/
theorem toDate_stays_iff {k : Nat} {text : String} {start next : Date} (hzone : c.zone = .utc)
    (hnow : Date.inRange c.today.year = true) (hunit : unit ≠ .unknown)
    (htext : IsToDate unit k text) (hstart : c.startDate k unit = .ok start)
    (hnext : c.startDate (k - 1) unit = .ok next) :
    ∃ p first stop, read? text = some p ∧ c.startDate 0 unit = .ok first ∧
      p.range c = .ok ⟨.startOfDay start, some stop⟩ ∧
      (stop.toSeconds < (Moment.startOfDay next).toSeconds ↔
        c.today.toOrdinal - first.toOrdinal ≤ next.toOrdinal - start.toOrdinal) ∧
      (unit = .week ∨ unit = .year → stop.toSeconds < (Moment.startOfDay next).toSeconds) := by
  obtain ⟨count, modifier, hread, hlag, hmodifier⟩ := htext.read
  obtain ⟨first, hfirst⟩ := Clock.exists_startDate_zero hnow hunit hstart
  have hday : c.today.IsDay := Date.isDay_ofOrdinal _
  have hend := hday.le_lastOrdinal hnow
  obtain ⟨h0, -⟩ := Clock.toOrdinal_startDate hunit hfirst
  obtain ⟨h1, hpos⟩ := Clock.toOrdinal_startDate hunit hstart
  obtain ⟨h2, -⟩ := Clock.toOrdinal_startDate hunit hnext
  have hmono := Date.firstDay_strictMono unit c.weekStart
  have hle : start.toOrdinal ≤ first.toOrdinal := h0 ▸ h1 ▸ hmono.monotone (by omega)
  have hlt : start.toOrdinal < next.toOrdinal := h1 ▸ h2 ▸ hmono (by omega)
  have htoday := hday.firstDay_le unit c.weekStart
  rw [Int.sub_zero] at h0
  rw [← h0] at htoday
  generalize hdays : c.today.toOrdinal - first.toOrdinal = days
  obtain ⟨e, hstop, he⟩ := Clock.endAfter_day (c := c) (d := start)
    (n := if 0 < days then days - 1 else 0) (by split_ifs <;> omega) (by split_ifs <;> omega)
  have hstays : (Moment.endOfDay e).toSeconds < (Moment.startOfDay next).toSeconds ↔
      days ≤ next.toOrdinal - start.toOrdinal := by
    have hseconds := Moment.toSeconds_endOfDay e
    rw [Moment.toSeconds_startOfDay]
    split_ifs at he <;> omega
  refine ⟨_, first, .endOfDay e, hread, hfirst, ?_, hdays ▸ hstays, fun hlong => hstays.mpr ?_⟩
  · have helapsed := Clock.elapsedDays_eq hzone hfirst
    rw [hdays] at helapsed
    rcases hmodifier with rfl | rfl
    all_goals
      rw [range, hlag, hstart, Result.ok_bind]
      dsimp only
      rw [helapsed, Result.ok_bind, hstop]
      rfl
  · have helapsed := hday.elapsed_le hlong c.weekStart
      (Date.periodOf unit c.weekStart c.today - k)
    rw [← h0, ← h1, show ∀ a : Int, a - k + 1 = a - (k - 1) by omega, ← h2] at helapsed
    omega

theorem toDate_stays_iff_midJune :
    IsToDate .week 3 ("3 weeks" ++ " ago to date") ∧
      ∃ p first stop, read? ("3 weeks" ++ " ago to date") = some p ∧
        Clock.midJune.startDate 0 .week = .ok first ∧
        p.range Clock.midJune = .ok ⟨.startOfDay ⟨2023, 5, 22⟩, some stop⟩ ∧
        (stop.toSeconds < (Moment.startOfDay ⟨2023, 5, 29⟩).toSeconds ↔
          Clock.midJune.today.toOrdinal - first.toOrdinal
            ≤ (Date.mk 2023 5 29).toOrdinal - (Date.mk 2023 5 22).toOrdinal) ∧
        (Interval.week = .week ∨ Interval.week = .year →
          stop.toSeconds < (Moment.startOfDay ⟨2023, 5, 29⟩).toSeconds) :=
  ⟨.ago isAmount_weeks.1, toDate_stays_iff rfl (by decide +kernel) (by decide)
    (.ago isAmount_weeks.1) rfl rfl⟩

def marchEnd : Clock := { instant := 63815941230, zone := .utc, weekStart := 1 }

/-- February to date, seen from the last day of March, ends in March. -/
theorem february_runs_into_march :
    ∃ p start stop next, read? "1 month ago to date" = some p ∧
      marchEnd.startDate 1 .month = .ok start ∧ marchEnd.startDate 0 .month = .ok next ∧
      p.range marchEnd = .ok ⟨.startOfDay start, some stop⟩ ∧
      start.month = 2 ∧ stop.wall = "2023-03-02T23:59:59" ∧
      ¬ stop.toSeconds < (Moment.startOfDay next).toSeconds :=
  ⟨_, _, _, _, rfl, rfl, rfl, rfl, by decide +kernel, by decide +kernel, by decide +kernel⟩

end Phrase

end SemanticLayer
