import SemanticLayer.Proofs.Graph.Route

/-!
# The search for shortest paths is right

The search works from both ends: `Side.Holds` is what one side keeps true, and `Search.Holds` adds
that the best meeting is a route and no node seen on both sides gives a better one.

One step keeps this (`Holds.relax`, `Holds.turned`) and uses up some of a finite amount of work
(`Search.work`), and once a node is settled on both sides no route is lighter than the best meeting
(`Holds.best_le`).  Together: `shortestPath?_some` and `shortestPath?_isSome`.
-/

namespace SemanticLayer.Digraph

open List Side

variable {d k n number reached : Nat}

variable {ν α : Type} [DecidableEq ν]

variable {best : Option (Nat × List ν)} {e : Nat × Nat × ν} {p : List ν} {v w x : ν}
  {waiting : ν → ν × Nat → Prop} {ways : List (ν × Nat)}

/-! ### Tables -/

theorem distance?_cons (w v : ν) (d : Nat) (table : List (ν × Nat)) :
    Side.distance? ((w, d) :: table) v = if w = v then some d else Side.distance? table v := by
  unfold distance?
  by_cases h : w = v <;> simp [h]

/-- One step of the scan for the nearest node. -/
def nearer (best : Option (Nat × Nat × ν)) (e : Nat × Nat × ν) : Option (Nat × Nat × ν) :=
  match best with
  | none => some e
  | some b => if e.1 < b.1 ∨ (e.1 = b.1 ∧ e.2.1 < b.2.1) then some e else some b

omit [DecidableEq ν] in
theorem foldl_nearer : ∀ (l : List (Nat × Nat × ν)) (best : Option (Nat × Nat × ν)),
    (l.foldl nearer best = none ↔ best = none ∧ l = []) ∧
      ∀ r, l.foldl nearer best = some r → (best = some r ∨ r ∈ l) ∧ (∀ e ∈ l, r.1 ≤ e.1) ∧
        ∀ b, best = some b → r.1 ≤ b.1
  | [], best => by
    refine ⟨by simp, fun r hr => ?_⟩
    subst hr
    exact ⟨Or.inl rfl, by simp, fun b hb => by cases hb; exact Nat.le_refl _⟩
  | e :: l, best => by
    simp only [foldl_cons]
    obtain ⟨ih1, ih2⟩ := foldl_nearer l (nearer best e)
    have hs : ∃ r', nearer best e = some r' ∧ (best = some r' ∨ r' = e) ∧ r'.1 ≤ e.1 ∧
        ∀ b, best = some b → r'.1 ≤ b.1 := by
      unfold nearer
      rcases best with _ | b
      · exact ⟨e, rfl, Or.inr rfl, Nat.le_refl _, fun b hb => by cases hb⟩
      · simp only
        split_ifs with h
        · refine ⟨e, rfl, Or.inr rfl, Nat.le_refl _, fun b' hb => ?_⟩
          cases hb; omega
        · refine ⟨b, rfl, Or.inl rfl, by omega, fun b' hb => ?_⟩
          cases hb; exact Nat.le_refl _
    obtain ⟨r', hr', hor, hle, hb⟩ := hs
    refine ⟨?_, fun r hr => ?_⟩
    · rw [ih1, hr']; simp
    · obtain ⟨h1, h2, h3⟩ := ih2 r hr
      have hrr' := h3 r' hr'
      refine ⟨?_, ?_, fun b hbest => Nat.le_trans hrr' (hb b hbest)⟩
      · rcases h1 with h1 | h1
        · rw [hr'] at h1
          cases h1
          rcases hor with hor | rfl
          · exact Or.inl hor
          · exact Or.inr (by simp)
        · exact Or.inr (by simp [h1])
      · intro e' he'
        rcases mem_cons.mp he' with rfl | he'
        · exact Nat.le_trans hrr' hle
        · exact h2 e' he'

omit [DecidableEq ν] in
theorem nearest?_some {s : Side ν} (h : s.nearest? = some e) :
    e ∈ s.fringe ∧ ∀ e' ∈ s.fringe, e.1 ≤ e'.1 := by
  obtain ⟨h1, h2, -⟩ := (foldl_nearer s.fringe none).2 e h
  exact ⟨h1.resolve_left (by simp), h2⟩

/-! ### One side -/

namespace Side

/-- What one side of the search keeps true.  `next` gives the neighbours in its direction, `back`
those in the other; `waiting v e` says that the way `e` from the settled node `v` was not gone
yet. -/
structure Holds (next back : ν → List (ν × Nat)) (home : ν) (waiting : ν → ν × Nat → Prop)
    (s : Side ν) : Prop where
  trails : ∀ v d, distance? s.seen v = some d → Route back home v (s.trail v) d
  settled : ∀ v d, distance? s.settled v = some d → distance? s.seen v = some d
  fringe : ∀ e ∈ s.fringe, ∃ d ≤ e.1, distance? s.seen e.2.2 = some d
  pending : ∀ v d, distance? s.seen v = some d → distance? s.settled v = none →
    ∃ n, (d, n, v) ∈ s.fringe
  ordered : ∀ v d, distance? s.settled v = some d → ∀ e ∈ s.fringe, d ≤ e.1
  gone : ∀ v d, distance? s.settled v = some d → ∀ e ∈ next v, ¬ waiting v e →
    ∃ d' ≤ d + e.2, distance? s.seen e.1 = some d'
  atHome : distance? s.seen home = some 0
  fresh : distance? s.settled home = none → ∃ n, s.fringe = [(0, n, home)]
  distinct : (s.fringe.map (·.2.1)).Nodup

def nothing : ν → ν × Nat → Prop := fun _ _ => False

variable {next back : ν → List (ν × Nat)} {home : ν} {s : Side ν}

theorem holds_start (number : Nat) (v : ν) : (Side.start number v).Holds next back v nothing := by
  refine ⟨?_, ?_, ?_, ?_, ?_, ?_, ?_, ?_, ?_⟩
  · intro w d h
    simp only [start, distance?_cons] at h
    split_ifs at h with hw
    · subst hw
      cases h
      simpa [start, trail] using Route.done
    · simp [distance?] at h
  · intro w d h; simp [start, distance?] at h
  · intro e he
    simp only [start, mem_singleton] at he
    subst he
    exact ⟨0, Nat.le_refl _, by simp [start, distance?]⟩
  · intro w d h _
    simp only [start, distance?_cons] at h
    split_ifs at h with hw
    · subst hw
      cases h
      exact ⟨number, by simp [start]⟩
    · simp [distance?] at h
  · intro w d h; simp [start, distance?] at h
  · intro w d h; simp [start, distance?] at h
  · simp [start, distance?]
  · intro _; exact ⟨number, rfl⟩
  · simp [start]

/-- The fringe without the entry that was taken. -/
def taken (s : Side ν) (number : Nat) : Side ν :=
  { s with fringe := s.fringe.filter (·.2.1 ≠ number) }

omit [DecidableEq ν] in
theorem mem_taken : e ∈ (s.taken number).fringe ↔ e ∈ s.fringe ∧ e.2.1 ≠ number := by simp [taken]

omit [DecidableEq ν] in
theorem mem_taken_of_ne (hd : (s.fringe.map (·.2.1)).Nodup) {d' n' : Nat} {v' : ν}
    (h : (d, n, v) ∈ s.fringe) (h' : (d', n', v') ∈ s.fringe) (hne : v' ≠ v) :
    (d', n', v') ∈ (s.taken n).fringe := by
  refine mem_taken.mpr ⟨h', fun hn => hne ?_⟩
  have := inj_on_of_nodup_map hd h' h hn
  simp only [Prod.mk.injEq] at this
  exact this.2.2

omit [DecidableEq ν] in
theorem length_taken (h : (d, n, v) ∈ s.fringe) : (s.taken n).fringe.length < s.fringe.length := by
  refine length_filter_lt_length_iff_exists.mpr ⟨_, h, ?_⟩
  simp

/-- Until its home is settled, a side has nothing but its home in the fringe. -/
theorem Holds.eq_home (h : s.Holds next back home waiting) (he : (d, n, v) ∈ s.fringe)
    (hs : distance? s.settled home = none) : v = home := by
  obtain ⟨m, hm⟩ := h.fresh hs
  rw [hm] at he
  simp only [mem_singleton, Prod.mk.injEq] at he
  exact he.2.2

theorem Holds.stale (h : s.Holds next back home nothing) (he : (d, n, v) ∈ s.fringe)
    (hv : distance? s.settled v ≠ none) : (s.taken n).Holds next back home nothing := by
  refine ⟨h.trails, h.settled, ?_, ?_, ?_, h.gone, h.atHome, ?_, ?_⟩
  · intro e hmem; exact h.fringe e (mem_taken.mp hmem).1
  · intro w dw hw hs
    obtain ⟨m, hm⟩ := h.pending w dw hw hs
    refine ⟨m, mem_taken_of_ne h.distinct he hm ?_⟩
    rintro rfl
    exact hv hs
  · intro w dw hw e hmem; exact h.ordered w dw hw e (mem_taken.mp hmem).1
  · intro hs
    obtain rfl := h.eq_home he hs
    exact absurd hs hv
  · exact h.distinct.sublist (filter_sublist.map _)

/-- A side that settles `v` at distance `d`, without going on from there yet. -/
def settle (s : Side ν) (v : ν) (d : Nat) : Side ν := { s with settled := (v, d) :: s.settled }

theorem distance?_settle :
    distance? (s.settle v d).settled w = if v = w then some d else distance? s.settled w :=
  distance?_cons v w d s.settled

/-- The entry that is taken, of a node not settled before, has the node's distance. -/
theorem Holds.nearest_seen (h : s.Holds next back home waiting) (he : (d, n, v) ∈ s.fringe)
    (hmin : ∀ e ∈ s.fringe, d ≤ e.1) (hv : distance? s.settled v = none) :
    distance? s.seen v = some d := by
  obtain ⟨d', hle, hd'⟩ := h.fringe _ he
  obtain ⟨m, hm⟩ := h.pending v d' hd' hv
  have := hmin _ hm
  rw [hd', Nat.le_antisymm hle this]

theorem Holds.settle (h : s.Holds next back home nothing) (he : (d, n, v) ∈ s.fringe)
    (hmin : ∀ e ∈ s.fringe, d ≤ e.1) (hv : distance? s.settled v = none) :
    ((s.taken n).settle v d).Holds next back home (fun w e => w = v ∧ e ∈ next v) := by
  have hseen := h.nearest_seen he hmin hv
  refine ⟨h.trails, ?_, ?_, ?_, ?_, ?_, h.atHome, ?_, ?_⟩
  · intro w dw hw
    rw [distance?_settle] at hw
    split_ifs at hw with hvw
    · cases hw; subst hvw; exact hseen
    · exact h.settled w dw hw
  · intro e hmem; exact h.fringe e (mem_taken.mp hmem).1
  · intro w dw hw hs
    rw [distance?_settle] at hs
    split_ifs at hs with hvw
    obtain ⟨m, hm⟩ := h.pending w dw hw hs
    exact ⟨m, mem_taken_of_ne h.distinct he hm (Ne.symm hvw)⟩
  · intro w dw hw e hmem
    have hmem' := (mem_taken.mp hmem).1
    rw [distance?_settle] at hw
    split_ifs at hw with hvw
    · cases hw; exact hmin e hmem'
    · exact h.ordered w dw hw e hmem'
  · intro w dw hw e hnx hwait
    rw [distance?_settle] at hw
    split_ifs at hw with hvw
    · subst hvw; exact absurd ⟨rfl, hnx⟩ hwait
    · exact h.gone w dw hw e hnx (fun hf => hf)
  · intro hs
    rw [distance?_settle] at hs
    split_ifs at hs with hvw
    exact absurd (h.eq_home he hs) hvw
  · exact h.distinct.sublist (filter_sublist.map _)

/-! ### Going along one arc -/

theorem seen_see :
    distance? (s.see v w d number).seen x = if w = x then some d else distance? s.seen x :=
  distance?_cons w x d s.seen

theorem trail_see :
    (s.see v w d number).trail x = if w = x then w :: s.trail v else s.trail x := by
  unfold see trail
  by_cases h : w = x <;> simp [h]

/-- Whether a node at this distance is nearer than it was known to be. -/
def IsNearer (s : Side ν) (w : ν) (reached : Nat) : Prop :=
  distance? s.settled w = none ∧ ∀ d, distance? s.seen w = some d → reached < d

theorem exists_le_seen_see {bound : Nat} (hnear : ∀ d, distance? s.seen w = some d → reached < d)
    (h : ∃ d ≤ bound, distance? s.seen x = some d) :
    ∃ d ≤ bound, distance? (s.see v w reached number).seen x = some d := by
  obtain ⟨d, hle, hd⟩ := h
  rw [seen_see]
  split_ifs with hwx
  · subst hwx
    have := hnear d hd
    exact ⟨reached, by omega, rfl⟩
  · exact ⟨d, hle, hd⟩

theorem nodup_fringe_see (hdis : (s.fringe.map (·.2.1)).Nodup) (hnum : ∀ e ∈ s.fringe, e.2.1 < number) :
    ((s.see v w reached number).fringe.map (·.2.1)).Nodup := by
  have hfringe : (s.see v w reached number).fringe.map (·.2.1)
      = s.fringe.map (·.2.1) ++ [number] := by simp [see]
  rw [hfringe, nodup_append]
  refine ⟨hdis, by simp, ?_⟩
  intro a ha b hb hab
  obtain ⟨e, he, rfl⟩ := mem_map.mp ha
  simp only [mem_singleton] at hb
  have := hnum e he
  omega

omit [DecidableEq ν] in
theorem not_waiting_cons {e way : ν × Nat} (hne : ¬ (x = v ∧ e = way))
    (hwait : ¬ (x = v ∧ e ∈ ways)) : ¬ (x = v ∧ e ∈ way :: ways) := by
  rintro ⟨hxv, hmem⟩
  rcases mem_cons.mp hmem with rfl | hmem
  · exact hne ⟨hxv, rfl⟩
  · exact hwait ⟨hxv, hmem⟩

theorem Holds.see (h : s.Holds next back home (fun x e => x = v ∧ e ∈ (w, k) :: ways))
    (hv : distance? s.settled v = some d) (hmax : ∀ x dx, distance? s.settled x = some dx → dx ≤ d)
    (hhome : distance? s.settled home ≠ none) (hback : (v, k) ∈ back w)
    (hnum : ∀ e ∈ s.fringe, e.2.1 < number) (hw : s.IsNearer w (d + k)) :
    (s.see v w (d + k) number).Holds next back home (fun x e => x = v ∧ e ∈ ways) := by
  obtain ⟨hws, hnear⟩ := hw
  have hne : ∀ x dx, distance? s.settled x = some dx → w ≠ x := by
    rintro x dx hx rfl
    rw [hws] at hx
    cases hx
  refine ⟨?_, ?_, ?_, ?_, ?_, ?_, ?_, ?_, ?_⟩
  · intro x dx hx
    rw [seen_see] at hx
    rw [trail_see]
    split_ifs at hx ⊢ with hwx
    · cases hx
      subst hwx
      rw [Nat.add_comm]
      exact Route.step hback (h.trails v d (h.settled v d hv))
    · exact h.trails x dx hx
  · intro x dx hx
    rw [seen_see, if_neg (hne x dx hx)]
    exact h.settled x dx hx
  · intro e he
    rcases mem_append.mp he with he | he
    · exact exists_le_seen_see hnear (h.fringe e he)
    · simp only [mem_singleton] at he
      subst he
      exact ⟨d + k, Nat.le_refl _, by rw [seen_see, if_pos rfl]⟩
  · intro x dx hx hs
    rw [seen_see] at hx
    split_ifs at hx with hwx
    · cases hx
      subst hwx
      exact ⟨number, mem_append_right _ (by simp)⟩
    · obtain ⟨n, hn⟩ := h.pending x dx hx hs
      exact ⟨n, mem_append_left _ hn⟩
  · intro x dx hx e he
    rcases mem_append.mp he with he | he
    · exact h.ordered x dx hx e he
    · simp only [mem_singleton] at he
      subst he
      have := hmax x dx hx
      simp only
      omega
  · intro x dx hx e hnx hwait
    by_cases hxe : x = v ∧ e = (w, k)
    · obtain ⟨rfl, rfl⟩ := hxe
      have hdx : some d = some dx := hv.symm.trans hx
      cases hdx
      exact ⟨d + k, Nat.le_refl _, by simp [seen_see]⟩
    · exact exists_le_seen_see hnear (h.gone x dx hx e hnx (not_waiting_cons hxe hwait))
  · rw [seen_see]
    split_ifs with hwh
    · subst hwh; exact absurd hws hhome
    · exact h.atHome
  · intro hs; exact absurd hs hhome
  · exact nodup_fringe_see h.distinct hnum

theorem Holds.skip (h : s.Holds next back home (fun x e => x = v ∧ e ∈ (w, k) :: ways))
    (hv : distance? s.settled v = some d) (hmax : ∀ x dx, distance? s.settled x = some dx → dx ≤ d)
    (hw : ¬ s.IsNearer w (d + k)) : s.Holds next back home (fun x e => x = v ∧ e ∈ ways) := by
  refine { h with gone := ?_ }
  intro x dx hx e hnx hwait
  by_cases hxe : x = v ∧ e = (w, k)
  · obtain ⟨rfl, rfl⟩ := hxe
    rw [hv] at hx
    cases hx
    unfold IsNearer at hw
    cases hs : distance? s.settled w with
    | some dw => exact ⟨dw, by have := hmax w dw hs; simp only; omega, h.settled w dw hs⟩
    | none =>
      simp only [hs, true_and, not_forall] at hw
      obtain ⟨dw, hdw, hle⟩ := hw
      exact ⟨dw, by simp only; omega, hdw⟩
  · exact h.gone x dx hx e hnx (not_waiting_cons hxe hwait)

theorem Holds.finish (h : s.Holds next back home (fun x e => x = v ∧ e ∈ [])) :
    s.Holds next back home nothing :=
  { h with gone := fun x dx hx e hnx _ => h.gone x dx hx e hnx (by simp) }

/-! ### What lies on a route -/

/-- **The frontier.**  On a route from the home of a side to `x`, either `x` is settled, or some
node is in the fringe, no farther than it is on the route. -/
theorem Holds.frontier (h : s.Holds next back home nothing)
    (hturn : ∀ a b k, (b, k) ∈ back a → (a, k) ∈ next b) (hr : Route back home x p n) :
    (∃ d ≤ n, distance? s.settled x = some d) ∨
      ∃ y d q m, distance? s.settled y = none ∧ distance? s.seen y = some d ∧
        Route back y x q m ∧ d + m ≤ n := by
  induction hr with
  | done =>
    cases hs : distance? s.settled home with
    | some d =>
      have h0 := h.settled home d hs
      rw [h.atHome] at h0
      cases h0
      exact Or.inl ⟨0, Nat.le_refl _, rfl⟩
    | none => exact Or.inr ⟨home, 0, [home], 0, hs, h.atHome, Route.done, Nat.le_refl _⟩
  | @step x v k n p hv _ ih =>
    rcases ih with ⟨d, hle, hd⟩ | ⟨y, d, q, m, hy, hd, hq, hle⟩
    · obtain ⟨d', hle', hd'⟩ := h.gone v d hd (x, k) (hturn x v k hv) (fun hf => hf)
      cases hs : distance? s.settled x with
      | some dx =>
        have := h.settled x dx hs
        rw [hd'] at this
        cases this
        exact Or.inl ⟨d', by omega, rfl⟩
      | none => exact Or.inr ⟨x, d', [x], 0, hs, hd', Route.done, by omega⟩
    · exact Or.inr ⟨y, d, x :: q, k + m, hy, hd, Route.step hv hq, by omega⟩

theorem Holds.fringe_ne_nil (h : s.Holds next back home nothing)
    (hturn : ∀ a b k, (b, k) ∈ back a → (a, k) ∈ next b) (hr : Route back home x p n)
    (hx : distance? s.settled x = none) : s.fringe ≠ [] := by
  intro hnil
  rcases h.frontier hturn hr with ⟨d, -, hd⟩ | ⟨y, d, r, m, hy, hd, -, -⟩
  · rw [hx] at hd
    cases hd
  · obtain ⟨k, hk⟩ := h.pending y d hd hy
    rw [hnil] at hk
    simp at hk

end Side

/-! ### Both sides -/

namespace Search

open Side (distance? nothing)

variable {found : Option (Nat × List ν)}

/-- The lighter of two meetings, of equally light ones the second. -/
def lighter : Option (Nat × List ν) → Option (Nat × List ν) → Option (Nat × List ν)
  | some found, some best => if found.1 < best.1 then some found else some best
  | some found, none => some found
  | none, best => best

omit [DecidableEq ν] in
theorem lighter_some {r : Nat × List ν} (h : lighter found best = some r) :
    found = some r ∨ best = some r := by
  unfold lighter at h
  split at h
  · split_ifs at h
    · exact Or.inl h
    · exact Or.inr h
  · exact Or.inl h
  · exact Or.inr h

omit [DecidableEq ν] in
theorem lighter_le_left {f : Nat × List ν} (h : found = some f) :
    ∃ d p, lighter found best = some (d, p) ∧ d ≤ f.1 := by
  subst h
  unfold lighter
  split
  · next f' b hf =>
    cases hf
    split_ifs with hlt
    · exact ⟨f.1, f.2, rfl, Nat.le_refl _⟩
    · exact ⟨b.1, b.2, rfl, by omega⟩
  · next f' hf => cases hf; exact ⟨f.1, f.2, rfl, Nat.le_refl _⟩
  · next hf => cases hf

omit [DecidableEq ν] in
theorem lighter_le_right (found : Option (Nat × List ν)) {b : Nat × List ν} (h : best = some b) :
    ∃ d p, lighter found best = some (d, p) ∧ d ≤ b.1 := by
  subst h
  cases found with
  | none => exact ⟨b.1, b.2, rfl, Nat.le_refl _⟩
  | some f =>
    simp only [lighter]
    split_ifs with hlt
    · exact ⟨f.1, f.2, rfl, by omega⟩
    · exact ⟨b.1, b.2, rfl, Nat.le_refl _⟩

/-- The search after one more node was seen. -/
def seen (s : Search ν) (v w : ν) (reached : Nat) : Search ν :=
  { s with here := s.here.see v w reached s.count, count := s.count + 1 }

theorem keep_lighter (s : Search ν) (w : ν) : (match s.meeting w, s.best with
      | some (d, path), some (least, _) => if d < least then { s with best := some (d, path) } else s
      | some found, none => { s with best := some found }
      | none, _ => s) = { s with best := lighter (s.meeting w) s.best } := by
  cases s.meeting w with
  | none => simp [lighter]
  | some f =>
    cases hbest : s.best with
    | none => simp [lighter]
    | some b =>
      simp only [lighter]
      split_ifs
      · rfl
      · rw [← hbest]

theorem relax_cases (v w : ν) (d k : Nat) (s : Search ν) :
    (¬ s.here.IsNearer w (d + k) ∧ relax v d s (w, k) = s) ∨
      (s.here.IsNearer w (d + k) ∧ relax v d s (w, k) =
        { s.seen v w (d + k) with best := lighter ((s.seen v w (d + k)).meeting w) s.best }) := by
  unfold relax Side.IsNearer
  simp only
  cases hs : distance? s.here.settled w with
  | some ds => left; simp
  | none =>
    cases hseen : distance? s.here.seen w with
    | none =>
      right
      refine ⟨by simp, ?_⟩
      simp only [if_true]
      exact keep_lighter (s.seen v w (d + k)) w
    | some ds =>
      by_cases hlt : d + k < ds
      · right
        refine ⟨by simpa using hlt, ?_⟩
        simp only [hlt]
        exact keep_lighter (s.seen v w (d + k)) w
      · left
        exact ⟨by simpa using hlt, by simp [hlt]⟩

def home (source target : ν) (isForward : Bool) : ν := if isForward then source else target

/-- **What the search keeps true.** -/
structure Holds (weight : α → Nat) (g : Digraph ν α) (source target : ν)
    (waiting : ν → ν × Nat → Prop) (s : Search ν) : Prop where
  here : s.here.Holds (g.neighbours weight s.isForward) (g.neighbours weight !s.isForward)
    (home source target s.isForward) waiting
  there : s.there.Holds (g.neighbours weight !s.isForward) (g.neighbours weight s.isForward)
    (home source target !s.isForward) nothing
  hereCount : ∀ e ∈ s.here.fringe, e.2.1 < s.count
  thereCount : ∀ e ∈ s.there.fringe, e.2.1 < s.count
  best : ∀ d p, s.best = some (d, p) → Route (g.neighbours weight true) target source p d
  meet : ∀ w a b, distance? s.here.seen w = some a → distance? s.there.seen w = some b →
    ∃ d p, s.best = some (d, p) ∧ d ≤ a + b
  hereFar : distance? s.here.settled (home source target !s.isForward) = none
  thereFar : distance? s.there.settled (home source target s.isForward) = none

/-- Between two steps: as long as the other side has not begun, neither has this one. -/
def InTurn (source target : ν) (s : Search ν) : Prop :=
  distance? s.there.settled (home source target !s.isForward) = none →
    distance? s.here.settled (home source target s.isForward) = none

variable {weight : α → Nat} {g : Digraph ν α} {source target : ν} {s : Search ν}

theorem meeting_route
    (hh : s.here.Holds (g.neighbours weight s.isForward) (g.neighbours weight !s.isForward)
      (home source target s.isForward) waiting)
    (ht : s.there.Holds (g.neighbours weight !s.isForward) (g.neighbours weight s.isForward)
      (home source target !s.isForward) nothing) (h : s.meeting w = some (d, p)) :
    Route (g.neighbours weight true) target source p d := by
  unfold meeting at h
  cases ha : distance? s.here.seen w with
  | none => simp [ha] at h
  | some a =>
    cases hb : distance? s.there.seen w with
    | none => simp [hb] at h
    | some b =>
      have hra := hh.trails w a ha
      have hrb := ht.trails w b hb
      have hturn : ∀ x y k, (y, k) ∈ g.neighbours weight false x →
          (x, k) ∈ g.neighbours weight true y := neighbours_turned false
      simp only [ha, hb] at h
      obtain ⟨rfl, rfl⟩ := h
      cases hf : s.isForward with
      | true =>
        simp only [hf] at hra hrb ⊢
        exact Route.join hturn hra hrb
      | false =>
        simp only [hf, Bool.false_eq_true] at hra hrb ⊢
        rw [Nat.add_comm]
        exact Route.join hturn hrb hra

theorem meeting_some {a b : Nat} (ha : distance? s.here.seen w = some a)
    (hb : distance? s.there.seen w = some b) : ∃ p, s.meeting w = some (a + b, p) := by
  unfold meeting
  simp [ha, hb]

/-- What stays as it is while the ways from one node are gone. -/
structure SameFrame (s s' : Search ν) : Prop where
  isForward : s'.isForward = s.isForward
  there : s'.there = s.there
  settled : s'.here.settled = s.here.settled

theorem Holds.relax (h : s.Holds weight g source target (fun x e => x = v ∧ e ∈ (w, k) :: ways))
    (hway : (w, k) ∈ g.neighbours weight s.isForward v) (hv : distance? s.here.settled v = some d)
    (hmax : ∀ x dx, distance? s.here.settled x = some dx → dx ≤ d)
    (hhome : distance? s.here.settled (home source target s.isForward) ≠ none) :
    (Search.relax v d s (w, k)).Holds weight g source target (fun x e => x = v ∧ e ∈ ways) ∧
      SameFrame s (Search.relax v d s (w, k)) ∧
      (Search.relax v d s (w, k)).here.fringe.length ≤ s.here.fringe.length + 1 := by
  rcases relax_cases v w d k s with ⟨hnear, heq⟩ | ⟨hnear, heq⟩
  · rw [heq]
    exact ⟨{ h with here := h.here.skip hv hmax hnear }, ⟨rfl, rfl, rfl⟩, by omega⟩
  · rw [heq]
    have hback : (v, k) ∈ g.neighbours weight (!s.isForward) w :=
      neighbours_turned s.isForward v w k hway
    have hhere := h.here.see hv hmax hhome hback h.hereCount hnear
    refine ⟨⟨hhere, h.there, ?_, ?_, ?_, ?_, h.hereFar, h.thereFar⟩, ⟨rfl, rfl, rfl⟩,
      by simp [seen, see]⟩
    · intro e he
      rcases mem_append.mp he with he | he
      · have := h.hereCount e he
        simp only [seen]
        omega
      · simp only [mem_singleton] at he
        subst he
        simp [seen]
    · intro e he
      have := h.thereCount e he
      simp only [seen]
      omega
    · intro d' p hbest
      rcases lighter_some hbest with hm | hb
      · exact meeting_route (s := s.seen v w (d + k)) hhere h.there hm
      · exact h.best d' p hb
    · intro x a b ha hb
      have ha' : (if w = x then some (d + k) else distance? s.here.seen x) = some a := by
        rw [← seen_see]; exact ha
      split_ifs at ha' with hwx
      · subst hwx
        obtain ⟨p, hp⟩ := meeting_some (s := s.seen v w (d + k)) ha hb
        exact lighter_le_left hp
      · obtain ⟨d', p, hbest, hle⟩ := h.meet x a b ha' hb
        obtain ⟨d'', p', hl, hle'⟩ := lighter_le_right ((s.seen v w (d + k)).meeting w) hbest
        exact ⟨d'', p', hl, by simp only at hle'; omega⟩

theorem Holds.relaxAll (ways : List (ν × Nat)) (s : Search ν)
    (h : s.Holds weight g source target (fun x e => x = v ∧ e ∈ ways))
    (hway : ∀ e ∈ ways, e ∈ g.neighbours weight s.isForward v)
    (hv : distance? s.here.settled v = some d)
    (hmax : ∀ x dx, distance? s.here.settled x = some dx → dx ≤ d)
    (hhome : distance? s.here.settled (home source target s.isForward) ≠ none) :
    (ways.foldl (Search.relax v d) s).Holds weight g source target nothing ∧
      SameFrame s (ways.foldl (Search.relax v d) s) ∧
      (ways.foldl (Search.relax v d) s).here.fringe.length ≤ s.here.fringe.length + ways.length := by
  induction ways generalizing s with
  | nil =>
    exact ⟨{ h with here := h.here.finish }, ⟨rfl, rfl, rfl⟩, by simp⟩
  | cons e ways ih =>
    obtain ⟨w, k⟩ := e
    obtain ⟨h1, ⟨hf, ht, hs⟩, hl⟩ := h.relax (hway _ (by simp)) hv hmax hhome
    simp only [foldl_cons]
    obtain ⟨h2, ⟨hf', ht', hs'⟩, hl'⟩ := ih (Search.relax v d s (w, k)) h1
      (by rw [hf]; exact fun e he => hway e (by simp [he])) (by rw [hs]; exact hv)
      (by rw [hs]; exact hmax) (by rw [hs, hf]; exact hhome)
    refine ⟨h2, ⟨hf'.trans hf, ht'.trans ht, hs'.trans hs⟩, ?_⟩
    simp only [length_cons]
    omega

theorem neighbours_turned_back (isForward : Bool) (x y : ν) (k : Nat)
    (h : (y, k) ∈ g.neighbours weight (!isForward) x) :
    (x, k) ∈ g.neighbours weight isForward y := by
  simpa using neighbours_turned (!isForward) x y k h

theorem route_between (h : Route (g.neighbours weight true) target source p n) (isForward : Bool) :
    ∃ q, Route (g.neighbours weight !isForward) (home source target isForward)
      (home source target !isForward) q n := by
  cases isForward with
  | true => exact ⟨p.reverse, h.turned (neighbours_turned true)⟩
  | false => exact ⟨p, h⟩

/-! ### Work -/

def openArcs (g : Digraph ν α) (isForward : Bool) (s : Side ν) : Nat :=
  (g.arcs.filter fun a =>
    (distance? s.settled (if isForward then a.source else a.target)).isNone).length

/-- What is left to do: entries to take, and arcs to go along. -/
def work (g : Digraph ν α) (s : Search ν) : Nat :=
  s.here.fringe.length + s.there.fringe.length + openArcs g s.isForward s.here
    + openArcs g (!s.isForward) s.there

theorem length_filter_settle {β : Type} (key : β → ν) (s : Side ν) (v : ν) (d : Nat)
    (hv : distance? s.settled v = none) (l : List β) :
    (l.filter fun a => (distance? (s.settle v d).settled (key a)).isNone).length
      + (l.filter fun a => key a = v).length
      = (l.filter fun a => (distance? s.settled (key a)).isNone).length := by
  induction l with
  | nil => rfl
  | cons a l ih =>
    simp only [filter_cons, distance?_settle] at ih ⊢
    by_cases hav : key a = v
    · rw [hav]
      simp only [if_true, Option.isNone_some, Bool.false_eq_true, if_false, decide_true, hv,
        Option.isNone_none, length_cons]
      omega
    · simp only [hav, Ne.symm hav, if_false, decide_false, Bool.false_eq_true]
      split_ifs
      · simp only [length_cons]
        omega
      · exact ih

theorem openArcs_settle (weight : α → Nat) (g : Digraph ν α) (isForward : Bool) (s : Side ν) (v : ν)
    (d : Nat) (hv : distance? s.settled v = none) :
    openArcs g isForward (s.settle v d) + (g.neighbours weight isForward v).length
      = openArcs g isForward s := by
  have h := length_filter_settle (fun a : Arc ν α => if isForward then a.source else a.target)
    s v d hv g.arcs
  unfold openArcs
  rw [← h]
  cases isForward <;> simp [neighbours, out, into]

theorem work_turn (s : Search ν) : s.turn.work g = s.work g := by
  unfold work turn
  simp only [Bool.not_not]
  omega

/-! ### The run -/

/-- The search after its nearest node was settled and all its arcs were gone. -/
def settled (weight : α → Nat) (g : Digraph ν α) (s : Search ν) (d n : Nat) (v : ν) : Search ν :=
  (g.neighbours weight s.isForward v).foldl (Search.relax v d)
    { s with here := (s.here.taken n).settle v d }

/-- Going along the arcs of a node that is settled takes away more work than it adds. -/
theorem work_settled (he : (d, n, v) ∈ s.here.fringe) (hv : distance? s.here.settled v = none)
    (hfm : SameFrame { s with here := (s.here.taken n).settle v d } (s.settled weight g d n v))
    (hgrown : (s.settled weight g d n v).here.fringe.length
      ≤ (s.here.taken n).fringe.length + (g.neighbours weight s.isForward v).length) :
    (s.settled weight g d n v).work g < s.work g := by
  obtain ⟨hf, ht, hs⟩ := hfm
  have hopen := openArcs_settle weight g s.isForward (s.here.taken n) v d hv
  have hlen := length_taken he
  have hsm : openArcs g s.isForward (s.settled weight g d n v).here
      = openArcs g s.isForward ((s.here.taken n).settle v d) := by
    unfold openArcs
    rw [hs]
  have htk : openArcs g s.isForward (s.here.taken n) = openArcs g s.isForward s.here := rfl
  unfold work
  rw [hf, ht]
  dsimp only
  omega

theorem search_succ (hhere : s.here.fringe ≠ []) (hthere : s.there.fringe ≠ [])
    (hnear : s.here.nearest? = some (d, n, v)) (fuel : Nat) :
    g.search weight (fuel + 1) s = if (distance? s.here.settled v).isSome then
          g.search weight fuel { s with here := s.here.taken n }.turn
        else if (distance? s.there.settled v).isSome then s.best.map (·.2)
        else g.search weight fuel (s.settled weight g d n v).turn := by
  rw [search, if_neg (by simp [hhere, hthere]), hnear]
  rfl

section

variable (h : s.Holds weight g source target nothing)
include h

theorem Holds.turned
    (hbegun : distance? s.here.settled (home source target s.isForward) ≠ none) :
    s.turn.Holds weight g source target nothing ∧ s.turn.InTurn source target := by
  refine ⟨⟨?_, ?_, h.thereCount, h.hereCount, h.best, ?_, ?_, ?_⟩, ?_⟩
  · simpa [turn] using h.there
  · simpa [turn] using h.here
  · intro w a b ha hb
    obtain ⟨d, p, hbest, hle⟩ := h.meet w b a hb ha
    exact ⟨d, p, hbest, by omega⟩
  · simpa [turn] using h.thereFar
  · simpa [turn] using h.hereFar
  · intro hno
    simp only [turn, Bool.not_not] at hno
    exact absurd hno hbegun

/-- **A meeting on a settled node is best.**  When the nearest node of this side is settled on the
other, no route is lighter than the best meeting. -/
theorem Holds.best_le {a b : Nat} (he : (a, n, v) ∈ s.here.fringe)
    (hmin : ∀ e ∈ s.here.fringe, a ≤ e.1) (hv : distance? s.here.settled v = none)
    (hb : distance? s.there.settled v = some b) :
    ∃ d p, s.best = some (d, p) ∧
      ∀ q m, Route (g.neighbours weight true) target source q m → d ≤ m := by
  obtain ⟨d, p, hbest, hle⟩ := h.meet v a b (h.here.nearest_seen he hmin hv) (h.there.settled v b hb)
  refine ⟨d, p, hbest, fun q m hq => ?_⟩
  obtain ⟨q', hq'⟩ := route_between hq s.isForward
  -- the route leaves the settled part of this side at `y`, and that of the other side at `z`
  rcases h.here.frontier (neighbours_turned_back s.isForward) hq' with
    ⟨dy, -, hdy⟩ | ⟨y, dy, qy, my, hy, hdy, hry, hley⟩
  · rw [h.hereFar] at hdy
    cases hdy
  · have hay : a ≤ dy := by
      obtain ⟨ny, hny⟩ := h.here.pending y dy hdy hy
      exact hmin _ hny
    rcases h.there.frontier (neighbours_turned s.isForward)
      (hry.turned (neighbours_turned_back s.isForward)) with
      ⟨dz, hlez, hdz⟩ | ⟨z, dz, qz, mz, hz, hdz, -, hlez⟩
    · obtain ⟨d', p', hbest', hle'⟩ := h.meet y dy dz hdy (h.there.settled y dz hdz)
      rw [hbest] at hbest'
      cases hbest'
      omega
    · obtain ⟨nz, hnz⟩ := h.there.pending z dz hdz hz
      have := h.there.ordered v b hb _ hnz
      omega

theorem Holds.fringe_ne_nil (hp : Route (g.neighbours weight true) target source p n) :
    s.here.fringe ≠ [] ∧ s.there.fringe ≠ [] := by
  obtain ⟨q, hq⟩ := route_between hp s.isForward
  obtain ⟨r, hr⟩ := route_between hp (!s.isForward)
  rw [Bool.not_not] at hr
  exact ⟨h.here.fringe_ne_nil (neighbours_turned_back s.isForward) hq h.hereFar,
    h.there.fringe_ne_nil (neighbours_turned s.isForward) hr h.thereFar⟩

theorem Holds.drops (he : (d, n, v) ∈ s.here.fringe) (hv : distance? s.here.settled v ≠ none) :
    Holds weight g source target nothing { s with here := s.here.taken n } ∧
      distance? s.here.settled (home source target s.isForward) ≠ none ∧
      work g { s with here := s.here.taken n } < s.work g := by
  refine ⟨⟨h.here.stale he hv, h.there, fun e hmem => h.hereCount e (mem_taken.mp hmem).1,
    h.thereCount, h.best, h.meet, h.hereFar, h.thereFar⟩, ?_, ?_⟩
  · by_cases hvh : v = home source target s.isForward
    · rw [← hvh]
      exact hv
    · exact mt (h.here.eq_home he) hvh
  · have hlen := length_taken he
    unfold work openArcs
    simp only [taken] at hlen ⊢
    omega

variable (hturn : s.InTurn source target) (hne : source ≠ target)
include hturn hne

theorem Holds.ne_far (he : (d, n, v) ∈ s.here.fringe) (hv : distance? s.there.settled v = none) :
    v ≠ home source target !s.isForward := by
  rintro rfl
  have := h.here.eq_home he (hturn hv)
  cases hf : s.isForward <;> simp [hf] at this
  · exact hne this
  · exact hne this.symm

theorem Holds.settles (he : (d, n, v) ∈ s.here.fringe) (hmin : ∀ e ∈ s.here.fringe, d ≤ e.1)
    (hv : distance? s.here.settled v = none) (hvt : distance? s.there.settled v = none) :
    (s.settled weight g d n v).Holds weight g source target nothing ∧
      distance? (s.settled weight g d n v).here.settled
        (home source target (s.settled weight g d n v).isForward) ≠ none ∧
      (s.settled weight g d n v).work g < s.work g := by
  have hbegun : distance? ((s.here.taken n).settle v d).settled
      (home source target s.isForward) ≠ none := by
    rw [distance?_settle]
    split_ifs with hvh
    · simp
    · exact mt (h.here.eq_home he) hvh
  have hfar : v ≠ home source target !s.isForward := h.ne_far hturn hne he hvt
  have h1 : Holds weight g source target
      (fun w e => w = v ∧ e ∈ g.neighbours weight s.isForward v)
      { s with here := (s.here.taken n).settle v d } := by
    refine ⟨h.here.settle he hmin hv, h.there,
      fun e hmem => h.hereCount e (mem_taken.mp hmem).1, h.thereCount, h.best, h.meet, ?_,
      h.thereFar⟩
    rw [distance?_settle, if_neg hfar]
    exact h.hereFar
  have hmax : ∀ x dx, distance? ((s.here.taken n).settle v d).settled x = some dx →
      dx ≤ d := by
    intro x dx hx
    rw [distance?_settle] at hx
    split_ifs at hx with hvx
    · cases hx; exact Nat.le_refl _
    · exact h.here.ordered x dx hx _ he
  obtain ⟨h2, hfm, hl⟩ := Holds.relaxAll (g.neighbours weight s.isForward v) _ h1
    (fun e he => he) (by rw [distance?_settle, if_pos rfl]) hmax hbegun
  refine ⟨h2, ?_, work_settled he hv hfm hl⟩
  obtain ⟨hf, -, hs⟩ := hfm
  unfold settled
  rw [hs, hf]
  exact hbegun

/-- **One step.**  Either a side has no node left, or a lightest route is found, or the search goes
on with less work to do. -/
theorem search_cases (fuel : Nat) :
    (g.search weight (fuel + 1) s = none ∧ (s.here.fringe = [] ∨ s.there.fringe = [])) ∨
      (∃ d p, g.search weight (fuel + 1) s = some p ∧
        Route (g.neighbours weight true) target source p d ∧
        ∀ q m, Route (g.neighbours weight true) target source q m → d ≤ m) ∨
      ∃ s', g.search weight (fuel + 1) s = g.search weight fuel s' ∧
        s'.Holds weight g source target nothing ∧ s'.InTurn source target ∧
        s'.work g < s.work g := by
  by_cases hem : s.here.fringe = [] ∨ s.there.fringe = []
  · left
    refine ⟨?_, hem⟩
    rw [search, if_pos (by rcases hem with h | h <;> simp [h])]
  right
  obtain ⟨hhere, hthere⟩ := not_or.mp hem
  cases hnear : s.here.nearest? with
  | none => exact absurd ((foldl_nearer _ none).1.mp hnear).2 hhere
  | some e =>
    obtain ⟨d, n, v⟩ := e
    obtain ⟨he, hmin⟩ := nearest?_some hnear
    rw [search_succ hhere hthere hnear]
    cases hv : distance? s.here.settled v with
    | some dv =>
      -- the node was settled before: its entry is dropped
      right
      obtain ⟨h', hbegun, hwork⟩ := h.drops he (by rw [hv]; simp)
      obtain ⟨h1, h2⟩ := h'.turned hbegun
      exact ⟨_, if_pos rfl, h1, h2, by rw [work_turn]; exact hwork⟩
    | none =>
      cases hvt : distance? s.there.settled v with
      | some b =>
        left
        obtain ⟨d', p, hbest, hle⟩ := h.best_le he hmin hv hvt
        exact ⟨d', p, by simp [hbest], h.best d' p hbest, hle⟩
      | none =>
        right
        obtain ⟨h', hbegun, hwork⟩ := h.settles hturn hne he hmin hv hvt
        obtain ⟨h1, h2⟩ := h'.turned hbegun
        exact ⟨_, by simp, h1, h2, by rw [work_turn]; exact hwork⟩

end

/-- **The whole search.**  What it finds is a lightest route; with enough fuel it finds one if there
is one. -/
theorem search_spec (hne : source ≠ target) (fuel : Nat) (s : Search ν)
    (h : s.Holds weight g source target nothing) (hturn : s.InTurn source target) :
    (∀ p, g.search weight fuel s = some p → ∃ d,
      Route (g.neighbours weight true) target source p d ∧
        ∀ q m, Route (g.neighbours weight true) target source q m → d ≤ m) ∧
      (s.work g < fuel → (∃ q m, Route (g.neighbours weight true) target source q m) →
        (g.search weight fuel s).isSome) := by
  induction fuel generalizing s with
  | zero => exact ⟨fun p hp => by simp [search] at hp, fun hw => by omega⟩
  | succ fuel ih =>
    rcases search_cases h hturn hne fuel with
      ⟨hno, hem⟩ | ⟨d, p, hp, hr, hle⟩ | ⟨s', heq, h', hturn', hw⟩
    · refine ⟨fun p hp => ?_, ?_⟩
      · rw [hno] at hp; cases hp
      · rintro - ⟨q, m, hq⟩
        obtain ⟨h1, h2⟩ := h.fringe_ne_nil hq
        exact absurd hem (not_or.mpr ⟨h1, h2⟩)
    · refine ⟨fun p' hp' => ?_, fun _ _ => by rw [hp]; rfl⟩
      rw [hp] at hp'
      cases hp'
      exact ⟨d, hr, hle⟩
    · rw [heq]
      obtain ⟨ih1, ih2⟩ := ih s' h' hturn'
      exact ⟨ih1, fun hlt => ih2 (by omega)⟩

def begin (source target : ν) : Search ν :=
  { isForward := true, here := Side.start 0 source, there := Side.start 1 target, count := 2,
    best := none }

theorem holds_begin (weight : α → Nat) (g : Digraph ν α) (hne : source ≠ target) :
    (begin source target).Holds weight g source target nothing ∧
      (begin source target).InTurn source target := by
  refine ⟨⟨holds_start 0 source, holds_start 1 target, ?_, ?_, ?_, ?_, ?_, ?_⟩, ?_⟩
  · intro e he
    simp only [begin, start, mem_singleton] at he ⊢
    subst he
    simp
  · intro e he
    simp only [begin, start, mem_singleton] at he ⊢
    subst he
    simp
  · intro d p h; cases h
  · intro w a b ha hb
    simp only [begin, start, distance?_cons] at ha hb
    split_ifs at ha hb with h1 h2
    · exact absurd (h1.trans h2.symm) hne
    all_goals simp [distance?] at ha hb
  all_goals simp [begin, start, distance?, InTurn]

theorem work_begin : (begin source target).work g = 2 * g.arcs.length + 2 := by
  simp only [work, begin, openArcs, start, distance?, List.find?_nil, Option.map_none,
    Option.isNone_none, filter_true, length_singleton]
  omega

end Search

/-! ### Shortest paths -/

variable {weight : α → Nat} {g : Digraph ν α} {u : ν}

theorem shortestPath?_some (h : g.shortestPath? weight u v = some p) :
    ∃ d, Route (g.neighbours weight true) v u p d ∧
      ∀ q m, Route (g.neighbours weight true) v u q m → d ≤ m := by
  unfold shortestPath? at h
  split_ifs at h with huv
  · cases h
    subst huv
    exact ⟨0, Route.done, fun _ _ _ => Nat.zero_le _⟩
  · obtain ⟨hb, hturn⟩ := Search.holds_begin weight g huv
    exact (Search.search_spec huv _ (Search.begin u v) hb hturn).1 p h

theorem shortestPath?_isSome (h : Route (g.neighbours weight true) v u p n) :
    (g.shortestPath? weight u v).isSome := by
  unfold shortestPath?
  split_ifs with huv
  · rfl
  · obtain ⟨hb, hturn⟩ := Search.holds_begin weight g huv
    refine (Search.search_spec huv _ (Search.begin u v) hb hturn).2 ?_ ⟨p, n, h⟩
    rw [Search.work_begin]
    omega

end SemanticLayer.Digraph
