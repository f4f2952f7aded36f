import Mathlib

/-!
# Search conditions

What stands behind `WHERE` is read by precedence: `NOT` binds closer than `AND`, `AND` closer than
`OR`.  So a search condition is a list of terms, one of which has to be true, and a term is a list
of factors, all of which have to be true.  Texts in quotes are one lexeme; round brackets, `CASE …
END` and `BETWEEN … AND` are pairs of brackets; a factor that is nothing but a condition in round
brackets is that condition, any other factor is an atom.

Two texts around an `AND` share a term, the last one of the first text with the first one of the
second (`read_and`, `read_bracketed`).
-/

namespace SemanticLayer.Sql

open List

variable {a s : String} {c : Char} {ls : List Lexeme} {terms bs ts : List (List Formula)}

variable {as : List (List Formula)} {b : String} {m : Pending}

/-- A truth value; comparisons with a null are unknown. -/
inductive Truth where
  | yes
  | no
  | unknown
  deriving DecidableEq, Repr

namespace Truth

def not : Truth → Truth
  | .yes => .no
  | .no => .yes
  | .unknown => .unknown

def and : Truth → Truth → Truth
  | .yes, y => y
  | .no, _ => .no
  | .unknown, .no => .no
  | .unknown, _ => .unknown

def or : Truth → Truth → Truth
  | .no, y => y
  | .yes, _ => .yes
  | .unknown, .yes => .yes
  | .unknown, _ => .unknown

@[simp] theorem and_eq_yes {x y : Truth} : x.and y = .yes ↔ x = .yes ∧ y = .yes := by
  cases x <;> cases y <;> decide

@[simp] theorem or_eq_yes {x y : Truth} : x.or y = .yes ↔ x = .yes ∨ y = .yes := by
  cases x <;> cases y <;> decide

end Truth

namespace SearchCondition

/-! ### Lexemes -/

inductive Lexeme where
  | word (chars : List Char)
  /-- A text with its quotes. -/
  | quoted (chars : List Char)
  | mark (c : Char)
  deriving DecidableEq, Repr

def isWordChar (c : Char) : Bool := c.isAlphanum || "_.$".toList.contains c || 127 < c.toNat

def isQuote (c : Char) : Bool := "'\"`".toList.contains c

/-- What was begun and may go on with the next character. -/
inductive Pending where
  | nothing
  | word (chars : List Char)
  | mark (c : Char)
  | quoted (quote : Char) (chars : List Char)
  deriving DecidableEq, Repr

namespace Pending

def start (c : Char) : Pending :=
  if isWordChar c then .word [c]
  else if isQuote c then .quoted c [c]
  else if c.isWhitespace then .nothing
  else .mark c

/-- What is complete at the end of the text; a quote has to be closed. -/
def flush : Pending → Option (List Lexeme)
  | .nothing => some []
  | .word cs => some [.word cs]
  | .mark c => some [.mark c]
  | .quoted _ _ => none

def startsComment (before c : Char) : Bool :=
  (before == '-' && c == '-') || (before == '/' && c == '*')

/-- What is complete before a character, and what is begun then. -/
def next (m : Pending) (c : Char) : Option (List Lexeme × Pending) :=
  match m with
  | .nothing => some ([], start c)
  | .word cs => if isWordChar c then some ([], .word (cs ++ [c])) else some ([.word cs], start c)
  | .mark d => if startsComment d c then none else some ([.mark d], start c)
  | .quoted q cs =>
    if c == q then some ([.quoted (cs ++ [c])], .nothing) else some ([], .quoted q (cs ++ [c]))

end Pending

def scan : Pending → List Char → Option (List Lexeme)
  | m, [] => m.flush
  | m, c :: cs => do
    let (done, m) ← m.next c
    return done ++ (← scan m cs)

def lexemes (s : String) : Option (List Lexeme) := scan .nothing s.toList

def Lexeme.isWord (t : Lexeme) (w : String) : Bool :=
  match t with
  | .word cs => cs.map Char.toUpper == w.toList
  | _ => false

/-! ### Brackets -/

inductive Bracket where
  | round
  /-- `CASE … END` -/
  | choice
  /-- `BETWEEN … AND` -/
  | range
  deriving DecidableEq, Repr

inductive Role where
  | opens (b : Bracket)
  | closes (b : Bracket)
  | conj
  | disj
  | neg
  | plain
  deriving DecidableEq, Repr

def Lexeme.role (t : Lexeme) : Role :=
  if t = .mark '(' then .opens .round
  else if t = .mark ')' then .closes .round
  else if t.isWord "CASE" then .opens .choice
  else if t.isWord "END" then .closes .choice
  else if t.isWord "BETWEEN" then .opens .range
  else if t.isWord "AND" then .conj
  else if t.isWord "OR" then .disj
  else if t.isWord "NOT" then .neg
  else .plain

/-! ### Reading -/

inductive Formula where
  | atom (lexemes : List Lexeme)
  | not (x : Formula)
  /-- A condition in brackets, by its terms and their factors. -/
  | group (terms : List (List Formula))
  deriving Repr

/-- A piece of a factor: a lexeme, or all from a bracket to the one that closes it. -/
structure Part where
  lexemes : List Lexeme
  /-- The condition that round brackets hold. -/
  inner : Option (List (List Formula)) := none
  deriving Repr

structure Frame where
  lexemes : List Lexeme := []
  /-- The terms before the last `OR`. -/
  terms : List (List Formula) := []
  /-- The factors since then, before the last `AND`. -/
  factors : List Formula := []
  /-- How often `NOT` stands in front of the factor at the end. -/
  negations : Nat := 0
  parts : List Part := []
  deriving Repr

def negated : Nat → Formula → Formula
  | 0, x => x
  | n + 1, x => .not (negated n x)

namespace Frame

def factor? (f : Frame) : Option Formula :=
  match f.parts with
  | [] => none
  | [⟨_, some terms⟩] => some (negated f.negations (.group terms))
  | parts => some (negated f.negations (.atom (parts.flatMap Part.lexemes)))

def isTable (f : Frame) : Bool := f.lexemes.head?.any fun t => t.isWord "SELECT" || t.isWord "WITH"

def condition? (f : Frame) : Option (List (List Formula)) :=
  if f.isTable then none else f.factor?.map fun x => f.terms ++ [f.factors ++ [x]]

def add (p : Part) (f : Frame) : Frame :=
  { f with lexemes := f.lexemes ++ p.lexemes, parts := f.parts ++ [p] }

/-- A `NOT` inside a factor belongs to a comparison, as in `IS NOT NULL`. -/
def deny (t : Lexeme) (f : Frame) : Frame :=
  if f.parts.isEmpty then
    { f with lexemes := f.lexemes ++ [t], negations := f.negations + 1 }
  else f.add ⟨[t], none⟩

def endFactor (t : Lexeme) (f : Frame) : Option Frame :=
  f.factor?.map fun x =>
    { lexemes := f.lexemes ++ [t], terms := f.terms, factors := f.factors ++ [x] }

def endTerm (t : Lexeme) (f : Frame) : Option Frame :=
  f.factor?.map fun x => { lexemes := f.lexemes ++ [t], terms := f.terms ++ [f.factors ++ [x]] }

def enclosed (f : Frame) (b : Bracket) (start stop : Lexeme) : Part :=
  ⟨start :: f.lexemes ++ [stop], if b = .round then f.condition? else none⟩

end Frame

structure Reader where
  /-- What is read inside of brackets, innermost first, with the lexemes that opened them. -/
  inner : List (Lexeme × Frame) := []
  outer : Frame := {}
  deriving Repr

namespace Reader

def update (g : Frame → Option Frame) (r : Reader) : Option Reader :=
  match r.inner with
  | [] => (g r.outer).map fun f => ⟨[], f⟩
  | (t, f) :: rest => (g f).map fun f => ⟨(t, f) :: rest, r.outer⟩

def close (b : Bracket) (stop : Lexeme) (r : Reader) : Option Reader :=
  match r.inner with
  | [] => none
  | (start, f) :: rest =>
    if start.role = .opens b then
      update (fun g => some (g.add (f.enclosed b start stop))) ⟨rest, r.outer⟩
    else none

def isInRange (r : Reader) : Bool := r.inner.head?.any fun e => e.1.role = .opens .range

def step (r : Reader) (t : Lexeme) : Option Reader :=
  match t.role with
  | .opens _ => some { r with inner := (t, {}) :: r.inner }
  | .closes b => r.close b t
  | .conj => if r.isInRange then r.close .range t else r.update (Frame.endFactor t)
  | .disj => r.update (Frame.endTerm t)
  | .neg => r.update fun f => some (f.deny t)
  | .plain => r.update fun f => some (f.add ⟨[t], none⟩)

/-- The condition when nothing follows; brackets have to be closed. -/
def condition? (r : Reader) : Option (List (List Formula)) :=
  if r.inner.isEmpty then r.outer.condition? else none

end Reader

def read (s : String) : Option (List (List Formula)) := do
  (← (← lexemes s).foldlM Reader.step {}).condition?

/-! ### Meaning -/

mutual

def Formula.value (meaning : List Lexeme → Truth) : Formula → Truth
  | .atom ls => meaning ls
  | .not x => (x.value meaning).not
  | .group terms => termsValue meaning terms

def termsValue (meaning : List Lexeme → Truth) : List (List Formula) → Truth
  | [] => .no
  | t :: ts => (factorsValue meaning t).or (termsValue meaning ts)

def factorsValue (meaning : List Lexeme → Truth) : List Formula → Truth
  | [] => .yes
  | x :: xs => (x.value meaning).and (factorsValue meaning xs)

end

/-- Whether a row is selected: unknown is not enough. -/
def Selects (meaning : List Lexeme → Truth) (terms : List (List Formula)) : Prop :=
  termsValue meaning terms = .yes

instance (meaning : List Lexeme → Truth) (terms : List (List Formula)) :
    Decidable (Selects meaning terms) :=
  inferInstanceAs (Decidable (termsValue meaning terms = .yes))

section Meaning

variable {meaning : List Lexeme → Truth}

theorem factorsValue_append {xs ys : List Formula} : factorsValue meaning (xs ++ ys) = .yes ↔
      factorsValue meaning xs = .yes ∧ factorsValue meaning ys = .yes := by
  induction xs with
  | nil => simp [factorsValue]
  | cons x xs ih => simp [factorsValue, ih, and_assoc]

@[simp] theorem selects_nil : ¬ Selects meaning [] := by simp [Selects, termsValue]

@[simp] theorem selects_cons {t : List Formula} :
    Selects meaning (t :: ts) ↔ factorsValue meaning t = .yes ∨ Selects meaning ts := by
  simp [Selects, termsValue]

@[simp] theorem selects_append {ss : List (List Formula)} :
    Selects meaning (ss ++ ts) ↔ Selects meaning ss ∨ Selects meaning ts := by
  induction ss with
  | nil => simp
  | cons s ss ih => simp [ih, or_assoc]

theorem selects_groups :
    Selects meaning [[.group as, .group bs]] ↔ Selects meaning as ∧ Selects meaning bs := by
  simp [Selects, termsValue, factorsValue, Formula.value]

end Meaning

/-! ### Lexemes of composed texts -/

/-- A character that belongs to no lexeme with what stands before it ends what was begun. -/
theorem Pending.next_of_flush (hm : m.flush = some ls) (hwd : isWordChar c = false)
    (hdash : c ≠ '-') (hstar : c ≠ '*') : m.next c = some (ls, .start c) := by
  cases m with
  | nothing => simp_all [flush, next]
  | word cs => simp_all [flush, next]
  | mark d => simp_all [flush, next, startsComment]
  | quoted q cs => simp [flush] at hm

theorem scan_cons {m' : Pending} {done : List Lexeme} (h : m.next c = some (done, m'))
    (cs : List Char) : scan m (c :: cs) = (scan m' cs).map (done ++ ·) := by
  simp only [scan, h, Option.bind_eq_bind, Option.bind_some]
  cases scan m' cs <;> rfl

theorem scan_append {cs rest : List Char} (h : scan m cs = some ls) (hwd : isWordChar c = false)
    (hdash : c ≠ '-') (hstar : c ≠ '*') :
    scan m (cs ++ c :: rest) = (scan (.start c) rest).map (ls ++ ·) := by
  induction cs generalizing m ls with
  | nil =>
    exact scan_cons (Pending.next_of_flush h hwd hdash hstar) rest
  | cons d cs ih =>
    obtain ⟨⟨done, m'⟩, hnx, h⟩ := Option.bind_eq_some_iff.mp h
    obtain ⟨ls', hls, h⟩ := Option.bind_eq_some_iff.mp h
    cases h
    rw [cons_append, scan_cons hnx, ih hls]
    simp [Function.comp_def]

theorem scan_mark (hdash : c ≠ '-') (hslash : c ≠ '/') (cs : List Char) :
    scan (.mark c) cs = (scan .nothing cs).map (.mark c :: ·) := by
  cases cs with
  | nil => rfl
  | cons d cs =>
    have hcomment : Pending.startsComment c d = false := by simp [Pending.startsComment, *]
    have hnx : (Pending.mark c).next d = some ([.mark c], .start d) := by
      simp [Pending.next, hcomment]
    rw [scan_cons hnx, scan_cons rfl]
    simp

theorem lexemes_and {as bs : List Lexeme} (ha : lexemes a = some as) (hb : lexemes b = some bs) :
    lexemes (a ++ " AND " ++ b) = some (as ++ .word "AND".toList :: bs) := by
  have htx : (a ++ " AND " ++ b).toList = a.toList ++ ' ' :: ("AND".toList ++ ' ' :: b.toList) := by
    simp
  have hand : scan .nothing "AND".toList = some [.word "AND".toList] := by decide
  have hbl : Pending.start ' ' = .nothing := by decide
  rw [lexemes] at ha hb
  rw [lexemes, htx, scan_append ha (by decide) (by decide) (by decide), hbl,
    scan_append hand (by decide) (by decide) (by decide), hbl, hb]
  simp

theorem lexemes_bracketed {as : List Lexeme} (ha : lexemes a = some as) :
    lexemes ("(" ++ a ++ ")") = some (.mark '(' :: as ++ [.mark ')']) := by
  have htx : ("(" ++ a ++ ")").toList = '(' :: (a.toList ++ ')' :: []) := by simp
  have hopen : Pending.start '(' = .mark '(' := by decide
  have hclose : Pending.start ')' = .mark ')' := by decide
  rw [lexemes, htx, scan_cons rfl, hopen, scan_mark (by decide) (by decide),
    scan_append ha (by decide) (by decide) (by decide), hclose]
  rfl

/-! ### Reading behind another condition

A condition that is read behind `a AND` goes on with the last term of `a`.  Nothing else of what was
read before is looked at again, so the two can be read apart and put together (`Frame.behind`). -/

namespace Frame

/-- What was read, behind the terms and factors of an earlier frame. -/
def behind (g f : Frame) : Frame where
  lexemes := g.lexemes ++ f.lexemes
  terms := match f.terms with
    | [] => g.terms
    | t :: ts => g.terms ++ (g.factors ++ t) :: ts
  factors := match f.terms with
    | [] => g.factors ++ f.factors
    | _ :: _ => f.factors
  negations := f.negations
  parts := f.parts

variable {g f : Frame} {t : Lexeme}

theorem behind_add (p : Part) : (g.behind f).add p = g.behind (f.add p) := by
  simp [behind, add]

theorem behind_deny : (g.behind f).deny t = g.behind (f.deny t) := by
  unfold deny
  rw [show (g.behind f).parts = f.parts from rfl]
  split
  · simp [behind]
  · exact behind_add _

theorem behind_endFactor : (g.behind f).endFactor t = (f.endFactor t).map g.behind := by
  have hfactor : (g.behind f).factor? = f.factor? := rfl
  simp only [endFactor, Option.map_map]
  congr 1
  funext x
  cases hterms : f.terms <;> simp [behind, hterms]

theorem behind_endTerm : (g.behind f).endTerm t = (f.endTerm t).map g.behind := by
  have hfactor : (g.behind f).factor? = f.factor? := rfl
  simp only [endTerm, Option.map_map]
  congr 1
  funext x
  cases hterms : f.terms <;> simp [behind, hterms]

end Frame

namespace Reader

variable {r : Reader} {g : Frame} {t : Lexeme}

def behind (g : Frame) (r : Reader) : Reader := { r with outer := g.behind r.outer }

theorem behind_update {u : Frame → Option Frame} (hu : ∀ f, u (g.behind f) = (u f).map g.behind) :
    (r.behind g).update u = (r.update u).map (behind g) := by
  rcases r with ⟨_ | ⟨⟨t, f⟩, rest⟩, outer⟩
  · simp [update, behind, hu, Function.comp_def]
  · simp [update, behind, Function.comp_def]

theorem behind_close (b : Bracket) : (r.behind g).close b t = (r.close b t).map (behind g) := by
  rcases r with ⟨_ | ⟨⟨start, f⟩, rest⟩, outer⟩
  · rfl
  · simp only [close, behind]
    split
    · exact behind_update (r := ⟨rest, outer⟩) fun f => by simp [Frame.behind_add]
    · rfl

theorem behind_step : (r.behind g).step t = (r.step t).map (behind g) := by
  have hrg : (r.behind g).isInRange = r.isInRange := rfl
  unfold step
  cases t.role with
  | opens b => rfl
  | closes b => exact behind_close b
  | conj =>
    simp only [hrg]
    split
    · exact behind_close .range
    · exact behind_update fun f => Frame.behind_endFactor
  | disj => exact behind_update fun f => Frame.behind_endTerm
  | neg => exact behind_update fun f => by simp [Frame.behind_deny]
  | plain => exact behind_update fun f => by simp [Frame.behind_add]

theorem behind_foldlM (ls : List Lexeme) :
    ls.foldlM step (r.behind g) = (ls.foldlM step r).map (behind g) := by
  induction ls generalizing r with
  | nil => rfl
  | cons t ls ih =>
    rw [foldlM_cons, foldlM_cons, behind_step]
    cases r.step t with
    | none => rfl
    | some r' => exact ih

end Reader

theorem Frame.condition?_eq_some {f : Frame} : f.condition? = some terms ↔
      f.isTable = false ∧ ∃ x, f.factor? = some x ∧ f.terms ++ [f.factors ++ [x]] = terms := by
  unfold Frame.condition?
  cases f.isTable <;> simp

theorem read_eq_some : read s = some terms ↔ ∃ ls f, lexemes s = some ls ∧
      ls.foldlM Reader.step {} = some ⟨[], f⟩ ∧ f.condition? = some terms := by
  simp only [read, Option.bind_eq_bind, Option.bind_eq_some_iff]
  constructor
  · rintro ⟨ls, hls, ⟨inner, f⟩, hrun, hterms⟩
    cases inner with
    | nil => exact ⟨ls, f, hls, hrun, hterms⟩
    | cons e inner => simp [Reader.condition?] at hterms
  · rintro ⟨ls, f, hls, hrun, hterms⟩
    exact ⟨ls, hls, ⟨[], f⟩, hrun, hterms⟩

/-- The terms around an `AND`: the last one of the first condition goes on with the first one of the
second. -/
def conjoin (as bs : List (List Formula)) : List (List Formula) :=
  as.dropLast ++ (as.getLastD [] ++ bs.headD []) :: bs.tail

theorem read_and (ha : read a = some as) (hb : read b = some bs) :
    read (a ++ " AND " ++ b) = some (conjoin as bs) := by
  obtain ⟨la, f, hla, hf, hcf⟩ := read_eq_some.mp ha
  obtain ⟨lb, h, hlb, hh, hch⟩ := read_eq_some.mp hb
  obtain ⟨htab, x, hx, has⟩ := Frame.condition?_eq_some.mp hcf
  obtain ⟨-, y, hy, hbs⟩ := Frame.condition?_eq_some.mp hch
  -- The frame after `a AND`: all of `a` is in its terms and factors.
  let g : Frame := { lexemes := f.lexemes ++ [.word "AND".toList], terms := f.terms,
                     factors := f.factors ++ [x] }
  have hand : Reader.step ⟨[], f⟩ (.word "AND".toList) = some ⟨[], g⟩ := by
    have hrole : (Lexeme.word "AND".toList).role = .conj := by decide
    rw [Reader.step, hrole]
    simp [Reader.isInRange, Reader.update, Frame.endFactor, hx, g]
  have hg : (⟨[], g⟩ : Reader) = Reader.behind g {} := by simp [Reader.behind, Frame.behind, g]
  have hgtable : (g.behind h).isTable = false := by
    unfold Frame.isTable at htab ⊢
    cases hl : f.lexemes with
    | nil => simp [Frame.behind, g, hl]; decide
    | cons t ls => simpa [Frame.behind, g, hl] using htab
  refine read_eq_some.mpr ⟨_, g.behind h, lexemes_and hla hlb, ?_, ?_⟩
  · simp only [foldlM_append, foldlM_cons, hf, hand, hg, Reader.behind_foldlM, hh,
      Option.bind_eq_bind, Option.bind_some]
    rfl
  · refine Frame.condition?_eq_some.mpr ⟨hgtable, y, hy, ?_⟩
    subst has hbs
    cases hterms : h.terms <;> simp [conjoin, Frame.behind, g, hterms]

/-! ### Reading inside brackets -/

namespace Reader

variable {r r' : Reader} {g : Frame} {t start : Lexeme}

def nested (start : Lexeme) (g : Frame) (r : Reader) : Reader :=
  ⟨r.inner ++ [(start, r.outer)], g⟩

theorem nested_update (u : Frame → Option Frame) :
    (r.nested start g).update u = (r.update u).map (nested start g) := by
  rcases r with ⟨_ | ⟨⟨t, f⟩, rest⟩, outer⟩ <;> simp [update, nested, Function.comp_def]

theorem nested_close {b : Bracket} (h : r.close b t = some r') :
    (r.nested start g).close b t = some (r'.nested start g) := by
  rcases r with ⟨_ | ⟨⟨t', f⟩, rest⟩, outer⟩
  · simp [close] at h
  · simp only [close] at h ⊢
    simp only [nested, cons_append]
    split at h
    · next hb =>
      rw [if_pos hb]
      exact (nested_update (r := ⟨rest, outer⟩) _).trans (by rw [h]; rfl)
    · cases h

theorem nested_step (hst : start.role = .opens .round) (h : r.step t = some r') :
    (r.nested start g).step t = some (r'.nested start g) := by
  have hrg : (r.nested start g).isInRange = r.isInRange := by
    rcases r with ⟨_ | ⟨e, rest⟩, outer⟩ <;> simp [isInRange, nested, hst]
  unfold step at h ⊢
  cases hrole : t.role with
  | opens b => simp_all [nested]; cases h; simp
  | closes b => rw [hrole] at h; exact nested_close h
  | conj =>
    rw [hrole] at h
    simp only [hrg] at h ⊢
    split at h
    · next hr => rw [if_pos hr]; exact nested_close h
    · next hr => rw [if_neg hr, nested_update, h]; rfl
  | disj => simp_all [nested_update]
  | neg => simp_all [nested_update]
  | plain => simp_all [nested_update]

theorem nested_foldlM (hst : start.role = .opens .round) (h : ls.foldlM step r = some r') :
    ls.foldlM step (r.nested start g) = some (r'.nested start g) := by
  induction ls generalizing r with
  | nil => cases h; rfl
  | cons t ls ih =>
    rw [foldlM_cons] at h ⊢
    obtain ⟨r1, h1, h2⟩ := Option.bind_eq_some_iff.mp h
    rw [nested_step hst h1]
    exact ih h2

end Reader

theorem read_bracketed (ha : read a = some as) : read ("(" ++ a ++ ")") = some [[.group as]] := by
  obtain ⟨la, f, hla, hf, hcf⟩ := read_eq_some.mp ha
  have hopen : (Lexeme.mark '(').role = .opens .round := by decide
  have hclose : (Lexeme.mark ')').role = .closes .round := by decide
  have hst : Reader.step {} (.mark '(') = some (Reader.nested (.mark '(') {} {}) := by
    simp [Reader.step, hopen, Reader.nested]
  let g : Frame := { lexemes := .mark '(' :: f.lexemes ++ [.mark ')'],
                     parts := [⟨.mark '(' :: f.lexemes ++ [.mark ')'], some as⟩] }
  have hend : (Reader.nested (.mark '(') {} ⟨[], f⟩).step (.mark ')') = some ⟨[], g⟩ := by
    simp [Reader.step, hclose, Reader.close, Reader.nested, hopen, Reader.update, Frame.add,
      Frame.enclosed, hcf, g]
  refine read_eq_some.mpr ⟨_, g, lexemes_bracketed hla, ?_, rfl⟩
  simp only [foldlM_cons, hst, Option.bind_eq_bind, Option.bind_some,
    foldlM_append, Reader.nested_foldlM hopen hf, hend]
  rfl

example : (read "a AND b OR c BETWEEN 1 AND 2 and NOT (d OR e)").map (·.map List.length)
    = some [2, 2] := by decide +kernel

/-! ### What an `AND` between texts selects -/

theorem read_ne_nil (h : read s = some terms) : terms ≠ [] := by
  obtain ⟨ls, f, -, -, hf⟩ := read_eq_some.mp h
  obtain ⟨-, x, -, rfl⟩ := Frame.condition?_eq_some.mp hf
  simp

section Rows

variable {ρ : Type} {meaning : ρ → List Lexeme → Truth} {as bs : List (List Formula)}

theorem selects_conjoin {row : ρ} (ha : as ≠ []) (hb : bs ≠ []) :
    Selects (meaning row) (conjoin as bs) ↔
      Selects (meaning row) as.dropLast ∨ (Selects (meaning row) as ∧ Selects (meaning row) bs) ∨
        Selects (meaning row) bs.tail := by
  obtain ⟨init, last, rfl⟩ := (eq_nil_or_concat' as).resolve_left ha
  obtain ⟨first, rest, rfl⟩ := exists_cons_of_ne_nil hb
  simp only [conjoin, dropLast_concat, getLastD_concat, headD_cons, tail_cons,
    selects_append, selects_cons, factorsValue_append, selects_nil, or_false]
  tauto

theorem selects_of_dropLast {row : ρ} (h : Selects (meaning row) as.dropLast) :
    Selects (meaning row) as := by
  rcases eq_nil_or_concat' as with rfl | ⟨init, last, rfl⟩
  · exact h
  · rw [dropLast_concat] at h
    exact selects_append.mpr (.inl h)

theorem selects_of_tail {row : ρ} (h : Selects (meaning row) bs.tail) :
    Selects (meaning row) bs := by
  cases bs with
  | nil => exact h
  | cons first rest => exact selects_cons.mpr (.inr h)

/-- **When rows around an `AND` all satisfy the left side.**  The terms behind the first one on the
right do not touch the `AND`. -/
theorem selects_left_iff (ha : as ≠ []) (hb : bs ≠ []) :
    (∀ row, Selects (meaning row) (conjoin as bs) → Selects (meaning row) as) ↔
      ∀ row, Selects (meaning row) bs.tail → Selects (meaning row) as := by
  refine forall_congr' fun row => ?_
  have hleft := @selects_of_dropLast ρ meaning as row
  rw [selects_conjoin ha hb]
  tauto

theorem selects_right_iff (ha : as ≠ []) (hb : bs ≠ []) :
    (∀ row, Selects (meaning row) (conjoin as bs) → Selects (meaning row) bs) ↔
      ∀ row, Selects (meaning row) as.dropLast → Selects (meaning row) bs := by
  refine forall_congr' fun row => ?_
  have hright := @selects_of_tail ρ meaning bs row
  rw [selects_conjoin ha hb]
  tauto

/-- Two texts that are read and select the same rows, where `meaning` tells the value of an atom in
a row. -/
def SameRows (meaning : ρ → List Lexeme → Truth) (s t : String) : Prop :=
  ∃ ss ts, read s = some ss ∧ read t = some ts ∧
    ∀ row, Selects (meaning row) ss ↔ Selects (meaning row) ts

def bracketed (s : String) : String := "(" ++ s ++ ")"

/-- **When brackets around both sides of an `AND` can be left out.**  No row is lost without them;
what can be too many are the rows of the terms that do not touch the `AND`. -/
theorem sameRows_bracketed_iff (ha : read a = some as) (hb : read b = some bs) :
    SameRows meaning (a ++ " AND " ++ b) (bracketed a ++ " AND " ++ bracketed b) ↔
      (∀ row, Selects (meaning row) bs.tail → Selects (meaning row) as) ∧
        ∀ row, Selects (meaning row) as.dropLast → Selects (meaning row) bs := by
  have hrd := read_and ha hb
  have hbracketed : read (bracketed a ++ " AND " ++ bracketed b) = some [[.group as, .group bs]] :=
    read_and (read_bracketed ha) (read_bracketed hb)
  have hconjoin := fun row =>
    @selects_conjoin ρ meaning as bs row (read_ne_nil ha) (read_ne_nil hb)
  rw [← selects_left_iff (read_ne_nil ha) (read_ne_nil hb),
    ← selects_right_iff (read_ne_nil ha) (read_ne_nil hb)]
  constructor
  · rintro ⟨ss, ts, hss, hts, hsm⟩
    cases hrd.symm.trans hss
    cases hbracketed.symm.trans hts
    exact ⟨fun row h => (selects_groups.mp ((hsm row).mp h)).1,
      fun row h => (selects_groups.mp ((hsm row).mp h)).2⟩
  · rintro ⟨hleft, hright⟩
    refine ⟨_, _, hrd, hbracketed, fun row => ?_⟩
    rw [selects_groups]
    exact ⟨fun h => ⟨hleft row h, hright row h⟩, fun h => (hconjoin row).mpr (.inr (.inl h))⟩

end Rows

end SearchCondition

end SemanticLayer.Sql
