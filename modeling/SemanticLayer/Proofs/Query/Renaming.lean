import SemanticLayer.Proofs.Naming
import SemanticLayer.Proofs.Outcome
import SemanticLayer.Query.Resolution

/-!
# Renaming in clauses

A mapped name is to be replaced in a clause where it is an identifier: a name, with further names
behind dots, that no dot precedes (`Token.rename`).  It is replaced wherever it occurs; the two
agree if and only if no occurrence begins anywhere else (`Token.isClear`).
-/

namespace SemanticLayer

open List

/-! ### Replacing in a text -/

namespace Text

variable {old : List Char}

theorem exists_ne_char (c : Char) : ∃ d : Char, d ≠ c := by
  by_cases hc : c = 'a'
  · exact ⟨'b', by rw [hc]; decide⟩
  · exact ⟨'a', Ne.symm hc⟩

theorem replaceChars_append_iff (part rest : List Char) (r : List Char → List Char) :
    (∀ new, replaceChars old new 0 (part ++ rest) = part ++ r new) ↔
      (∀ i < part.length, old.isPrefixOf ((part ++ rest).drop i) = false) ∧
        ∀ new, replaceChars old new 0 rest = r new := by
  induction part with
  | nil => simp
  | cons c part ih =>
    cases hc : old.isPrefixOf (c :: (part ++ rest)) with
    | true =>
      refine ⟨fun h => ?_, fun h => absurd (h.1 0 (by simp)) (by simp [hc])⟩
      -- a new name with another first character would stand where `c` is to stay
      obtain ⟨d, hd⟩ := exists_ne_char c
      have heq := h [d]
      rw [cons_append, replaceChars, if_pos hc] at heq
      exact absurd (cons.inj heq).1 hd
    | false =>
      have hstep : ∀ new, replaceChars old new 0 (c :: (part ++ rest))
          = c :: replaceChars old new 0 (part ++ rest) := by
        intro new
        rw [replaceChars, hc]
        rfl
      simp only [cons_append, hstep, cons.injEq, true_and]
      rw [ih]
      refine and_congr_left fun _ => ⟨fun h i hi => ?_, fun h i hi => h (i + 1) (by simpa using hi)⟩
      cases i with
      | zero => exact hc
      | succ i => exact h i (by simpa using hi)

end Text

/-! ### Identifiers of a clause -/

namespace Sql.Token

variable {name : List Char}

def textOf (ts : List Token) : List Char := ts.flatMap fun t => t.text.toList

theorem nextToken_pos (before : Option Char) (cs : List Char) :
    ∃ n, (nextToken before cs).2 = n + 1 := by
  unfold nextToken
  cases h : rules.findSome? _ with
  | none => exact ⟨0, rfl⟩
  | some found =>
    obtain ⟨r, -, hr⟩ := exists_of_findSome?_eq_some h
    split at hr
    · next n _ =>
      cases hr
      exact ⟨n, rfl⟩
    · cases hr

theorem textOf_scanFrom (before : Option Char) (k : Nat) (cs : List Char) :
    textOf (scanFrom before k cs) = cs.drop k := by
  induction cs generalizing before k with
  | nil => simp [scanFrom, textOf]
  | cons c cs ih =>
    cases k with
    | succ k => exact ih (some c) k
    | zero =>
      obtain ⟨n, hn⟩ := nextToken_pos before (c :: cs)
      have hrest := ih (some c) n
      unfold textOf at hrest ⊢
      rw [scanFrom]
      rw [flatMap_cons, hn, Nat.add_sub_cancel, hrest, String.toList_ofList, take_succ_cons,
        cons_append, take_append_drop, drop_zero]

/-- How many tokens behind a name belong to it: dots with further names. -/
def dotted : List Token → Nat
  | d :: n :: rest =>
    if d.kind == .punctuation && d.text == "." && n.kind == .name then dotted rest + 2 else 0
  | _ => 0

/-- Whether a name is the identifier that begins with a token. -/
def isIdentifier (name : List Char) (before : Option Token) (t : Token) (rest : List Token) : Bool :=
  t.kind == .name && !before.any (·.text == ".") && textOf (t :: rest.take (dotted rest)) == name

/-- The text of tokens with a new name for an identifier; the tokens that belong to the last one
are still to be skipped. -/
def rename (old new : List Char) : Option Token → Nat → List Token → List Char
  | _, _, [] => []
  | _, k + 1, t :: rest => rename old new (some t) k rest
  | before, 0, t :: rest =>
    if isIdentifier old before t rest then new ++ rename old new (some t) (dotted rest) rest
    else t.text.toList ++ rename old new (some t) 0 rest

/-- Whether no occurrence of a name begins outside the identifiers that are that name. -/
def isClear (name : List Char) : Option Token → Nat → List Token → Bool
  | _, _, [] => true
  | _, k + 1, t :: rest => isClear name (some t) k rest
  | before, 0, t :: rest =>
    if isIdentifier name before t rest then isClear name (some t) (dotted rest) rest
    else (range t.text.toList.length).all (fun i => !name.isPrefixOf ((textOf (t :: rest)).drop i))
      && isClear name (some t) 0 rest

theorem replaceChars_textOf_iff (hname : name ≠ []) (before : Option Token) (k : Nat)
    (ts : List Token) :
    (∀ new, Text.replaceChars name new 0 (textOf (ts.drop k)) = rename name new before k ts) ↔
      isClear name before k ts = true := by
  induction ts generalizing before k with
  | nil => simp [textOf, Text.replaceChars, rename, isClear]
  | cons t rest ih =>
    cases k with
    | succ k => exact ih (some t) k
    | zero =>
      rw [isClear, drop_zero]
      simp only [rename]
      split_ifs with hid
      · have htext : textOf (t :: rest) = name ++ textOf (rest.drop (dotted rest)) := by
          rw [isIdentifier, Bool.and_eq_true, beq_iff_eq] at hid
          rw [← hid.2, textOf, textOf, textOf, ← flatMap_append, cons_append, take_append_drop]
        rw [← ih (some t) (dotted rest), htext]
        simp only [Text.replaceChars_own hname, append_cancel_left_eq]
      · have hrest := ih (some t) 0
        rw [drop_zero] at hrest
        have htext : textOf (t :: rest) = t.text.toList ++ textOf rest := flatMap_cons
        rw [htext, Text.replaceChars_append_iff, hrest]
        simp

end Sql.Token

/-! ### Clauses of a request -/

namespace Resolution

open Sql.Token

/-- A clause with a new name for the identifiers that are the old one. -/
def renamed (s old new : String) : String :=
  String.ofList (rename old.toList new.toList none 0 (scan s))

/-- **In a clause given as text, exactly the identifiers that are a name are replaced**, if and only
if no occurrence of the name begins elsewhere in the text. -/
theorem replaceSide_text_iff (s : String) {old : String} (hold : old ≠ "") (w : Workspace) :
    (∀ new, (∀ side, replaceSide side old new (.text s) w = (.ok (.text (renamed s old new)), w)) ∧
        replaceOrder old new (.text s) = .ok (.text (renamed s old new))) ↔
      isClear old.toList none 0 (scan s) = true := by
  have hempty : old.isEmpty = false := by simpa using hold
  have hs : textOf ((scan s).drop 0) = s.toList := textOf_scanFrom none 0 s.toList
  rw [← replaceChars_textOf_iff (by simpa using hold), hs]
  have heq : ∀ new : String, Text.replace s old new = renamed s old new ↔
      Text.replaceChars old.toList new.toList 0 s.toList
        = rename old.toList new.toList none 0 (scan s) := by
    intro new
    rw [Text.replace, hempty, renamed]
    exact String.ofList_inj
  constructor
  · intro h new
    have hnew := (heq (String.ofList new)).mp (Conditions.text.inj (Except.ok.inj (h _).2))
    simpa using hnew
  · intro h new
    have hnew := (heq new).mpr (h new.toList)
    refine ⟨fun side => ?_, ?_⟩
    · rw [← hnew]
      rfl
    · rw [← hnew]
      rfl

theorem replaceSide_text_clear :
    replaceSide .rows "channel" "calls.origin" (.text "channel = 'web'") default
      = (.ok (.text "calls.origin = 'web'"), default) := by
  have hnew : renamed "channel = 'web'" "channel" "calls.origin" = "calls.origin = 'web'" := by
    decide +kernel
  have hold : "channel" ≠ "" := by decide
  have h := (replaceSide_text_iff "channel = 'web'" hold default).mpr (by decide +kernel)
  rw [(h "calls.origin").1 .rows, hnew]

/-- A value in quotes is replaced as well. -/
theorem replaceSide_text_quoted :
    renamed "channel = 'channel'" "channel" "calls.origin" = "calls.origin = 'channel'" ∧
    replaceSide .rows "channel" "calls.origin" (.text "channel = 'channel'") default
      = (.ok (.text "calls.origin = 'calls.origin'"), default) :=
  ⟨by decide +kernel, rfl⟩

end Resolution

end SemanticLayer
