/-!
# Text

Searching, cutting and replacing in texts, from left to right and without overlaps.  Every operation
is first written on lists of characters, by recursion on the list, and then carried over to
`String`.
-/

namespace SemanticLayer.Text

/-! ### Replacing -/

/-- Replaces the matches of `old`; the first argument counts the characters that still belong to
the last match. -/
def replaceChars (old new : List Char) : Nat → List Char → List Char
  | _, [] => []
  | k + 1, _ :: cs => replaceChars old new k cs
  | 0, c :: cs =>
    if old.isPrefixOf (c :: cs) then new ++ replaceChars old new (old.length - 1) cs
    else c :: replaceChars old new 0 cs

/-- `s` with every match of `old` replaced by `new`.  An empty `old` matches nowhere. -/
def replace (s old new : String) : String :=
  if old.isEmpty then s else String.ofList (replaceChars old.toList new.toList 0 s.toList)

/-! ### Searching -/

def findChars (sub : List Char) : List Char → Option Nat
  | [] => if sub.isEmpty then some 0 else none
  | c :: cs => if sub.isPrefixOf (c :: cs) then some 0 else (findChars sub cs).map (· + 1)

def find? (s sub : String) : Option Nat := findChars sub.toList s.toList

def contains (s sub : String) : Bool := (find? s sub).isSome

/-! ### Cutting -/

/-- Cuts at the matches of `sep`; `acc` is the current piece, reversed. -/
def splitChars (sep : List Char) : Nat → List Char → List Char → List (List Char)
  | _, acc, [] => [acc.reverse]
  | k + 1, acc, _ :: cs => splitChars sep k acc cs
  | 0, acc, c :: cs =>
    if sep.isPrefixOf (c :: cs) then acc.reverse :: splitChars sep (sep.length - 1) [] cs
    else splitChars sep 0 (c :: acc) cs

/-- The pieces between the matches of a non-empty `sep`; always at least one piece. -/
def split (s sep : String) : List String :=
  (splitChars sep.toList 0 [] s.toList).map String.ofList

def join (sep : String) (pieces : List String) : String := sep.intercalate pieces

def take (s : String) (n : Nat) : String := String.ofList (s.toList.take n)

def drop (s : String) (n : Nat) : String := String.ofList (s.toList.drop n)

def dropRight (s : String) (n : Nat) : String :=
  String.ofList (s.toList.take (s.toList.length - n))

def first? (s : String) : Option Char := s.toList.head?

def last? (s : String) : Option Char := s.toList.getLast?

def startsWith (s start : String) : Bool := start.toList.isPrefixOf s.toList

def endsWith (s ending : String) : Bool := ending.toList.reverse.isPrefixOf s.toList.reverse

def trimBy (p : Char → Bool) (s : String) : String :=
  String.ofList ((s.toList.dropWhile p).reverse.dropWhile p).reverse

def allBy (p : Char → Bool) (s : String) : Bool := !s.isEmpty && s.toList.all p

def collapseChars : List Char → List Char
  | ' ' :: ' ' :: cs => collapseChars (' ' :: cs)
  | c :: cs => c :: collapseChars cs
  | [] => []

def collapseBlanks (s : String) : String := String.ofList (collapseChars s.toList)

def padNat (width n : Nat) : String :=
  let digits := Nat.toDigits 10 n
  String.ofList (List.replicate (width - digits.length) '0' ++ digits)

end SemanticLayer.Text
