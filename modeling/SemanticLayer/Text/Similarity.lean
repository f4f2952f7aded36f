import SemanticLayer.Text.Basic

/-!
# Similar texts

Two texts are similar as far as they have blocks in common: the longest one, the first of those of
equal length, and then the longest to the left and to the right of it.
-/

namespace SemanticLayer.Text

def commonStart : List Char → List Char → Nat
  | a :: as, b :: bs => if a == b then commonStart as bs + 1 else 0
  | _, _ => 0

def longestBlock (as bs : List Char) : Nat × Nat × Nat :=
  let starts := (List.range as.length).flatMap fun i => (List.range bs.length).map fun j => (i, j)
  starts.foldl (fun best (i, j) =>
    let n := commonStart (as.drop i) (bs.drop j)
    if best.2.2 < n then (i, j, n) else best) (0, 0, 0)

def commonCount : Nat → List Char → List Char → Nat
  | 0, _, _ => 0
  | n + 1, as, bs =>
    let (i, j, k) := longestBlock as bs
    if k = 0 then 0
    else
      k + commonCount n (as.take i) (bs.take j)
        + commonCount n (as.drop (i + k)) (bs.drop (j + k))

def similarity (a b : String) : Nat :=
  let all := a.length + b.length
  if all = 0 then 1000000 else 2000000 * commonCount a.length a.toList b.toList / all

def similarTo (s : String) (texts : List String) : List String :=
  let rated := (texts.map fun t => (similarity t s, t)).filter fun (n, _) => 600000 ≤ n
  let inOrder := rated.mergeSort fun a b => decide (b.1 < a.1) || (a.1 == b.1 && decide (b.2 ≤ a.2))
  (inOrder.take 3).map (·.2)

end SemanticLayer.Text
