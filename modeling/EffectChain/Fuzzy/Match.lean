import EffectChain.Text.Basic

/-!
# EffectChain.Fuzzy.Match

Finding names by some of their letters.  A name matches a pattern when the
pattern's characters occur in it in order, in either case.  Matches at the start,
after a separator, at a capital after a small letter and next to each other count
more; characters without a match count against a name.  The proofs about completions use which
names are found, and not in which order.

Candidates are sorted in place by blocks: blocks of twenty are sorted by insertion, then
neighbouring blocks are merged by symmetric merging, which rotates the stretch
that is out of order and goes on in both halves.  The comparison need not be strict.  With a
comparison that holds between equal elements the result is sorted, but equal elements do not
keep their order; which order they get is fixed by the steps below.
-/

namespace EffectChain.Fuzzy

/-! ## sorting by blocks -/

section Sorting

variable {α : Type}

/-- Moves an element down from the end of a sorted block, which is given backwards. -/
def sink (less : α → α → Bool) (x : α) : List α → List α
  | [] => [x]
  | y :: ys => if less x y then y :: sink less x ys else x :: y :: ys

/-- A block sorted by insertion. -/
def insertionSort (less : α → α → Bool) (xs : List α) : List α :=
  (xs.foldl (fun acc x => sink less x acc) []).reverse

/-- The first index from `i` up to `j` at which `p` is false, by bisection. -/
def bisect (p : Nat → Bool) (i j : Nat) : Nat :=
  if h : i < j then
    let m := (i + j) / 2
    if p m then bisect p (m + 1) j else bisect p i m
  else i
termination_by j - i

/-- The elements at two places compare. -/
def lessAt (less : α → α → Bool) (l : List α) (i j : Nat) : Bool :=
  match l[i]?, l[j]? with
  | some x, some y => less x y
  | _, _ => false

/-- Exchanges the stretch from `a` to `m` with the stretch from `m` to `b`. -/
def rotate (l : List α) (a m b : Nat) : List α :=
  l.take a ++ ((l.take b).drop m ++ ((l.take m).drop a ++ l.drop b))

theorem length_rotate (l : List α) {a m b : Nat} (ha : a ≤ m) (hm : m ≤ b) :
    (rotate l a m b).length = l.length := by
  simp only [rotate, List.length_append, List.length_take, List.length_drop]
  omega

/-- The same when the two stretches are not empty, else nothing. -/
def turn (l : List α) (a m b : Nat) : List α :=
  if a < m ∧ m < b then rotate l a m b else l

theorem length_turn (l : List α) (a m b : Nat) : (turn l a m b).length = l.length := by
  unfold turn
  split
  · next h => exact length_rotate l (by omega) (by omega)
  · rfl

/-- Merges the sorted stretches of `l` before and after `m`. -/
def symMerge (less : α → α → Bool) (l : List α) (m : Nat) : List α :=
  let n := l.length
  if _h : m = 0 ∨ n ≤ m then l
  else if m = 1 then
    let i := bisect (fun h => lessAt less l h 0) 1 n
    (l.take i).drop 1 ++ (l.take 1 ++ l.drop i)
  else if n - m = 1 then
    let i := bisect (fun h => !lessAt less l m h) 0 m
    l.take i ++ (l.drop m ++ (l.take m).drop i)
  else
    let mid := n / 2
    let k := mid + m
    let from' := if m > mid then k - n else 0
    let upto := if m > mid then mid else m
    let start := bisect (fun c => !lessAt less l (k - 1 - c) c) from' upto
    let stop := k - start
    let left := (turn l start m stop).take mid
    let right := (turn l start m stop).drop mid
    (if 0 < start && start < mid then symMerge less left start else left) ++
      (if mid < stop && stop < n then symMerge less right (stop - mid) else right)
termination_by l.length
decreasing_by
  all_goals
    simp only [List.length_take, List.length_drop, length_turn]
    omega

/-- Merges neighbouring stretches of the given length, one pass over the list. -/
def mergePass (less : α → α → Bool) (size : Nat) (l : List α) : List α :=
  if _h : size = 0 ∨ l.length ≤ size then l
  else symMerge less (l.take (2 * size)) size ++ mergePass less size (l.drop (2 * size))
termination_by l.length
decreasing_by
  simp only [List.length_drop]
  omega

/-- Merges with stretches of doubling length until the list is one stretch. -/
def mergeAll (less : α → α → Bool) (size : Nat) (l : List α) : List α :=
  if h : size = 0 ∨ l.length ≤ size then l
  else
    let merged := mergePass less size l
    if merged.length = l.length then mergeAll less (2 * size) merged else merged
termination_by l.length - size
decreasing_by
  simp only [merged] at *
  omega

/-- Blocks of the given length, each sorted by insertion. -/
def sortBlocks (less : α → α → Bool) (size : Nat) (l : List α) : List α :=
  if _h : size = 0 ∨ l.length ≤ size then insertionSort less l
  else insertionSort less (l.take size) ++ sortBlocks less size (l.drop size)
termination_by l.length
decreasing_by
  simp only [List.length_drop]
  omega

/-- Sorts a list by blocks of twenty. -/
def blockSort (less : α → α → Bool) (l : List α) : List α :=
  mergeAll less 20 (sortBlocks less 20 l)

end Sorting

/-! ## names that match -/

/-- A name that matches, where it stood among the candidates, and how well. -/
structure Match where
  text : String
  index : Nat
  score : Int
  deriving DecidableEq, Repr, Inhabited

def isSeparator (c : Char) : Bool := "/-_ .\\".toList.contains c

/-- Where a search stands inside a candidate.  Offsets count bytes. -/
structure Search where
  /-- The characters of the pattern that are still to be matched. -/
  pattern : List Char
  /-- How many are matched, and the offset of the last one. -/
  matched : Nat := 0
  lastMatch : Nat := 0
  score : Int := 0
  /-- The best place for the next character of the pattern since the last match. -/
  best : Int := -1
  bestOffset : Option Nat := none
  adjacency : Int := 0
  /-- The character before and its offset. -/
  last : Option Char := none
  lastOffset : Nat := 0
  deriving Repr, Inhabited

namespace Search

/-- The score of matching the pattern's next character with `c` at `offset`, and
the growth of the bonus for neighbours. -/
def gain (s : Search) (c : Char) (offset : Nat) : Int × Int :=
  let start : Int := if offset = 0 then 10 else 0
  let camel : Int := if s.last.any Text.isSmall && Text.isCapital c then 20 else 0
  let separated : Int := if offset ≠ 0 && s.last.any isSeparator then 20 else 0
  let beside : Int :=
    if s.matched > 0 && s.lastMatch = s.lastOffset then s.adjacency * 2 + 5 else 0
  (start + camel + separated + beside, beside)

/-- Considers `c` for the pattern's next character. -/
def consider (s : Search) (c : Char) (offset : Nat) : Search :=
  match s.pattern with
  | p :: _ =>
    if Text.sameFold c p then
      let (gained, beside) := s.gain c offset
      let s := { s with adjacency := s.adjacency + beside }
      if gained > s.best then { s with best := gained, bestOffset := some offset } else s
    else s
  | [] => s

/-- Settles the best place once the pattern's character after the next comes up,
or the candidate ends. -/
def settle (s : Search) (next : Option Char) : Search :=
  let due := match next, s.pattern.drop 1 with
    | none, _ => true
    | some n, p :: _ => Text.sameFold p n
    | some _, [] => false
  match due, s.bestOffset with
  | true, some offset =>
    let lead : Int := if s.matched = 0 then max (-5 * (offset : Int)) (-15) else 0
    { s with
      pattern := s.pattern.drop 1, matched := s.matched + 1, lastMatch := offset,
      score := s.score + s.best + lead, best := -1, bestOffset := s.bestOffset }
  | _, _ => s

end Search

/-- Searches the rest of a candidate. -/
def walk (s : Search) (offset : Nat) : List Char → Search
  | [] => s
  | c :: cs =>
    let s := (s.consider c offset).settle cs.head?
    walk { s with last := some c, lastOffset := offset } (offset + c.utf8Size) cs

/-- The score of a candidate, if the whole pattern occurs in it. -/
def score? (pattern : List Char) (candidate : String) : Option Int :=
  let s := walk { pattern } 0 candidate.toList
  if s.matched = pattern.length then
    some (s.score + ((s.matched : Int) - candidate.utf8ByteSize))
  else none

/-- The candidates that match, best first.  An empty pattern matches none. -/
def find (pattern : String) (candidates : List String) : List Match :=
  if pattern = "" then []
  else
    let found := candidates.zipIdx.filterMap fun (text, index) =>
      (score? pattern.toList text).map fun score => { text, index, score : Match }
    blockSort (fun a b => a.score ≥ b.score) found

end EffectChain.Fuzzy
