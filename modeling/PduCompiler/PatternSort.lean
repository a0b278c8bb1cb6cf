/-!
Quicksort that looks for patterns: short ranges are sorted by insertion, ranges that seem to be in
order are tried by a few insertions, equal elements are taken off together, and bad pivots lead to a
heap. The sort is not stable. Which of two elements of equal rank comes first is fixed by the steps
below.
-/

namespace PduCompiler.PatternSort

variable {α : Type} (precedes : α → α → Bool)

def isBefore (a : Array α) (i j : Nat) : Bool :=
  match a[i]?, a[j]? with
  | some x, some y => precedes x y
  | _, _ => false

/-- Moves the element `n` places after `start` to the left while it goes before its neighbour. -/
def sinkLeft (start : Nat) : (n : Nat) → Array α → Array α
  | 0, a => a
  | n + 1, a =>
    if isBefore precedes a (start + n + 1) (start + n) then
      sinkLeft start n (a.swapIfInBounds (start + n + 1) (start + n))
    else a

/-- Moves the element before place `i` to the right while its neighbour goes before it, `n` places
at most. -/
def sinkRight (i : Nat) : (n : Nat) → Array α → Array α
  | 0, a => a
  | n + 1, a =>
    if isBefore precedes a i (i - 1) then sinkRight (i + 1) n (a.swapIfInBounds i (i - 1)) else a

def insertionSort (start stop : Nat) (a : Array α) : Array α :=
  (List.range (stop - start)).foldl (fun a n => sinkLeft precedes start n a) a

/-- Moves an element of a heap of `size` elements down until none below it is greater. -/
def siftDown (first size : Nat) : (fuel root : Nat) → Array α → Array α
  | 0, _, a => a
  | fuel + 1, root, a =>
    let child := 2 * root + 1
    if size ≤ child then a
    else
      let child :=
        if child + 1 < size && isBefore precedes a (first + child) (first + child + 1) then
          child + 1
        else child
      if isBefore precedes a (first + root) (first + child) then
        siftDown first size fuel child (a.swapIfInBounds (first + root) (first + child))
      else a

def heapSort (start stop : Nat) (a : Array α) : Array α :=
  let size := stop - start
  let heap := (List.range ((size - 1) / 2 + 1)).reverse.foldl
    (fun a i => siftDown precedes start size size i a) a
  (List.range size).reverse.foldl
    (fun a i => siftDown precedes start i size 0 (a.swapIfInBounds start (start + i))) heap

def firstFrom (holds : Nat → Bool) (i : Nat) : (n : Nat) → Nat
  | 0 => i
  | n + 1 => if holds i then firstFrom holds (i + 1) n else i

def lastFrom (holds : Nat → Bool) (j : Nat) : (n : Nat) → Nat
  | 0 => j
  | n + 1 => if holds j then lastFrom holds (j - 1) n else j

/-- Swaps elements from both ends until the places meet: from the left those that fail `isLow`, from
the right those that fail `isHigh`. The result has the two places, and tells whether nothing was
swapped. Every step takes two places. -/
def meet (isLow isHigh : Array α → Nat → Bool) :
    (fuel i j : Nat) → Bool → Array α → Nat × Nat × Bool × Array α
  | 0, i, j, isFirst, a => (i, j, isFirst, a)
  | fuel + 1, i, j, isFirst, a =>
    let i := firstFrom (isLow a) i (j + 1 - i)
    let j := lastFrom (isHigh a) j (j + 1 - i)
    if j < i then (i, j, isFirst, a)
    else meet isLow isHigh fuel (i + 1) (j - 1) false (a.swapIfInBounds i j)

/-- Parts a range at a pivot into the elements before it and the others. The result has the new
place of the pivot, and tells whether the range was parted already. -/
def partition (start stop pivot : Nat) (a : Array α) : Nat × Bool × Array α :=
  let a := a.swapIfInBounds start pivot
  let (_, j, isParted, a) := meet (fun a i => isBefore precedes a i start)
    (fun a j => !isBefore precedes a j start) (stop - start) (start + 1) (stop - 1) true a
  (j, isParted, a.swapIfInBounds j start)

/-- Parts a range in which nothing goes before the pivot into elements equal to it and the
others. -/
def partitionEqual (start stop pivot : Nat) (a : Array α) : Nat × Array α :=
  let a := a.swapIfInBounds start pivot
  let (i, _, _, a) := meet (fun a i => !isBefore precedes a start i)
    (fun a j => isBefore precedes a start j) (stop - start) (start + 1) (stop - 1) true a
  (i, a)

/-- Tries to sort a range by at most five insertions, and tells whether that was enough. Short
ranges are only looked at. -/
def sortByFew (start stop : Nat) : (steps i : Nat) → Array α → Bool × Array α
  | 0, _, a => (false, a)
  | steps + 1, i, a =>
    let i := firstFrom (fun i => !isBefore precedes a i (i - 1)) i (stop - i)
    if i = stop then (true, a)
    else if stop - start < 50 then (false, a)
    else
      let a := a.swapIfInBounds i (i - 1)
      let a := if i - start ≥ 2 then sinkLeft precedes 0 (i - 1) a else a
      let a := if stop - i ≥ 2 then sinkRight precedes (i + 1) (stop - (i + 1)) a else a
      sortByFew start stop steps i a

def scramble (r : UInt64) : UInt64 :=
  let r := r ^^^ (r <<< 13)
  let r := r ^^^ (r >>> 7)
  r ^^^ (r <<< 17)

/-- Moves three elements near the middle of a range to places without apparent order. -/
def breakPatterns (start stop : Nat) (a : Array α) : Array α :=
  let length := stop - start
  if length < 8 then a
  else
    let modulus := Nat.pow 2 (length.log2 + 1)
    let middle := start + length / 4 * 2 - 1
    ((List.range 3).foldl (fun (r, a) i =>
      let r := scramble r
      let other := r.toNat % modulus
      let other := if length ≤ other then other - length else other
      (r, a.swapIfInBounds (middle + i) (start + other))) (UInt64.ofNat length, a)).2

def ordered (a : Array α) (i j swaps : Nat) : Nat × Nat × Nat :=
  if isBefore precedes a j i then (j, i, swaps + 1) else (i, j, swaps)

def median (a : Array α) (i j k swaps : Nat) : Nat × Nat :=
  let (i, j, swaps) := ordered precedes a i j swaps
  let (j, _, swaps) := ordered precedes a j k swaps
  let (_, j, swaps) := ordered precedes a i j swaps
  (j, swaps)

/-- A pivot for a range, and how many swaps it took to find it: none if the range seems to be in
order, twelve if it seems to be in reverse order. -/
def choosePivot (start stop : Nat) (a : Array α) : Nat × Nat :=
  let length := stop - start
  let i := start + length / 4
  let j := start + length / 4 * 2
  let k := start + length / 4 * 3
  if length < 8 then (j, 0)
  else if length < 50 then median precedes a i j k 0
  else
    let (i, swaps) := median precedes a (i - 1) i (i + 1) 0
    let (j, swaps) := median precedes a (j - 1) j (j + 1) swaps
    let (k, swaps) := median precedes a (k - 1) k (k + 1) swaps
    median precedes a i j k swaps

def reverseRange (start stop : Nat) (a : Array α) : Array α :=
  (List.range ((stop - start) / 2)).foldl
    (fun a i => a.swapIfInBounds (start + i) (stop - 1 - i)) a

/-- Sorts a range. `limit` is how many bad pivots are allowed, `wasBalanced` and `wasParted` tell
about the partition before. Every step takes elements off the range. -/
def sortRange : (fuel limit : Nat) → (wasBalanced wasParted : Bool) → (start stop : Nat) →
    Array α → Array α
  | 0, _, _, _, _, _, a => a
  | fuel + 1, limit, wasBalanced, wasParted, start, stop, a =>
    let length := stop - start
    if length ≤ 12 then insertionSort precedes start stop a
    else if limit = 0 then heapSort precedes start stop a
    else
      let limit := if wasBalanced then limit else limit - 1
      let a := if wasBalanced then a else breakPatterns start stop a
      let (pivot, swaps) := choosePivot precedes start stop a
      let a := if swaps = 12 then reverseRange start stop a else a
      let pivot := if swaps = 12 then stop - 1 - (pivot - start) else pivot
      let (isSorted, a) :=
        if wasBalanced && wasParted && (swaps = 0 || swaps = 12) then
          sortByFew precedes start stop 5 (start + 1) a
        else (false, a)
      if isSorted then a
      else if 0 < start && !isBefore precedes a (start - 1) pivot then
        let (middle, a) := partitionEqual precedes start stop pivot a
        sortRange fuel limit wasBalanced wasParted middle stop a
      else
        let (middle, isParted, a) := partition precedes start stop pivot a
        let left := middle - start
        let right := stop - middle
        if left < right then
          let a := sortRange fuel limit true true start middle a
          sortRange fuel limit (length / 8 ≤ left) isParted (middle + 1) stop a
        else
          let a := sortRange fuel limit true true (middle + 1) stop a
          sortRange fuel limit (length / 8 ≤ right) isParted start middle a

end PatternSort

def patternSort {α : Type} (precedes : α → α → Bool) (list : List α) : List α :=
  let n := list.length
  (PatternSort.sortRange precedes (n + 1) (if n = 0 then 0 else n.log2 + 1) true true 0 n
    list.toArray).toList

end PduCompiler
