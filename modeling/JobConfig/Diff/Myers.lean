import JobConfig.Diff.Edit

/-!
# Shortest edits

The algorithm of Myers. A shortest way through the grid of two lists is searched from both ends; its
middle cuts the task into two smaller ones. Diagonal `k` of the grid holds the points where `k` more
old than new lines have been passed.
-/

namespace JobConfig.Diff

/-- How far a search has come on each diagonal. -/
structure Frontier where
  reach : Array Nat
  /-- The place of diagonal zero. -/
  middle : Nat

namespace Frontier

/-- The start of a search of a given depth: on the diagonal above zero. -/
def start (depth : Nat) : Frontier :=
  { reach := Array.replicate (2 * depth + 3) 0, middle := depth + 1 }

/-- How far the search has come on diagonal `k`. -/
def get (f : Frontier) (k : Int) : Nat :=
  f.reach.getD (k + f.middle).toNat 0

/-- Note how far the search has come on diagonal `k`. -/
def set (f : Frontier) (k : Int) (x : Nat) : Frontier :=
  { f with reach := f.reach.setIfInBounds (k + f.middle).toNat x }

/-- Where a path of `d` changes starts on diagonal `k`, before it follows common lines. -/
def enter (f : Frontier) (d k : Int) : Nat :=
  if k = -d ∨ (k ≠ d ∧ f.get (k - 1) < f.get (k + 1)) then f.get (k + 1) else f.get (k - 1) + 1

end Frontier

/-- The diagonals that paths of `d` changes can be on, from the last one down. -/
def diagonals (d : Nat) : List Int :=
  (List.range (d + 1)).map fun (i : Nat) => (d : Int) - 2 * i

/-- Two searches, one from each end. -/
structure Search where
  old : Span
  new : Span
  forward : Frontier
  backward : Frontier

namespace Search

/-- How many more old than new lines there are. -/
def delta (s : Search) : Int :=
  (s.old.length : Int) - s.new.length

/-- Whether the searches have met on a diagonal, of which one has reached `x`. -/
def meets (s : Search) (other : Frontier) (k : Int) (x : Nat) : Bool :=
  x + other.get (s.delta - k) ≥ s.old.length

/-- Extend the paths from the start by one change, on diagonals `ks`. -/
def stepForward (d : Nat) (s : Search) : List Int → Search × Option (Nat × Nat)
  | [] => (s, none)
  | k :: ks =>
    let x := s.forward.enter d k
    let y := ((x : Int) - k).toNat
    let far := x + (s.old.dropStart x).sharedStart (s.new.dropStart y)
    let s := { s with forward := s.forward.set k far }
    if s.delta % 2 = 1 ∧ (k - s.delta).natAbs + 1 ≤ d ∧ s.meets s.backward k far then
      (s, some (s.old.start + x, s.new.start + y))
    else stepForward d s ks

/-- Extend the paths from the end by one change, on diagonals `ks`. -/
def stepBackward (d : Nat) (s : Search) : List Int → Search × Option (Nat × Nat)
  | [] => (s, none)
  | k :: ks =>
    let x := s.backward.enter d k
    let y := ((x : Int) - k).toNat
    let common := (s.old.dropEnd x).sharedEnd (s.new.dropEnd y)
    let s := { s with backward := s.backward.set k (x + common) }
    if s.delta % 2 = 0 ∧ (k - s.delta).natAbs ≤ d ∧ s.meets s.forward k (x + common) then
      (s, some (s.old.stop - (x + common), s.new.stop - (y + common)))
    else stepBackward d s ks

/-- Search with `d` changes and more, at most `fuel` times. -/
def run (s : Search) (d : Nat) : Nat → Option (Nat × Nat)
  | 0 => none
  | fuel + 1 =>
    match s.stepForward d (diagonals d) with
    | (_, some p) => some p
    | (s, none) =>
      match s.stepBackward d (diagonals d) with
      | (_, some p) => some p
      | (s, none) => s.run (d + 1) fuel

end Search

/-- The greatest number of changes that one of two searches has to make. -/
def maxChanges (old new : Span) : Nat :=
  (old.length + new.length + 1) / 2 + 1

/-- A point in the middle of a shortest way. -/
def middle? (old new : Span) : Option (Nat × Nat) :=
  let depth := maxChanges old new
  Search.run ⟨old, new, .start depth, .start depth⟩ 0 depth

/-- An edit, unless it is of no line. -/
def run (change : Change) (old new length : Nat) : List Edit :=
  if length = 0 then [] else [⟨change, old, new, length⟩]

/-- The edits that make `new` out of `old`. -/
def shortestEdits : Nat → Span → Span → List Edit
  | 0, old, new =>
    run .delete old.start new.start old.length ++ run .insert old.start new.start new.length
  | fuel + 1, old, new =>
    let start := old.sharedStart new
    let (a, b) := (old.dropStart start, new.dropStart start)
    let stop := a.sharedEnd b
    let (a, b) := (a.dropEnd stop, b.dropEnd stop)
    let inner :=
      if b.length = 0 then run .delete a.start b.start a.length
      else if a.length = 0 then run .insert a.start b.start b.length
      else
        match middle? a b with
        | some (x, y) =>
          shortestEdits fuel { a with stop := x } { b with stop := y } ++
            shortestEdits fuel { a with start := x } { b with start := y }
        | none =>
          run .delete a.start b.start a.length ++ run .insert a.start b.start b.length
    run .keep old.start new.start start ++ inner ++ run .keep a.stop b.stop stop

end JobConfig.Diff
