/-!
# Edits

How one list of lines becomes another: runs of lines that stay, go, or come. An edit says where it
stands in both lists.
-/

namespace JobConfig.Diff

/-- What happens to a run of lines. -/
inductive Change where
  | keep
  | delete
  | insert
deriving DecidableEq, Inhabited

/-- A run of lines, its place in both lists, and what happens to it. -/
structure Edit where
  change : Change
  oldStart : Nat
  newStart : Nat
  length : Nat
deriving DecidableEq, Inhabited

namespace Edit

/-- The first old line after the edit. -/
def oldStop (e : Edit) : Nat :=
  if e.change = .insert then e.oldStart else e.oldStart + e.length

/-- The first new line after the edit. -/
def newStop (e : Edit) : Nat :=
  if e.change = .delete then e.newStart else e.newStart + e.length

/-- The edit `n` lines further up. -/
def up (e : Edit) (n : Nat) : Edit :=
  { e with oldStart := e.oldStart - n, newStart := e.newStart - n }

/-- The edit `n` lines further down. -/
def down (e : Edit) (n : Nat) : Edit :=
  { e with oldStart := e.oldStart + n, newStart := e.newStart + n }

/-- The edit with `n` more lines at its end. -/
def grow (e : Edit) (n : Nat) : Edit :=
  { e with length := e.length + n }

/-- The edit without the last `n` lines. -/
def shrink (e : Edit) (n : Nat) : Edit :=
  { e with length := e.length - n }

end Edit

/-- A part of a list of lines: the lines from `start` on and before `stop`. -/
structure Span where
  lines : Array String
  start : Nat
  stop : Nat

namespace Span

/-- All lines of a list. -/
def ofLines (lines : Array String) : Span :=
  ⟨lines, 0, lines.size⟩

/-- The number of lines. -/
def length (s : Span) : Nat :=
  s.stop - s.start

/-- How many lines two spans have in common at their starts, at most `n`. -/
def commonStart (a b : Span) : Nat → Nat
  | 0 => 0
  | n + 1 =>
    if a.start < a.stop ∧ b.start < b.stop ∧ a.lines[a.start]? = b.lines[b.start]? then
      commonStart { a with start := a.start + 1 } { b with start := b.start + 1 } n + 1
    else 0

/-- How many lines two spans have in common at their ends, at most `n`. -/
def commonEnd (a b : Span) : Nat → Nat
  | 0 => 0
  | n + 1 =>
    if a.start < a.stop ∧ b.start < b.stop ∧ a.lines[a.stop - 1]? = b.lines[b.stop - 1]? then
      commonEnd { a with stop := a.stop - 1 } { b with stop := b.stop - 1 } n + 1
    else 0

/-- How many lines two spans have in common at their starts. -/
def sharedStart (a b : Span) : Nat :=
  a.commonStart b (min a.length b.length)

/-- How many lines two spans have in common at their ends. -/
def sharedEnd (a b : Span) : Nat :=
  a.commonEnd b (min a.length b.length)

/-- The span without its first `n` lines. -/
def dropStart (s : Span) (n : Nat) : Span :=
  { s with start := s.start + n }

/-- The span without its last `n` lines. -/
def dropEnd (s : Span) (n : Nat) : Span :=
  { s with stop := s.stop - n }

end Span

end JobConfig.Diff
