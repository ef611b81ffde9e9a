import JobConfig.Diff.Edit

/-!
# Compact edits

Where a change can be moved up or down over equal lines it is moved as far as it goes, first up and
then down, so that changes that belong together meet and become one.
-/

namespace JobConfig.Diff

/-- An edit among the others; those before it come in reverse. -/
structure Focus where
  before : List Edit
  this : Edit
  after : List Edit

/-- The lines that two lists of edits are about. -/
structure Sides where
  old : Array String
  new : Array String

namespace Sides

/-- The old lines of an edit that keeps them. -/
def oldSpan (s : Sides) (e : Edit) : Span :=
  ⟨s.old, e.oldStart, e.oldStop⟩

/-- The new lines of an edit. -/
def newSpan (s : Sides) (e : Edit) : Span :=
  ⟨s.new, e.newStart, e.newStop⟩

end Sides

namespace Focus

/-- Kept lines put before `es`, as a part of the kept lines there. -/
def keepBefore (kept : Edit) : List Edit → List Edit
  | [] => [kept]
  | e :: es =>
    if e.change = .keep then (e.up kept.length).grow kept.length :: es else kept :: e :: es

/-- Kept lines put after `es`, which come in reverse, as a part of the kept lines there. -/
def keepAfter (kept : Edit) : List Edit → List Edit
  | [] => [kept]
  | e :: es => if e.change = .keep then e.grow kept.length :: es else kept :: e :: es

/-- Put an edit before others unless it is of no line. -/
def cons (e : Edit) (es : List Edit) : List Edit :=
  if e.length = 0 then es else e :: es

/-- Move an edit up as far as it goes. -/
def moveUp (s : Sides) : Nat → Focus → Focus
  | 0, f => f
  | fuel + 1, f =>
    match f.before with
    | [] => f
    | e :: es =>
      if e.change = .keep then
        let n := (s.oldSpan e).sharedEnd (s.newSpan f.this)
        if n > 0 then
          let kept := ⟨.keep, e.oldStop - n, f.this.newStop - n, n⟩
          moveUp s fuel ⟨cons (e.shrink n) es, f.this.up n, keepBefore kept f.after⟩
        else if e.length = 0 then moveUp s fuel { f with before := es }
        else f
      else if e.change = f.this.change then
        moveUp s fuel ⟨es, e.grow f.this.length, f.after⟩
      else moveUp s fuel ⟨es, f.this, e :: f.after⟩

/-- Move an edit down as far as it goes. -/
def moveDown (s : Sides) : Nat → Focus → Focus
  | 0, f => f
  | fuel + 1, f =>
    match f.after with
    | [] => f
    | e :: es =>
      if e.change = .keep then
        let n := (s.oldSpan e).sharedStart (s.newSpan f.this)
        if n > 0 then
          let kept := ⟨.keep, e.oldStart, f.this.newStart, n⟩
          moveDown s fuel ⟨keepAfter kept f.before, f.this.down n, cons ((e.down n).shrink n) es⟩
        else if e.length = 0 then moveDown s fuel { f with after := es }
        else f
      else if e.change = f.this.change then
        moveDown s fuel ⟨f.before, f.this.grow e.length, es⟩
      else moveDown s fuel ⟨e :: f.before, f.this, es⟩

end Focus

/-- Move the edits of one kind, one after the other; those that were passed come in reverse. -/
def compactKind (s : Sides) (change : Change) : Nat → List Edit → List Edit → List Edit
  | 0, before, es => before.reverse ++ es
  | _ + 1, before, [] => before.reverse
  | fuel + 1, before, e :: es =>
    if e.change = change then
      let room := s.old.size + s.new.size + before.length + es.length + 2
      let f := Focus.moveDown s room (Focus.moveUp s room ⟨before, e, es⟩)
      compactKind s change fuel (f.this :: f.before) f.after
    else compactKind s change fuel (e :: before) es

/-- Edits with changes moved together: first what goes, then what comes. -/
def compact (s : Sides) (es : List Edit) : List Edit :=
  let room := s.old.size + s.new.size + es.length + 1
  compactKind s .insert room [] (compactKind s .delete room [] es)

end JobConfig.Diff
