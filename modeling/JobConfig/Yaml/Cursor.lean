import JobConfig.Yaml.Character

/-!
# Cursors

A place in a text: what is still to be read, how many characters have been read, and the line and
column that they lead to.
-/

namespace JobConfig.Yaml

/-- A place in a text. -/
structure Cursor where
  rest : List Char
  index : Nat := 0
  line : Nat := 0
  column : Nat := 0
deriving Inhabited

namespace Cursor

/-- The next character. -/
def peek? (c : Cursor) : Option Char :=
  c.rest.head?

/-- The character after the next `n` ones. -/
def ahead? (c : Cursor) (n : Nat) : Option Char :=
  c.rest[n]?

/-- Whether the next character satisfies `p`. -/
def sees (c : Cursor) (p : Char → Bool) : Bool :=
  c.peek?.any p

/-- Whether the text, or the line, ends here. -/
def atLineEnd (c : Cursor) : Bool :=
  c.peek?.all isBreak

/-- The place after the next character, which is no break. -/
def skip (c : Cursor) : Cursor :=
  match c.rest with
  | [] => c
  | _ :: cs => { c with rest := cs, index := c.index + 1, column := c.column + 1 }

/-- The place after the next `n` characters, of which none is a break. -/
def skipMany (c : Cursor) : Nat → Cursor
  | 0 => c
  | n + 1 => c.skip.skipMany n

/-- The place after characters of this list, of which none is a break, and before `rest`. -/
def past (c : Cursor) (read rest : List Char) : Cursor :=
  { c with rest, index := c.index + read.length, column := c.column + read.length }

/-- The characters from here on that satisfy `p`, of which none is a break, and what follows. -/
def takeWhile (p : Char → Bool) (c : Cursor) : List Char × Cursor :=
  let (read, rest) := c.rest.span p
  (read, c.past read rest)

/-- The place after the characters that satisfy `p`, of which none is a break. -/
def dropWhile (p : Char → Bool) (c : Cursor) : Cursor :=
  (c.takeWhile p).2

/-- The break here, as it counts in a text, and the start of the next line. -/
def takeBreak (c : Cursor) : List Char × Cursor :=
  match c.rest with
  | '\r' :: '\n' :: cs =>
    (['\n'], { rest := cs, index := c.index + 2, line := c.line + 1, column := 0 })
  | b :: cs =>
    if isBreak b then
      (if b = '\u2028' ∨ b = '\u2029' then [b] else ['\n'],
        { rest := cs, index := c.index + 1, line := c.line + 1, column := 0 })
    else ([], c)
  | [] => ([], c)

/-- The place after the break here. -/
def skipBreak (c : Cursor) : Cursor :=
  c.takeBreak.2

/-- The end of the line. -/
def skipLine (c : Cursor) : Cursor :=
  c.dropWhile (!isBreak ·)

/-- The end of a line that holds nothing more than a comment. -/
def skipComment? (c : Cursor) : Option Cursor :=
  let c := c.dropWhile isBlank
  let c := if c.peek? = some '#' then c.skipLine else c
  if c.atLineEnd then some c.skipBreak else none

/-- Whether three characters `m` open the line and nothing is attached to them. -/
def atMark (c : Cursor) (m : Char) : Bool :=
  c.column == 0 && c.rest.take 3 == [m, m, m] && isGap (c.ahead? 3)

/-- Whether a document starts or ends here. -/
def atEdge (c : Cursor) : Bool :=
  c.atMark '-' || c.atMark '.'

end Cursor

end JobConfig.Yaml
