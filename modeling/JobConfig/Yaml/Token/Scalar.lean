import JobConfig.Document.Scalar
import JobConfig.Yaml.Cursor

/-!
# Reading scalars

How the text of a scalar is read. A line break between two words counts as a space; of several
breaks all but the first one count.
-/

namespace JobConfig.Yaml

/-- The text of a scalar so far, and the white space after it. All lists are reversed. -/
structure Folding where
  text : List Char := []
  blanks : List Char := []
  /-- The first break of the white space. -/
  firstBreak : List Char := []
  moreBreaks : List Char := []
  broken : Bool := false

namespace Folding

/-- A character after the white space. -/
def push (f : Folding) (c : Char) : Folding :=
  { f with text := c :: f.text }

/-- The white space as it counts in the text. -/
def white (f : Folding) : List Char :=
  if f.broken then
    if f.firstBreak == ['\n'] then if f.moreBreaks.isEmpty then [' '] else f.moreBreaks
    else f.moreBreaks ++ f.firstBreak
  else f.blanks

/-- The white space made part of the text. -/
def join (f : Folding) : Folding :=
  { text := f.white ++ f.text }

/-- One more blank. Blanks at the start of a line do not count. -/
def addBlank (f : Folding) (c : Char) : Folding :=
  if f.broken then f else { f with blanks := c :: f.blanks }

/-- One more break. -/
def addBreak (f : Folding) (b : List Char) : Folding :=
  if f.broken then { f with moreBreaks := b ++ f.moreBreaks }
  else { f with blanks := [], firstBreak := b, broken := true }

/-- The text that was read. -/
def result (f : Folding) : String :=
  String.ofList f.text.reverse

/-- The white space from here on. A tab before column `indent` is not allowed. -/
def takeWhite (indent : Int) : Nat → Folding → Cursor → Option (Folding × Cursor)
  | 0, f, c => some (f, c)
  | fuel + 1, f, c =>
    match c.peek? with
    | none => some (f, c)
    | some ch =>
      if isBlank ch then
        if f.broken && ch == '\t' && (c.column : Int) < indent then none
        else takeWhite indent fuel (f.addBlank ch) c.skip
      else if isBreak ch then
        let (b, c) := c.takeBreak
        takeWhite indent fuel (f.addBreak b) c
      else some (f, c)

end Folding

/-- The characters of a plain scalar up to white space or an indicator that ends it. -/
def plainWord (inFlow : Bool) : List Char → Option (List Char)
  | [] => some []
  | ch :: cs =>
    if isGap (some ch) then some []
    else if inFlow && ch == ':' && cs.head?.any (",?[]\x7b\x7d".toList.contains ·) then none
    else if ch == ':' && isGap cs.head? then some []
    else if inFlow && ",[]\x7b\x7d".toList.contains ch then some []
    else (plainWord inFlow cs).map (ch :: ·)

/-- The words of a plain scalar whose lines stand at column `indent` or behind it. -/
def plainWords (inFlow : Bool) (indent : Int) : Nat → Folding → Cursor → Option (Folding × Cursor)
  | 0, _, _ => none
  | fuel + 1, f, c =>
    if c.atEdge || c.peek? == some '#' then some (f, c)
    else do
      let word ← plainWord inFlow c.rest
      let f := if word.isEmpty then f else { f.join with text := word.reverse ++ f.join.text }
      let c := c.past word (c.rest.drop word.length)
      if c.sees fun ch => isBlank ch || isBreak ch then
        let (f, c) ← f.takeWhite indent fuel c
        if !inFlow && (c.column : Int) < indent then some (f, c)
        else plainWords inFlow indent fuel f c
      else some (f, c)

/-- The character that an escape of one letter stands for. -/
def escape? : Char → Option Char
  | '0' => some '\x00'
  | 'a' => some '\x07'
  | 'b' => some '\x08'
  | 't' | '\t' => some '\t'
  | 'n' => some '\n'
  | 'v' => some '\x0b'
  | 'f' => some '\x0c'
  | 'r' => some '\r'
  | 'e' => some '\x1b'
  | ' ' => some ' '
  | '"' => some '"'
  | '/' => some '/'
  | '\\' => some '\\'
  | 'N' => some '\x85'
  | '_' => some '\xa0'
  | 'L' => some '\u2028'
  | 'P' => some '\u2029'
  | _ => none

/-- How many digits follow an escape by number. -/
def escapeWidth? : Char → Option Nat
  | 'x' => some 2
  | 'u' => some 4
  | 'U' => some 8
  | _ => none

/-- The character of a number. -/
def charOfNat? (n : Nat) : Option Char :=
  if n.isValidChar then some (Char.ofNat n) else none

/-- The character of an escape, and what follows. -/
def takeEscape? (c : Cursor) : Option (Char × Cursor) := do
  let e ← c.ahead? 1
  let c := c.skip.skip
  match escapeWidth? e with
  | none => (escape? e).map (·, c)
  | some width =>
    let ds := c.rest.take width
    if ds.length < width then none
    else
      let n ← Scalar.nat? 16 ds
      return (← charOfNat? n, c.skipMany width)

/-- The text up to a closing quote, and what follows the quote. -/
def quotedText (single : Bool) : Nat → Folding → Cursor → Option (String × Cursor)
  | 0, _, _ => none
  | fuel + 1, f, c =>
    if c.atEdge then none
    else
      match c.peek? with
      | none => none
      | some ch =>
        if isBlank ch || isBreak ch then do
          let (f, c) ← f.takeWhite 0 fuel c
          quotedText single fuel f.join c
        else if ch == (if single then '\'' else '"') then
          if single && c.ahead? 1 == some '\'' then quotedText single fuel (f.push ch) c.skip.skip
          else some (f.result, c.skip)
        else if !single && ch == '\\' then
          if (c.ahead? 1).any isBreak then do
            let (f, c) ← { f with broken := true }.takeWhite 0 fuel c.skip.skipBreak
            quotedText single fuel f.join c
          else do
            let (ch, c) ← takeEscape? c
            quotedText single fuel (f.push ch) c
        else quotedText single fuel (f.push ch) c.skip

/-- The heading of a block: what happens to the breaks at its end, and its indentation if given. -/
def blockHeading? (c : Cursor) : Option (Option Char × Option Nat × Cursor) := do
  let sign (c : Cursor) : Option Char × Cursor :=
    if c.sees fun ch => ch == '+' || ch == '-' then (c.peek?, c.skip) else (none, c)
  let width? (c : Cursor) : Option (Option Nat × Cursor) :=
    match c.peek? with
    | some ch =>
      if ch == '0' then none
      else if ch.isDigit then some (some (ch.toNat - 48), c.skip)
      else some (none, c)
    | none => some (none, c)
  let (chomp, c) := sign c
  let (width, c) ← width? c
  let (chomp, c) := if chomp.isNone && width.isSome then sign c else (chomp, c)
  return (chomp, width, ← c.skipComment?)

/-- The breaks before the next line of a block. Nothing is known about the indentation before the
first line; it is then what that line has, but at least `least`. -/
def blockBreaks (least : Nat) : Nat → Option Nat → Nat → List Char → Cursor →
    Option (Nat × List Char × Cursor)
  | 0, _, _, _, _ => none
  | fuel + 1, indent, deepest, breaks, c =>
    let spaces := c.rest.takeWhile (· == ' ')
    let spaces := match indent with
      | none => spaces
      | some n => spaces.take (n - c.column)
    let c := c.past spaces (c.rest.drop spaces.length)
    let deepest := max deepest c.column
    if c.peek? == some '\t' && indent.all (c.column < ·) then none
    else if c.sees isBreak then
      let (b, c) := c.takeBreak
      blockBreaks least fuel indent deepest (b ++ breaks) c
    else some (indent.getD (max deepest least), breaks, c)

/-- The lines of a block. The text and the breaks after it are reversed. -/
def blockLines (literal : Bool) (indent : Nat) : Nat → (text firstBreak moreBreaks : List Char) →
    (blankBefore : Bool) → Cursor → Option (List Char × List Char × List Char × Cursor)
  | 0, _, _, _, _, _ => none
  | fuel + 1, text, firstBreak, moreBreaks, blankBefore, c =>
    if c.column ≠ indent ∨ c.rest = [] then some (text, firstBreak, moreBreaks, c)
    else do
      let blankHere := c.sees isBlank
      let folds := !literal && firstBreak == ['\n'] && !blankBefore && !blankHere
      let white :=
        if folds then if moreBreaks.isEmpty then [' '] else moreBreaks
        else moreBreaks ++ firstBreak
      let (line, c) := c.takeWhile (!isBreak ·)
      let (firstBreak, c) := c.takeBreak
      let (_, moreBreaks, c) ← blockBreaks indent fuel (some indent) 0 [] c
      let text := line.reverse ++ white ++ text
      blockLines literal indent fuel text firstBreak moreBreaks blankHere c

/-- The text of a block whose parent stands at column `parent`. -/
def blockText? (fuel : Nat) (literal : Bool) (parent : Int) (c : Cursor) :
    Option (String × Cursor) := do
  let (chomp, width, c) ← blockHeading? c
  let indent := width.map fun w => (max parent 0).toNat + w
  let least := max (parent + 1).toNat 1
  let (indent, breaks, c) ← blockBreaks least fuel indent 0 [] c
  let (text, firstBreak, moreBreaks, c) ←
    blockLines literal indent fuel [] [] breaks false c
  let kept :=
    if chomp == some '-' then [] else if chomp == some '+' then moreBreaks ++ firstBreak
    else firstBreak
  return (String.ofList (kept ++ text).reverse, c)

end JobConfig.Yaml
