import JobConfig.Document.Scalar
import JobConfig.Text.Utf8
import JobConfig.Yaml.Character

/-!
# Presentation of texts

How a text is written so that it reads back as that text: plain if it is no number and no other
word of the core schema, quoted otherwise, as a block of lines if it has several lines, and with
escapes if it holds characters that the other styles cannot show.
-/

namespace JobConfig.Yaml

/-- Each character of a text between its neighbours. -/
def neighbours : Option Char → List Char → List (Option Char × Char × Option Char)
  | _, [] => []
  | before, c :: cs => (before, c, cs.head?) :: neighbours (some c) cs

/-- Whether a character would be read as an indicator. -/
def isIndicator : Option Char × Char × Option Char → Bool
  | (none, c, after) =>
    "#,[]\x7b\x7d&*!|>'\"%@\x60".toList.contains c ||
      ((c == '?' || c == ':' || c == '-') && isGap after)
  | (some before, c, after) =>
    (c == ':' && isGap after) || (c == '#' && isGap (some before))

/-- Whether a text begins like the edge of a document. -/
def startsLikeEdge (cs : List Char) : Bool :=
  cs.take 3 == ['-', '-', '-'] || cs.take 3 == ['.', '.', '.']

/-- Whether a character opens a text, or closes it. -/
def atEdge (p : Char → Bool) (cs : List Char) : Bool :=
  cs.head?.any p || cs.getLast?.any p

/-- Whether a break is followed by a space. -/
def hasBreakThenSpace (cs : List Char) : Bool :=
  (neighbours none cs).any fun (before, c, _) => before.any isBreak && c == ' '

/-- Whether a space is followed by a break. -/
def hasSpaceThenBreak (cs : List Char) : Bool :=
  (neighbours none cs).any fun (before, c, _) => before == some ' ' && isBreak c

/-- Whether a text needs escapes. -/
def needsEscapes (cs : List Char) : Bool :=
  hasSpaceThenBreak cs || cs.any (!isPrintable ·)

/-- Whether a text may be written without quotes. -/
def allowsPlain (cs : List Char) : Bool :=
  !(needsEscapes cs || hasBreakThenSpace cs || cs.any isBreak || atEdge (· == ' ') cs ||
    startsLikeEdge cs || (neighbours none cs).any isIndicator)

/-- Whether a text may be written in single quotes. -/
def allowsSingle (cs : List Char) : Bool :=
  !(needsEscapes cs || hasBreakThenSpace cs)

/-- Whether a text may be written as a block of lines. -/
def allowsLiteral (cs : List Char) : Bool :=
  !(cs.isEmpty || needsEscapes cs || cs.getLast? == some ' ')

/-- Whether a text would be read as something else if it were written without quotes. -/
def looksTyped (s : String) : Bool :=
  Scalar.plainMeaning s != .value (.string s) || Scalar.isZeroPadded s.toList

/-- The style of a text. A key on one line is never a block. -/
def styleOf (onLine : Bool) (s : String) : Style :=
  let cs := s.toList
  if cs.contains '\n' then if allowsLiteral cs && !onLine then .literal else .double
  else if !looksTyped s && allowsPlain cs then .plain
  else if allowsSingle cs then .single
  else .double

/-- White space of a width. -/
def pad (n : Nat) : List Char :=
  List.replicate n ' '

/-- Lines behind an indentation. A break is written as it is, and the indentation goes before the
first character of each line that has one. -/
def indented (indent : Nat) (atStart : Bool) : List Char → List Char
  | [] => []
  | c :: cs =>
    if isBreak c then c :: indented indent true cs
    else if atStart then pad indent ++ c :: indented indent false cs
    else c :: indented indent false cs

/-- How a block treats the breaks at its end: it drops them, keeps one, or keeps all. -/
def chomping (cs : List Char) : List Char :=
  match cs.reverse with
  | [] => ['-']
  | [c] => if isBreak c then ['+'] else ['-']
  | c :: d :: _ => if !isBreak c then ['-'] else if isBreak d then ['+'] else []

/-- A block of lines. Its indentation is stated if it could not be seen. -/
def literalText (indent : Nat) (cs : List Char) : List Char :=
  let width := if cs.head?.any fun c => c == ' ' || isBreak c then ['2'] else []
  '|' :: width ++ chomping cs ++ '\n' :: indented indent true cs

/-- What stands between single quotes: a quote is written twice, and the first of several line
feeds once more than it occurs. -/
def singleBody (indent : Nat) (inBreaks : Bool) : List Char → List Char
  | [] => if inBreaks then pad indent else []
  | c :: cs =>
    if isBreak c then
      if !inBreaks && c == '\n' then '\n' :: c :: singleBody indent true cs
      else c :: singleBody indent true cs
    else
      let text := if c == '\'' then ['\'', '\''] else [c]
      (if inBreaks then pad indent else []) ++ text ++ singleBody indent false cs

/-- The last `n` hexadecimal digits of a number. -/
def hexDigits : Nat → Nat → List Char
  | 0, _ => []
  | n + 1, m => hexDigits n (m / 16) ++ [(Nat.digitChar (m % 16)).toUpper]

/-- A character between double quotes. -/
def escaped (c : Char) : List Char :=
  match c with
  | '\x00' => ['\\', '0']
  | '\x07' => ['\\', 'a']
  | '\x08' => ['\\', 'b']
  | '\t' => ['\\', 't']
  | '\n' => ['\\', 'n']
  | '\x0b' => ['\\', 'v']
  | '\x0c' => ['\\', 'f']
  | '\r' => ['\\', 'r']
  | '\x1b' => ['\\', 'e']
  | '"' => ['\\', '"']
  | '\\' => ['\\', '\\']
  | '\x85' => ['\\', 'N']
  | '\u2028' => ['\\', 'L']
  | '\u2029' => ['\\', 'P']
  | c =>
    if isPrintable c then [c]
    else if c.toNat ≤ 0xff then '\\' :: 'x' :: hexDigits 2 c.toNat
    else if c.toNat ≤ 0xffff then '\\' :: 'u' :: hexDigits 4 c.toNat
    else '\\' :: 'U' :: hexDigits 8 c.toNat

/-- A text as it is written; lines after the first one stand behind `indent`. -/
def present (onLine : Bool) (indent : Nat) (s : String) : List Char :=
  let cs := s.toList
  match styleOf onLine s with
  | .plain => cs
  | .single => '\'' :: singleBody indent false cs ++ ['\'']
  | .literal | .folded => literalText indent cs
  | .double => '"' :: cs.flatMap escaped ++ ['"']

example : present false 2 "a: b" = "'a: b'".toList := by decide +kernel

example : present false 2 "x\n y\n\n" = "|+\n  x\n   y\n\n".toList := by decide +kernel

example : present false 2 "a \nb" = "\"a \\nb\"".toList := by decide +kernel

end JobConfig.Yaml
