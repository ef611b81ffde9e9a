import JobConfig.Text.Utf8
import JobConfig.Yaml.Cursor
import JobConfig.Yaml.Token.Basic

/-!
# Reading tags and directives

A tag is written in angle brackets, with a handle between two exclamation marks, or behind one mark.
A percent sign and two digits stand for a byte of a character that a tag cannot hold as it is.
-/

namespace JobConfig.Yaml

/-- Whether a character may stand in a tag as it is written. -/
def isUriChar (bracketed : Bool) (c : Char) : Bool :=
  isNameChar c || ";/?:@&=+$.%!~*'()".toList.contains c ||
    (bracketed && (c == ',' || c == '[' || c == ']'))

/-- The bytes of a text in which percent signs stand before numbers of bytes. -/
def uriBytes? : List Char → Option Bytes
  | [] => some []
  | '%' :: a :: b :: cs => do
    let n ← Scalar.nat? 16 [a, b]
    return UInt8.ofNat n :: (← uriBytes? cs)
  | '%' :: _ => none
  | c :: cs => (uriBytes? cs).map (String.utf8EncodeChar c ++ ·)

/-- The text of a tag from here on. -/
def takeUri? (bracketed : Bool) (c : Cursor) : Option (String × Cursor) := do
  let (cs, c) := c.takeWhile (isUriChar bracketed)
  return (← Utf8.decode? (← uriBytes? cs), c)

/-- The name between two exclamation marks, with the marks, or one mark and the name after it. -/
def takeHandle? (c : Cursor) : Option (String × Cursor) :=
  if c.peek? ≠ some '!' then none
  else
    let (name, c) := c.skip.takeWhile isNameChar
    if c.peek? = some '!' then some (String.ofList ('!' :: name ++ ['!']), c.skip)
    else some (String.ofList ('!' :: name), c)

/-- Whether a handle stands between two marks. -/
def isNamedHandle (handle : String) : Bool :=
  handle != "!" && handle.toList.getLast? == some '!'

/-- A tag in angle brackets. -/
def bracketedTag? (c : Cursor) : Option (Token × Cursor) := do
  let (rest, c) ← takeUri? true c.skip.skip
  if rest = "" ∨ c.peek? ≠ some '>' then none else return (.tag "" rest, c.skip)

/-- A tag with a handle, which may be the mark alone. -/
def shortTag? (c : Cursor) : Option (Token × Cursor) := do
  let (handle, c) ← takeHandle? c
  let (rest, c) ← takeUri? false c
  if isNamedHandle handle then
    if rest = "" then none else return (.tag handle rest, c)
  else
    let rest := String.ofList handle.toList.tail ++ rest
    return (if rest = "" then .tag "" "!" else .tag "!" rest, c)

/-- The tag here. Nothing but a comma in a flow collection may be attached to it. -/
def takeTag? (inFlow : Bool) (c : Cursor) : Option (Token × Cursor) := do
  let (t, c) ← if c.ahead? 1 = some '<' then bracketedTag? c else shortTag? c
  if isGap c.peek? || (inFlow && c.peek? == some ',') then return (t, c) else none

/-- The name of an anchor, and what follows. -/
def takeAnchorName? (c : Cursor) : Option (String × Cursor) :=
  let (name, c) := c.skip.takeWhile isNameChar
  if !name.isEmpty && (isGap c.peek? || c.sees ("?:,]\x7d%@\x60".toList.contains ·)) then
    some (String.ofList name, c)
  else none

/-- A number of at most nine digits. -/
def takeNumber? (c : Cursor) : Option (Nat × Cursor) := do
  let (ds, c) := c.takeWhile Char.isDigit
  if ds.length > 9 then none else return (← Scalar.nat? 10 ds, c)

/-- The version that a directive states. -/
def versionDirective? (c : Cursor) : Option (Token × Cursor) := do
  let (major, c) ← takeNumber? (c.dropWhile isBlank)
  if c.peek? ≠ some '.' then none
  else
    let (minor, c) ← takeNumber? c.skip
    return (.version major minor, c)

/-- The tag handle that a directive defines. -/
def tagDirective? (c : Cursor) : Option (Token × Cursor) := do
  let (handle, c) ← takeHandle? (c.dropWhile isBlank)
  if (handle ≠ "!" ∧ !isNamedHandle handle) ∨ !c.sees isBlank then none
  else
    let (start, c) ← takeUri? true (c.dropWhile isBlank)
    if start = "" ∨ !isGap c.peek? then none else return (.tagDirective handle start, c)

/-- The directive here. -/
def takeDirective? (c : Cursor) : Option (Token × Cursor) := do
  let (name, c) := c.skip.takeWhile isNameChar
  if !isGap c.peek? then none
  else
    let (t, c) ←
      if name = "YAML".toList then versionDirective? c
      else if name = "TAG".toList then tagDirective? c
      else none
    return (t, ← c.skipComment?)

end JobConfig.Yaml
