import JobConfig.Yaml.Token.Scalar
import JobConfig.Yaml.Token.Tag

/-!
# From text to tokens

A scanner reads one token at a time. That a token is a key shows only at the colon after it, so a
token that may be a key waits in a queue, until the colon comes or the line ends. Tokens that wait
when the text turns out to be ill-formed are lost.
-/

namespace JobConfig.Yaml

/-- A token that may turn out to be a key. -/
structure PendingKey where
  /-- The number of the token. -/
  token : Nat
  /-- Whether the token can be nothing else. -/
  required : Bool
  index : Nat
  line : Nat
  column : Nat

/-- A scanner between two tokens. -/
structure Scanner where
  cursor : Cursor
  /-- More than the number of characters in the text. -/
  fuel : Nat
  /-- The pending key of each flow collection around the cursor, and of the block around them. -/
  keys : List (Option PendingKey) := [none]
  indent : Int := -1
  /-- The indentations of the blocks around the present one. -/
  outer : List Int := []
  keyAllowed : Bool := true
  queue : List Token := []
  /-- How many tokens have left the queue. -/
  taken : Nat := 0

namespace Scanner

/-- Whether the cursor is in a flow collection. -/
def inFlow (s : Scanner) : Bool :=
  s.keys.length > 1

/-- Append a token to the queue. -/
def add (s : Scanner) (t : Token) : Scanner :=
  { s with queue := s.queue ++ [t] }

/-- Append a token and move on to a place behind it. -/
def addAt (s : Scanner) (t : Token) (c : Cursor) : Scanner :=
  { s with queue := s.queue ++ [t], cursor := c }

/-- Put a token before the one with number `n`. -/
def addBefore (s : Scanner) (n : Nat) (t : Token) : Scanner :=
  { s with queue := s.queue.insertIdx (n - s.taken) t }

/-- The number of the next token. -/
def nextNumber (s : Scanner) : Nat :=
  s.taken + s.queue.length

/-- Whether a key can no longer get its colon. -/
def isStale (s : Scanner) (k : PendingKey) : Bool :=
  k.line < s.cursor.line || k.index + 1024 < s.cursor.index

/-- Give up the keys that are stale. A required key must not be among them. -/
def dropStale? (s : Scanner) : Option Scanner :=
  let stale := s.keys.filterMap fun k => k.filter s.isStale
  if stale.any (·.required) then none
  else some { s with keys := s.keys.map fun k => k.filter fun k => !s.isStale k }

/-- Give up the pending key of the present collection. It must not be a required one. -/
def dropKey? (s : Scanner) : Option Scanner :=
  match s.keys with
  | some k :: ks => if k.required then none else some { s with keys := none :: ks }
  | _ => some s

/-- Note that the next token may be a key. -/
def saveKey? (s : Scanner) : Option Scanner :=
  if s.keyAllowed then do
    let c := s.cursor
    let required := !s.inFlow && s.indent == c.column
    let s ← s.dropKey?
    let key : PendingKey := ⟨s.nextNumber, required, c.index, c.line, c.column⟩
    return { s with keys := some key :: s.keys.tail }
  else some s

/-- Allow or forbid a key at the next token. -/
def allowKey (s : Scanner) (allowed : Bool) : Scanner :=
  { s with keyAllowed := allowed }

/-- Whether a block collection starts at a column. -/
def opensAt (s : Scanner) (column : Nat) : Bool :=
  !s.inFlow && s.indent < column

/-- Enter a block collection. -/
def enter (s : Scanner) (column : Nat) : Scanner :=
  { s with indent := column, outer := s.indent :: s.outer }

/-- Start a block collection at a column, unless one is there. -/
def roll (s : Scanner) (column : Nat) (t : Token) : Scanner :=
  if s.opensAt column then (s.enter column).add t else s

/-- End the block collections that stand to the right of a column. -/
def unrollTo (column : Int) : Int → List Int → List Token → Int × List Int × List Token
  | indent, [], ts => (indent, [], ts)
  | indent, i :: is, ts =>
    if indent > column then unrollTo column i is (ts ++ [.blockEnd]) else (indent, i :: is, ts)

/-- End the block collections that stand to the right of a column. -/
def unroll (s : Scanner) (column : Int) : Scanner :=
  if s.inFlow then s
  else
    let (indent, outer, queue) := unrollTo column s.indent s.outer s.queue
    { s with indent, outer, queue }

/-- The place of the next token, and whether a line has ended before it. -/
def nextPlace (tabs : Bool) : Nat → Bool → Cursor → Bool × Cursor
  | 0, ended, c => (ended, c)
  | fuel + 1, ended, c =>
    let c := if c.index == 0 && c.peek? == some '\uFEFF' then c.skip else c
    let c := c.dropWhile fun ch => ch == ' ' || ((tabs || !ended) && ch == '\t')
    let c := if c.peek? = some '#' then c.skipLine else c
    if c.sees isBreak then nextPlace tabs fuel true c.skipBreak else (ended, c)

/-- Move to the next token. At the start of a line of a block a tab is no white space. -/
def toNext (s : Scanner) : Scanner :=
  let (ended, c) := nextPlace s.inFlow s.fuel (s.keyAllowed && !s.inFlow) s.cursor
  { s with cursor := c, keyAllowed := if s.inFlow then s.keyAllowed else ended }

/-- The token of a mark at the start of a line, which ends all blocks. -/
def edge? (s : Scanner) (t : Token) (c : Cursor) : Option Scanner := do
  let s ← (s.unroll (-1)).dropKey?
  return (s.allowKey false).addAt t c

/-- The end of the text. -/
def finish? (s : Scanner) : Option Scanner := do
  let s ← (s.unroll (-1)).dropKey?
  return (s.allowKey false).add .streamEnd

/-- The start of a flow collection. -/
def openFlow? (s : Scanner) (t : Token) : Option Scanner := do
  let s ← s.saveKey?
  return { s with keys := none :: s.keys, keyAllowed := true }.addAt t s.cursor.skip

/-- The end of a flow collection. -/
def closeFlow? (s : Scanner) (t : Token) : Option Scanner := do
  let s ← s.dropKey?
  let keys := if s.inFlow then s.keys.tail else s.keys
  return { s with keys, keyAllowed := false }.addAt t s.cursor.skip

/-- A comma. -/
def comma? (s : Scanner) : Option Scanner := do
  let s ← s.dropKey?
  return (s.allowKey true).addAt .comma s.cursor.skip

/-- The mark of an item. -/
def entry? (s : Scanner) : Option Scanner := do
  if !s.inFlow && !s.keyAllowed then none
  else
    let s ← (s.roll s.cursor.column .blockSequence).dropKey?
    return (s.allowKey true).addAt .entry s.cursor.skip

/-- The mark of a key. -/
def key? (s : Scanner) : Option Scanner := do
  if !s.inFlow && !s.keyAllowed then none
  else
    let s ← (s.roll s.cursor.column .blockMapping).dropKey?
    return (s.allowKey !s.inFlow).addAt .key s.cursor.skip

/-- A colon, which makes the pending token a key. -/
def value? (s : Scanner) : Option Scanner :=
  match s.keys with
  | some k :: ks =>
    let opens := s.opensAt k.column
    let s := { s with keys := none :: ks, keyAllowed := false }.addBefore k.token .key
    let s := if opens then (s.enter k.column).addBefore k.token .blockMapping else s
    some (s.addAt .value s.cursor.skip)
  | _ =>
    if !s.inFlow && !s.keyAllowed then none
    else
      let s := s.roll s.cursor.column .blockMapping
      some ((s.allowKey !s.inFlow).addAt .value s.cursor.skip)

/-- A token that may be a key, read by `read`. -/
def inline? (s : Scanner) (read : Cursor → Option (Token × Cursor)) : Option Scanner := do
  let s ← s.saveKey?
  let (t, c) ← read s.cursor
  return (s.allowKey false).addAt t c

/-- A plain scalar. A key may follow it on a new line. -/
def plain? (s : Scanner) : Option Scanner := do
  let s ← s.saveKey?
  let (f, c) ← plainWords s.inFlow (s.indent + 1) s.fuel {} s.cursor
  return (s.allowKey f.broken).addAt (.scalar f.result .plain) c

/-- A block scalar. -/
def block? (s : Scanner) (literal : Bool) : Option Scanner := do
  let s ← s.dropKey?
  let (text, c) ← blockText? s.fuel literal s.indent s.cursor.skip
  return (s.allowKey true).addAt (.scalar text (if literal then .literal else .folded)) c

/-- A quoted scalar. -/
def quoted? (s : Scanner) (single : Bool) : Option Scanner :=
  s.inline? fun c => do
    let (text, c) ← quotedText single s.fuel {} c.skip
    return (.scalar text (if single then .single else .double), c)

/-- Whether a plain scalar starts with a character, given the one after it. -/
def startsPlain (s : Scanner) (ch : Char) (after : Option Char) : Bool :=
  !(isGap (some ch) || "-?:,[]\x7b\x7d#&*!|>'\"%@\x60".toList.contains ch) ||
    (ch == '-' && !after.any isBlank) ||
    (!s.inFlow && (ch == '?' || ch == ':') && !isGap after)

/-- Read the token at the cursor. -/
def here? (s : Scanner) : Option Scanner :=
  let c := s.cursor
  match c.peek? with
  | none => s.finish?
  | some ch =>
    let after := c.ahead? 1
    let stands := s.inFlow || isGap after
    if c.column = 0 ∧ ch = '%' then do
      let (t, c) ← takeDirective? c
      s.edge? t c
    else if c.atMark '-' then s.edge? .documentStart (c.skipMany 3)
    else if c.atMark '.' then s.edge? .documentEnd (c.skipMany 3)
    else if ch = '[' then s.openFlow? .flowSequence
    else if ch = '\x7b' then s.openFlow? .flowMapping
    else if ch = ']' then s.closeFlow? .flowSequenceEnd
    else if ch = '\x7d' then s.closeFlow? .flowMappingEnd
    else if ch = ',' then s.comma?
    else if ch = '-' ∧ isGap after then s.entry?
    else if ch = '?' ∧ stands then s.key?
    else if ch = ':' ∧ stands then s.value?
    else if ch = '*' then s.inline? fun c => (takeAnchorName? c).map fun (n, c) => (.alias n, c)
    else if ch = '&' then s.inline? fun c => (takeAnchorName? c).map fun (n, c) => (.anchor n, c)
    else if ch = '!' then s.inline? (takeTag? s.inFlow)
    else if ch = '|' ∧ !s.inFlow then s.block? true
    else if ch = '>' ∧ !s.inFlow then s.block? false
    else if ch = '\'' then s.quoted? true
    else if ch = '"' then s.quoted? false
    else if s.startsPlain ch after then s.plain?
    else none

/-- Read the next token. -/
def fetch? (s : Scanner) : Option Scanner := do
  let s ← s.toNext.dropStale?
  (s.unroll s.cursor.column).here?

/-- Take the tokens out of the queue that do not wait for a colon. -/
def release (s : Scanner) : List Token × Scanner :=
  let waiting := s.keys.filterMap fun k => k.map (·.token)
  let count := (waiting.foldl min s.nextNumber) - s.taken
  (s.queue.take count, { s with queue := s.queue.drop count, taken := s.taken + count })

/-- Read all tokens. Those of the result are reversed; it is not whole if the text is ill-formed. -/
def run : Nat → Scanner → List Token → List Token × Bool
  | 0, _, ts => (ts, false)
  | fuel + 1, s, ts =>
    match s.dropStale? with
    | none => (ts, false)
    | some s =>
      let (ready, s) := s.release
      let ts := ready.reverse ++ ts
      if ts.head? = some .streamEnd then (ts, true)
      else
        match s.fetch? with
        | none => (ts, false)
        | some s => run fuel s ts

end Scanner

/-- The tokens of a text, and whether they are all of it. -/
def Token.ofText (cs : List Char) : List Token × Bool :=
  let fuel := cs.length + 3
  let (ts, whole) := Scanner.run fuel { cursor := { rest := cs }, fuel } []
  (ts.reverse, whole)

end JobConfig.Yaml
