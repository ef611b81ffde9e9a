import JobConfig.Yaml.Token.Basic

/-!
# From tokens to events

The events of a stream are its nodes in the order of the text: a scalar and an alias are one event
each, a collection is the events of its parts between a start and an end. Where nothing is written
for a key or a value there is an empty scalar.
-/

namespace JobConfig.Yaml

/-- What is written before a node. -/
structure Properties where
  anchor : Option String := none
  tag : Option String := none
deriving DecidableEq, Inhabited

/-- A step through the nodes of a stream. -/
inductive Event where
  | documentStart
  | documentEnd
  | alias (name : String)
  | scalar (anchor : Option String) (written : Written)
  | sequenceStart (p : Properties)
  | sequenceEnd
  | mappingStart (p : Properties)
  | mappingEnd
deriving DecidableEq, Inhabited

/-- An empty scalar. -/
def Event.empty : Event :=
  .scalar none { text := "" }

/-- What the parser of a stream expects next. -/
inductive Expected where
  /-- A document; the first one needs no mark. -/
  | document (isFirst : Bool)
  | content
  | documentEnd
  | node (block indentless : Bool)
  | blockItem
  | indentlessItem
  | blockKey
  | blockValue
  | flowItem (isFirst : Bool)
  | pairKey
  | pairValue
  | pairEnd
  | flowKey (isFirst : Bool)
  | flowValue
  | noFlowValue
deriving DecidableEq, Inhabited

/-- A parser between two events. -/
structure Parser where
  tokens : List Token
  /-- What is expected, the next thing first. -/
  stack : List Expected := [.document true]
  /-- The tag handles and what they stand for. -/
  handles : List (String × String) := []

namespace Parser

/-- The handles that need no directive. -/
def commonHandles : List (String × String) :=
  [("!", "!"), ("!!", Scalar.coreTag "")]

/-- The parser after a token, with `es` expected before what it expected after the present thing. -/
def next (p : Parser) (tokens : List Token) (es : List Expected) : Parser :=
  { p with tokens, stack := es ++ p.stack.tail }

/-- The handles that the directives before a document define, and the tokens after them. -/
def directives? : List Token → (version : Bool) → List (String × String) →
    Option (List (String × String) × List Token)
  | .version major minor :: ts, version, hs =>
    if version ∨ major ≠ 1 ∨ (minor ≠ 1 ∧ minor ≠ 2) then none else directives? ts true hs
  | .tagDirective h start :: ts, version, hs =>
    if hs.any (·.1 == h) then none else directives? ts version (hs ++ [(h, start)])
  | ts, _, hs => some (hs ++ commonHandles, ts)

/-- Start a document, or end the stream. -/
def document? (p : Parser) (isFirst : Bool) : Option (Option Event × Parser) :=
  let ts := if isFirst then p.tokens else p.tokens.dropWhile (· == .documentEnd)
  match ts with
  | [] => none
  | .streamEnd :: _ => some (none, { p with tokens := [], stack := [] })
  | t :: _ =>
    let marked := match t with
      | .version .. | .tagDirective .. | .documentStart => true
      | _ => false
    if isFirst && !marked then
      some (some .documentStart,
        { p.next ts [.node true false, .documentEnd] with handles := commonHandles })
    else
      match directives? ts false [] with
      | some (handles, .documentStart :: ts) =>
        some (some .documentStart, { p.next ts [.content, .documentEnd] with handles })
      | _ => none

/-- The tag that a handle and the rest of a tag stand for. -/
def resolve? (p : Parser) (handle rest : String) : Option String :=
  if handle = "" then some rest
  else (p.handles.find? (·.1 == handle)).map (·.2 ++ rest)

/-- The properties of a node, and the tokens after them. -/
def properties? (p : Parser) : Option (Properties × List Token) :=
  match p.tokens with
  | .anchor a :: .tag h r :: ts => (p.resolve? h r).map fun t => (⟨some a, some t⟩, ts)
  | .tag h r :: .anchor a :: ts => (p.resolve? h r).map fun t => (⟨some a, some t⟩, ts)
  | .anchor a :: ts => some (⟨some a, none⟩, ts)
  | .tag h r :: ts => (p.resolve? h r).map fun t => (⟨none, some t⟩, ts)
  | ts => some ({}, ts)

/-- A node that is nothing but its properties. -/
def bare? (p : Parser) (ps : Properties) (ts : List Token) : Option (Event × Parser) :=
  if ps = {} then none
  else some (.scalar ps.anchor { text := "", tag := ps.tag }, p.next ts [])

/-- Start a node. -/
def node? (p : Parser) (block indentless : Bool) : Option (Event × Parser) := do
  if let .alias name :: ts := p.tokens then return (.alias name, p.next ts [])
  let (ps, ts) ← p.properties?
  match ts with
  | [] => none
  | t :: rest =>
    if indentless ∧ t = .entry then return (.sequenceStart ps, p.next ts [.indentlessItem])
    match t with
    | .scalar text style =>
      let tag := ps.tag.filter (· != "!")
      return (.scalar ps.anchor { text, style, tag }, p.next rest [])
    | .flowSequence => return (.sequenceStart ps, p.next rest [.flowItem true])
    | .flowMapping => return (.mappingStart ps, p.next rest [.flowKey true])
    | .blockSequence =>
      if block then return (.sequenceStart ps, p.next rest [.blockItem]) else p.bare? ps ts
    | .blockMapping =>
      if block then return (.mappingStart ps, p.next rest [.blockKey]) else p.bare? ps ts
    | _ => p.bare? ps ts

/-- A node, unless one of the tokens `stop` comes next: then an empty scalar. The present
expectation becomes `es`. -/
def nodeOrEmpty? (p : Parser) (ts : List Token) (stop : List Token) (block indentless : Bool)
    (es : List Expected) : Option (Event × Parser) :=
  match ts with
  | [] => none
  | t :: _ =>
    if stop.contains t then some (.empty, p.next ts es)
    else node? (p.next ts (.node block indentless :: es)) block indentless

/-- The next thing in a flow collection with the end `close`: the end, or what `item` makes of the
tokens after the comma between two things. -/
def flow? (p : Parser) (isFirst : Bool) (close : Token) (done : Event)
    (item : List Token → Option (Event × Parser)) : Option (Event × Parser) :=
  match p.tokens with
  | [] => none
  | t :: ts =>
    if t = close then some (done, p.next ts [])
    else if isFirst then item (t :: ts)
    else if t = .comma then
      match ts with
      | [] => none
      | u :: us => if u = close then some (done, p.next us []) else item (u :: us)
    else none

/-- The next event inside a document. -/
def inside? (p : Parser) : Expected → Option (Event × Parser)
  | .document _ => none
  | .content =>
    match p.tokens with
    | [] => none
    | t :: _ =>
      match t with
      | .version .. | .tagDirective .. | .documentStart | .documentEnd | .streamEnd =>
        some (.empty, p.next p.tokens [])
      | _ => p.node? true false
  | .documentEnd =>
    match p.tokens with
    | [] => none
    | .documentEnd :: ts => some (.documentEnd, p.next ts [.document false])
    | ts => some (.documentEnd, p.next ts [.document false])
  | .node block indentless => p.node? block indentless
  | .blockItem =>
    match p.tokens with
    | .entry :: ts => p.nodeOrEmpty? ts [.entry, .blockEnd] true false [.blockItem]
    | .blockEnd :: ts => some (.sequenceEnd, p.next ts [])
    | _ => none
  | .indentlessItem =>
    match p.tokens with
    | [] => none
    | .entry :: ts =>
      p.nodeOrEmpty? ts [.entry, .key, .value, .blockEnd] true false [.indentlessItem]
    | ts => some (.sequenceEnd, p.next ts [])
  | .blockKey =>
    match p.tokens with
    | .key :: ts => p.nodeOrEmpty? ts [.key, .value, .blockEnd] true true [.blockValue]
    | .blockEnd :: ts => some (.mappingEnd, p.next ts [])
    | _ => none
  | .blockValue =>
    match p.tokens with
    | [] => none
    | .value :: ts => p.nodeOrEmpty? ts [.key, .value, .blockEnd] true true [.blockKey]
    | ts => some (.empty, p.next ts [.blockKey])
  | .flowItem isFirst =>
    p.flow? isFirst .flowSequenceEnd .sequenceEnd fun ts =>
      match ts with
      | .key :: ts =>
        some (.mappingStart {}, p.next ts [.pairKey, .pairValue, .pairEnd, .flowItem false])
      | ts => node? (p.next ts [.node false false, .flowItem false]) false false
  | .pairKey =>
    match p.tokens with
    | [] => none
    | t :: ts =>
      -- An empty key takes the token after it along.
      if t = .value ∨ t = .comma ∨ t = .flowSequenceEnd then some (.empty, p.next ts [])
      else p.node? false false
  | .pairValue =>
    match p.tokens with
    | [] => none
    | .value :: ts => p.nodeOrEmpty? ts [.comma, .flowSequenceEnd] false false []
    | ts => some (.empty, p.next ts [])
  | .pairEnd => some (.mappingEnd, p.next p.tokens [])
  | .flowKey isFirst =>
    p.flow? isFirst .flowMappingEnd .mappingEnd fun ts =>
      match ts with
      | .key :: ts =>
        p.nodeOrEmpty? ts [.value, .comma, .flowMappingEnd] false false [.flowValue, .flowKey false]
      | ts => node? (p.next ts [.node false false, .noFlowValue, .flowKey false]) false false
  | .flowValue =>
    match p.tokens with
    | [] => none
    | .value :: ts => p.nodeOrEmpty? ts [.comma, .flowMappingEnd] false false []
    | ts => some (.empty, p.next ts [])
  | .noFlowValue =>
    match p.tokens with
    | [] => none
    | ts => some (.empty, p.next ts [])

/-- Read all events. Those of the result are reversed; it is not whole if the tokens are no
stream. -/
def run : Nat → Parser → List Event → List Event × Bool
  | 0, _, es => (es, false)
  | fuel + 1, p, es =>
    match p.stack with
    | [] => (es, true)
    | .document isFirst :: _ =>
      match p.document? isFirst with
      | none => (es, false)
      | some (e, p) => run fuel p (e.toList ++ es)
    | expected :: _ =>
      match p.inside? expected with
      | none => (es, false)
      | some (e, p) => run fuel p (e :: es)

end Parser

/-- The events of a stream, and whether they are all of it. -/
def Event.ofTokens (ts : List Token) : List Event × Bool :=
  let (es, whole) := Parser.run (8 * ts.length + 8) { tokens := ts } []
  (es.reverse, whole)

end JobConfig.Yaml
