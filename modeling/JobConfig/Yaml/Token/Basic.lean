import JobConfig.Document.Scalar

/-!
# Tokens

The pieces that a document is made of. Where a block collection starts and ends follows from the
indentation, and has tokens of its own.
-/

namespace JobConfig.Yaml

/-- A piece of a document. -/
inductive Token where
  | version (major minor : Nat)
  | tagDirective (handle start : String)
  | documentStart
  | documentEnd
  | streamEnd
  | blockSequence
  | blockMapping
  | blockEnd
  | flowSequence
  | flowSequenceEnd
  | flowMapping
  | flowMappingEnd
  | entry
  | comma
  | key
  | value
  | alias (name : String)
  | anchor (name : String)
  /-- A tag; the handle is empty if the rest is the whole tag. -/
  | tag (handle rest : String)
  | scalar (text : String) (style : Style)
deriving DecidableEq, Inhabited

end JobConfig.Yaml
