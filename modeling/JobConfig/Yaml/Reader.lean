import JobConfig.Yaml.Node
import JobConfig.Yaml.Token.Stream

/-!
# Reading documents
-/

namespace JobConfig.Yaml

namespace Document

/-- The first document of a text. A stream without documents has none. -/
def ofText? (cs : List Char) : Option Document :=
  let (tokens, scanned) := Token.ofText cs
  let (events, parsed) := Event.ofTokens tokens
  ofEvents? (scanned && parsed) events

/-- A document that cannot be read at all. -/
def unreadable : Document where
  root := .broken
  anchors := []
  events := 0
  isAlone := false

/-- The first document of the bytes of a file. The bytes must be well-formed, and the text must hold
no control characters. -/
def ofBytes? (bs : Bytes) : Option Document :=
  match Utf8.decode? bs with
  | none => some unreadable
  | some s => if s.toList.all isReadable then ofText? s.toList else some unreadable

end Document

end JobConfig.Yaml
