/-!
# UTF-8

Text as bytes and bytes as text. The decoder reads byte by byte: a piece that no continuation can
complete counts as one ill-formed piece, and the byte that broke it is read anew.
-/

namespace JobConfig

/-- The content of a file, or the text of a path. -/
abbrev Bytes := List UInt8

namespace Utf8

/-- The bytes of a text. -/
def encode (s : String) : Bytes :=
  s.toList.flatMap String.utf8EncodeChar

/-- Where the decoder stands: between characters, or inside one with `left` bytes to come, the next
of them between `lo` and `hi`. -/
inductive State where
  | ready
  | inside (value left : Nat) (lo hi : UInt8)

/-- Read a byte between characters. -/
def first (b : UInt8) : List (Option Char) × State :=
  if b < 0x80 then ([some (Char.ofNat b.toNat)], .ready)
  else if b < 0xc2 then ([none], .ready)
  else if b < 0xe0 then ([], .inside (b.toNat - 0xc0) 1 0x80 0xbf)
  else if b = 0xe0 then ([], .inside 0 2 0xa0 0xbf)
  else if b = 0xed then ([], .inside 0xd 2 0x80 0x9f)
  else if b < 0xf0 then ([], .inside (b.toNat - 0xe0) 2 0x80 0xbf)
  else if b = 0xf0 then ([], .inside 0 3 0x90 0xbf)
  else if b < 0xf4 then ([], .inside (b.toNat - 0xf0) 3 0x80 0xbf)
  else if b = 0xf4 then ([], .inside 4 3 0x80 0x8f)
  else ([none], .ready)

/-- Read a byte: the pieces that it ends, `none` for an ill-formed one, and the new state. -/
def next : State → UInt8 → List (Option Char) × State
  | .ready, b => first b
  | .inside value left lo hi, b =>
    if lo ≤ b ∧ b ≤ hi then
      let value := 64 * value + (b.toNat - 0x80)
      if left = 1 then ([some (Char.ofNat value)], .ready)
      else ([], .inside value (left - 1) 0x80 0xbf)
    else (none :: (first b).1, (first b).2)

/-- The pieces of a byte string, read from a state. -/
def pieces : State → Bytes → List (Option Char)
  | .ready, [] => []
  | .inside .., [] => [none]
  | s, b :: bs => (next s b).1 ++ pieces (next s b).2 bs

/-- The text of well-formed bytes. -/
def decode? (bs : Bytes) : Option String :=
  ((pieces .ready bs).mapM id).map String.ofList

/-- The text of any bytes, with U+FFFD for each ill-formed piece. -/
def decodeLossy (bs : Bytes) : String :=
  String.ofList ((pieces .ready bs).map (·.getD '\uFFFD'))

end Utf8

end JobConfig
