import JobConfig.Text.Utf8

/-!
# Compressed data

Data of the deflate format is a stream of bits, the lowest bit of each byte first. It is cut into
blocks of literal bytes and of references to what stands before them.
-/

namespace JobConfig.Gzip

/-- Why compressed data cannot be read. -/
inductive Fault where
  | header
  | truncated
  | data
  | checksum
deriving DecidableEq

/-- The fault in words. -/
def Fault.message : Fault → String
  | header => "invalid gzip header"
  | truncated => "unexpected end of file"
  | data => "corrupt deflate stream"
  | checksum => "corrupt gzip stream does not have a matching checksum"

abbrev Bits := List Bool

/-- The bits of bytes. -/
def bitsOf (bs : Bytes) : Bits :=
  bs.flatMap fun b => (List.range 8).map fun i => b.toNat.testBit i

/-- A number of `n` bits, the lowest one first. -/
def takeNumber : Nat → Bits → Except Fault (Nat × Bits)
  | 0, bits => .ok (0, bits)
  | _ + 1, [] => .error .truncated
  | n + 1, b :: bits => do
    let (high, bits) ← takeNumber n bits
    return (b.toNat + 2 * high, bits)

/-- A code of symbols: how many words of each length there are, from length one on, and the symbols
in the order of their words. -/
structure Code where
  counts : List Nat
  symbols : List Nat

namespace Code

/-- The greatest length of a word. -/
def maxLength : Nat := 15

/-- The code in which symbol `i` has a word of length `lengths[i]`, or none if that is zero. Its
words must use up all bit strings, unless there is at most one. -/
def ofLengths (lengths : List Nat) : Except Fault Code :=
  let used := lengths.zipIdx.filter (·.1 != 0)
  let sizes := (List.range maxLength).map (· + 1)
  let room := used.foldl (fun n e => n + Nat.pow 2 (maxLength - e.1)) 0
  if used.length > 1 ∧ room ≠ Nat.pow 2 maxLength then .error .data
  else .ok {
    counts := sizes.map fun n => used.countP (·.1 == n)
    symbols := sizes.flatMap fun n => (used.filter (·.1 == n)).map (·.2) }

/-- Read the rest of a word, of which `word` has been read; `first` is the first word of the present
length and `before` the number of shorter ones. -/
def takeRest (symbols : List Nat) : List Nat → (word first before : Nat) → Bits →
    Except Fault (Nat × Bits)
  | [], _, _, _, _ => .error .data
  | _ :: _, _, _, _, [] => .error .truncated
  | count :: counts, word, first, before, b :: bits =>
    let word := word + b.toNat
    if word < first + count then
      match symbols[before + (word - first)]? with
      | some s => .ok (s, bits)
      | none => .error .data
    else takeRest symbols counts (2 * word) (2 * (first + count)) (before + count) bits

/-- Read the symbol of a word. -/
def takeSymbol (c : Code) (bits : Bits) : Except Fault (Nat × Bits) :=
  takeRest c.symbols c.counts 0 0 0 bits

end Code

/-- The base and the number of extra bits of each symbol for a length. -/
def lengthTable : List (Nat × Nat) :=
  [(3, 0), (4, 0), (5, 0), (6, 0), (7, 0), (8, 0), (9, 0), (10, 0), (11, 1), (13, 1), (15, 1),
   (17, 1), (19, 2), (23, 2), (27, 2), (31, 2), (35, 3), (43, 3), (51, 3), (59, 3), (67, 4),
   (83, 4), (99, 4), (115, 4), (131, 5), (163, 5), (195, 5), (227, 5), (258, 0)]

/-- The base and the number of extra bits of each symbol for a distance. -/
def distanceTable : List (Nat × Nat) :=
  (1, 0) :: (2, 0) :: (List.range 14).flatMap fun i =>
    let step := Nat.pow 2 i
    [(2 * step + 1, i), (3 * step + 1, i)]

/-- Read the number that a symbol of a table and its extra bits stand for. -/
def takeFromTable (table : List (Nat × Nat)) (symbol : Nat) (bits : Bits) :
    Except Fault (Nat × Bits) :=
  match table[symbol]? with
  | none => .error .data
  | some (base, extra) => do
    let (n, bits) ← takeNumber extra bits
    return (base + n, bits)

/-- Copy `length` bytes from `distance` bytes back. -/
def copyBack (distance : Nat) : Nat → Array UInt8 → Array UInt8
  | 0, out => out
  | length + 1, out => copyBack distance length (out.push (out.getD (out.size - distance) 0))

/-- The symbol that ends a block. -/
def endOfBlock : Nat := 256

/-- Read the symbols of a block. -/
def takeSymbols (literals distances : Code) : Nat → Bits → Array UInt8 →
    Except Fault (Bits × Array UInt8)
  | 0, _, _ => .error .truncated
  | fuel + 1, bits, out => do
    let (s, bits) ← literals.takeSymbol bits
    if s < endOfBlock then takeSymbols literals distances fuel bits (out.push (UInt8.ofNat s))
    else if s = endOfBlock then return (bits, out)
    else
      let (length, bits) ← takeFromTable lengthTable (s - endOfBlock - 1) bits
      let (d, bits) ← distances.takeSymbol bits
      let (distance, bits) ← takeFromTable distanceTable d bits
      if distance > out.size then .error .data
      else takeSymbols literals distances fuel bits (copyBack distance length out)

/-- The lengths of the words that need no description. -/
def fixedLengths : List Nat :=
  List.replicate 144 8 ++ List.replicate 112 9 ++ List.replicate 24 7 ++ List.replicate 8 8

/-- The order in which the lengths of the words for lengths are given. -/
def lengthOrder : List Nat :=
  [16, 17, 18, 0, 8, 7, 9, 6, 10, 5, 11, 4, 12, 3, 13, 2, 14, 1, 15]

/-- Read `n` numbers of three bits. -/
def takeTriples : Nat → Bits → Except Fault (List Nat × Bits)
  | 0, bits => .ok ([], bits)
  | n + 1, bits => do
    let (x, bits) ← takeNumber 3 bits
    let (xs, bits) ← takeTriples n bits
    return (x :: xs, bits)

/-- Read lengths of words until there are `count`. The lengths so far are reversed. -/
def takeLengths (c : Code) (count : Nat) : Nat → Bits → List Nat → Except Fault (List Nat × Bits)
  | 0, _, _ => .error .truncated
  | fuel + 1, bits, done =>
    if done.length = count then .ok (done.reverse, bits)
    else if done.length > count then .error .data
    else do
      let (s, bits) ← c.takeSymbol bits
      if s < 16 then takeLengths c count fuel bits (s :: done)
      else if s = 16 then
        match done with
        | [] => .error .data
        | last :: _ =>
          let (n, bits) ← takeNumber 2 bits
          takeLengths c count fuel bits (List.replicate (n + 3) last ++ done)
      else
        let (base, extra) := if s = 17 then (3, 3) else (11, 7)
        let (n, bits) ← takeNumber extra bits
        takeLengths c count fuel bits (List.replicate (n + base) 0 ++ done)

/-- Read the two codes of a block that describes them. -/
def takeCodes (bits : Bits) : Except Fault (Code × Code × Bits) := do
  let (literals, bits) ← takeNumber 5 bits
  let (distances, bits) ← takeNumber 5 bits
  let (count, bits) ← takeNumber 4 bits
  let literals := literals + 257
  let distances := distances + 1
  if literals > 286 ∨ distances > 30 then .error .data
  else
    let (given, bits) ← takeTriples (count + 4) bits
    let byOrder := lengthOrder.zip given
    let lengths := (List.range 19).map fun i => (byOrder.lookup i).getD 0
    let (all, bits) ← takeLengths (← Code.ofLengths lengths) (literals + distances) 400 bits []
    return (← Code.ofLengths (all.take literals), ← Code.ofLengths (all.drop literals), bits)

/-- Read `n` bytes as they are. -/
def takeBytes : Nat → Bits → Array UInt8 → Except Fault (Bits × Array UInt8)
  | 0, bits, out => .ok (bits, out)
  | n + 1, bits, out => do
    let (b, bits) ← takeNumber 8 bits
    takeBytes n bits (out.push (UInt8.ofNat b))

/-- Read a block of bytes as they are, which starts with the next byte. -/
def takeStored (bits : Bits) (out : Array UInt8) : Except Fault (Bits × Array UInt8) := do
  let (n, bits) ← takeNumber 16 (bits.drop (bits.length % 8))
  let (check, bits) ← takeNumber 16 bits
  if n + check ≠ 0xffff then .error .data else takeBytes n bits out

/-- Read blocks up to the last one. -/
def takeBlocks : Nat → Bits → Array UInt8 → Except Fault (Bits × Array UInt8)
  | 0, _, _ => .error .truncated
  | fuel + 1, bits, out => do
    let (last, bits) ← takeNumber 1 bits
    let (kind, bits) ← takeNumber 2 bits
    let (bits, out) ←
      match kind with
      | 0 => takeStored bits out
      | 1 => do
        let literals ← Code.ofLengths fixedLengths
        let distances ← Code.ofLengths (List.replicate 32 5)
        takeSymbols literals distances (bits.length + 1) bits out
      | 2 => do
        let (literals, distances, bits) ← takeCodes bits
        takeSymbols literals distances (bits.length + 1) bits out
      | _ => .error .data
    if last = 1 then return (bits, out) else takeBlocks fuel bits out

/-- The data at the start of compressed bytes, and the bytes after it. -/
def inflate (bs : Bytes) : Except Fault (Bytes × Bytes) := do
  let bits := bitsOf bs
  let (rest, out) ← takeBlocks (bits.length + 1) bits #[]
  return (out.toList, bs.drop (bs.length - rest.length / 8))

end JobConfig.Gzip
