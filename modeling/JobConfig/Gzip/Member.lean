import JobConfig.Gzip.Deflate

/-!
# Compressed files

A compressed file is a header, compressed data, and a checksum and the length of the data. What
follows is not looked at.
-/

namespace JobConfig.Gzip

/-- The bytes that a compressed file starts with. -/
def magic : Bytes := [0x1f, 0x8b]

/-- Whether a file is compressed. -/
def isCompressed (bs : Bytes) : Bool :=
  magic.isPrefixOf bs

/-- One step of a checksum. -/
def crcStep (c : UInt32) : UInt32 :=
  if c &&& 1 = 1 then (0xedb88320 : UInt32) ^^^ (c >>> 1) else c >>> 1

/-- The checksum of bytes. -/
def crc (bs : Bytes) : UInt32 :=
  let all := bs.foldl (fun c b => Nat.repeat crcStep 8 (c ^^^ b.toUInt32)) (0xffffffff : UInt32)
  all ^^^ 0xffffffff

/-- The number whose bytes are given, the lowest one first. -/
def littleEndian : Bytes → Nat
  | [] => 0
  | b :: bs => b.toNat + 256 * littleEndian bs

/-- The first `n` bytes, and the others. -/
def takeExactly (n : Nat) (bs : Bytes) : Except Fault (Bytes × Bytes) :=
  if bs.length < n then .error .truncated else .ok (bs.take n, bs.drop n)

/-- What follows a text that ends with a zero. -/
def skipText (bs : Bytes) : Except Fault Bytes :=
  let n := (bs.takeWhile (· != 0)).length
  if n > 0xffff then .error .header
  else if n = bs.length then .error .truncated
  else .ok (bs.drop (n + 1))

/-- What follows a member of the header, if the flag for it is set. -/
def skipIf (flags : UInt8) (bit : Nat) (skip : Bytes → Except Fault Bytes) (bs : Bytes) :
    Except Fault Bytes :=
  if flags.toNat.testBit bit then skip bs else .ok bs

/-- What follows the header of a compressed file. -/
def skipHeader (file : Bytes) : Except Fault Bytes := do
  let (start, rest) ← takeExactly 10 file
  let flags := start.getD 3 0
  if start.take 3 ≠ magic ++ [8] ∨ flags ≥ 0x20 then .error .header
  else
    let rest ← skipIf flags 2 (fun bs => do
      let (n, bs) ← takeExactly 2 bs
      return (← takeExactly (littleEndian n) bs).2) rest
    let rest ← skipIf flags 3 skipText rest
    let rest ← skipIf flags 4 skipText rest
    skipIf flags 1 (fun bs => do
      let (check, after) ← takeExactly 2 bs
      let header := file.take (file.length - bs.length)
      if littleEndian check = (crc header).toNat % 0x10000 then return after
      else .error .checksum) rest

/-- The data of a compressed file. -/
def unpack (file : Bytes) : Except Fault Bytes := do
  let (data, rest) ← inflate (← skipHeader file)
  let (check, rest) ← takeExactly 4 rest
  let (size, _) ← takeExactly 4 rest
  if littleEndian check = (crc data).toNat ∧ littleEndian size = data.length % UInt32.size then
    return data
  else .error .checksum

end JobConfig.Gzip
