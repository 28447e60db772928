/-!
# `Digest.Sha1` — the secure hash of 160 bits

A message of bytes is padded to blocks of sixteen words. Each block is extended to eighty words,
which are mixed one after the other into a state of five.

## Contents
- **Blocks.** `pad`, `words`, `blocks`.
- **Mixing.** `State`, `schedule`, `State.mix`, `State.absorb`.
- **The hash.** `sha1`, twenty bytes.
-/

namespace Runbook.Digest

/-! ## Blocks -/

/-- The last bytes of a number, the most significant first. -/
def bigEndian : Nat → Nat → List UInt8
  | 0, _ => []
  | width + 1, n => UInt8.ofNat (n / Nat.pow 256 width) :: bigEndian width n

theorem length_bigEndian (width n : Nat) : (bigEndian width n).length = width := by
  induction width with
  | zero => rfl
  | succ width ih => simp [bigEndian, ih]

/-- The bytes that follow a message of a length: a mark, zeros up to the end of a block, and the
    length in bits. -/
def padding (length : Nat) : List UInt8 :=
  0x80 :: List.replicate ((119 - length % 64) % 64) 0 ++ bigEndian 8 (8 * length)

/-- A message that fills whole blocks. -/
def pad (message : List UInt8) : List UInt8 := message ++ padding message.length

theorem length_pad (message : List UInt8) : (pad message).length % 64 = 0 := by
  simp only [pad, padding, List.cons_append, List.length_append, List.length_cons,
    List.length_replicate, length_bigEndian]
  omega

/-- Four bytes as a word. -/
def word (a b c d : UInt8) : UInt32 :=
  (a.toUInt32 <<< 24) ||| (b.toUInt32 <<< 16) ||| (c.toUInt32 <<< 8) ||| d.toUInt32

/-- Bytes as words. -/
def words : List UInt8 → List UInt32
  | a :: b :: c :: d :: rest => word a b c d :: words rest
  | _ => []

/-- Words in blocks of sixteen, up to a number of blocks. -/
def blocks : Nat → List UInt32 → List (List UInt32)
  | 0, _ => []
  | n + 1, ws => ws.take 16 :: blocks n (ws.drop 16)

/-! ## Mixing -/

/-- Turns the bits of a word to the left. -/
def rotate (w : UInt32) (n : UInt32) : UInt32 := (w <<< n) ||| (w >>> (32 - n))

/-- Extends a block to eighty words: each new word combines four earlier ones. -/
def schedule (block : List UInt32) : Array UInt32 :=
  (List.range 64).foldl
    (fun ws i =>
      ws.push
        (rotate (ws.getD (i + 13) 0 ^^^ ws.getD (i + 8) 0 ^^^ ws.getD (i + 2) 0 ^^^ ws.getD i 0)
          1))
    block.toArray

/-- What a hash has computed so far. -/
structure State where
  a : UInt32
  b : UInt32
  c : UInt32
  d : UInt32
  e : UInt32
  deriving DecidableEq, Repr

namespace State

/-- The state before the first block. -/
def start : State := ⟨0x67452301, 0xEFCDAB89, 0x98BADCFE, 0x10325476, 0xC3D2E1F0⟩

/-- How the words in the middle are combined, and the constant that is added, in a round. -/
def combine (s : State) (round : Nat) : UInt32 × UInt32 :=
  if round < 20 then ((s.b &&& s.c) ||| (~~~s.b &&& s.d), 0x5A827999)
  else if round < 40 then (s.b ^^^ s.c ^^^ s.d, 0x6ED9EBA1)
  else if round < 60 then ((s.b &&& s.c) ||| (s.b &&& s.d) ||| (s.c &&& s.d), 0x8F1BBCDC)
  else (s.b ^^^ s.c ^^^ s.d, 0xCA62C1D6)

/-- Mixes the word of a round into a state. -/
def mix (s : State) (round : Nat) (w : UInt32) : State :=
  let (f, k) := s.combine round
  ⟨rotate s.a 5 + f + s.e + k + w, s.a, rotate s.b 30, s.c, s.d⟩

/-- Adds states word by word. -/
def add (s t : State) : State := ⟨s.a + t.a, s.b + t.b, s.c + t.c, s.d + t.d, s.e + t.e⟩

/-- Mixes a block into a state. -/
def absorb (s : State) (block : List UInt32) : State :=
  let ws := schedule block
  s.add ((List.range 80).foldl (fun t i => t.mix i (ws.getD i 0)) s)

/-- The bytes of a state. -/
def bytes (s : State) : List UInt8 :=
  [s.a, s.b, s.c, s.d, s.e].flatMap fun w => bigEndian 4 w.toNat

end State

/-! ## The hash -/

/-- The hash of a message. -/
def sha1 (message : List UInt8) : List UInt8 :=
  let ws := words (pad message)
  ((blocks (ws.length / 16) ws).foldl State.absorb State.start).bytes

theorem length_sha1 (message : List UInt8) : (sha1 message).length = 20 := by
  simp [sha1, State.bytes, length_bigEndian]

end Runbook.Digest
