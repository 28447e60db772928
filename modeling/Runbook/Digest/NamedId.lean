import Runbook.Digest.Sha1
import Runbook.Text.Quoted

/-!
# `Digest.NamedId` — identifiers of 128 bits

An identifier is either derived from a name, which gives the same identifier wherever the name is
used, or made from a number.

## Contents
- **From names.** `namedId`, the first bytes of the hash of a name space and a name, marked as such.
- **Text.** `plainText`, 32 digits, and `groupedText`, digits in five groups.
-/

namespace Runbook.Digest

/-- The name space of addresses. -/
def addressSpace : List UInt8 :=
  [0x6b, 0xa7, 0xb8, 0x11, 0x9d, 0xad, 0x11, 0xd1, 0x80, 0xb4, 0x00, 0xc0, 0x4f, 0xd4, 0x30, 0xc8]

/-- Marks the bytes of an identifier as derived from a name: the version is in the seventh byte, the
    variant in the ninth. -/
def markNamed (bytes : List UInt8) : List UInt8 :=
  (bytes.modify 6 fun b => (b &&& 0x0f) ||| 0x50).modify 8 fun b => (b &&& 0x3f) ||| 0x80

/-- The identifier of a name in a name space. -/
def namedId (space : List UInt8) (name : String) : List UInt8 :=
  markNamed ((sha1 (space ++ name.toUTF8.toList)).take 16)

/-- Two digits for each byte. -/
def plainText (bytes : List UInt8) : String :=
  String.join (bytes.map fun b => Text.hexText 2 b.toNat)

/-- A number as 32 digits in groups of 8, 4, 4, 4 and 12. -/
def groupedText (n : Nat) : String :=
  let digits := (Text.hexText 32 n).toList
  let group (start length : Nat) : String := String.ofList ((digits.drop start).take length)
  String.intercalate "-" [group 0 8, group 8 4, group 12 4, group 16 4, group 20 12]

end Runbook.Digest
