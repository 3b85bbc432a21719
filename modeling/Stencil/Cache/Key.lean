import Stencil.Digest.Sha256
import Stencil.Source

/-!
# Cache keys

A source is filed under the digest of all that compiling it depends on. The number
of fragments and the size of each are part of what is digested, so that no two
sources are spelled alike.
-/

namespace Stencil.Source

/-- A number in eight bytes, the lowest first. -/
def bytesLowFirst (n : Nat) : List UInt8 :=
  (List.range 8).map fun i => (n >>> (8 * i)).toUInt8

/-- A fragment after its size. -/
def fragmentBytes (fragment : String) : List UInt8 :=
  bytesLowFirst fragment.utf8ByteSize ++ fragment.toUTF8.data.toList

/-- All that compiling a source depends on. -/
def keyBytes (s : Source) : List UInt8 :=
  bytesLowFirst s.fragments.length ++ s.fragments.flatMap fragmentBytes
    ++ s.svg.toUInt8 :: s.invariant.map Bool.toUInt8

/-- The key of a source. -/
def hash (s : Source) : String :=
  Digest.hex (Digest.sha256 s.keyBytes)

end Stencil.Source
