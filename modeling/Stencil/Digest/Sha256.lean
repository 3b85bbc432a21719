import Stencil.Text.Hex

/-!
# SHA-256

The message is padded to whole blocks of sixteen 32-bit words; every block is
spread out to sixty-four words and stirred into eight running words, which are the
digest at the end.
-/

namespace Stencil.Digest

/-- The round constants: fractional parts of the cube roots of the first primes. -/
def roundConstants : Array UInt32 := #[
  0x428a2f98, 0x71374491, 0xb5c0fbcf, 0xe9b5dba5, 0x3956c25b, 0x59f111f1, 0x923f82a4, 0xab1c5ed5,
  0xd807aa98, 0x12835b01, 0x243185be, 0x550c7dc3, 0x72be5d74, 0x80deb1fe, 0x9bdc06a7, 0xc19bf174,
  0xe49b69c1, 0xefbe4786, 0x0fc19dc6, 0x240ca1cc, 0x2de92c6f, 0x4a7484aa, 0x5cb0a9dc, 0x76f988da,
  0x983e5152, 0xa831c66d, 0xb00327c8, 0xbf597fc7, 0xc6e00bf3, 0xd5a79147, 0x06ca6351, 0x14292967,
  0x27b70a85, 0x2e1b2138, 0x4d2c6dfc, 0x53380d13, 0x650a7354, 0x766a0abb, 0x81c2c92e, 0x92722c85,
  0xa2bfe8a1, 0xa81a664b, 0xc24b8b70, 0xc76c51a3, 0xd192e819, 0xd6990624, 0xf40e3585, 0x106aa070,
  0x19a4c116, 0x1e376c08, 0x2748774c, 0x34b0bcb5, 0x391c0cb3, 0x4ed8aa4a, 0x5b9cca4f, 0x682e6ff3,
  0x748f82ee, 0x78a5636f, 0x84c87814, 0x8cc70208, 0x90befffa, 0xa4506ceb, 0xbef9a3f7, 0xc67178f2]

/-- The eight running words. -/
structure Running where
  a : UInt32
  b : UInt32
  c : UInt32
  d : UInt32
  e : UInt32
  f : UInt32
  g : UInt32
  h : UInt32
  deriving DecidableEq, Repr

namespace Running

/-- The start: fractional parts of the square roots of the first primes. -/
def start : Running :=
  { a := 0x6a09e667, b := 0xbb67ae85, c := 0x3c6ef372, d := 0xa54ff53a,
    e := 0x510e527f, f := 0x9b05688c, g := 0x1f83d9ab, h := 0x5be0cd19 }

def add (x y : Running) : Running :=
  { a := x.a + y.a, b := x.b + y.b, c := x.c + y.c, d := x.d + y.d,
    e := x.e + y.e, f := x.f + y.f, g := x.g + y.g, h := x.h + y.h }

def words (x : Running) : List UInt32 :=
  [x.a, x.b, x.c, x.d, x.e, x.f, x.g, x.h]

end Running

/-- Rotation to the right. -/
def rotate (x : UInt32) (n : UInt32) : UInt32 :=
  (x >>> n) ||| (x <<< (32 - n))

/-- One round, with a word of the block and a round constant. -/
def round (s : Running) (word constant : UInt32) : Running :=
  let e1 := rotate s.e 6 ^^^ rotate s.e 11 ^^^ rotate s.e 25
  let choice := (s.e &&& s.f) ^^^ ((~~~ s.e) &&& s.g)
  let t1 := s.h + e1 + choice + constant + word
  let a0 := rotate s.a 2 ^^^ rotate s.a 13 ^^^ rotate s.a 22
  let majority := (s.a &&& s.b) ^^^ (s.a &&& s.c) ^^^ (s.b &&& s.c)
  { a := t1 + a0 + majority, b := s.a, c := s.b, d := s.c,
    e := s.d + t1, f := s.e, g := s.f, h := s.g }

/-- The sixty-four words of a block. -/
def spread (block : Array UInt32) : Array UInt32 :=
  (List.range 48).foldl (fun w i =>
    let x := w.getD (i + 1) 0
    let y := w.getD (i + 14) 0
    let x := rotate x 7 ^^^ rotate x 18 ^^^ (x >>> 3)
    let y := rotate y 17 ^^^ rotate y 19 ^^^ (y >>> 10)
    w.push (y + w.getD (i + 9) 0 + x + w.getD i 0)) block

/-- Stirs a block into the running words. -/
def stir (s : Running) (block : Array UInt32) : Running :=
  let w := spread block
  s.add ((List.range 64).foldl (fun t i => round t (w.getD i 0) (roundConstants.getD i 0)) s)

/-- The low `n` bytes of a number, the highest first. -/
def bytesHighFirst (n value : Nat) : List UInt8 :=
  (List.range n).map fun i => (value >>> (8 * (n - 1 - i))).toUInt8

/-- The message up to a whole number of blocks: a one bit, zeros, and its length in bits. -/
def pad (message : List UInt8) : Array UInt8 :=
  let size := message.length
  let zeros := (119 - size % 64) % 64
  (message ++ 0x80 :: List.replicate zeros 0 ++ bytesHighFirst 8 (8 * size)).toArray

/-- The word at a place in the padded message. -/
def wordAt (bytes : Array UInt8) (i : Nat) : UInt32 :=
  let byte := fun k => (bytes.getD (4 * i + k) 0).toUInt32
  (byte 0 <<< 24) ||| (byte 1 <<< 16) ||| (byte 2 <<< 8) ||| byte 3

/-- The digest of a message, as thirty-two bytes. -/
def sha256 (message : List UInt8) : List UInt8 :=
  let bytes := pad message
  let running := (List.range (bytes.size / 64)).foldl (fun s b =>
    stir s ((Array.range 16).map fun i => wordAt bytes (16 * b + i))) .start
  running.words.flatMap fun w => bytesHighFirst 4 w.toNat

/-- Bytes in lower-case hexadecimal notation. -/
def hex (bytes : List UInt8) : String :=
  String.ofList (bytes.flatMap fun b => [Text.hexDigit (b.toNat / 16), Text.hexDigit (b.toNat % 16)])

end Stencil.Digest
