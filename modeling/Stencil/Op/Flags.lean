/-!
# The summary word of a template

How many slots the walk fills, how many dynamic children there are, and whether
the tree is built from SVG elements. The word holds ten bits of slots, ten bits of
children, and the SVG bit above them. Every word can be read.
-/

namespace Stencil

/-- What is known of a template before its tree is built. -/
structure Flags where
  svg : Bool
  /-- Slots, with slot 0 for the root counted in. -/
  slots : Nat
  /-- Expressions that stand as children. -/
  children : Nat
  deriving DecidableEq, Repr

namespace Flags

/-- The stored word. Numbers beyond ten bits lose their high bits. -/
def encode (f : Flags) : UInt32 :=
  (f.slots % 1024 + 1024 * (f.children % 1024) + 1048576 * f.svg.toNat).toUInt32

/-- What a word says. -/
def decode (word : UInt32) : Flags :=
  let w := word.toNat
  { svg := w / 1048576 % 2 == 1, slots := w % 1024, children := w / 1024 % 1024 }

/-- Counts of ten bits are kept. -/
theorem decode_encode {f : Flags} (hs : f.slots < 1024) (hc : f.children < 1024) :
    decode f.encode = f := by
  obtain ⟨svg, slots, children⟩ := f
  simp only at hs hc
  have hb := svg.toNat_lt
  have hw : (slots % 1024 + 1024 * (children % 1024) + 1048576 * svg.toNat).toUInt32.toNat
      = slots + 1024 * children + 1048576 * svg.toNat := by
    rw [Nat.toUInt32, UInt32.toNat_ofNat']; omega
  have h1 : (slots + 1024 * children + 1048576 * svg.toNat) % 1024 = slots := by omega
  have h2 : (slots + 1024 * children + 1048576 * svg.toNat) / 1024 % 1024 = children := by omega
  have h3 : ((slots + 1024 * children + 1048576 * svg.toNat) / 1048576 % 2 == 1) = svg := by
    cases svg <;> simp <;> omega
  simp only [decode, encode, hw, h1, h2, h3]

end Flags
end Stencil
