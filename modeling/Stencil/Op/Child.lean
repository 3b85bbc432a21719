/-!
# Placing dynamic children

A child op puts the value of one dynamic expression among the children of the
current parent. Children are placed from the last to the first: each goes before
the node placed last, or before the node that a `setNext` picked since.

An op is stored as a 32-bit word, two bits of kind under a number. A number beyond
thirty bits loses its high bits.
-/

namespace Stencil

/-- One placement. -/
inductive ChildOp where
  /-- Place the value of a dynamic expression. -/
  | child (input : Nat)
  /-- Place what follows before the node of a slot. -/
  | setNext (slot : Nat)
  /-- Place what follows among the children of a slot's node, from its end. -/
  | setParent (slot : Nat)
  deriving DecidableEq, Repr

namespace ChildOp

/-- The stored word. -/
def encode : ChildOp → UInt32
  | child input => (4 * input).toUInt32
  | setNext slot => (1 + 4 * slot).toUInt32
  | setParent slot => (3 + 4 * slot).toUInt32

/-- The op that a word stands for, if it stands for any. -/
def decode (word : UInt32) : Option ChildOp :=
  let w := word.toNat
  match w % 4 with
  | 0 => some (child (w / 4))
  | 1 => some (setNext (w / 4))
  | 3 => some (setParent (w / 4))
  | _ => none

/-- The number that an op carries. -/
def number : ChildOp → Nat
  | child input => input
  | setNext slot => slot
  | setParent slot => slot

/-- Numbers of thirty bits are kept. -/
theorem decode_encode {op : ChildOp} (h : op.number < 0x40000000) : decode op.encode = some op := by
  cases op with
  | child input =>
    simp only [number] at h
    have hw : (4 * input).toUInt32.toNat = 4 * input := by
      rw [Nat.toUInt32, UInt32.toNat_ofNat']; omega
    have h1 : 4 * input % 4 = 0 := by omega
    have h2 : 4 * input / 4 = input := by omega
    simp only [decode, encode, hw, h1, h2]
  | setNext slot =>
    simp only [number] at h
    have hw : (1 + 4 * slot).toUInt32.toNat = 1 + 4 * slot := by
      rw [Nat.toUInt32, UInt32.toNat_ofNat']; omega
    have h1 : (1 + 4 * slot) % 4 = 1 := by omega
    have h2 : (1 + 4 * slot) / 4 = slot := by omega
    simp only [decode, encode, hw, h1, h2]
  | setParent slot =>
    simp only [number] at h
    have hw : (3 + 4 * slot).toUInt32.toNat = 3 + 4 * slot := by
      rw [Nat.toUInt32, UInt32.toNat_ofNat']; omega
    have h1 : (3 + 4 * slot) % 4 = 3 := by omega
    have h2 : (3 + 4 * slot) / 4 = slot := by omega
    simp only [decode, encode, hw, h1, h2]

end ChildOp
end Stencil
