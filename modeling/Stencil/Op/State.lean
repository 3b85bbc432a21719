/-!
# The walk over a fresh tree

When a template is first shown, its markup becomes a tree of nodes, and the state
ops walk that tree once to pick out the nodes that later updates need. A node that
is picked out gets the next free *slot*; slot 0 is always the root.

An op is stored as a 32-bit word:

    bit 0        the current node is saved
    bit 1        enter (or remove, if the count is zero)
    bit 2        next
    bits 3-12    how many ops run inside the entered node

Reading looks at bit 1 before bit 2, so a word with both enters.
-/

namespace Stencil

/-- One step of the walk. -/
inductive StateOp where
  /-- Go to the next sibling, saving the current node first if told to. -/
  | next (saves : Bool)
  /-- Run the next `count` ops from the first child, saving the current node first if told to. -/
  | enter (count : Nat) (saves : Bool)
  /-- Take the current node out of the tree; the node after it is saved in its place. -/
  | remove
  /-- Save the current node and stop. -/
  | save
  deriving DecidableEq, Repr

namespace StateOp

/-- Does the op give a slot to a node? -/
def assignsSlot : StateOp → Bool
  | .next saves => saves
  | .enter _ saves => saves
  | .remove => true
  | .save => true

/-- Does the op leave the current node? -/
def moves : StateOp → Bool
  | .next _ => true
  | .enter _ _ => true
  | .remove => false
  | .save => false

/-- The same step, but saving the node it starts from. -/
def withSave : StateOp → StateOp
  | .next _ => .next true
  | .enter count _ => .enter count true
  | .remove => .remove
  | .save => .save

/-- The largest count that a word has room for. -/
def maxCount : Nat := 1023

/-- The stored word. A count beyond ten bits loses its high bits. -/
def encode : StateOp → UInt32
  | .next saves => (4 + saves.toNat).toUInt32
  | .enter count saves => (2 + 8 * (count % 1024) + saves.toNat).toUInt32
  | .remove => 2
  | .save => 1

/-- The op that a word stands for, if it stands for any. -/
def decode (word : UInt32) : Option StateOp :=
  let w := word.toNat
  let saves := w % 2 == 1
  let count := w / 8 % 1024
  if w / 2 % 2 = 1 then
    some (if count = 0 then .remove else .enter count saves)
  else if w / 4 % 2 = 1 then
    some (.next saves)
  else if saves then
    some .save
  else
    none

/-- A count of one up to `maxCount` is kept, and so is every other op. -/
theorem decode_encode {op : StateOp}
    (h : ∀ count saves, op = .enter count saves → 0 < count ∧ count ≤ maxCount) :
    decode op.encode = some op := by
  cases op with
  | next saves => cases saves <;> rfl
  | remove => rfl
  | save => rfl
  | enter count saves =>
    obtain ⟨hpos, hle⟩ := h count saves rfl
    simp only [maxCount] at hle
    have hs := saves.toNat_lt
    have hw : (2 + 8 * (count % 1024) + saves.toNat).toUInt32.toNat
        = 2 + 8 * count + saves.toNat := by
      rw [Nat.toUInt32, UInt32.toNat_ofNat', Nat.mod_eq_of_lt (a := count) (by omega)]
      omega
    have henter : (2 + 8 * count + saves.toNat) / 2 % 2 = 1 := by omega
    have hcount : (2 + 8 * count + saves.toNat) / 8 % 1024 = count := by omega
    have hsave : ((2 + 8 * count + saves.toNat) % 2 == 1) = saves := by
      cases saves <;> simp <;> omega
    simp only [decode, encode, hw, henter, hcount, hsave, if_pos]
    rw [if_neg (by omega)]

end StateOp
end Stencil
