/-!
# Updating the properties of a node

A prop op writes one dynamic value to the current node. `input` says which of the
dynamic expressions gives the value and `data` which of the stored names it goes
under. `setNode` makes another slot's node the current one; the root is current at
the start.

An op is stored as a 32-bit word: three bits of kind, twelve of `input`, and twelve
of `data`, which also holds the slot of a `setNode`.
-/

namespace Stencil

/-- Properties that are written without looking up a name. -/
inductive CommonProp where
  | className
  | textContent
  | innerHtml
  deriving DecidableEq, Repr

/-- The ways to write a value under a name. -/
inductive NamedProp where
  | attr
  | property
  /-- A property that is written only if the node holds another value. -/
  | diffProperty
  | style
  | event
  deriving DecidableEq, Repr

/-- One update. -/
inductive PropOp where
  | setNode (slot : Nat)
  | common (prop : CommonProp) (input : Nat)
  | named (kind : NamedProp) (input data : Nat)
  /-- Hand the node to a function. -/
  | directive (input : Nat)
  deriving DecidableEq, Repr

namespace CommonProp

/-- The number that stands for the property in a word. -/
def number : CommonProp → Nat
  | className => 0
  | textContent => 1
  | innerHtml => 2

def ofNumber? : Nat → Option CommonProp
  | 0 => some className
  | 1 => some textContent
  | 2 => some innerHtml
  | _ => none

theorem ofNumber?_number (p : CommonProp) : ofNumber? p.number = some p := by
  cases p <;> rfl

end CommonProp

namespace NamedProp

/-- The number that stands for the kind in a word. -/
def number : NamedProp → Nat
  | attr => 2
  | property => 3
  | diffProperty => 4
  | style => 5
  | event => 6

end NamedProp

namespace PropOp

/-- Which stored name the op refers to. -/
def data? : PropOp → Option Nat
  | named _ _ data => some data
  | _ => none

/-- Which dynamic expression the op refers to. -/
def input? : PropOp → Option Nat
  | setNode _ => none
  | common _ input => some input
  | named _ input _ => some input
  | directive input => some input

/-- Lays out the three fields. Numbers beyond twelve bits lose their high bits. -/
def pack (kind input data : Nat) : UInt32 :=
  (kind + 8 * (input % 4096) + 32768 * (data % 4096)).toUInt32

/-- The stored word. -/
def encode : PropOp → UInt32
  | setNode slot => pack 0 0 slot
  | common prop input => pack 1 input prop.number
  | named kind input data => pack kind.number input data
  | directive input => pack 7 input 0

/-- The op that a word stands for. Only an unknown common property stands for none. -/
def decode (word : UInt32) : Option PropOp :=
  let w := word.toNat
  let input := w / 8 % 4096
  let data := w / 32768 % 4096
  match w % 8 with
  | 0 => some (setNode data)
  | 1 => (CommonProp.ofNumber? data).map (common · input)
  | 2 => some (named .attr input data)
  | 3 => some (named .property input data)
  | 4 => some (named .diffProperty input data)
  | 5 => some (named .style input data)
  | 6 => some (named .event input data)
  | _ => some (directive input)

theorem toNat_pack (kind input data : Nat) (hk : kind < 8) :
    (pack kind input data).toNat = kind + 8 * (input % 4096) + 32768 * (data % 4096) := by
  rw [pack, Nat.toUInt32, UInt32.toNat_ofNat']
  omega

/-- Numbers of twelve bits are kept. -/
theorem decode_encode {op : PropOp} (hi : ∀ n, op.input? = some n → n < 4096)
    (hd : ∀ m, op.data? = some m → m < 4096) (hs : ∀ slot, op = .setNode slot → slot < 4096) :
    decode op.encode = some op := by
  cases op with
  | setNode slot =>
    have := hs slot rfl
    simp only [decode, encode, toNat_pack 0 0 slot (by omega)]
    have h1 : (0 + 8 * (0 % 4096) + 32768 * (slot % 4096)) % 8 = 0 := by omega
    have h2 : (0 + 8 * (0 % 4096) + 32768 * (slot % 4096)) / 32768 % 4096 = slot := by omega
    simp only [h1, h2]
  | common prop input =>
    have := hi input rfl
    have hp : prop.number < 4096 := by cases prop <;> decide
    simp only [decode, encode, toNat_pack 1 input prop.number (by omega)]
    have h1 : (1 + 8 * (input % 4096) + 32768 * (prop.number % 4096)) % 8 = 1 := by omega
    have h2 : (1 + 8 * (input % 4096) + 32768 * (prop.number % 4096)) / 8 % 4096 = input := by omega
    have h3 : (1 + 8 * (input % 4096) + 32768 * (prop.number % 4096)) / 32768 % 4096
        = prop.number := by omega
    simp only [h1, h2, h3, CommonProp.ofNumber?_number, Option.map_some]
  | named kind input data =>
    have := hi input rfl
    have := hd data rfl
    have hk : kind.number < 8 := by cases kind <;> decide
    simp only [decode, encode, toNat_pack kind.number input data hk]
    have h1 : (kind.number + 8 * (input % 4096) + 32768 * (data % 4096)) % 8 = kind.number := by
      omega
    have h2 : (kind.number + 8 * (input % 4096) + 32768 * (data % 4096)) / 8 % 4096 = input := by
      omega
    have h3 : (kind.number + 8 * (input % 4096) + 32768 * (data % 4096)) / 32768 % 4096 = data := by
      omega
    simp only [h1, h2, h3]
    cases kind <;> rfl
  | directive input =>
    have := hi input rfl
    simp only [decode, encode, toNat_pack 7 input 0 (by omega)]
    have h1 : (7 + 8 * (input % 4096) + 32768 * (0 % 4096)) % 8 = 7 := by omega
    have h2 : (7 + 8 * (input % 4096) + 32768 * (0 % 4096)) / 8 % 4096 = input := by omega
    simp only [h1, h2]

end PropOp
end Stencil
