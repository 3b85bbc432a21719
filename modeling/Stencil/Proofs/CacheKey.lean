import Mathlib.Data.List.Basic
import Stencil.Cache.Basic

/-!
# Keys tell sources apart

What is digested for a source spells the source out. The number of fragments and the size
of each come before what they count, so the bytes can be cut in one way only, and no two
sources have the same bytes. Whether two sources can have the same key is then a question
about the digest alone.

A count has eight bytes, so all this is about sources whose counts fit.
-/

namespace Stencil

namespace Source

/-- Every count that goes into the key fits its eight bytes. -/
structure Sized (s : Source) : Prop where
  fragments : s.fragments.length < UInt64.size
  bytes : ∀ f ∈ s.fragments, f.utf8ByteSize < UInt64.size

/-! ## Counts -/

/-- The number that bytes stand for, the lowest first. -/
def ofBytes (bytes : List UInt8) : Nat :=
  bytes.foldr (fun b n => b.toNat + 256 * n) 0

theorem length_bytesLowFirst (n : Nat) : (bytesLowFirst n).length = 8 := by
  rw [bytesLowFirst, List.length_map, List.length_range]

/-- The first byte is the remainder, and the others spell the quotient. -/
theorem ofBytes_shifts (k n : Nat) (h : n >>> (8 * k) = 0) :
    ofBytes ((List.range k).map fun i => (n >>> (8 * i)).toUInt8) = n := by
  induction k generalizing n with
  | zero => exact h.symm
  | succ k ih =>
    have hshift : ∀ i, n >>> (8 * (i + 1)) = (n / 256) >>> (8 * i) := by
      intro i
      rw [Nat.mul_succ, Nat.add_comm, Nat.shiftRight_add, Nat.shiftRight_eq_div_pow n 8]
    have hrest : (List.range k).map (fun i => (n >>> (8 * (i + 1))).toUInt8) =
        (List.range k).map fun i => ((n / 256) >>> (8 * i)).toUInt8 :=
      List.map_congr_left fun i _ => congrArg Nat.toUInt8 (hshift i)
    have hfirst : ((n >>> (8 * 0)).toUInt8).toNat = n % 256 := rfl
    rw [hshift] at h
    rw [List.range_succ_eq_map, List.map_cons, List.map_map]
    show ((n >>> (8 * 0)).toUInt8).toNat
      + 256 * ofBytes ((List.range k).map fun i => (n >>> (8 * (i + 1))).toUInt8) = n
    rw [hrest, ih (n / 256) h, hfirst, Nat.mod_add_div]

theorem ofBytes_bytesLowFirst {n : Nat} (h : n < UInt64.size) : ofBytes (bytesLowFirst n) = n := by
  refine ofBytes_shifts 8 n ?_
  rw [Nat.shiftRight_eq_div_pow]
  exact Nat.div_eq_of_lt h

theorem bytesLowFirst_inj {m n : Nat} (hm : m < UInt64.size) (hn : n < UInt64.size)
    (h : bytesLowFirst m = bytesLowFirst n) : m = n := by
  rw [← ofBytes_bytesLowFirst hm, ← ofBytes_bytesLowFirst hn, h]

/-! ## Fragments -/

/-- A fragment can be cut off the front. -/
theorem fragmentBytes_append_inj {f g : String} {rest rest' : List UInt8}
    (hf : f.utf8ByteSize < UInt64.size) (hg : g.utf8ByteSize < UInt64.size)
    (h : fragmentBytes f ++ rest = fragmentBytes g ++ rest') : f = g ∧ rest = rest' := by
  rw [fragmentBytes, fragmentBytes, List.append_assoc, List.append_assoc] at h
  -- the sizes take up equally much, and equal sizes part the texts from what follows
  obtain ⟨hsize, h⟩ := List.append_inj h (by rw [length_bytesLowFirst, length_bytesLowFirst])
  have hsame := bytesLowFirst_inj hf hg hsize
  obtain ⟨hbytes, hrest⟩ := List.append_inj h (by simpa using hsame)
  have hutf8 : f.toUTF8 = g.toUTF8 := ByteArray.ext (Array.toList_inj.mp hbytes)
  exact ⟨String.toByteArray_inj.mp hutf8, hrest⟩

theorem fragmentsBytes_append_inj {fs gs : List String} {rest rest' : List UInt8}
    (hf : ∀ f ∈ fs, f.utf8ByteSize < UInt64.size) (hg : ∀ g ∈ gs, g.utf8ByteSize < UInt64.size)
    (hlength : fs.length = gs.length)
    (h : fs.flatMap fragmentBytes ++ rest = gs.flatMap fragmentBytes ++ rest') :
    fs = gs ∧ rest = rest' := by
  induction fs generalizing gs with
  | nil =>
    obtain rfl := List.eq_nil_of_length_eq_zero hlength.symm
    exact ⟨rfl, h⟩
  | cons f fs ih =>
    cases gs with
    | nil => cases hlength
    | cons g gs =>
      obtain ⟨hf, hfs⟩ := List.forall_mem_cons.mp hf
      obtain ⟨hg, hgs⟩ := List.forall_mem_cons.mp hg
      rw [List.flatMap_cons, List.flatMap_cons, List.append_assoc, List.append_assoc] at h
      obtain ⟨rfl, hmore⟩ := fragmentBytes_append_inj hf hg h
      obtain ⟨rfl, hrest⟩ := ih hfs hgs (Nat.succ.inj hlength) hmore
      exact ⟨rfl, hrest⟩

theorem toUInt8_inj : ∀ {b c : Bool}, b.toUInt8 = c.toUInt8 → b = c := by
  decide

/-- **No two sources are spelled alike.** -/
theorem keyBytes_inj {s s' : Source} (hs : s.Sized) (hs' : s'.Sized)
    (h : s.keyBytes = s'.keyBytes) : s = s' := by
  rw [keyBytes, keyBytes, List.append_assoc, List.append_assoc] at h
  obtain ⟨hcount, h⟩ := List.append_inj h (by rw [length_bytesLowFirst, length_bytesLowFirst])
  have hlength := bytesLowFirst_inj hs.fragments hs'.fragments hcount
  obtain ⟨hfragments, h⟩ := fragmentsBytes_append_inj hs.bytes hs'.bytes hlength h
  obtain ⟨hsvg, hinvariant⟩ := List.cons.inj h
  obtain ⟨fragments, svg, invariant⟩ := s
  obtain ⟨fragments', svg', invariant'⟩ := s'
  obtain rfl : fragments = fragments' := hfragments
  obtain rfl : svg = svg' := toUInt8_inj hsvg
  obtain rfl : invariant = invariant' := List.map_injective_iff.mpr (fun _ _ => toUInt8_inj) hinvariant
  rfl

end Source

/-! ## Notation -/

namespace Digest

theorem hexDigit_inj {m n : Nat} (hm : m < 16) (hn : n < 16)
    (h : Text.hexDigit m = Text.hexDigit n) : m = n := by
  have hsame : some m = some n := by
    rw [← Text.hexDigit?_hexDigit m hm, ← Text.hexDigit?_hexDigit n hn, h]
  exact Option.some.inj hsame

theorem hex_inj {a b : List UInt8} (h : hex a = hex b) : a = b := by
  have hlist := congrArg String.toList h
  rw [hex, hex, String.toList_ofList, String.toList_ofList] at hlist
  clear h
  induction a generalizing b with
  | nil =>
    cases b with
    | nil => rfl
    | cons y b => cases hlist
  | cons x a ih =>
    cases b with
    | nil => cases hlist
    | cons y b =>
      rw [List.flatMap_cons, List.flatMap_cons, List.cons_append, List.cons_append,
        List.cons_append, List.cons_append] at hlist
      obtain ⟨hhigh, hlist⟩ := List.cons.inj hlist
      obtain ⟨hlow, hrest⟩ := List.cons.inj hlist
      have hx := x.toNat_lt
      have hy := y.toNat_lt
      have hdiv := hexDigit_inj (by omega) (by omega) hhigh
      have hmod := hexDigit_inj (by omega) (by omega) hlow
      have hxy : x = y := UInt8.toNat_inj.mp (by omega)
      rw [hxy, ih hrest]

end Digest

/-! ## Keys -/

namespace Source

/--
The sources that a cache works with: their counts fit, and the digest does not give the same
answer for two of them.
-/
structure Distinguished (used : Source → Prop) : Prop where
  sized : ∀ s, used s → s.Sized
  apart : ∀ s s', used s → used s' →
    Digest.sha256 s.keyBytes = Digest.sha256 s'.keyBytes → s.keyBytes = s'.keyBytes

/-- **Where the digest does not collide, a key has one source.** -/
theorem Distinguished.hash_inj {used : Source → Prop} (h : Distinguished used) {s s' : Source}
    (hs : used s) (hs' : used s') (hhash : s.hash = s'.hash) : s = s' :=
  keyBytes_inj (h.sized s hs) (h.sized s' hs') (h.apart s s' hs hs' (Digest.hex_inj hhash))

/--
**Whatever differs in two sources differs in the bytes that are digested**, also if fragments
imitate the counts and flags around them. So a key that two sources share is a collision of the
digest.
-/
theorem keyBytes_unambiguous {s s' : Source} (hs : s.Sized) (hs' : s'.Sized) :
    (s.keyBytes = s'.keyBytes ↔
      s.fragments = s'.fragments ∧ s.svg = s'.svg ∧ s.invariant = s'.invariant)
    ∧ (s ≠ s' → s.hash = s'.hash →
      s.keyBytes ≠ s'.keyBytes ∧ Digest.sha256 s.keyBytes = Digest.sha256 s'.keyBytes) := by
  constructor
  · constructor
    · intro h
      rw [keyBytes_inj hs hs' h]
      exact ⟨rfl, rfl, rfl⟩
    · rintro ⟨hfragments, hsvg, hinvariant⟩
      rw [keyBytes, keyBytes, hfragments, hsvg, hinvariant]
  · intro hne hhash
    exact ⟨fun h => hne (keyBytes_inj hs hs' h), Digest.hex_inj hhash⟩

/-- A fragment that holds the size of the fragment after it, and an answer of the oracle in the
place of the flag. -/
theorem keyBytes_unambiguous_imitated :
    (Source.mk ["a\x01\x00\x00\x00\x00\x00\x00\x00b"] false []).keyBytes ≠
        (Source.mk ["a", "b"] false []).keyBytes
      ∧ (Source.mk ["a"] true []).keyBytes ≠ (Source.mk ["a"] false [true]).keyBytes := by
  have hlong : (Source.mk ["a\x01\x00\x00\x00\x00\x00\x00\x00b"] false []).Sized :=
    ⟨by decide, by decide⟩
  have hshort : (Source.mk ["a", "b"] false []).Sized := ⟨by decide, by decide⟩
  have hsvg : (Source.mk ["a"] true []).Sized := ⟨by decide, by decide⟩
  have hasked : (Source.mk ["a"] false [true]).Sized := ⟨by decide, by decide⟩
  constructor
  · intro h
    exact absurd ((keyBytes_unambiguous hlong hshort).1.mp h).1 (by decide)
  · intro h
    exact absurd ((keyBytes_unambiguous hsvg hasked).1.mp h).2.1 (by decide)

end Source

end Stencil
