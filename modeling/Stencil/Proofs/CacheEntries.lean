import Stencil.Proofs.CacheKey
import Stencil.Proofs.JsonFront
import Stencil.Proofs.OnePass
import Stencil.Proofs.Storage

/-!
# Entries, whole and torn

An entry is read back as it was written, whatever is in it. While it is written, its file may
be seen too early: the bytes behind some point are missing. And if two write the same entry,
one may empty the file under the other, whose next bytes then stand behind zeros. A file that
has come about like this is *torn*: each of its bytes is that of the entry, or zero.

A torn file is no entry other than the one it is torn from. With a zero in it, it is not JSON
at all; otherwise it is the beginning of the entry, and the text of an object has no
beginning that is one.

A store *holds* an artifact for a source if the source's file is an entry with the source's
key and that artifact. A store is *sound* if it holds nothing for a source but what
compiling the source gives. What workers do to a store is a *change* that leaves every
source's file as it was, or torn from the source's own entry, or gone. So no change makes a
sound store unsound, at any moment.
-/

namespace Stencil

/-! ## The store -/

namespace Store

theorem lookup_without (name other : String) (items : List (String × Item)) :
    (without name items).lookup other = if other = name then none else items.lookup other := by
  induction items with
  | nil => split <;> rfl
  | cons entry items ih =>
    obtain ⟨key, item⟩ := entry
    by_cases hkey : key = name
    · subst hkey
      rw [without, List.filter_cons_of_neg (by simp), ← without, ih]
      split
      · rfl
      · next hne => rw [List.lookup_cons, beq_false_of_ne hne]
    · rw [without, List.filter_cons_of_pos (by simpa using hkey), ← without, List.lookup_cons,
        List.lookup_cons, ih]
      by_cases hother : other = key
      · subst hother
        rw [beq_self_eq_true]
        exact (if_neg hkey).symm
      · rw [beq_false_of_ne hother]

/-- Deleting a file leaves nothing that was not there. -/
theorem get?_of_deleteFile {store : Store} {name other : String} {item : Item}
    (h : (store.deleteFile name).get? other = some item) : store.get? other = some item := by
  cases store with
  | folder items =>
    rw [deleteFile] at h
    split at h
    · rw [get?, lookup_without] at h
      split at h
      · cases h
      · exact h
    · exact h
  | unreachable => exact h
  | absent => exact h
  | blocked => exact h

/-- A file that was written is there, and all other names are as they were. -/
theorem get?_of_write? {store store' : Store} {name : String} {bytes : ByteArray}
    (h : store.write? name bytes = some store') (other : String) :
    store'.get? other = if other = name then some (.file bytes) else store.get? other := by
  cases store with
  | folder items =>
    have hstore : store' = folder ((name, .file bytes) :: without name items) := by
      rw [write?] at h
      split at h
      · cases h
      · exact (Option.some.inj h).symm
    subst hstore
    rw [get?, List.lookup_cons, lookup_without]
    by_cases hother : other = name
    · subst hother
      rw [beq_self_eq_true]
      exact (if_pos rfl).symm
    · rw [beq_false_of_ne hother, if_neg hother, if_neg hother]
      rfl
  | unreachable => cases h
  | absent => cases h
  | blocked => cases h

theorem get?_patch_self {store : Store} {name : String} {old : ByteArray}
    (h : store.get? name = some (.file old)) (offset : Nat) (new : List UInt8) :
    (store.patch name offset new).get? name =
      some (.file ⟨(overwrite old.data.toList offset new).toArray⟩) := by
  cases store with
  | folder items =>
    have hlookup : items.lookup name = some (.file old) := h
    simp only [patch, hlookup, get?, List.lookup_cons, beq_self_eq_true]
  | unreachable => cases h
  | absent => cases h
  | blocked => cases h

/-- Only a file that is there can be written into. -/
theorem get?_of_patch {store : Store} {name other : String} {offset : Nat} {new : List UInt8}
    {bytes : ByteArray} (h : (store.patch name offset new).get? other = some (.file bytes)) :
    store.get? other = some (.file bytes)
      ∨ other = name ∧ ∃ old : ByteArray, store.get? name = some (.file old)
        ∧ bytes.data.toList = overwrite old.data.toList offset new := by
  cases store with
  | folder items =>
    rw [patch] at h
    split at h
    · rename_i old hold
      rw [get?, List.lookup_cons, lookup_without] at h
      by_cases hother : other = name
      · subst hother
        rw [beq_self_eq_true] at h
        obtain rfl := Item.file.inj (Option.some.inj h)
        exact .inr ⟨rfl, old, hold, rfl⟩
      · rw [beq_false_of_ne hother, if_neg hother] at h
        exact .inl h
    · exact .inl h
  | unreachable => exact .inl h
  | absent => exact .inl h
  | blocked => exact .inl h

end Store

/-! ## Texts as bytes -/

theorem fromUTF8?_toUTF8 (s : String) : String.fromUTF8? s.toUTF8 = some s := by
  have hvalid : s.toUTF8.IsValidUTF8 := s.isValidUTF8
  rw [String.fromUTF8?, dif_pos hvalid]
  rfl

theorem toUTF8_of_fromUTF8? {bytes : ByteArray} {text : String}
    (h : String.fromUTF8? bytes = some text) : text.toUTF8 = bytes := by
  unfold String.fromUTF8? at h
  split at h
  · obtain rfl := Option.some.inj h
    rfl
  · cases h

theorem toList_toUTF8 (text : String) :
    text.toUTF8.data.toList = text.toList.flatMap String.utf8EncodeChar := by
  rw [String.toUTF8_eq_toByteArray, ← String.utf8Encode_toList, List.utf8Encode]
  simp

/-- Only NUL has a zero among its bytes. -/
theorem eq_nul_of_mem_utf8EncodeChar {c : Char} (h : 0 ∈ String.utf8EncodeChar c) :
    c = '\x00' := by
  have hzero : ∀ n : Nat, n < 256 → (0 : UInt8) = UInt8.ofNat n → n = 0 := by
    intro n hn h
    have hnat := congrArg UInt8.toNat h
    rw [UInt8.toNat_ofNat'] at hnat
    simp only [UInt8.toNat_zero] at hnat
    omega
  unfold String.utf8EncodeChar at h
  dsimp only at h
  split at h
  · have hval := hzero _ (by omega) (List.mem_singleton.mp h)
    exact Char.ext (UInt32.toNat_inj.mp hval)
  · -- all bytes of a longer encoding have their highest bit set
    exfalso
    split at h
    · simp only [List.mem_cons, List.not_mem_nil, or_false] at h
      rcases h with h | h <;> have := hzero _ (by omega) h <;> omega
    · split at h
      · simp only [List.mem_cons, List.not_mem_nil, or_false] at h
        rcases h with h | h | h <;> have := hzero _ (by omega) h <;> omega
      · simp only [List.mem_cons, List.not_mem_nil, or_false] at h
        rcases h with h | h | h | h <;> have := hzero _ (by omega) h <;> omega

theorem prefix_of_utf8Encode {cs ds : List Char}
    (h : cs.flatMap String.utf8EncodeChar <+: ds.flatMap String.utf8EncodeChar) : cs <+: ds := by
  induction cs generalizing ds with
  | nil => exact List.nil_prefix
  | cons c cs ih =>
    obtain ⟨rest, hrest⟩ := h
    rw [List.flatMap_cons, List.append_assoc] at hrest
    cases ds with
    | nil =>
      have hnil := (List.append_eq_nil_iff.mp hrest).1
      exact absurd hnil String.utf8EncodeChar_ne_nil
    | cons d ds =>
      rw [List.flatMap_cons] at hrest
      -- the first character is decoded from the bytes on either side
      have hdecode := congrArg (fun bytes => bytes.toByteArray.utf8DecodeChar? 0) hrest
      simp only [List.toByteArray_append, ByteArray.utf8DecodeChar?_utf8EncodeChar_append,
        Option.some.injEq] at hdecode
      subst hdecode
      exact List.cons_prefix_cons.mpr ⟨rfl, ih ⟨rest, List.append_cancel_left hrest⟩⟩

/-! ## Entries are read back -/

namespace CacheEntry

theorem members?_ofFields {names : List String} {fields : List (String × Json)}
    (h : Json.unrepeated names fields.reverse = true) :
    members? names (.ofFields fields) = some fields.reverse := by
  have hrecord : (Json.ofFields fields).record? names = some fields.reverse :=
    Json.fields?_ofFields fields
  rw [members?, hrecord, Option.filter_some, if_pos h]

theorem readsBack_toJson (e : CacheEntry) : e.toJson.ReadsBack := by
  refine Json.readsBack_ofFields ?_
  simp only [List.forall_mem_cons, List.not_mem_nil, false_imp_iff, implies_true, and_true]
  exact ⟨Json.readsBack_ofString _, e.artifact.readsBack_toJson⟩

/-- **An entry is read back as it was written.** -/
theorem parse?_render {e : CacheEntry} (h : e.artifact.Storable) : parse? e.render = some e := by
  have hentry : members? ["hash", "artifact"] e.toJson =
      some [("artifact", e.artifact.toJson), ("hash", .ofString e.hash)] :=
    members?_ofFields rfl
  have hinner : ∃ fields, members? Artifact.memberNames e.artifact.toJson = some fields :=
    ⟨_, members?_ofFields rfl⟩
  obtain ⟨fields, hinner⟩ := hinner
  have hhash : List.lookup "hash" [("artifact", e.artifact.toJson), ("hash", .ofString e.hash)] =
      some (.ofString e.hash) := by
    rw [List.lookup_cons, beq_false_of_ne (by decide), List.lookup_cons, beq_self_eq_true]
  have hartifact : List.lookup "artifact"
      [("artifact", e.artifact.toJson), ("hash", .ofString e.hash)] = some e.artifact.toJson := by
    rw [List.lookup_cons, beq_self_eq_true]
  simp only [parse?, render, e.readsBack_toJson.parse?_render, hentry, hhash, hartifact, hinner,
    Option.bind_eq_bind, Option.bind_some, Json.string?_ofString, Artifact.read_toJson h]
  rfl

end CacheEntry

/-! ## Torn entries -/

namespace Cache

/-- Bytes that stand from `offset` on. Each is that of the entry in its place, or zero. -/
def Torn (entry : List UInt8) (offset : Nat) (bytes : List UInt8) : Prop :=
  ∀ (i : Nat) (b : UInt8), bytes[i]? = some b → b = 0 ∨ entry[offset + i]? = some b

namespace Torn

variable {entry bytes more : List UInt8} {offset : Nat}

theorem nil (entry : List UInt8) (offset : Nat) : Torn entry offset [] := by
  intro i b h
  simp at h

theorem append (h : Torn entry offset bytes) (hmore : Torn entry (offset + bytes.length) more) :
    Torn entry offset (bytes ++ more) := by
  intro i b hb
  rw [List.getElem?_append] at hb
  split at hb
  · exact h i b hb
  · rename_i hi
    have hplace : offset + bytes.length + (i - bytes.length) = offset + i := by omega
    rw [← hplace]
    exact hmore _ b hb

theorem take (h : Torn entry offset bytes) (count : Nat) :
    Torn entry offset (bytes.take count) := by
  intro i b hb
  rw [List.getElem?_take] at hb
  split at hb
  · exact h i b hb
  · cases hb

theorem drop (h : Torn entry offset bytes) (count : Nat) :
    Torn entry (offset + count) (bytes.drop count) := by
  intro i b hb
  rw [List.getElem?_drop] at hb
  rw [Nat.add_assoc]
  exact h _ b hb

theorem zeros (entry : List UInt8) (offset count : Nat) :
    Torn entry offset (List.replicate count 0) := by
  intro i b hb
  left
  exact List.eq_of_mem_replicate (List.mem_of_getElem? hb)

/-- The whole of an entry, or all that is behind some point. -/
theorem whole (entry : List UInt8) (offset : Nat) : Torn entry offset (entry.drop offset) := by
  intro i b hb
  right
  rwa [List.getElem?_drop] at hb

/-- Writing bytes of the entry where they belong keeps a file torn. -/
theorem overwrite (h : Torn entry 0 bytes) (hnew : Torn entry offset more) :
    Torn entry 0 (Store.overwrite bytes offset more) := by
  have hfront :
      (bytes.take offset ++ List.replicate (offset - bytes.length) 0).length = offset := by
    simp
    omega
  refine (((h.take offset).append (zeros _ _ _)).append ?_).append ?_
  · rw [hfront, Nat.zero_add]
    exact hnew
  · rw [List.length_append, hfront, Nat.zero_add]
    have hrest := h.drop (offset + more.length)
    rwa [Nat.zero_add] at hrest

theorem prefix_of_no_zero (h : Torn entry 0 bytes) (hzero : 0 ∉ bytes) : bytes <+: entry := by
  rw [List.prefix_iff_getElem?]
  intro i hi
  have hbyte := h i bytes[i] (List.getElem?_eq_getElem hi)
  rw [Nat.zero_add] at hbyte
  exact hbyte.resolve_left fun hb => hzero (hb ▸ List.getElem_mem hi)

end Torn

/-- **A torn file is no entry other than the one it is torn from.** -/
theorem entry_of_torn {hash : String} {artifact : Artifact} (hstorable : artifact.Storable)
    {bytes : ByteArray} (htorn : Torn (entryBytes hash artifact) 0 bytes.data.toList)
    {text : String} (htext : String.fromUTF8? bytes = some text) {e : CacheEntry}
    (he : CacheEntry.parse? text = some e) : e = ⟨hash, artifact⟩ := by
  have hrender := CacheEntry.parse?_render (e := ⟨hash, artifact⟩) hstorable
  obtain ⟨j, hj, hentry⟩ := Option.bind_eq_some_iff.mp he
  obtain ⟨k, hk, hwhole⟩ := Option.bind_eq_some_iff.mp hrender
  rw [← toUTF8_of_fromUTF8? htext, toList_toUTF8] at htorn
  -- bytes not yet written are zero, and no zero is in what can be parsed: there are none
  have hzero : 0 ∉ text.toList.flatMap String.utf8EncodeChar := by
    intro hmem
    obtain ⟨c, hc, hbyte⟩ := List.mem_flatMap.mp hmem
    rw [eq_nul_of_mem_utf8EncodeChar hbyte] at hc
    exact Json.nul_not_mem_of_parse? hj hc
  have hstart := htorn.prefix_of_no_zero hzero
  rw [entryBytes, toList_toUTF8] at hstart
  -- so the file is the beginning of the entry, and an object has no end before its last brace
  have hbrace : (CacheEntry.render ⟨hash, artifact⟩).toList.head? = some '{' := by
    rw [CacheEntry.render, Json.render, String.toList_ofList]
    rfl
  obtain rfl := Json.parse?_unique_of_prefix hbrace (prefix_of_utf8Encode hstart) hj hk
  exact Option.some.inj (hentry.symm.trans hwhole)

end Cache

/-! ## What a store holds -/

namespace Source

/-- **A compiler that was used before is as good as a new one.** -/
theorem compileWith_eq (s : Source) (c : Compiler) : s.compileWith c = (s.compile, {}) := by
  rw [compile, compileWith, compileWith, Compiler.compile_eq, Compiler.compile_eq]

theorem Distinguished.storable {used : Source → Prop} (hused : Distinguished used) {s : Source}
    (hs : used s) {a : Artifact} (h : s.compile.result = .ok a) : a.Storable := by
  rw [compile, compileWith, Compiler.compile_eq] at h
  exact storable_of_compile (Nat.le_of_lt (hused.sized s hs).fragments) h

end Source

namespace Cache

/-- The file of a source is an entry with its key and this artifact. -/
def Holds (store : Store) (source : Source) (artifact : Artifact) : Prop :=
  ∃ text, store.text? (fileName source.hash) = some text
    ∧ CacheEntry.parse? text = some ⟨source.hash, artifact⟩

/-- For the sources in use, nothing is held but what compiling them gives. -/
def Sound (used : Source → Prop) (store : Store) : Prop :=
  ∀ source, used source → ∀ artifact, Holds store source artifact →
    source.compile.result = .ok artifact

theorem Sound.mono {used : Source → Prop} {store store' : Store} (h : Sound used store)
    (hholds : ∀ source, used source → ∀ artifact, Holds store' source artifact →
      Holds store source artifact) : Sound used store' :=
  fun source hused artifact hheld => h source hused artifact (hholds source hused artifact hheld)

/-- An artifact is found exactly if it is held. -/
theorem find_eq_found {store : Store} {source : Source} {artifact : Artifact} :
    find store source.hash = .found artifact ↔ Holds store source artifact := by
  unfold find Holds
  cases htext : store.text? (fileName source.hash) with
  | none => simp
  | some text =>
    cases hparse : CacheEntry.parse? text with
    | none => simp [hparse]
    | some entry =>
      obtain ⟨hash, kept⟩ := entry
      by_cases hhash : hash = source.hash
      · simp [hparse, hhash]
      · simp [hparse, hhash]

theorem exists_of_text? {store : Store} {name text : String} (h : store.text? name = some text) :
    ∃ bytes, store.get? name = some (.file bytes) ∧ String.fromUTF8? bytes = some text := by
  unfold Store.text? at h
  split at h
  · rename_i bytes hget
    exact ⟨bytes, hget, h⟩
  · cases h

theorem text?_of_get? {store : Store} {name : String} {bytes : ByteArray}
    (h : store.get? name = some (.file bytes)) : store.text? name = String.fromUTF8? bytes := by
  rw [Store.text?, h]

/-! ## Changes -/

theorem fileName_inj {hash hash' : String} (h : fileName hash = fileName hash') : hash = hash' := by
  have hlists := congrArg String.toList h
  rw [fileName, fileName, String.toList_append, String.toList_append] at hlists
  exact String.toList_inj.mp (List.append_cancel_right hlists)

/-- The file of a source is not there, or torn from its entry. -/
def InProgress (store : Store) (source : Source) (artifact : Artifact) : Prop :=
  ∀ bytes, store.get? (fileName source.hash) = some (.file bytes) →
    Torn (entryBytes source.hash artifact) 0 bytes.data.toList

/-- A step on the disk: the file of any source is as it was, or gone, or torn from its entry. -/
def Change (used : Source → Prop) (store store' : Store) : Prop :=
  ∀ source, used source → ∀ bytes, store'.get? (fileName source.hash) = some (.file bytes) →
    store.get? (fileName source.hash) = some (.file bytes)
      ∨ ∃ artifact, source.compile.result = .ok artifact
        ∧ Torn (entryBytes source.hash artifact) 0 bytes.data.toList

theorem Change.refl (used : Source → Prop) (store : Store) : Change used store store :=
  fun _ _ _ h => .inl h

theorem change_deleteFile (used : Source → Prop) (store : Store) (name : String) :
    Change used store (store.deleteFile name) :=
  fun _ _ _ h => .inl (Store.get?_of_deleteFile h)

/-- **Changes keep what is being written in progress.** -/
theorem InProgress.change {used : Source → Prop} {store store' : Store} {source : Source}
    {artifact : Artifact} (h : InProgress store source artifact) (hsource : used source)
    (hartifact : source.compile.result = .ok artifact) (hchange : Change used store store') :
    InProgress store' source artifact := by
  intro bytes hbytes
  rcases hchange source hsource bytes hbytes with hold | ⟨a, ha, htorn⟩
  · exact h bytes hold
  · obtain rfl := Except.ok.inj (hartifact.symm.trans ha)
    exact htorn

section

variable {used : Source → Prop} (hused : Source.Distinguished used)

include hused

/-- **Changes keep a store sound.** -/
theorem Sound.change {store store' : Store} (h : Sound used store)
    (hchange : Change used store store') : Sound used store' := by
  intro source hsource artifact hheld
  obtain ⟨text, htext, hentry⟩ := hheld
  obtain ⟨bytes, hget, hbytes⟩ := exists_of_text? htext
  rcases hchange source hsource bytes hget with hold | ⟨a, ha, htorn⟩
  · exact h source hsource artifact ⟨text, (text?_of_get? hold).trans hbytes, hentry⟩
  · have heq := entry_of_torn (hused.storable hsource ha) htorn hbytes hentry
    rw [(CacheEntry.mk.inj heq).2]
    exact ha

/-- Making an empty file is a change, and begins what is in progress. -/
theorem change_begin? {store store' : Store} {source : Source} (hsource : used source)
    {artifact : Artifact} (hartifact : source.compile.result = .ok artifact)
    (h : begin? store source.hash = some store') :
    Change used store store' ∧ InProgress store' source artifact := by
  have hget := Store.get?_of_write? h
  refine ⟨fun other hother bytes hbytes => ?_, fun bytes hbytes => ?_⟩
  · rw [hget] at hbytes
    split at hbytes
    · rename_i hname
      obtain rfl := hused.hash_inj hother hsource (fileName_inj hname)
      obtain rfl := Item.file.inj (Option.some.inj hbytes)
      exact .inr ⟨artifact, hartifact, .nil _ _⟩
    · exact .inl hbytes
  · rw [hget, if_pos rfl] at hbytes
    obtain rfl := Item.file.inj (Option.some.inj hbytes)
    exact .nil _ _

/-- Writing bytes of an entry into a file that is in progress is a change. -/
theorem change_patch {store : Store} {source : Source} (hsource : used source)
    {artifact : Artifact} (hartifact : source.compile.result = .ok artifact)
    (hprogress : InProgress store source artifact) {offset : Nat} {new : List UInt8}
    (hnew : Torn (entryBytes source.hash artifact) offset new) :
    Change used store (store.patch (fileName source.hash) offset new) := by
  intro other hother bytes hbytes
  rcases Store.get?_of_patch hbytes with hold | ⟨hname, old, hold, hwritten⟩
  · exact .inl hold
  · obtain rfl := hused.hash_inj hother hsource (fileName_inj hname)
    refine .inr ⟨artifact, hartifact, ?_⟩
    rw [hwritten]
    exact (hprogress old hold).overwrite hnew

/-- Keeping what compiling a source gave leaves a sound store sound. -/
theorem Sound.set {store : Store} (h : Sound used store) {source : Source} (hsource : used source)
    {artifact : Artifact} (hartifact : source.compile.result = .ok artifact) :
    Sound used (set store source artifact).store := by
  unfold Cache.set insert
  split
  · rename_i begun hbegun
    obtain ⟨hchange, hprogress⟩ := change_begin? hused hsource hartifact hbegun
    exact (h.change hused hchange).change hused
      (change_patch hused hsource hartifact hprogress (.whole _ 0))
  · exact h

end

/-- What was kept is held, if its file could be made. -/
theorem holds_set {store begun : Store} {source : Source} {artifact : Artifact}
    (hstorable : artifact.Storable) (h : begin? store source.hash = some begun) :
    Holds (set store source artifact).store source artifact := by
  have hempty : begun.get? (fileName source.hash) = some (.file ByteArray.empty) := by
    rw [Store.get?_of_write? h, if_pos rfl]
  have hbytes : (⟨(Store.overwrite ByteArray.empty.data.toList 0
      (entryBytes source.hash artifact)).toArray⟩ : ByteArray) =
      (CacheEntry.render ⟨source.hash, artifact⟩).toUTF8 := by
    simp [Store.overwrite, entryBytes]
  refine ⟨_, ?_, CacheEntry.parse?_render hstorable⟩
  rw [set, insert, h]
  dsimp only
  rw [text?_of_get? (Store.get?_patch_self hempty ..), hbytes, fromUTF8?_toUTF8]

/-- Making the folder adds no entry. -/
theorem holds_of_ready {store : Store} {source : Source} {artifact : Artifact}
    (h : Holds (ready store).store source artifact) : Holds store source artifact := by
  cases store with
  | absent =>
    -- only here a folder is made, and it is empty
    obtain ⟨text, htext, _⟩ := h
    cases htext
  | folder items => exact h
  | unreachable => exact h
  | blocked => exact h

end Cache
end Stencil
