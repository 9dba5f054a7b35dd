import Pyrite.Nbt.RoundTrip

set_option autoImplicit false

/-! # Documents

The guarantees of the NBT crate as a whole, over every value its public API can produce:

* at every nesting level the representation invariant holds (`obtainable_invariant`);
* writing and then reading a document returns it, exactly up to the node budget
  (`write_then_read`);
* reading and then writing a document reproduces the bytes it was read from (`read_then_write`);
* the node budget is the one limit of the reader that the writer does not enforce
  (`read_of_write_iff_nodes`). -/

namespace Pyrite.Nbt

open Wire

/-! ## Obtainable values -/

/-- A value of one of the crate's three public types. -/
inductive Value where
  | tag (value : NbtTag)
  | compound (value : NbtCompound)
  | list (value : NbtList)

/-- The values that some finite combination of public operations produces: the conversions into
    `NbtTag`, the constructors, `insert`, the macros (`list!` expands to `NbtList::new`), a successful
    read of arbitrary bytes on either kind of target, and access to what a value holds. -/
inductive Obtainable : Value → Prop where
  | fromLeaf {tag : NbtTag} (hlist : tag.id ≠ .list) (hcompound : tag.id ≠ .compound) :
      Obtainable (.tag tag)
  | fromList {l : NbtList} (hl : Obtainable (.list l)) : Obtainable (.tag (.list l))
  | fromCompound {c : NbtCompound} (hc : Obtainable (.compound c)) : Obtainable (.tag (.compound c))
  | new : Obtainable (.compound .new)
  | insert {c : NbtCompound} {value : NbtTag} (hc : Obtainable (.compound c)) (name : String)
      (hvalue : Obtainable (.tag value)) : Obtainable (.compound (c.insert name value))
  | ofPairs {pairs : List (String × NbtTag)} (h : ∀ pair ∈ pairs, Obtainable (.tag pair.2)) :
      Obtainable (.compound (.ofPairs pairs))
  | empty : Obtainable (.list .empty)
  | newList {items : List NbtTag} {l : NbtList} (h : ∀ item ∈ items, Obtainable (.tag item))
      (hnew : NbtList.new items = .ok l) : Obtainable (.list l)
  | readNetworkRoot {t : Target} {src rest : Bytes} {c : NbtCompound}
      (h : readNetworkRoot t src = .ok c rest) : Obtainable (.compound c)
  | readNamedRoot {t : Target} {src rest : Bytes} {name : String} {c : NbtCompound}
      (h : readNamedRoot t src = .ok (name, c) rest) : Obtainable (.compound c)
  | readOptionalNetworkRoot {t : Target} {src rest : Bytes} {c : NbtCompound}
      (h : readOptionalNetworkRoot t src = .ok (some c) rest) : Obtainable (.compound c)
  | iter {c : NbtCompound} {name : String} {value : NbtTag} (hc : Obtainable (.compound c))
      (hmem : (name, value) ∈ c.iter) : Obtainable (.tag value)
  | items {l : NbtList} {item : NbtTag} (hl : Obtainable (.list l)) (hmem : item ∈ l.items) :
      Obtainable (.tag item)
  | intoList {l : NbtList} (h : Obtainable (.tag (.list l))) : Obtainable (.list l)
  | intoCompound {c : NbtCompound} (h : Obtainable (.tag (.compound c))) : Obtainable (.compound c)

/-- Well-formedness of a value of either type. -/
def Value.Wf : Value → Prop
  | .tag value => value.Wf
  | .compound value => value.Wf
  | .list value => value.Wf

/-- Only well-formed values can be obtained. The reads rest on the decoder's specification, everything
    else on the checks of the public constructors. -/
theorem Obtainable.wf {value : Value} (h : Obtainable value) : value.Wf := by
  induction h with
  | @fromLeaf tag hlist hcompound =>
      cases tag with
      | list l => exact absurd rfl hlist
      | compound c => exact absurd rfl hcompound
      | _ => trivial
  | fromList _ ih => exact ih
  | fromCompound _ ih => exact ih
  | new => exact NbtCompound.new_wf
  | insert _ name _ ihc ihvalue => exact NbtCompound.Wf.insert ihc name ihvalue
  | ofPairs _ ih => exact NbtCompound.ofPairs_wf ih
  | empty => exact NbtList.empty_wf
  | newList _ hnew ih => exact NbtList.new_wf hnew ih
  | @readNetworkRoot t src rest c h =>
      obtain ⟨_, _, hroot⟩ := (readNetworkRoot_spec t src).of_ok h
      exact hroot.wf
  | @readNamedRoot t src rest name c h =>
      obtain ⟨_, _, _, _, hroot⟩ := (readNamedRoot_spec t src).of_ok h
      exact hroot.wf
  | @readOptionalNetworkRoot t src rest c h =>
      obtain ⟨_, _, hroot⟩ := (readOptionalNetworkRoot_spec t src).of_ok h c rfl
      exact hroot.wf
  | iter _ hmem ih => exact (NbtCompound.wf_iff.mp ih).2 _ hmem
  | items _ hmem ih => exact (NbtList.wf_iff.mp ih).2 _ hmem
  | intoList _ ih => exact ih
  | intoCompound _ ih => exact ih

/-! ## The representation invariant -/

/-- `sub` occurs in `tag`, at any nesting level. -/
inductive Within (sub : NbtTag) : NbtTag → Prop where
  | self : Within sub sub
  | inside {tag child : NbtTag} (hchild : child ∈ tag.children) (h : Within sub child) : Within sub tag

theorem Within.wf {sub tag : NbtTag} (h : Within sub tag) (hwf : tag.Wf) : sub.Wf := by
  induction h with
  | self => exact hwf
  | inside hchild _ ih => exact ih (hwf.of_mem_children hchild)

/-- A value seen as a tag. -/
def Value.asTag : Value → NbtTag
  | .tag value => value
  | .compound value => .compound value
  | .list value => .list value

theorem Value.asTag_wf {value : Value} : value.asTag.Wf ↔ value.Wf := by
  cases value with
  | tag tag => exact Iff.rfl
  | compound c =>
      obtain ⟨entries⟩ := c
      exact Iff.rfl
  | list l =>
      obtain ⟨elementType, items⟩ := l
      exact Iff.rfl

/-- **Representation invariant.** In every obtainable value, at every nesting level: the names of a
    compound are pairwise distinct, so `get` finds exactly what iteration yields; the items of a list
    have its element type, which is `End` only for an empty list. -/
theorem obtainable_invariant (value : Value) (h : Obtainable value) :
    (∀ c, Within (.compound c) value.asTag →
      c.names.Nodup ∧ ∀ name v, (name, v) ∈ c.iter → c.get name = some v) ∧
    (∀ l, Within (.list l) value.asTag →
      (∀ item ∈ l.items, item.id = l.elementType) ∧ (l.elementType = .endTag → l.items = [])) := by
  have hwf : value.asTag.Wf := Value.asTag_wf.mpr h.wf
  constructor
  · intro c hc
    have hnodup := (NbtCompound.wf_iff.mp (hc.wf hwf)).1
    exact ⟨hnodup, fun name v hmem => NbtCompound.get_of_mem hnodup hmem⟩
  · intro l hl
    have hlwf := hl.wf hwf
    exact ⟨(NbtList.wf_iff.mp hlwf).1, NbtList.Wf.items_eq_nil hlwf⟩

/-- A document with a list and a nested compound. -/
def sample : NbtCompound :=
  .ofPairs [("a", .list ⟨.int, [.int 1, .int 2]⟩), ("b", .compound (.ofPairs [("c", .string "d")]))]

theorem sample_obtainable : Obtainable (.compound sample) := by
  refine .ofPairs fun pair hpair => ?_
  simp only [List.mem_cons, List.not_mem_nil, or_false] at hpair
  rcases hpair with rfl | rfl
  · refine .fromList (@Obtainable.newList [.int 1, .int 2] _ (fun item hitem => ?_) rfl)
    simp only [List.mem_cons, List.not_mem_nil, or_false] at hitem
    rcases hitem with rfl | rfl
    · exact .fromLeaf (by decide) (by decide)
    · exact .fromLeaf (by decide) (by decide)
  · refine .fromCompound (.ofPairs fun pair hpair => ?_)
    rw [List.mem_singleton.mp hpair]
    exact .fromLeaf (by decide) (by decide)

theorem sample_invariant :
    (∀ c, Within (.compound c) (.compound sample) →
      c.names.Nodup ∧ ∀ name v, (name, v) ∈ c.iter → c.get name = some v) ∧
    (∀ l, Within (.list l) (.compound sample) →
      (∀ item ∈ l.items, item.id = l.elementType) ∧ (l.elementType = .endTag → l.items = [])) :=
  obtainable_invariant (.compound sample) sample_obtainable

/-! ## Writing, then reading -/

/-- **Round trip of documents.** What either root writer produces reads back as the document it was
    written from, with everything after it left unread, unless the document exceeds the node budget, in
    which case the read says so. The buffer has to fit the address space of the target. -/
theorem write_then_read (t : Target) (d : NbtCompound) (h : Obtainable (.compound d)) (name : String)
    (rest : Bytes) :
    (∀ p, (writeNetworkRoot d).Writes p () → (p ++ rest).length ≤ t.usizeMax →
      RootReads (readNetworkRoot t (p ++ rest)) d d rest) ∧
    (∀ p, (writeNamedRoot name d).Writes p () → (p ++ rest).length ≤ t.usizeMax →
      RootReads (readNamedRoot t (p ++ rest)) d (name, d) rest) := by
  constructor
  · intro p hp hfits
    exact readNetworkRoot_append h.wf hp (by rwa [List.length_append] at hfits)
  · intro p hp hfits
    exact readNamedRoot_append h.wf hp (by rwa [List.length_append] at hfits)

/-- The bytes of `sample` in the network form. -/
def sampleBytes : Bytes :=
  [10, 9, 0, 1, 97, 3, 0, 0, 0, 2, 0, 0, 0, 1, 0, 0, 0, 2, 10, 0, 1, 98, 8, 0, 1, 99, 0, 1, 100, 0, 0]

theorem writes_sample : (writeNetworkRoot sample).Writes sampleBytes () := ⟨by decide, rfl⟩

theorem write_then_read_sample :
    readNetworkRoot .bits32 (sampleBytes ++ [255]) = .ok sample [255] ∧
    readNamedRoot .bits32 ([10, 0, 1, 120] ++ sampleBytes.tail ++ [255]) = .ok ("x", sample) [255] := by
  have h := write_then_read .bits32 sample sample_obtainable "x" [255]
  have hnodes : sample.nodes ≤ maxTotalNodes := by decide
  constructor
  · exact (h.1 sampleBytes writes_sample (by decide)).1 hnodes
  · exact (h.2 _ ⟨by decide, rfl⟩ (by decide)).1 hnodes

/-! ## Reading, then writing -/

/-- A network read returns a document exactly as its own network form starts the input. -/
theorem readNetworkRoot_bytes {t : Target} {b r : Bytes} {d : NbtCompound}
    (h : readNetworkRoot t b = .ok d r) : ∃ p, (writeNetworkRoot d).Writes p () ∧ p ++ r = b := by
  obtain ⟨body, rfl, hroot⟩ := (readNetworkRoot_spec t b).of_ok h
  obtain ⟨bs, hbs, rfl⟩ := hroot.bytes
  exact ⟨TagId.compound.toU8 :: bs, writes_networkRoot.mpr ⟨bs, hbs, rfl⟩, rfl⟩

theorem readNamedRoot_bytes {t : Target} {b r : Bytes} {name : String} {d : NbtCompound}
    (h : readNamedRoot t b = .ok (name, d) r) :
    ∃ p, (writeNamedRoot name d).Writes p () ∧ p ++ r = b := by
  obtain ⟨q, body, hq, rfl, hroot⟩ := (readNamedRoot_spec t b).of_ok h
  obtain ⟨bs, hbs, rfl⟩ := hroot.bytes
  refine ⟨TagId.compound.toU8 :: (q ++ bs), writes_namedRoot.mpr ⟨q, bs, hq, hbs, rfl⟩, ?_⟩
  simp

/-- **Canonical encoding.** Every accepted document can be written again, and doing so reproduces the
    bytes that were read. So no document has two accepted encodings. -/
theorem read_then_write (t : Target) :
    (∀ b d r, readNetworkRoot t b = .ok d r →
      ∃ p, (writeNetworkRoot d).Writes p () ∧ p ++ r = b) ∧
    (∀ b name d r, readNamedRoot t b = .ok (name, d) r →
      ∃ p, (writeNamedRoot name d).Writes p () ∧ p ++ r = b) ∧
    (∀ p p' d r r', readNetworkRoot t (p ++ r) = .ok d r → readNetworkRoot t (p' ++ r') = .ok d r' →
      p = p') ∧
    (∀ p p' name d r r', readNamedRoot t (p ++ r) = .ok (name, d) r →
      readNamedRoot t (p' ++ r') = .ok (name, d) r' → p = p') := by
  refine ⟨fun b d r h => readNetworkRoot_bytes h, fun b name d r h => readNamedRoot_bytes h, ?_, ?_⟩
  · intro p p' d r r' h h'
    obtain ⟨q, hq, heq⟩ := readNetworkRoot_bytes h
    obtain ⟨q', hq', heq'⟩ := readNetworkRoot_bytes h'
    rw [← List.append_cancel_right heq, ← List.append_cancel_right heq', ← hq.1, ← hq'.1]
  · intro p p' name d r r' h h'
    obtain ⟨q, hq, heq⟩ := readNamedRoot_bytes h
    obtain ⟨q', hq', heq'⟩ := readNamedRoot_bytes h'
    rw [← List.append_cancel_right heq, ← List.append_cancel_right heq', ← hq.1, ← hq'.1]

theorem readNetworkRoot_sample (t : Target) :
    readNetworkRoot t (sampleBytes ++ [255]) = .ok sample [255] := by
  have hfits : sampleBytes.length + [(255 : UInt8)].length ≤ t.usizeMax :=
    le_trans (by decide) t.le_usizeMax
  exact (readNetworkRoot_append sample_obtainable.wf writes_sample hfits).1 (by decide)

theorem read_then_write_sample :
    readNetworkRoot .bits64 (sampleBytes ++ [255]) = .ok sample [255] ∧
      ∃ p, (writeNetworkRoot sample).Writes p () ∧ p ++ [255] = sampleBytes ++ [255] :=
  have h := readNetworkRoot_sample .bits64
  ⟨h, (read_then_write .bits64).1 _ _ _ h⟩

/-! ## The node budget -/

/-- **The writer's limits against the reader's.** A written document is read back, except for the node
    budget: it bounds what a document may decode to, and only the reader enforces it. -/
theorem read_of_write_iff_nodes (t : Target) (d : NbtCompound) (h : Obtainable (.compound d)) (p : Bytes)
    (hp : (writeNetworkRoot d).Writes p ()) (hfits : p.length ≤ t.usizeMax) :
    ((∃ c rest, readNetworkRoot t p = .ok c rest) ↔ d.nodes ≤ maxTotalNodes) ∧
    (d.nodes ≤ maxTotalNodes → readNetworkRoot t p = .ok d []) ∧
    (maxTotalNodes < d.nodes → ∃ left, readNetworkRoot t p = .error (.tooManyNodes maxTotalNodes) left) := by
  have hreads : RootReads (readNetworkRoot t (p ++ [])) d d [] :=
    readNetworkRoot_append h.wf hp (by simpa using hfits)
  rw [List.append_nil] at hreads
  refine ⟨⟨?_, fun hle => ⟨d, [], hreads.1 hle⟩⟩, hreads.1, hreads.2⟩
  intro hparts
  obtain ⟨c, rest, hread⟩ := hparts
  by_contra hgt
  obtain ⟨left, hleft⟩ := hreads.2 (Nat.not_le.mp hgt)
  rw [hleft] at hread
  cases hread

theorem read_of_write_sample :
    (∃ c rest, readNetworkRoot .bits64 sampleBytes = .ok c rest) ↔ sample.nodes ≤ maxTotalNodes :=
  (read_of_write_iff_nodes .bits64 sample sample_obtainable sampleBytes writes_sample (by decide)).1

/-- A flat list of `n` bytes. -/
def byteList (n : Nat) : NbtList := ⟨.byte, List.replicate n (.byte 0)⟩

theorem byteList_obtainable (n : Nat) : Obtainable (.list (byteList (n + 1))) := by
  refine @Obtainable.newList (List.replicate (n + 1) (.byte 0)) _ (fun item hitem => ?_) ?_
  · rw [List.eq_of_mem_replicate hitem]
    exact .fromLeaf (by decide) (by decide)
  · have hfind : (List.replicate (n + 1) (NbtTag.byte 0)).find? (fun item => item.id != .byte) = none := by
      simp [NbtTag.id]
    simp only [NbtList.new, List.replicate_succ, List.head?_cons, NbtTag.id] at hfind ⊢
    rw [hfind]
    rfl

theorem byteList_nodes (n : Nat) : (byteList n).nodes = n := by
  rw [byteList, NbtList.nodes]
  induction n with
  | zero => rfl
  | succ n ih =>
      rw [List.replicate_succ, itemsNodes, ih, NbtTag.nodes]
      · omega
      · simp
      · simp

theorem writes_byteList_items {depth : Nat} (hdepth : depth ≤ maxDepth) (n : Nat) :
    (writeItems (List.replicate n (.byte 0)) depth).Writes (List.replicate n 0) () := by
  induction n with
  | zero => simp [writeItems]
  | succ n ih =>
      rw [List.replicate_succ, writeItems, Put.writes_seq]
      refine ⟨[0], List.replicate n 0, ?_, ih, rfl⟩
      exact writes_payload.mpr ⟨hdepth, rfl⟩

/-- The document whose only entry is a list of `n` bytes. -/
def flat (n : Nat) : NbtCompound := NbtCompound.new.insert "" (.list (byteList n))

theorem flat_obtainable (n : Nat) : Obtainable (.compound (flat (n + 1))) :=
  .insert .new "" (.fromList (byteList_obtainable n))

theorem flat_nodes (n : Nat) : (flat n).nodes = n + 1 := by
  have hflat : flat n = ⟨[("", .list (byteList n))]⟩ := rfl
  rw [hflat, NbtCompound.nodes, entriesNodes, NbtTag.nodes, byteList_nodes, entriesNodes]
  omega

theorem writes_flat {n : Nat} (hn : n < 2147483648) :
    ∃ p, (writeNetworkRoot (flat n)).Writes p () ∧ p.length = n + 10 := by
  let payload := TagId.byte.toU8 :: (wordBytes (Int32.ofNat n) ++ List.replicate n 0)
  have hpayload : (writePayload (.list (byteList n)) 1).Writes payload () := by
    refine writes_payload.mpr ⟨by decide, by simpa [byteList] using hn, List.replicate n 0, ?_, ?_⟩
    · exact writes_byteList_items (by decide) n
    · simp [payload, byteList]
  have hentries : (writeEntries (flat n).entries 1).Writes
      (TagId.list.toU8 :: ([0, 0] ++ payload ++ [])) () :=
    writes_entries_cons.mpr ⟨[0, 0], payload, [], ⟨by decide, rfl⟩, hpayload, by simp [writeEntries], rfl⟩
  refine ⟨_, writes_networkRoot.mpr ⟨_, writes_compoundBody.mpr ⟨by decide, _, hentries, rfl⟩, rfl⟩, ?_⟩
  simp only [payload, List.length_cons, List.length_append, List.length_nil, List.length_replicate,
    length_wordBytes]
  have hsize : Word.size Int32 = 4 := rfl
  omega

/-- A document of one tag more than the budget is written, and the reader rejects what was written. -/
theorem writer_exceeds_node_budget :
    ∃ d p, Obtainable (.compound d) ∧ (writeNetworkRoot d).Writes p () ∧
      p.length ≤ Target.bits64.usizeMax ∧
      (∃ left, readNetworkRoot .bits64 p = .error (.tooManyNodes maxTotalNodes) left) ∧
      ¬ ∃ c rest, readNetworkRoot .bits64 p = .ok c rest := by
  obtain ⟨p, hp, hlen⟩ := writes_flat (n := 65536) (by norm_num)
  have hfits : p.length ≤ Target.bits64.usizeMax := by
    rw [hlen]
    exact le_trans (by norm_num) Target.bits64.le_usizeMax
  have hobtainable := flat_obtainable 65535
  have hgt : maxTotalNodes < (flat 65536).nodes := by
    rw [flat_nodes]
    decide
  have hreads : RootReads (readNetworkRoot .bits64 (p ++ [])) (flat 65536) (flat 65536) [] :=
    readNetworkRoot_append hobtainable.wf hp (by simpa using hfits)
  rw [List.append_nil] at hreads
  obtain ⟨left, hleft⟩ := hreads.2 hgt
  refine ⟨flat 65536, p, hobtainable, hp, hfits, ⟨left, hleft⟩, ?_⟩
  intro hparts
  obtain ⟨c, rest, hread⟩ := hparts
  rw [hleft] at hread
  cases hread

end Pyrite.Nbt
