import Pyrite.Nbt.RoundTrip

set_option autoImplicit false

/-! # The size of a document

How many bytes a document is written as, in closed form, and how much a decoded document holds: its tags, its
names, and the contents of its strings and arrays. What is held is never more than what was written, so a
decoder that gives back what the writers write never makes more of its input than it was given. -/

namespace Pyrite.Nbt

open Wire

/-! ## Two measures -/

mutual

/-- The length of a payload. -/
def NbtTag.encodedLen : NbtTag → Nat
  | .byte _ => 1
  | .short _ => 2
  | .int _ => 4
  | .long _ => 8
  | .float _ => 4
  | .double _ => 8
  | .byteArray value => 4 + value.length
  | .string value => 2 + (utf8 value).length
  | .list l => 5 + l.encodedLen
  | .compound c => c.encodedLen
  | .intArray values => 4 + 4 * values.length
  | .longArray values => 4 + 8 * values.length

/-- The length of a compound's entries and its `End`. -/
def NbtCompound.encodedLen : NbtCompound → Nat
  | ⟨entries⟩ => entriesLen entries + 1

def entriesLen : List (String × NbtTag) → Nat
  | [] => 0
  | (name, tag) :: rest => 3 + (utf8 name).length + tag.encodedLen + entriesLen rest

/-- The length of a list's elements. -/
def NbtList.encodedLen : NbtList → Nat
  | ⟨_, items⟩ => itemsLen items

def itemsLen : List NbtTag → Nat
  | [] => 0
  | tag :: rest => tag.encodedLen + itemsLen rest

end

mutual

/-- What a tag holds: itself, its contents, and everything below it. -/
def NbtTag.footprint : NbtTag → Nat
  | .byteArray value => 1 + value.length
  | .string value => 1 + (utf8 value).length
  | .list l => 1 + l.footprint
  | .compound c => 1 + c.footprint
  | .intArray values => 1 + 4 * values.length
  | .longArray values => 1 + 8 * values.length
  | _ => 1

def NbtCompound.footprint : NbtCompound → Nat
  | ⟨entries⟩ => entriesFootprint entries

def entriesFootprint : List (String × NbtTag) → Nat
  | [] => 0
  | (name, tag) :: rest => (utf8 name).length + tag.footprint + entriesFootprint rest

def NbtList.footprint : NbtList → Nat
  | ⟨_, items⟩ => itemsFootprint items

def itemsFootprint : List NbtTag → Nat
  | [] => 0
  | tag :: rest => tag.footprint + itemsFootprint rest

end

/-! ## What is written -/

theorem length_nbtString {value : String} {bs : Bytes} (h : (writeNbtString value).Writes bs ()) :
    bs.length = 2 + (utf8 value).length := by
  obtain ⟨-, rfl⟩ := writes_nbtString.mp h
  rw [List.length_append, length_wordBytes]
  rfl

theorem length_words {α : Type} [Word α] (values : List α) :
    (values.flatMap wordBytes).length = Word.size α * values.length := by
  induction values with
  | nil => rfl
  | cons value values ih =>
      rw [List.flatMap_cons, List.length_append, length_wordBytes, ih, List.length_cons]
      ring

theorem length_items {depth : Nat} {items : List NbtTag}
    (h : ∀ item ∈ items, ∀ bs, (writePayload item depth).Writes bs () → bs.length = item.encodedLen) {bs : Bytes}
    (hbs : (writeItems items depth).Writes bs ()) : bs.length = itemsLen items := by
  induction items generalizing bs with
  | nil =>
      obtain ⟨rfl, -⟩ := hbs
      rfl
  | cons item items ih =>
      obtain ⟨p, q, hp, hq, rfl⟩ := writes_items_cons.mp hbs
      rw [List.length_append, h item List.mem_cons_self p hp,
        ih (fun item' hmem => h item' (List.mem_cons_of_mem item hmem)) hq, itemsLen]

theorem length_entries {depth : Nat} {entries : List (String × NbtTag)}
    (h : ∀ entry ∈ entries, ∀ bs, (writePayload entry.2 depth).Writes bs () → bs.length = entry.2.encodedLen)
    {bs : Bytes} (hbs : (writeEntries entries depth).Writes bs ()) : bs.length = entriesLen entries := by
  induction entries generalizing bs with
  | nil =>
      obtain ⟨rfl, -⟩ := hbs
      rfl
  | cons entry entries ih =>
      obtain ⟨name, tag⟩ := entry
      obtain ⟨p, q, r, hp, hq, hr, rfl⟩ := writes_entries_cons.mp hbs
      have hname := length_nbtString hp
      have htag : q.length = tag.encodedLen := h (name, tag) List.mem_cons_self q hq
      have hrest := ih (fun entry' hmem => h entry' (List.mem_cons_of_mem _ hmem)) hr
      simp only [List.length_cons, List.length_append, entriesLen]
      omega

theorem length_compoundBody {c : NbtCompound} {depth : Nat}
    (h : ∀ entry ∈ c.entries, ∀ bs, (writePayload entry.2 depth).Writes bs () → bs.length = entry.2.encodedLen)
    {bs : Bytes} (hbs : (writeCompoundBody c depth).Writes bs ()) : bs.length = c.encodedLen := by
  obtain ⟨entries⟩ := c
  obtain ⟨-, p, hp, rfl⟩ := writes_compoundBody.mp hbs
  rw [List.length_append, length_entries h hp, NbtCompound.encodedLen]
  rfl

/-- A payload has the length that is known from the tag. -/
theorem length_payload (tag : NbtTag) :
    ∀ depth bs, (writePayload tag depth).Writes bs () → bs.length = tag.encodedLen := by
  induction tag using NbtTag.induction with
  | step tag ih =>
  intro depth bs hbs
  have hbytes := (writes_payload.mp hbs).2
  cases tag with
  | list l =>
      obtain ⟨elementType, items⟩ := l
      obtain ⟨-, p, hp, rfl⟩ := hbytes
      have hitems : p.length = itemsLen items := length_items (fun item hmem => ih item hmem (depth + 1)) hp
      simp only [List.length_cons, List.length_append, length_wordBytes, Word.size, NbtTag.encodedLen,
        NbtList.encodedLen]
      omega
  | compound c =>
      exact length_compoundBody (fun entry hmem => ih entry.2 (List.mem_map_of_mem hmem) (depth + 1)) hbytes
  | string value => exact length_nbtString hbytes
  | byteArray value =>
      obtain ⟨-, rfl⟩ := hbytes
      rw [List.length_append, length_wordBytes]
      rfl
  | intArray values =>
      obtain ⟨-, rfl⟩ := hbytes
      rw [List.length_append, length_wordBytes, length_words]
      rfl
  | longArray values =>
      obtain ⟨-, rfl⟩ := hbytes
      rw [List.length_append, length_wordBytes, length_words]
      rfl
  | byte value => exact (congrArg List.length hbytes).trans (length_wordBytes value)
  | short value => exact (congrArg List.length hbytes).trans (length_wordBytes value)
  | int value => exact (congrArg List.length hbytes).trans (length_wordBytes value)
  | long value => exact (congrArg List.length hbytes).trans (length_wordBytes value)
  | float bits => exact (congrArg List.length hbytes).trans (length_wordBytes bits)
  | double bits => exact (congrArg List.length hbytes).trans (length_wordBytes bits)

theorem length_body {d : NbtCompound} {bs : Bytes} (h : (writeCompoundBody d 1).Writes bs ()) :
    bs.length = d.encodedLen :=
  length_compoundBody (fun entry _ => length_payload entry.2 1) h

/-! ## What is held -/

theorem itemsFootprint_le {items : List NbtTag} (h : ∀ item ∈ items, item.footprint ≤ item.encodedLen) :
    itemsFootprint items ≤ itemsLen items := by
  induction items with
  | nil => exact le_rfl
  | cons item items ih =>
      have hitem := h item List.mem_cons_self
      have hrest := ih fun item' hmem => h item' (List.mem_cons_of_mem item hmem)
      simp only [itemsFootprint, itemsLen]
      omega

theorem entriesFootprint_le {entries : List (String × NbtTag)}
    (h : ∀ entry ∈ entries, entry.2.footprint ≤ entry.2.encodedLen) :
    entriesFootprint entries ≤ entriesLen entries := by
  induction entries with
  | nil => exact le_rfl
  | cons entry entries ih =>
      obtain ⟨name, tag⟩ := entry
      have htag := h (name, tag) List.mem_cons_self
      have hrest := ih fun entry' hmem => h entry' (List.mem_cons_of_mem _ hmem)
      simp only [entriesFootprint, entriesLen] at htag hrest ⊢
      omega

/-- A compound holds less than it is written as: its `End` is not held. -/
theorem NbtCompound.footprint_lt {c : NbtCompound}
    (h : ∀ entry ∈ c.entries, entry.2.footprint ≤ entry.2.encodedLen) : c.footprint < c.encodedLen := by
  obtain ⟨entries⟩ := c
  have hentries : entriesFootprint entries ≤ entriesLen entries := entriesFootprint_le h
  simp only [NbtCompound.footprint, NbtCompound.encodedLen]
  omega

theorem NbtTag.footprint_le (tag : NbtTag) : tag.footprint ≤ tag.encodedLen := by
  induction tag using NbtTag.induction with
  | step tag ih =>
  cases tag with
  | list l =>
      obtain ⟨elementType, items⟩ := l
      have hitems : itemsFootprint items ≤ itemsLen items := itemsFootprint_le ih
      simp only [NbtTag.footprint, NbtTag.encodedLen, NbtList.footprint, NbtList.encodedLen]
      omega
  | compound c =>
      have hentries := NbtCompound.footprint_lt fun entry hmem => ih entry.2 (List.mem_map_of_mem hmem)
      simp only [NbtTag.footprint, NbtTag.encodedLen]
      omega
  | _ =>
      simp only [NbtTag.footprint, NbtTag.encodedLen]
      omega

/-- **Decoding never amplifies.** The bytes that a document is written as are exactly as many as `encodedLen`
    says. Whatever bytes a decoder is given, a document that it returns has taken exactly that many of them,
    and holds no more: its tags, the bytes of its names, and those of its strings and arrays are together
    fewer than the bytes that were consumed. A tag counts as one here; in memory it takes forty bytes, or
    sixty-four with a name, as `error.rs` has it. -/
theorem decoding_never_amplifies (t : Target) (src : Bytes) :
    (∀ d p, (writeNetworkRoot d).Writes p () → p.length = 1 + d.encodedLen) ∧
    (∀ name d p, (writeNamedRoot name d).Writes p () → p.length = 3 + (utf8 name).length + d.encodedLen) ∧
    (readNetworkRoot t src).Satisfies
      (fun d rest => src.length = 1 + d.encodedLen + rest.length ∧ d.footprint < d.encodedLen)
      (fun _ _ => True) ∧
    (readNamedRoot t src).Satisfies
      (fun r rest => src.length = 3 + (utf8 r.1).length + r.2.encodedLen + rest.length ∧
        r.2.footprint < r.2.encodedLen)
      (fun _ _ => True) ∧
    (readOptionalNetworkRoot t src).Satisfies
      (fun r rest => ∀ d, r = some d → src.length = 1 + d.encodedLen + rest.length ∧ d.footprint < d.encodedLen)
      (fun _ _ => True) := by
  have hheld : ∀ d : NbtCompound, d.footprint < d.encodedLen :=
    fun d => NbtCompound.footprint_lt fun entry _ => NbtTag.footprint_le entry.2
  have hroot : ∀ {body rest : Bytes} {d : NbtCompound}, RootRead body d rest →
      body.length = d.encodedLen + rest.length := by
    intro body rest d hread
    obtain ⟨bs, hbs, rfl⟩ := hread.bytes
    rw [List.length_append, length_body hbs]
  refine ⟨?_, ?_, ?_, ?_, ?_⟩
  · intro d p hp
    obtain ⟨body, hbody, rfl⟩ := writes_networkRoot.mp hp
    rw [List.length_cons, length_body hbody, Nat.add_comm]
  · intro name d p hp
    obtain ⟨q, body, hq, hbody, rfl⟩ := writes_namedRoot.mp hp
    rw [List.length_cons, List.length_append, length_nbtString hq, length_body hbody]
    omega
  · refine (readNetworkRoot_spec t src).mono ?_ fun _ _ h => h
    rintro d rest ⟨body, rfl, hread⟩
    refine ⟨?_, hheld d⟩
    rw [List.length_cons, hroot hread]
    omega
  · refine (readNamedRoot_spec t src).mono ?_ fun _ _ h => h
    rintro ⟨name, d⟩ rest ⟨p, body, hp, rfl, hread⟩
    refine ⟨?_, hheld d⟩
    rw [List.length_cons, List.length_append, length_nbtString hp, hroot hread]
    simp only
    omega
  · refine (readOptionalNetworkRoot_spec t src).mono ?_ fun _ _ h => h
    rintro r rest hread d rfl
    obtain ⟨body, rfl, hbody⟩ := hread d rfl
    refine ⟨?_, hheld d⟩
    rw [List.length_cons, hroot hbody]
    omega

end Pyrite.Nbt
