import Pyrite.Nbt.Document
import Pyrite.Wire.Delimited

set_option autoImplicit false

/-! # Encodings are unambiguous

What the writers write delimits itself: from bytes that begin with an encoded document, the document and its
end can be told, whatever follows. The decoder shows this for the documents within its node budget. It holds
for every document that the writers accept, and is proved here from the writers alone, code by code. -/

namespace Pyrite.Nbt

open Wire

/-! ## Words, strings and counts -/

theorem wordBytes_injective {α : Type} [Word α] {a b : α} (h : wordBytes a = wordBytes b) : a = b := by
  rw [← ofBe_wordBytes a, h, ofBe_wordBytes]

theorem delimits_word {α : Type} [Word α] (a : α) : Delimits (fun (a : α) bs => bs = wordBytes a) a := by
  refine delimits_of_length (n := Word.size α) ?_ ?_ a
  · rintro a _ rfl
    exact length_wordBytes a
  · rintro a b _ rfl hb
    exact (wordBytes_injective hb).symm

theorem delimits_nbtString (value : String) :
    Delimits (fun (value : String) bs => (writeNbtString value).Writes bs ()) value := by
  intro value' p q r r' hp hq heq
  -- the reader finds both
  have hread := readNbtString_append hp r
  rw [heq, readNbtString_append hq r'] at hread
  obtain ⟨hvalue, hrest⟩ := Outcome.ok.inj hread
  exact ⟨hvalue, hrest.symm⟩

theorem delimits_count (n : Nat) :
    Delimits (fun (n : Nat) bs => n < 2147483648 ∧ bs = wordBytes (Int32.ofNat n)) n := by
  refine delimits_of_length (n := 4) ?_ ?_ n
  · rintro n _ ⟨-, rfl⟩
    exact length_wordBytes _
  · rintro n m _ ⟨hn, rfl⟩ ⟨hm, hsame⟩
    have hcount := congrArg Int32.toInt (wordBytes_injective hsame)
    rw [int32_ofNat_toInt hn, int32_ofNat_toInt hm] at hcount
    omega

/-- A count, and then as many members. -/
theorem delimits_counted {γ : Type} {R : γ → Bytes → Prop} {xs : List γ} (h : ∀ x ∈ xs, Delimits R x) :
    Delimits (fun ys bs => ys.length < 2147483648 ∧
      ∃ p, Each R ys p ∧ bs = wordBytes (Int32.ofNat ys.length) ++ p) xs := by
  have hcode : Delimits _ (xs.length, xs) := (delimits_count xs.length).seq
    (S := fun n ys bs => ys.length = n ∧ Each R ys bs) (delimits_each h)
  refine (delimits_congr fun ys bs => ?_).mp (hcode.comap (fun ys : List γ => (ys.length, ys))
    fun ys hys => (Prod.mk.inj hys).2)
  constructor
  · rintro ⟨_, p, ⟨hlength, rfl⟩, ⟨-, hp⟩, rfl⟩
    exact ⟨hlength, p, hp, rfl⟩
  · rintro ⟨hlength, p, hp, rfl⟩
    exact ⟨_, p, ⟨hlength, rfl⟩, ⟨rfl, hp⟩, rfl⟩

/-! ## Payloads -/

/-- What a good tag of type `id` is written as at `depth`. -/
def PayloadCode (id : TagId) (depth : Nat) (tag : NbtTag) (bs : Bytes) : Prop :=
  tag.id = id ∧ tag.Wf ∧ (writePayload tag depth).Writes bs ()

/-- Two tags of one type. -/
inductive SameVariant : NbtTag → NbtTag → Prop where
  | byte (a b : Int8) : SameVariant (.byte a) (.byte b)
  | short (a b : Int16) : SameVariant (.short a) (.short b)
  | int (a b : Int32) : SameVariant (.int a) (.int b)
  | long (a b : Int64) : SameVariant (.long a) (.long b)
  | float (a b : UInt32) : SameVariant (.float a) (.float b)
  | double (a b : UInt64) : SameVariant (.double a) (.double b)
  | byteArray (a b : Bytes) : SameVariant (.byteArray a) (.byteArray b)
  | string (a b : String) : SameVariant (.string a) (.string b)
  | list (a b : NbtList) : SameVariant (.list a) (.list b)
  | compound (a b : NbtCompound) : SameVariant (.compound a) (.compound b)
  | intArray (a b : List Int32) : SameVariant (.intArray a) (.intArray b)
  | longArray (a b : List Int64) : SameVariant (.longArray a) (.longArray b)

theorem sameVariant {a b : NbtTag} (h : b.id = a.id) : SameVariant a b := by
  cases a <;> cases b <;> first | constructor | cases h

/-- The elements of an array. -/
theorem delimits_words {α : Type} [Word α] (values : List α) :
    Delimits (fun (values : List α) bs => values.length < 2147483648 ∧
      bs = wordBytes (Int32.ofNat values.length) ++ values.flatMap wordBytes) values := by
  refine (delimits_congr fun values bs => ?_).mp (delimits_counted (fun a _ => delimits_word a))
  simp [each_eq_flatMap]

theorem each_items {id : TagId} {depth : Nat} {items : List NbtTag} (hid : ∀ item ∈ items, item.id = id)
    (hwf : ∀ item ∈ items, item.Wf) {bs : Bytes} (h : (writeItems items depth).Writes bs ()) :
    Each (PayloadCode id depth) items bs := by
  induction items generalizing bs with
  | nil => simpa [writeItems] using h
  | cons item items ih =>
      obtain ⟨p, q, hp, hq, rfl⟩ := writes_items_cons.mp h
      exact .cons ⟨hid item List.mem_cons_self, hwf item List.mem_cons_self, hp⟩
        (ih (fun item' hmem => hid item' (List.mem_cons_of_mem item hmem))
          (fun item' hmem => hwf item' (List.mem_cons_of_mem item hmem)) hq)

/-- What an entry is written as at `depth`. -/
def EntryCode (depth : Nat) (entry : String × NbtTag) (bs : Bytes) : Prop :=
  ∃ p q, (writeNbtString entry.1).Writes p () ∧ PayloadCode entry.2.id depth entry.2 q ∧
    bs = entry.2.id.toU8 :: (p ++ q)

theorem each_entries {depth : Nat} {entries : List (String × NbtTag)} (hwf : ∀ entry ∈ entries, entry.2.Wf)
    {bs : Bytes} (h : (writeEntries entries depth).Writes bs ()) : Each (EntryCode depth) entries bs := by
  induction entries generalizing bs with
  | nil => simpa [writeEntries] using h
  | cons entry entries ih =>
      obtain ⟨name, tag⟩ := entry
      obtain ⟨p, q, r, hp, hq, hr, rfl⟩ := writes_entries_cons.mp h
      have hentry : EntryCode depth (name, tag) (tag.id.toU8 :: (p ++ q)) :=
        ⟨p, q, hp, ⟨rfl, hwf (name, tag) List.mem_cons_self, hq⟩, rfl⟩
      exact .cons hentry (ih (fun entry' hmem => hwf entry' (List.mem_cons_of_mem _ hmem)) hr)

theorem toU8_injective {id id' : TagId} (h : id.toU8 = id'.toU8) : id = id' := by
  have hid := TagId.tryFrom_toU8 id
  rw [h, TagId.tryFrom_toU8] at hid
  exact (Except.ok.inj hid).symm

theorem delimits_entry {name : String} {tag : NbtTag} {depth : Nat}
    (h : Delimits (PayloadCode tag.id depth) tag) : Delimits (EntryCode depth) (name, tag) := by
  rintro ⟨name', tag'⟩ _ _ r r' ⟨p₁, p₂, hp₁, hp₂, rfl⟩ ⟨q₁, q₂, hq₁, hq₂, rfl⟩ heq
  have hid := (List.cons.inj heq).1
  have hrest : p₁ ++ (p₂ ++ r) = q₁ ++ (q₂ ++ r') := by simpa using (List.cons.inj heq).2
  obtain ⟨rfl, hrest⟩ := delimits_nbtString _ hp₁ hq₁ hrest
  simp only at hid hp₂ hq₂
  rw [← toU8_injective hid] at hq₂
  obtain ⟨rfl, hrest⟩ := h hp₂ hq₂ hrest
  exact ⟨rfl, hrest⟩

/-- The entries up to the `End` tag, whose ID is that of no entry. -/
theorem delimits_compoundBody {c : NbtCompound} {depth : Nat}
    (h : ∀ entry ∈ c.entries, Delimits (PayloadCode entry.2.id depth) entry.2) :
    Delimits (fun c bs => c.Wf ∧ (writeCompoundBody c depth).Writes bs ()) c := by
  rintro ⟨entries'⟩ p q r r' ⟨hwf, hp⟩ ⟨hwf', hq⟩ heq
  obtain ⟨entries⟩ := c
  obtain ⟨-, p₁, hp₁, rfl⟩ := writes_compoundBody.mp hp
  obtain ⟨-, q₁, hq₁, rfl⟩ := writes_compoundBody.mp hq
  have hmark : ∀ entry bs, EntryCode depth entry bs → ∃ b bs', bs = b :: bs' ∧ b ≠ TagId.endTag.toU8 := by
    rintro ⟨name, tag⟩ _ ⟨p, q, -, -, rfl⟩
    exact ⟨_, _, rfl, fun hend => NbtTag.id_ne_endTag tag (toU8_injective hend)⟩
  have hdelimits := delimits_until hmark entries fun entry hmem => delimits_entry (h entry hmem)
  obtain ⟨rfl, hrest⟩ := hdelimits
    ⟨p₁, each_entries (NbtCompound.wf_iff.mp hwf).2 hp₁, rfl⟩
    ⟨q₁, each_entries (NbtCompound.wf_iff.mp hwf').2 hq₁, rfl⟩ heq
  exact ⟨rfl, hrest⟩

/-- The bytes of a byte array are its elements. -/
theorem delimits_byteArray (value : Bytes) :
    Delimits (fun (value : Bytes) bs => value.length < 2147483648 ∧
      bs = wordBytes (Int32.ofNat value.length) ++ value) value := by
  refine (delimits_congr fun value bs => ?_).mp (delimits_words value)
  rw [show value.flatMap wordBytes = value by simp [funext wordBytes_u8]]

/-- The element type, a count and the elements. -/
theorem delimits_list {l : NbtList} {depth : Nat}
    (h : ∀ item ∈ l.items, ∀ depth, Delimits (PayloadCode item.id depth) item) :
    Delimits (fun l bs => l.Wf ∧ PayloadBytes depth bs (.list l)) l := by
  rintro ⟨elementType', items'⟩ _ _ r r' ⟨hwf, hcount, p, hp, rfl⟩ ⟨hwf', hcount', q, hq, rfl⟩ heq
  obtain ⟨elementType, items⟩ := l
  rw [NbtList.wf_iff] at hwf hwf'
  simp only at h hwf hwf' hcount hcount' hp hq
  have helement : elementType = elementType' := toU8_injective (List.cons.inj heq).1
  have heq := (List.cons.inj heq).2
  subst helement
  have hitems : ∀ item ∈ items, Delimits (PayloadCode elementType (depth + 1)) item := by
    intro item hmem
    rw [← hwf.1 item hmem]
    exact h item hmem (depth + 1)
  obtain ⟨rfl, hrest⟩ := delimits_counted hitems ⟨hcount, p, each_items hwf.1 hwf.2 hp, rfl⟩
    ⟨hcount', q, each_items hwf'.1 hwf'.2 hq, rfl⟩ heq
  exact ⟨rfl, hrest⟩

/-- **Payloads delimit themselves**, once the type of the tag is known. -/
theorem delimits_payload (tag : NbtTag) : ∀ depth, Delimits (PayloadCode tag.id depth) tag := by
  induction tag using NbtTag.induction with
  | step tag ih =>
  rintro depth tag' p q r r' ⟨-, hwf, hp⟩ ⟨hid, hwf', hq⟩ heq
  have hp := (writes_payload.mp hp).2
  have hq := (writes_payload.mp hq).2
  cases sameVariant hid with
  | byte a b =>
      obtain ⟨rfl, hrest⟩ := delimits_word a hp hq heq
      exact ⟨rfl, hrest⟩
  | short a b =>
      obtain ⟨rfl, hrest⟩ := delimits_word a hp hq heq
      exact ⟨rfl, hrest⟩
  | int a b =>
      obtain ⟨rfl, hrest⟩ := delimits_word a hp hq heq
      exact ⟨rfl, hrest⟩
  | long a b =>
      obtain ⟨rfl, hrest⟩ := delimits_word a hp hq heq
      exact ⟨rfl, hrest⟩
  | float a b =>
      obtain ⟨rfl, hrest⟩ := delimits_word a hp hq heq
      exact ⟨rfl, hrest⟩
  | double a b =>
      obtain ⟨rfl, hrest⟩ := delimits_word a hp hq heq
      exact ⟨rfl, hrest⟩
  | byteArray a b =>
      obtain ⟨rfl, hrest⟩ := delimits_byteArray a hp hq heq
      exact ⟨rfl, hrest⟩
  | string a b =>
      obtain ⟨rfl, hrest⟩ := delimits_nbtString a hp hq heq
      exact ⟨rfl, hrest⟩
  | list a b =>
      obtain ⟨rfl, hrest⟩ := delimits_list ih ⟨hwf, hp⟩ ⟨hwf', hq⟩ heq
      exact ⟨rfl, hrest⟩
  | compound a b =>
      have hentries : ∀ entry ∈ a.entries, Delimits (PayloadCode entry.2.id (depth + 1)) entry.2 :=
        fun entry hmem => ih entry.2 (List.mem_map_of_mem hmem) (depth + 1)
      obtain ⟨rfl, hrest⟩ := delimits_compoundBody hentries ⟨hwf, hp⟩ ⟨hwf', hq⟩ heq
      exact ⟨rfl, hrest⟩
  | intArray a b =>
      obtain ⟨rfl, hrest⟩ := delimits_words a hp hq heq
      exact ⟨rfl, hrest⟩
  | longArray a b =>
      obtain ⟨rfl, hrest⟩ := delimits_words a hp hq heq
      exact ⟨rfl, hrest⟩

/-! ## Documents -/

theorem delimits_body (d : NbtCompound) :
    Delimits (fun (d : NbtCompound) bs => d.Wf ∧ (writeCompoundBody d 1).Writes bs ()) d :=
  delimits_compoundBody fun entry _ => delimits_payload entry.2 1

/-- **Encodings are unambiguous.** For any two documents that the writers accept, whatever their size: if the
    one encoding and some bytes are the other encoding and some bytes, then the documents are the same, and so
    are their names and the bytes that follow. So no two documents share an encoding, and no encoding is the
    beginning of another. -/
theorem encoding_unambiguous (d d' : NbtCompound) (h : Obtainable (.compound d)) (h' : Obtainable (.compound d'))
    (rest rest' : Bytes) :
    (∀ p p', (writeNetworkRoot d).Writes p () → (writeNetworkRoot d').Writes p' () →
      p ++ rest = p' ++ rest' → d' = d ∧ rest' = rest) ∧
    ∀ name name' p p', (writeNamedRoot name d).Writes p () → (writeNamedRoot name' d').Writes p' () →
      p ++ rest = p' ++ rest' → name' = name ∧ d' = d ∧ rest' = rest := by
  constructor
  · intro p p' hp hp' heq
    obtain ⟨body, hbody, rfl⟩ := writes_networkRoot.mp hp
    obtain ⟨body', hbody', rfl⟩ := writes_networkRoot.mp hp'
    obtain ⟨hsame, hrest⟩ := delimits_body d ⟨h.wf, hbody⟩ ⟨h'.wf, hbody'⟩ (List.cons.inj heq).2
    exact ⟨hsame, hrest.symm⟩
  · intro name name' p p' hp hp' heq
    obtain ⟨q, body, hq, hbody, rfl⟩ := writes_namedRoot.mp hp
    obtain ⟨q', body', hq', hbody', rfl⟩ := writes_namedRoot.mp hp'
    have hnamed : q ++ (body ++ rest) = q' ++ (body' ++ rest') := by simpa using (List.cons.inj heq).2
    obtain ⟨hname, hbodies⟩ := delimits_nbtString name hq hq' hnamed
    obtain ⟨hsame, hrest⟩ := delimits_body d ⟨h.wf, hbody⟩ ⟨h'.wf, hbody'⟩ hbodies
    exact ⟨hname, hsame, hrest.symm⟩

/-- A document that is too large for the decoder. -/
theorem encoding_unambiguous_flat :
    ∃ p, (writeNetworkRoot (flat 65536)).Writes p () ∧ ∀ rest rest', p ++ rest = p ++ rest' → rest' = rest := by
  obtain ⟨p, hp, -⟩ := writes_flat (n := 65536) (by norm_num)
  refine ⟨p, hp, fun rest rest' heq => ?_⟩
  exact ((encoding_unambiguous (flat 65536) (flat 65536) (flat_obtainable 65535) (flat_obtainable 65535)
    rest rest').1 p p hp hp heq).2

end Pyrite.Nbt
