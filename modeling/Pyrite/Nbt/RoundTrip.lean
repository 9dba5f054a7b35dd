import Pyrite.Nbt.Canonical

set_option autoImplicit false

/-! # Reading back what was written

The forward direction: on the bytes of a successful write, the readers return the written value and
leave what follows alone, provided the document fits the node budget. If it does not, they fail, and
with no other error than `TooManyNodes`: up to the tag that exceeds the budget nothing is rejected.

`Reads` states both cases at once, relative to the nodes counted so far, so that the two cases compose
through sequencing together. The buffer as a whole is assumed to fit the address space, as every buffer
does; on a 32-bit target the length check of an array relies on it. -/

namespace Pyrite.Nbt

open Wire

/-- The outcome of reading a value of `k` tags when `n` were counted before: the value, with `rest`
    unread, if the budget allows, and `TooManyNodes` otherwise. -/
def Reads {α : Type} (o : Outcome NbtError ReadState α) (a : α) (rest : Bytes) (n k : Nat) : Prop :=
  if n + k ≤ maxTotalNodes then o = .ok a ⟨rest, n + k⟩
  else ∃ s, o = .error (.tooManyNodes maxTotalNodes) s

variable {α β : Type}

/-- Two values in sequence: the first either exhausts the budget or leaves its remainder. -/
theorem Reads.bind {o : Outcome NbtError ReadState α} {f : α → Exec NbtError ReadState β} {a : α}
    {b : β} {rest rest' : Bytes} {n k k' : Nat} (h : Reads o a rest n k)
    (hf : n + k ≤ maxTotalNodes → Reads (f a ⟨rest, n + k⟩) b rest' (n + k) k') :
    Reads (o.bind f) b rest' n (k + k') := by
  unfold Reads at h ⊢
  by_cases hk : n + k ≤ maxTotalNodes
  · rw [if_pos hk] at h
    rw [h, Outcome.bind_ok]
    have hnext := hf hk
    rw [Reads, Nat.add_assoc] at hnext
    exact hnext
  · rw [if_neg hk] at h
    obtain ⟨s, rfl⟩ := h
    rw [if_neg (by omega)]
    exact ⟨s, rfl⟩

/-- A step that counts nothing. -/
theorem Reads.of_ok {o : Outcome NbtError ReadState α} {a : α} {rest : Bytes} {n : Nat}
    (hn : n ≤ maxTotalNodes) (h : o = .ok a ⟨rest, n⟩) : Reads o a rest n 0 := by
  rw [Reads, if_pos (by omega)]
  exact h

theorem Reads.pure {a : α} {rest : Bytes} {n : Nat} (hn : n ≤ maxTotalNodes) :
    Reads ((Pure.pure a : Exec NbtError ReadState α) ⟨rest, n⟩) a rest n 0 :=
  Reads.of_ok hn rfl

/-- A value wrapped after it was read. -/
theorem Reads.map {o : Outcome NbtError ReadState α} {a : α} {rest : Bytes} {n k : Nat}
    (h : Reads o a rest n k) (f : α → β) : Reads (o.bind fun a => Pure.pure (f a)) (f a) rest n k :=
  Nat.add_zero k ▸ h.bind fun hn => Reads.pure hn

theorem reads_countNode (t : Target) {src : Bytes} {n : Nat} (hn : n ≤ maxTotalNodes) :
    Reads (countNode t ⟨src, n⟩) () src n 1 := by
  rw [countNode_eq t hn]
  by_cases hbudget : n + 1 > maxTotalNodes
  · rw [Reads, if_neg (Nat.not_le.mpr hbudget), if_pos hbudget]
    exact ⟨_, rfl⟩
  · rw [Reads, if_pos (Nat.not_lt.mp hbudget), if_neg hbudget]

/-- A payload counts itself before anything is read. -/
theorem Reads.payload {t : Target} {m : Exec NbtError ReadState α} {a : α} {src rest : Bytes} {n k : Nat}
    (hn : n ≤ maxTotalNodes)
    (h : n + 1 ≤ maxTotalNodes → Reads (m ⟨src, n + 1⟩) a rest (n + 1) k) :
    Reads ((countNode t >>= fun _ => m) ⟨src, n⟩) a rest n (1 + k) :=
  (reads_countNode t hn).bind h

theorem onSrc_ok {m : Exec NbtError Bytes α} {src rest : Bytes} {n : Nat} {a : α}
    (h : m src = .ok a rest) : onSrc m ⟨src, n⟩ = .ok a ⟨rest, n⟩ := by
  simp [onSrc, Exec.zoom, h]

theorem reads_onSrc {m : Exec NbtError Bytes α} {src rest : Bytes} {n : Nat} {a : α}
    (hn : n ≤ maxTotalNodes) (h : m src = .ok a rest) : Reads (onSrc m ⟨src, n⟩) a rest n 0 :=
  Reads.of_ok hn (onSrc_ok h)

/-! ## The length checks -/

/-- No payload is shorter than the least size the length check assumes for its type. -/
theorem minElementSize_le {tag : NbtTag} {depth : Nat} {bs : Bytes}
    (h : (writePayload tag depth).Writes bs ()) : minElementSize tag.id ≤ bs.length := by
  obtain ⟨-, h⟩ := writes_payload.mp h
  cases tag with
  | string value =>
      obtain ⟨-, rfl⟩ := writes_nbtString.mp h
      simp [NbtTag.id, minElementSize, Word.size]
      omega
  | list l =>
      obtain ⟨-, p, -, rfl⟩ := h
      simp [NbtTag.id, minElementSize]
  | compound c =>
      obtain ⟨-, p, -, rfl⟩ := writes_compoundBody.mp h
      simp [NbtTag.id, minElementSize]
  | byteArray value =>
      obtain ⟨-, rfl⟩ := h
      simp [NbtTag.id, minElementSize, Word.size]
      omega
  | intArray values =>
      obtain ⟨-, rfl⟩ := h
      simp [NbtTag.id, minElementSize, Word.size]
      omega
  | longArray values =>
      obtain ⟨-, rfl⟩ := h
      simp [NbtTag.id, minElementSize, Word.size]
      omega
  | _ =>
      rw [h]
      simp [NbtTag.id, minElementSize, Word.size]

theorem items_length_mul_le {elementType : TagId} {items : List NbtTag} {depth : Nat} {bs : Bytes}
    (hids : ∀ item ∈ items, item.id = elementType) (h : (writeItems items depth).Writes bs ()) :
    items.length * minElementSize elementType ≤ bs.length := by
  induction items generalizing bs with
  | nil => simp
  | cons item rest ih =>
      obtain ⟨p, q, hp, hq, rfl⟩ := writes_items_cons.mp h
      have hrest := ih (fun x hx => hids x (List.mem_cons_of_mem _ hx)) hq
      have hitem := minElementSize_le hp
      rw [hids item (List.mem_cons_self ..)] at hitem
      rw [List.length_cons, Nat.succ_mul, List.length_append]
      omega

theorem entries_length_le {entries : List (String × NbtTag)} {depth : Nat} {bs : Bytes}
    (h : (writeEntries entries depth).Writes bs ()) : entries.length ≤ bs.length := by
  induction entries generalizing bs with
  | nil => simp
  | cons entry rest ih =>
      obtain ⟨name, tag⟩ := entry
      obtain ⟨p, q, r, -, -, hr, rfl⟩ := writes_entries_cons.mp h
      have hrest := ih hr
      simp only [List.length_cons, List.length_append]
      omega

/-! ## The recursive readers -/

/-- `readPayload` reads back what `writePayload` wrote for `tag`, at any depth, from any counter and
    before any further bytes. -/
def PayloadReads (t : Target) (tag : NbtTag) : Prop :=
  ∀ (depth : Nat) (bs rest : Bytes) (n : Nat), (writePayload tag depth).Writes bs () →
    bs.length + rest.length ≤ t.usizeMax → n ≤ maxTotalNodes →
    Reads (readPayload t tag.id depth ⟨bs ++ rest, n⟩) tag rest n tag.nodes

/-- The element loop. -/
theorem reads_items {t : Target} {elementType : TagId} {items : List NbtTag} {depth : Nat}
    (hdepth : depth ≤ maxDepth) (hids : ∀ item ∈ items, item.id = elementType)
    (hitems : ∀ item ∈ items, PayloadReads t item) :
    ∀ (bs rest : Bytes) (n : Nat), (writeItems items (depth + 1)).Writes bs () →
      bs.length + rest.length ≤ t.usizeMax → n ≤ maxTotalNodes →
      Reads (Exec.times (do
          let _ ← Exec.usize t (depth + 1)
          readPayload t elementType (depth + 1)) items.length ⟨bs ++ rest, n⟩)
        items rest n (itemsNodes items) := by
  induction items with
  | nil =>
      intro bs rest n hbs _ hn
      obtain rfl : bs = [] := by simpa [writeItems] using hbs
      exact Reads.pure hn
  | cons item items ih =>
      intro bs rest n hbs hfits hn
      obtain ⟨p, q, hp, hq, rfl⟩ := writes_items_cons.mp hbs
      simp only [List.length_append] at hfits
      have hitem := hitems item (List.mem_cons_self ..) (depth + 1) p (q ++ rest) n hp
        (by rw [List.length_append]; omega) hn
      rw [hids item (List.mem_cons_self ..), ← List.append_assoc] at hitem
      simp only [List.length_cons, Exec.times, itemsNodes, Exec.bind_apply, usize_depth t hdepth,
        Exec.pure_apply, Outcome.bind_ok]
      refine hitem.bind fun hn₁ => ?_
      have hrest := ih (fun x hx => hids x (List.mem_cons_of_mem _ hx))
        (fun x hx => hitems x (List.mem_cons_of_mem _ hx)) q rest _ hq (by omega) hn₁
      simp only [usize_depth t hdepth] at hrest
      exact hrest.map (item :: ·)

/-- The entry loop, from any point of it: `done` has been pushed, `entries` are still to come. -/
theorem reads_entries {t : Target} {depth : Nat} {entries : List (String × NbtTag)}
    (hentries : ∀ entry ∈ entries, PayloadReads t entry.2) :
    ∀ (fuel : Nat) (done : List (String × NbtTag)) (bs rest : Bytes) (n : Nat),
      entries.length < fuel → ((done ++ entries).map Prod.fst).Nodup →
      (writeEntries entries depth).Writes bs () → bs.length + 1 + rest.length ≤ t.usizeMax →
      n ≤ maxTotalNodes →
      Reads (Exec.iterate (readEntry fun id => readPayload t id depth) fuel ⟨done⟩
        ⟨bs ++ TagId.endTag.toU8 :: rest, n⟩) ⟨done ++ entries⟩ rest n (entriesNodes entries) := by
  induction entries with
  | nil =>
      intro fuel done bs rest n hfuel hnodup hbs hfits hn
      obtain ⟨fuel, rfl⟩ : ∃ k, fuel = k + 1 := ⟨fuel - 1, by simp at hfuel; omega⟩
      obtain rfl : bs = [] := by simpa [writeEntries] using hbs
      have hdup : rejectDuplicateKeys (⟨done⟩ : NbtCompound) (⟨rest, n⟩ : ReadState)
          = .ok () ⟨rest, n⟩ := by
        have hnames : (⟨done⟩ : NbtCompound).names.Nodup := by
          simpa [NbtCompound.names] using hnodup
        exact rejectDuplicateKeys_of_nodup hnames _
      refine Reads.of_ok hn ?_
      simp only [List.nil_append, Exec.iterate, readEntry, Exec.bind_apply,
        onSrc_ok (readTagId_append .endTag rest), Outcome.bind_ok, if_true, hdup, Exec.pure_apply,
        List.append_nil]
  | cons entry entries ih =>
      intro fuel done bs rest n hfuel hnodup hbs hfits hn
      obtain ⟨fuel, rfl⟩ : ∃ k, fuel = k + 1 := ⟨fuel - 1, by simp at hfuel; omega⟩
      obtain ⟨name, tag⟩ := entry
      obtain ⟨p, q, r, hp, hq, hr, rfl⟩ := writes_entries_cons.mp hbs
      simp only [List.length_cons, List.length_append] at hfits hfuel
      have htag := hentries (name, tag) (List.mem_cons_self ..) depth q
        (r ++ TagId.endTag.toU8 :: rest) n hq
        (by simp only [List.length_cons, List.length_append]; omega) hn
      have hsrc : (tag.id.toU8 :: (p ++ q ++ r)) ++ TagId.endTag.toU8 :: rest
          = tag.id.toU8 :: (p ++ (q ++ (r ++ TagId.endTag.toU8 :: rest))) := by simp
      simp only [hsrc, Exec.iterate, readEntry, Exec.bind_apply, Exec.ite_apply,
        onSrc_ok (readTagId_append tag.id _), Outcome.bind_ok, if_neg tag.id_ne_endTag,
        onSrc_ok (readNbtString_append hp _), entriesNodes]
      refine (htag.map fun value => Sum.inl (NbtCompound.push ⟨done⟩ name value)).bind fun hn₁ => ?_
      have hsplit : done ++ (name, tag) :: entries = (done ++ [(name, tag)]) ++ entries := by simp
      rw [hsplit] at hnodup ⊢
      exact ih (fun e he => hentries e (List.mem_cons_of_mem _ he)) fuel (done ++ [(name, tag)]) r rest
        _ (by omega) hnodup hr (by omega) hn₁

/-- `readCompoundBody` reads back what `writeCompoundBody` wrote. -/
theorem reads_compoundBody {t : Target} {c : NbtCompound} (hnodup : c.names.Nodup)
    (hentries : ∀ entry ∈ c.entries, PayloadReads t entry.2) {depth : Nat} {bs rest : Bytes} {n : Nat}
    (hbs : (writeCompoundBody c depth).Writes bs ()) (hfits : bs.length + rest.length ≤ t.usizeMax)
    (hn : n ≤ maxTotalNodes) :
    Reads (readCompoundBody t depth ⟨bs ++ rest, n⟩) c rest n c.nodes := by
  obtain ⟨hdepth, p, hp, rfl⟩ := writes_compoundBody.mp hbs
  obtain ⟨entries⟩ := c
  have hlen : entries.length ≤ p.length := entries_length_le hp
  simp only [List.length_append, List.length_singleton] at hfits
  rw [readCompoundBody, if_neg (Nat.not_lt.mpr hdepth), List.append_assoc, List.singleton_append]
  refine reads_entries hentries _ [] p rest n ?_ hnodup hp hfits hn
  simp only [List.length_append, List.length_cons]
  omega

/-- The scalar cases of `readPayload`. -/
theorem reads_fixed [Word α] {size : Nat} (hsize : Word.size α = size) (variant : α → NbtTag) (value : α)
    {rest : Bytes} {n : Nat} (hn : n ≤ maxTotalNodes) :
    Reads (onSrc (fixed size variant) ⟨wordBytes value ++ rest, n⟩) (variant value) rest n 0 :=
  reads_onSrc hn (fixed_append hsize variant value rest)

/-- The integer-array cases of `readPayload`. -/
theorem reads_words [Word α] {size : Nat} (t : Target) (hsize : Word.size α = size)
    (variant : List α → NbtTag) (values : List α) {rest : Bytes} {n : Nat} (hn : n ≤ maxTotalNodes)
    (hlen : values.length < 2147483648)
    (hfits : (values.flatMap wordBytes).length + rest.length ≤ t.usizeMax) :
    Reads ((do
      let len ← onSrc (readLength t size)
      let values ← onSrc (Exec.times (Exec.get : Exec NbtError Bytes α) len)
      pure (variant values) : Exec NbtError ReadState NbtTag)
        ⟨wordBytes (Int32.ofNat values.length) ++ (values.flatMap wordBytes ++ rest), n⟩)
      (variant values) rest n 0 := by
  have hbytes : (values.flatMap wordBytes).length = values.length * size := by
    simp [List.length_flatMap, hsize]
  have hlength : readLength t size
      (wordBytes (Int32.ofNat values.length) ++ (values.flatMap wordBytes ++ rest))
        = .ok values.length (values.flatMap wordBytes ++ rest) :=
    readLength_append t hlen hbytes.ge hfits
  rw [Exec.bind_apply, onSrc_ok hlength, Outcome.bind_ok]
  exact (reads_onSrc hn (times_get_append values rest)).map variant

/-- The list case of `readPayload`, from the bytes after the element type. -/
theorem reads_list {t : Target} {elementType : TagId} {items : List NbtTag} {depth : Nat}
    {src p rest : Bytes} {n : Nat} (hdepth : depth ≤ maxDepth)
    (hwf : (⟨elementType, items⟩ : NbtList).Wf) (hitems : ∀ item ∈ items, PayloadReads t item)
    (hlength : readLength t (minElementSize elementType) src = .ok items.length (p ++ rest))
    (hp : (writeItems items (depth + 1)).Writes p ()) (hfits : p.length + rest.length ≤ t.usizeMax)
    (hn : n ≤ maxTotalNodes) :
    Reads ((do
      let elementType ← onSrc readTagId
      let len ← onSrc (readLength t (minElementSize elementType))
      if elementType = .endTag ∧ len ≠ 0 then Exec.throw (.invalidListElementType .endTag)
      else do
        let items ← Exec.times (do
          let _ ← Exec.usize t (depth + 1)
          readPayload t elementType (depth + 1)) len
        pure (.list (NbtList.fromParts elementType items)) : Exec NbtError ReadState NbtTag)
          ⟨elementType.toU8 :: src, n⟩)
      (.list ⟨elementType, items⟩) rest n (itemsNodes items) := by
  -- an empty list of `End` passes the check, and no other list has that element type
  have hend : ¬ (elementType = .endTag ∧ items.length ≠ 0) := by
    intro hparts
    obtain ⟨hend, hne⟩ := hparts
    have hnil : items = [] := NbtList.Wf.items_eq_nil hwf hend
    exact hne (by rw [hnil, List.length_nil])
  simp only [Exec.bind_apply, onSrc_ok (readTagId_append elementType src), Outcome.bind_ok,
    onSrc_ok hlength, Exec.ite_apply, if_neg hend]
  exact (reads_items hdepth (NbtList.wf_iff.mp hwf).1 hitems p rest _ hp hfits hn).map
    (fun items => NbtTag.list (NbtList.fromParts elementType items))

/-- `readPayload`, by induction on the tree. -/
theorem payloadReads (t : Target) (tag : NbtTag) (hwf : tag.Wf) : PayloadReads t tag := by
  induction tag using NbtTag.induction with
  | step tag ih =>
      have hchildren : ∀ child ∈ tag.children, PayloadReads t child :=
        fun child hmem => ih child hmem (hwf.of_mem_children hmem)
      intro depth bs rest n hbs hfits hn
      obtain ⟨hdepth, hbytes⟩ := writes_payload.mp hbs
      rw [readPayload.eq_def, if_neg (Nat.not_lt.mpr hdepth)]
      cases tag with
      | byte value =>
          subst hbytes
          dsimp only [NbtTag.id]
          exact Reads.payload (k := 0) hn fun hn => reads_fixed rfl NbtTag.byte value hn
      | short value =>
          subst hbytes
          dsimp only [NbtTag.id]
          exact Reads.payload (k := 0) hn fun hn => reads_fixed rfl NbtTag.short value hn
      | int value =>
          subst hbytes
          dsimp only [NbtTag.id]
          exact Reads.payload (k := 0) hn fun hn => reads_fixed rfl NbtTag.int value hn
      | long value =>
          subst hbytes
          dsimp only [NbtTag.id]
          exact Reads.payload (k := 0) hn fun hn => reads_fixed rfl NbtTag.long value hn
      | float bits =>
          subst hbytes
          dsimp only [NbtTag.id]
          exact Reads.payload (k := 0) hn fun hn => reads_fixed rfl NbtTag.float bits hn
      | double bits =>
          subst hbytes
          dsimp only [NbtTag.id]
          exact Reads.payload (k := 0) hn fun hn => reads_fixed rfl NbtTag.double bits hn
      | string value =>
          dsimp only [NbtTag.id]
          refine Reads.payload (k := 0) hn fun hn => ?_
          exact (reads_onSrc hn (readNbtString_append hbytes rest)).map NbtTag.string
      | byteArray value =>
          obtain ⟨hlen, rfl⟩ := hbytes
          rw [List.length_append] at hfits
          have hlength : readLength t 1 (wordBytes (Int32.ofNat value.length) ++ (value ++ rest))
              = .ok value.length (value ++ rest) :=
            readLength_append t hlen (Nat.mul_one _).le (by omega)
          dsimp only [NbtTag.id]
          refine Reads.payload (k := 0) hn fun hn => ?_
          rw [List.append_assoc, Exec.bind_apply, onSrc_ok hlength, Outcome.bind_ok]
          exact (reads_onSrc hn (Exec.take_append value rest)).map NbtTag.byteArray
      | intArray values =>
          obtain ⟨hlen, rfl⟩ := hbytes
          rw [List.length_append] at hfits
          rw [List.append_assoc]
          dsimp only [NbtTag.id]
          refine Reads.payload (k := 0) hn fun hn => ?_
          exact reads_words t rfl NbtTag.intArray values hn hlen (by omega)
      | longArray values =>
          obtain ⟨hlen, rfl⟩ := hbytes
          rw [List.length_append] at hfits
          rw [List.append_assoc]
          dsimp only [NbtTag.id]
          refine Reads.payload (k := 0) hn fun hn => ?_
          exact reads_words t rfl NbtTag.longArray values hn hlen (by omega)
      | compound c =>
          obtain ⟨hnodup, -⟩ := NbtCompound.wf_iff.mp hwf
          dsimp only [NbtTag.id]
          refine Reads.payload hn fun hn => ?_
          simp only [Exec.bind_apply, usize_depth t hdepth, Exec.pure_apply, Outcome.bind_ok]
          refine (reads_compoundBody hnodup (fun entry hmem => ?_) hbytes hfits hn).map NbtTag.compound
          exact hchildren entry.2 (List.mem_map_of_mem hmem)
      | list l =>
          obtain ⟨elementType, items⟩ := l
          obtain ⟨hids, -⟩ := NbtList.wf_iff.mp hwf
          obtain ⟨hlen, p, hp, rfl⟩ := hbytes
          have hmul : items.length * minElementSize elementType ≤ p.length :=
            items_length_mul_le hids hp
          replace hlen : items.length < 2147483648 := hlen
          simp only [List.length_cons, List.length_append] at hfits
          have hlength : readLength t (minElementSize elementType)
              (wordBytes (Int32.ofNat items.length) ++ (p ++ rest)) = .ok items.length (p ++ rest) :=
            readLength_append t hlen hmul (by omega)
          dsimp only [NbtTag.id]
          rw [List.cons_append, List.append_assoc]
          refine Reads.payload hn fun hn => ?_
          exact reads_list hdepth hwf hchildren hlength hp (by omega) hn

/-! ## Roots -/

/-- What a root reader returns on written bytes: the document, or `TooManyNodes` when the document
    has more tags than the budget. -/
def RootReads (o : Outcome NbtError Bytes α) (d : NbtCompound) (a : α) (rest : Bytes) : Prop :=
  (d.nodes ≤ maxTotalNodes → o = .ok a rest) ∧
    (maxTotalNodes < d.nodes → ∃ left, o = .error (.tooManyNodes maxTotalNodes) left)

theorem RootReads.map {o : Outcome NbtError Bytes α} {d : NbtCompound} {a : α} {rest : Bytes}
    (h : RootReads o d a rest) (f : α → β) :
    RootReads (o.bind fun a => Pure.pure (f a)) d (f a) rest := by
  refine ⟨fun hle => by rw [h.1 hle]; rfl, fun hgt => ?_⟩
  obtain ⟨left, hleft⟩ := h.2 hgt
  exact ⟨left, by rw [hleft]; rfl⟩

theorem readRootBody_append {t : Target} {d : NbtCompound} (hwf : d.Wf) {p rest : Bytes}
    (hp : (writeCompoundBody d 1).Writes p ()) (hfits : p.length + rest.length ≤ t.usizeMax) :
    RootReads (readRootBody t (p ++ rest)) d d rest := by
  obtain ⟨hnodup, hvalues⟩ := NbtCompound.wf_iff.mp hwf
  have hreads := reads_compoundBody hnodup (fun entry hmem => payloadReads t entry.2 (hvalues entry hmem))
    hp hfits (Nat.zero_le maxTotalNodes)
  rw [Reads, Nat.zero_add] at hreads
  unfold readRootBody
  constructor
  · intro hle
    rw [if_pos hle] at hreads
    rw [hreads]
  · intro hgt
    rw [if_neg (Nat.not_le.mpr hgt)] at hreads
    obtain ⟨s, hs⟩ := hreads
    rw [hs]
    exact ⟨s.src, rfl⟩

theorem writes_networkRoot {d : NbtCompound} {p : Bytes} {u : Unit} :
    (writeNetworkRoot d).Writes p u ↔
      ∃ body, (writeCompoundBody d 1).Writes body () ∧ p = TagId.compound.toU8 :: body := by
  simp [writeNetworkRoot, wordBytes_u8]

theorem writes_namedRoot {name : String} {d : NbtCompound} {p : Bytes} {u : Unit} :
    (writeNamedRoot name d).Writes p u ↔
      ∃ q body, (writeNbtString name).Writes q () ∧ (writeCompoundBody d 1).Writes body () ∧
        p = TagId.compound.toU8 :: (q ++ body) := by
  simp only [writeNamedRoot, Put.writes_seq, Put.writes_word, wordBytes_u8]
  constructor
  · intro hparts
    obtain ⟨_, _, rfl, ⟨q, body, hq, hbody, rfl⟩, rfl⟩ := hparts
    exact ⟨q, body, hq, hbody, rfl⟩
  · intro hparts
    obtain ⟨q, body, hq, hbody, rfl⟩ := hparts
    exact ⟨_, _, rfl, ⟨q, body, hq, hbody, rfl⟩, rfl⟩

theorem readNetworkRoot_append {t : Target} {d : NbtCompound} (hwf : d.Wf) {p rest : Bytes}
    (hp : (writeNetworkRoot d).Writes p ()) (hfits : p.length + rest.length ≤ t.usizeMax) :
    RootReads (readNetworkRoot t (p ++ rest)) d d rest := by
  obtain ⟨body, hbody, rfl⟩ := writes_networkRoot.mp hp
  have hread : RootReads (readRootBody t (body ++ rest)) d d rest :=
    readRootBody_append hwf hbody (by rw [List.length_cons] at hfits; omega)
  simpa [readNetworkRoot, readTagId_append] using hread

theorem readNamedRoot_append {t : Target} {name : String} {d : NbtCompound} (hwf : d.Wf)
    {p rest : Bytes} (hp : (writeNamedRoot name d).Writes p ())
    (hfits : p.length + rest.length ≤ t.usizeMax) :
    RootReads (readNamedRoot t (p ++ rest)) d (name, d) rest := by
  obtain ⟨q, body, hq, hbody, rfl⟩ := writes_namedRoot.mp hp
  simp only [List.length_cons, List.length_append] at hfits
  have hread : RootReads (readRootBody t (body ++ rest)) d d rest :=
    readRootBody_append hwf hbody (by omega)
  have hname := readNbtString_append hq (body ++ rest)
  simpa [readNamedRoot, readTagId_append, hname] using hread.map (name, ·)

end Pyrite.Nbt
