import Pyrite.Nbt.Invariant

set_option autoImplicit false

/-! # What the decoder accepts

One specification of the two recursive readers, from arbitrary bytes. It says that they never panic and
always end; that an accepted tag has the requested type, is well-formed and was counted exactly; and
that the bytes it was read from are the bytes the writer produces for it, at the same depth. That the
decoder accepts one encoding per document, that every decoded document can be written again, and the
representation invariant of decoded trees all follow from it. -/

namespace Pyrite.Nbt

open Wire

/-! ## What the recursive writers write -/

theorem writes_compoundBody {c : NbtCompound} {depth : Nat} {bs : Bytes} {u : Unit} :
    (writeCompoundBody c depth).Writes bs u ↔ depth ≤ maxDepth ∧
      ∃ p, (writeEntries c.entries depth).Writes p () ∧ bs = p ++ [TagId.endTag.toU8] := by
  obtain ⟨entries⟩ := c
  rw [writeCompoundBody]
  by_cases hdepth : depth > maxDepth
  · simp [hdepth, Nat.not_le.mpr hdepth]
  · simp [hdepth, Nat.not_lt.mp hdepth, wordBytes_u8]

theorem writes_entries_cons {name : String} {tag : NbtTag} {rest : List (String × NbtTag)}
    {depth : Nat} {bs : Bytes} {u : Unit} :
    (writeEntries ((name, tag) :: rest) depth).Writes bs u ↔
      ∃ p q r, (writeNbtString name).Writes p () ∧ (writePayload tag depth).Writes q () ∧
        (writeEntries rest depth).Writes r () ∧ bs = tag.id.toU8 :: (p ++ q ++ r) := by
  rw [writeEntries]
  simp only [Put.writes_seq, Put.writes_word, wordBytes_u8]
  constructor
  · intro hparts
    obtain ⟨_, _, rfl, ⟨p, _, hp, ⟨q, r, hq, hr, rfl⟩, rfl⟩, rfl⟩ := hparts
    exact ⟨p, q, r, hp, hq, hr, by simp⟩
  · intro hparts
    obtain ⟨p, q, r, hp, hq, hr, rfl⟩ := hparts
    exact ⟨_, _, rfl, ⟨p, _, hp, ⟨q, r, hq, hr, rfl⟩, rfl⟩, by simp⟩

theorem writes_entries_append {xs ys : List (String × NbtTag)} {depth : Nat} {bs : Bytes} {u : Unit} :
    (writeEntries (xs ++ ys) depth).Writes bs u ↔
      ∃ p q, (writeEntries xs depth).Writes p () ∧ (writeEntries ys depth).Writes q () ∧
        bs = p ++ q := by
  induction xs generalizing bs with
  | nil => simp [writeEntries]
  | cons x xs ih =>
      obtain ⟨name, tag⟩ := x
      simp only [List.cons_append, writes_entries_cons, ih]
      constructor
      · intro hparts
        obtain ⟨p, q, r, hp, hq, ⟨r₁, r₂, h₁, h₂, rfl⟩, rfl⟩ := hparts
        exact ⟨_, r₂, ⟨p, q, r₁, hp, hq, h₁, rfl⟩, h₂, by simp⟩
      · intro hparts
        obtain ⟨_, r₂, ⟨p, q, r₁, hp, hq, h₁, rfl⟩, h₂, rfl⟩ := hparts
        exact ⟨p, q, r₁ ++ r₂, hp, hq, ⟨r₁, r₂, h₁, h₂, rfl⟩, by simp⟩

theorem writes_items_cons {item : NbtTag} {rest : List NbtTag} {depth : Nat} {bs : Bytes} {u : Unit} :
    (writeItems (item :: rest) depth).Writes bs u ↔
      ∃ p q, (writePayload item depth).Writes p () ∧ (writeItems rest depth).Writes q () ∧
        bs = p ++ q := by
  rw [writeItems, Put.writes_seq]

theorem writes_items_append {xs ys : List NbtTag} {depth : Nat} {bs : Bytes} {u : Unit} :
    (writeItems (xs ++ ys) depth).Writes bs u ↔
      ∃ p q, (writeItems xs depth).Writes p () ∧ (writeItems ys depth).Writes q () ∧ bs = p ++ q := by
  induction xs generalizing bs with
  | nil => simp [writeItems]
  | cons x xs ih =>
      simp only [List.cons_append, writes_items_cons, ih]
      constructor
      · intro hparts
        obtain ⟨p, q, hp, ⟨q₁, q₂, h₁, h₂, rfl⟩, rfl⟩ := hparts
        exact ⟨_, q₂, ⟨p, q₁, hp, h₁, rfl⟩, h₂, by simp⟩
      · intro hparts
        obtain ⟨_, q₂, ⟨p, q₁, hp, h₁, rfl⟩, h₂, rfl⟩ := hparts
        exact ⟨p, q₁ ++ q₂, hp, ⟨q₁, q₂, h₁, h₂, rfl⟩, by simp⟩

/-- The payload each constructor writes, within the depth limit. -/
def PayloadBytes (depth : Nat) (bs : Bytes) : NbtTag → Prop
  | .byte value => bs = wordBytes value
  | .short value => bs = wordBytes value
  | .int value => bs = wordBytes value
  | .long value => bs = wordBytes value
  | .float bits => bs = wordBytes bits
  | .double bits => bs = wordBytes bits
  | .byteArray value =>
    value.length < 2147483648 ∧ bs = wordBytes (Int32.ofNat value.length) ++ value
  | .string value => (writeNbtString value).Writes bs ()
  | .list l => l.items.length < 2147483648 ∧ ∃ p, (writeItems l.items (depth + 1)).Writes p () ∧
    bs = l.elementType.toU8 :: (wordBytes (Int32.ofNat l.items.length) ++ p)
  | .compound c => (writeCompoundBody c (depth + 1)).Writes bs ()
  | .intArray values =>
    values.length < 2147483648 ∧
      bs = wordBytes (Int32.ofNat values.length) ++ values.flatMap wordBytes
  | .longArray values =>
    values.length < 2147483648 ∧
      bs = wordBytes (Int32.ofNat values.length) ++ values.flatMap wordBytes

theorem writes_payload {tag : NbtTag} {depth : Nat} {bs : Bytes} {u : Unit} :
    (writePayload tag depth).Writes bs u ↔ depth ≤ maxDepth ∧ PayloadBytes depth bs tag := by
  by_cases hdepth : depth > maxDepth
  · unfold writePayload
    simp [hdepth, Nat.not_le.mpr hdepth]
  have hle : depth ≤ maxDepth := Nat.not_lt.mp hdepth
  cases tag with
  | list l =>
      obtain ⟨elementType, items⟩ := l
      rw [writePayload, if_neg hdepth]
      simp only [PayloadBytes, Put.writes_seq, Put.writes_word, Put.writes_lift_bind,
        arrayLen_eq_ok, wordBytes_u8]
      constructor
      · intro hparts
        obtain ⟨_, _, rfl, ⟨_, ⟨hlen, rfl⟩, ⟨_, p, rfl, hp, rfl⟩⟩, rfl⟩ := hparts
        exact ⟨hle, hlen, p, hp, by simp⟩
      · intro hparts
        obtain ⟨-, hlen, p, hp, rfl⟩ := hparts
        exact ⟨_, _, rfl, ⟨_, ⟨hlen, rfl⟩, ⟨_, p, rfl, hp, rfl⟩⟩, by simp⟩
  | _ => simp [writePayload, hdepth, hle, PayloadBytes, and_assoc]

/-! ## Steps of the recursive readers -/

theorem onSrc_spec {α : Type} {m : Exec NbtError Bytes α} {s : ReadState} {Q : α → Bytes → Prop}
    {E : NbtError → Bytes → Prop} (h : (m s.src).Satisfies Q E) :
    (onSrc m s).Satisfies (fun a s' => Q a s'.src ∧ s'.nodes = s.nodes) (fun _ _ => True) :=
  Exec.zoom_spec h (fun _ _ hQ => ⟨hQ, rfl⟩) (fun _ _ _ => trivial)

/-- The depth limit keeps `depth + 1` within `usize`. -/
theorem usize_depth (t : Target) {depth : Nat} (h : depth ≤ maxDepth) :
    (Exec.usize t (depth + 1) : Exec NbtError ReadState Nat) = pure (depth + 1) := by
  unfold maxDepth at h
  exact Exec.usize_of_lt t (by omega)

theorem countNode_eq (t : Target) {s : ReadState} (h : s.nodes ≤ maxTotalNodes) :
    countNode t s = if s.nodes + 1 > maxTotalNodes
      then .error (.tooManyNodes maxTotalNodes) { s with nodes := s.nodes + 1 }
      else .ok () { s with nodes := s.nodes + 1 } := by
  have hsmall : s.nodes + 1 < 2 ^ 32 := by
    unfold maxTotalNodes at h
    omega
  simp only [countNode, Exec.bind_apply, Exec.state_apply, Outcome.bind_ok, Exec.usize_of_lt t hsmall,
    Exec.pure_apply, Exec.setState_apply, Exec.ite_apply, Exec.throw_apply]

theorem countNode_spec (t : Target) {s : ReadState} (h : s.nodes ≤ maxTotalNodes) :
    (countNode t s).Satisfies
      (fun _ s' => s' = { s with nodes := s.nodes + 1 } ∧ s.nodes + 1 ≤ maxTotalNodes)
      (fun _ _ => True) := by
  rw [countNode_eq t h]
  by_cases hbudget : s.nodes + 1 > maxTotalNodes
  · rw [if_pos hbudget]
    trivial
  · rw [if_neg hbudget]
    exact ⟨rfl, Nat.not_lt.mp hbudget⟩

/-- Everything known of a tag of type `id` that `readPayload` read at `depth` from `s`, leaving `s'`. -/
structure TagRead (id : TagId) (depth : Nat) (s : ReadState) (tag : NbtTag) (s' : ReadState) : Prop where
  id_eq : tag.id = id
  wf : tag.Wf
  bytes : ∃ bs, (writePayload tag depth).Writes bs () ∧ s.src = bs ++ s'.src
  nodes : s'.nodes = s.nodes + tag.nodes
  budget : s'.nodes ≤ maxTotalNodes

/-- The same of a compound that `readCompoundBody` read. -/
structure CompoundRead (depth : Nat) (s : ReadState) (c : NbtCompound) (s' : ReadState) : Prop where
  wf : c.Wf
  bytes : ∃ bs, (writeCompoundBody c depth).Writes bs () ∧ s.src = bs ++ s'.src
  nodes : s'.nodes = s.nodes + c.nodes
  budget : s'.nodes ≤ maxTotalNodes

/-- The loop invariant of `readCompoundBody`: what the entries pushed so far were read from. -/
structure EntriesRead (depth : Nat) (s : ReadState) (c : NbtCompound) (s' : ReadState) : Prop where
  wf : ∀ entry ∈ c.entries, entry.2.Wf
  bytes : ∃ bs, (writeEntries c.entries depth).Writes bs () ∧ s.src = bs ++ s'.src
  nodes : s'.nodes = s.nodes + c.nodes
  budget : s'.nodes ≤ maxTotalNodes

/-- The loop invariant of the element loop in `readPayload`. -/
structure ItemsRead (id : TagId) (depth : Nat) (s : ReadState) (items : List NbtTag) (s' : ReadState) :
    Prop where
  id_eq : ∀ item ∈ items, item.id = id
  wf : ∀ item ∈ items, item.Wf
  bytes : ∃ bs, (writeItems items depth).Writes bs () ∧ s.src = bs ++ s'.src
  nodes : s'.nodes = s.nodes + itemsNodes items
  budget : s'.nodes ≤ maxTotalNodes

theorem EntriesRead.push {depth : Nat} {s s₁ s₂ : ReadState} {c : NbtCompound} {name : String}
    {id : TagId} {value : NbtTag} {src : Bytes} (h : EntriesRead depth s c s₁)
    (hid : s₁.src = id.toU8 :: src) {p : Bytes} (hp : (writeNbtString name).Writes p ())
    {s₁' : ReadState} (hsrc : src = p ++ s₁'.src) (hnodes : s₁'.nodes = s₁.nodes)
    (hvalue : TagRead id depth s₁' value s₂) : EntriesRead depth s (c.push name value) s₂ := by
  obtain ⟨bs, hbs, hs⟩ := h.bytes
  obtain ⟨q, hq, hs₁'⟩ := hvalue.bytes
  refine ⟨?_, ?_, ?_, hvalue.budget⟩
  · intro entry hmem
    rcases List.mem_append.mp hmem with hmem | hmem
    · exact h.wf entry hmem
    · rw [List.mem_singleton.mp hmem]
      exact hvalue.wf
  · have hentry : (writeEntries [(name, value)] depth).Writes (id.toU8 :: (p ++ q)) () := by
      refine writes_entries_cons.mpr ⟨p, q, [], hp, hq, ?_, ?_⟩
      · simp [writeEntries]
      · simp [hvalue.id_eq]
    refine ⟨_, writes_entries_append.mpr ⟨bs, _, hbs, hentry, rfl⟩, ?_⟩
    rw [hs, hid, hsrc, hs₁']
    simp
  · have hadd := entriesNodes_append c.entries [(name, value)]
    have hone : entriesNodes [(name, value)] = value.nodes := by simp [entriesNodes]
    have hold : c.nodes = entriesNodes c.entries := by cases c; rfl
    have hnew : (c.push name value).nodes = entriesNodes (c.entries ++ [(name, value)]) := rfl
    have h₁ := h.nodes
    have h₂ := hvalue.nodes
    omega

theorem ItemsRead.snoc {id : TagId} {depth : Nat} {s s₁ s₂ : ReadState} {items : List NbtTag}
    {item : NbtTag} (h : ItemsRead id depth s items s₁) (hitem : TagRead id depth s₁ item s₂) :
    ItemsRead id depth s (items ++ [item]) s₂ := by
  obtain ⟨bs, hbs, hs⟩ := h.bytes
  obtain ⟨q, hq, hs₁⟩ := hitem.bytes
  refine ⟨?_, ?_, ?_, ?_, hitem.budget⟩
  · intro x hmem
    rcases List.mem_append.mp hmem with hmem | hmem
    · exact h.id_eq x hmem
    · rw [List.mem_singleton.mp hmem]
      exact hitem.id_eq
  · intro x hmem
    rcases List.mem_append.mp hmem with hmem | hmem
    · exact h.wf x hmem
    · rw [List.mem_singleton.mp hmem]
      exact hitem.wf
  · have hone : (writeItems [item] depth).Writes q () := by
      refine writes_items_cons.mpr ⟨q, [], hq, ?_, (List.append_nil q).symm⟩
      simp [writeItems]
    refine ⟨bs ++ q, writes_items_append.mpr ⟨bs, q, hbs, hone, rfl⟩, ?_⟩
    rw [hs, hs₁, List.append_assoc]
  · have hadd := itemsNodes_append items [item]
    have hone : itemsNodes [item] = item.nodes := by simp [itemsNodes]
    have h₁ := h.nodes
    have h₂ := hitem.nodes
    omega

/-! ## The recursive readers -/

/-- The specification of `readPayload` at one depth. -/
def PayloadSpec (t : Target) (depth : Nat) : Prop :=
  ∀ (id : TagId) (s : ReadState), s.nodes ≤ maxTotalNodes →
    (readPayload t id depth s).Satisfies (TagRead id depth s) (fun _ _ => True)

/-- One round of the compound loop: either the compound is finished, and its names are distinct, or
    one more entry was read and at least its type byte is gone. -/
theorem readEntry_spec {t : Target} {depth : Nat} (hpayload : PayloadSpec t depth)
    (hdepth : depth ≤ maxDepth) (s : ReadState) (c : NbtCompound) (s₁ : ReadState)
    (h : EntriesRead depth s c s₁) :
    (readEntry (fun id => readPayload t id depth) c s₁).Satisfies
      (fun r s₂ => r.elim
        (fun c' => EntriesRead depth s c' s₂ ∧ s₂.src.length < s₁.src.length)
        (fun c' => CompoundRead depth s c' s₂)) (fun _ _ => True) := by
  unfold readEntry
  refine (onSrc_spec (readTagId_spec s₁.src)).bind fun id s₂ hid => ?_
  obtain ⟨hid, hnodes₂⟩ := hid
  rw [Exec.ite_apply]
  by_cases hend : id = .endTag
  · rw [if_pos hend]
    refine (rejectDuplicateKeys_spec c s₂).seq (fun _ _ _ => trivial) ?_
    intro _ _ hpost
    obtain ⟨rfl, hnodup⟩ := hpost
    obtain ⟨bs, hbs, hs⟩ := h.bytes
    refine ⟨NbtCompound.wf_iff.mpr ⟨hnodup, h.wf⟩, ?_, by rw [hnodes₂, h.nodes], hnodes₂ ▸ h.budget⟩
    refine ⟨bs ++ [id.toU8], writes_compoundBody.mpr ⟨hdepth, bs, hbs, by rw [hend]⟩, ?_⟩
    rw [hs, hid]
    simp
  · rw [if_neg hend]
    refine (onSrc_spec (readNbtString_spec s₂.src)).bind fun name s₃ hname => ?_
    obtain ⟨⟨p, hp, hsrc₂⟩, hnodes₃⟩ := hname
    have hbudget : s₃.nodes ≤ maxTotalNodes := by rw [hnodes₃, hnodes₂]; exact h.budget
    refine (hpayload id s₃ hbudget).bind fun value s₄ hvalue => ?_
    refine ⟨h.push hid hp hsrc₂ (hnodes₃.trans hnodes₂) hvalue, ?_⟩
    obtain ⟨q, -, hsrc₃⟩ := hvalue.bytes
    rw [hid, hsrc₂, hsrc₃]
    simp only [List.length_cons, List.length_append]
    omega

theorem readCompoundBody_spec_of {t : Target} {depth : Nat} (hpayload : PayloadSpec t depth)
    {s : ReadState} (hs : s.nodes ≤ maxTotalNodes) :
    (readCompoundBody t depth s).Satisfies (CompoundRead depth s) (fun _ _ => True) := by
  rw [readCompoundBody]
  by_cases hdepth : depth > maxDepth
  · simp [hdepth]
  rw [if_neg hdepth]
  refine Exec.loop_spec (EntriesRead depth s) (fun s => s.src.length)
    (fun c s₁ h => readEntry_spec hpayload (Nat.not_lt.mp hdepth) s c s₁ h) _ _ ?_
  refine ⟨by simp [NbtCompound.new], ⟨[], ?_, rfl⟩, rfl, hs⟩
  simp [NbtCompound.new, writeEntries]

/-- A tag without tags below it is well-formed and counts once. -/
theorem TagRead.of_leaf {id : TagId} {depth : Nat} {s s₁ s₂ : ReadState} {tag : NbtTag} {bs : Bytes}
    (hdepth : depth ≤ maxDepth) (hs₁ : s₁ = { s with nodes := s.nodes + 1 })
    (hbudget : s.nodes + 1 ≤ maxTotalNodes) (hid : tag.id = id) (hleaf : id ≠ .list ∧ id ≠ .compound)
    (hbytes : PayloadBytes depth bs tag)
    (hsrc : s₁.src = bs ++ s₂.src) (hnodes : s₂.nodes = s₁.nodes) : TagRead id depth s tag s₂ := by
  subst hs₁ hid
  have hone : tag.nodes = 1 ∧ tag.Wf := by
    cases tag with
    | list l => exact absurd rfl hleaf.1
    | compound c => exact absurd rfl hleaf.2
    | _ => exact ⟨rfl, trivial⟩
  refine ⟨rfl, hone.2, ⟨bs, writes_payload.mpr ⟨hdepth, hbytes⟩, hsrc⟩, ?_, ?_⟩
  · rw [hnodes, hone.1]
  · rw [hnodes]
    exact hbudget

/-- The scalar cases of `readPayload`. -/
theorem TagRead.fixed_spec {α : Type} [Word α] {id : TagId} {size depth : Nat} {s s₁ : ReadState}
    (hdepth : depth ≤ maxDepth) (hs₁ : s₁ = { s with nodes := s.nodes + 1 })
    (hbudget : s.nodes + 1 ≤ maxTotalNodes) (hleaf : id ≠ .list ∧ id ≠ .compound)
    (variant : α → NbtTag) (hsize : Word.size α = size) (hid : ∀ value, (variant value).id = id)
    (hbytes : ∀ value, PayloadBytes depth (wordBytes value) (variant value)) :
    (onSrc (fixed size variant) s₁).Satisfies (TagRead id depth s) (fun _ _ => True) := by
  refine (onSrc_spec (Nbt.fixed_spec hsize variant s₁.src)).mono ?_ (fun _ _ h => h)
  intro _ s₂ hpost
  obtain ⟨⟨value, rfl, hsrc⟩, hnodes⟩ := hpost
  exact TagRead.of_leaf hdepth hs₁ hbudget (hid value) hleaf (hbytes value) hsrc hnodes

/-- The integer-array cases of `readPayload`. -/
theorem TagRead.words_spec {α : Type} [Word α] {id : TagId} {size depth : Nat} {s s₁ : ReadState}
    (t : Target) (hdepth : depth ≤ maxDepth) (hs₁ : s₁ = { s with nodes := s.nodes + 1 })
    (hbudget : s.nodes + 1 ≤ maxTotalNodes) (hleaf : id ≠ .list ∧ id ≠ .compound)
    (variant : List α → NbtTag) (hsize : Word.size α = size) (hid : ∀ values, (variant values).id = id)
    (hbytes : ∀ values, values.length < 2147483648 →
      PayloadBytes depth (wordBytes (Int32.ofNat values.length) ++ values.flatMap wordBytes)
        (variant values)) :
    ((do
      let len ← onSrc (readLength t size)
      let values ← onSrc (Exec.times (Exec.get : Exec NbtError Bytes α) len)
      pure (variant values) : Exec NbtError ReadState NbtTag) s₁).Satisfies (TagRead id depth s)
        (fun _ _ => True) := by
  refine (onSrc_spec (readLength_spec t size s₁.src)).bind fun len s₂ hlen => ?_
  obtain ⟨⟨hlen, hsrc₂, hfits⟩, hnodes₂⟩ := hlen
  refine (onSrc_spec (times_get_spec len s₂.src (hsize ▸ hfits))).bind fun values s₃ hvalues => ?_
  obtain ⟨⟨rfl, hsrc₃⟩, hnodes₃⟩ := hvalues
  refine TagRead.of_leaf hdepth hs₁ hbudget (hid values) hleaf (hbytes values hlen) ?_
    (hnodes₃.trans hnodes₂)
  rw [hsrc₂, hsrc₃, List.append_assoc]

/-- A list is its element type, its length and its elements. -/
theorem TagRead.of_items {elementType : TagId} {depth : Nat} {s s₁ s₂ : ReadState} {items : List NbtTag}
    (hdepth : depth ≤ maxDepth) (hlen : items.length < 2147483648)
    (hsrc : s.src = elementType.toU8 :: (wordBytes (Int32.ofNat items.length) ++ s₁.src))
    (hnodes : s₁.nodes = s.nodes + 1) (hitems : ItemsRead elementType (depth + 1) s₁ items s₂) :
    TagRead .list depth s (.list (NbtList.fromParts elementType items)) s₂ := by
  obtain ⟨bs, hbs, hsrc₁⟩ := hitems.bytes
  refine ⟨rfl, NbtList.wf_iff.mpr ⟨hitems.id_eq, hitems.wf⟩, ?_, ?_, hitems.budget⟩
  · refine ⟨_, writes_payload.mpr ⟨hdepth, hlen, bs, hbs, rfl⟩, ?_⟩
    rw [hsrc, hsrc₁]
    simp [NbtList.fromParts]
  · have hcount := hitems.nodes
    simp only [NbtTag.nodes, NbtList.fromParts, NbtList.nodes]
    omega

theorem TagRead.of_compound {depth : Nat} {s s₁ s₂ : ReadState} {c : NbtCompound} (hdepth : depth ≤ maxDepth)
    (hs₁ : s₁ = { s with nodes := s.nodes + 1 }) (hc : CompoundRead (depth + 1) s₁ c s₂) :
    TagRead .compound depth s (.compound c) s₂ := by
  have hnodes : s₁.nodes = s.nodes + 1 := by rw [hs₁]
  obtain ⟨bs, hbs, hsrc⟩ := hc.bytes
  refine ⟨rfl, hc.wf, ⟨bs, writes_payload.mpr ⟨hdepth, hbs⟩, ?_⟩, ?_, hc.budget⟩
  · rw [← hsrc, hs₁]
  · rw [hc.nodes, hnodes, NbtTag.nodes]
    omega

/-- The element loop: every round appends one tag of the element type. -/
theorem readItems_spec_of {t : Target} {depth : Nat} (hdepth : depth ≤ maxDepth)
    (hpayload : PayloadSpec t (depth + 1)) (elementType : TagId) {s : ReadState}
    (hs : s.nodes ≤ maxTotalNodes) (len : Nat) :
    (Exec.times (do
        let _ ← Exec.usize t (depth + 1)
        readPayload t elementType (depth + 1)) len s).Satisfies
      (fun items s' => items.length = len ∧ ItemsRead elementType (depth + 1) s items s')
      (fun _ _ => True) := by
  have hempty : ItemsRead elementType (depth + 1) s [] s :=
    ⟨by simp, by simp, ⟨[], by simp [writeItems], rfl⟩, by simp [itemsNodes], hs⟩
  refine Exec.times_spec (ItemsRead elementType (depth + 1) s) ?_ len [] s hempty
  intro items s' h
  simp only [Exec.bind_apply, usize_depth t hdepth, Exec.pure_apply, Outcome.bind_ok]
  exact (hpayload elementType s' h.budget).mono (fun _ _ hitem => h.snoc hitem) (fun _ _ h => h)

theorem readPayload_spec_of {t : Target} {depth : Nat} (hdepth : depth ≤ maxDepth)
    (ih : PayloadSpec t (depth + 1)) : PayloadSpec t depth := by
  intro id s hs
  rw [readPayload.eq_def, if_neg (Nat.not_lt.mpr hdepth)]
  refine (countNode_spec t hs).bind fun _ s₁ hcount => ?_
  obtain ⟨hs₁, hbudget⟩ := hcount
  have hs₁budget : s₁.nodes ≤ maxTotalNodes := by rw [hs₁]; exact hbudget
  cases id with
  | endTag => trivial
  | byte =>
      exact TagRead.fixed_spec hdepth hs₁ hbudget (by decide) NbtTag.byte rfl (fun _ => rfl) (fun _ => rfl)
  | short =>
      exact TagRead.fixed_spec hdepth hs₁ hbudget (by decide) NbtTag.short rfl (fun _ => rfl) (fun _ => rfl)
  | int =>
      exact TagRead.fixed_spec hdepth hs₁ hbudget (by decide) NbtTag.int rfl (fun _ => rfl) (fun _ => rfl)
  | long =>
      exact TagRead.fixed_spec hdepth hs₁ hbudget (by decide) NbtTag.long rfl (fun _ => rfl) (fun _ => rfl)
  | float =>
      exact TagRead.fixed_spec hdepth hs₁ hbudget (by decide) NbtTag.float rfl (fun _ => rfl) (fun _ => rfl)
  | double =>
      exact TagRead.fixed_spec hdepth hs₁ hbudget (by decide) NbtTag.double rfl (fun _ => rfl) (fun _ => rfl)
  | byteArray =>
      refine (onSrc_spec (readLength_spec t 1 s₁.src)).bind fun len s₂ hlen => ?_
      obtain ⟨⟨hlen, hsrc₂, hfits⟩, hnodes₂⟩ := hlen
      refine (onSrc_spec (Exec.take_spec (E := fun _ _ => True) (by omega))).bind fun value s₃ hvalue => ?_
      obtain ⟨⟨hsrc₃, rfl⟩, hnodes₃⟩ := hvalue
      refine TagRead.of_leaf hdepth hs₁ hbudget rfl (by decide) ⟨hlen, rfl⟩ ?_ (hnodes₃.trans hnodes₂)
      rw [hsrc₂, hsrc₃, List.append_assoc]
  | string =>
      refine (onSrc_spec (readNbtString_spec s₁.src)).bind fun value s₂ hvalue => ?_
      obtain ⟨⟨bs, hbs, hsrc⟩, hnodes⟩ := hvalue
      exact TagRead.of_leaf hdepth hs₁ hbudget rfl (by decide) hbs hsrc hnodes
  | list =>
      refine (onSrc_spec (readTagId_spec s₁.src)).bind fun elementType s₂ hid => ?_
      obtain ⟨hsrc₂, hnodes₂⟩ := hid
      refine (onSrc_spec (readLength_spec t _ s₂.src)).bind fun len s₃ hlen => ?_
      obtain ⟨⟨hlen, hsrc₃, -⟩, hnodes₃⟩ := hlen
      rw [Exec.ite_apply]
      by_cases hend : elementType = .endTag ∧ len ≠ 0
      · rw [if_pos hend]
        trivial
      rw [if_neg hend]
      have hs₃ : s₃.nodes = s.nodes + 1 := by rw [hnodes₃, hnodes₂, hs₁]
      have hbudget₃ : s₃.nodes ≤ maxTotalNodes := by rw [hs₃]; exact hbudget
      refine (readItems_spec_of hdepth ih elementType hbudget₃ len).bind fun items s₄ hitems => ?_
      obtain ⟨rfl, hitems⟩ := hitems
      have hsrc : s.src = s₁.src := by rw [hs₁]
      exact .of_items hdepth hlen (by rw [hsrc, hsrc₂, hsrc₃]) hs₃ hitems
  | compound =>
      simp only [Exec.bind_apply, usize_depth t hdepth, Exec.pure_apply, Outcome.bind_ok]
      exact (readCompoundBody_spec_of ih hs₁budget).bind fun c s₂ hc => .of_compound hdepth hs₁ hc
  | intArray =>
      exact TagRead.words_spec t hdepth hs₁ hbudget (by decide) NbtTag.intArray rfl (fun _ => rfl)
        (fun _ hlen => ⟨hlen, rfl⟩)
  | longArray =>
      exact TagRead.words_spec t hdepth hs₁ hbudget (by decide) NbtTag.longArray rfl (fun _ => rfl)
        (fun _ hlen => ⟨hlen, rfl⟩)

/-- `readPayload`, at every depth: by downward induction from the limit, where it only fails. -/
theorem readPayload_spec (t : Target) (depth : Nat) : PayloadSpec t depth := by
  by_cases hdepth : depth ≤ maxDepth
  · exact readPayload_spec_of hdepth (readPayload_spec t (depth + 1))
  · intro id s _
    rw [readPayload.eq_def, if_pos (Nat.not_le.mp hdepth)]
    trivial
termination_by maxDepth + 1 - depth

theorem readCompoundBody_spec (t : Target) (depth : Nat) {s : ReadState}
    (hs : s.nodes ≤ maxTotalNodes) :
    (readCompoundBody t depth s).Satisfies (CompoundRead depth s) (fun _ _ => True) :=
  readCompoundBody_spec_of (readPayload_spec t depth) hs

/-! ## Roots -/

/-- A decoded root compound: well-formed, within the budget, and read from the bytes that writing it
    produces. -/
structure RootRead (src : Bytes) (c : NbtCompound) (rest : Bytes) : Prop where
  wf : c.Wf
  budget : c.nodes ≤ maxTotalNodes
  bytes : ∃ bs, (writeCompoundBody c 1).Writes bs () ∧ src = bs ++ rest

theorem readRootBody_spec (t : Target) (src : Bytes) :
    (readRootBody t src).Satisfies (RootRead src) (fun _ _ => True) := by
  have h := readCompoundBody_spec t 1 (s := ⟨src, 0⟩) (Nat.zero_le _)
  unfold readRootBody
  cases hread : readCompoundBody t 1 ⟨src, 0⟩ with
  | ok c s =>
      rw [hread] at h
      have hnodes : s.nodes = c.nodes := by
        have hnodes := h.nodes
        simp only at hnodes
        omega
      exact ⟨h.wf, hnodes ▸ h.budget, h.bytes⟩
  | error e s => trivial
  | panic => rw [hread] at h; exact h
  | diverge => rw [hread] at h; exact h

theorem readNetworkRoot_spec (t : Target) (src : Bytes) :
    (readNetworkRoot t src).Satisfies
      (fun c rest => ∃ body, src = TagId.compound.toU8 :: body ∧ RootRead body c rest)
      (fun _ _ => True) := by
  refine (readTagId_spec src).bind fun id body hid => ?_
  rw [Exec.ite_apply]
  by_cases hcompound : id ≠ .compound
  · rw [if_pos hcompound]
    trivial
  rw [if_neg hcompound]
  refine (readRootBody_spec t body).mono (fun c rest h => ⟨body, ?_, h⟩) (fun _ _ h => h)
  rw [hid, not_not.mp hcompound]

theorem readNamedRoot_spec (t : Target) (src : Bytes) :
    (readNamedRoot t src).Satisfies
      (fun r rest => ∃ p body, (writeNbtString r.1).Writes p () ∧
        src = TagId.compound.toU8 :: (p ++ body) ∧ RootRead body r.2 rest)
      (fun _ _ => True) := by
  refine (readTagId_spec src).bind fun id src₁ hid => ?_
  rw [Exec.ite_apply]
  by_cases hcompound : id ≠ .compound
  · rw [if_pos hcompound]
    trivial
  rw [if_neg hcompound]
  refine (readNbtString_spec src₁).bind fun name body hname => ?_
  obtain ⟨p, hp, hsrc₁⟩ := hname
  refine (readRootBody_spec t body).bind fun c rest h => ?_
  refine ⟨p, body, hp, ?_, h⟩
  rw [hid, hsrc₁, not_not.mp hcompound]

theorem readOptionalNetworkRoot_spec (t : Target) (src : Bytes) :
    (readOptionalNetworkRoot t src).Satisfies
      (fun r rest => ∀ c, r = some c → ∃ body, src = TagId.compound.toU8 :: body ∧ RootRead body c rest)
      (fun _ _ => True) := by
  refine (readTagId_spec src).bind fun id body hid => ?_
  cases id with
  | endTag => exact fun c h => nomatch h
  | compound =>
      refine (readRootBody_spec t body).bind fun c rest h => ?_
      rintro _ ⟨rfl⟩
      exact ⟨body, hid, h⟩
  | _ => trivial

end Pyrite.Nbt
