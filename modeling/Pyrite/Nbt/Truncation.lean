import Pyrite.Nbt.Document
import Pyrite.Wire.Cut

set_option autoImplicit false

/-! # Truncated documents

Wherever a document is cut, its reader notices that bytes are missing, and no other check fires first
(`truncation_recognised`). The argument does not go through the document: every reader follows, on a first
part of its input, what it does on the whole, up to an error that says that the input has ended. A reader
that used up the whole cannot do so on a proper part, so it fails there. -/

namespace Pyrite.Nbt

open Wire

variable {α : Type} {more : Bytes}

/-- The errors that say that the input has ended too early. -/
def NbtError.Truncated : NbtError → Prop
  | .unexpectedEof => True
  | .lengthExceedsInput _ _ => True
  | _ => False

/-! ## Fields -/

theorem follows_orEof {n : Nat} {m : Exec NbtError Bytes α}
    (hm : ∀ src whole, Cut more src whole → n ≤ src.length →
      (m src).Tracks (Cut more) NbtError.Truncated (m whole)) :
    Exec.Follows (Cut more) NbtError.Truncated (do
      let remaining ← Exec.remaining
      if remaining < n then Exec.throw .unexpectedEof else m) :=
  Exec.follows_guarded (e := fun _ => NbtError.unexpectedEof) (fun _ => trivial) hm

theorem follows_tagId : Exec.Follows (Cut more) NbtError.Truncated readTagId := by
  intro src whole hcut
  unfold readTagId
  rw [Exec.bind_apply, Exec.bind_apply, Exec.remaining_apply, Exec.remaining_apply, Outcome.bind_ok,
    Outcome.bind_ok, Exec.ite_apply, Exec.ite_apply]
  cases src with
  | nil => exact Outcome.tracks_short trivial _ _
  | cons byte src =>
      obtain rfl : whole = byte :: (src ++ more) := hcut
      have hread : Exec.Follows (Cut more) NbtError.Truncated
          (Exec.ofExcept (TagId.tryFrom byte) : Exec NbtError Bytes TagId) :=
        Exec.follows_of_stateless ⟨_, rfl⟩
      simpa using hread src (src ++ more) rfl

theorem follows_nbtString : Exec.Follows (Cut more) NbtError.Truncated readNbtString := by
  refine follows_orEof fun src whole hcut hlong => ?_
  refine (Exec.get_tracks hcut hlong).bind fun prefixLen src₁ whole₁ _ _ hcut₁ => ?_
  refine Exec.follows_guarded (e := fun remaining => NbtError.lengthExceedsInput prefixLen.toNat remaining)
    (fun _ => trivial) (fun src whole hcut hlong => ?_) src₁ whole₁ hcut₁
  refine (Exec.take_tracks hcut hlong).bind fun bytes src₂ whole₂ _ _ hcut₂ => ?_
  cases fromUtf8 bytes with
  | some value => exact Outcome.tracks_ok hcut₂
  | none => exact Outcome.tracks_error _ _ _

/-- The count is checked against what remains, so the check may fire on a part where it does not on the
    whole; it says that the input has ended. -/
theorem follows_length (t : Target) (minSize : Nat) :
    Exec.Follows (Cut more) NbtError.Truncated (readLength t minSize) := by
  refine follows_orEof fun src whole hcut hlong => ?_
  refine (Exec.get_tracks hcut hlong).bind fun declared src₁ whole₁ _ _ hcut₁ => ?_
  simp only [Exec.bind_apply, Exec.remaining_apply, Outcome.bind_ok]
  cases Target.tryFromInt32 declared with
  | none => exact Outcome.tracks_error _ _ _
  | some len =>
      dsimp only
      cases t.checkedMul len minSize with
      | none => exact Outcome.tracks_error _ _ _
      | some required =>
          have hle := hcut₁.length_le
          simp only [Exec.ite_apply, Exec.throw_apply, Exec.pure_apply]
          by_cases hrequired : required > src₁.length
          · rw [if_pos hrequired]
            exact Outcome.tracks_short trivial _ _
          · rw [if_neg hrequired, if_neg (by omega)]
            exact Outcome.tracks_ok hcut₁

theorem follows_fixed [Word α] {size : Nat} (hsize : Word.size α = size) (variant : α → NbtTag) :
    Exec.Follows (Cut more) NbtError.Truncated (fixed size variant) := by
  refine follows_orEof fun src whole hcut hlong => ?_
  refine (Exec.get_tracks hcut (hsize ▸ hlong)).bind fun value src₁ whole₁ _ _ hcut₁ => ?_
  exact Outcome.tracks_ok hcut₁

/-! ## The recursive readers -/

/-- The same number of tags counted, and the bytes cut. -/
def CutState (more : Bytes) (s whole : ReadState) : Prop := Cut more s.src whole.src ∧ whole.nodes = s.nodes

theorem onSrc_tracks {m : Exec NbtError Bytes α} {s whole : ReadState} (hcut : CutState more s whole)
    (hm : (m s.src).Tracks (Cut more) NbtError.Truncated (m whole.src)) :
    (onSrc m s).Tracks (CutState more) NbtError.Truncated (onSrc m whole) :=
  Exec.zoom_tracks hm fun _ _ hsrc => ⟨hsrc, hcut.2⟩

theorem follows_onSrc {m : Exec NbtError Bytes α} (hm : Exec.Follows (Cut more) NbtError.Truncated m) :
    Exec.Follows (CutState more) NbtError.Truncated (onSrc m) :=
  fun _ _ hcut => onSrc_tracks hcut (hm _ _ hcut.1)

theorem follows_countNode (t : Target) : Exec.Follows (CutState more) NbtError.Truncated (countNode t) := by
  intro s whole hcut
  simp only [countNode, Exec.bind_apply, Exec.state_apply, Outcome.bind_ok, hcut.2, Exec.usize]
  split_ifs
  · have hcounted : CutState more { s with nodes := s.nodes + 1 } { whole with nodes := s.nodes + 1 } :=
      ⟨hcut.1, rfl⟩
    exact (Exec.Follows.ite (Exec.follows_throw _) (Exec.follows_pure ())) _ _ hcounted
  · intro a s' heq
    cases heq

/-- A field whose bytes the length check has made sure of. -/
theorem follows_counted (t : Target) (minSize : Nat) {f : Nat → Exec NbtError Bytes α}
    (hf : ∀ len src whole, Cut more src whole → len * minSize ≤ src.length →
      (f len src).Tracks (Cut more) NbtError.Truncated (f len whole)) (variant : α → NbtTag) :
    Exec.Follows (CutState more) NbtError.Truncated (do
      let len ← onSrc (readLength t minSize)
      let value ← onSrc (f len)
      pure (variant value)) := by
  intro s whole hcut
  refine (follows_onSrc (follows_length t minSize) s whole hcut).bind fun len s₁ whole₁ hlen _ hcut₁ => ?_
  obtain ⟨⟨-, -, hfits⟩, -⟩ := (onSrc_spec (readLength_spec t minSize s.src)).of_ok hlen
  refine (onSrc_tracks hcut₁ (hf len _ _ hcut₁.1 hfits)).bind fun value s₂ whole₂ _ _ hcut₂ => ?_
  exact Outcome.tracks_ok hcut₂

/-- `readPayload` at one depth. -/
def PayloadFollows (t : Target) (more : Bytes) (depth : Nat) : Prop :=
  ∀ id, Exec.Follows (CutState more) NbtError.Truncated (readPayload t id depth)

/-- The names are compared, and the input is not looked at. -/
theorem follows_rejectDuplicateKeys (c : NbtCompound) :
    Exec.Follows (CutState more) NbtError.Truncated (rejectDuplicateKeys c) := by
  intro s whole hcut u whole' hok
  obtain ⟨rfl, hnodup⟩ := (rejectDuplicateKeys_spec c whole).of_ok hok
  exact Or.inl ⟨s, hcut, rejectDuplicateKeys_of_nodup hnodup s⟩

theorem follows_entry {t : Target} {depth : Nat} (hpayload : PayloadFollows t more depth) (c : NbtCompound) :
    Exec.Follows (CutState more) NbtError.Truncated (readEntry (fun id => readPayload t id depth) c) := by
  refine (follows_onSrc follows_tagId).bind fun id => Exec.Follows.ite ?_ ?_
  · exact (follows_rejectDuplicateKeys c).bind fun _ => Exec.follows_pure _
  · refine (follows_onSrc follows_nbtString).bind fun name => ?_
    exact (hpayload id).bind fun value => Exec.follows_pure _

theorem countNode_ok {t : Target} {s s' : ReadState} {u : Unit} (h : countNode t s = .ok u s') :
    s.nodes ≤ maxTotalNodes := by
  simp only [countNode, Exec.bind_apply, Exec.state_apply, Outcome.bind_ok, Exec.usize] at h
  split_ifs at h
  · by_contra hmany
    simp only [Exec.pure_apply, Outcome.bind_ok, Exec.bind_apply, Exec.setState_apply, Exec.ite_apply] at h
    rw [if_pos (by omega)] at h
    cases h
  · cases h

/-- A payload that was read is gone from the input, whatever was counted before. -/
theorem readPayload_length_le {t : Target} {id : TagId} {depth : Nat} {s s' : ReadState} {tag : NbtTag}
    (h : readPayload t id depth s = .ok tag s') : s'.src.length ≤ s.src.length := by
  have hnodes : s.nodes ≤ maxTotalNodes := by
    rw [readPayload.eq_def] at h
    split_ifs at h
    · cases h
    · obtain ⟨_, _, hcount, -⟩ := Outcome.bind_eq_ok h
      exact countNode_ok hcount
  obtain ⟨bs, -, hsrc⟩ := ((readPayload_spec t depth id s hnodes).of_ok h).bytes
  rw [hsrc, List.length_append]
  exact Nat.le_add_left _ _

/-- A round of the entry loop that does not end it has used up its type byte. -/
theorem readEntry_decreases (t : Target) (depth : Nat) (c : NbtCompound) (s : ReadState) (c' : NbtCompound)
    (s' : ReadState) (h : readEntry (fun id => readPayload t id depth) c s = .ok (.inl c') s') :
    s'.src.length < s.src.length := by
  have hrespects : (readEntry (fun id => readPayload t id depth) c s).Respects
      (fun r s' => ∀ c', r = .inl c' → s'.src.length < s.src.length) (fun _ _ => True) := by
    refine (onSrc_spec (readTagId_spec s.src)).respects.bind fun id s₁ hid => ?_
    have hlen₁ : s.src.length = s₁.src.length + 1 := by rw [hid.1, List.length_cons]
    rw [Exec.ite_apply]
    split_ifs
    · refine ((rejectDuplicateKeys_spec c s₁).seq (fun _ _ _ => trivial) fun _ s₂ _ => ?_).respects
      intro c' hend
      cases hend
    · refine (onSrc_spec (readNbtString_spec s₁.src)).respects.bind fun name s₂ hname => ?_
      obtain ⟨⟨p, -, hsrc⟩, -⟩ := hname
      have hlen₂ := congrArg List.length hsrc
      rw [List.length_append] at hlen₂
      refine (Outcome.respects_of_ok fun _ _ => readPayload_length_le).bind fun value s₃ hlen₃ => ?_
      intro c' _
      show s₃.src.length < s.src.length
      omega
  rw [h] at hrespects
  exact hrespects c' rfl

theorem follows_compoundBody {t : Target} {depth : Nat} (hpayload : PayloadFollows t more depth) :
    Exec.Follows (CutState more) NbtError.Truncated (readCompoundBody t depth) := by
  rw [readCompoundBody]
  refine Exec.Follows.ite (Exec.follows_throw _) ?_
  exact Exec.follows_loop (fun s whole hcut => hcut.1.length_le) (follows_entry hpayload)
    (readEntry_decreases t depth) _

/-- One level of `readPayload`, given the level below. -/
theorem payloadFollows_of {t : Target} {depth : Nat} (hdepth : depth ≤ maxDepth)
    (hnext : PayloadFollows t more (depth + 1)) : PayloadFollows t more depth := by
  intro id
  rw [readPayload.eq_def, if_neg (Nat.not_lt.mpr hdepth)]
  refine (follows_countNode t).bind fun _ => ?_
  cases id with
  | endTag => exact Exec.follows_throw _
  | byte => exact follows_onSrc (follows_fixed rfl NbtTag.byte)
  | short => exact follows_onSrc (follows_fixed rfl NbtTag.short)
  | int => exact follows_onSrc (follows_fixed rfl NbtTag.int)
  | long => exact follows_onSrc (follows_fixed rfl NbtTag.long)
  | float => exact follows_onSrc (follows_fixed rfl NbtTag.float)
  | double => exact follows_onSrc (follows_fixed rfl NbtTag.double)
  | string => exact (follows_onSrc follows_nbtString).bind fun _ => Exec.follows_pure _
  | byteArray =>
      refine follows_counted t 1 (fun len src whole hcut hfits => ?_) NbtTag.byteArray
      exact Exec.take_tracks hcut (by omega)
  | intArray =>
      exact follows_counted t 4 (fun len src whole hcut hfits => Exec.times_get_tracks len hcut hfits)
        NbtTag.intArray
  | longArray =>
      exact follows_counted t 8 (fun len src whole hcut hfits => Exec.times_get_tracks len hcut hfits)
        NbtTag.longArray
  | compound =>
      dsimp only
      rw [usize_depth t hdepth]
      refine (Exec.follows_pure _).bind fun _ => ?_
      exact (follows_compoundBody hnext).bind fun _ => Exec.follows_pure _
  | list =>
      refine (follows_onSrc follows_tagId).bind fun elementType => ?_
      refine (follows_onSrc (follows_length t _)).bind fun len => ?_
      refine Exec.Follows.ite (Exec.follows_throw _) ?_
      refine Exec.Follows.bind (Exec.Follows.times ?_ len) fun _ => Exec.follows_pure _
      rw [usize_depth t hdepth]
      exact (Exec.follows_pure _).bind fun _ => hnext elementType

/-- Every depth, by downward induction from the limit. -/
theorem payloadFollows (t : Target) (more : Bytes) (depth : Nat) : PayloadFollows t more depth := by
  by_cases hdepth : depth ≤ maxDepth
  · exact payloadFollows_of hdepth (payloadFollows t more (depth + 1))
  · intro id
    rw [readPayload.eq_def, if_pos (Nat.not_le.mp hdepth)]
    exact Exec.follows_throw _
termination_by maxDepth + 1 - depth

/-! ## Roots -/

theorem follows_rootBody (t : Target) : Exec.Follows (Cut more) NbtError.Truncated (readRootBody t) := by
  intro src whole hcut c whole' hok
  unfold readRootBody at hok ⊢
  have hfollows := follows_compoundBody (payloadFollows t more 1) ⟨src, 0⟩ ⟨whole, 0⟩ ⟨hcut, rfl⟩
  cases hwhole : readCompoundBody t 1 ⟨whole, 0⟩ with
  | ok c' s' =>
      rw [hwhole] at hok
      obtain ⟨rfl, rfl⟩ := Outcome.ok.inj hok
      rcases hfollows c' s' hwhole with ⟨s, hs, heq⟩ | ⟨e, s, he, heq⟩
      · rw [heq]
        exact Or.inl ⟨s.src, hs.1, rfl⟩
      · rw [heq]
        exact Or.inr ⟨e, s.src, he, rfl⟩
  | error e s' =>
      rw [hwhole] at hok
      cases hok
  | panic =>
      rw [hwhole] at hok
      cases hok
  | diverge =>
      rw [hwhole] at hok
      cases hok

theorem follows_networkRoot (t : Target) : Exec.Follows (Cut more) NbtError.Truncated (readNetworkRoot t) :=
  follows_tagId.bind fun _ => Exec.Follows.ite (Exec.follows_throw _) (follows_rootBody t)

theorem follows_namedRoot (t : Target) : Exec.Follows (Cut more) NbtError.Truncated (readNamedRoot t) := by
  refine follows_tagId.bind fun id => Exec.Follows.ite (Exec.follows_throw _) ?_
  refine follows_nbtString.bind fun name => ?_
  exact (follows_rootBody t).bind fun c => Exec.follows_pure (name, c)

/-- A reader that uses up its input fails on every proper part of it. -/
theorem truncated_of_follows {m : Exec NbtError Bytes α} {p q : Bytes} {a : α}
    (hm : ∀ more, Exec.Follows (Cut more) NbtError.Truncated m) (hp : m p = .ok a []) (hpart : q <+: p)
    (hne : q ≠ p) : ∃ e left, m q = .error e left ∧ e.Truncated := by
  obtain ⟨more, rfl⟩ := hpart
  rcases hm more q (q ++ more) rfl a [] hp with ⟨rest, hrest, -⟩ | ⟨e, left, he, heq⟩
  · obtain ⟨-, rfl⟩ := List.append_eq_nil_iff.mp hrest.symm
    exact absurd (List.append_nil q).symm hne
  · exact ⟨e, left, heq, he⟩

/-- **Truncation is recognised.** Every proper prefix of a written document is refused with
    `UnexpectedEof` or `LengthExceedsInput`, in both forms: no other check fires first, and nothing is
    read as a document. -/
theorem truncation_recognised (t : Target) (d : NbtCompound) (h : Obtainable (.compound d))
    (hnodes : d.nodes ≤ maxTotalNodes) :
    (∀ p, (writeNetworkRoot d).Writes p () → p.length ≤ t.usizeMax → ∀ q, q <+: p → q ≠ p →
      ∃ e left, readNetworkRoot t q = .error e left ∧ e.Truncated) ∧
    (∀ name p, (writeNamedRoot name d).Writes p () → p.length ≤ t.usizeMax → ∀ q, q <+: p → q ≠ p →
      ∃ e left, readNamedRoot t q = .error e left ∧ e.Truncated) := by
  constructor
  · intro p hp hfits q hpart hne
    have hread : RootReads (readNetworkRoot t (p ++ [])) d d [] :=
      readNetworkRoot_append h.wf hp (by simpa using hfits)
    rw [List.append_nil] at hread
    exact truncated_of_follows (fun _ => follows_networkRoot t) (hread.1 hnodes) hpart hne
  · intro name p hp hfits q hpart hne
    have hread : RootReads (readNamedRoot t (p ++ [])) d (name, d) [] :=
      readNamedRoot_append h.wf hp (by simpa using hfits)
    rw [List.append_nil] at hread
    exact truncated_of_follows (fun _ => follows_namedRoot t) (hread.1 hnodes) hpart hne

/-- The first three bytes of a document. -/
theorem truncation_recognised_sample :
    ∃ e left, readNetworkRoot .bits64 (sampleBytes.take 3) = .error e left ∧ e.Truncated :=
  (truncation_recognised .bits64 sample sample_obtainable (by decide)).1 sampleBytes writes_sample (by decide)
    (sampleBytes.take 3) (List.take_prefix 3 sampleBytes) (by decide)

end Pyrite.Nbt
