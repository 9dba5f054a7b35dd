import Pyrite.Net.Login
import Pyrite.Net.Send

set_option autoImplicit false

/-! # Identity

A `LoginStart` carries a name and a UUID. The server derives the identity it grants from the name alone:
every `LoginSuccess` of a run answers an accepted name with the offline UUID of that name, every acceptable
name is answered, and two runs whose inputs differ only in the claimed UUIDs are the same
(`identity_from_name`). -/

namespace Pyrite.Net

open Wire Protocol

variable {env : Env} {config : ServerConfig} {history : List (Connection × RawPacket)} {live : Bool}
  {s : Connection}

/-! ## Names -/

/-- A character of `[A-Za-z0-9_]`. -/
def NameChar (c : Char) : Prop :=
  ('A' ≤ c ∧ c ≤ 'Z') ∨ ('a' ≤ c ∧ c ≤ 'z') ∨ ('0' ≤ c ∧ c ≤ '9') ∨ c = '_'

/-- One to sixteen characters of `[A-Za-z0-9_]`. -/
def NameValid (name : String) : Prop :=
  1 ≤ name.toList.length ∧ name.toList.length ≤ 16 ∧ ∀ c ∈ name.toList, NameChar c

theorem nameChar_iff {c : Char} : (c.isAlphanum || c == '_') = true ↔ NameChar c := by
  show ((decide (c.val ≥ 'A'.val ∧ c.val ≤ 'Z'.val) || (decide (c.val ≥ 'a'.val) && decide (c.val ≤ 'z'.val)))
    || (decide (c.val ≥ '0'.val) && decide (c.val ≤ '9'.val)) || c == '_') = true ↔ NameChar c
  simp only [NameChar, Bool.or_eq_true, Bool.and_eq_true, decide_eq_true_eq, beq_iff_eq, Char.le_def, ge_iff_le,
    or_assoc]

theorem validateUsername_iff {name : String} : validateUsername name = .ok () ↔ NameValid name := by
  have hempty : name ≠ "" ↔ 1 ≤ name.toList.length := by
    rw [Nat.one_le_iff_ne_zero, ne_eq, ne_eq, List.length_eq_zero_iff, String.toList_eq_nil_iff]
  have hvalid : (name ≠ "" ∧ name.toList.length ≤ maxUsernameChars ∧
      name.toList.all (fun c => c.isAlphanum || c == '_') = true) ↔ NameValid name := by
    simp only [List.all_eq_true, nameChar_iff, hempty, NameValid, maxUsernameChars]
  unfold validateUsername
  dsimp only
  split_ifs with h
  · exact iff_of_true rfl (hvalid.mp h)
  · exact iff_of_false (fun heq => by cases heq) (mt hvalid.mpr h)

theorem NameChar.utf8Size {c : Char} (h : NameChar c) : c.utf8Size = 1 := by
  have hascii : c.val ≤ 127 := by
    simp only [NameChar, Char.le_def, UInt32.le_iff_toNat_le] at h ⊢
    rcases h with ⟨-, hle⟩ | ⟨-, hle⟩ | ⟨-, hle⟩ | rfl
    · exact le_trans hle (by decide)
    · exact le_trans hle (by decide)
    · exact le_trans hle (by decide)
    · decide
  exact Char.utf8Size_eq_one_iff.mpr hascii

/-- An acceptable name is ASCII, so its bytes are its characters. -/
theorem NameValid.length_utf8 {name : String} (h : NameValid name) :
    (utf8 name).length = name.toList.length := by
  have hlen := length_utf8_ofList fun c hc => (h.2.2 c hc).utf8Size
  rwa [String.ofList_toList] at hlen

/-- An acceptable name is within the cap of the codec. -/
theorem NameValid.capped {name : String} (h : NameValid name) : Capped Protocol.maxUsernameChars name := by
  have hlength := h.length_utf8
  have hbound := h.2.1
  simp only [Capped, Protocol.maxUsernameChars]
  omega

/-! ## UUIDs -/

/-- The version and variant fields of a UUID. -/
structure OfflineVersion (uuid : BitVec 128) : Prop where
  version : uuid.extractLsb' 76 4 = 3
  variant : uuid.extractLsb' 62 2 = 2

theorem set_version (b : UInt8) : ((b &&& 0x0f) ||| 0x30).toNat / 16 = 3 := by
  have hall : ∀ i : Fin 256, ((i.val &&& 15) ||| 48) / 16 = 3 := by decide +kernel
  rw [UInt8.toNat_or, UInt8.toNat_and]
  exact hall ⟨b.toNat, b.toNat_lt⟩

theorem set_variant (b : UInt8) : ((b &&& 0x3f) ||| 0x80).toNat / 64 = 2 := by
  have hall : ∀ i : Fin 256, ((i.val &&& 63) ||| 128) / 64 = 2 := by decide +kernel
  rw [UInt8.toNat_or, UInt8.toNat_and]
  exact hall ⟨b.toNat, b.toNat_lt⟩

/-- The byte of a UUID at index `i` of its sixteen. -/
theorem uuid_byte (bytes : Vector UInt8 16) (i : Nat) (h : i < 16) :
    (Word.ofNat (ofBe bytes.toList) : BitVec 128).toNat / 256 ^ (15 - i) % 256 = bytes[i].toNat := by
  have hlen : bytes.toList.length = 16 := by simp
  have hlt := ofBe_lt bytes.toList
  rw [hlen] at hlt
  have hvalue : (Word.ofNat (ofBe bytes.toList) : BitVec 128).toNat = ofBe bytes.toList :=
    Word.toNat_ofNat (α := BitVec 128) _ hlt
  have hexp : 15 - i = bytes.toList.length - 1 - i := by rw [hlen]
  rw [hvalue, hexp, ofBe_digit bytes.toList i (by omega)]
  simp

/-- The overwritten bits are where the format has its version and its variant, whatever the digest. -/
theorem offlineUuid_version (md5 : Bytes → Vector UInt8 16) (name : String) :
    OfflineVersion (offlineUuid md5 name) := by
  unfold offlineUuid
  generalize md5 (utf8 "OfflinePlayer:" ++ utf8 name) = digest
  dsimp only
  generalize hbytes : (digest.set 6 ((digest[6] &&& 0x0f) ||| 0x30)).set 8 _ = bytes
  have h₆ : bytes[6].toNat / 16 = 3 := by
    rw [← hbytes]
    simpa using set_version digest[6]
  have h₈ : bytes[8].toNat / 64 = 2 := by
    rw [← hbytes]
    simpa using set_variant digest[8]
  have hbyte₆ := uuid_byte bytes 6 (by decide)
  have hbyte₈ := uuid_byte bytes 8 (by decide)
  generalize (Word.ofNat (ofBe bytes.toList) : BitVec 128) = uuid at hbyte₆ hbyte₈ ⊢
  constructor
  · apply BitVec.eq_of_toNat_eq
    rw [BitVec.extractLsb'_toNat, Nat.shiftRight_eq_div_pow]
    show uuid.toNat / 2 ^ 76 % 16 = 3
    have hsplit : uuid.toNat / 2 ^ 76 = uuid.toNat / 256 ^ (15 - 6) / 16 := by
      rw [Nat.div_div_eq_div_mul]
      norm_num
    rw [hsplit]
    omega
  · apply BitVec.eq_of_toNat_eq
    rw [BitVec.extractLsb'_toNat, Nat.shiftRight_eq_div_pow]
    show uuid.toNat / 2 ^ 62 % 4 = 2
    have hsplit : uuid.toNat / 2 ^ 62 = uuid.toNat / 256 ^ (15 - 8) / 64 := by
      rw [Nat.div_div_eq_div_mul]
      norm_num
    rw [hsplit]
    omega

/-! ## Every success answers a name -/

/-- Where a place in the concatenation of two lists falls. -/
theorem split_append {α : Type} {xs ys before after : List α} {x : α} (h : xs ++ ys = before ++ x :: after) :
    (∃ after', xs = before ++ x :: after') ∨ ∃ before', before = xs ++ before' ∧ ys = before' ++ x :: after := by
  rcases List.append_eq_append_iff.mp h with ⟨before', hbefore, hys⟩ | ⟨after', hxs, hcons⟩
  · exact Or.inr ⟨before', hbefore, hys⟩
  · rcases after' with _ | ⟨y, after'⟩
    · rw [List.append_nil] at hxs
      exact Or.inr ⟨[], by rw [hxs, List.append_nil], hcons.symm⟩
    · obtain ⟨rfl, -⟩ := List.cons.inj hcons
      exact Or.inl ⟨after', hxs⟩

/-- The `LoginSuccess` of an answer is the last packet of it. -/
theorem loginSuccess_last {start : LoginStart} {before after : List Emitted} {e : Emitted}
    {success : LoginSuccess} (h : before ++ e :: after <+: loginEntries env s start)
    (he : e.packet = .loginSuccess success) : before ++ [e] = loginEntries env s start := by
  obtain ⟨tail, htail⟩ := h
  unfold loginEntries at htail ⊢
  rw [List.append_assoc, List.cons_append] at htail
  rcases split_append htail.symm with ⟨after', hcompression⟩ | ⟨before', rfl, hlast⟩
  · -- what comes before it is a `SetCompression`
    have hmem : e ∈ compressionEntries s := by
      rw [hcompression]
      exact List.mem_append_right _ List.mem_cons_self
    unfold compressionEntries at hmem
    cases hthreshold : s.config.compressionThreshold with
    | none =>
        rw [hthreshold] at hmem
        cases hmem
    | some threshold =>
        rw [hthreshold] at hmem
        rw [List.mem_singleton.mp hmem] at he
        cases he
  · rcases before' with _ | ⟨x, before'⟩
    · obtain ⟨rfl, -⟩ := List.cons.inj hlast
      rw [List.append_nil]
    · obtain ⟨-, hnil⟩ := List.cons.inj hlast
      simp at hnil

/-- A `LoginSuccess` in the log of a run was sent while an accepted `LoginStart` was handled. -/
theorem Run.success_answers (h : Run env config history live s) :
    ∀ before e after success, s.sent = before ++ e :: after → e.packet = .loginSuccess success →
      ∃ s₀ frame start, (s₀, frame) ∈ history ∧ s₀.state.current = .login ∧
        frame.id = Packet.id LoginStart ∧ Accepts env frame start ∧
        before ++ [e] = s₀.sent ++ loginEntries env s₀ start := by
  refine Run.induction (P := fun history _ s => ∀ before e after success, s.sent = before ++ e :: after →
    e.packet = .loginSuccess success → ∃ s₀ frame start, (s₀, frame) ∈ history ∧ s₀.state.current = .login ∧
      frame.id = Packet.id LoginStart ∧ Accepts env frame start ∧
      before ++ [e] = s₀.sent ++ loginEntries env s₀ start) ?_ ?_ h
  · intro before e after success hsent
    have hnil : ([] : List Emitted) = before ++ e :: after := hsent
    simp at hnil
  · intro history s frame live s' _ ih hhandled before e after success hsent he
    have hold : ∀ after', s.sent = before ++ e :: after' → ∃ s₀ frame' start,
        (s₀, frame') ∈ history ++ [(s, frame)] ∧ s₀.state.current = .login ∧
        frame'.id = Packet.id LoginStart ∧ Accepts env frame' start ∧
        before ++ [e] = s₀.sent ++ loginEntries env s₀ start := by
      intro after' hbefore
      obtain ⟨s₀, frame', start, hmem, hrest⟩ := ih before e after' success hbefore he
      exact ⟨s₀, frame', start, List.mem_append_left _ hmem, hrest⟩
    rcases hhandled.loginStart_or_quiet with
      ⟨start, entries, hstate, hid, haccepts, hentries, hsent'⟩ | ⟨entries, hquiet, hsent', -⟩
    · rw [hsent'] at hsent
      rcases split_append hsent with ⟨after', hbefore⟩ | ⟨before', rfl, hnew⟩
      · exact hold after' hbefore
      · rw [hnew] at hentries
        refine ⟨s, frame, start, List.mem_append_right _ (List.mem_singleton_self _), hstate, hid, haccepts, ?_⟩
        rw [List.append_assoc, loginSuccess_last hentries he]
    · rw [hsent'] at hsent
      rcases split_append hsent with ⟨after', hbefore⟩ | ⟨before', -, hnew⟩
      · exact hold after' hbefore
      · have hmem : e ∈ entries := by
          rw [hnew]
          exact List.mem_append_right _ List.mem_cons_self
        have hnot := hquiet e hmem
        rw [Emitted.Quiet, he] at hnot
        exact hnot.elim

/-! ## Every acceptable name is answered -/

/-- Sends succeed: the transport takes what it is given, and the compressor does not fail. -/
structure Reliable (env : Env) : Prop where
  flush : ∀ written, env.flush written = .ok ()
  deflates : Deflates env.zlib

/-- The frame is a `LoginStart`, and its body decodes to `start` with nothing left over. -/
def Carries (env : Env) (frame : RawPacket) (start : LoginStart) : Prop :=
  frame.id = Packet.id LoginStart ∧ Packet.decode env.target frame.body = .ok start []

theorem decodeAs_of_decode {P : Type} [Packet P] {frame : RawPacket} {packet : P}
    (h : Packet.decode env.target frame.body = .ok packet []) (s : Connection) :
    Connection.decodeAs P env frame s = .ok packet s := by
  simp [Connection.decodeAs, Exec.mapError, RawPacket.decodeAs, Exec.locally, h]

theorem decodeAs_of_error {P : Type} [Packet P] {frame : RawPacket} {e : ProtocolError} {rest : Bytes}
    (h : (Packet.decode env.target frame.body : Outcome ProtocolError Bytes P) = .error e rest)
    (s : Connection) : Connection.decodeAs P env frame s = .error (.protocol e) s := by
  simp [Connection.decodeAs, Exec.mapError, RawPacket.decodeAs, Exec.locally, h]

theorem handle_eq_handleLoginStart (hstate : s.state.current = .login) {frame : RawPacket}
    (hid : frame.id = Packet.id LoginStart) :
    Connection.handle env frame s = Connection.handleLoginStart env frame s := by
  have hselected : selected s.state.current frame.id = some .loginStart := selected_iff.mpr ⟨hstate, hid⟩
  rw [handle_of_selected hselected]
  rfl

/-- The encoding of a `LoginStart` with an acceptable name is one. -/
theorem carries_encode (env : Env) {name : String} (hname : NameValid name) (uuid : BitVec 128) :
    Carries env ⟨Packet.id LoginStart, (Packet.encode (⟨name, uuid⟩ : LoginStart)).bytes⟩ ⟨name, uuid⟩ := by
  have hlen := hname.length_utf8
  have hbound := hname.2.1
  have hshort : (Packet.encode (⟨name, uuid⟩ : LoginStart)).bytes.length < 2147483648 := by
    have hvarint := length_varintBytes_le (Int32.ofNat (utf8 name).length)
    rw [PlainPacket.encode_eq]
    simp only [Put.slice, PlainPacket.body, stringBytes, List.length_append, length_wordBytes, Word.size]
    simp only [maxVarintLen] at hvarint
    omega
  have hread := (roundTrips_loginStart env.target ⟨name, uuid⟩ [] hshort).2.1.mpr hname.capped
  rw [List.append_nil] at hread
  exact ⟨rfl, hread⟩

theorem send_reliable (henv : Reliable env) {packet : Clientbound}
    (hsmall : packet.bytes.length ≤ maxPacketSize) (s : Connection) :
    ∃ s', Connection.send env packet s = .ok () s' := by
  obtain ⟨codec, -, hcases⟩ := send_cases env packet s
  rcases hcases with ⟨p, -, -, hsend⟩ | ⟨p, reason, -, hflush, -⟩ | ⟨e, hframe, -⟩
  · exact ⟨_, hsend⟩
  · rw [henv.flush] at hflush
    cases hflush
  · rcases Clientbound.frame_of_deflates henv.deflates s.codec.compressionThreshold packet with
      ⟨p, -, hok⟩ | ⟨hlarge, -⟩
    · rw [hframe] at hok
      cases hok
    · omega

theorem length_stringBytes_le (value : String) : (stringBytes value).length ≤ 5 + (utf8 value).length := by
  have hvarint := length_varintBytes_le (Int32.ofNat (utf8 value).length)
  rw [stringBytes, List.length_append]
  exact Nat.add_le_add_right hvarint _

theorem length_setCompression_le (packet : SetCompression) :
    (Clientbound.setCompression packet).bytes.length ≤ 10 := by
  have hid := length_varintBytes_le (Packet.id SetCompression)
  have hthreshold := length_varintBytes_le packet.threshold
  rw [Clientbound.bytes, List.length_append]
  exact Nat.add_le_add hid hthreshold

theorem length_loginSuccess_le (env : Env) {name : String} (hname : NameValid name) :
    (Clientbound.loginSuccess (loginSuccessFor env name)).bytes.length ≤ 64 := by
  have hid := length_varintBytes_le (Packet.id LoginSuccess)
  have hcount := length_varintBytes_le (Int32.ofNat ([] : List ProfileProperty).length)
  have hstring := length_stringBytes_le name
  have hlen := hname.length_utf8
  have hbound := hname.2.1
  simp only [maxVarintLen] at hid hcount
  simp only [Clientbound.bytes, Clientbound.raw, PlainPacket.body, GameProfile.bytes, arrayBytes,
    loginSuccessFor, List.flatMap_nil, List.append_nil, List.length_append, length_wordBytes, Word.size]
  omega

theorem negotiateCompression_reliable (henv : Reliable env) (s : Connection) :
    ∃ s', Connection.negotiateCompression env s = .ok () s' := by
  simp only [Connection.negotiateCompression, Exec.bind_apply, Exec.state_apply, Outcome.bind_ok]
  cases s.config.compressionThreshold with
  | none => exact ⟨s, rfl⟩
  | some threshold =>
      have hsmall : (Clientbound.setCompression { threshold }).bytes.length ≤ maxPacketSize :=
        le_trans (length_setCompression_le _) (by decide)
      obtain ⟨s₁, hsend⟩ := send_reliable henv hsmall s
      dsimp only
      rw [Exec.bind_apply, hsend]
      exact ⟨_, rfl⟩

/-- With sends that succeed, an acceptable name is answered in full. -/
theorem handle_loginStart (henv : Reliable env) {frame : RawPacket} {start : LoginStart}
    (hstate : s.state.current = .login) (hcarries : Carries env frame start) (hname : NameValid start.name) :
    ∃ s', Connection.handle env frame s = .ok .proceed s' ∧ s'.sent = s.sent ++ loginEntries env s start := by
  have hhandled : ∃ s', Connection.handle env frame s = .ok .proceed s' := by
    have hsmall : (Clientbound.loginSuccess (loginSuccessFor env start.name)).bytes.length ≤ maxPacketSize :=
      le_trans (length_loginSuccess_le env hname) (by decide)
    obtain ⟨s₁, hnegotiate⟩ := negotiateCompression_reliable henv s
    obtain ⟨s₂, hsend⟩ := send_reliable henv hsmall s₁
    refine ⟨s₂, ?_⟩
    rw [handle_eq_handleLoginStart hstate hcarries.1]
    simp only [Connection.handleLoginStart, Exec.bind_apply, decodeAs_of_decode hcarries.2, Outcome.bind_ok,
      validateUsername_iff.mpr hname, hnegotiate]
    unfold loginSuccessFor at hsend
    rw [hsend]
    rfl
  obtain ⟨s', heq⟩ := hhandled
  refine ⟨s', heq, ?_⟩
  obtain ⟨start', haccepts, hsent⟩ := ((handle_spec env frame s).of_ok heq).of_loginStart hstate hcarries.1
  obtain ⟨rfl, -⟩ := Outcome.ok.inj (hcarries.2.symm.trans haccepts.1)
  exact hsent

/-! ## The claimed UUID does not matter -/

/-- Two `LoginStart` frames that differ in the UUID only: exact encodings for one name, of a length that
    the framing codec passes on, or any bodies that decode to one name with nothing left over. -/
def UuidVariant (env : Env) (frame₁ frame₂ : RawPacket) : Prop :=
  (∃ name uuid₁ uuid₂,
    frame₁ = ⟨Packet.id LoginStart, (Packet.encode (⟨name, uuid₁⟩ : LoginStart)).bytes⟩ ∧
    frame₂ = ⟨Packet.id LoginStart, (Packet.encode (⟨name, uuid₂⟩ : LoginStart)).bytes⟩ ∧
    frame₁.body.length < 2147483648) ∨
  ∃ start₁ start₂, Carries env frame₁ start₁ ∧ Carries env frame₂ start₂ ∧ start₁.name = start₂.name

/-- An exact encoding is decoded, or its name is over the cap, whatever the UUID. -/
theorem decodeAs_encode (env : Env) {name : String} {uuid : BitVec 128} (id : Int32)
    (hlen : (Packet.encode (⟨name, uuid⟩ : LoginStart)).bytes.length < 2147483648) (s : Connection) :
    Connection.decodeAs LoginStart env ⟨id, (Packet.encode (⟨name, uuid⟩ : LoginStart)).bytes⟩ s
      = if (utf8 name).length > env.target.saturatingMul Protocol.maxUsernameChars maxBytesPerChar then
          .error (.protocol (.stringTooLong (utf8 name).length
            (env.target.saturatingMul Protocol.maxUsernameChars maxBytesPerChar))) s
        else .ok ⟨name, uuid⟩ s := by
  have hbytes : (Packet.encode (⟨name, uuid⟩ : LoginStart)).bytes = stringBytes name ++ wordBytes uuid := by
    rw [PlainPacket.encode_eq]
    rfl
  rw [hbytes] at hlen ⊢
  have hname : (stringBytes name).length < 2147483648 := by
    rw [List.length_append] at hlen
    omega
  have hread := readString_append env.target Protocol.maxUsernameChars hname (wordBytes uuid)
  have huuid := readUuid_append uuid []
  rw [List.append_nil] at huuid
  have hdecode : (Packet.decode env.target (stringBytes name ++ wordBytes uuid) :
      Outcome ProtocolError Bytes LoginStart)
      = (readString env.target Protocol.maxUsernameChars (stringBytes name ++ wordBytes uuid)).bind
          fun name => readUuid >>= fun uuid => pure ⟨name, uuid⟩ := rfl
  rw [hread] at hdecode
  split_ifs at hdecode ⊢ with hmax
  · exact decodeAs_of_error hdecode s
  · rw [Outcome.bind_ok, Exec.bind_apply, huuid] at hdecode
    exact decodeAs_of_decode hdecode s

/-- **One step.** In the login state the claimed UUID makes no difference. -/
theorem handle_uuidVariant (hstate : s.state.current = .login) {frame₁ frame₂ : RawPacket}
    (h : UuidVariant env frame₁ frame₂) :
    Connection.handle env frame₁ s = Connection.handle env frame₂ s := by
  -- what follows the decoder looks at the name only
  have hname : ∀ name uuid₁ uuid₂, frame₁.id = Packet.id LoginStart → frame₂.id = Packet.id LoginStart →
      Connection.decodeAs LoginStart env frame₁ s = .ok ⟨name, uuid₁⟩ s →
      Connection.decodeAs LoginStart env frame₂ s = .ok ⟨name, uuid₂⟩ s →
      Connection.handle env frame₁ s = Connection.handle env frame₂ s := by
    intro name uuid₁ uuid₂ hid₁ hid₂ hdecode₁ hdecode₂
    rw [handle_eq_handleLoginStart hstate hid₁, handle_eq_handleLoginStart hstate hid₂]
    simp only [Connection.handleLoginStart, Exec.bind_apply, hdecode₁, hdecode₂, Outcome.bind_ok]
  rcases h with ⟨name, uuid₁, uuid₂, rfl, rfl, hlen⟩ | ⟨start₁, start₂, hcarries₁, hcarries₂, heq⟩
  · have hlen₂ : (Packet.encode (⟨name, uuid₂⟩ : LoginStart)).bytes.length < 2147483648 := by
      simp only [PlainPacket.encode_eq, Put.slice, PlainPacket.body, List.length_append,
        length_wordBytes] at hlen ⊢
      exact hlen
    have hdecode₁ := decodeAs_encode env (Packet.id LoginStart) hlen s
    have hdecode₂ := decodeAs_encode env (Packet.id LoginStart) hlen₂ s
    split_ifs at hdecode₁ hdecode₂ with hmax
    · rw [handle_eq_handleLoginStart hstate rfl, handle_eq_handleLoginStart hstate rfl]
      simp only [Connection.handleLoginStart, Exec.bind_apply, hdecode₁, hdecode₂]
    · exact hname name uuid₁ uuid₂ rfl rfl hdecode₁ hdecode₂
  · obtain ⟨name, uuid₁⟩ := start₁
    obtain ⟨name₂, uuid₂⟩ := start₂
    obtain rfl : name = name₂ := heq
    exact hname name uuid₁ uuid₂ hcarries₁.1 hcarries₂.1 (decodeAs_of_decode hcarries₁.2 s)
      (decodeAs_of_decode hcarries₂.2 s)

/-- Two input sequences that differ only in the UUIDs of `LoginStart` frames handled in the login state, from
    `s` on. What follows the end of the run is not looked at. -/
inductive OnlyUuidsDiffer (env : Env) : Connection → List Connection.Input → List Connection.Input → Prop where
  | done (s : Connection) : OnlyUuidsDiffer env s [] []
  | same {s : Connection} {input : Connection.Input} {xs ys : List Connection.Input}
      (h : ∀ s', Connection.run env [input] s = .ok .proceed s' → OnlyUuidsDiffer env s' xs ys) :
      OnlyUuidsDiffer env s (input :: xs) (input :: ys)
  | loginStart {s : Connection} {frame₁ frame₂ : RawPacket} {xs ys : List Connection.Input}
      (hstate : s.state.current = .login) (hvariant : UuidVariant env frame₁ frame₂)
      (h : ∀ s', Connection.run env [.frame frame₁] s = .ok .proceed s' → OnlyUuidsDiffer env s' xs ys) :
      OnlyUuidsDiffer env s (.frame frame₁ :: xs) (.frame frame₂ :: ys)

theorem run_frame (env : Env) (frame : RawPacket) (inputs : List Connection.Input) (s : Connection) :
    Connection.run env (.frame frame :: inputs) s = (Connection.handle env frame s).bind fun flow s' =>
      if flow = .close then .ok .close s' else Connection.run env inputs s' := by
  rw [Connection.run, Exec.bind_apply]
  congr
  funext flow s'
  rw [Exec.ite_apply]
  rfl

theorem run_singleton (env : Env) (frame : RawPacket) (s : Connection) :
    Connection.run env [.frame frame] s = Connection.handle env frame s := by
  rw [run_frame]
  cases Connection.handle env frame s with
  | ok flow s' => cases flow <;> rfl
  | error e s' => rfl
  | panic => rfl
  | diverge => rfl

/-- A run takes its inputs one at a time. -/
theorem run_cons (env : Env) (input : Connection.Input) (inputs : List Connection.Input) (s : Connection) :
    Connection.run env (input :: inputs) s = (Connection.run env [input] s).bind fun flow s' =>
      if flow = .close then .ok .close s' else Connection.run env inputs s' := by
  cases input with
  | elapsed => rfl
  | closed => rfl
  | invalid error => rfl
  | frame frame => rw [run_frame, run_singleton]

/-- Runs that agree on their first input, and after it, agree. -/
theorem run_cons_congr {x y : Connection.Input} {xs ys : List Connection.Input}
    (hfirst : Connection.run env [x] s = Connection.run env [y] s)
    (hrest : ∀ s', Connection.run env [x] s = .ok .proceed s' →
      Connection.run env xs s' = Connection.run env ys s') :
    Connection.run env (x :: xs) s = Connection.run env (y :: ys) s := by
  rw [run_cons, run_cons env y, ← hfirst]
  cases heq : Connection.run env [x] s with
  | ok flow s' =>
      cases flow with
      | proceed => exact hrest s' heq
      | close => rfl
  | error e s' => rfl
  | panic => rfl
  | diverge => rfl

/-- **Whole runs.** They agree after every number of inputs: in what is sent, in the state, and in how they
    end. -/
theorem OnlyUuidsDiffer.run_take_eq {xs ys : List Connection.Input} (h : OnlyUuidsDiffer env s xs ys) :
    ∀ k, Connection.run env (xs.take k) s = Connection.run env (ys.take k) s := by
  induction h with
  | done s =>
      intro k
      rfl
  | same h ih =>
      intro k
      cases k with
      | zero => rfl
      | succ k => exact run_cons_congr rfl fun s' hproceed => ih s' hproceed k
  | @loginStart s frame₁ frame₂ xs ys hstate hvariant h ih =>
      intro k
      have hfirst : Connection.run env [.frame frame₁] s = Connection.run env [.frame frame₂] s := by
        rw [run_singleton, run_singleton, handle_uuidVariant hstate hvariant]
      cases k with
      | zero => rfl
      | succ k => exact run_cons_congr hfirst fun s' hproceed => ih s' hproceed k

/-- **Identity comes from the name.** Every `LoginSuccess` of a run completes the answer to a `LoginStart`
    with an acceptable name, and grants that name and its offline UUID; with sends that succeed, every
    `LoginStart` with an acceptable name is answered; and the UUID that a client claims has no influence on
    anything. -/
theorem identity_from_name (env : Env) (config : ServerConfig) :
    (∀ history live s, Run env config history live s →
      ∀ before e after success, s.sent = before ++ e :: after → e.packet = .loginSuccess success →
        ∃ s₀ frame start, (s₀, frame) ∈ history ∧ s₀.state.current = .login ∧ Carries env frame start ∧
          NameValid start.name ∧ before ++ [e] = s₀.sent ++ loginEntries env s₀ start ∧
          success.profile.username = start.name ∧ success.profile.properties = [] ∧
          success.profile.uuid = offlineUuid env.md5 start.name ∧ success.sessionId = success.profile.uuid ∧
          OfflineVersion success.profile.uuid) ∧
    (Reliable env → ∀ history s, Run env config history true s → s.state.current = .login →
      (∀ frame start, Carries env frame start → NameValid start.name →
        ∃ s', Connection.handle env frame s = .ok .proceed s' ∧
          s'.sent = s.sent ++ compressionEntries s
            ++ [⟨.loginSuccess (loginSuccessFor env start.name), negotiated s⟩]) ∧
      ∀ name uuid, NameValid name →
        Carries env ⟨Packet.id LoginStart, (Packet.encode (⟨name, uuid⟩ : LoginStart)).bytes⟩ ⟨name, uuid⟩) ∧
    (∀ xs ys, OnlyUuidsDiffer env (.new config) xs ys →
      ∀ k, Connection.run env (xs.take k) (.new config) = Connection.run env (ys.take k) (.new config)) := by
  refine ⟨?_, ?_, ?_⟩
  · intro history live s h before e after success hsent he
    obtain ⟨s₀, frame, start, hmem, hstate, hid, haccepts, hanswer⟩ :=
      h.success_answers before e after success hsent he
    have hsuccess : success = loginSuccessFor env start.name := by
      rw [loginEntries, ← List.append_assoc] at hanswer
      obtain ⟨-, hlast⟩ := List.append_inj' hanswer rfl
      rw [List.singleton_inj.mp hlast] at he
      exact (Clientbound.loginSuccess.inj he).symm
    rw [hsuccess]
    exact ⟨s₀, frame, start, hmem, hstate, ⟨hid, haccepts.1⟩, validateUsername_iff.mp haccepts.2, hanswer,
      rfl, rfl, rfl, rfl, offlineUuid_version env.md5 start.name⟩
  · intro henv history s _ hstate
    refine ⟨fun frame start hcarries hname => ?_, fun name uuid hname => carries_encode env hname uuid⟩
    obtain ⟨s', hhandle, hsent⟩ := handle_loginStart henv hstate hcarries hname
    refine ⟨s', hhandle, ?_⟩
    rw [hsent, loginEntries, List.append_assoc]
  · intro xs ys h
    exact h.run_take_eq

/-- A `LoginStart` for "Steve" that claims a UUID of its own. -/
def steveClaim : RawPacket := ⟨0, [5, 83, 116, 101, 118, 101] ++ List.replicate 16 255⟩

theorem identity_from_name_steve :
    (∃ s, Connection.handle storedEnv steveStart inLogin = .ok .proceed s ∧
      ∃ e ∈ s.sent, ∃ success, e.packet = .loginSuccess success ∧ success.profile.username = "Steve" ∧
        OfflineVersion success.profile.uuid) ∧
    Connection.run storedEnv [.frame loginHandshake, .frame steveStart] (.new .default)
      = Connection.run storedEnv [.frame loginHandshake, .frame steveClaim] (.new .default) := by
  have hlogin : Run storedEnv .default [(.new .default, loginHandshake)] true inLogin := .proceed .fresh rfl
  have hstart : Carries storedEnv steveStart ⟨"Steve", 0⟩ := ⟨rfl, by decide +kernel⟩
  have hclaim : Carries storedEnv steveClaim ⟨"Steve", BitVec.allOnes 128⟩ := ⟨rfl, by decide +kernel⟩
  have hname : NameValid "Steve" := validateUsername_iff.mp (by decide +kernel)
  have hreliable : Reliable storedEnv := ⟨fun _ => rfl, fun _ => ⟨_, rfl⟩⟩
  refine ⟨?_, ?_⟩
  · obtain ⟨s, hhandle, hsent⟩ := ((identity_from_name storedEnv .default).2.1 hreliable _ _ hlogin rfl).1
      steveStart ⟨"Steve", 0⟩ hstart hname
    refine ⟨s, hhandle, _, by rw [hsent]; exact List.mem_append_right _ (List.mem_singleton_self _), _, rfl, ?_⟩
    obtain ⟨s₀, frame, start, -, -, -, -, -, -, -, -, -, hversion⟩ :=
      (identity_from_name storedEnv .default).1 _ _ s (hlogin.proceed hhandle) _ _ [] _ hsent rfl
    exact ⟨rfl, hversion⟩
  · have hdiffer : OnlyUuidsDiffer storedEnv (.new .default) [.frame loginHandshake, .frame steveStart]
        [.frame loginHandshake, .frame steveClaim] := by
      refine .same fun s' hproceed => ?_
      have hfirst : Connection.run storedEnv [.frame loginHandshake] (.new .default) = .ok .proceed inLogin := rfl
      obtain ⟨-, rfl⟩ := Outcome.ok.inj (hfirst.symm.trans hproceed)
      refine .loginStart rfl (Or.inr ⟨_, _, hstart, hclaim, rfl⟩) fun s' _ => .done s'
    exact (identity_from_name storedEnv .default).2.2 _ _ hdiffer 2

end Pyrite.Net
