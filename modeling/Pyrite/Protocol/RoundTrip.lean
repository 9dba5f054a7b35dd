import Pyrite.Protocol.Packets

set_option autoImplicit false

/-! # Packet bodies, written and read back

Every packet encodes, and its decoder reads the packet back and stops at the end of its fields, exactly if
each string and each array is within the cap the decoder sets; what is over a cap is refused as too long
(`packets_round_trip`). `ReadsBack` carries both cases through the fields of a packet together. -/

namespace Pyrite.Protocol

open Wire

variable {ε α β : Type}

/-! ## What the encoders write -/

def stringBytes (value : String) : Bytes := varintBytes (Int32.ofNat (utf8 value).length) ++ utf8 value

def optionBytes (bytes : α → Bytes) : Option α → Bytes
  | some value => 1 :: bytes value
  | none => [0]

def arrayBytes (bytes : α → Bytes) (items : List α) : Bytes :=
  varintBytes (Int32.ofNat items.length) ++ items.flatMap bytes

theorem writeItems_eq {writeItem : α → Put ε Unit} {bytes : α → Bytes}
    (h : ∀ item, writeItem item = Put.slice (bytes item)) (items : List α) :
    writeItems writeItem items = Put.slice (items.flatMap bytes) := by
  induction items with
  | nil => rfl
  | cons item items ih => rw [writeItems, h, ih, Put.slice_bind_slice, List.flatMap_cons]

theorem writePrefixedArray_eq {writeItem : α → Put ε Unit} {bytes : α → Bytes}
    (h : ∀ item, writeItem item = Put.slice (bytes item)) (items : List α) :
    writePrefixedArray items writeItem = Put.slice (arrayBytes bytes items) := by
  rw [writePrefixedArray, writeVarint_eq, writeItems_eq h, Put.slice_bind_slice, arrayBytes]

theorem writePrefixedOptional_eq {writeValue : α → Put ε Unit} {bytes : α → Bytes}
    (h : ∀ value, writeValue value = Put.slice (bytes value)) (value : Option α) :
    writePrefixedOptional value writeValue = Put.slice (optionBytes bytes value) := by
  cases value with
  | none => rw [writePrefixedOptional, Put.word, wordBytes_u8, optionBytes]
  | some value =>
      rw [writePrefixedOptional, h, Put.word, wordBytes_u8, Put.slice_bind_slice, optionBytes]
      rfl

def ProfileProperty.bytes (self : ProfileProperty) : Bytes :=
  stringBytes self.name ++ (stringBytes self.value ++ optionBytes stringBytes self.signature)

theorem ProfileProperty.encodeTo_eq (self : ProfileProperty) : self.encodeTo = Put.slice self.bytes := by
  rw [ProfileProperty.encodeTo, writeString_eq, writeString_eq, writePrefixedOptional_eq writeString_eq,
    Put.slice_bind_slice, Put.slice_bind_slice]
  rfl

def GameProfile.bytes (self : GameProfile) : Bytes :=
  wordBytes self.uuid ++ (stringBytes self.username ++ arrayBytes ProfileProperty.bytes self.properties)

theorem GameProfile.encodeTo_eq (self : GameProfile) : self.encodeTo = Put.slice self.bytes := by
  rw [GameProfile.encodeTo, writeUuid, Put.word, writeString_eq,
    writePrefixedArray_eq ProfileProperty.encodeTo_eq, Put.slice_bind_slice, Put.slice_bind_slice]
  rfl

/-- A packet type whose encoder cannot fail: it writes the bytes of the fields one after another. -/
class PlainPacket (P : Type) [Packet P] where
  body : P → Bytes
  encode_eq : ∀ p : P, Packet.encode p = Put.slice (body p)

instance : PlainPacket Handshake where
  body p := varintBytes p.protocolVersion ++ (stringBytes p.serverAddress ++
    (wordBytes p.serverPort ++ varintBytes p.nextState.toInt32))
  encode_eq p := by
    show (writeVarint p.protocolVersion >>= fun _ => writeString p.serverAddress >>= fun _ =>
      writeU16 p.serverPort >>= fun _ => writeVarint p.nextState.toInt32 : Put ProtocolError Unit) = _
    rw [writeVarint_eq, writeVarint_eq, writeString_eq, writeU16, Put.word, Put.slice_bind_slice,
      Put.slice_bind_slice, Put.slice_bind_slice]
    rfl

instance : PlainPacket StatusRequest where
  body _ := []
  encode_eq _ := rfl

instance : PlainPacket StatusResponse where
  body p := stringBytes p.json
  encode_eq p := writeString_eq p.json

instance : PlainPacket PingRequest where
  body p := wordBytes p.payload
  encode_eq _ := rfl

instance : PlainPacket PongResponse where
  body p := wordBytes p.payload
  encode_eq _ := rfl

instance : PlainPacket LoginDisconnect where
  body p := stringBytes p.reason
  encode_eq p := writeString_eq p.reason

instance : PlainPacket LoginStart where
  body p := stringBytes p.name ++ wordBytes p.uuid
  encode_eq p := by
    show (writeString p.name >>= fun _ => writeUuid p.uuid : Put ProtocolError Unit) = _
    rw [writeString_eq, writeUuid, Put.word, Put.slice_bind_slice]
    rfl

instance : PlainPacket SetCompression where
  body p := varintBytes p.threshold
  encode_eq p := writeVarint_eq p.threshold

instance : PlainPacket LoginSuccess where
  body p := p.profile.bytes ++ wordBytes p.sessionId
  encode_eq p := by
    show (p.profile.encodeTo >>= fun _ => writeUuid p.sessionId : Put ProtocolError Unit) = _
    rw [GameProfile.encodeTo_eq, writeUuid, Put.word, Put.slice_bind_slice]

instance : PlainPacket LoginAcknowledged where
  body _ := []
  encode_eq _ := rfl

/-! ## Reading back -/

/-- The errors of a field that is over its cap. -/
def ProtocolError.isTooLong : ProtocolError → Bool
  | .stringTooLong _ _ => true
  | .arrayTooLong _ _ => true
  | _ => false

/-- The outcome of reading back `a`: the value, with `rest` unread, if it `fits`; and otherwise the error
    of a field that is over its cap. -/
def ReadsBack (o : Outcome ProtocolError Bytes α) (fits : Prop) (a : α) (rest : Bytes) : Prop :=
  (fits → o = .ok a rest) ∧ (¬ fits → ∃ e rest', o = .error e rest' ∧ e.isTooLong = true)

theorem readsBack_of_eq {o : Outcome ProtocolError Bytes α} {a : α} {rest : Bytes} (h : o = .ok a rest) :
    ReadsBack o True a rest :=
  ⟨fun _ => h, fun hnot => absurd trivial hnot⟩

theorem ReadsBack.congr {o : Outcome ProtocolError Bytes α} {fits fits' : Prop} {a : α} {rest : Bytes}
    (h : ReadsBack o fits a rest) (hiff : fits' ↔ fits) : ReadsBack o fits' a rest :=
  ⟨fun hfits => h.1 (hiff.mp hfits), fun hnot => h.2 (mt hiff.mpr hnot)⟩

/-- Two fields in sequence. -/
theorem ReadsBack.bind {o : Outcome ProtocolError Bytes α} {f : α → Exec ProtocolError Bytes β}
    {fits fits' : Prop} {a : α} {b : β} {rest rest' : Bytes} (h : ReadsBack o fits a rest)
    (hf : ReadsBack (f a rest) fits' b rest') : ReadsBack (o.bind f) (fits ∧ fits') b rest' := by
  by_cases hfits : fits
  · rw [h.1 hfits, Outcome.bind_ok]
    exact hf.congr (and_iff_right hfits)
  · obtain ⟨e, rest₁, heq, htoo⟩ := h.2 hfits
    rw [heq, Outcome.bind_error]
    exact ⟨fun hboth => absurd hboth.1 hfits, fun _ => ⟨e, rest₁, rfl, htoo⟩⟩

/-- A field that is always read, behind one that may be over its cap. -/
theorem ReadsBack.bind_ok {o : Outcome ProtocolError Bytes α} {f : α → Exec ProtocolError Bytes β}
    {fits : Prop} {a : α} {b : β} {rest rest' : Bytes} (h : ReadsBack o fits a rest)
    (hf : f a rest = .ok b rest') : ReadsBack (o.bind f) fits b rest' :=
  (h.bind (readsBack_of_eq hf)).congr (by simp)

/-- A field that is always read, before one that may be over its cap. -/
theorem ReadsBack.after_ok {o : Outcome ProtocolError Bytes α} {f : α → Exec ProtocolError Bytes β}
    {fits : Prop} {a : α} {b : β} {rest rest' : Bytes} (ho : o = .ok a rest)
    (h : ReadsBack (f a rest) fits b rest') : ReadsBack (o.bind f) fits b rest' := by
  rw [ho, Outcome.bind_ok]
  exact h

theorem readWord_append [Word α] (value : α) (rest : Bytes) :
    readWord (Word.size α) (wordBytes value ++ rest) = .ok value rest := by
  have hlen : ¬ (wordBytes value ++ rest).length < Word.size α := by
    rw [List.length_append, length_wordBytes]
    omega
  simp only [readWord, Exec.bind_apply, Exec.remaining_apply, Outcome.bind_ok, Exec.ite_apply, if_neg hlen,
    Exec.get_append]

theorem readU16_append (value : UInt16) (rest : Bytes) : readU16 (wordBytes value ++ rest) = .ok value rest :=
  readWord_append value rest

theorem readI64_append (value : Int64) (rest : Bytes) : readI64 (wordBytes value ++ rest) = .ok value rest :=
  readWord_append value rest

theorem readUuid_append (value : BitVec 128) (rest : Bytes) :
    readUuid (wordBytes value ++ rest) = .ok value rest :=
  readWord_append value rest

/-- The byte length of the string is within what `maxChars` characters may take. -/
def Capped (maxChars : Nat) (value : String) : Prop := (utf8 value).length ≤ 3 * maxChars

theorem length_utf8_lt_of_stringBytes {value : String} {n : Nat} (h : (stringBytes value).length < n) :
    (utf8 value).length < n := by
  rw [stringBytes, List.length_append] at h
  omega

/-- Reading back a string: its length is checked against the cap before anything else. -/
theorem readString_append (t : Target) (maxChars : Nat) {value : String}
    (hlen : (stringBytes value).length < 2147483648) (rest : Bytes) :
    readString t maxChars (stringBytes value ++ rest)
      = if (utf8 value).length > t.saturatingMul maxChars maxBytesPerChar then
          .error (.stringTooLong (utf8 value).length (t.saturatingMul maxChars maxBytesPerChar))
            (utf8 value ++ rest)
        else .ok value rest := by
  have hread := readVarint_append t (Int32.ofNat (utf8 value).length) []
  rw [List.append_nil] at hread
  rw [stringBytes, List.append_assoc]
  exact readString_of_front hread (length_utf8_lt_of_stringBytes hlen) maxChars rest

theorem readsBack_string (t : Target) (maxChars : Nat) {value : String}
    (hlen : (stringBytes value).length < 2147483648) (rest : Bytes) :
    ReadsBack (readString t maxChars (stringBytes value ++ rest)) (Capped maxChars value) value rest := by
  have hmax : (utf8 value).length > t.saturatingMul maxChars maxBytesPerChar ↔ ¬ Capped maxChars value := by
    rw [exceeds_cap_iff t (length_utf8_lt_of_stringBytes hlen), Capped, Nat.not_le]
  rw [readString_append t maxChars hlen]
  refine ⟨fun hfits => if_neg (mt hmax.mp (not_not.mpr hfits)), fun hnot => ?_⟩
  rw [if_pos (hmax.mpr hnot)]
  exact ⟨_, _, rfl, rfl⟩

theorem readsBack_option {readValue : Exec ProtocolError Bytes α} {bytes : α → Bytes} {fits : α → Prop}
    {value : Option α} (rest : Bytes)
    (h : ∀ a, value = some a → ReadsBack (readValue (bytes a ++ rest)) (fits a) a rest) :
    ReadsBack (readPrefixedOptional readValue (optionBytes bytes value ++ rest))
      (∀ a, value = some a → fits a) value rest := by
  cases value with
  | none => exact (readsBack_of_eq (by simp [readPrefixedOptional, optionBytes])).congr (by simp)
  | some a =>
      have hread : readPrefixedOptional readValue (optionBytes bytes (some a) ++ rest)
          = (readValue (bytes a ++ rest)).bind fun a => pure (some a) := by
        simp [readPrefixedOptional, optionBytes]
      have hvalue : ReadsBack ((readValue (bytes a ++ rest)).bind fun a => pure (some a)) (fits a) (some a) rest :=
        (h a rfl).bind_ok rfl
      rw [hread]
      exact hvalue.congr (by simp)

/-- The element loop, by induction on the elements. -/
theorem readsBack_times {readItem : Exec ProtocolError Bytes α} {bytes : α → Bytes} {fits : α → Prop}
    (hitem : ∀ a rest, (bytes a).length < 2147483648 → ReadsBack (readItem (bytes a ++ rest)) (fits a) a rest)
    (items : List α) (rest : Bytes) (hlen : (items.flatMap bytes).length < 2147483648) :
    ReadsBack (Exec.times readItem items.length (items.flatMap bytes ++ rest)) (∀ a ∈ items, fits a)
      items rest := by
  induction items with
  | nil => exact (readsBack_of_eq rfl).congr (by simp)
  | cons a items ih =>
      rw [List.flatMap_cons, List.length_append] at hlen
      have hfirst := hitem a (items.flatMap bytes ++ rest) (by omega)
      rw [List.flatMap_cons, List.append_assoc]
      have hrest : ReadsBack ((Exec.times readItem items.length (items.flatMap bytes ++ rest)).bind
          fun as => pure (a :: as)) (∀ a ∈ items, fits a) (a :: items) rest := (ih (by omega)).bind_ok rfl
      exact (hfirst.bind hrest).congr (by simp)

theorem length_le_flatMap {bytes : α → Bytes} (hpos : ∀ a, 0 < (bytes a).length) (items : List α) :
    items.length ≤ (items.flatMap bytes).length := by
  induction items with
  | nil => simp
  | cons a items ih =>
      have ha := hpos a
      rw [List.flatMap_cons, List.length_append, List.length_cons]
      omega

theorem readsBack_array (t : Target) (maxLen : Nat) {readItem : Exec ProtocolError Bytes α}
    {bytes : α → Bytes} {fits : α → Prop} (hpos : ∀ a, 0 < (bytes a).length)
    (hitem : ∀ a rest, (bytes a).length < 2147483648 → ReadsBack (readItem (bytes a ++ rest)) (fits a) a rest)
    {items : List α} (hlen : (arrayBytes bytes items).length < 2147483648) (rest : Bytes) :
    ReadsBack (readPrefixedArray t maxLen readItem (arrayBytes bytes items ++ rest))
      (items.length ≤ maxLen ∧ ∀ a ∈ items, fits a) items rest := by
  have hitems : (items.flatMap bytes).length < 2147483648 := by
    rw [arrayBytes, List.length_append] at hlen
    omega
  have hcount : items.length < 2147483648 := lt_of_le_of_lt (length_le_flatMap hpos items) hitems
  have hread : readPrefixedArray t maxLen readItem (arrayBytes bytes items ++ rest)
      = if items.length > maxLen then .error (.arrayTooLong items.length maxLen) (items.flatMap bytes ++ rest)
        else Exec.times readItem items.length (items.flatMap bytes ++ rest) := by
    simp only [readPrefixedArray, arrayBytes, List.append_assoc, Exec.bind_apply, readVarint_append,
      Outcome.bind_ok, Target.tryFromInt32_ofNat hcount, Exec.ite_apply, Exec.throw_apply]
  rw [hread]
  by_cases hmax : items.length > maxLen
  · rw [if_pos hmax]
    exact ⟨fun hfits => absurd hfits.1 (Nat.not_le.mpr hmax), fun _ => ⟨_, _, rfl, rfl⟩⟩
  · rw [if_neg hmax]
    exact (readsBack_times hitem items rest hitems).congr (and_iff_right (Nat.not_lt.mp hmax))

/-! ## Packets -/

def ProfileProperty.Fits (self : ProfileProperty) : Prop :=
  Capped maxPropertyNameChars self.name ∧ Capped maxPropertyValueChars self.value ∧
    ∀ signature, self.signature = some signature → Capped maxSignatureChars signature

def GameProfile.Fits (self : GameProfile) : Prop :=
  Capped maxUsernameChars self.username ∧ self.properties.length ≤ maxProfileProperties ∧
    ∀ property ∈ self.properties, property.Fits

theorem ProfileProperty.readsBack (t : Target) {self : ProfileProperty}
    (hlen : self.bytes.length < 2147483648) (rest : Bytes) :
    ReadsBack (ProfileProperty.decodeFrom t (self.bytes ++ rest)) self.Fits self rest := by
  obtain ⟨name, value, signature⟩ := self
  simp only [ProfileProperty.bytes, List.length_append] at hlen
  simp only [ProfileProperty.bytes, List.append_assoc]
  refine (readsBack_string t _ (by omega) _).bind ?_
  refine (readsBack_string t _ (by omega) _).bind ?_
  refine (readsBack_option rest ?_).bind_ok rfl
  intro a ha
  subst ha
  simp only [optionBytes, List.length_cons] at hlen
  exact readsBack_string t _ (by omega) rest

theorem length_stringBytes_pos (value : String) : 0 < (stringBytes value).length := by
  have hpos := length_varintBytes_pos (Int32.ofNat (utf8 value).length)
  rw [stringBytes, List.length_append]
  omega

theorem ProfileProperty.length_bytes_pos (self : ProfileProperty) : 0 < self.bytes.length := by
  have hpos := length_stringBytes_pos self.name
  rw [ProfileProperty.bytes, List.length_append]
  omega

theorem GameProfile.readsBack (t : Target) {self : GameProfile} (hlen : self.bytes.length < 2147483648)
    (rest : Bytes) : ReadsBack (GameProfile.decodeFrom t (self.bytes ++ rest)) self.Fits self rest := by
  obtain ⟨uuid, username, properties⟩ := self
  simp only [GameProfile.bytes, List.length_append] at hlen
  simp only [GameProfile.bytes, List.append_assoc]
  unfold GameProfile.decodeFrom
  refine ReadsBack.after_ok (readUuid_append uuid _) ?_
  refine (readsBack_string t maxUsernameChars (by omega) _).bind ?_
  refine (readsBack_array t maxProfileProperties ProfileProperty.length_bytes_pos ?_ (by omega) rest).bind_ok rfl
  intro property rest hproperty
  exact property.readsBack t hproperty rest

theorem NextState.tryFrom_toInt32 (state : NextState) : NextState.tryFrom state.toInt32 = .ok state := by
  cases state <;> rfl

/-- The packets of type `P` encode, and are read back before any following bytes if and only if they
    `fit`; the others are refused as too long. -/
def RoundTrips (P : Type) [Packet P] (fits : P → Prop) : Prop :=
  ∀ (t : Target) (p : P) (rest : Bytes), (Packet.encode p).bytes.length < 2147483648 →
    (Packet.encode p).result = .ok () ∧
    (Packet.decode t ((Packet.encode p).bytes ++ rest) = .ok p rest ↔ fits p) ∧
    (¬ fits p → ∃ e rest', (Packet.decode t ((Packet.encode p).bytes ++ rest) : Outcome _ _ P)
      = .error e rest' ∧ e.isTooLong = true)

theorem roundTrips_of_readsBack {P : Type} [Packet P] [PlainPacket P] {fits : P → Prop}
    (h : ∀ (t : Target) (p : P) (rest : Bytes), (PlainPacket.body p).length < 2147483648 →
      ReadsBack (Packet.decode t (PlainPacket.body p ++ rest)) (fits p) p rest) : RoundTrips P fits := by
  intro t p rest hlen
  rw [PlainPacket.encode_eq] at hlen ⊢
  have hread := h t p rest hlen
  refine ⟨rfl, ⟨fun hok => ?_, hread.1⟩, hread.2⟩
  by_contra hfits
  obtain ⟨e, rest', herror, -⟩ := hread.2 hfits
  have hboth := hok.symm.trans herror
  cases hboth

theorem roundTrips_handshake :
    RoundTrips Handshake fun p => Capped maxServerAddressChars p.serverAddress := by
  refine roundTrips_of_readsBack fun t p rest hlen => ?_
  obtain ⟨version, address, port, state⟩ := p
  simp only [PlainPacket.body, List.length_append] at hlen
  simp only [PlainPacket.body, List.append_assoc]
  refine ReadsBack.after_ok (readVarint_append t version _) ?_
  refine (readsBack_string t maxServerAddressChars (by omega) _).bind_ok ?_
  simp only [Exec.bind_apply, readU16_append, Outcome.bind_ok, readVarint_append, NextState.tryFrom_toInt32]
  rfl

theorem roundTrips_string {P : Type} [Packet P] [PlainPacket P] (field : P → String) (wrap : String → P)
    {maxChars : Nat} (hwrap : ∀ p, wrap (field p) = p)
    (hbody : ∀ p : P, PlainPacket.body p = stringBytes (field p))
    (hdecode : ∀ t, (Packet.decode t : Exec ProtocolError Bytes P)
      = readString t maxChars >>= fun value => pure (wrap value)) :
    RoundTrips P fun p => Capped maxChars (field p) := by
  refine roundTrips_of_readsBack fun t p rest hlen => ?_
  rw [hbody] at hlen ⊢
  rw [hdecode]
  refine (readsBack_string t maxChars hlen rest).bind_ok ?_
  rw [hwrap]
  rfl

theorem roundTrips_loginStart : RoundTrips LoginStart fun p => Capped maxUsernameChars p.name := by
  refine roundTrips_of_readsBack fun t p rest hlen => ?_
  obtain ⟨name, uuid⟩ := p
  simp only [PlainPacket.body, List.length_append] at hlen
  simp only [PlainPacket.body, List.append_assoc]
  refine (readsBack_string t maxUsernameChars (by omega) _).bind_ok ?_
  rw [Exec.bind_apply, readUuid_append]
  rfl

theorem roundTrips_loginSuccess : RoundTrips LoginSuccess fun p => p.profile.Fits := by
  refine roundTrips_of_readsBack fun t p rest hlen => ?_
  obtain ⟨profile, sessionId⟩ := p
  simp only [PlainPacket.body, List.length_append] at hlen
  simp only [PlainPacket.body, List.append_assoc]
  refine (profile.readsBack t (by omega) _).bind_ok ?_
  rw [Exec.bind_apply, readUuid_append]
  rfl

/-- **Round trip of every packet type.** -/
theorem packets_round_trip :
    RoundTrips Handshake (fun p => Capped maxServerAddressChars p.serverAddress) ∧
    RoundTrips StatusRequest (fun _ => True) ∧
    RoundTrips StatusResponse (fun p => Capped maxStatusJsonChars p.json) ∧
    RoundTrips PingRequest (fun _ => True) ∧
    RoundTrips PongResponse (fun _ => True) ∧
    RoundTrips LoginDisconnect (fun p => Capped maxDisconnectReasonChars p.reason) ∧
    RoundTrips LoginStart (fun p => Capped maxUsernameChars p.name) ∧
    RoundTrips SetCompression (fun _ => True) ∧
    RoundTrips LoginSuccess (fun p => p.profile.Fits) ∧
    RoundTrips LoginAcknowledged (fun _ => True) := by
  refine ⟨roundTrips_handshake, ?_, ?_, ?_, ?_, ?_, roundTrips_loginStart, ?_, roundTrips_loginSuccess, ?_⟩
  · exact roundTrips_of_readsBack fun _ _ _ _ => readsBack_of_eq rfl
  · exact roundTrips_string StatusResponse.json StatusResponse.mk (fun _ => rfl) (fun _ => rfl) fun _ => rfl
  · exact roundTrips_of_readsBack fun _ p rest _ =>
      ReadsBack.after_ok (readI64_append p.payload rest) (readsBack_of_eq rfl)
  · exact roundTrips_of_readsBack fun _ p rest _ =>
      ReadsBack.after_ok (readI64_append p.payload rest) (readsBack_of_eq rfl)
  · exact roundTrips_string LoginDisconnect.reason LoginDisconnect.mk (fun _ => rfl) (fun _ => rfl) fun _ => rfl
  · exact roundTrips_of_readsBack fun t p rest _ =>
      ReadsBack.after_ok (readVarint_append t p.threshold rest) (readsBack_of_eq rfl)
  · exact roundTrips_of_readsBack fun _ _ _ _ => readsBack_of_eq rfl

theorem loginStart_round_trip_steve :
    (Packet.encode (⟨"Steve", 0⟩ : LoginStart)).bytes = [5, 83, 116, 101, 118, 101] ++ List.replicate 16 0 ∧
    Packet.decode .bits64 ((Packet.encode (⟨"Steve", 0⟩ : LoginStart)).bytes ++ [7])
      = .ok (⟨"Steve", 0⟩ : LoginStart) [7] := by
  obtain ⟨-, -, -, -, -, -, hstart, -⟩ := packets_round_trip
  have hcapped : Capped maxUsernameChars "Steve" := by
    show (utf8 "Steve").length ≤ 48
    decide +kernel
  refine ⟨by decide +kernel, ?_⟩
  exact (hstart .bits64 ⟨"Steve", 0⟩ [7] (by decide +kernel)).2.1.mpr hcapped

end Pyrite.Protocol
