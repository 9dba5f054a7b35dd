import Pyrite.Wire.Host

set_option autoImplicit false

/-! # Readers behind a limit

`reader.take(limit).read_to_end(&mut out)`, call by call, for a reader about which nothing is known but that
it cannot put more bytes into a buffer than the buffer holds. `takeToEnd_spec` bounds what is taken from any
reader. A reader that gives certain bytes and then stops in a certain way (`Realises`), in chunks of whatever
size, is read to the end as `Inflated.readToEnd` has it (`takeToEnd_eq`). -/

namespace Wire

variable {ρ : Type}

/-- What one call of `read` does: it leaves bytes in the buffer, none at the end of the input, or it fails. -/
inductive ReadStep (ρ : Type) where
  | chunk (bytes : Bytes) (next : ρ)
  | failed (reason : String)

/-- A `read_to_end` behind a `take`, under way. -/
structure Taking (ρ : Type) where
  inner : ρ
  /-- How many more bytes `take` lets through. -/
  limit : Nat
  out : Bytes
  calls : Nat
  /-- The reader has reported its end. -/
  ended : Bool

/-- One round of `read_to_end`. The sizes of the buffers it offers are its own choice. -/
def takeRound (read : ρ → Nat → ReadStep ρ) (pace : Nat → Nat) (_ : Unit) :
    Exec String (Taking ρ) (Unit ⊕ Unit) := do
  let s ← Exec.state
  -- `take` answers for the reader once the limit is used up
  if s.limit = 0 then pure (.inr ())
  else
    let size := min (pace s.calls + 1) s.limit
    match read s.inner size with
    | .failed reason => Exec.throw reason
    | .chunk bytes next => do
      let got := bytes.take size
      Exec.setState
        { inner := next
          limit := s.limit - got.length
          out := s.out ++ got
          calls := s.calls + 1
          ended := got.isEmpty }
      if got.isEmpty then pure (.inr ()) else pure (.inl ())

/-- `read_to_end` behind `take`: until the limit, the end of the input, or an error. -/
def takeToEnd (read : ρ → Nat → ReadStep ρ) (pace : Nat → Nat) : Exec String (Taking ρ) Unit :=
  Exec.loop Taking.limit (takeRound read pace) ()

/-- Before the first round. -/
def Taking.start (inner : ρ) (limit : Nat) : Taking ρ := ⟨inner, limit, [], 0, false⟩

/-- Rule for `takeToEnd`: what holds when a round has taken some bytes, and what each way to stop gives. -/
theorem takeToEnd_rule (inv : Taking ρ → Prop) {read : ρ → Nat → ReadStep ρ} {pace : Nat → Nat}
    {Q : Taking ρ → Prop} {E : String → Taking ρ → Prop}
    (hlimit : ∀ s, inv s → s.limit = 0 → Q s)
    (hfailed : ∀ s reason, inv s → 0 < s.limit →
      read s.inner (min (pace s.calls + 1) s.limit) = .failed reason → E reason s)
    (hchunk : ∀ s bytes next, inv s → 0 < s.limit →
      read s.inner (min (pace s.calls + 1) s.limit) = .chunk bytes next →
      (bytes = [] → Q ⟨next, s.limit, s.out, s.calls + 1, true⟩) ∧
      (bytes ≠ [] → inv ⟨next, s.limit - (bytes.take (min (pace s.calls + 1) s.limit)).length,
        s.out ++ bytes.take (min (pace s.calls + 1) s.limit), s.calls + 1, false⟩))
    (s : Taking ρ) (hs : inv s) :
    (takeToEnd read pace s).Satisfies (fun _ s' => Q s') E := by
  refine Exec.loop_spec (fun _ s => inv s) Taking.limit (fun _ s hinv => ?_) () s hs
  unfold takeRound
  simp only [Exec.bind_apply, Exec.state_apply, Outcome.bind_ok, Exec.ite_apply]
  by_cases hzero : s.limit = 0
  · rw [if_pos hzero]
    exact hlimit s hinv hzero
  have hpos : 0 < s.limit := Nat.pos_of_ne_zero hzero
  rw [if_neg hzero]
  cases hread : read s.inner (min (pace s.calls + 1) s.limit) with
  | failed reason => exact hfailed s reason hinv hpos hread
  | chunk bytes next =>
      obtain ⟨hend, hmore⟩ := hchunk s bytes next hinv hpos hread
      cases bytes with
      | nil =>
          have hdone := hend rfl
          simpa using hdone
      | cons b bs =>
          have hstep := hmore (List.cons_ne_nil b bs)
          obtain ⟨size, hsize⟩ : ∃ size, min (pace s.calls + 1) s.limit = size + 1 :=
            ⟨min (pace s.calls + 1) s.limit - 1, by omega⟩
          rw [hsize, List.take_succ_cons] at hstep
          simp only [hsize, List.take_succ_cons, Exec.bind_apply, Exec.setState_apply, Outcome.bind_ok, List.isEmpty_cons,
            Bool.false_eq_true, if_false, Exec.pure_apply, Outcome.satisfies_ok, Sum.elim_inl]
          refine ⟨hstep, ?_⟩
          rw [List.length_cons]
          omega

/-- Whatever the reader does, no more than the limit is taken from it, and what is less was ended by it. -/
theorem takeToEnd_spec (read : ρ → Nat → ReadStep ρ) (pace : Nat → Nat) (inner : ρ) (limit : Nat) :
    (takeToEnd read pace (.start inner limit)).Satisfies
      (fun _ s => s.out.length ≤ limit ∧ (s.out.length < limit → s.ended = true))
      (fun _ s => s.out.length ≤ limit) := by
  refine takeToEnd_rule (fun s => s.out.length + s.limit = limit) ?_ ?_ ?_ _ (Nat.zero_add limit)
  · intro s hinv hzero
    exact ⟨by omega, fun hlt => by omega⟩
  · intro s reason hinv _ _
    omega
  · intro s bytes next hinv hpos _
    refine ⟨fun _ => ⟨Nat.le_of_add_right_le hinv.le, fun _ => rfl⟩, fun _ => ?_⟩
    show (s.out ++ _).length + (s.limit - _) = limit
    rw [List.length_append, List.length_take]
    omega

/-! ## Readers of given bytes -/

/-- `R r i`: from `r` on, the reader gives what `i` gives, in chunks of its own choice. -/
structure Realises (read : ρ → Nat → ReadStep ρ) (R : ρ → Inflated → Prop) : Prop where
  chunk : ∀ {r : ρ} {output : Bytes} {finish : Except String Unit} {size : Nat},
    R r ⟨output, finish⟩ → 0 < size → output ≠ [] →
    ∃ bytes rest next, output = bytes ++ rest ∧ bytes ≠ [] ∧ bytes.length ≤ size ∧
      read r size = .chunk bytes next ∧ R next ⟨rest, finish⟩
  ended : ∀ {r : ρ} {size : Nat}, R r ⟨[], .ok ()⟩ → 0 < size → ∃ next, read r size = .chunk [] next
  failed : ∀ {r : ρ} {reason : String} {size : Nat}, R r ⟨[], .error reason⟩ → 0 < size →
    read r size = .failed reason

/-- The three things that a call can do. -/
theorem Realises.read_cases {read : ρ → Nat → ReadStep ρ} {R : ρ → Inflated → Prop} (h : Realises read R) {r : ρ}
    {output : Bytes} {finish : Except String Unit} {size : Nat} (hr : R r ⟨output, finish⟩) (hsize : 0 < size) :
    (∃ bytes rest next, output = bytes ++ rest ∧ bytes ≠ [] ∧ bytes.length ≤ size ∧
      read r size = .chunk bytes next ∧ R next ⟨rest, finish⟩) ∨
    (output = [] ∧ finish = .ok () ∧ ∃ next, read r size = .chunk [] next) ∨
    (output = [] ∧ ∃ reason, finish = .error reason ∧ read r size = .failed reason) := by
  by_cases houtput : output = []
  · subst houtput
    cases finish with
    | ok u => exact Or.inr (Or.inl ⟨rfl, rfl, h.ended hr hsize⟩)
    | error reason => exact Or.inr (Or.inr ⟨rfl, reason, rfl, h.failed hr hsize⟩)
  · exact Or.inl (h.chunk hr hsize houtput)

theorem takeToEnd_eq {read : ρ → Nat → ReadStep ρ} {R : ρ → Inflated → Prop} (h : Realises read R)
    (pace : Nat → Nat) {inner : ρ} {i : Inflated} (hinner : R inner i) (limit : Nat) :
    (takeToEnd read pace (.start inner limit)).Satisfies
      (fun _ s => i.readToEnd limit = .ok s.out)
      (fun reason _ => i.readToEnd limit = .error reason) := by
  obtain ⟨output, finish⟩ := i
  -- what has been taken and what is still to come make up the output
  refine takeToEnd_rule (fun s => s.out.length + s.limit = limit ∧
    ∃ rest, output = s.out ++ rest ∧ R s.inner ⟨rest, finish⟩) ?_ ?_ ?_ _
    ⟨Nat.zero_add limit, output, rfl, hinner⟩
  · intro s hinv hzero
    obtain ⟨hlen, rest, rfl, -⟩ := hinv
    obtain rfl : s.out.length = limit := by omega
    rw [Inflated.readToEnd, if_pos (by simp), List.take_left]
  · intro s reason hinv hpos hread
    obtain ⟨hlen, rest, rfl, hR⟩ := hinv
    rcases h.read_cases hR (by omega : 0 < min (pace s.calls + 1) s.limit) with
      ⟨bytes, rest', next, -, -, -, hchunk, -⟩ | ⟨-, -, next, hended⟩ | ⟨rfl, reason', rfl, hfailed⟩
    · rw [hchunk] at hread
      cases hread
    · rw [hended] at hread
      cases hread
    · rw [hfailed] at hread
      obtain rfl := ReadStep.failed.inj hread
      rw [Inflated.readToEnd, List.append_nil, if_neg (by simp only; omega)]
  · intro s bytes next hinv hpos hread
    obtain ⟨hlen, rest, rfl, hR⟩ := hinv
    rcases h.read_cases hR (by omega : 0 < min (pace s.calls + 1) s.limit) with
      ⟨bytes', rest', next', hrest, hne, hle, hchunk, hR'⟩ | ⟨rfl, rfl, next', hended⟩ | ⟨-, reason, -, hfailed⟩
    · rw [hread] at hchunk
      obtain ⟨rfl, rfl⟩ := ReadStep.chunk.inj hchunk
      refine ⟨fun hnil => absurd hnil hne, fun _ => ?_⟩
      rw [List.take_of_length_le hle]
      refine ⟨?_, rest', by rw [hrest, List.append_assoc], hR'⟩
      show (s.out ++ bytes).length + (s.limit - bytes.length) = limit
      rw [List.length_append]
      omega
    · rw [hread] at hended
      obtain ⟨rfl, -⟩ := ReadStep.chunk.inj hended
      refine ⟨fun _ => ?_, fun hne => absurd rfl hne⟩
      rw [Inflated.readToEnd, List.append_nil, if_neg (by simp only; omega)]
    · rw [hfailed] at hread
      cases hread

/-- A reader of given bytes that fills every buffer as far as it can. -/
def Inflated.read (self : Inflated) (size : Nat) : ReadStep Inflated :=
  match self.output, self.finish with
  | [], .error reason => .failed reason
  | output, finish => .chunk (output.take size) ⟨output.drop size, finish⟩

theorem Inflated.read_realises : Realises Inflated.read Eq := by
  constructor
  · intro r output finish size hr hsize hne
    subst hr
    refine ⟨output.take size, output.drop size, ⟨output.drop size, finish⟩, ?_, ?_, ?_, ?_, rfl⟩
    · exact (List.take_append_drop size output).symm
    · simpa [Nat.pos_iff_ne_zero.mp hsize] using hne
    · rw [List.length_take]
      exact Nat.min_le_left _ _
    · cases output with
      | nil => exact absurd rfl hne
      | cons b bs => rfl
  · intro r size hr _
    subst hr
    exact ⟨⟨[], .ok ()⟩, by simp [Inflated.read]⟩
  · intro r reason size hr _
    subst hr
    rfl

/-! ## Streams -/

/-- What is known of the inflater. `Stream s out` says that `s` is one zlib stream for `out`, whole and with
    the right checksum. -/
structure InflatesStreams (z : Zlib) (Stream : Bytes → Bytes → Prop) : Prop where
  /-- A stream is decoded, and what follows it is ignored. -/
  decodes : ∀ {s out : Bytes} (rest : Bytes), Stream s out → z.inflate (s ++ rest) = ⟨out, .ok ()⟩
  /-- The end is reported where a stream ends, and nowhere else. -/
  ends : ∀ {input out : Bytes}, z.inflate input = ⟨out, .ok ()⟩ → ∃ s rest, input = s ++ rest ∧ Stream s out
  /-- A stream says itself where it ends. -/
  delimited : ∀ {s more out out' : Bytes}, Stream s out → Stream (s ++ more) out' → more = []

/-- The zlib stream of one stored block. -/
def storedStream (out : Bytes) : Bytes :=
  [120, 1, 1] ++ (wordBytes (UInt16.ofNat out.length)).reverse ++ (wordBytes (~~~UInt16.ofNat out.length)).reverse
    ++ out ++ wordBytes (adler32 out)

theorem length_storedStream (out : Bytes) : (storedStream out).length = out.length + 11 := by
  simp only [storedStream, List.length_append, List.length_reverse, length_wordBytes, List.length_cons,
    List.length_nil, Word.size]
  omega

/-- An inflater for stored blocks: the length in the header says where the checksum stands. -/
def inflateStored (input : Bytes) : Inflated :=
  let len := (input.getD 3 0).toNat + 256 * (input.getD 4 0).toNat
  let out := (input.drop 7).take len
  if storedStream out <+: input then ⟨out, .ok ()⟩ else ⟨[], .error "corrupt deflate stream"⟩

/-- The header of a stored block, its bytes and its checksum. -/
theorem storedStream_eq {out : Bytes} (h : out.length < 65536) :
    ∃ nlow nhigh, storedStream out =
      [120, 1, 1, UInt8.ofNat out.length, UInt8.ofNat (out.length / 256), nlow, nhigh]
        ++ (out ++ wordBytes (adler32 out)) := by
  have hword : ∀ w : UInt16, (wordBytes w).reverse = [UInt8.ofNat w.toNat, UInt8.ofNat (w.toNat / 256)] := by
    intro w
    simp [wordBytes, toBe, Word.size, Word.toNat]
  have hlen : (UInt16.ofNat out.length).toNat = out.length := UInt16.toNat_ofNat_of_lt h
  rw [storedStream, hword, hword, hlen]
  exact ⟨_, _, rfl⟩

theorem inflateStored_append {out : Bytes} (h : out.length < 65536) (rest : Bytes) :
    inflateStored (storedStream out ++ rest) = ⟨out, .ok ()⟩ := by
  obtain ⟨nlow, nhigh, hstream⟩ := storedStream_eq h
  have hlen : ((storedStream out ++ rest).getD 3 0).toNat + 256 * ((storedStream out ++ rest).getD 4 0).toNat
      = out.length := by
    rw [hstream]
    show (UInt8.ofNat out.length).toNat + 256 * (UInt8.ofNat (out.length / 256)).toNat = out.length
    rw [UInt8.toNat_ofNat', UInt8.toNat_ofNat']
    omega
  have hout : ((storedStream out ++ rest).drop 7).take out.length = out := by
    rw [hstream]
    show ((out ++ wordBytes (adler32 out)) ++ rest).take out.length = out
    rw [List.append_assoc, List.take_left]
  simp only [inflateStored, hlen, hout]
  rw [if_pos (List.prefix_append _ _)]

/-- zlib for stored blocks. -/
def Zlib.storedBlock : Zlib where
  deflate := Zlib.stored.deflate
  inflate := inflateStored

def IsStoredStream (s out : Bytes) : Prop := out.length < 65536 ∧ s = storedStream out

theorem storedBlock_inflatesStreams : InflatesStreams Zlib.storedBlock IsStoredStream := by
  constructor
  · rintro s out rest ⟨hlen, rfl⟩
    exact inflateStored_append hlen rest
  · intro input out hinflate
    simp only [Zlib.storedBlock, inflateStored] at hinflate
    split_ifs at hinflate with hstream
    swap
    · cases hinflate
    obtain ⟨hout, -⟩ := Inflated.mk.inj hinflate
    rw [hout] at hstream
    obtain ⟨rest, hrest⟩ := hstream
    refine ⟨storedStream out, rest, hrest.symm, ?_, rfl⟩
    have hlow := (input.getD 3 0).toNat_lt
    have hhigh := (input.getD 4 0).toNat_lt
    have hle := congrArg List.length hout
    rw [List.length_take] at hle
    omega
  · rintro s more out out' ⟨hlen, rfl⟩ ⟨hlen', hmore⟩
    have hsame := inflateStored_append hlen more
    have hother := inflateStored_append hlen' []
    rw [List.append_nil, ← hmore, hsame] at hother
    obtain ⟨rfl, -⟩ := Inflated.mk.inj hother
    exact List.append_right_eq_self.mp hmore

end Wire
