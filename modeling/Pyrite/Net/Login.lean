import Pyrite.Net.Run

set_option autoImplicit false

/-! # The login sequence

Login is a handshake that asks for it, a `LoginStart` answered by `SetCompression` (if configured) and
`LoginSuccess`, and a `LoginAcknowledged`. The dispatcher keys on the state and the packet ID only, and
the state does not record how far the sequence has come. Two guarantees therefore rest on the client
keeping to it, and this file says exactly how far:

* the configuration state is entered after a `LoginSuccess`, in runs whose acknowledgements come after
  a `LoginStart` (`configuration_after_login`);
* compression is negotiated once and in the old format, in runs with at most one accepted `LoginStart`
  (`compression_negotiated_once`). -/

namespace Pyrite.Net

open Wire Protocol

variable {env : Env} {config : ServerConfig} {history : List (Connection × RawPacket)} {live : Bool}
  {s : Connection}

/-! ## Reaching the configuration state -/

/-- A `LoginStart` was handled in the login state. -/
def StartHandled (history : List (Connection × RawPacket)) : Prop :=
  ∃ entry ∈ history, entry.1.state.current = .login ∧ entry.2.id = Packet.id LoginStart

/-- Every `LoginAcknowledged` handled in the login state comes after a `LoginStart` handled there. -/
def AcknowledgedAfterStart (history : List (Connection × RawPacket)) : Prop :=
  ∀ before s frame after, history = before ++ (s, frame) :: after → s.state.current = .login →
    frame.id = Packet.id LoginAcknowledged → StartHandled before

/-- A `LoginStart` for an accepted username was handled, and its `LoginSuccess` has been sent. -/
def LoggedIn (env : Env) (history : List (Connection × RawPacket)) (s : Connection) : Prop :=
  ∃ entry ∈ history, ∃ start, entry.1.state.current = .login ∧ entry.2.id = Packet.id LoginStart ∧
    Accepts env entry.2 start ∧ ∃ e ∈ s.sent, e.packet = .loginSuccess (loginSuccessFor env start.name)

theorem LoggedIn.mono {history' : List (Connection × RawPacket)} {s' : Connection}
    (h : LoggedIn env history s) (hsent : ∀ e ∈ s.sent, e ∈ s'.sent) :
    LoggedIn env (history ++ history') s' := by
  obtain ⟨entry, hentry, start, hstate, hid, haccepts, e, he, hpacket⟩ := h
  exact ⟨entry, List.mem_append_left _ hentry, start, hstate, hid, haccepts, e, hsent e he, hpacket⟩

/-- As long as the connection goes on, every `LoginStart` it handled has been answered. -/
theorem Run.loggedIn_of_startHandled (h : Run env config history live s) :
    live = true → StartHandled history → LoggedIn env history s := by
  refine Run.induction (P := fun history live s => live = true → StartHandled history →
    LoggedIn env history s) ?_ ?_ h
  · intro _ hstart
    obtain ⟨entry, hentry, -⟩ := hstart
    cases hentry
  · intro history s frame live s' hrun ih hhandled hlive hstart
    subst hlive
    obtain ⟨entry, hentry, hstate, hid⟩ := hstart
    rcases List.mem_append.mp hentry with hbefore | hlast
    · exact (ih rfl ⟨entry, hbefore, hstate, hid⟩).mono fun _ he => hhandled.sent_sublist.subset he
    · obtain rfl := List.mem_singleton.mp hlast
      obtain ⟨start, haccepts, hsent⟩ := hhandled.of_loginStart hstate hid
      refine ⟨_, hentry, start, hstate, hid, haccepts, ?_⟩
      rw [hsent]
      exact ⟨_, List.mem_append_right _ (List.mem_append_right _ (List.mem_singleton_self _)), rfl⟩

/-- Without a `LoginStart` no `LoginSuccess` is sent. -/
theorem Run.sent_quiet_of_not_startHandled (h : Run env config history live s) :
    ¬ StartHandled history → ∀ e ∈ s.sent, Emitted.Quiet e := by
  refine Run.induction (P := fun history _ s => ¬ StartHandled history →
    ∀ e ∈ s.sent, Emitted.Quiet e) ?_ ?_ h
  · intro _ e he
    cases he
  · intro history s frame live s' hrun ih hhandled hstart e he
    have hbefore : ¬ StartHandled history := by
      intro ⟨entry, hentry, h⟩
      exact hstart ⟨entry, List.mem_append_left _ hentry, h⟩
    rcases hhandled.loginStart_or_quiet with ⟨_, _, hstate, hid, -⟩ | ⟨entries, hquiet, hsent, -⟩
    · exact absurd ⟨_, List.mem_append_right _ (List.mem_singleton_self _), hstate, hid⟩ hstart
    · rw [hsent] at he
      rcases List.mem_append.mp he with he | he
      · exact ih hbefore e he
      · exact hquiet e he

theorem AcknowledgedAfterStart.of_append {entry : Connection × RawPacket}
    (h : AcknowledgedAfterStart (history ++ [entry])) : AcknowledgedAfterStart history := by
  intro before s frame after heq
  exact h before s frame (after ++ [entry]) (by rw [heq]; simp)

theorem Run.loggedIn_of_configuration (h : Run env config history live s) :
    AcknowledgedAfterStart history → s.state.current = .configuration → LoggedIn env history s := by
  refine Run.induction (P := fun history _ s => AcknowledgedAfterStart history →
    s.state.current = .configuration → LoggedIn env history s) ?_ ?_ h
  · intro _ hstate
    cases hstate
  · intro history s frame live s' hrun ih hhandled hordered hstate
    -- only an acknowledgement enters the state; in all other cases it was there before
    have hkept : s'.state.current = s.state.current → LoggedIn env (history ++ [(s, frame)]) s' :=
      fun heq => (ih hordered.of_append (heq ▸ hstate)).mono fun _ he => hhandled.sent_sublist.subset he
    cases hhandled with
    | handshake _ htarget heffect =>
        rw [heffect.state] at hstate
        rcases htarget with rfl | rfl
        · cases hstate
        · cases hstate
    | loginStart _ _ _ _ _ heffect => exact hkept (by rw [heffect.state])
    | loginAcknowledged hlogin hid heffect =>
        have hstart : StartHandled history := hordered history s frame [] rfl hlogin hid
        refine (hrun.loggedIn_of_startHandled rfl hstart).mono fun e he => ?_
        rw [heffect.sent]
        exact List.mem_append_left _ he
    | other _ hcurrent _ heffect => exact hkept (by rw [heffect.state, hcurrent])

/-- **Configuration follows login.** In every run whose acknowledgements come after a `LoginStart`, the
    configuration state is reached only after a `LoginSuccess` for an accepted username. A first
    acknowledgement without one is not refused: it does reach the configuration state, with nothing
    of a login sent. -/
theorem configuration_after_login (h : Run env config history live s) :
    (AcknowledgedAfterStart history → s.state.current = .configuration → LoggedIn env history s) ∧
    (∀ before s₀ frame, history = before ++ [(s₀, frame)] → s₀.state.current = .login →
      frame.id = Packet.id LoginAcknowledged → ¬ StartHandled before →
      s.state.current = .configuration ∧ ¬ LoggedIn env history s) := by
  refine ⟨h.loggedIn_of_configuration, ?_⟩
  intro before s₀ frame heq hlogin hid hstart
  subst heq
  obtain ⟨hbefore, hhandled⟩ := h.last
  cases hhandled with
  | handshake hstate _ _ => rw [hlogin] at hstate; cases hstate
  | loginStart _ hid' _ _ _ _ => rw [hid] at hid'; exact absurd hid' (by decide)
  | loginAcknowledged _ _ heffect =>
      refine ⟨by rw [heffect.state], ?_⟩
      intro hparts
      obtain ⟨-, -, start, -, -, -, e, he, hpacket⟩ := hparts
      rw [heffect.sent, List.append_nil] at he
      have hquiet := hbefore.sent_quiet_of_not_startHandled hstart e he
      rw [Emitted.Quiet, hpacket] at hquiet
      exact hquiet
  | other hlogin' _ _ _ => exact absurd hid (hlogin' hlogin).2

/-- What the other crates answer while one player, Steve, logs in: the MD5 digest is that of
    `OfflinePlayer:Steve`, and every flush succeeds. -/
def steveEnv : Env where
  target := .bits64
  zlib := zeroZlib
  md5 _ := #v[86, 39, 221, 152, 230, 190, 188, 33, 248, 168, 233, 35, 68, 24, 54, 65]
  textToJson component := .ok ("\x7b\"text\":\"" ++ component.text ++ "\"\x7d")
  statusToJson _ := .error "no status document is asked for"
  flush _ := .ok ()

/-- The same with a compressor that works, by storing its input. -/
def storedEnv : Env := { steveEnv with zlib := .stored }

/-- A handshake for protocol 776 that asks for login. -/
def loginHandshake : RawPacket := ⟨0, [136, 6, 1, 97, 99, 221, 2]⟩

/-- A `LoginStart` for the name Steve, with a zero UUID. -/
def steveStart : RawPacket := ⟨0, [5, 83, 116, 101, 118, 101] ++ List.replicate 16 0⟩

def acknowledgement : RawPacket := ⟨3, []⟩

/-- The connection after the handshake. -/
def inLogin : Connection := { Connection.new .default with state := ⟨.login, false⟩ }

theorem run_loginHandshake : Run steveEnv .default [(.new .default, loginHandshake)] true inLogin :=
  .proceed .fresh rfl

theorem handle_acknowledgement {s : Connection} (h : s.state.current = .login) :
    Connection.handle steveEnv acknowledgement s
      = .ok .proceed { s with state := { s.state with current := .configuration } } := by
  obtain ⟨codec, ⟨current, seen⟩, config, written, sent⟩ := s
  obtain rfl : current = .login := h
  rfl

/-- A handshake and an acknowledgement are enough to reach the configuration state. -/
theorem configuration_without_login :
    ∃ s, Run steveEnv .default [(.new .default, loginHandshake), (inLogin, acknowledgement)] true s ∧
      s.state.current = .configuration ∧ s.sent = [] ∧
      ¬ LoggedIn steveEnv [(.new .default, loginHandshake), (inLogin, acknowledgement)] s := by
  refine ⟨_, run_loginHandshake.proceed (handle_acknowledgement rfl), rfl, rfl, ?_⟩
  intro hloggedIn
  obtain ⟨-, -, start, -, -, -, e, he, -⟩ := hloggedIn
  cases he

/-- The state after a frame that leaves the connection open. -/
def stateAfter (env : Env) (frame : RawPacket) (s : Connection) : Option ConnectionState :=
  match Connection.handle env frame s with
  | .ok .proceed s' => some s'.state
  | _ => none

theorem handle_of_stateAfter {frame : RawPacket} {state : ConnectionState}
    (h : stateAfter env frame s = some state) :
    ∃ s', Connection.handle env frame s = .ok .proceed s' ∧ s'.state = state := by
  unfold stateAfter at h
  split at h
  · rename_i s' heq
    exact ⟨s', heq, Option.some.inj h⟩
  · cases h

theorem handle_steveStart :
    ∃ s, Connection.handle steveEnv steveStart inLogin = .ok .proceed s ∧ s.state = ⟨.login, false⟩ :=
  handle_of_stateAfter (by decide +kernel)

theorem configuration_after_login_steve :
    ∃ history s, Run steveEnv .default history true s ∧ s.state.current = .configuration ∧
      LoggedIn steveEnv history s := by
  obtain ⟨s, hstart, hstate⟩ := handle_steveStart
  have hrun := (run_loginHandshake.proceed hstart).proceed
    (handle_acknowledgement (congrArg ConnectionState.current hstate))
  refine ⟨_, _, hrun, rfl, (configuration_after_login hrun).1 ?_ rfl⟩
  -- the acknowledgement is the third frame, and the second is a `LoginStart`
  intro before s' frame after heq _ hid
  rcases before with _ | ⟨first, _ | ⟨second, before⟩⟩
  · obtain ⟨⟨-, rfl⟩, -⟩ := List.cons.inj heq
    exact absurd hid (by decide)
  · obtain ⟨-, heq⟩ := List.cons.inj heq
    obtain ⟨⟨-, rfl⟩, -⟩ := List.cons.inj heq
    exact absurd hid (by decide)
  · obtain ⟨-, heq⟩ := List.cons.inj heq
    obtain ⟨rfl, -⟩ := List.cons.inj heq
    exact ⟨(inLogin, steveStart), by simp, rfl, rfl⟩

/-! ## Negotiating compression -/

def Emitted.isSetCompression (e : Emitted) : Bool :=
  match e.packet with
  | .setCompression _ => true
  | _ => false

def Emitted.isLoginSuccess (e : Emitted) : Bool :=
  match e.packet with
  | .loginSuccess _ => true
  | _ => false

/-- A `LoginStart` for an accepted username, handled in the login state. -/
def AcceptedStart (env : Env) (entry : Connection × RawPacket) : Prop :=
  entry.1.state.current = .login ∧ entry.2.id = Packet.id LoginStart ∧
    ∃ start, Accepts env entry.2 start

/-- No two of the frames handled are accepted `LoginStart`s. -/
def StartsOnce (env : Env) (history : List (Connection × RawPacket)) : Prop :=
  history.Pairwise fun e₁ e₂ => ¬ (AcceptedStart env e₁ ∧ AcceptedStart env e₂)

/-- At most one `SetCompression` and one `LoginSuccess`, and the former in the uncompressed format. -/
structure NegotiatedOnce (sent : List Emitted) : Prop where
  setCompression : sent.countP Emitted.isSetCompression ≤ 1
  loginSuccess : sent.countP Emitted.isLoginSuccess ≤ 1
  uncompressed : ∀ e ∈ sent, e.isSetCompression = true → e.threshold = none

theorem Emitted.Quiet.isSetCompression {e : Emitted} (h : e.Quiet) : e.isSetCompression = false := by
  unfold Emitted.Quiet at h
  unfold Emitted.isSetCompression
  split at h <;> simp_all

theorem Emitted.Quiet.isLoginSuccess {e : Emitted} (h : e.Quiet) : e.isLoginSuccess = false := by
  unfold Emitted.Quiet at h
  unfold Emitted.isLoginSuccess
  split at h <;> simp_all

/-- Packets that belong to no login change nothing about the negotiation. -/
theorem NegotiatedOnce.append_quiet {sent entries : List Emitted} (h : NegotiatedOnce sent)
    (hquiet : ∀ e ∈ entries, Emitted.Quiet e) : NegotiatedOnce (sent ++ entries) := by
  have hset : entries.countP Emitted.isSetCompression = 0 :=
    List.countP_eq_zero.mpr fun e he => by simp [(hquiet e he).isSetCompression]
  have hsuccess : entries.countP Emitted.isLoginSuccess = 0 :=
    List.countP_eq_zero.mpr fun e he => by simp [(hquiet e he).isLoginSuccess]
  refine ⟨?_, ?_, fun e he hkind => ?_⟩
  · rw [List.countP_append, hset]
    exact h.setCompression
  · rw [List.countP_append, hsuccess]
    exact h.loginSuccess
  · rcases List.mem_append.mp he with he | he
    · exact h.uncompressed e he hkind
    · rw [(hquiet e he).isSetCompression] at hkind
      cases hkind

theorem negotiatedOnce_nil : NegotiatedOnce [] :=
  ⟨Nat.zero_le _, Nat.zero_le _, fun _ he => nomatch he⟩

/-- The answer to one `LoginStart`, from an uncompressed codec, is a single negotiation. -/
theorem negotiatedOnce_loginEntries (env : Env) {s : Connection} (start : LoginStart)
    (huncompressed : s.codec.compressionThreshold = none) :
    NegotiatedOnce (loginEntries env s start) := by
  unfold loginEntries compressionEntries
  cases s.config.compressionThreshold with
  | none =>
      refine ⟨by simp [Emitted.isSetCompression], by simp [Emitted.isLoginSuccess], fun e he hkind => ?_⟩
      obtain rfl := List.mem_singleton.mp he
      cases hkind
  | some threshold =>
      refine ⟨by simp [List.countP_cons, Emitted.isSetCompression],
        by simp [List.countP_cons, Emitted.isLoginSuccess], fun e he hkind => ?_⟩
      rcases List.mem_cons.mp he with rfl | he
      · exact huncompressed
      · obtain rfl := List.mem_singleton.mp he
        cases hkind

theorem loginEntries_loginSuccess (env : Env) (s : Connection) (start : LoginStart) :
    1 ≤ (loginEntries env s start).countP Emitted.isLoginSuccess := by
  unfold loginEntries
  rw [List.countP_append]
  exact Nat.le_add_left 1 _

/-- A part of a negotiation, after packets that belong to no login. -/
theorem NegotiatedOnce.of_quiet_append {sent entries full : List Emitted} (h : NegotiatedOnce full)
    (hquiet : ∀ e ∈ sent, Emitted.Quiet e) (hentries : entries <+: full) :
    NegotiatedOnce (sent ++ entries) := by
  have hpart : NegotiatedOnce entries := by
    refine ⟨?_, ?_, fun e he => h.uncompressed e (hentries.subset he)⟩
    · exact le_trans (hentries.sublist.countP_le) h.setCompression
    · exact le_trans (hentries.sublist.countP_le) h.loginSuccess
  have hperm : (entries ++ sent).Perm (sent ++ entries) := List.perm_append_comm
  have hswapped := hpart.append_quiet hquiet
  refine ⟨?_, ?_, fun e he => hswapped.uncompressed e (hperm.mem_iff.mpr he)⟩
  · rw [← hperm.countP_eq]
    exact hswapped.setCompression
  · rw [← hperm.countP_eq]
    exact hswapped.loginSuccess

/-- The codec stays uncompressed, and nothing of a login is sent, until a `LoginStart` is accepted. -/
theorem Run.before_acceptedStart (h : Run env config history live s) :
    (∀ entry ∈ history, ¬ AcceptedStart env entry) →
      s.codec.compressionThreshold = none ∧ ∀ e ∈ s.sent, Emitted.Quiet e := by
  refine Run.induction (P := fun history _ s => (∀ entry ∈ history, ¬ AcceptedStart env entry) →
    s.codec.compressionThreshold = none ∧ ∀ e ∈ s.sent, Emitted.Quiet e) ?_ ?_ h
  · intro _
    exact ⟨rfl, fun e he => nomatch he⟩
  · intro history s frame live s' hrun ih hhandled hnone
    obtain ⟨hthreshold, hquiet⟩ := ih fun entry hentry => hnone entry (List.mem_append_left _ hentry)
    rcases hhandled.loginStart_or_quiet with
      ⟨_, _, hstate, hid, haccepts, -⟩ | ⟨entries, hentries, hsent, hkept⟩
    · have hlast := hnone (s, frame) (List.mem_append_right _ (List.mem_singleton_self _))
      exact absurd ⟨hstate, hid, _, haccepts⟩ hlast
    · rw [hsent, hkept]
      refine ⟨hthreshold, ?_⟩
      intro e he
      rcases List.mem_append.mp he with he | he
      · exact hquiet e he
      · exact hentries e he

theorem Run.negotiatedOnce_of_startsOnce (h : Run env config history live s) :
    StartsOnce env history → NegotiatedOnce s.sent := by
  refine Run.induction (P := fun history _ s => StartsOnce env history → NegotiatedOnce s.sent) ?_ ?_ h
  · intro _
    exact negotiatedOnce_nil
  · intro history s frame live s' hrun ih hhandled honce
    obtain ⟨hbefore, -, hlast⟩ := List.pairwise_append.mp honce
    rcases hhandled.loginStart_or_quiet with
      ⟨start, entries, hstate, hid, haccepts, hentries, hsent⟩ | ⟨entries, hquiet, hsent, -⟩
    · -- this is the one accepted start, so the codec is still uncompressed
      have hnone : ∀ entry ∈ history, ¬ AcceptedStart env entry := by
        intro entry hentry haccepted
        exact hlast entry hentry _ (List.mem_singleton_self _) ⟨haccepted, hstate, hid, _, haccepts⟩
      obtain ⟨hthreshold, hquiet⟩ := hrun.before_acceptedStart hnone
      rw [hsent]
      exact (negotiatedOnce_loginEntries env start hthreshold).of_quiet_append hquiet hentries
    · rw [hsent]
      exact (ih hbefore).append_quiet hquiet

/-- As long as the connection goes on, every accepted `LoginStart` has had a `LoginSuccess` of its own. -/
theorem Run.loginSuccess_count (h : Run env config history live s) :
    live = true → ∀ starts : List (Connection × RawPacket), starts.Sublist history →
      (∀ entry ∈ starts, AcceptedStart env entry) →
      starts.length ≤ s.sent.countP Emitted.isLoginSuccess := by
  refine Run.induction (P := fun history live s => live = true →
    ∀ starts : List (Connection × RawPacket), starts.Sublist history →
      (∀ entry ∈ starts, AcceptedStart env entry) →
      starts.length ≤ s.sent.countP Emitted.isLoginSuccess) ?_ ?_ h
  · intro _ starts hsub _
    rw [List.sublist_nil.mp hsub]
    exact Nat.zero_le _
  · intro history s frame live s' hrun ih hhandled heq starts hsub hall
    subst heq
    obtain ⟨earlier, last, rfl, hearlier, hlast⟩ := List.sublist_append_iff.mp hsub
    have hcount := ih rfl earlier hearlier fun entry hentry => hall entry (List.mem_append_left _ hentry)
    rw [List.length_append]
    rcases List.sublist_singleton.mp hlast with rfl | rfl
    · -- the last frame is not among the starts
      exact le_trans hcount (hhandled.sent_sublist.countP_le)
    · obtain ⟨hstate, hid, -⟩ := hall (s, frame) (List.mem_append_right _ (List.mem_singleton_self _))
      obtain ⟨start, -, hsent⟩ := hhandled.of_loginStart hstate hid
      rw [hsent, List.countP_append]
      exact Nat.add_le_add hcount (loginEntries_loginSuccess env s start)

/-- **Compression is negotiated once.** In every run with at most one accepted `LoginStart`, at most one
    `SetCompression` and one `LoginSuccess` are sent, and the `SetCompression` is encoded before the codec
    switches. Nothing refuses a second `LoginStart`: a run that went on after one has sent too many. -/
theorem compression_negotiated_once (h : Run env config history live s) :
    (StartsOnce env history → NegotiatedOnce s.sent) ∧
    (live = true → NegotiatedOnce s.sent → StartsOnce env history) := by
  refine ⟨h.negotiatedOnce_of_startsOnce, fun hlive honce => ?_⟩
  refine List.pairwise_iff_forall_sublist.mpr fun {first second} hsub haccepted => ?_
  have hcount := h.loginSuccess_count hlive [first, second] hsub (by simpa using haccepted)
  exact absurd (le_trans hcount honce.loginSuccess) (by simp)

/-- The log after a run that has not failed. -/
def sentOf : Outcome NetError Connection Flow → List Emitted
  | .ok _ s => s.sent
  | _ => []

/-- A login of Steve. -/
theorem compression_negotiated_once_steve :
    ∃ s, Run steveEnv .default [(.new .default, loginHandshake), (inLogin, steveStart)] true s ∧
      s.sent.map (fun e => (e.isSetCompression, e.isLoginSuccess, e.threshold))
        = [(true, false, none), (false, true, some 256)] ∧ NegotiatedOnce s.sent := by
  obtain ⟨s, hstart, -⟩ := handle_steveStart
  have hrun := run_loginHandshake.proceed hstart
  have hsent : (sentOf (Connection.handle steveEnv steveStart inLogin)).map
      (fun e => (e.isSetCompression, e.isLoginSuccess, e.threshold))
        = [(true, false, none), (false, true, some 256)] := by decide +kernel
  rw [hstart] at hsent
  refine ⟨s, hrun, hsent, (compression_negotiated_once hrun).1 ?_⟩
  refine List.pairwise_pair.mpr ?_
  intro hparts
  obtain ⟨⟨hstate, -⟩, -⟩ := hparts
  cases hstate

/-- A client that sends its `LoginStart` twice is answered twice, and the second `SetCompression` is
    encoded in the compressed format. -/
theorem compression_negotiated_twice :
    ∃ flow s, Connection.run steveEnv [.frame loginHandshake, .frame steveStart, .frame steveStart]
        (.new .default) = .ok flow s ∧
      (∃ history live, Run steveEnv .default history live s) ∧
      s.sent.countP Emitted.isSetCompression = 2 ∧ s.sent.countP Emitted.isLoginSuccess = 2 ∧
      ∃ e ∈ s.sent, e.isSetCompression = true ∧ e.threshold = some 256 := by
  have hspec := run_spec [.frame loginHandshake, .frame steveStart, .frame steveStart]
    (Run.fresh : Run steveEnv .default [] true (.new .default))
  have hsent : let sent := sentOf (Connection.run steveEnv
        [.frame loginHandshake, .frame steveStart, .frame steveStart] (.new .default))
      sent.countP Emitted.isSetCompression = 2 ∧ sent.countP Emitted.isLoginSuccess = 2 ∧
        ∃ e ∈ sent, e.isSetCompression = true ∧ e.threshold = some 256 := by decide +kernel
  rcases hspec.exists with ⟨flow, s, heq⟩ | ⟨e, s, heq⟩
  · rw [heq] at hspec hsent
    exact ⟨flow, s, heq, hspec, hsent⟩
  · rw [heq] at hsent
    cases hsent.1

end Pyrite.Net
