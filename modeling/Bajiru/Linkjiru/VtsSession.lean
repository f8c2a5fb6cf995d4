import Bajiru.Linkjiru.VtsRegistration

/-!
# The session of the analysis thread

`AnalysisThread::run` calls `connect` once and then drives the client by ticks: `pump`, `requestRegister` if it was
asked for, `setDetectValue` if the value is to be sent. When it must exit, it sends a last value, pumps once more and
calls `disconnect`. An exception that leaves `pump` ends the thread.

The invariant of a session (`Live`) ties the state to the outstanding operations. Before the link is Ready there is one
operation at a time; while it is Ready there is the steady read and at most one write; after a drop from Ready nothing
is started any more.
-/

namespace Bajiru.Linkjiru

namespace Vts

/-! ## The loop and the client -/

/-- Where the thread is: at the top of the loop, in its `pump`, after it, after `requestRegister`; past the loop, before
each of its three calls, and in two of them; at the end, or ended by an exception. -/
inductive Pc
  | loop
  | pumping
  | pumped
  | requested
  | lastValue
  | lastPump
  | lastPumping
  | disconnect
  | tearing
  | ended
  | dead
  deriving DecidableEq

namespace Pc

/-- The calls that the thread makes. -/
def call : Pc → Event → Option Pc
  | loop, .pump _ => some pumping
  | pumping, .complete _ _ | pumping, .pollEnd | pumping, .drainEnd => some pumping
  | pumped, .requestRegister => some requested
  | pumped, .setDetectValue _ | requested, .setDetectValue _ => some loop
  | lastValue, .setDetectValue value => if value = 0 then some lastPump else none
  | lastPump, .pump _ => some lastPumping
  | lastPumping, .complete _ _ | lastPumping, .pollEnd | lastPumping, .drainEnd => some lastPumping
  | disconnect, .disconnect => some tearing
  | tearing, .complete _ _ | tearing, .teardownEnd => some tearing
  | _, _ => none

/-- The loop is running. -/
def inLoop : Pc → Bool
  | loop | pumping | pumped | requested => true
  | _ => false

/-- The thread is in no call. -/
def waits : Pc → Bool
  | loop | pumped | requested | lastValue | lastPump | disconnect => true
  | _ => false

/-- A call has returned. -/
def returned : Pc → Pc
  | pumping => pumped
  | lastPumping => disconnect
  | tearing => ended
  | pc => pc

end Pc

/-- The thread with its client; `wasReady` says that the link has been Ready. -/
structure Session where
  client : Client
  pc : Pc
  wasReady : Bool

/-- A call or a completion, the end of a tick that sends no value, or the end of the loop. -/
inductive SessionEvent
  | call (e : Event)
  | sleep
  | exit

namespace Session

/-- The client was constructed, and `connect` was called. -/
def new (created : Int) (host port : String) (now : Int) : Session :=
  ⟨⟨(Impl.new created).connect host port now, .idle, false⟩, .loop, false⟩

/-- The client has made a step of a call. -/
def settle (s : Session) (pc : Pc) (c : Client) : Session where
  client := c
  pc := if c.threw ∨ c.phase = .crashed then .dead else if c.phase = .idle then pc.returned else pc
  wasReady := s.wasReady || c.impl.state = .ready

/-- One step. -/
def next (s : Session) : SessionEvent → Option Session
  | .call e => (s.pc.call e).bind fun pc => (s.client.next e).map (s.settle pc)
  | .sleep => if s.pc = .pumped ∨ s.pc = .requested then some { s with pc := .loop } else none
  | .exit => if s.pc = .loop then some { s with pc := .lastValue } else none

end Session

/-! ## The invariant of the client -/

/-- The handler of the response to a request of the auth phase. -/
def Request.handledBy : Request → OnResp → Prop
  | authenticationToken, .onTokenResponse => True
  | authentication _ _, .onAuthResponse => True
  | _, _ => False

/-- The operation belongs to a state in which the link is opened; a write uses the current payload. -/
def OpKind.Opens (payloads : Nat) : OpKind → State → Prop
  | resolve, .resolving => True
  | connect, .connecting => True
  | handshake, .handshaking => True
  | requestWrite r onResp n, .authenticating => r.handledBy onResp ∧ n = payloads
  | responseRead r onResp, .authenticating => r.handledBy onResp
  | _, _ => False

/-- Each operation that opens a link belongs to one state. -/
theorem OpKind.Opens.state_eq {payloads : Nat} {kind : OpKind} {state : State} (h : kind.Opens payloads state) :
    match kind with
    | .resolve => state = .resolving
    | .connect => state = .connecting
    | .handshake => state = .handshaking
    | .requestWrite .. | .responseRead .. => state = .authenticating
    | _ => False := by
  cases kind <;> cases state <;> first | rfl | exact False.elim h

/-- An operation of a link that was Ready. -/
def OpKind.Steady (payloads : Nat) : OpKind → Prop
  | steadyRead => True
  | steadyWrite _ n => n = payloads
  | _ => False

/-- The link is being opened by at most one operation. -/
def Opening (ws : Option Nat) (payloads : Nat) (writeInFlight : Bool) (ioc : List Op) (state : State) : Prop :=
  writeInFlight = false ∧ ∃ w, ws = some w ∧ (ioc = [] ∨ ∃ kind, kind.Opens payloads state ∧ ioc = [⟨w, kind⟩])

/-- The steady read and the steady write of a stream, in any order. -/
def ReadAndWrite (w payloads : Nat) (ioc : List Op) : Prop :=
  ∃ r, ioc = [⟨w, .steadyRead⟩, ⟨w, .steadyWrite r payloads⟩] ∨ ioc = [⟨w, .steadyWrite r payloads⟩, ⟨w, .steadyRead⟩]

/-- The outstanding operations of a client, by its state. -/
def Outstanding (ws : Option Nat) (payloads : Nat) (writeInFlight wasReady : Bool) (ioc : List Op) : State → Prop
  | .disconnected =>
    if wasReady then ioc = [] ∨ ∃ w kind, kind.Steady payloads ∧ ioc = [⟨w, kind⟩]
    else writeInFlight = false ∧ ioc = []
  | .ready =>
    wasReady = true ∧ ∃ w, ws = some w ∧
      if writeInFlight then ReadAndWrite w payloads ioc else ioc = [⟨w, .steadyRead⟩]
  | state => wasReady = false ∧ Opening ws payloads writeInFlight ioc state

/-- A client that is not Disconnected has a stream that was not dropped. -/
structure Current (state : State) (ws : Option Nat) (attempts : Nat) (dropped : List Nat) : Prop where
  old : ∀ w ∈ dropped, w < attempts
  ws : state ≠ .disconnected → ∃ w, ws = some w ∧ w < attempts ∧ w ∉ dropped

/-- The stream can still be asked for a token. -/
def Unasked (triedStoredToken : Bool) : State → Prop
  | .resolving | .connecting | .handshaking => True
  | .authenticating => triedStoredToken = true
  | _ => False

/-- No stream is asked for a token twice. -/
structure Popups (state : State) (triedStoredToken : Bool) (ws : Option Nat) (attempts : Nat) (popups : List Nat) :
    Prop where
  old : ∀ w ∈ popups, w < attempts
  nodup : popups.Nodup
  unasked : Unasked triedStoredToken state → ∀ w, ws = some w → w ∉ popups

/-- The link is wanted until it is dropped from Ready. -/
structure Wants (state : State) (wantConnection wasReady : Bool) : Prop where
  wanted : wasReady = false → wantConnection = true
  given_up : wasReady = true → state = .disconnected → wantConnection = false

/-- The invariant of the client of a session. -/
structure Live (s : Impl) (wasReady : Bool) : Prop where
  running : s.shuttingDown = false
  outstanding : Outstanding s.ws s.payloads s.writeInFlight wasReady s.ioc s.state
  current : Current s.state s.ws s.attempts s.dropped
  popups : Popups s.state s.triedStoredToken s.ws s.attempts s.popups
  late : s.late = []
  wants : Wants s.state s.wantConnection wasReady
  recycled : s.needsRecycle = true → s.state = .disconnected
  registering : s.registering = true → s.state = .ready

/-- A stream that was not asked for a token yet is asked. -/
theorem Popups.ask {triedStoredToken : Bool} {ws : Option Nat} {attempts w : Nat} {popups : List Nat}
    (h : Popups .authenticating triedStoredToken ws attempts popups) (hw : ws = some w) (hold : w < attempts)
    (hun : w ∉ popups) : Popups .authenticating false ws attempts (popups ++ ws.toList) := by
  subst hw
  refine ⟨?_, ?_, nofun⟩
  · intro v hv
    rcases List.mem_append.1 hv with hv | hv
    · exact h.old v hv
    · exact List.mem_singleton.1 hv ▸ hold
  · refine List.nodup_append.2 ⟨h.nodup, List.pairwise_singleton _ w, ?_⟩
    rintro v hv u hu rfl
    exact hun (List.mem_singleton.1 hu ▸ hv)

variable {s : Impl} {wasReady : Bool} {now : Int}

/-- A handler returns or throws, and the state that it leaves has the property. -/
def Ret.Safe (P : Impl → Prop) : Ret → Prop
  | .done s | .threw s => P s
  | .crash => False

theorem outstanding_opening {ws : Option Nat} {payloads : Nat} {writeInFlight : Bool} {ioc : List Op} {state : State}
    (hd : state ≠ .disconnected) (hr : state ≠ .ready) :
    Outstanding ws payloads writeInFlight wasReady ioc state ↔
      wasReady = false ∧ Opening ws payloads writeInFlight ioc state := by
  cases state with
  | disconnected => exact absurd rfl hd
  | ready => exact absurd rfl hr
  | _ => exact Iff.rfl

theorem Ret.Safe.mono {P Q : Impl → Prop} {ret : Ret} (h : ret.Safe P) (hPQ : ∀ t, P t → Q t) : ret.Safe Q := by
  cases ret with
  | done t => exact hPQ t h
  | threw t => exact hPQ t h
  | crash => exact h

/-- A link that was never Ready is not Ready. -/
theorem Live.not_ready (h : Live s false) : s.state ≠ .ready := by
  intro hready
  have hout := h.outstanding
  rw [hready] at hout
  cases hout.1

/-- The flag of a session after a step of the client. -/
theorem Live.settled (h : Live s wasReady) : Live s (wasReady || s.state = .ready) := by
  cases wasReady with
  | true => exact h
  | false => simpa [h.not_ready] using h

/-- What the user asks for does not concern the link. -/
theorem Live.asked (h : Live s wasReady) (registerFailed registerRequested valueDirty : Bool) (pendingValue : ℚ) :
    Live { s with
      registerFailed := registerFailed
      registerRequested := registerRequested
      pendingValue := pendingValue
      valueDirty := valueDirty } wasReady :=
  ⟨h.running, h.outstanding, h.current, h.popups, h.late, h.wants, h.recycled, h.registering⟩

/-- A client that is Disconnected needs no stream. -/
theorem Live.drained (h : Live s wasReady) (hd : s.state = .disconnected) :
    Live { s with ws := none, needsRecycle := false } wasReady := by
  obtain ⟨running, outstanding, current, popups, late, wants, recycled, registering⟩ := h
  rw [hd] at outstanding popups
  refine ⟨running, ?_, ⟨current.old, fun hup => absurd hd hup⟩, ?_, late, wants, nofun, registering⟩
  · dsimp only
    rw [hd]
    exact outstanding
  · dsimp only
    rw [hd]
    exact ⟨popups.old, popups.nodup, nofun⟩

/-! ## Opening the link -/

/-- The operation that opens the link has completed, and its handler runs. -/
structure Bare (s : Impl) : Prop where
  live : Live s false
  ioc : s.ioc = []
  up : s.state ≠ .disconnected

namespace Bare

theorem not_ready (h : Bare s) : s.state ≠ .ready := h.live.not_ready

theorem opening (h : Bare s) : Opening s.ws s.payloads s.writeInFlight s.ioc s.state :=
  ((outstanding_opening h.up h.not_ready).1 h.live.outstanding).2

theorem registering (h : Bare s) : s.registering = false := by
  cases hreg : s.registering with
  | false => rfl
  | true => exact absurd (h.live.registering hreg) h.not_ready

theorem needsRecycle (h : Bare s) : s.needsRecycle = false := by
  cases hrec : s.needsRecycle with
  | false => rfl
  | true => exact absurd (h.live.recycled hrec) h.up

/-- The link is opened further. -/
theorem toState (h : Bare s) (state : State) (hd : state ≠ .disconnected) (hr : state ≠ .ready)
    (hu : Unasked s.triedStoredToken state → Unasked s.triedStoredToken s.state) : Bare { s with state := state } := by
  obtain ⟨hwrite, w, hw, -⟩ := h.opening
  refine ⟨⟨h.live.running, ?_, ?_, ?_, h.live.late, ?_, ?_, ?_⟩, h.ioc, hd⟩
  · exact (outstanding_opening hd hr).2 ⟨rfl, hwrite, w, hw, .inl h.ioc⟩
  · exact ⟨h.live.current.old, fun _ => h.live.current.ws h.up⟩
  · exact ⟨h.live.popups.old, h.live.popups.nodup, fun hun => h.live.popups.unasked (hu hun)⟩
  · exact ⟨h.live.wants.wanted, nofun⟩
  · exact fun hrec => absurd (h.needsRecycle.symm.trans hrec) Bool.false_ne_true
  · exact fun hreg => absurd (h.registering.symm.trans hreg) Bool.false_ne_true

/-- The link is dropped before it was Ready, and will be retried. -/
theorem retryLater (h : Bare s) (now : Int) : Live (s.retryLater now) false := by
  obtain ⟨w, hw, hold, -⟩ := h.live.current.ws h.up
  unfold Impl.retryLater Impl.dropConnection
  rw [if_neg h.up]
  refine ⟨h.live.running, ⟨rfl, h.ioc⟩, ⟨?_, nofun⟩, ?_, h.live.late, ⟨h.live.wants.wanted, nofun⟩, fun _ => rfl, nofun⟩
  · intro v hv
    rw [hw, Option.toList_some, List.mem_append, List.mem_singleton] at hv
    rcases hv with hv | rfl
    · exact h.live.current.old v hv
    · exact hold
  · exact ⟨h.live.popups.old, h.live.popups.nodup, nofun⟩

/-- The next operation is started. -/
theorem start (h : Bare s) {kind : OpKind} (hk : kind.Opens s.payloads s.state) :
    (s.start kind).Safe (Live · false) := by
  obtain ⟨w, hw, -, hdrop⟩ := h.live.current.ws h.up
  rw [Impl.start_inUse hw hdrop]
  refine ⟨h.live.running, ?_, h.live.current, h.live.popups, h.live.late, h.live.wants, h.live.recycled,
    h.live.registering⟩
  exact (outstanding_opening h.up h.not_ready).2 ⟨rfl, h.opening.1, w, hw, .inr ⟨kind, hk, by rw [h.ioc]; rfl⟩⟩

/-- A request that is not for a token is sent. -/
theorem authenticate (h : Bare s) (hs : s.state = .authenticating) {token : String} {stored : Bool} :
    (s.sendRequestThenRead (.authentication token stored) .onAuthResponse).Safe (Live · false) := by
  obtain ⟨hwrite, w, hw, -⟩ := h.opening
  unfold Impl.sendRequestThenRead
  apply Bare.start
  · refine ⟨⟨h.live.running, ?_, h.live.current, h.live.popups, h.live.late, h.live.wants, h.live.recycled,
      h.live.registering⟩, h.ioc, h.up⟩
    exact (outstanding_opening h.up h.not_ready).2 ⟨rfl, hwrite, w, hw, .inl h.ioc⟩
  · rw [show s.state = .authenticating from hs]
    exact ⟨trivial, rfl⟩

/-- The stream is asked for a token. -/
theorem requestNewToken (h : Bare s) (hs : s.state = .authenticating) (hun : ∀ w, s.ws = some w → w ∉ s.popups) :
    s.requestNewToken.Safe (Live · false) := by
  obtain ⟨hwrite, w, hw, -⟩ := h.opening
  obtain ⟨w', hw', hold, -⟩ := h.live.current.ws h.up
  obtain rfl := Option.some.inj (hw.symm.trans hw')
  have hpopups := h.live.popups
  unfold Impl.requestNewToken Impl.sendRequestThenRead
  rw [if_pos rfl]
  apply Bare.start
  · refine ⟨⟨h.live.running, ?_, h.live.current, ?_, h.live.late, h.live.wants, h.live.recycled,
      h.live.registering⟩, h.ioc, h.up⟩
    · exact (outstanding_opening h.up h.not_ready).2 ⟨rfl, hwrite, w, hw, .inl h.ioc⟩
    · dsimp only
      rw [hs] at hpopups ⊢
      exact hpopups.ask hw hold (hun w hw)
  · dsimp only
    rw [hs]
    exact ⟨trivial, rfl⟩

theorem withToken (h : Bare s) (token : String) : Bare { s with token := token } := by
  obtain ⟨⟨running, outstanding, current, popups, late, wants, recycled, registering⟩, hioc, hup⟩ := h
  exact ⟨⟨running, outstanding, current, popups, late, wants, recycled, registering⟩, hioc, hup⟩

theorem withStoredToken (h : Bare s) (hun : ∀ w, s.ws = some w → w ∉ s.popups) (token : String) :
    Bare { s with token := token, triedStoredToken := true } := by
  obtain ⟨⟨running, outstanding, current, popups, late, wants, recycled, registering⟩, hioc, hup⟩ := h
  exact ⟨⟨running, outstanding, current, ⟨popups.old, popups.nodup, fun _ => hun⟩, late, wants, recycled,
    registering⟩, hioc, hup⟩

theorem beginAuth (h : Bare s) (hs : s.state = .authenticating) (hun : ∀ w, s.ws = some w → w ∉ s.popups)
    (c : Completion) : (s.beginAuth c).Safe (Live · false) := by
  unfold Impl.beginAuth
  split
  · dsimp only
    split
    · exact (h.withStoredToken hun _).authenticate hs
    · exact (h.withToken _).requestNewToken hs hun
  · exact (h.withToken "").live

theorem onTokenResponse (h : Bare s) (hs : s.state = .authenticating) (resp : Json) (c : Completion) :
    (s.onTokenResponse resp c).Safe (Live · false) := by
  unfold Impl.onTokenResponse
  split
  · exact h.retryLater c.now
  · split
    · exact h.live
    · rename_i token _
      split
      · exact (h.withToken token).authenticate hs
      · exact (h.withToken token).live

/-- The link becomes Ready, and its steady read is armed. -/
theorem startSteadyRead (h : Bare s) : ∃ t, Impl.startSteadyRead { s with state := .ready } = .done t ∧
    Peer.JustReady t ∧ Live t true := by
  obtain ⟨hwrite, -⟩ := h.opening
  obtain ⟨w, hw, hold, hdrop⟩ := h.live.current.ws h.up
  have hioc : s.ioc ++ [⟨w, .steadyRead⟩] = [⟨w, .steadyRead⟩] := by rw [h.ioc, List.nil_append]
  refine ⟨_, Impl.start_inUse (by exact hw) (by exact hdrop) _, ⟨rfl, ⟨w, hw, hioc⟩, h.live.running, h.registering⟩,
    ⟨h.live.running, ⟨rfl, w, hw, ?_⟩, ⟨h.live.current.old, fun _ => ⟨w, hw, hold, hdrop⟩⟩, ?_, h.live.late,
      ⟨nofun, nofun⟩, ?_, fun _ => rfl⟩⟩
  · rw [if_neg (by simp [hwrite])]
    exact hioc
  · exact ⟨h.live.popups.old, h.live.popups.nodup, nofun⟩
  · exact fun hrec => absurd (h.needsRecycle.symm.trans hrec) Bool.false_ne_true

/-- The client is Ready only after a reply that accepts the authentication. -/
theorem onAuthResponse (h : Bare s) (hs : s.state = .authenticating) (resp : Json) (c : Completion) :
    (s.onAuthResponse resp c).Safe fun t =>
      if Impl.authenticated resp = some true then Peer.JustReady t ∧ Live t true else Live t false := by
  unfold Impl.onAuthResponse
  cases Impl.authenticated resp with
  | none => exact h.live
  | some accepted =>
    cases accepted with
    | true =>
      obtain ⟨t, heq, ht⟩ := h.startSteadyRead
      dsimp only
      rw [heq]
      exact ht
    | false =>
      show (if s.triedStoredToken then s.requestNewToken else .done (s.retryLater c.now)).Safe (Live · false)
      split
      · rename_i htried
        exact h.requestNewToken hs (h.live.popups.unasked (by rw [hs]; exact htried))
      · exact h.retryLater c.now

end Bare

/-- The operation is the read of the reply to an authentication on the current stream, and the reply accepts it. -/
def Accepted (s : Impl) (op : Op) (c : Completion) : Prop :=
  ∃ w token stored resp, s.ws = some w ∧ op = ⟨w, .responseRead (.authentication token stored) .onAuthResponse⟩ ∧
    c.ok = true ∧ c.msg = some resp ∧ Impl.authenticated resp = some true

/-- What a completion leaves: the invariant, a client that is Ready only by an accepted authentication, and one that
stays Disconnected. -/
structure Completed (s : Impl) (op : Op) (c : Completion) (wasReady : Bool) (t : Impl) : Prop where
  live : Live t (wasReady || t.state = .ready)
  accepted : s.state ≠ .ready → t.state = .ready → Accepted s op c ∧ Peer.JustReady t
  down : s.state = .disconnected → t.state = .disconnected ∧ t.attempts = s.attempts

theorem Completed.of_unready {op : Op} {c : Completion} {t : Impl} (hup : s.state ≠ .disconnected) (h : Live t false) :
    Completed s op c false t :=
  ⟨h.settled, fun _ hready => absurd hready h.not_ready, fun hd => absurd hd hup⟩

/-- The operation of a link that is being opened completes. -/
theorem Bare.handle {w : Nat} {kind : OpKind} (h : Bare s) (hw : s.ws = some w) (hk : kind.Opens s.payloads s.state)
    (c : Completion) : (s.handle ⟨w, kind⟩ c).Safe (Completed s ⟨w, kind⟩ c false) := by
  have hretry : (Ret.done (s.retryLater c.now)).Safe (Live · false) := h.retryLater c.now
  have hunready : ∀ t, Live t false → Completed s ⟨w, kind⟩ c false t := fun t => Completed.of_unready h.up
  rw [Impl.handle, if_neg (by simp [h.live.running])]
  cases kind with
  | steadyRead => exact hk.elim
  | steadyWrite r n => exact hk.elim
  | resolve =>
    have hs : s.state = .resolving := hk.state_eq
    have hnext : Bare { s with state := .connecting } :=
      h.toState .connecting (by decide) (by decide) fun _ => by rw [hs]; trivial
    dsimp only
    split
    · exact (hnext.start (show OpKind.connect.Opens s.payloads .connecting from trivial)).mono hunready
    · exact hretry.mono hunready
  | connect =>
    have hs : s.state = .connecting := hk.state_eq
    have hnext : Bare { s with state := .handshaking } :=
      h.toState .handshaking (by decide) (by decide) fun _ => by rw [hs]; trivial
    dsimp only
    split
    · exact (hnext.start (show OpKind.handshake.Opens s.payloads .handshaking from trivial)).mono hunready
    · exact hretry.mono hunready
  | handshake =>
    have hs : s.state = .handshaking := hk.state_eq
    have hnext : Bare { s with state := .authenticating } :=
      h.toState .authenticating (by decide) (by decide) fun _ => by rw [hs]; trivial
    dsimp only
    split
    · rw [Impl.onHandshake_eq hw]
      exact (hnext.beginAuth rfl (h.live.popups.unasked (by rw [hs]; trivial)) c).mono hunready
    · exact hretry.mono hunready
  | requestWrite r onResp n =>
    have hs : s.state = .authenticating := hk.state_eq
    rw [hs] at hk
    dsimp only
    split
    · exact (h.start (by rw [hs]; exact hk.1)).mono hunready
    · exact hretry.mono hunready
  | responseRead r onResp =>
    have hs : s.state = .authenticating := hk.state_eq
    rw [hs] at hk
    dsimp only
    split
    · rename_i hok
      cases hmsg : c.msg with
      | none => exact hretry.mono hunready
      | some resp =>
        cases onResp with
        | onTokenResponse => exact (h.onTokenResponse hs resp c).mono hunready
        | onAuthResponse =>
          refine (h.onAuthResponse hs resp c).mono fun t ht => ?_
          split at ht
          · rename_i hauth
            cases r with
            | authentication token stored =>
              refine ⟨by simpa [ht.1.ready] using ht.2, fun _ _ => ⟨?_, ht.1⟩, fun hd => absurd hd h.up⟩
              exact ⟨w, token, stored, resp, hw, rfl, hok, hmsg, hauth⟩
            | _ => exact hk.elim
          · exact hunready t ht
    · exact hretry.mono hunready

/-! ## The ready link, and after it -/

/-- The operations of a link that was dropped from Ready. -/
def Leftover (payloads : Nat) (ioc : List Op) : Prop := ioc = [] ∨ ∃ w kind, kind.Steady payloads ∧ ioc = [⟨w, kind⟩]

/-- A drop from Ready gives the connection up. -/
theorem Live.fail {ioc : List Op} (h : Live s true) (hs : s.state = .ready) (hioc : Leftover s.payloads ioc)
    (writeInFlight : Bool) (now : Int) :
    Live (Impl.fail { s with ioc := ioc, writeInFlight := writeInFlight } now) true := by
  have hup : s.state ≠ .disconnected := by rw [hs]; nofun
  obtain ⟨w, hw, hold, -⟩ := h.current.ws hup
  unfold Impl.fail Impl.dropConnection
  rw [if_neg (by exact hup)]
  refine ⟨h.running, hioc, ⟨?_, nofun⟩, ⟨h.popups.old, h.popups.nodup, nofun⟩, h.late, ⟨nofun, fun _ _ => rfl⟩,
    fun _ => rfl, nofun⟩
  intro v hv
  rw [hw, Option.toList_some, List.mem_append, List.mem_singleton] at hv
  rcases hv with hv | rfl
  · exact h.current.old v hv
  · exact hold

/-- A message is read, and the read is armed again. -/
theorem Live.message {w : Nat} {ioc : List Op} {msg : Option Json} (h : Live s true) (hs : s.state = .ready)
    (hw : s.ws = some w) (hioc : if s.writeInFlight then ReadAndWrite w s.payloads (ioc ++ [⟨w, .steadyRead⟩]) else
      ioc ++ [⟨w, .steadyRead⟩] = [⟨w, .steadyRead⟩]) :
    (Impl.onSteadyMessage { s with ioc := ioc } msg).Safe fun t => t.state = .ready ∧ Live t true := by
  obtain ⟨w', hw', -, hdrop⟩ := h.current.ws (by rw [hs]; nofun)
  obtain rfl := Option.some.inj (hw.symm.trans hw')
  obtain ⟨registered, registering, registerFailed, -, hframe⟩ := Impl.steadyMessage_frame { s with ioc := ioc } msg
  rw [Impl.onSteadyMessage_ready (s := { s with ioc := ioc }) h.running hs hw, hframe, Impl.addOp,
    if_neg (by exact hdrop)]
  refine ⟨hs, ⟨h.running, ?_, h.current, h.popups, h.late, h.wants, h.recycled, fun _ => hs⟩⟩
  rw [show s.state = .ready from hs]
  exact ⟨rfl, w, hw, hioc⟩

theorem Completed.of_ready {op : Op} {c : Completion} {t : Impl} (hs : s.state = .ready) (h : Live t true) :
    Completed s op c true t :=
  ⟨h.settled, fun hns => absurd hs hns, fun hd => by rw [hs] at hd; cases hd⟩

/-- The steady read completes on a ready link. -/
theorem Live.readCompletes {w : Nat} {ioc : List Op} (h : Live s true) (hs : s.state = .ready) (hw : s.ws = some w)
    (hleft : Leftover s.payloads ioc)
    (hioc : if s.writeInFlight then ReadAndWrite w s.payloads (ioc ++ [⟨w, .steadyRead⟩]) else
      ioc ++ [⟨w, .steadyRead⟩] = [⟨w, .steadyRead⟩]) (c : Completion) :
    (Impl.handle { s with ioc := ioc } ⟨w, .steadyRead⟩ c).Safe (Live · true) := by
  rw [Impl.handle, if_neg (by simp [h.running])]
  dsimp only
  split
  · exact (h.message hs hw hioc).mono fun _ ht => ht.2
  · exact h.fail hs hleft s.writeInFlight c.now

/-- The steady write completes on a ready link. -/
theorem Live.writeCompletes {w n : Nat} {r : Request} (h : Live s true) (hs : s.state = .ready) (hw : s.ws = some w)
    (c : Completion) :
    (Impl.handle { s with ioc := [⟨w, .steadyRead⟩] } ⟨w, .steadyWrite r n⟩ c).Safe (Live · true) := by
  rw [Impl.handle, if_neg (by simp [h.running])]
  dsimp only
  split
  · refine ⟨h.running, ?_, h.current, h.popups, h.late, h.wants, h.recycled, h.registering⟩
    rw [show s.state = .ready from hs]
    exact ⟨rfl, w, hw, rfl⟩
  · exact h.fail hs (.inr ⟨w, .steadyRead, trivial, rfl⟩) false c.now

/-- A second drop does nothing. -/
theorem fail_again (hs : s.state = .disconnected) (now : Int) : s.fail now = s := by
  simp [Impl.fail, Impl.dropConnection, hs]

/-- An operation of a dropped link completes: nothing is started. -/
theorem Live.leftoverCompletes {op : Op} (h : Live s true) (hs : s.state = .disconnected)
    (hk : op.kind.Steady s.payloads) (c : Completion) :
    (Impl.handle { s with ioc := [] } op c).Safe fun t =>
      t.state = .disconnected ∧ t.attempts = s.attempts ∧ Live t true := by
  have hnone : ∀ writeInFlight, Outstanding s.ws s.payloads writeInFlight true [] s.state := by
    intro writeInFlight
    rw [hs]
    exact .inl rfl
  rw [Impl.handle, if_neg (by simp [h.running])]
  obtain ⟨v, kind⟩ := op
  cases kind with
  | steadyRead =>
    have hlive : Live { s with ioc := [] } true :=
      ⟨h.running, hnone _, h.current, h.popups, h.late, h.wants, h.recycled, h.registering⟩
    dsimp only
    split
    · obtain ⟨registered, registering, registerFailed, hreg, hframe⟩ :=
        Impl.steadyMessage_frame { s with ioc := [] } c.msg
      rw [Impl.onSteadyMessage_down (by rw [show s.state = .disconnected from hs]; decide), hframe]
      exact ⟨hs, rfl, h.running, hnone _, h.current, h.popups, h.late, h.wants, h.recycled,
        fun hr => h.registering (hreg hr)⟩
    · rw [fail_again (by exact hs)]
      exact ⟨hs, rfl, hlive⟩
  | steadyWrite r n =>
    have hlive : Live { s with ioc := [], writeInFlight := false } true :=
      ⟨h.running, hnone _, h.current, h.popups, h.late, h.wants, h.recycled, h.registering⟩
    dsimp only
    split
    · exact ⟨hs, rfl, hlive⟩
    · rw [fail_again (by exact hs)]
      exact ⟨hs, rfl, hlive⟩
  | _ => exact hk.elim

/-! ## Any completion -/

theorem erase_one {a op : Op} {i : Nat} (h : [a][i]? = some op) : op = a ∧ [a].eraseIdx i = [] := by
  cases i <;> simp_all

theorem erase_two {a b op : Op} {i : Nat} (h : [a, b][i]? = some op) :
    (op = a ∧ [a, b].eraseIdx i = [b]) ∨ (op = b ∧ [a, b].eraseIdx i = [a]) := by
  match i with
  | 0 => exact .inl ⟨(Option.some.inj h).symm, rfl⟩
  | 1 => exact .inr ⟨(Option.some.inj h).symm, rfl⟩
  | _ + 2 => cases h

/-- An opening link is bare while the handler of its operation runs. -/
theorem Live.bare (h : Live s false) (hd : s.state ≠ .disconnected) : Bare { s with ioc := [] } := by
  obtain ⟨-, hwrite, w, hw, -⟩ := (outstanding_opening hd h.not_ready).1 h.outstanding
  refine ⟨⟨h.running, ?_, h.current, h.popups, h.late, h.wants, h.recycled, h.registering⟩, rfl, hd⟩
  exact (outstanding_opening hd h.not_ready).2 ⟨rfl, hwrite, w, hw, .inl rfl⟩

/-- **Completions.** The handler of an outstanding operation keeps the invariant, and it makes the client Ready only by
an accepted authentication. -/
theorem Live.complete {i : Nat} {op : Op} (h : Live s wasReady) (hop : s.ioc[i]? = some op) (c : Completion) :
    (Impl.handle { s with ioc := s.ioc.eraseIdx i } op c).Safe (Completed s op c wasReady) := by
  have hout := h.outstanding
  by_cases hr : s.state = .ready
  · rw [hr] at hout
    obtain ⟨rfl, w, hw, hout⟩ := hout
    have hready : ∀ t, Live t true → Completed s op c true t := fun t => Completed.of_ready hr
    split at hout
    · rename_i hwrite
      obtain ⟨r, hioc⟩ := hout
      have hread : (Impl.handle { s with ioc := [⟨w, .steadyWrite r s.payloads⟩] } ⟨w, .steadyRead⟩ c).Safe
          (Live · true) :=
        h.readCompletes hr hw (.inr ⟨w, .steadyWrite r s.payloads, rfl, rfl⟩)
          (by rw [if_pos hwrite]; exact ⟨r, .inr rfl⟩) c
      obtain hioc | hioc := hioc <;> rw [hioc] at hop ⊢
      · obtain ⟨rfl, hrest⟩ | ⟨rfl, hrest⟩ := erase_two hop <;> rw [hrest]
        · exact hread.mono hready
        · exact (h.writeCompletes hr hw c).mono hready
      · obtain ⟨rfl, hrest⟩ | ⟨rfl, hrest⟩ := erase_two hop <;> rw [hrest]
        · exact (h.writeCompletes hr hw c).mono hready
        · exact hread.mono hready
    · rename_i hwrite
      rw [hout] at hop ⊢
      obtain ⟨rfl, hrest⟩ := erase_one hop
      rw [hrest]
      exact (h.readCompletes hr hw (.inl rfl) (by rw [if_neg hwrite]; rfl) c).mono hready
  · by_cases hd : s.state = .disconnected
    · -- only a link that was Ready leaves operations behind
      rw [hd] at hout
      cases wasReady with
      | false => rw [hout.2] at hop; cases hop
      | true =>
        obtain hioc | ⟨v, kind, hk, hioc⟩ : Leftover s.payloads s.ioc := hout
        · rw [hioc] at hop
          cases hop
        · rw [hioc] at hop ⊢
          obtain ⟨rfl, hrest⟩ := erase_one hop
          rw [hrest]
          refine (h.leftoverCompletes hd hk c).mono fun t ht =>
            ⟨ht.2.2.settled, fun _ hready => ?_, fun _ => ⟨ht.1, ht.2.1⟩⟩
          rw [ht.1] at hready
          cases hready
    · obtain ⟨rfl, -, w, hw, hioc | ⟨kind, hk, hioc⟩⟩ := (outstanding_opening hd hr).1 hout
      · rw [hioc] at hop
        cases hop
      · rw [hioc] at hop ⊢
        obtain ⟨rfl, hrest⟩ := erase_one hop
        rw [hrest]
        exact ((h.bare hd).handle hw hk c).mono fun t ht => ⟨ht.live, ht.accepted, ht.down⟩

/-! ## The pump -/

/-- A connection is begun only on a link that was never Ready. -/
theorem Live.connectIfDue (h : Live s wasReady) : Live (s.connectIfDue now) wasReady := by
  unfold Impl.connectIfDue
  split
  · rename_i hdue
    obtain ⟨hwant, hd, hrec, -⟩ := hdue
    have hnever : wasReady = false := by
      cases hwr : wasReady with
      | false => rfl
      | true => rw [h.wants.given_up hwr hd] at hwant; cases hwant
    subst hnever
    have hout := h.outstanding
    rw [hd] at hout
    have hnew : ∀ ws : List Nat, (∀ w ∈ ws, w < s.attempts) → s.attempts ∉ ws :=
      fun ws hws hmem => lt_irrefl _ (hws _ hmem)
    refine ⟨h.running, ⟨rfl, hout.1, s.attempts, rfl, .inr ⟨.resolve, trivial, ?_⟩⟩, ⟨?_, fun _ => ?_⟩,
      ⟨?_, h.popups.nodup, ?_⟩, h.late, ⟨h.wants.wanted, nofun⟩, ?_, ?_⟩
    · show s.ioc ++ _ = _
      rw [hout.2, List.nil_append]
    · exact fun w hw => Nat.lt_succ_of_lt (h.current.old w hw)
    · exact ⟨s.attempts, rfl, Nat.lt_succ_self _, hnew _ h.current.old⟩
    · exact fun w hw => Nat.lt_succ_of_lt (h.popups.old w hw)
    · rintro - w hw
      exact Option.some.inj hw ▸ hnew _ h.popups.old
    · intro hrec'
      rw [show s.needsRecycle = true from hrec'] at hrec
      cases hrec
    · intro hreg
      have hready := h.registering hreg
      rw [hd] at hready
      cases hready
  · exact h

/-- A write is started only when none is in flight. -/
theorem Live.startWriteIfNeeded (h : Live s true) (hs : s.state = .ready) :
    s.startWriteIfNeeded.Safe fun t => t.state = .ready ∧ Live t true := by
  have hout := h.outstanding
  rw [hs] at hout
  obtain ⟨-, w, hw, hout⟩ := hout
  obtain ⟨w', hw', -, hdrop⟩ := h.current.ws (by rw [hs]; nofun)
  obtain rfl := Option.some.inj (hw.symm.trans hw')
  -- the write joins the steady read
  have hboth : ∀ r, s.writeInFlight = false →
      Outstanding s.ws (s.payloads + 1) true true (s.ioc ++ [⟨w, .steadyWrite r (s.payloads + 1)⟩]) s.state := by
    intro r hwrite
    rw [if_neg (by simp [hwrite])] at hout
    rw [hs, hout]
    exact ⟨rfl, w, hw, r, .inl rfl⟩
  obtain heq | ⟨-, hwrite, -, heq⟩ | ⟨-, hwrite, -, heq⟩ := Impl.startWriteIfNeeded_cases hw
  · rw [heq]
    exact ⟨hs, h⟩
  · rw [heq, Impl.addOp, if_neg (by exact hdrop)]
    exact ⟨hs, h.running, hboth _ hwrite, h.current, h.popups, h.late, h.wants, h.recycled, fun _ => hs⟩
  · rw [heq, Impl.addOp, if_neg (by exact hdrop)]
    exact ⟨hs, h.running, hboth _ hwrite, h.current, h.popups, h.late, h.wants, h.recycled, h.registering⟩

/-- The pump keeps the invariant, and it does not make the client Ready. -/
theorem Live.beginPump (h : Live s wasReady) (now : Int) :
    (s.beginPump now).Safe fun t => Live t (wasReady || t.state = .ready) ∧ (t.state = .ready → s.state = .ready) := by
  have hlive : Live (s.connectIfDue now) wasReady := h.connectIfDue
  have hback : (s.connectIfDue now).state = .ready → s.state = .ready := by
    unfold Impl.connectIfDue
    split
    · exact nofun
    · exact id
  unfold Impl.beginPump
  dsimp only
  split
  · rename_i hr
    cases wasReady with
    | false => exact absurd hr hlive.not_ready
    | true => exact (hlive.startWriteIfNeeded hr).mono fun t ht => ⟨ht.2.settled, fun _ => hback hr⟩
  · exact ⟨hlive.settled, hback⟩

/-- During a teardown a handler does nothing. -/
theorem handle_shuttingDown (h : s.shuttingDown = true) (op : Op) (c : Completion) : s.handle op c = .done s :=
  if_pos h

end Vts

end Bajiru.Linkjiru
