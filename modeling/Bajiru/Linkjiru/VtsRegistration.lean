import Bajiru.Linkjiru.VTubeStudioClient

/-!
# The registration of the detect parameter

`dropConnection` clears `registered` and `registering`, but the handlers of the steady read and of the write complete in
any order, and `onSteadyMessage` sets the flags without a look at the state. A registration is reported on a ready link
only (`registration_on_link`) in the runs in which no `ParameterCreationResponse` is read elsewhere.

The steady read takes the type of a message for the request that it answers. Against a peer that answers every request
in order, the outcome of a registration comes from the answer to its request (`registration_attributed`) exactly in the
runs in which no error for an inject meets a registration.
-/

namespace Bajiru.Linkjiru

namespace Vts

variable {s t : Impl} {now : Int}

/-! ## A registration without a link -/

/-- The state that a handler leaves has the property. -/
def Ret.Leaves (P : Impl → Prop) : Ret → Prop
  | .done s | .threw s => P s
  | .crash => True

/-- The flags of the registration are set on a ready link only. -/
def NeedsReady (state : State) (registered registering : Bool) : Prop :=
  (registered = true → state = .ready) ∧ (registering = true → state = .ready)

namespace Impl

/-- A registration is reported, or under way, on a ready link only. -/
def OnLink (s : Impl) : Prop := NeedsReady s.state s.registered s.registering

theorem onLink_of_clear (h : s.registered = false ∧ s.registering = false) : s.OnLink := by
  simp [OnLink, NeedsReady, h.1, h.2]

theorem onLink_dropConnection (h : s.OnLink) (afterReady : Bool) (now : Int) :
    (s.dropConnection afterReady now).OnLink := by
  unfold dropConnection
  split
  · exact h
  · exact onLink_of_clear ⟨rfl, rfl⟩

section Leaves

variable {P : State → Bool → Bool → Prop}

/-- A started operation leaves the state and the flags of the registration alone. -/
theorem leaves_start {kind : OpKind} (h : P s.state s.registered s.registering) :
    (s.start kind).Leaves fun t => P t.state t.registered t.registering := by
  unfold start
  split
  · trivial
  · exact h

theorem leaves_sendRequestThenRead {request : Request} {onResp : OnResp} (h : P s.state s.registered s.registering) :
    (s.sendRequestThenRead request onResp).Leaves fun t => P t.state t.registered t.registering :=
  leaves_start h

theorem leaves_beginAuth {c : Completion} (h : P s.state s.registered s.registering) :
    (s.beginAuth c).Leaves fun t => P t.state t.registered t.registering := by
  unfold beginAuth
  split
  · dsimp only
    split
    · exact leaves_sendRequestThenRead h
    · exact leaves_sendRequestThenRead h
  · exact h

end Leaves

theorem onLink_start {kind : OpKind} (h : s.OnLink) : (s.start kind).Leaves OnLink :=
  leaves_start (P := NeedsReady) h

theorem onLink_sendRequestThenRead {request : Request} {onResp : OnResp} (h : s.OnLink) :
    (s.sendRequestThenRead request onResp).Leaves OnLink :=
  onLink_start h

theorem onLink_beginAuth {c : Completion} (h : s.OnLink) : (s.beginAuth c).Leaves OnLink :=
  leaves_beginAuth (P := NeedsReady) h

theorem onLink_onTokenResponse {resp : Json} {c : Completion} (h : s.OnLink) :
    (s.onTokenResponse resp c).Leaves OnLink := by
  unfold onTokenResponse
  split
  · exact onLink_dropConnection h false c.now
  · split
    · exact h
    · split
      · exact onLink_sendRequestThenRead h
      · exact h

theorem onLink_onAuthResponse {resp : Json} {c : Completion} (h : s.OnLink) :
    (s.onAuthResponse resp c).Leaves OnLink := by
  unfold onAuthResponse
  split
  · exact h
  · exact onLink_start ⟨fun _ => rfl, fun _ => rfl⟩
  · split
    · exact onLink_sendRequestThenRead h
    · exact onLink_dropConnection h false c.now

/-- Only a `ParameterCreationResponse` needs the link to be ready. -/
theorem onLink_steadyMessage {msg : Option Json} (h : s.OnLink)
    (hmsg : typeName msg = some "ParameterCreationResponse" → s.state = .ready) : (s.steadyMessage msg).OnLink := by
  unfold steadyMessage
  split
  · exact h
  · rename_i typeName htype
    split
    · rename_i hcreated
      exact ⟨fun _ => hmsg (hcreated ▸ htype), nofun⟩
    · split
      · exact ⟨h.1, nofun⟩
      · exact h

/-- The completion of the operation leaves the flags of the registration to a ready link: a `ParameterCreationResponse`
is read while Ready, and a connection is not opened further while a registration is reported or under way. -/
def timely (s : Impl) (op : Op) (c : Completion) : Bool :=
  s.shuttingDown || !c.ok ||
    match op.kind with
    | .resolve | .connect | .handshake => !s.registered && !s.registering
    | .steadyRead => typeName c.msg ≠ some "ParameterCreationResponse" || s.state = .ready
    | _ => true

theorem onLink_handle {op : Op} {c : Completion} (h : s.OnLink) (ht : s.timely op c = true) :
    (s.handle op c).Leaves OnLink := by
  have hdrop : ∀ afterReady, (s.dropConnection afterReady c.now).OnLink := fun afterReady =>
    onLink_dropConnection h afterReady c.now
  unfold handle
  split
  · exact h
  · rename_i hdown
    have hclear : c.ok = true → op.kind = .resolve ∨ op.kind = .connect ∨ op.kind = .handshake →
        s.registered = false ∧ s.registering = false := by
      rintro hok (hk | hk | hk) <;> simpa [timely, hdown, hok, hk] using ht
    split <;> rename_i hkind
    case h_1 =>
      split
      · rename_i hok
        exact onLink_start (onLink_of_clear (hclear hok (.inl hkind)))
      · exact hdrop false
    case h_2 =>
      split
      · rename_i hok
        exact onLink_start (onLink_of_clear (hclear hok (.inr (.inl hkind))))
      · exact hdrop false
    case h_3 =>
      split
      · rename_i hok
        unfold onHandshake
        split
        · trivial
        · exact onLink_beginAuth (onLink_of_clear (hclear hok (.inr (.inr hkind))))
      · exact hdrop false
    case h_4 =>
      split
      · exact onLink_start h
      · exact hdrop false
    case h_5 =>
      split
      · split
        · exact hdrop false
        · exact onLink_onTokenResponse h
        · exact onLink_onAuthResponse h
      · exact hdrop false
    case h_6 =>
      split
      · rename_i hok
        have hmsg : typeName c.msg = some "ParameterCreationResponse" → s.state = .ready := by
          intro hcreated
          simpa [timely, hdown, hok, hkind, hcreated] using ht
        unfold onSteadyMessage
        dsimp only
        split
        · exact onLink_start (onLink_steadyMessage h hmsg)
        · exact onLink_steadyMessage h hmsg
      · exact hdrop true
    case h_7 =>
      split
      · exact h
      · exact onLink_dropConnection (show OnLink { s with writeInFlight := false } from h) true c.now

/-- A completion that is not timely takes the registration off the link. -/
theorem offLink_handle {op : Op} {c : Completion} (ht : s.timely op c = false) :
    (s.handle op c).Leaves fun t => ¬ t.OnLink := by
  simp only [timely, Bool.or_eq_false_iff, Bool.not_eq_false'] at ht
  obtain ⟨⟨hrunning, hok⟩, hkind⟩ := ht
  have hoff : ∀ state : State, state ≠ .ready → s.registered = true ∨ s.registering = true →
      ¬ NeedsReady state s.registered s.registering := by
    rintro state hstate (hr | hr) hon
    · exact hstate (hon.1 hr)
    · exact hstate (hon.2 hr)
  have hset : (!s.registered && !s.registering) = false → s.registered = true ∨ s.registering = true := by
    cases s.registered <;> simp
  rw [handle, if_neg (by simp [hrunning])]
  split <;> rename_i hk <;> rw [hk] at hkind
  case h_1 =>
    rw [if_pos hok]
    exact leaves_start (P := fun state a b => ¬ NeedsReady state a b) (hoff .connecting nofun (hset hkind))
  case h_2 =>
    rw [if_pos hok]
    exact leaves_start (P := fun state a b => ¬ NeedsReady state a b) (hoff .handshaking nofun (hset hkind))
  case h_3 =>
    rw [if_pos hok]
    unfold onHandshake
    split
    · trivial
    · exact leaves_beginAuth (P := fun state a b => ¬ NeedsReady state a b) (hoff .authenticating nofun (hset hkind))
  case h_6 =>
    rw [if_pos hok]
    simp only [ne_eq, decide_not, Bool.or_eq_false_iff, Bool.not_eq_false', decide_eq_true_eq,
      decide_eq_false_iff_not] at hkind
    rw [onSteadyMessage_down hkind.2, steadyMessage_created hkind.1]
    exact fun hon => hkind.2 (hon.1 rfl)
  all_goals cases hkind

theorem onLink_startWriteIfNeeded (h : s.OnLink) : s.startWriteIfNeeded.Leaves OnLink := by
  unfold startWriteIfNeeded
  split
  · exact h
  · rename_i hready
    have hready : s.state = .ready := by simp at hready; exact hready.2
    split
    · exact onLink_start ⟨fun _ => hready, fun _ => hready⟩
    · split
      · exact onLink_start h
      · exact h

theorem onLink_connectIfDue (h : s.OnLink) : (s.connectIfDue now).OnLink := by
  unfold connectIfDue
  split
  · rename_i hcond
    have hdown : s.state ≠ .ready := by simp [hcond.2.1]
    exact ⟨fun hr => absurd (h.1 hr) hdown, fun hr => absurd (h.2 hr) hdown⟩
  · exact h

theorem onLink_beginPump (h : s.OnLink) : (s.beginPump now).Leaves OnLink := by
  unfold beginPump
  dsimp only
  split
  · exact onLink_startWriteIfNeeded (onLink_connectIfDue h)
  · exact onLink_connectIfDue h

end Impl

namespace Client

/-- A completion is timely. -/
def timely (s : Client) : Event → Bool
  | .complete i c => s.impl.ioc[i]?.all fun op => s.impl.timely op c
  | _ => true

theorem onLink_after {s : Client} {phase : Phase} {ret : Ret} (h : s.impl.OnLink) (hret : ret.Leaves Impl.OnLink) :
    (s.after phase ret).impl.OnLink := by
  cases ret with
  | done u => exact hret
  | threw u => exact hret
  | crash => exact h

/-- A timely step keeps the registration on the link. -/
theorem onLink_next {s t : Client} {e : Event} (h : s.impl.OnLink) (ht : s.timely e = true)
    (hnext : s.next e = some t) : t.impl.OnLink := by
  cases e with
  | complete i c =>
    obtain ⟨op, hop, -, rfl⟩ := next_complete hnext
    simp only [timely, hop, Option.all_some] at ht
    exact onLink_after h (Impl.onLink_handle h ht)
  | pump now =>
    obtain ⟨-, rfl⟩ := next_pump hnext
    exact onLink_after h (Impl.onLink_beginPump h)
  | teardownEnd =>
    simp only [next] at hnext
    split at hnext
    · cases hnext
      exact Impl.onLink_of_clear ⟨rfl, rfl⟩
    · cases hnext
  | _ =>
    simp only [next] at hnext
    split at hnext
    · cases hnext
      exact h
    · cases hnext

/-- Short of a crash, a step keeps the registration on the link exactly if it is timely. -/
theorem onLink_next_iff {s t : Client} {e : Event} (h : s.impl.OnLink) (hnext : s.next e = some t)
    (hc : t.phase ≠ .crashed) : t.impl.OnLink ↔ s.timely e = true := by
  refine ⟨fun hon => ?_, fun ht => onLink_next h ht hnext⟩
  by_contra hlate
  cases e with
  | complete i c =>
    obtain ⟨op, hop, -, rfl⟩ := next_complete hnext
    simp only [timely, hop, Option.all_some, Bool.not_eq_true] at hlate
    have hoff := Impl.offLink_handle (s := { s.impl with ioc := s.impl.ioc.eraseIdx i }) hlate
    cases hret : Impl.handle { s.impl with ioc := s.impl.ioc.eraseIdx i } op c with
    | done u =>
      rw [hret] at hon hoff
      exact hoff hon
    | threw u =>
      rw [hret] at hon hoff
      exact hoff hon
    | crash =>
      rw [hret] at hc
      exact hc rfl
  | _ => exact hlate rfl

end Client

/-- **A registration is reported on a ready link only**, in every run whose completions are timely. -/
theorem registration_on_link {now : Int} {es : List Event} {s : Client}
    (h : execute Client.next (Client.new now) es = some s)
    (hG : Along Client.next (fun s e => s.timely e = true) (Client.new now) es) :
    (s.impl.registered = true → s.impl.state = .ready) ∧ (s.impl.registering = true → s.impl.state = .ready) :=
  execute_inv_along (P := fun s => s.impl.OnLink) (fun _ _ _ => Client.onLink_next)
    (Impl.onLink_of_clear ⟨rfl, rfl⟩) hG h

/-- A message of the given type. -/
def message (typeName : String) (data : Json) : Json := .obj [("messageType", .str typeName), ("data", data)]

/-- An operation succeeds, with the message if it is a read. -/
def succeeds (msg : Option Json) : Completion := ⟨true, msg, some "token", true, 0⟩

/-- An operation fails. -/
def fails : Completion := ⟨false, none, none, true, 0⟩

/-- The client becomes Ready with its stored token. -/
def linkUp : List Event :=
  [.connect "localhost" "8001" 0, .pump 0] ++ List.replicate 4 (.complete 0 (succeeds none)) ++
    [.complete 0 (succeeds (message "AuthenticationResponse" (.obj [("authenticated", .bool true)]))), .pollEnd]

/-- The parameter was created. -/
def created : Option Json := message "ParameterCreationResponse" .null

/-- The parameter is registered. -/
def registerRun : List Event := linkUp ++ [.requestRegister, .pump 0, .complete 0 (succeeds created), .pollEnd]

theorem registration_on_link_register : ∃ s, execute Client.next (Client.new 0) registerRun = some s ∧
    s.impl.registered = true ∧ s.impl.state = .ready := by
  obtain ⟨s, hs, hreg⟩ := Option.map_eq_some_iff.1 (show
    (execute Client.next (Client.new 0) registerRun).map (·.impl.registered) = some true by decide +kernel)
  exact ⟨s, hs, hreg, (registration_on_link hs (by decide +kernel)).1 hreg⟩

/-- The write of an inject fails, then the read completes with the answer to the registration. -/
def lateRun : List Event :=
  linkUp ++ [.requestRegister, .pump 0, .complete 1 (succeeds none), .pollEnd, .setDetectValue 1, .pump 0,
    .complete 1 fails, .complete 0 (succeeds created), .pollEnd, .drainEnd]

theorem registration_late : ¬ ∀ now es s, execute Client.next (Client.new now) es = some s → s.phase = .idle →
    (s.impl.registered = true → s.impl.state = .ready) ∧ (s.impl.registering = true → s.impl.state = .ready) := by
  intro hall
  obtain ⟨s, hs, heq⟩ := Option.map_eq_some_iff.1 (show
    (execute Client.next (Client.new 0) lateRun).map (fun s => (s.phase, s.impl.registered, s.impl.state)) =
      some (.idle, true, .disconnected) by decide +kernel)
  simp only [Prod.mk.injEq] at heq
  obtain ⟨hidle, hreg, hdown⟩ := heq
  have hready := (hall 0 lateRun s hs hidle).1 hreg
  rw [hdown] at hready
  cases hready

/-! ## The answers of VTube Studio -/

namespace Request

/-- The type of the answer to a request. -/
def responseType : Request → String
  | authenticationToken => "AuthenticationTokenResponse"
  | authentication _ _ => "AuthenticationResponse"
  | parameterCreation => "ParameterCreationResponse"
  | injectParameterData _ => "InjectParameterDataResponse"

/-- The message answers the request. -/
def answeredBy (r : Request) (msg : Option Json) : Bool :=
  typeName msg = some r.responseType || typeName msg = some "APIError"

theorem answeredBy_iff {r : Request} {msg : Option Json} :
    r.answeredBy msg = true ↔ typeName msg = some r.responseType ∨ typeName msg = some "APIError" := by
  simp [answeredBy]

/-- A request of the steady state. -/
def steady : Request → Bool
  | parameterCreation | injectParameterData _ => true
  | _ => false

end Request

/-- The request of a steady write. -/
def Op.written (op : Op) : Option Request :=
  match op.kind with
  | .steadyWrite r _ => some r
  | _ => none

/-- A ready client, and the requests that VTube Studio has not answered, the oldest first. -/
structure Peer where
  client : Client
  unanswered : List Request

namespace Peer

/-- A message reaches the steady read. -/
def delivers (p : Peer) : Event → Bool
  | .complete i c => c.ok && p.client.impl.ioc[i]?.any fun op => op.kind = .steadyRead
  | _ => false

/-- The request whose answer the step delivers. -/
def delivered (p : Peer) (e : Event) : Option Request := if p.delivers e then p.unanswered.head? else none

/-- One step while Ready: a command, a pump, which may hand a request to the peer, or a completion; a message is the
answer to the oldest request. -/
def next (p : Peer) (e : Event) : Option Peer :=
  if p.client.impl.state = .ready then
    match e with
    | .requestRegister | .setDetectValue _ | .pollEnd => (p.client.next e).map fun c => { p with client := c }
    | .pump _ =>
      (p.client.next e).map fun c =>
        ⟨c, p.unanswered ++ (c.impl.ioc.drop p.client.impl.ioc.length).filterMap Op.written⟩
    | .complete _ c =>
      if p.delivers e then
        match p.unanswered with
        | r :: rest => if r.answeredBy c.msg then (p.client.next e).map (⟨·, rest⟩) else none
        | [] => none
      else (p.client.next e).map fun c => { p with client := c }
    | _ => none
  else none

/-- The step decides the registration: it fails, or it ends without a drop. -/
def Decides (p q : Peer) : Prop :=
  (p.client.impl.registerFailed = false ∧ q.client.impl.registerFailed = true) ∨
    (p.client.impl.registering = true ∧ q.client.impl.registering = false ∧ q.client.impl.state = .ready)

/-- If the step decides the registration, it delivers the answer to the one outstanding registration request. -/
def Attributes (p : Peer) (e : Event) : Prop :=
  ∀ q, p.next e = some q → p.Decides q →
    p.client.impl.registering = true ∧ p.delivered e = some .parameterCreation ∧
      p.unanswered.count .parameterCreation = 1

/-- An error that answers an inject is delivered while a registration is under way. -/
def injectError (p : Peer) : Event → Bool
  | .complete i c =>
    p.client.impl.registering && typeName c.msg = some "APIError" &&
      (p.delivered (.complete i c)).any fun r => r ≠ .parameterCreation
  | _ => false

/-- The client has become Ready: it waits for a message, and no registration is under way. -/
structure JustReady (s : Impl) : Prop where
  ready : s.state = .ready
  ws : ∃ w, s.ws = some w ∧ s.ioc = [⟨w, .steadyRead⟩]
  running : s.shuttingDown = false
  registering : s.registering = false

/-- The link is open, and only the operations of the steady state are outstanding. -/
structure Open (shuttingDown : Bool) (ws : Option Nat) (ioc : List Op) : Prop where
  running : shuttingDown = false
  ws : ∃ w, ws = some w
  steady : ∀ op ∈ ioc, op.kind = .steadyRead ∨ ∃ r n, op.kind = .steadyWrite r n

/-- The link of the peer's client is open. -/
def IsOpen (p : Peer) : Prop := Open p.client.impl.shuttingDown p.client.impl.ws p.client.impl.ioc

theorem JustReady.open {s : Impl} (h : JustReady s) : Open s.shuttingDown s.ws s.ioc := by
  obtain ⟨w, hw, hioc⟩ := h.ws
  refine ⟨h.running, ⟨w, hw⟩, ?_⟩
  intro op hop
  rw [hioc, List.mem_singleton] at hop
  exact .inl (hop ▸ rfl)

section Open

variable {shuttingDown : Bool} {ws : Option Nat} {ioc : List Op}

theorem Open.append (h : Open shuttingDown ws ioc) (w : Nat) {kind : OpKind}
    (hk : kind = .steadyRead ∨ ∃ r n, kind = .steadyWrite r n) : Open shuttingDown ws (ioc ++ [⟨w, kind⟩]) := by
  refine ⟨h.running, h.ws, ?_⟩
  intro op hop
  rcases List.mem_append.1 hop with hop | hop
  · exact h.steady op hop
  · rw [List.mem_singleton] at hop
    exact hop ▸ hk

theorem Open.eraseIdx (h : Open shuttingDown ws ioc) (i : Nat) : Open shuttingDown ws (ioc.eraseIdx i) :=
  ⟨h.running, h.ws, fun op hop => h.steady op (List.mem_of_mem_eraseIdx hop)⟩

end Open

/-- What a step does to the registration: nothing but new injects, a registration request, an answer, or a drop. -/
inductive Moves (p : Peer) (e : Event) (q : Peer) : Prop
  | quiet (values : List ℚ) (hd : p.delivers e = false)
    (hreg : q.client.impl.registering = p.client.impl.registering)
    (hfail : q.client.impl.registerFailed = true → p.client.impl.registerFailed = true)
    (hun : q.unanswered = p.unanswered ++ values.map .injectParameterData)
  | ask (hd : p.delivers e = false) (hoff : p.client.impl.registering = false)
    (hreg : q.client.impl.registering = true) (hfail : q.client.impl.registerFailed = false)
    (hun : q.unanswered = p.unanswered ++ [.parameterCreation])
  | answer (i : Nat) (c : Completion) (r : Request) (he : e = .complete i c) (hd : p.delivers e = true)
    (hun : p.unanswered = r :: q.unanswered) (hans : r.answeredBy c.msg = true)
    (hready : q.client.impl.state = .ready)
    (hreg : q.client.impl.registering = (p.client.impl.steadyMessage c.msg).registering)
    (hfail : q.client.impl.registerFailed = (p.client.impl.steadyMessage c.msg).registerFailed)
  | drop (hd : p.delivers e = false) (hdown : q.client.impl.state ≠ .ready)
    (hfail : q.client.impl.registerFailed = p.client.impl.registerFailed) (hun : q.unanswered = p.unanswered)

theorem next_ready {p q : Peer} {e : Event} (h : p.next e = some q) : p.client.impl.state = .ready := by
  unfold next at h
  split at h
  · assumption
  · cases h

theorem moves_pump {p q : Peer} {now : Int} (h : p.IsOpen) (hnext : p.next (.pump now) = some q) :
    q.IsOpen ∧ p.Moves (.pump now) q := by
  have hready := next_ready hnext
  simp only [next, hready, if_true] at hnext
  obtain ⟨c, hc, rfl⟩ := Option.map_eq_some_iff.1 hnext
  obtain ⟨-, rfl⟩ := Client.next_pump hc
  rw [Impl.beginPump_ready hready]
  obtain ⟨w, hw⟩ := h.ws
  obtain heq | ⟨-, -, hoff, heq⟩ | ⟨-, -, -, heq⟩ := Impl.startWriteIfNeeded_cases hw
  · rw [heq]
    exact ⟨h, .quiet [] rfl rfl id (by simp [Client.after])⟩
  · rw [heq]
    exact ⟨h.append w (.inr ⟨_, _, rfl⟩), .ask rfl hoff rfl rfl (by simp [Client.after, Impl.addOp, Op.written])⟩
  · rw [heq]
    exact ⟨h.append w (.inr ⟨_, _, rfl⟩),
      .quiet [p.client.impl.pendingValue] rfl rfl id (by simp [Client.after, Impl.addOp, Op.written])⟩

/-- An operation that completes without a message leaves the registration alone, or it drops the link. -/
theorem handle_silent {s : Impl} {op : Op} {c : Completion} (h : Open s.shuttingDown s.ws s.ioc)
    (hready : s.state = .ready) (hop : op.kind = .steadyRead ∨ ∃ r n, op.kind = .steadyWrite r n)
    (hd : (c.ok && decide (op.kind = .steadyRead)) = false) :
    ∃ t, s.handle op c = .done t ∧ Open t.shuttingDown t.ws t.ioc ∧ t.registerFailed = s.registerFailed ∧
      (t.registering = s.registering ∨ t.state ≠ .ready) := by
  have hrunning := h.running
  obtain hk | ⟨r, n, hk⟩ := hop
  · have hok : c.ok = false := by simpa [hk] using hd
    refine ⟨s.fail c.now, by simp [Impl.handle, hrunning, hk, hok], ?_⟩
    simp only [Impl.fail, Impl.dropConnection, hready]
    exact ⟨h, rfl, .inr nofun⟩
  · cases hok : c.ok with
    | true =>
      refine ⟨{ s with writeInFlight := false }, by simp [Impl.handle, hrunning, hk, hok], ?_⟩
      exact ⟨h, rfl, .inl rfl⟩
    | false =>
      refine ⟨Impl.fail { s with writeInFlight := false } c.now, by simp [Impl.handle, hrunning, hk, hok], ?_⟩
      simp only [Impl.fail, Impl.dropConnection, hready]
      exact ⟨h, rfl, .inr nofun⟩

/-- A message arms the steady read again. -/
theorem handle_message {s : Impl} {op : Op} {c : Completion} {w : Nat} (h : Open s.shuttingDown s.ws s.ioc)
    (hready : s.state = .ready) (hw : s.ws = some w) (hop : op.kind = .steadyRead) (hok : c.ok = true) :
    s.handle op c = .done ((s.steadyMessage c.msg).addOp w .steadyRead) := by
  have hrunning := h.running
  simp only [Impl.handle, hrunning, hop, hok, if_true]
  exact Impl.onSteadyMessage_ready hrunning hready hw

theorem moves_complete {p q : Peer} {i : Nat} {c : Completion} (h : p.IsOpen)
    (hnext : p.next (.complete i c) = some q) : q.IsOpen ∧ p.Moves (.complete i c) q := by
  have hready := next_ready hnext
  have herase := Open.eraseIdx h i
  simp only [next, hready, if_true] at hnext
  obtain ⟨w, hw⟩ := h.ws
  split at hnext
  · rename_i hd
    split at hnext
    · rename_i r rest hun
      split at hnext
      · rename_i hans
        obtain ⟨u, hu, rfl⟩ := Option.map_eq_some_iff.1 hnext
        obtain ⟨op, hop, -, rfl⟩ := Client.next_complete hu
        have hread : c.ok = true ∧ op.kind = .steadyRead := by simpa [delivers, hop] using hd
        have heq := handle_message (s := { p.client.impl with ioc := p.client.impl.ioc.eraseIdx i }) herase hready hw
          hread.2 hread.1
        rw [Impl.steadyMessage_ioc] at heq
        obtain ⟨registered, registering, registerFailed, -, hframe⟩ := p.client.impl.steadyMessage_frame c.msg
        rw [heq]
        refine ⟨?_, .answer i c r rfl hd hun hans ?_ rfl rfl⟩
        · rw [hframe]
          exact herase.append w (.inl rfl)
        · rw [hframe]
          exact hready
      · cases hnext
    · cases hnext
  · rename_i hd
    obtain ⟨u, hu, rfl⟩ := Option.map_eq_some_iff.1 hnext
    obtain ⟨op, hop, -, rfl⟩ := Client.next_complete hu
    have hsilent : (c.ok && decide (op.kind = .steadyRead)) = false := by
      simpa [delivers, hop] using hd
    obtain ⟨v, heq, hv, hfail, hreg⟩ := handle_silent
      (s := { p.client.impl with ioc := p.client.impl.ioc.eraseIdx i }) herase hready
      (h.steady op (List.mem_of_getElem? hop)) hsilent
    rw [heq]
    refine ⟨hv, ?_⟩
    by_cases hup : v.state = .ready
    · exact .quiet [] (by simpa using hd) (hreg.resolve_right (not_not_intro hup)) (fun hf => hfail ▸ hf) (by simp)
    · exact .drop (by simpa using hd) hup hfail rfl

/-- A step is one of the moves of the registration. -/
theorem moves_next {p q : Peer} {e : Event} (h : p.IsOpen) (hnext : p.next e = some q) : q.IsOpen ∧ p.Moves e q := by
  have hready := next_ready hnext
  cases e with
  | pump now => exact moves_pump h hnext
  | complete i c => exact moves_complete h hnext
  | requestRegister =>
    simp only [next, hready, if_true] at hnext
    obtain ⟨u, hu, rfl⟩ := Option.map_eq_some_iff.1 hnext
    obtain ⟨-, rfl⟩ := Client.next_requestRegister hu
    exact ⟨h, .quiet [] rfl rfl nofun (by simp)⟩
  | setDetectValue value =>
    simp only [next, hready, if_true] at hnext
    obtain ⟨u, hu, rfl⟩ := Option.map_eq_some_iff.1 hnext
    obtain ⟨-, rfl⟩ := Client.next_setDetectValue hu
    exact ⟨h, .quiet [] rfl rfl id (by simp)⟩
  | pollEnd =>
    simp only [next, hready, if_true] at hnext
    obtain ⟨u, hu, rfl⟩ := Option.map_eq_some_iff.1 hnext
    obtain ⟨-, rfl⟩ := Client.next_pollEnd hu
    exact ⟨h, .quiet [] rfl rfl id (by simp)⟩
  | _ => simp [next] at hnext

/-- While Ready, a registration is under way exactly while its request is unanswered. -/
structure Registers (p : Peer) : Prop where
  isOpen : p.IsOpen
  steady : ∀ r ∈ p.unanswered, r.steady = true
  one : p.client.impl.state = .ready →
    p.unanswered.count .parameterCreation = if p.client.impl.registering then 1 else 0

theorem JustReady.registers {s : Client} (h : JustReady s.impl) : Registers ⟨s, []⟩ where
  isOpen := h.open
  steady := nofun
  one _ := by simp [h.registering]

theorem delivered_answer {p : Peer} {e : Event} {r : Request} {rest : List Request} (hd : p.delivers e = true)
    (hun : p.unanswered = r :: rest) : p.delivered e = some r := by
  simp [delivered, hd, hun]

theorem injectError_of_silent {p : Peer} {e : Event} (hd : p.delivers e = false) : p.injectError e = false := by
  cases e <;> simp [injectError, delivered, hd]

/-- The answer to an inject is an error that meets a registration, or it leaves the client alone. -/
theorem steadyMessage_inject {s : Impl} {msg : Option Json} {r : Request} (hr : r.steady = true)
    (hp : r ≠ .parameterCreation) (hans : r.answeredBy msg = true)
    (hno : (s.registering && decide (typeName msg = some "APIError")) = false) : s.steadyMessage msg = s := by
  cases r with
  | parameterCreation => exact absurd rfl hp
  | injectParameterData value =>
    apply Impl.steadyMessage_other
    · rcases Request.answeredBy_iff.1 hans with htype | htype <;> simp [htype, Request.responseType]
    · intro hreg
      simpa [hreg] using hno
  | authenticationToken => cases hr
  | authentication token stored => cases hr

/-- The answer to a registration request ends it. -/
theorem registering_answered {s : Impl} {msg : Option Json}
    (hans : Request.parameterCreation.answeredBy msg = true) : (s.steadyMessage msg).registering = false := by
  rcases Request.answeredBy_iff.1 hans with htype | htype
  · rw [Impl.steadyMessage_created htype]
  · cases hreg : s.registering with
    | true => rw [Impl.steadyMessage_error htype hreg]
    | false => rw [Impl.steadyMessage_other (by simp [htype]) (by simp [hreg]), hreg]

/-- Without an error for an inject, the registration stays bound to its request. -/
theorem registers_next {p q : Peer} {e : Event} (h : p.Registers) (hG : p.injectError e = false)
    (hnext : p.next e = some q) : q.Registers := by
  have hone := h.one (next_ready hnext)
  obtain ⟨hopen, hmove⟩ := moves_next h.isOpen hnext
  cases hmove with
  | quiet values hd hreg hfail hun =>
    have hcount : (values.map Request.injectParameterData).count .parameterCreation = 0 := by
      simp [List.count_eq_zero]
    refine ⟨hopen, ?_, fun _ => ?_⟩
    · intro r hr
      rw [hun] at hr
      rcases List.mem_append.1 hr with hr | hr
      · exact h.steady r hr
      · obtain ⟨value, -, rfl⟩ := List.mem_map.1 hr
        rfl
    · rw [hun, List.count_append, hcount, hreg, hone, Nat.add_zero]
  | ask hd hoff hreg hfail hun =>
    refine ⟨hopen, ?_, fun _ => ?_⟩
    · intro r hr
      rw [hun] at hr
      rcases List.mem_append.1 hr with hr | hr
      · exact h.steady r hr
      · exact List.mem_singleton.1 hr ▸ rfl
    · rw [hun, List.count_append, hone, hoff, hreg]
      rfl
  | answer i c r he hd hun hans hready hreg hfail =>
    have hsteady : r.steady = true := h.steady r (hun ▸ List.mem_cons_self)
    refine ⟨hopen, fun r' hr' => h.steady r' (hun ▸ List.mem_cons_of_mem r hr'), fun _ => ?_⟩
    rw [hun, List.count_cons] at hone
    by_cases hp : r = .parameterCreation
    · subst hp
      rw [hreg, registering_answered hans]
      simp only [beq_self_eq_true, if_true] at hone
      split at hone
      · simpa using hone
      · cases hone
    · have hno : (p.client.impl.registering && decide (typeName c.msg = some "APIError")) = false := by
        simpa [injectError, he, delivered_answer (he ▸ hd) hun, hp] using hG
      rw [hreg, steadyMessage_inject hsteady hp hans hno]
      simpa [hp] using hone
  | drop hd hdown hfail hun =>
    exact ⟨hopen, fun r hr => h.steady r (hun ▸ hr), fun hready => absurd hready hdown⟩

/-- A step attributes the outcome of the registration unless it delivers an error for an inject. -/
theorem attributes_iff {p q : Peer} {e : Event} (h : p.Registers) (hnext : p.next e = some q) :
    p.Attributes e ↔ p.injectError e = false := by
  have hone := h.one (next_ready hnext)
  obtain ⟨-, hmove⟩ := moves_next h.isOpen hnext
  have hundecided : ¬ p.Decides q → p.Attributes e := fun hno q' hq' hdec =>
    absurd (Option.some.inj (hq'.symm.trans hnext) ▸ hdec) hno
  cases hmove with
  | quiet values hd hreg hfail hun =>
    refine iff_of_true (hundecided ?_) (injectError_of_silent hd)
    rintro (⟨hf, hf'⟩ | ⟨hr, hr', -⟩)
    · exact Bool.false_ne_true (hf.symm.trans (hfail hf'))
    · exact Bool.false_ne_true (hr'.symm.trans (hreg.trans hr))
  | ask hd hoff hreg hfail hun =>
    refine iff_of_true (hundecided ?_) (injectError_of_silent hd)
    rintro (⟨-, hf'⟩ | ⟨hr, -, -⟩)
    · exact Bool.false_ne_true (hfail.symm.trans hf')
    · exact Bool.false_ne_true (hoff.symm.trans hr)
  | drop hd hdown hfail hun =>
    refine iff_of_true (hundecided ?_) (injectError_of_silent hd)
    rintro (⟨hf, hf'⟩ | ⟨-, -, hready⟩)
    · exact Bool.false_ne_true (hf.symm.trans (hfail.symm.trans hf'))
    · exact hdown hready
  | answer i c r he hd hun hans hready hreg hfail =>
    have hdelivered := delivered_answer hd hun
    by_cases hp : r = .parameterCreation
    · subst hp
      rw [hun, List.count_cons_self] at hone
      have hregistering : p.client.impl.registering = true := by
        by_contra hoff
        rw [if_neg hoff] at hone
        omega
      rw [if_pos hregistering] at hone
      refine iff_of_true (fun _ _ _ => ⟨hregistering, hdelivered, ?_⟩) ?_
      · rw [hun, List.count_cons_self, hone]
      · rw [he] at hdelivered ⊢
        simp [injectError, hdelivered]
    · have herror : p.injectError e = (p.client.impl.registering && decide (typeName c.msg = some "APIError")) := by
        rw [he] at hdelivered ⊢
        simp [injectError, hdelivered, hp]
      rw [herror]
      cases hno : (p.client.impl.registering && decide (typeName c.msg = some "APIError")) with
      | false =>
        refine iff_of_true (hundecided ?_) rfl
        have hsame := steadyMessage_inject (h.steady r (hun ▸ List.mem_cons_self)) hp hans hno
        rw [hsame] at hreg hfail
        rintro (⟨hf, hf'⟩ | ⟨hr, hr', -⟩)
        · exact Bool.false_ne_true (hf.symm.trans (hfail.symm.trans hf'))
        · exact Bool.false_ne_true (hr'.symm.trans (hreg.trans hr))
      | true =>
        simp only [Bool.and_eq_true, decide_eq_true_eq] at hno
        refine iff_of_false (fun hattr => hp ?_) nofun
        rw [Impl.steadyMessage_error hno.2 hno.1] at hreg
        have hanswer := (hattr q hnext (.inr ⟨hno.1, hreg, hready⟩)).2.1
        exact Option.some.inj (hdelivered.symm.trans hanswer)

end Peer

open Peer in
/-- **The outcome of a registration comes from the answer to its request**, exactly in the runs in which no error that
answers an inject is delivered while a registration is under way. -/
theorem registration_attributed {s : Client} {es : List Event} {q : Peer} (h : JustReady s.impl)
    (hrun : execute Peer.next ⟨s, []⟩ es = some q) :
    Along Peer.next Attributes ⟨s, []⟩ es ↔ Along Peer.next (fun p e => p.injectError e = false) ⟨s, []⟩ es :=
  along_iff (fun _ _ _ => registers_next) (fun _ _ _ => attributes_iff) h.registers hrun

/-- The client between its calls, just Ready. -/
def readyClient : Client :=
  ⟨{ Impl.new 0 with ws := some 0, state := .ready, ioc := [⟨0, .steadyRead⟩], attempts := 1 }, .idle, false⟩

theorem justReady_readyClient : Peer.JustReady readyClient.impl := ⟨rfl, ⟨0, rfl, rfl⟩, rfl, rfl⟩

/-- The peer answers an inject with an error. -/
def apiError : Option Json := message "APIError" .null

/-- An inject and a registration that are answered by errors, and a registration that succeeds. -/
def answeredRun : List Event :=
  [.setDetectValue 1, .pump 0, .complete 1 (succeeds none), .complete 0 (succeeds apiError), .pollEnd, .requestRegister,
    .pump 0, .complete 1 (succeeds none), .complete 0 (succeeds apiError), .pollEnd, .requestRegister, .pump 0,
    .complete 1 (succeeds none), .complete 0 (succeeds created)]

theorem registration_attributed_answered : ∃ q, execute Peer.next ⟨readyClient, []⟩ answeredRun = some q ∧
    Along Peer.next Peer.Attributes ⟨readyClient, []⟩ answeredRun := by
  obtain ⟨q, hq⟩ := Option.isSome_iff_exists.1 (show
    (execute Peer.next ⟨readyClient, []⟩ answeredRun).isSome = true by decide +kernel)
  exact ⟨q, hq, (registration_attributed justReady_readyClient hq).2 (by decide +kernel)⟩

/-- A registration request is handed to the socket before the answer to an inject is delivered. -/
def overtakenRun : List Event :=
  [.setDetectValue 1, .pump 0, .complete 1 (succeeds none), .pollEnd, .requestRegister, .pump 0]

theorem registration_misattributed : ¬ ∀ s es q, Peer.JustReady s.impl →
    execute Peer.next ⟨s, []⟩ es = some q → Along Peer.next Peer.Attributes ⟨s, []⟩ es := by
  intro hall
  obtain ⟨p, hp, heq⟩ := Option.map_eq_some_iff.1 (show
    (execute Peer.next ⟨readyClient, []⟩ overtakenRun).map
      (fun p => (p.client.impl.registerFailed, p.delivered (.complete 0 (succeeds apiError)))) =
      some (false, some (.injectParameterData 1)) by decide +kernel)
  obtain ⟨q, hq, hfail⟩ := Option.map_eq_some_iff.1 (show
    (execute Peer.next ⟨readyClient, []⟩ (overtakenRun ++ [.complete 0 (succeeds apiError)])).map
      (fun q => q.client.impl.registerFailed) = some true by decide +kernel)
  have hattr := (along_of_append (hall _ _ q justReady_readyClient hq) hp).1
  rw [Prod.mk.injEq] at heq
  have hanswer := (hattr q (execute_of_snoc hq hp) (.inl ⟨heq.1, hfail⟩)).2.1
  rw [heq.2] at hanswer
  cases hanswer

end Vts

end Bajiru.Linkjiru
