import Bajiru.Linkjiru.VtsDiscipline

/-!
# What a handler can do

In any state of the client, of whatever connection its operation is: a handler leaves the connection as it is, starts one
operation on the stream, drops the connection, throws, or uses a stream that is gone (`handle_handled`).
-/

namespace Bajiru.Linkjiru

namespace Vts

/-- The operation is a step of opening the link. -/
def OpKind.opensLink : OpKind → Bool
  | resolve | connect | handshake | requestWrite _ _ _ | responseRead _ _ => true
  | steadyRead | steadyWrite _ _ => false

/-- The link is being opened. -/
def State.opensLink : State → Bool
  | resolving | connecting | handshaking | authenticating => true
  | disconnected | ready => false

theorem State.opensLink_ne {s : State} (h : s.opensLink = true) : s ≠ .disconnected ∧ s ≠ .ready := by
  cases s with
  | disconnected => cases h
  | ready => cases h
  | _ => exact ⟨State.noConfusion, State.noConfusion⟩

/-- The event is part of `disconnect`. -/
def Event.isTeardown : Event → Bool
  | disconnect | teardownEnd => true
  | _ => false

/-- The state `t` and the operation `next` that a completed operation of a kind leads to in the state `s`. -/
def Leads (kind : OpKind) (s : State) (next : OpKind) (t : State) : Prop :=
  next = .steadyRead ∧ t = .ready ∨
    next.opensLink = true ∧ kind.opensLink = true ∧ (t.opensLink = true ∨ kind ≠ .resolve ∧ t = s)

namespace Impl

/-- What a handler leaves as it is, unless it drops the connection; it begins no registration and no write. -/
structure Keeps (s t : Impl) : Prop where
  ws : t.ws = s.ws
  attempts : t.attempts = s.attempts
  wantConnection : t.wantConnection = s.wantConnection
  nextAttempt : t.nextAttempt = s.nextAttempt
  needsRecycle : t.needsRecycle = s.needsRecycle
  shuttingDown : t.shuttingDown = s.shuttingDown
  registerRequested : t.registerRequested = s.registerRequested
  pendingValue : t.pendingValue = s.pendingValue
  valueDirty : t.valueDirty = s.valueDirty
  registering : t.registering = true → s.registering = true
  writeInFlight : t.writeInFlight = true → s.writeInFlight = true

namespace Keeps

variable {s t u : Impl}

theorem refl (s : Impl) : s.Keeps s := ⟨rfl, rfl, rfl, rfl, rfl, rfl, rfl, rfl, rfl, id, id⟩

theorem trans (h : s.Keeps t) (h' : t.Keeps u) : s.Keeps u where
  ws := h'.ws.trans h.ws
  attempts := h'.attempts.trans h.attempts
  wantConnection := h'.wantConnection.trans h.wantConnection
  nextAttempt := h'.nextAttempt.trans h.nextAttempt
  needsRecycle := h'.needsRecycle.trans h.needsRecycle
  shuttingDown := h'.shuttingDown.trans h.shuttingDown
  registerRequested := h'.registerRequested.trans h.registerRequested
  pendingValue := h'.pendingValue.trans h.pendingValue
  valueDirty := h'.valueDirty.trans h.valueDirty
  registering hreg := h.registering (h'.registering hreg)
  writeInFlight hwrite := h.writeInFlight (h'.writeInFlight hwrite)

/-- No write is begun. -/
theorem writeInFlight_off (h : s.Keeps t) (hs : s.writeInFlight = false) : t.writeInFlight = false :=
  Bool.eq_false_iff.2 fun ht => Bool.eq_false_iff.1 hs (h.writeInFlight ht)

/-- No registration is begun. -/
theorem registering_off (h : s.Keeps t) (hs : s.registering = false) : t.registering = false :=
  Bool.eq_false_iff.2 fun ht => Bool.eq_false_iff.1 hs (h.registering ht)

/-- The fields of the auth phase, the outstanding operations and the state are not among those that are kept. -/
theorem auth (s : Impl) (ioc : List Op) (state : State) (token : String) (tried : Bool) (writePayload : Option Json)
    (payloads : Nat) (popups : List Nat) (late : List Op) :
    s.Keeps { s with
      ioc := ioc, state := state, token := token, triedStoredToken := tried, writePayload := writePayload
      payloads := payloads, popups := popups, late := late } :=
  ⟨rfl, rfl, rfl, rfl, rfl, rfl, rfl, rfl, rfl, id, id⟩

end Keeps

end Impl

/-- How a handler of a completed operation ends. -/
inductive Handled (s : Impl) (op : Op) (c : Completion) : Ret → Prop
  | kept {t : Impl} (keeps : s.Keeps t) (ioc : t.ioc = s.ioc) (state : t.state = s.state)
      (kind : s.shuttingDown = true ∨ op.kind.opensLink = false) : Handled s op c (.done t)
  | started {t : Impl} {w : Nat} {kind : OpKind} (ws : s.ws = some w) (keeps : s.Keeps t)
      (ioc : t.ioc = s.ioc ++ [⟨w, kind⟩]) (leads : Leads op.kind s.state kind t.state) : Handled s op c (.done t)
  | dropped {writeInFlight : Bool} (write : writeInFlight = true → s.writeInFlight = true) :
      Handled s op c (.done (Impl.dropConnection { s with writeInFlight := writeInFlight } (!op.kind.opensLink) c.now))
  | threw {t : Impl} (keeps : s.Keeps t) (ioc : t.ioc = s.ioc) (state : t.state.opensLink = true ∨ t.state = s.state)
      (kind : op.kind.opensLink = true ∧ op.kind ≠ .resolve) : Handled s op c (.threw t)
  | crash (ws : s.ws = none) : Handled s op c .crash

namespace Handled

variable {s₀ s : Impl} {op : Op} {c : Completion} {kind : OpKind} {state : State}

/-- The handler starts its next operation. -/
theorem start (h : s₀.Keeps s) (hioc : s.ioc = s₀.ioc) (hleads : Leads op.kind s₀.state kind s.state) :
    Handled s₀ op c (s.start kind) := by
  unfold Impl.start
  split
  · rename_i hws
    exact .crash (h.ws.symm.trans hws)
  · rename_i w hws
    exact .started (h.ws.symm.trans hws) (h.trans (by exact .auth s ..)) (by rw [← hioc]; rfl) hleads

/-- The handler sends a request of the auth phase. -/
theorem send (h : s₀.Keeps s) (hioc : s.ioc = s₀.ioc) (hkind : op.kind.opensLink = true ∧ op.kind ≠ .resolve)
    (hstate : s.state.opensLink = true ∨ s.state = s₀.state) (request : Request) (onResp : OnResp) :
    Handled s₀ op c (s.sendRequestThenRead request onResp) := by
  unfold Impl.sendRequestThenRead
  exact start (h.trans (by exact .auth s ..)) hioc (.inr ⟨rfl, hkind.1, hstate.imp id fun heq => ⟨hkind.2, heq⟩⟩)

theorem requestNewToken (h : s₀.Keeps s) (hioc : s.ioc = s₀.ioc)
    (hkind : op.kind.opensLink = true ∧ op.kind ≠ .resolve) (hstate : s.state.opensLink = true ∨ s.state = s₀.state) :
    Handled s₀ op c s.requestNewToken := by
  unfold Impl.requestNewToken
  apply send
  · exact h.trans (.auth s ..)
  · exact hioc
  · exact hkind
  · exact hstate

theorem beginAuth (h : s₀.Keeps s) (hioc : s.ioc = s₀.ioc) (hkind : op.kind.opensLink = true ∧ op.kind ≠ .resolve)
    (hstate : s.state.opensLink = true) : Handled s₀ op c (s.beginAuth c) := by
  unfold Impl.beginAuth
  split
  · dsimp only
    split
    · apply send
      · exact h.trans (.auth s ..)
      · exact hioc
      · exact hkind
      · exact .inl hstate
    · exact requestNewToken (h.trans (by exact .auth s ..)) hioc hkind (.inl hstate)
  · exact .threw (h.trans (by exact .auth s ..)) hioc (.inl hstate) hkind

/-- A failure before Ready. -/
theorem retryLater (hkind : op.kind.opensLink = true) : Handled s op c (.done (s.retryLater c.now)) := by
  have hdrop : Handled s op c (.done (s.dropConnection (!op.kind.opensLink) c.now)) := @dropped s op c s.writeInFlight id
  rwa [hkind] at hdrop

/-- A failure of a steady operation. -/
theorem fail (hkind : op.kind.opensLink = false) {writeInFlight : Bool}
    (hwrite : writeInFlight = true → s.writeInFlight = true) :
    Handled s op c (.done (Impl.fail { s with writeInFlight := writeInFlight } c.now)) := by
  have hdrop : Handled s op c
      (.done (Impl.dropConnection { s with writeInFlight := writeInFlight } (!op.kind.opensLink) c.now)) :=
    dropped hwrite
  rwa [hkind] at hdrop

theorem onTokenResponse (hkind : op.kind.opensLink = true ∧ op.kind ≠ .resolve) (resp : Json) :
    Handled s op c (s.onTokenResponse resp c) := by
  unfold Impl.onTokenResponse
  split
  · exact retryLater hkind.1
  · split
    · exact .threw (.refl s) rfl (.inr rfl) hkind
    · split
      · apply send
        · exact .auth s ..
        · rfl
        · exact hkind
        · exact .inr rfl
      · exact .threw (.auth s ..) rfl (.inr rfl) hkind

theorem onAuthResponse (hkind : op.kind.opensLink = true ∧ op.kind ≠ .resolve) (resp : Json) :
    Handled s op c (s.onAuthResponse resp c) := by
  unfold Impl.onAuthResponse
  split
  · exact .threw (.refl s) rfl (.inr rfl) hkind
  · exact start (by exact .auth s ..) rfl (.inl ⟨rfl, rfl⟩)
  · split
    · exact requestNewToken (.refl s) rfl hkind (.inr rfl)
    · exact retryLater hkind.1

theorem onSteadyMessage (hkind : op.kind.opensLink = false) (msg : Option Json) :
    Handled s op c (s.onSteadyMessage msg) := by
  obtain ⟨registered, registering, registerFailed, hreg, hframe⟩ := s.steadyMessage_frame msg
  unfold Impl.onSteadyMessage
  rw [hframe]
  have hkeeps : s.Keeps
      { s with registered := registered, registering := registering, registerFailed := registerFailed } :=
    ⟨rfl, rfl, rfl, rfl, rfl, rfl, rfl, rfl, rfl, hreg, id⟩
  dsimp only
  split
  · rename_i hready
    exact start hkeeps rfl (.inl ⟨rfl, hready.2⟩)
  · exact .kept hkeeps rfl rfl (.inr hkind)

end Handled

/-- **Handlers.** What the handler of a completed operation can do. -/
theorem handle_handled (s : Impl) (op : Op) (c : Completion) : Handled s op c (s.handle op c) := by
  obtain ⟨w, kind⟩ := op
  unfold Impl.handle
  split
  · rename_i hshut
    exact .kept (.refl s) rfl rfl (.inl hshut)
  · cases kind with
    | resolve =>
      dsimp only
      split
      · exact .start (by exact .auth s ..) rfl (.inr ⟨rfl, rfl, .inl rfl⟩)
      · exact .retryLater rfl
    | connect =>
      dsimp only
      split
      · exact .start (by exact .auth s ..) rfl (.inr ⟨rfl, rfl, .inl rfl⟩)
      · exact .retryLater rfl
    | handshake =>
      dsimp only
      split
      · unfold Impl.onHandshake
        split
        · rename_i hws
          exact .crash hws
        · exact .beginAuth (by exact .auth s ..) rfl ⟨rfl, OpKind.noConfusion⟩ rfl
      · exact .retryLater rfl
    | requestWrite request onResp payload =>
      dsimp only
      split
      · exact .start (.refl s) rfl (.inr ⟨rfl, rfl, .inr ⟨OpKind.noConfusion, rfl⟩⟩)
      · exact .retryLater rfl
    | responseRead request onResp =>
      dsimp only
      split
      · split
        · exact .retryLater rfl
        · exact .onTokenResponse ⟨rfl, OpKind.noConfusion⟩ _
        · exact .onAuthResponse ⟨rfl, OpKind.noConfusion⟩ _
      · exact .retryLater rfl
    | steadyRead =>
      dsimp only
      split
      · exact .onSteadyMessage rfl _
      · exact @Handled.fail s ⟨w, .steadyRead⟩ c rfl s.writeInFlight id
    | steadyWrite request payload =>
      dsimp only
      split
      · exact .kept ⟨rfl, rfl, rfl, rfl, rfl, rfl, rfl, rfl, rfl, id, nofun⟩ rfl rfl (.inr rfl)
      · exact .fail rfl nofun

/-- Without a stream the pump writes nothing, or it is at its end. -/
theorem Impl.startWriteIfNeeded_none {s : Impl} (hw : s.ws = none) :
    s.startWriteIfNeeded = .done s ∨ s.startWriteIfNeeded = .crash := by
  unfold Impl.startWriteIfNeeded
  split
  · exact .inl rfl
  · split
    · right
      simp [Impl.sendFireAndForget, Impl.start, hw]
    · split
      · right
        simp [Impl.sendFireAndForget, Impl.start, hw]
      · exact .inl rfl

theorem Impl.beginPump_due {s : Impl} {now : Int} (hw : s.wantConnection = true) (hd : s.state = .disconnected)
    (hr : s.needsRecycle = false) (hn : s.nextAttempt ≤ now) : s.beginPump now = .done s.startConnect := by
  rw [Impl.beginPump, Impl.connectIfDue_of_due hw hd hr hn]
  exact if_neg (show State.resolving ≠ .ready by decide)

/-- **The pump**, up to its poll: it starts an attempt, writes on a ready link, or does nothing. -/
theorem Impl.beginPump_cases (s : Impl) (now : Int) :
    (s.wantConnection = true ∧ s.state = .disconnected ∧ s.needsRecycle = false ∧ s.nextAttempt ≤ now ∧
      s.beginPump now = .done s.startConnect) ∨
    (s.state = .ready ∧ s.beginPump now = s.startWriteIfNeeded) ∨
    (s.state ≠ .ready ∧ s.beginPump now = .done s) := by
  by_cases hready : s.state = .ready
  · exact .inr (.inl ⟨hready, Impl.beginPump_ready hready⟩)
  · by_cases hdue : s.wantConnection ∧ s.state = .disconnected ∧ !s.needsRecycle ∧ now ≥ s.nextAttempt
    · obtain ⟨hwant, hd, hr, hnow⟩ := hdue
      simp only [Bool.not_eq_true'] at hr
      exact .inl ⟨hwant, hd, hr, hnow, Impl.beginPump_due hwant hd hr hnow⟩
    · unfold Impl.beginPump Impl.connectIfDue
      rw [if_neg hdue]
      exact .inr (.inr ⟨hready, if_neg hready⟩)

end Vts

end Bajiru.Linkjiru
