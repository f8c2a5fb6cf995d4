import Bajiru.Linkjiru.VtsHandlers

/-!
# A client after `disconnect`

`disconnect` resets the fields of the connection one by one, and it forgets `writeInFlight`: the handler of the write that
is cancelled would reset it, but it returns at once during a teardown. No write is started any more.

A client that was Disconnected cleanly opens its next link as a new one does (`Unwritten`), so that the first pump on the
ready link hands the same request. What is left over by a teardown can drop that link while it is opened. The condition is
exact: `disconnect_as_new_iff`.
-/

namespace Bajiru.Linkjiru

namespace Vts

/-- The pump hands the request to the stream. -/
def Impl.Hands (s : Impl) (now : Int) (r : Request) : Prop :=
  ∃ t w n, s.beginPump now = .done t ∧ t.ioc = s.ioc ++ [⟨w, .steadyWrite r n⟩] ∧ t.writePayload = some r.json

/-- The commands of the user that are pending. -/
structure Impl.SameCommands (s t : Impl) : Prop where
  registerRequested : s.registerRequested = t.registerRequested
  pendingValue : s.pendingValue = t.pendingValue
  valueDirty : s.valueDirty = t.valueDirty

/-- The request for the pending commands. -/
def Impl.pending (s : Impl) : Option Request :=
  if s.registerRequested then some .parameterCreation
  else if s.valueDirty then some (.injectParameterData s.pendingValue)
  else none

namespace Client

/-- The step is not a pump on a ready link. -/
def NotYetWriting (c : Client) : Event → Prop
  | .pump _ => c.impl.state ≠ .ready
  | _ => True

instance decidableNotYetWriting (c : Client) : ∀ e, Decidable (c.NotYetWriting e)
  | .pump _ => inferInstanceAs (Decidable (c.impl.state ≠ .ready))
  | .connect .. | .requestRegister | .setDetectValue _ | .complete .. | .pollEnd | .drainEnd | .disconnect
  | .teardownEnd => .isTrue trivial

/-- The client runs without a `disconnect`, and no pump runs on a ready link. -/
structure Opens (c : Client) (es : List Event) (d : Client) : Prop where
  run : execute next c es = some d
  calls : ∀ e ∈ es, e.isTeardown = false
  notYet : Along next NotYetWriting c es

/-- The client reaches Ready so. -/
structure ReachesReady (c : Client) (es : List Event) (d : Client) : Prop extends Opens c es d where
  idle : d.phase = .idle
  ready : d.impl.state = .ready

/-- `disconnect()`, with the completions of its poll. -/
def disconnectRun (cs : List (Nat × Completion)) : List Event :=
  .disconnect :: (cs.map (fun p => .complete p.1 p.2) ++ [.teardownEnd])

/-- The client is as good as a new one: its fields are, `needsRecycle` once a pump has run, and when it is Ready its first
pump hands the request that a new client would hand for the same commands. -/
structure AsNew (c : Client) : Prop where
  state : c.impl.state = .disconnected
  registering : c.impl.registering = false
  registered : c.impl.registered = false
  registerFailed : c.impl.registerFailed = false
  writeInFlight : c.impl.writeInFlight = false
  needsRecycle : ∀ es d, (∀ e ∈ es, e.isTeardown = false) → (∃ now, .pump now ∈ es) → execute next c es = some d →
    d.phase = .idle → d.threw = false → d.impl.needsRecycle = false
  writes : ∀ es d, c.ReachesReady es d → ∀ created es' f, (Client.new created).ReachesReady es' f →
    d.impl.SameCommands f.impl → ∀ now r, d.impl.Hands now r ↔ f.impl.Hands now r

end Client

variable {s t : Impl} {now : Int} {r : Request}

/-! ## The first request on a ready link -/

/-- The first pump on a ready link hands the pending request. -/
theorem hands_iff {w : Nat} (hready : s.state = .ready) (hws : s.ws = some w) (hwrite : s.writeInFlight = false)
    (hreg : s.registering = false) : s.Hands now r ↔ s.pending = some r := by
  have hstart : s.startWriteIfNeeded = match s.pending with
      | none => .done s
      | some .parameterCreation => Impl.sendFireAndForget
          { s with registerRequested := false, registering := true, registerFailed := false } .parameterCreation
      | some r => Impl.sendFireAndForget { s with valueDirty := false } r := by
    unfold Impl.startWriteIfNeeded Impl.pending
    rw [if_neg (by simp [hready, hwrite])]
    cases s.registerRequested <;> cases s.valueDirty <;> simp [hreg]
  unfold Impl.Hands
  rw [Impl.beginPump_ready hready, hstart]
  constructor
  · rintro ⟨t, v, n, heq, hioc, -⟩
    cases hp : s.pending with
    | none =>
      rw [hp] at heq
      cases heq
      simp at hioc
    | some r' =>
      have hsent : t.ioc = s.ioc ++ [⟨w, .steadyWrite r' (s.payloads + 1)⟩] := by
        rw [hp] at heq
        cases r' <;> simp only [Impl.sendFireAndForget, Impl.start, hws] at heq <;> cases heq <;> rfl
      rw [hsent] at hioc
      obtain ⟨-, hsame, -⟩ : w = v ∧ r' = r ∧ s.payloads + 1 = n := by simpa using List.append_cancel_left hioc
      rw [hsame]
  · intro hp
    rw [hp]
    cases r <;> simp only [Impl.sendFireAndForget, Impl.start, hws] <;> exact ⟨_, w, _, rfl, rfl, rfl⟩

theorem Impl.SameCommands.pending (h : s.SameCommands t) : s.pending = t.pending := by
  unfold Impl.pending
  rw [h.registerRequested, h.pendingValue, h.valueDirty]

/-! ## Opening a link -/

/-- Nothing was written on the link yet, which is opened by at most one operation. -/
structure Unwritten (c : Client) : Prop where
  phase : c.phase = .idle ∨ c.phase = .polling ∨ c.phase = .draining
  running : c.impl.shuttingDown = false
  write : c.impl.writeInFlight = false
  registering : c.impl.registering = false
  down : c.impl.state = .disconnected → c.impl.ioc = []
  up : c.impl.state ≠ .disconnected → c.impl.needsRecycle = false ∧ ∃ w, c.impl.ws = some w ∧
    (c.impl.ioc = [] ∨ ∃ kind, c.impl.ioc = [⟨w, kind⟩] ∧
      if c.impl.state = .ready then kind = .steadyRead else kind.opensLink = true)
  draining : c.phase = .draining → c.impl.state = .disconnected

/-- The operation that a handler starts on a link fits the state that it leaves. -/
theorem Leads.fits {kind next : OpKind} {s t : State} (h : Leads kind s next t) (hup : s ≠ .disconnected)
    (hkind : if s = .ready then kind = .steadyRead else kind.opensLink = true) :
    t ≠ .disconnected ∧ if t = .ready then next = .steadyRead else next.opensLink = true := by
  obtain ⟨rfl, rfl⟩ | ⟨hnext, hopens, hstate⟩ := h
  · exact ⟨nofun, by simp⟩
  · have hnot : s ≠ .ready := by
      rintro rfl
      rw [if_pos rfl] at hkind
      rw [hkind] at hopens
      cases hopens
    rcases hstate with hstate | ⟨-, rfl⟩
    · obtain ⟨hd, hready⟩ := State.opensLink_ne hstate
      exact ⟨hd, by rwa [if_neg hready]⟩
    · exact ⟨hup, by rwa [if_neg hnot]⟩

namespace Unwritten

variable {c d : Client}

theorem new (created : Int) : Unwritten (Client.new created) :=
  ⟨.inl rfl, rfl, rfl, rfl, fun _ => rfl, fun hup => absurd rfl hup, nofun⟩

/-- A completion keeps the invariant. -/
theorem complete {i : Nat} {o : Completion} (h : Unwritten c) (hnext : c.next (.complete i o) = some d) :
    Unwritten d := by
  obtain ⟨op, hop, hpoll, rfl⟩ := Client.next_complete hnext
  have hup : c.impl.state ≠ .disconnected := by
    intro hd
    rw [h.down hd] at hop
    cases hop
  obtain ⟨hr, w, hws, hioc⟩ := h.up hup
  obtain ⟨kind, hioc, hkind⟩ : ∃ kind, c.impl.ioc = [⟨w, kind⟩] ∧
      if c.impl.state = .ready then kind = .steadyRead else kind.opensLink = true := by
    rcases hioc with hioc | hioc
    · rw [hioc] at hop
      cases hop
    · exact hioc
  rw [hioc] at hop ⊢
  obtain ⟨rfl, hrest⟩ := erase_one hop
  rw [hrest]
  have hhandled := handle_handled { c.impl with ioc := [] } ⟨w, kind⟩ o
  generalize Impl.handle { c.impl with ioc := [] } ⟨w, kind⟩ o = ret at hhandled
  have hoff : ∀ u : Impl, Impl.Keeps { c.impl with ioc := [] } u → u.writeInFlight = false ∧ u.registering = false :=
    fun u keeps => ⟨keeps.writeInFlight_off h.write, keeps.registering_off h.registering⟩
  have hphase : c.phase ≠ .draining := fun hdrain => hup (h.draining hdrain)
  cases hhandled with
  | @kept u keeps ioc state _ =>
    obtain ⟨hwrite, hreg⟩ := hoff u keeps
    refine ⟨h.phase, keeps.shuttingDown.trans h.running, hwrite, hreg, fun _ => ioc, fun _ => ?_,
      fun hdrain => absurd hdrain hphase⟩
    exact ⟨keeps.needsRecycle.trans hr, w, keeps.ws.trans hws, .inl ioc⟩
  | @started u v kind' ws keeps ioc leads =>
    obtain ⟨hwrite, hreg⟩ := hoff u keeps
    obtain rfl : v = w := Option.some.inj (ws.symm.trans hws)
    have hled := leads.fits hup hkind
    refine ⟨h.phase, keeps.shuttingDown.trans h.running, hwrite, hreg, fun hd => absurd hd hled.1, fun _ => ?_,
      fun hdrain => absurd hdrain hphase⟩
    exact ⟨keeps.needsRecycle.trans hr, v, keeps.ws.trans hws, .inr ⟨kind', ioc, hled.2⟩⟩
  | dropped write =>
    unfold Impl.dropConnection
    rw [if_neg (by exact hup)]
    exact ⟨h.phase, h.running, rfl, rfl, fun _ => rfl, fun hup => absurd rfl hup, fun hdrain => absurd hdrain hphase⟩
  | @threw u keeps ioc state _ =>
    obtain ⟨hwrite, hreg⟩ := hoff u keeps
    exact ⟨.inl rfl, keeps.shuttingDown.trans h.running, hwrite, hreg, fun _ => ioc,
      fun _ => ⟨keeps.needsRecycle.trans hr, w, keeps.ws.trans hws, .inl ioc⟩, nofun⟩
  | crash ws => exact absurd (ws.symm.trans hws) nofun

/-- **Opening a link** writes nothing before a pump runs on the ready link. -/
theorem next {e : Event} (h : Unwritten c) (he : e.isTeardown = false) (hnot : c.NotYetWriting e)
    (hnext : c.next e = some d) : Unwritten d := by
  cases e with
  | complete i o => exact h.complete hnext
  | pump now =>
    obtain ⟨-, rfl⟩ := Client.next_pump hnext
    obtain ⟨-, hd, hr, -, heq⟩ | ⟨hready, -⟩ | ⟨-, heq⟩ := c.impl.beginPump_cases now
    · rw [heq]
      refine ⟨.inr (.inl rfl), h.running, h.write, h.registering, nofun, fun _ => ?_, nofun⟩
      refine ⟨hr, c.impl.attempts, rfl, .inr ⟨.resolve, ?_, rfl⟩⟩
      show c.impl.ioc ++ _ = _
      rw [h.down hd, List.nil_append]
    · exact absurd hready hnot
    · rw [heq]
      exact ⟨.inr (.inl rfl), h.running, h.write, h.registering, h.down, h.up, nofun⟩
  | disconnect => cases he
  | teardownEnd => cases he
  | pollEnd =>
    obtain ⟨-, rfl⟩ := Client.next_pollEnd hnext
    cases hr : c.impl.needsRecycle with
    | true =>
      rw [if_pos rfl]
      refine ⟨.inr (.inr rfl), h.running, h.write, h.registering, h.down, h.up, fun _ => ?_⟩
      by_contra hup
      exact absurd ((h.up hup).1.symm.trans hr) nofun
    | false =>
      rw [if_neg nofun]
      exact ⟨.inl rfl, h.running, h.write, h.registering, h.down, h.up, nofun⟩
  | drainEnd =>
    obtain ⟨hphase, rfl⟩ := Client.next_drainEnd hnext
    have hd := h.draining hphase
    exact ⟨.inl rfl, h.running, h.write, h.registering, h.down, fun hup => absurd hd hup, nofun⟩
  | _ =>
    simp only [Client.next] at hnext
    split at hnext <;> cases hnext
    exact ⟨h.phase, h.running, h.write, h.registering, h.down, h.up, h.draining⟩

theorem reachesReady {es : List Event} (h : Unwritten c) (hreach : c.ReachesReady es d) : Unwritten d := by
  obtain ⟨⟨hrun, hcalls, hnot⟩, -, -⟩ := hreach
  exact execute_inv_along (fun _ _ _ hs hG => hs.next hG.1 hG.2) h (along_and.2 ⟨along_of_forall hcalls, hnot⟩) hrun

/-- A client that becomes Ready so hands the pending request. -/
theorem hands {es : List Event} (h : Unwritten c) (hreach : c.ReachesReady es d) :
    d.impl.Hands now r ↔ d.impl.pending = some r := by
  have hd := h.reachesReady hreach
  obtain ⟨-, w, hws, -⟩ := hd.up (by rw [hreach.ready]; nofun)
  exact hands_iff hreach.ready hws hd.write hd.registering

end Unwritten

/-! ## `disconnect` -/

namespace Client

variable {c d : Client}

/-- What a teardown leaves. -/
structure TornDown (c d : Client) : Prop where
  phase : d.phase = .idle
  impl : d.impl =
    { c.impl with
      ioc := d.impl.ioc
      ws := none
      state := .disconnected
      wantConnection := false
      registering := false
      registered := false
      registerFailed := false
      shuttingDown := false }

theorem tornDown_of_tearing {cs : List (Nat × Completion)} (hphase : c.phase = .tearing)
    (hshut : c.impl.shuttingDown = true) (hwant : c.impl.wantConnection = false)
    (hrun : execute next c (cs.map (fun p => .complete p.1 p.2) ++ [.teardownEnd]) = some d) : TornDown c d := by
  induction cs generalizing c with
  | nil =>
    simp only [List.map_nil, List.nil_append, execute_cons, next, hphase, if_true, Option.bind_some, execute_nil] at hrun
    cases hrun
    refine ⟨rfl, ?_⟩
    rw [← hwant]
  | cons p cs ih =>
    obtain ⟨u, hu, hrun⟩ := execute_cons_some hrun
    obtain ⟨op, -, -, rfl⟩ := next_complete hu
    rw [handle_shuttingDown (by exact hshut)] at hrun
    obtain ⟨hidle, himpl⟩ := ih (by exact hphase) (by exact hshut) (by exact hwant) hrun
    exact ⟨hidle, himpl⟩

/-- **What `disconnect` leaves**: the write is not forgotten, nor are the operations that did not complete. -/
theorem tornDown_of_disconnect {cs : List (Nat × Completion)} (hrun : execute next c (disconnectRun cs) = some d) :
    TornDown c d := by
  obtain ⟨u, hu, hrun⟩ := execute_cons_some hrun
  obtain ⟨-, rfl⟩ := next_disconnect hu
  obtain ⟨hidle, himpl⟩ := tornDown_of_tearing rfl rfl rfl hrun
  exact ⟨hidle, himpl⟩

theorem TornDown.unwritten (h : TornDown c d) (hwrite : c.impl.writeInFlight = false) (hioc : d.impl.ioc = []) :
    Unwritten d := by
  obtain ⟨hidle, himpl⟩ := h
  rw [himpl] at hioc
  refine ⟨.inl hidle, ?_, ?_, ?_, ?_, ?_, ?_⟩
  · rw [himpl]
  · rw [himpl]
    exact hwrite
  · rw [himpl]
  · intro _
    rw [himpl]
    exact hioc
  · intro hup
    rw [himpl] at hup
    exact absurd rfl hup
  · intro hdrain
    rw [hidle] at hdrain
    cases hdrain

/-- After a pump that returns there is nothing to recycle. -/
def Recycled (c : Client) : Prop := c.phase = .idle → c.threw = false → c.impl.needsRecycle = false

theorem recycled_after {phase : Phase} {ret : Ret} (hphase : phase ≠ .idle) : Recycled (c.after phase ret) := by
  intro hidle hthrew
  cases ret with
  | done u => exact absurd hidle hphase
  | threw u => cases hthrew
  | crash => cases hidle

theorem recycled_next {e : Event} (h : c.Recycled) (he : e.isTeardown = false) (hnext : c.next e = some d) :
    d.Recycled := by
  cases e with
  | pump now =>
    obtain ⟨-, rfl⟩ := next_pump hnext
    exact recycled_after nofun
  | complete i o =>
    obtain ⟨op, -, hpoll, rfl⟩ := next_complete hnext
    apply recycled_after
    intro hidle
    rw [hidle] at hpoll
    cases hpoll
  | disconnect => cases he
  | teardownEnd => cases he
  | pollEnd =>
    obtain ⟨-, rfl⟩ := next_pollEnd hnext
    intro hidle _
    cases hr : c.impl.needsRecycle with
    | true =>
      rw [hr] at hidle
      cases hidle
    | false => rfl
  | drainEnd =>
    obtain ⟨-, rfl⟩ := next_drainEnd hnext
    exact fun _ _ => rfl
  | _ =>
    simp only [next] at hnext
    split at hnext <;> cases hnext
    exact h

theorem recycled_execute {es : List Event} (h : c.Recycled) (hcalls : ∀ e ∈ es, e.isTeardown = false)
    (hrun : execute next c es = some d) : d.Recycled :=
  execute_inv_along (fun _ _ _ => recycled_next) h (along_of_forall hcalls) hrun

theorem recycled_of_pump {es : List Event} (hcalls : ∀ e ∈ es, e.isTeardown = false) (hpump : ∃ now, .pump now ∈ es)
    (hrun : execute next c es = some d) : d.Recycled := by
  obtain ⟨now, hmem⟩ := hpump
  obtain ⟨es₁, es₂, rfl⟩ := List.append_of_mem hmem
  obtain ⟨u, -, hrun⟩ := execute_append_some hrun
  obtain ⟨v, hv, hrun⟩ := execute_cons_some hrun
  obtain ⟨-, rfl⟩ := next_pump hv
  have hafter : Recycled (u.after .polling (u.impl.beginPump now)) := recycled_after Phase.noConfusion
  have hcalls₂ : ∀ e ∈ es₂, e.isTeardown = false := fun e he => hcalls e (by simp [he])
  exact recycled_execute hafter hcalls₂ hrun

/-- A clean client is as good as a new one. -/
theorem TornDown.asNew (h : TornDown c d) (hwrite : c.impl.writeInFlight = false) (hioc : d.impl.ioc = []) :
    d.AsNew := by
  have hun := h.unwritten hwrite hioc
  refine ⟨?_, hun.registering, ?_, ?_, hun.write, ?_, ?_⟩
  · rw [h.impl]
  · rw [h.impl]
  · rw [h.impl]
  · intro es u hcalls hpump hrun
    exact recycled_of_pump hcalls hpump hrun
  · intro es u hreach created es' f hreach' hsame now r
    rw [hun.hands hreach, (Unwritten.new created).hands hreach', hsame.pending]

/-! ## A link that is dropped while it is opened -/

theorem Opens.snoc {es : List Event} {e : Event} {u : Client} (h : c.Opens es d) (hnext : d.next e = some u)
    (he : e.isTeardown = false) (hnot : d.NotYetWriting e) : c.Opens (es ++ [e]) u := by
  refine ⟨execute_snoc h.run hnext, ?_, along_trans h.notYet h.run ⟨hnot, fun _ _ => trivial⟩⟩
  intro e' he'
  rw [List.mem_append, List.mem_singleton] at he'
  rcases he' with he' | rfl
  · exact h.calls e' he'
  · exact he

/-- The link is being opened by an operation, beside others that are left over, and a value is to be written. -/
structure Opened (c : Client) (ops : List Op) (w : Nat) (kind : OpKind) (requested : Bool) : Prop where
  phase : c.phase = .polling
  running : c.impl.shuttingDown = false
  up : c.impl.state ≠ .disconnected
  ws : c.impl.ws = some w
  ioc : c.impl.ioc = ops ++ [⟨w, kind⟩]
  requested : c.impl.registerRequested = requested
  value : c.impl.pendingValue = 1
  dirty : c.impl.valueDirty = true

/-- The last operation completes. -/
theorem next_complete_last {ops : List Op} {op : Op} (hphase : c.phase = .polling) (hioc : c.impl.ioc = ops ++ [op])
    (o : Completion) : c.next (.complete ops.length o) =
      some (c.after .polling (Impl.handle { c.impl with ioc := ops } op o)) := by
  simp [next, hphase, Phase.inPoll, hioc, List.eraseIdx_append_of_length_le]

/-- The operation that opens the link succeeds, and its handler starts the next one. -/
theorem Opened.step {ops : List Op} {w : Nat} {kind kind' : OpKind} {requested : Bool} {t : Impl}
    (h : Opened c ops w kind requested)
    (hret : Impl.handle { c.impl with ioc := ops } ⟨w, kind⟩ (succeeds none) = .done t)
    (hkeeps : Impl.Keeps { c.impl with ioc := ops } t) (hioc : t.ioc = ops ++ [⟨w, kind'⟩])
    (hup : t.state ≠ .disconnected) :
    ∃ d, c.next (.complete ops.length (succeeds none)) = some d ∧ Opened d ops w kind' requested := by
  refine ⟨⟨t, .polling, false⟩, ?_, ⟨rfl, hkeeps.shuttingDown.trans h.running, hup, hkeeps.ws.trans h.ws, hioc,
    hkeeps.registerRequested.trans h.requested, hkeeps.pendingValue.trans h.value, hkeeps.valueDirty.trans h.dirty⟩⟩
  rw [next_complete_last h.phase h.ioc, hret]
  rfl

/-- The link is opened up to the reply to its authentication. -/
theorem Opened.reach_reply {ops : List Op} {w : Nat} {requested : Bool} (h : Opened c ops w .resolve requested) :
    ∃ es d r, c.Opens es d ∧ Opened d ops w (.responseRead r .onAuthResponse) requested := by
  obtain ⟨c₁, hnext₁, h₁⟩ : ∃ d, c.next (.complete ops.length (succeeds none)) = some d ∧
      Opened d ops w .connect requested := by
    apply h.step
    · rw [Impl.handle, if_neg (by simp [h.running])]
      exact Impl.start_eq (by exact h.ws) _
    · exact .auth { c.impl with ioc := ops } ..
    · rfl
    · intro hdown
      cases hdown
  obtain ⟨c₂, hnext₂, h₂⟩ : ∃ d, c₁.next (.complete ops.length (succeeds none)) = some d ∧
      Opened d ops w .handshake requested := by
    apply h₁.step
    · rw [Impl.handle, if_neg (by simp [h₁.running])]
      exact Impl.start_eq (by exact h₁.ws) _
    · exact .auth { c₁.impl with ioc := ops } ..
    · rfl
    · intro hdown
      cases hdown
  obtain ⟨c₃, hnext₃, h₃⟩ : ∃ d, c₂.next (.complete ops.length (succeeds none)) = some d ∧
      Opened d ops w (.requestWrite (.authentication "token" true) .onAuthResponse (c₂.impl.payloads + 1))
        requested := by
    apply h₂.step
    · rw [Impl.handle, if_neg (by simp [h₂.running])]
      refine (if_pos rfl).trans ((Impl.onHandshake_eq (by exact h₂.ws) _).trans ?_)
      exact Impl.start_eq (by exact h₂.ws) _
    · exact .auth { c₂.impl with ioc := ops } ..
    · rfl
    · intro hdown
      cases hdown
  obtain ⟨c₄, hnext₄, h₄⟩ : ∃ d, c₃.next (.complete ops.length (succeeds none)) = some d ∧
      Opened d ops w (.responseRead (.authentication "token" true) .onAuthResponse) requested := by
    apply h₃.step
    · rw [Impl.handle, if_neg (by simp [h₃.running])]
      exact Impl.start_eq (by exact h₃.ws) _
    · exact .auth { c₃.impl with ioc := ops } ..
    · rfl
    · exact h₃.up
  have hstart : c.Opens [] c := ⟨rfl, List.forall_mem_nil _, trivial⟩
  have hopens₂ := (hstart.snoc hnext₁ rfl trivial).snoc hnext₂ rfl trivial
  exact ⟨_, c₄, _, (hopens₂.snoc hnext₃ rfl trivial).snoc hnext₄ rfl trivial, h₄⟩

/-- The reply accepts the authentication. -/
def accepts : Completion := succeeds (message "AuthenticationResponse" (.obj [("authenticated", .bool true)]))

/-- Any operation that fails drops the connection. -/
theorem handle_fails {s : Impl} (hshut : s.shuttingDown = false) (op : Op) : ∃ writeInFlight, s.handle op fails =
    .done (Impl.dropConnection { s with writeInFlight := writeInFlight } (!op.kind.opensLink) 0) := by
  rw [Impl.handle, if_neg (by simp [hshut])]
  obtain ⟨v, kind⟩ := op
  cases kind with
  | steadyWrite request payload => exact ⟨false, rfl⟩
  | _ => exact ⟨s.writeInFlight, rfl⟩

/-- An operation that was left over fails before the reply is read: the link is dropped, becomes Ready, and loses its
stream. -/
theorem Opened.interrupted {stale : Op} {ops : List Op} {w : Nat} {r : Request} {requested : Bool}
    (h : Opened c (stale :: ops) w (.responseRead r .onAuthResponse) requested) :
    ∃ es d, c.Opens es d ∧ d.phase = .idle ∧ d.impl.state = .ready ∧ d.impl.ws = none ∧
      d.impl.registerRequested = requested ∧ d.impl.pendingValue = 1 ∧ d.impl.valueDirty = true := by
  have hpolls : c.phase.inPoll = true := by
    rw [h.phase]
    rfl
  -- the failure drops the link
  obtain ⟨c₁, hnext₁, hphase₁, hshut₁, hr₁, hws₁, hioc₁, hreq₁, hvalue₁, hdirty₁⟩ : ∃ d,
      c.next (.complete 0 fails) = some d ∧ d.phase = .polling ∧ d.impl.shuttingDown = false ∧
        d.impl.needsRecycle = true ∧ d.impl.ws = some w ∧
        d.impl.ioc = ops ++ [⟨w, .responseRead r .onAuthResponse⟩] ∧ d.impl.registerRequested = requested ∧
        d.impl.pendingValue = 1 ∧ d.impl.valueDirty = true := by
    obtain ⟨writeInFlight, hfails⟩ := handle_fails (s :=
      { c.impl with ioc := ops ++ [⟨w, .responseRead r .onAuthResponse⟩] }) h.running stale
    rw [Impl.dropConnection, if_neg (by exact h.up)] at hfails
    have hnext : c.next (.complete 0 fails) = some (c.after c.phase (Impl.handle
        { c.impl with ioc := ops ++ [⟨w, .responseRead r .onAuthResponse⟩] } stale fails)) := by
      rw [next, if_pos hpolls, h.ioc]
      rfl
    rw [hfails] at hnext
    exact ⟨_, hnext, h.phase, h.running, rfl, h.ws, rfl, h.requested, h.value, h.dirty⟩
  -- the reply makes it Ready
  obtain ⟨c₂, hnext₂, hphase₂, hr₂, hready₂, hreq₂, hvalue₂, hdirty₂⟩ : ∃ d,
      c₁.next (.complete ops.length accepts) = some d ∧ d.phase = .polling ∧ d.impl.needsRecycle = true ∧
        d.impl.state = .ready ∧ d.impl.registerRequested = requested ∧ d.impl.pendingValue = 1 ∧
        d.impl.valueDirty = true := by
    have hnext := next_complete_last hphase₁ hioc₁ accepts
    have hret : Impl.handle { c₁.impl with ioc := ops } ⟨w, .responseRead r .onAuthResponse⟩ accepts =
        Impl.startSteadyRead { c₁.impl with ioc := ops, state := .ready } := by
      rw [Impl.handle, if_neg (by simp [hshut₁])]
      rfl
    rw [hret, Impl.startSteadyRead, Impl.start_eq (by exact hws₁)] at hnext
    exact ⟨_, hnext, rfl, hr₁, rfl, hreq₁, hvalue₁, hdirty₁⟩
  -- the stream is recycled
  have hnext₃ : c₂.next .pollEnd = some { c₂ with phase := .draining } := by
    rw [next, if_pos hphase₂, hr₂]
    rfl
  have hnext₄ : next { c₂ with phase := .draining } .drainEnd =
      some { c₂ with impl := { c₂.impl with ws := none, needsRecycle := false }, phase := .idle } := rfl
  have hstart : c.Opens [] c := ⟨rfl, List.forall_mem_nil _, trivial⟩
  have hopens₂ := (hstart.snoc hnext₁ rfl trivial).snoc hnext₂ rfl trivial
  exact ⟨_, _, (hopens₂.snoc hnext₃ rfl trivial).snoc hnext₄ rfl trivial, rfl, hready₂, rfl, hreq₂, hvalue₂, hdirty₂⟩

/-- After `connect` the next pump opens a link. -/
theorem reach_opened (hidle : c.phase = .idle) (hdown : c.impl.state = .disconnected)
    (hrun : c.impl.shuttingDown = false) (hr : c.impl.needsRecycle = false) :
    ∃ es d w, c.Opens es d ∧ Opened d c.impl.ioc w .resolve c.impl.registerRequested := by
  have hnext₁ : c.next (.connect "" "" 0) = some { c with impl := c.impl.connect "" "" 0 } := by
    rw [next, if_pos hidle]
  have hnext₂ : next { c with impl := c.impl.connect "" "" 0 } (.setDetectValue 1) = some
      { c with impl := { c.impl.connect "" "" 0 with pendingValue := 1, valueDirty := true } } := by
    rw [next, if_pos (by exact hidle)]
  have hpump : Impl.beginPump { c.impl.connect "" "" 0 with pendingValue := 1, valueDirty := true } 0 =
      .done (Impl.startConnect { c.impl.connect "" "" 0 with pendingValue := 1, valueDirty := true }) :=
    Impl.beginPump_due rfl hdown hr (Int.le_refl 0)
  have hnext₃ : next { c with impl := { c.impl.connect "" "" 0 with pendingValue := 1, valueDirty := true } } (.pump 0) =
      some ⟨Impl.startConnect { c.impl.connect "" "" 0 with pendingValue := 1, valueDirty := true }, .polling, false⟩ := by
    rw [next, if_pos (by exact hidle)]
    dsimp only
    rw [hpump]
    rfl
  have hstart : c.Opens [] c := ⟨rfl, List.forall_mem_nil _, trivial⟩
  have hopens := (hstart.snoc hnext₁ rfl trivial).snoc hnext₂ rfl trivial
  have hnot : c.impl.state ≠ .ready := by
    rw [hdown]
    decide
  exact ⟨_, _, c.impl.attempts, hopens.snoc hnext₃ rfl hnot, rfl, hrun, show State.resolving ≠ .disconnected by decide,
    rfl, rfl, rfl, rfl, rfl⟩

theorem Opens.trans {es es' : List Event} {u : Client} (h : c.Opens es d) (h' : d.Opens es' u) :
    c.Opens (es ++ es') u := by
  refine ⟨execute_trans h.run h'.run, ?_, along_trans h.notYet h.run h'.notYet⟩
  intro e he
  exact (List.mem_append.1 he).elim (h.calls e) (h'.calls e)

/-- A pump recycles. -/
theorem reach_recycled (hidle : c.phase = .idle) (hdown : c.impl.state = .disconnected) :
    ∃ es d, c.Opens es d ∧ d.phase = .idle ∧ d.impl.state = .disconnected ∧ d.impl.needsRecycle = false ∧
      d.impl.ioc = c.impl.ioc ∧ d.impl.shuttingDown = c.impl.shuttingDown ∧
      d.impl.registerRequested = c.impl.registerRequested := by
  have hstart : c.Opens [] c := ⟨rfl, nofun, trivial⟩
  cases hr : c.impl.needsRecycle with
  | false => exact ⟨[], c, hstart, hidle, hdown, hr, rfl, rfl, rfl⟩
  | true =>
    have hnot : c.impl.state ≠ .ready := by
      rw [hdown]
      nofun
    have hpump : c.impl.beginPump 0 = .done c.impl := by
      obtain ⟨-, -, hr', -⟩ | ⟨hready, -⟩ | ⟨-, heq⟩ := c.impl.beginPump_cases 0
      · exact absurd (hr.symm.trans hr') nofun
      · exact absurd hready hnot
      · exact heq
    have hnext₁ : c.next (.pump 0) = some ⟨c.impl, .polling, false⟩ := by
      rw [next, if_pos hidle, hpump]
      rfl
    have hnext₂ : next ⟨c.impl, .polling, false⟩ .pollEnd = some ⟨c.impl, .draining, false⟩ := by
      rw [next, if_pos rfl]
      dsimp only
      rw [hr]
      rfl
    have hnext₃ : next ⟨c.impl, .draining, false⟩ .drainEnd =
        some ⟨{ c.impl with ws := none, needsRecycle := false }, .idle, false⟩ := rfl
    have hopens := (hstart.snoc hnext₁ rfl hnot).snoc hnext₂ rfl trivial
    exact ⟨_, _, hopens.snoc hnext₃ rfl trivial, rfl, hdown, rfl, rfl, rfl, rfl⟩

/-- With an operation left over the client can become Ready and lose its stream. -/
theorem reach_lost {stale : Op} {ops : List Op} (hidle : c.phase = .idle) (hdown : c.impl.state = .disconnected)
    (hrun : c.impl.shuttingDown = false) (hioc : c.impl.ioc = stale :: ops) :
    ∃ es d, c.ReachesReady es d ∧ d.impl.ws = none ∧ d.impl.registerRequested = c.impl.registerRequested ∧
      d.impl.pendingValue = 1 ∧ d.impl.valueDirty = true := by
  obtain ⟨es₁, c₁, h₁, hidle₁, hdown₁, hr₁, hioc₁, hrun₁, hreq₁⟩ := reach_recycled hidle hdown
  obtain ⟨es₂, c₂, w, h₂, hopened⟩ := reach_opened hidle₁ hdown₁ (hrun₁.trans hrun) hr₁
  rw [hioc₁, hioc, hreq₁] at hopened
  obtain ⟨es₃, c₃, r, h₃, hreply⟩ := hopened.reach_reply
  obtain ⟨es₄, c₄, h₄, hidle₄, hready₄, hws₄, hcommands⟩ := hreply.interrupted
  exact ⟨_, c₄, ⟨((h₁.trans h₂).trans h₃).trans h₄, hidle₄, hready₄⟩, hws₄, hcommands⟩

/-- A new client with the commands becomes Ready. -/
def newRun (requested : Bool) : List Event :=
  (if requested then [.requestRegister] else []) ++ .setDetectValue 1 :: linkUp

theorem reach_new (requested : Bool) : ∃ es f, (Client.new 0).ReachesReady es f ∧
    f.impl.registerRequested = requested ∧ f.impl.pendingValue = 1 ∧ f.impl.valueDirty = true := by
  obtain ⟨f, hf, heq⟩ := Option.map_eq_some_iff.1 (show
    (execute next (Client.new 0) (newRun requested)).map (fun f =>
      (f.phase, f.impl.state, f.impl.registerRequested, f.impl.pendingValue, f.impl.valueDirty)) =
      some (.idle, .ready, requested, 1, true) by cases requested <;> decide +kernel)
  simp only [Prod.mk.injEq] at heq
  obtain ⟨hidle, hready, hcommands⟩ := heq
  have hcalls : ∀ e ∈ newRun requested, e.isTeardown = false := by cases requested <;> decide
  have hnot : Along next NotYetWriting (Client.new 0) (newRun requested) := by cases requested <;> decide +kernel
  exact ⟨newRun requested, f, ⟨⟨hf, hcalls, hnot⟩, hidle, hready⟩, hcommands⟩

/-- Without a stream nothing is handed. -/
theorem not_hands {s : Impl} {now : Int} {r : Request} (hready : s.state = .ready) (hws : s.ws = none) :
    ¬ s.Hands now r := by
  rintro ⟨t, w, n, heq, hioc, -⟩
  rw [Impl.beginPump_ready hready] at heq
  obtain hdone | hcrash := Impl.startWriteIfNeeded_none hws
  · rw [hdone] at heq
    cases heq
    simp at hioc
  · rw [hcrash] at heq
    cases heq

end Client

open Client in
/-- **`disconnect` and `connect`**: the client is as good as a new one, if and only if no write was in flight when
`disconnect` was called, and every outstanding operation completed before it returned. -/
theorem disconnect_as_new_iff {c d : Client} {cs : List (Nat × Completion)}
    (hrun : execute next c (disconnectRun cs) = some d) :
    d.AsNew ↔ c.impl.writeInFlight = false ∧ d.impl.ioc = [] := by
  have htorn := tornDown_of_disconnect hrun
  constructor
  · intro hnew
    constructor
    · have hwrite := hnew.writeInFlight
      rw [htorn.impl] at hwrite
      exact hwrite
    · cases hioc : d.impl.ioc with
      | nil => rfl
      | cons stale ops =>
        have hshut : d.impl.shuttingDown = false := by rw [htorn.impl]
        obtain ⟨es, u, hreach, hws, hreq, hvalue, hdirty⟩ := reach_lost htorn.phase hnew.state hshut hioc
        obtain ⟨es', f, hreach', hreq', hvalue', hdirty'⟩ := reach_new d.impl.registerRequested
        have hsame : u.impl.SameCommands f.impl :=
          ⟨hreq.trans hreq'.symm, hvalue.trans hvalue'.symm, hdirty.trans hdirty'.symm⟩
        obtain ⟨r, hr⟩ : ∃ r, f.impl.pending = some r := by
          unfold Impl.pending
          rw [hdirty']
          split
          · exact ⟨_, rfl⟩
          · exact ⟨_, rfl⟩
        have hands := (hnew.writes es u hreach 0 es' f hreach' hsame 0 r).2 (((Unwritten.new 0).hands hreach').2 hr)
        exact absurd hands (not_hands hreach.ready hws)
  · rintro ⟨hwrite, hioc⟩
    exact htorn.asNew hwrite hioc

/-- A value is being written. -/
def writingRun : List Event := linkUp ++ [.setDetectValue 1, .pump 1, .pollEnd]

/-- The read and the write are cancelled. -/
def cancelled : List (Nat × Completion) := [(0, fails), (0, fails)]

theorem disconnect_writing : ¬ ∀ created es c cs d, execute Client.next (Client.new created) es = some c →
    execute Client.next c (Client.disconnectRun cs) = some d → d.AsNew := by
  intro hall
  obtain ⟨c, hc, -⟩ := Option.map_eq_some_iff.1 (show
    (execute Client.next (Client.new 0) writingRun).map (·.phase) = some .idle by decide +kernel)
  obtain ⟨d, hd, hwrite⟩ := Option.map_eq_some_iff.1 (show
    (execute Client.next (Client.new 0) (writingRun ++ Client.disconnectRun cancelled)).map (·.impl.writeInFlight) =
      some true by decide +kernel)
  have hnew := (hall 0 writingRun c cancelled d hc (execute_of_append hd hc)).writeInFlight
  rw [hwrite] at hnew
  cases hnew

theorem disconnect_as_new_linkUp : ∃ c d, execute Client.next (Client.new 0) linkUp = some c ∧
    execute Client.next c (Client.disconnectRun [(0, fails)]) = some d ∧ d.AsNew := by
  obtain ⟨c, hc, hwrite⟩ := Option.map_eq_some_iff.1 (show
    (execute Client.next (Client.new 0) linkUp).map (·.impl.writeInFlight) = some false by decide +kernel)
  obtain ⟨d, hd, hioc⟩ := Option.map_eq_some_iff.1 (show
    (execute Client.next (Client.new 0) (linkUp ++ Client.disconnectRun [(0, fails)])).map (·.impl.ioc) = some []
      by decide +kernel)
  have hend := execute_of_append hd hc
  exact ⟨c, d, hc, hend, (disconnect_as_new_iff hend).2 ⟨hwrite, hioc⟩⟩

end Vts

end Bajiru.Linkjiru
