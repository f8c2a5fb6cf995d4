import Bajiru.Linkjiru.VtsSession

/-!
# The protocol discipline of a session

The stream library takes one read and one write at a time, and a write needs its payload until it completes. The
invariant of a session (`Session.Inv`) adds to that of the client where the thread is in its calls; with it every state
that is reached keeps the discipline, and only the reply to an authentication of the current connection makes the client
Ready (`protocol_discipline`).
-/

namespace Bajiru.Linkjiru

namespace Vts

variable {s : Impl} {wasReady : Bool}

/-! ## The discipline of the stream -/

namespace Op

def isRead (op : Op) : Bool :=
  match op.kind with
  | .responseRead _ _ | .steadyRead => true
  | _ => false

def isWrite (op : Op) : Bool :=
  match op.kind with
  | .requestWrite _ _ _ | .steadyWrite _ _ => true
  | _ => false

/-- The assignment of `writePayload` that a write uses. -/
def payload? (op : Op) : Option Nat :=
  match op.kind with
  | .requestWrite _ _ n | .steadyWrite _ n => some n
  | _ => none

end Op

/-- One read and one write at a time, and an outstanding write uses the current payload. -/
structure Tidy (payloads : Nat) (ioc : List Op) : Prop where
  one_read : (ioc.filter Op.isRead).length ≤ 1
  one_write : (ioc.filter Op.isWrite).length ≤ 1
  payload : ∀ op ∈ ioc, ∀ n, op.payload? = some n → n = payloads

/-- The stream is used as its library asks; no operation was started on the stream of a dropped connection, and no
stream was asked for a token twice. -/
structure Discipline (s : Impl) : Prop where
  tidy : Tidy s.payloads s.ioc
  late : s.late = []
  popups : s.popups.Nodup

theorem tidy_nil {payloads : Nat} : Tidy payloads [] := ⟨Nat.zero_le _, Nat.zero_le _, nofun⟩

theorem tidy_one {payloads : Nat} {op : Op} (h : ∀ n, op.payload? = some n → n = payloads) : Tidy payloads [op] :=
  ⟨List.length_filter_le _ _, List.length_filter_le _ _, fun _ hop => List.mem_singleton.1 hop ▸ h⟩

theorem OpKind.Opens.payload {w n payloads : Nat} {kind : OpKind} {state : State} (h : kind.Opens payloads state)
    (hn : Op.payload? ⟨w, kind⟩ = some n) : n = payloads := by
  cases kind with
  | requestWrite r onResp m =>
    cases state with
    | authenticating => exact Option.some.inj hn ▸ h.2
    | _ => exact h.elim
  | steadyWrite r m => exact h.elim
  | _ => cases hn

theorem OpKind.Steady.payload {w n payloads : Nat} {kind : OpKind} (h : kind.Steady payloads)
    (hn : Op.payload? ⟨w, kind⟩ = some n) : n = payloads := by
  cases kind with
  | requestWrite r onResp m => exact h.elim
  | steadyWrite r m => exact Option.some.inj hn ▸ h
  | _ => cases hn

theorem ReadAndWrite.tidy {w payloads : Nat} {ioc : List Op} (h : ReadAndWrite w payloads ioc) : Tidy payloads ioc := by
  obtain ⟨r, rfl | rfl⟩ := h
  · refine ⟨Nat.le_refl 1, Nat.le_refl 1, ?_⟩
    simp [Op.payload?]
  · refine ⟨Nat.le_refl 1, Nat.le_refl 1, ?_⟩
    simp [Op.payload?]

theorem Outstanding.tidy {ws : Option Nat} {payloads : Nat} {writeInFlight : Bool} {ioc : List Op} {state : State}
    (h : Outstanding ws payloads writeInFlight wasReady ioc state) : Tidy payloads ioc := by
  by_cases hr : state = .ready
  · subst hr
    obtain ⟨-, w, -, h⟩ := h
    split at h
    · exact h.tidy
    · rw [h]
      exact tidy_one nofun
  · by_cases hd : state = .disconnected
    · subst hd
      cases wasReady with
      | false => exact h.2 ▸ tidy_nil
      | true =>
        obtain rfl | ⟨w, kind, hk, rfl⟩ : Leftover payloads ioc := h
        · exact tidy_nil
        · exact tidy_one fun n hn => hk.payload hn
    · obtain ⟨-, -, w, -, rfl | ⟨kind, hk, rfl⟩⟩ := (outstanding_opening hd hr).1 h
      · exact tidy_nil
      · exact tidy_one fun n hn => hk.payload hn

theorem Tidy.eraseIdx {payloads : Nat} {ioc : List Op} (h : Tidy payloads ioc) (i : Nat) :
    Tidy payloads (ioc.eraseIdx i) where
  one_read := (((List.eraseIdx_sublist _ _).filter _).length_le).trans h.one_read
  one_write := (((List.eraseIdx_sublist _ _).filter _).length_le).trans h.one_write
  payload op hop := h.payload op (List.mem_of_mem_eraseIdx hop)

theorem Live.discipline (h : Live s wasReady) : Discipline s := ⟨h.outstanding.tidy, h.late, h.popups.nodup⟩

/-! ## The invariant of a session -/

namespace Session

/-- The thread is in no call. -/
structure Waits (s : Session) : Prop where
  threw : s.client.threw = false
  phase : s.client.phase = .idle
  recycled : s.client.impl.needsRecycle = false
  live : Live s.client.impl s.wasReady

/-- The thread is in `pump`. -/
structure Pumps (s : Session) : Prop where
  threw : s.client.threw = false
  phase : s.client.phase = .polling ∨ s.client.phase = .draining ∧ s.client.impl.state = .disconnected
  live : Live s.client.impl s.wasReady

/-- The thread is in `disconnect`. -/
structure TearsDown (s : Session) : Prop where
  threw : s.client.threw = false
  phase : s.client.phase = .tearing
  shuttingDown : s.client.impl.shuttingDown = true
  discipline : Discipline s.client.impl

/-- The invariant of a session. -/
def Inv (s : Session) : Prop :=
  match s.pc with
  | .pumping | .lastPumping => s.Pumps
  | .tearing => s.TearsDown
  | .ended | .dead => Discipline s.client.impl
  | _ => s.Waits

variable {s t : Session}

theorem inv_new (created : Int) (host port : String) (now : Int) : (new created host port now).Inv :=
  ⟨rfl, rfl, rfl, ⟨rfl, ⟨rfl, rfl⟩, ⟨nofun, nofun⟩, ⟨nofun, List.Pairwise.nil, nofun⟩, rfl, ⟨fun _ => rfl, nofun⟩,
    nofun, nofun⟩⟩

theorem Inv.discipline (h : s.Inv) : Discipline s.client.impl := by
  unfold Inv at h
  split at h
  · exact h.live.discipline
  · exact h.live.discipline
  · exact h.discipline
  · exact h
  · exact h
  · exact h.live.discipline

/-- The thread goes on in a call. -/
theorem settle_busy {pc : Pc} {c : Client} (ht : c.threw = false) (hc : c.phase ≠ .crashed) (hi : c.phase ≠ .idle) :
    (s.settle pc c).pc = pc := by
  simp [settle, ht, hc, hi]

/-- A call returns. -/
theorem settle_idle {pc : Pc} {c : Client} (ht : c.threw = false) (hi : c.phase = .idle) :
    (s.settle pc c).pc = pc.returned := by
  simp [settle, ht, hi]

theorem settle_threw {pc : Pc} {c : Client} (ht : c.threw = true) : (s.settle pc c).pc = .dead := by
  simp [settle, ht]

theorem Waits.inv (h : s.Waits) (hpc : s.pc.waits = true) : s.Inv := by
  unfold Inv
  split <;> simp_all [Pc.waits]

theorem Pumps.inv (h : s.Pumps) (hpc : s.pc = .pumping ∨ s.pc = .lastPumping) : s.Inv := by
  unfold Inv
  rcases hpc with hpc | hpc <;> rw [hpc] <;> exact h

theorem TearsDown.inv (h : s.TearsDown) (hpc : s.pc = .tearing) : s.Inv := by
  unfold Inv
  rw [hpc]
  exact h

/-- Where the thread makes a call, and where it is in it. -/
def Calls (s : Session) (pc : Pc) : Event → Prop
  | .pump _ => s.Waits ∧ (pc = .pumping ∨ pc = .lastPumping)
  | .complete _ _ => (s.Pumps ∧ (pc = .pumping ∨ pc = .lastPumping)) ∨ (s.TearsDown ∧ pc = .tearing)
  | .pollEnd | .drainEnd => s.Pumps ∧ (pc = .pumping ∨ pc = .lastPumping)
  | .requestRegister => s.Waits ∧ pc = .requested
  | .setDetectValue _ => s.Waits ∧ (pc = .loop ∨ pc = .lastPump)
  | .disconnect => s.Waits ∧ pc = .tearing
  | .teardownEnd => s.TearsDown ∧ pc = .tearing
  | .connect _ _ _ => False

/-- The calls are made where the thread makes them. -/
theorem Inv.calls {pc : Pc} {e : Event} (h : s.Inv) (hcall : s.pc.call e = some pc) : s.Calls pc e := by
  unfold Inv at h
  cases e <;> cases hpc : s.pc <;> simp_all [Pc.call, Calls]

theorem Inv.of_pump {pc : Pc} {now : Int} (h : s.Inv) (hcall : s.pc.call (.pump now) = some pc) :
    s.Waits ∧ (pc = .pumping ∨ pc = .lastPumping) :=
  h.calls hcall

theorem Inv.of_complete {pc : Pc} {i : Nat} {o : Completion} (h : s.Inv)
    (hcall : s.pc.call (.complete i o) = some pc) :
    (s.Pumps ∧ (pc = .pumping ∨ pc = .lastPumping)) ∨ (s.TearsDown ∧ pc = .tearing) :=
  h.calls hcall

/-- `pump` or a handler inside it has run. -/
theorem inv_after {pc : Pc} {phase : Phase} {ret : Ret} (hpc : pc = .pumping ∨ pc = .lastPumping)
    (hphase : phase = .polling ∨ phase = .draining)
    (h : ret.Safe fun u => Live u (s.wasReady || u.state = .ready) ∧ (phase = .draining → u.state = .disconnected)) :
    (s.settle pc (s.client.after phase ret)).Inv := by
  cases ret with
  | done u =>
    have hbusy : (s.settle pc (s.client.after phase (.done u))).pc = pc := by
      apply settle_busy rfl <;> rcases hphase with rfl | rfl <;> exact nofun
    apply Pumps.inv
    · exact ⟨rfl, hphase.imp id fun hdrain => ⟨hdrain, h.2 hdrain⟩, h.1⟩
    · rwa [hbusy]
  | threw u =>
    have hdead : (s.settle pc (s.client.after phase (.threw u))).pc = .dead := settle_threw rfl
    unfold Inv
    rw [hdead]
    exact h.1.discipline
  | crash => exact h.elim

/-- A call that returns at once, or at its end, has been made. -/
theorem inv_returned {pc : Pc} {c : Client} (ht : c.threw = false) (hi : c.phase = .idle)
    (hr : c.impl.needsRecycle = false) (hl : Live c.impl s.wasReady) (hpc : pc.returned.waits = true) :
    (s.settle pc c).Inv := by
  apply Waits.inv
  · exact ⟨ht, hi, hr, hl.settled⟩
  · rwa [settle_idle ht hi]

theorem inv_pump {pc : Pc} {c : Client} {now : Int} (h : s.Inv) (hcall : s.pc.call (.pump now) = some pc)
    (hc : s.client.next (.pump now) = some c) : (s.settle pc c).Inv := by
  obtain ⟨hwaits, hpc⟩ := h.of_pump hcall
  obtain ⟨-, rfl⟩ := Client.next_pump hc
  apply inv_after hpc (.inl rfl)
  exact (hwaits.live.beginPump now).mono fun u hu => ⟨hu.1, nofun⟩

theorem inv_complete {pc : Pc} {c : Client} {i : Nat} {o : Completion} (h : s.Inv)
    (hcall : s.pc.call (.complete i o) = some pc) (hc : s.client.next (.complete i o) = some c) :
    (s.settle pc c).Inv := by
  obtain ⟨op, hop, -, rfl⟩ := Client.next_complete hc
  obtain ⟨hpumps, hpc⟩ | ⟨htears, rfl⟩ := h.of_complete hcall
  · apply inv_after hpc (hpumps.phase.imp id And.left)
    refine (hpumps.live.complete hop o).mono fun u hu => ⟨hu.live, fun hdrain => ?_⟩
    obtain hpoll | ⟨-, hdown⟩ := hpumps.phase
    · rw [hpoll] at hdrain
      cases hdrain
    · exact (hu.down hdown).1
  · rw [handle_shuttingDown (by exact htears.shuttingDown), htears.phase]
    apply TearsDown.inv
    · exact ⟨rfl, rfl, htears.shuttingDown, htears.discipline.tidy.eraseIdx i, htears.discipline.late,
        htears.discipline.popups⟩
    · exact settle_busy rfl nofun nofun

theorem inv_pollEnd {pc : Pc} {c : Client} (h : s.Inv) (hcall : s.pc.call .pollEnd = some pc)
    (hc : s.client.next .pollEnd = some c) : (s.settle pc c).Inv := by
  obtain ⟨hpumps, hpc⟩ : s.Pumps ∧ (pc = .pumping ∨ pc = .lastPumping) := h.calls hcall
  obtain ⟨-, rfl⟩ := Client.next_pollEnd hc
  cases hrec : s.client.impl.needsRecycle with
  | true =>
    rw [if_pos rfl]
    have hbusy : (s.settle pc { s.client with phase := .draining }).pc = pc := by
      apply settle_busy
      · exact hpumps.threw
      · nofun
      · nofun
    apply Pumps.inv
    · exact ⟨hpumps.threw, .inr ⟨rfl, hpumps.live.recycled hrec⟩, hpumps.live.settled⟩
    · rwa [hbusy]
  | false =>
    rw [if_neg nofun]
    apply inv_returned
    · exact hpumps.threw
    · rfl
    · exact hrec
    · exact hpumps.live
    · rcases hpc with rfl | rfl <;> rfl

theorem inv_drainEnd {pc : Pc} {c : Client} (h : s.Inv) (hcall : s.pc.call .drainEnd = some pc)
    (hc : s.client.next .drainEnd = some c) : (s.settle pc c).Inv := by
  obtain ⟨hpumps, hpc⟩ : s.Pumps ∧ (pc = .pumping ∨ pc = .lastPumping) := h.calls hcall
  obtain ⟨hdrain, rfl⟩ := Client.next_drainEnd hc
  have hdown : s.client.impl.state = .disconnected := by
    obtain hpoll | ⟨-, hdown⟩ := hpumps.phase
    · rw [hpoll] at hdrain
      cases hdrain
    · exact hdown
  apply inv_returned
  · exact hpumps.threw
  · rfl
  · rfl
  · exact hpumps.live.drained hdown
  · rcases hpc with rfl | rfl <;> rfl

theorem inv_requestRegister {pc : Pc} {c : Client} (h : s.Inv) (hcall : s.pc.call .requestRegister = some pc)
    (hc : s.client.next .requestRegister = some c) : (s.settle pc c).Inv := by
  obtain ⟨⟨hthrew, hphase, hrec, hlive⟩, rfl⟩ : s.Waits ∧ pc = .requested := h.calls hcall
  obtain ⟨-, rfl⟩ := Client.next_requestRegister hc
  apply inv_returned
  · exact hthrew
  · exact hphase
  · exact hrec
  · exact hlive.asked false true _ _
  · rfl

theorem inv_setDetectValue {pc : Pc} {c : Client} {value : ℚ} (h : s.Inv)
    (hcall : s.pc.call (.setDetectValue value) = some pc) (hc : s.client.next (.setDetectValue value) = some c) :
    (s.settle pc c).Inv := by
  obtain ⟨⟨hthrew, hphase, hrec, hlive⟩, hpc⟩ : s.Waits ∧ (pc = .loop ∨ pc = .lastPump) := h.calls hcall
  obtain ⟨-, rfl⟩ := Client.next_setDetectValue hc
  apply inv_returned
  · exact hthrew
  · exact hphase
  · exact hrec
  · exact hlive.asked _ _ true value
  · rcases hpc with rfl | rfl <;> rfl

theorem inv_disconnect {pc : Pc} {c : Client} (h : s.Inv) (hcall : s.pc.call .disconnect = some pc)
    (hc : s.client.next .disconnect = some c) : (s.settle pc c).Inv := by
  obtain ⟨hwaits, rfl⟩ : s.Waits ∧ pc = .tearing := h.calls hcall
  obtain ⟨-, rfl⟩ := Client.next_disconnect hc
  obtain ⟨tidy, late, popups⟩ := hwaits.live.discipline
  apply TearsDown.inv
  · exact ⟨hwaits.threw, rfl, rfl, ⟨tidy, late, popups⟩⟩
  · apply settle_busy
    · exact hwaits.threw
    · nofun
    · nofun

theorem inv_teardownEnd {pc : Pc} {c : Client} (h : s.Inv) (hcall : s.pc.call .teardownEnd = some pc)
    (hc : s.client.next .teardownEnd = some c) : (s.settle pc c).Inv := by
  obtain ⟨htears, rfl⟩ : s.TearsDown ∧ pc = .tearing := h.calls hcall
  simp only [Client.next, htears.phase, if_true] at hc
  obtain ⟨tidy, late, popups⟩ := htears.discipline
  have hended : (s.settle .tearing c).pc = .ended := by
    apply settle_idle <;> cases hc
    · exact htears.threw
    · rfl
  unfold Inv
  rw [hended]
  cases hc
  exact ⟨tidy, late, popups⟩

/-- **The invariant of a session.** -/
theorem inv_next {e : SessionEvent} (h : s.Inv) (hnext : s.next e = some t) : t.Inv := by
  cases e with
  | call e =>
    obtain ⟨pc, hcall, hnext⟩ := Option.bind_eq_some_iff.1 hnext
    obtain ⟨c, hc, rfl⟩ := Option.map_eq_some_iff.1 hnext
    cases e with
    | pump now => exact inv_pump h hcall hc
    | complete i o => exact inv_complete h hcall hc
    | pollEnd => exact inv_pollEnd h hcall hc
    | drainEnd => exact inv_drainEnd h hcall hc
    | requestRegister => exact inv_requestRegister h hcall hc
    | setDetectValue value => exact inv_setDetectValue h hcall hc
    | disconnect => exact inv_disconnect h hcall hc
    | teardownEnd => exact inv_teardownEnd h hcall hc
    | connect host port now => exact (h.calls hcall).elim
  | sleep =>
    simp only [next] at hnext
    split at hnext
    · rename_i hpc
      cases hnext
      unfold Inv at h
      have hwaits : s.Waits := by rcases hpc with hpc | hpc <;> rw [hpc] at h <;> exact h
      obtain ⟨threw, phase, recycled, live⟩ := hwaits
      exact ⟨threw, phase, recycled, live⟩
    · cases hnext
  | exit =>
    simp only [next] at hnext
    split at hnext
    · rename_i hpc
      cases hnext
      unfold Inv at h
      rw [hpc] at h
      obtain ⟨threw, phase, recycled, live⟩ := h
      exact ⟨threw, phase, recycled, live⟩
    · cases hnext

theorem inv_execute {created now : Int} {host port : String} {es : List SessionEvent}
    (h : execute next (new created host port now) es = some s) : s.Inv :=
  execute_inv (fun _ _ _ => inv_next) (inv_new created host port now) h

/-- The state that a handler leaves is the state of the client. -/
theorem after_safe {P : Impl → Prop} {phase : Phase} {ret : Ret} {c : Client} (h : ret.Safe P) :
    P (c.after phase ret).impl := by
  cases ret with
  | done u => exact h
  | threw u => exact h
  | crash => exact h.elim

/-- A step that makes the client Ready is the completion of an accepted authentication. -/
theorem ready_next {e : SessionEvent} (h : s.Inv) (hnext : s.next e = some t) (hs : s.client.impl.state ≠ .ready)
    (ht : t.client.impl.state = .ready) : ∃ i o op, e = .call (.complete i o) ∧ s.client.impl.ioc[i]? = some op ∧
      Accepted s.client.impl op o ∧ Peer.JustReady t.client.impl := by
  cases e with
  | call e =>
    obtain ⟨pc, hcall, hnext⟩ := Option.bind_eq_some_iff.1 hnext
    obtain ⟨c, hc, rfl⟩ := Option.map_eq_some_iff.1 hnext
    change c.impl.state = .ready at ht
    cases e with
    | pump now =>
      obtain ⟨-, rfl⟩ := Client.next_pump hc
      exact absurd ((after_safe ((h.of_pump hcall).1.live.beginPump now)).2 ht) hs
    | complete i o =>
      obtain ⟨op, hop, -, rfl⟩ := Client.next_complete hc
      obtain ⟨hpumps, -⟩ | ⟨htears, -⟩ := h.of_complete hcall
      · obtain ⟨haccepted, hready⟩ := (after_safe (hpumps.live.complete hop o)).accepted hs ht
        exact ⟨i, o, op, rfl, hop, haccepted, hready⟩
      · rw [handle_shuttingDown (by exact htears.shuttingDown)] at ht
        exact absurd ht hs
    | teardownEnd =>
      simp only [Client.next] at hc
      split at hc <;> cases hc
      cases ht
    | _ =>
      simp only [Client.next] at hc
      split at hc <;> cases hc
      exact absurd ht hs
  | sleep =>
    simp only [next] at hnext
    split at hnext <;> cases hnext
    exact absurd ht hs
  | exit =>
    simp only [next] at hnext
    split at hnext <;> cases hnext
    exact absurd ht hs

end Session

/-- **The protocol discipline of a session**: in every state that is reached the stream is used as its library asks, and
the client becomes Ready only by a reply that accepts the authentication of the current connection. -/
theorem protocol_discipline {created now : Int} {host port : String} {es : List SessionEvent} {s : Session}
    (h : execute Session.next (Session.new created host port now) es = some s) :
    Discipline s.client.impl ∧
      ∀ e t, s.next e = some t → s.client.impl.state ≠ .ready → t.client.impl.state = .ready →
        ∃ i o op, e = .call (.complete i o) ∧ s.client.impl.ioc[i]? = some op ∧ Accepted s.client.impl op o := by
  have hinv := Session.inv_execute h
  refine ⟨hinv.discipline, fun e t hnext hs ht => ?_⟩
  obtain ⟨i, o, op, he, hop, haccepted, -⟩ := Session.ready_next hinv hnext hs ht
  exact ⟨i, o, op, he, hop, haccepted⟩

/-- The calls of `pump` in a session up to the reply to the authentication with the stored token. -/
def openingRun : List SessionEvent := .call (.pump 0) :: List.replicate 4 (.call (.complete 0 (succeeds none)))

/-- The reply that accepts the authentication. -/
def acceptance : SessionEvent :=
  .call (.complete 0 (succeeds (message "AuthenticationResponse" (.obj [("authenticated", .bool true)]))))

theorem protocol_discipline_accepted : ∃ s t, execute Session.next (Session.new 0 "localhost" "8001" 0) openingRun =
    some s ∧ s.next acceptance = some t ∧ t.client.impl.state = .ready ∧ Discipline s.client.impl ∧
      ∃ i o op, acceptance = .call (.complete i o) ∧ s.client.impl.ioc[i]? = some op ∧ Accepted s.client.impl op o := by
  obtain ⟨s, hs, hstate⟩ := Option.map_eq_some_iff.1 (show
    (execute Session.next (Session.new 0 "localhost" "8001" 0) openingRun).map (·.client.impl.state) =
      some .authenticating by decide +kernel)
  obtain ⟨t, ht, hready⟩ := Option.map_eq_some_iff.1 (show
    (execute Session.next (Session.new 0 "localhost" "8001" 0) (openingRun ++ [acceptance])).map
      (·.client.impl.state) = some .ready by decide +kernel)
  have hnext : s.next acceptance = some t := execute_of_snoc ht hs
  have hdiscipline := protocol_discipline hs
  exact ⟨s, t, hs, hnext, hready, hdiscipline.1, hdiscipline.2 acceptance t hnext (by rw [hstate]; nofun) hready⟩

end Vts

end Bajiru.Linkjiru
