import Bajiru.Linkjiru.VtsHandlers

/-!
# The retry policy of the client

The client under any `connect`s and `pump`s (and requests), when the drain loop of `pump` completes what is outstanding.
A new link is opened only from a client that has no stream and no operation (`Policy`), after the backoff that began with
the drop of the last one; a drop from Ready gives up until `connect` (`retry_policy`).
-/

namespace Bajiru.Linkjiru

namespace Vts

namespace Event

def isConnect : Event → Bool
  | connect _ _ _ => true
  | _ => false

/-- The clock that is read in the event. -/
def clock : Event → Option Int
  | connect _ _ now | pump now => some now
  | complete _ c => some c.now
  | _ => none

end Event

variable {s t : Impl} {wasReady : Bool} {now : Int}

/-! ## The client and its invariant -/

/-- A client that is Disconnected can be asked to connect. -/
theorem Live.connect (h : Live s wasReady) (host port : String)
    (hrest : s.state = .disconnected → s.ioc = [] ∧ s.writeInFlight = false) :
    ∃ wasReady', Live (s.connect host port now) wasReady' := by
  obtain ⟨running, outstanding, current, popups, late, wants, recycled, registering⟩ := h
  by_cases hd : s.state = .disconnected
  · obtain ⟨hioc, hwrite⟩ := hrest hd
    refine ⟨false, running, ?_, current, popups, late, ⟨fun _ => rfl, nofun⟩, recycled, registering⟩
    show Outstanding s.ws s.payloads s.writeInFlight false s.ioc s.state
    rw [hd]
    exact ⟨hwrite, hioc⟩
  · exact ⟨wasReady, running, outstanding, current, popups, late, ⟨fun _ => rfl, fun _ hd' => absurd hd' hd⟩, recycled,
      registering⟩

theorem Live.completion {c d : Client} {i : Nat} {o : Completion} (h : Live c.impl wasReady)
    (hnext : c.next (.complete i o) = some d) : ∃ op, Completed c.impl op o wasReady d.impl := by
  obtain ⟨op, hop, -, rfl⟩ := Client.next_complete hnext
  exact ⟨op, Session.after_safe (h.complete hop o)⟩

/-- The operations of a dropped link are steady ones. -/
theorem Live.steady (h : Live s wasReady) (hd : s.state = .disconnected) {op : Op} (hop : op ∈ s.ioc) :
    op.kind.opensLink = false := by
  have hout := h.outstanding
  rw [hd] at hout
  cases wasReady with
  | false =>
    rw [hout.2] at hop
    cases hop
  | true =>
    obtain hioc | ⟨w, kind, hk, hioc⟩ : Leftover s.payloads s.ioc := hout
    · rw [hioc] at hop
      cases hop
    · rw [hioc, List.mem_singleton] at hop
      subst hop
      cases kind <;> first | rfl | exact hk.elim

/-- The invariant of a client that is not torn down. -/
structure Policy (c : Client) : Prop where
  phase : c.phase = .idle ∨ c.phase = .polling ∨ c.phase = .draining
  live : ∃ wasReady, Live c.impl wasReady
  own : ∀ op ∈ c.impl.ioc, c.impl.ws = some op.stream
  newest : ∀ w, c.impl.ws = some w → w + 1 = c.impl.attempts
  write : c.impl.state = .disconnected → c.impl.writeInFlight = false
  rest : c.impl.state = .disconnected → c.impl.needsRecycle = false → c.impl.ioc = [] ∧ c.impl.ws = none
  recycled : c.phase = .idle → c.impl.needsRecycle = false
  draining : c.phase = .draining → c.impl.state = .disconnected

namespace Client

/-- `cancel` and the drain loop of `pump` complete every operation. -/
def Drains (c : Client) : Event → Prop
  | .drainEnd => c.impl.ioc = []
  | _ => True

instance decidableDrains (c : Client) : ∀ e, Decidable (c.Drains e)
  | .drainEnd => inferInstanceAs (Decidable (c.impl.ioc = []))
  | .connect .. | .requestRegister | .setDetectValue _ | .pump _ | .complete .. | .pollEnd | .disconnect
  | .teardownEnd => .isTrue trivial

/-- A connection attempt starts. -/
def Starts (c d : Client) : Prop := d.impl.attempts = c.impl.attempts + 1

/-- In the run `es` the completion drops the connection. -/
def DropsIn (c : Client) (es : List Event) (o : Completion) : Prop :=
  ∃ es₁ i es₂ u v, es = es₁ ++ .complete i o :: es₂ ∧ execute next c es₁ = some u ∧
    u.next (.complete i o) = some v ∧ u.impl.state ≠ .disconnected ∧ v.impl.state = .disconnected

end Client

/-- What a completion does to the fields of the connection policy. -/
structure Followed (s t : Impl) (op : Op) (o : Completion) : Prop where
  attempts : t.attempts = s.attempts
  ws : t.ws = s.ws
  nextAttempt : t.nextAttempt = s.nextAttempt ∨ t.nextAttempt = o.now + reconnectBackoffMs
  dropped : s.state ≠ .disconnected → t.state = .disconnected → t.nextAttempt = o.now + reconnectBackoffMs
  recycle : t.needsRecycle = false → s.needsRecycle = false
  own : ∀ op' ∈ t.ioc, op' ∈ s.ioc ∨ s.ws = some op'.stream
  write : t.state = .disconnected → s.state = .disconnected ∧ (t.writeInFlight = true → s.writeInFlight = true) ∨
    t.writeInFlight = false ∧ t.needsRecycle = true

theorem Followed.of_keeps {op : Op} {o : Completion} (h : s.Keeps t) (hioc : ∀ op' ∈ t.ioc, op' ∈ s.ioc ∨
    s.ws = some op'.stream) (hstate : t.state = .disconnected → s.state = .disconnected) : Followed s t op o where
  attempts := h.attempts
  ws := h.ws
  nextAttempt := .inl h.nextAttempt
  dropped hup hd := absurd (hstate hd) hup
  recycle hr := h.needsRecycle ▸ hr
  own := hioc
  write hd := .inl ⟨hstate hd, h.writeInFlight⟩

theorem Followed.of_drop {op : Op} {o : Completion} {writeInFlight : Bool}
    (hwrite : writeInFlight = true → s.writeInFlight = true) (afterReady : Bool) :
    Followed s (Impl.dropConnection { s with writeInFlight := writeInFlight } afterReady o.now) op o := by
  unfold Impl.dropConnection
  split
  · rename_i hd
    exact ⟨rfl, rfl, .inl rfl, fun hup => absurd hd hup, id, fun _ hop => .inl hop, fun _ => .inl ⟨hd, hwrite⟩⟩
  · exact ⟨rfl, rfl, .inr rfl, fun _ _ => rfl, nofun, fun _ hop => .inl hop, fun _ => .inr ⟨rfl, rfl⟩⟩

/-- The handlers follow the policy, unless the stream is gone. -/
theorem handle_followed (s : Impl) (op : Op) (o : Completion) (hws : s.ws ≠ none) :
    (s.handle op o).Safe (Followed s · op o) := by
  have hhandled := handle_handled s op o
  generalize s.handle op o = ret at hhandled
  cases hhandled with
  | kept keeps ioc state kind => exact .of_keeps keeps (fun op' hop => .inl (ioc ▸ hop)) fun hd => state ▸ hd
  | @started t w kind ws keeps ioc leads =>
    refine .of_keeps keeps ?_ ?_
    · intro op' hop
      rw [ioc, List.mem_append, List.mem_singleton] at hop
      rcases hop with hop | rfl
      · exact .inl hop
      · exact .inr ws
    · intro hd
      rw [hd] at leads
      obtain ⟨-, hready⟩ | ⟨-, -, hopens | ⟨-, hsame⟩⟩ := leads
      · cases hready
      · cases hopens
      · exact hsame.symm
  | dropped write => exact .of_drop write _
  | @threw t keeps ioc state kind =>
    refine .of_keeps keeps (fun op' hop => .inl (ioc ▸ hop)) fun hd => ?_
    rcases state with hopens | hsame
    · rw [hd] at hopens
      cases hopens
    · exact hsame ▸ hd
  | crash ws => exact absurd ws hws

/-! ## The steps of the client -/

namespace Policy

variable {c d : Client}

theorem new (created : Int) : Policy (Client.new created) where
  phase := .inl rfl
  live := ⟨true, rfl, .inl rfl, ⟨nofun, fun hup => absurd rfl hup⟩, ⟨nofun, List.Pairwise.nil, nofun⟩, rfl,
    ⟨nofun, fun _ _ => rfl⟩, nofun, nofun⟩
  own := nofun
  newest := nofun
  write _ := rfl
  rest _ _ := ⟨rfl, rfl⟩
  recycled _ := rfl
  draining := nofun

/-- A client with an outstanding operation is not at rest. -/
theorem busy {op : Op} (h : Policy c) (hop : op ∈ c.impl.ioc) (hd : c.impl.state = .disconnected) :
    c.impl.needsRecycle = true := by
  cases hr : c.impl.needsRecycle with
  | true => rfl
  | false =>
    rw [(h.rest hd hr).1] at hop
    cases hop

/-- What a handler that follows the policy leaves. -/
theorem followed {u : Impl} {op : Op} {o : Completion} {i : Nat} (h : Policy c) (hop : op ∈ c.impl.ioc)
    (hf : Followed { c.impl with ioc := c.impl.ioc.eraseIdx i } u op o) :
    (∀ op ∈ u.ioc, u.ws = some op.stream) ∧ (∀ w, u.ws = some w → w + 1 = u.attempts) ∧
      (u.state = .disconnected → u.writeInFlight = false) ∧ (u.state = .disconnected → u.needsRecycle = true) := by
  refine ⟨?_, ?_, ?_, ?_⟩
  · intro op' hop'
    rw [hf.ws]
    rcases hf.own op' hop' with hold | hnew
    · exact h.own op' (List.mem_of_mem_eraseIdx hold)
    · exact hnew
  · intro w hw
    rw [hf.attempts]
    exact h.newest w (hf.ws ▸ hw)
  · intro hd
    rcases hf.write hd with ⟨hd', hmono⟩ | ⟨hoff, -⟩
    · exact Bool.eq_false_iff.2 fun hwrite => Bool.eq_false_iff.1 (h.write hd') (hmono hwrite)
    · exact hoff
  · intro hd
    rcases hf.write hd with ⟨hd', -⟩ | ⟨-, hr⟩
    · cases hr : u.needsRecycle with
      | true => rfl
      | false => exact (hf.recycle hr).symm.trans (h.busy hop hd')
    · exact hr

theorem complete {i : Nat} {o : Completion} (h : Policy c) (hnext : c.next (.complete i o) = some d) : Policy d := by
  obtain ⟨op, hop, hpoll, rfl⟩ := Client.next_complete hnext
  obtain ⟨wasReady, hlive⟩ := h.live
  have hmem := List.mem_of_getElem? hop
  have hws : c.impl.ws ≠ none := by rw [h.own op hmem]; nofun
  have hsafe := hlive.complete hop o
  have hfollowed := handle_followed { c.impl with ioc := c.impl.ioc.eraseIdx i } op o hws
  have hhandled := handle_handled { c.impl with ioc := c.impl.ioc.eraseIdx i } op o
  generalize Impl.handle { c.impl with ioc := c.impl.ioc.eraseIdx i } op o = ret at hsafe hfollowed hhandled
  have hrest : ∀ u : Impl, (u.state = .disconnected → u.needsRecycle = true) →
      u.state = .disconnected → u.needsRecycle = false → u.ioc = [] ∧ u.ws = none := by
    intro u hu hd hr
    rw [hu hd] at hr
    cases hr
  cases ret with
  | done u =>
    obtain ⟨own, newest, write, recycle⟩ := h.followed hmem hfollowed
    refine ⟨h.phase, ⟨_, hsafe.live⟩, own, newest, write, hrest u recycle, ?_, ?_⟩
    · intro hidle
      rw [show c.phase = .idle from hidle] at hpoll
      cases hpoll
    · intro hdrain
      exact (hsafe.down (h.draining hdrain)).1
  | threw u =>
    obtain ⟨own, newest, write, recycle⟩ := h.followed hmem hfollowed
    refine ⟨.inl rfl, ⟨_, hsafe.live⟩, own, newest, write, hrest u recycle, fun _ => ?_, nofun⟩
    -- an operation that opens the link is outstanding on a link that was not dropped
    cases hhandled with
    | threw keeps ioc state kind =>
      cases hr : c.impl.needsRecycle with
      | false => exact keeps.needsRecycle.trans hr
      | true =>
        have hsteady := hlive.steady (hlive.recycled hr) hmem
        rw [kind.1] at hsteady
        cases hsteady
  | crash => exact hsafe.elim

/-- A pump on a ready link writes on its stream at most. -/
theorem of_ready {u : Impl} {op? : List Op} (h : Policy c) (hws : u.ws = c.impl.ws)
    (hattempts : u.attempts = c.impl.attempts) (hready : u.state = .ready) (hioc : u.ioc = c.impl.ioc ++ op?)
    (hop : ∀ op ∈ op?, c.impl.ws = some op.stream) (hlive : ∃ wasReady, Live u wasReady) :
    Policy ⟨u, .polling, false⟩ := by
  refine ⟨.inr (.inl rfl), hlive, ?_, ?_, ?_, ?_, nofun, nofun⟩
  · intro op hmem
    dsimp only at hmem ⊢
    rw [hioc, List.mem_append] at hmem
    rw [hws]
    exact hmem.elim (h.own op) (hop op)
  · intro w hw
    dsimp only at hw ⊢
    rw [hattempts]
    exact h.newest w (hws ▸ hw)
  · intro hd
    exact absurd (hready.symm.trans hd) nofun
  · intro hd
    exact absurd (hready.symm.trans hd) nofun

theorem pump (h : Policy c) (hnext : c.next (.pump now) = some d) : Policy d := by
  obtain ⟨hidle, rfl⟩ := Client.next_pump hnext
  obtain ⟨wasReady, hlive⟩ := h.live
  have hsafe := hlive.beginPump now
  obtain ⟨-, hd, hr, -, heq⟩ | ⟨hready, heq⟩ | ⟨hready, heq⟩ := c.impl.beginPump_cases now <;> rw [heq] at hsafe ⊢
  · refine ⟨.inr (.inl rfl), ⟨_, hsafe.1⟩, ?_, ?_, nofun, nofun, nofun, nofun⟩
    · intro op hop
      change op ∈ c.impl.ioc ++ [⟨c.impl.attempts, .resolve⟩] at hop
      rw [(h.rest hd hr).1, List.nil_append, List.mem_singleton] at hop
      subst hop
      rfl
    · rintro w ⟨⟩
      rfl
  · obtain ⟨w, hw, -⟩ := hlive.current.ws (by rw [hready]; nofun)
    have hnew : ∀ kind, ∀ op ∈ [(⟨w, kind⟩ : Op)], c.impl.ws = some op.stream := by
      intro kind op hop
      rw [List.mem_singleton.1 hop]
      exact hw
    obtain heq | ⟨-, -, -, heq⟩ | ⟨-, -, -, heq⟩ := Impl.startWriteIfNeeded_cases hw <;> rw [heq] at hsafe ⊢
    · exact h.of_ready rfl rfl hready (List.append_nil _).symm nofun ⟨_, hsafe.1⟩
    · exact h.of_ready rfl rfl hready rfl (hnew _) ⟨_, hsafe.1⟩
    · exact h.of_ready rfl rfl hready rfl (hnew _) ⟨_, hsafe.1⟩
  · exact ⟨.inr (.inl rfl), h.live, h.own, h.newest, h.write, h.rest, nofun, nofun⟩

/-- **The policy** is kept by every step outside a teardown. -/
theorem next {e : Event} (h : Policy c) (he : e.isTeardown = false) (hdrains : c.Drains e)
    (hnext : c.next e = some d) : Policy d := by
  cases e with
  | pump now => exact h.pump hnext
  | complete i o => exact h.complete hnext
  | disconnect => cases he
  | teardownEnd => cases he
  | connect host port now =>
    obtain ⟨hidle, rfl⟩ := Client.next_connect hnext
    obtain ⟨wasReady, hlive⟩ := h.live
    exact ⟨h.phase, hlive.connect host port fun hd => ⟨(h.rest hd (h.recycled hidle)).1, h.write hd⟩, h.own, h.newest,
      h.write, h.rest, h.recycled, h.draining⟩
  | requestRegister =>
    obtain ⟨-, rfl⟩ := Client.next_requestRegister hnext
    obtain ⟨wasReady, hlive⟩ := h.live
    exact ⟨h.phase, ⟨wasReady, hlive.asked false true _ _⟩, h.own, h.newest, h.write, h.rest, h.recycled, h.draining⟩
  | setDetectValue value =>
    obtain ⟨-, rfl⟩ := Client.next_setDetectValue hnext
    obtain ⟨wasReady, hlive⟩ := h.live
    exact ⟨h.phase, ⟨wasReady, hlive.asked _ _ true value⟩, h.own, h.newest, h.write, h.rest, h.recycled, h.draining⟩
  | pollEnd =>
    obtain ⟨-, rfl⟩ := Client.next_pollEnd hnext
    obtain ⟨wasReady, hlive⟩ := h.live
    cases hr : c.impl.needsRecycle with
    | true =>
      rw [if_pos rfl]
      exact ⟨.inr (.inr rfl), ⟨wasReady, hlive⟩, h.own, h.newest, h.write, h.rest, nofun, fun _ => hlive.recycled hr⟩
    | false =>
      rw [if_neg nofun]
      exact ⟨.inl rfl, ⟨wasReady, hlive⟩, h.own, h.newest, h.write, h.rest, fun _ => hr, nofun⟩
  | drainEnd =>
    obtain ⟨hphase, rfl⟩ := Client.next_drainEnd hnext
    have hd := h.draining hphase
    obtain ⟨wasReady, hlive⟩ := h.live
    refine ⟨.inl rfl, ⟨wasReady, hlive.drained hd⟩, ?_, nofun, h.write, fun _ _ => ⟨hdrains, rfl⟩, fun _ => rfl, nofun⟩
    intro op hop
    rw [show c.impl.ioc = [] from hdrains] at hop
    cases hop

theorem execute {c d : Client} {es : List Event} (h : Policy c) (hcalls : ∀ e ∈ es, e.isTeardown = false)
    (hdrains : Along Client.next Client.Drains c es) (hrun : execute Client.next c es = some d) : Policy d :=
  execute_inv_along (fun _ _ _ hs hG => hs.next hG.1 hG.2) h (along_and.2 ⟨along_of_forall hcalls, hdrains⟩) hrun

/-- A pump starts an attempt, if it is due, or it leaves the connection policy as it is. -/
theorem pump_cases (h : Policy c) (hnext : c.next (.pump now) = some d) :
    (c.impl.wantConnection = true ∧ c.impl.state = .disconnected ∧ c.impl.needsRecycle = false ∧
      c.impl.nextAttempt ≤ now ∧ d.impl = c.impl.startConnect) ∨
    (d.impl.attempts = c.impl.attempts ∧ d.impl.state = c.impl.state ∧ d.impl.nextAttempt = c.impl.nextAttempt) := by
  obtain ⟨-, rfl⟩ := Client.next_pump hnext
  obtain ⟨wasReady, hlive⟩ := h.live
  obtain ⟨hwant, hd, hr, hnow, heq⟩ | ⟨hready, heq⟩ | ⟨-, heq⟩ := c.impl.beginPump_cases now <;> rw [heq]
  · exact .inl ⟨hwant, hd, hr, hnow, rfl⟩
  · obtain ⟨w, hw, -⟩ := hlive.current.ws (by rw [hready]; nofun)
    obtain heq | ⟨-, -, -, heq⟩ | ⟨-, -, -, heq⟩ := Impl.startWriteIfNeeded_cases hw <;> rw [heq]
    · exact .inr ⟨rfl, rfl, rfl⟩
    · exact .inr ⟨rfl, rfl, rfl⟩
    · exact .inr ⟨rfl, rfl, rfl⟩
  · exact .inr ⟨rfl, rfl, rfl⟩

theorem completion {i : Nat} {o : Completion} (h : Policy c) (hnext : c.next (.complete i o) = some d) :
    ∃ op, Followed { c.impl with ioc := c.impl.ioc.eraseIdx i } d.impl op o := by
  obtain ⟨op, hop, -, rfl⟩ := Client.next_complete hnext
  have hws : c.impl.ws ≠ none := by rw [h.own op (List.mem_of_getElem? hop)]; nofun
  exact ⟨op, Session.after_safe (handle_followed { c.impl with ioc := c.impl.ioc.eraseIdx i } op o hws)⟩

/-- The other calls, and the ends of the polls, leave the attempts, the state and the backoff as they are. -/
theorem quiet {e : Event} (he : e.isTeardown = false) (hconnect : e.isConnect = false) (hpump : ∀ now, e ≠ .pump now)
    (hcomplete : ∀ i o, e ≠ .complete i o) (hnext : c.next e = some d) :
    d.impl.attempts = c.impl.attempts ∧ d.impl.state = c.impl.state ∧ d.impl.nextAttempt = c.impl.nextAttempt := by
  cases e with
  | pump now => exact absurd rfl (hpump now)
  | complete i o => exact absurd rfl (hcomplete i o)
  | connect host port now => cases hconnect
  | disconnect => cases he
  | teardownEnd => cases he
  | _ =>
    simp only [Client.next] at hnext
    split at hnext <;> cases hnext
    exact ⟨rfl, rfl, rfl⟩

/-- An attempt starts in a pump that is due, on a client at rest. -/
theorem starts {e : Event} (h : Policy c) (he : e.isTeardown = false) (hnext : c.next e = some d)
    (hstarts : c.Starts d) : ∃ now, e = .pump now ∧ c.impl.state = .disconnected ∧ c.impl.needsRecycle = false ∧
      c.impl.nextAttempt ≤ now ∧ d.impl.state = .resolving := by
  have hsame : d.impl.attempts ≠ c.impl.attempts := by
    rw [hstarts]
    exact Nat.succ_ne_self _
  cases e with
  | pump now =>
    obtain ⟨-, hd, hr, hnow, heq⟩ | ⟨hkept, -⟩ := h.pump_cases hnext
    · exact ⟨now, rfl, hd, hr, hnow, by rw [heq]; rfl⟩
    · exact absurd hkept hsame
  | complete i o =>
    obtain ⟨op, hfollowed⟩ := h.completion hnext
    exact absurd hfollowed.attempts hsame
  | connect host port now =>
    obtain ⟨-, rfl⟩ := Client.next_connect hnext
    exact absurd rfl hsame
  | _ => exact absurd (quiet he rfl nofun nofun hnext).1 hsame

/-- Only a completion drops the connection. -/
theorem drop_completes {e : Event} (h : Policy c) (he : e.isTeardown = false) (hnext : c.next e = some d)
    (hup : c.impl.state ≠ .disconnected) (hd : d.impl.state = .disconnected) : ∃ i o, e = .complete i o := by
  cases e with
  | complete i o => exact ⟨i, o, rfl⟩
  | pump now =>
    obtain ⟨-, hd', -⟩ | ⟨-, hkept, -⟩ := h.pump_cases hnext
    · exact absurd hd' hup
    · exact absurd (hkept.symm.trans hd) hup
  | connect host port now =>
    obtain ⟨-, rfl⟩ := Client.next_connect hnext
    exact absurd hd hup
  | _ => exact absurd ((quiet he rfl nofun nofun hnext).2.1.symm.trans hd) hup

/-- Without `connect` the next attempt is put off at most. -/
theorem nextAttempt_next {e : Event} {τ : Int} (h : Policy c) (he : e.isTeardown = false)
    (hconnect : e.isConnect = false) (hnext : c.next e = some d) (hclock : ∀ now, e.clock = some now → τ ≤ now)
    (hτ : τ + reconnectBackoffMs ≤ c.impl.nextAttempt) : τ + reconnectBackoffMs ≤ d.impl.nextAttempt := by
  cases e with
  | connect host port now => cases hconnect
  | pump now =>
    obtain ⟨-, -, -, -, heq⟩ | ⟨-, -, hkept⟩ := h.pump_cases hnext
    · rw [heq]
      exact hτ
    · rw [hkept]
      exact hτ
  | complete i o =>
    obtain ⟨op, hfollowed⟩ := h.completion hnext
    have hτo : τ ≤ o.now := hclock o.now rfl
    obtain hsame | hlater := hfollowed.nextAttempt
    · rw [hsame]
      exact hτ
    · rw [hlater]
      omega
  | _ =>
    rw [(quiet he rfl nofun nofun hnext).2.2]
    exact hτ

/-- A run that ends Disconnected has dropped the connection. -/
theorem exists_drop {es : List Event} (h : Policy c) (hcalls : ∀ e ∈ es, e.isTeardown = false)
    (hdrains : Along Client.next Client.Drains c es) (hrun : Bajiru.execute Client.next c es = some d)
    (hup : c.impl.state ≠ .disconnected) (hd : d.impl.state = .disconnected) : ∃ o, c.DropsIn es o := by
  induction es generalizing c with
  | nil =>
    cases hrun
    exact absurd hd hup
  | cons e es ih =>
    obtain ⟨u, hu, hrun⟩ := execute_cons_some hrun
    have he := hcalls e (by simp)
    by_cases hu' : u.impl.state = .disconnected
    · obtain ⟨i, o, rfl⟩ := h.drop_completes he hu hup hu'
      exact ⟨o, [], i, es, c, u, rfl, rfl, hu, hup, hu'⟩
    · obtain ⟨o, es₁, i, es₂, v, w, rfl, hv, hw⟩ := ih (h.next he hdrains.1 hu)
        (fun e he => hcalls e (by simp [he])) (hdrains.2 u hu) hrun hu'
      exact ⟨o, e :: es₁, i, es₂, v, w, rfl, by rw [execute_cons, hu, Option.bind_some, hv], hw⟩

theorem nextAttempt_execute {es : List Event} {τ : Int} (h : Policy c) (hcalls : ∀ e ∈ es, e.isTeardown = false)
    (hconnect : ∀ e ∈ es, e.isConnect = false) (hdrains : Along Client.next Client.Drains c es)
    (hrun : Bajiru.execute Client.next c es = some d) (hclock : ∀ now ∈ es.filterMap Event.clock, τ ≤ now)
    (hτ : τ + reconnectBackoffMs ≤ c.impl.nextAttempt) : τ + reconnectBackoffMs ≤ d.impl.nextAttempt := by
  induction es generalizing c with
  | nil =>
    cases hrun
    exact hτ
  | cons e es ih =>
    obtain ⟨u, hu, hrun⟩ := execute_cons_some hrun
    have he := hcalls e (by simp)
    have hread : ∀ now, e.clock = some now → τ ≤ now := by
      intro now hnow
      apply hclock
      simp [hnow]
    apply ih (h.next he hdrains.1 hu)
    · exact fun e he => hcalls e (by simp [he])
    · exact fun e he => hconnect e (by simp [he])
    · exact hdrains.2 u hu
    · exact hrun
    · intro now hnow
      apply hclock
      rw [List.filterMap_cons]
      split
      · exact hnow
      · exact List.mem_cons_of_mem _ hnow
    · exact h.nextAttempt_next he (hconnect e (by simp)) hu hread hτ

/-- After a drop the next attempt is put off by the backoff. -/
theorem backoff {es : List Event} {o : Completion} (h : Policy c) (hcalls : ∀ e ∈ es, e.isTeardown = false)
    (hconnect : ∀ e ∈ es, e.isConnect = false) (hdrains : Along Client.next Client.Drains c es)
    (hrun : Bajiru.execute Client.next c es = some d) (hclock : (es.filterMap Event.clock).Pairwise (· ≤ ·))
    (hdrop : c.DropsIn es o) : o.now + reconnectBackoffMs ≤ d.impl.nextAttempt := by
  obtain ⟨es₁, i, es₂, u, v, rfl, hu, hv, hup, hd⟩ := hdrop
  have hrest := execute_of_cons (execute_of_append hrun hu) hv
  have hdrainsu := along_of_append hdrains hu
  have hpu := h.execute (fun e he => hcalls e (by simp [he])) (along_append_left hdrains) hu
  have hpv := hpu.next rfl hdrainsu.1 hv
  obtain ⟨op, hfollowed⟩ := hpu.completion hv
  have hcalls₂ : ∀ e ∈ es₂, e.isTeardown = false := fun e he => hcalls e (by simp [he])
  have hconnect₂ : ∀ e ∈ es₂, e.isConnect = false := fun e he => hconnect e (by simp [he])
  -- the clock of the drop is read before those of the rest
  rw [List.filterMap_append, List.filterMap_cons_some (show (Event.complete i o).clock = some o.now from rfl)] at hclock
  have hlater := (List.pairwise_cons.1 (List.pairwise_append.1 hclock).2.1).1
  exact hpv.nextAttempt_execute hcalls₂ hconnect₂ (hdrainsu.2 v hv) hrest hlater
    (Int.le_of_eq (hfollowed.dropped hup hd).symm)

/-- A client that was dropped from Ready starts no attempt before the next `connect`. -/
theorem givenUp_next {e : Event} (hlive : Live c.impl true) (hd : c.impl.state = .disconnected)
    (he : e.isTeardown = false) (hconnect : e.isConnect = false) (hnext : c.next e = some d) :
    Live d.impl true ∧ d.impl.state = .disconnected ∧ d.impl.attempts = c.impl.attempts := by
  cases e with
  | connect host port now => cases hconnect
  | pump now =>
    obtain ⟨-, rfl⟩ := Client.next_pump hnext
    have hsafe := hlive.beginPump now
    obtain ⟨hwant, -⟩ | ⟨hready, -⟩ | ⟨-, heq⟩ := c.impl.beginPump_cases now
    · rw [hlive.wants.given_up rfl hd] at hwant
      cases hwant
    · exact absurd (hready.symm.trans hd) nofun
    · rw [heq] at hsafe ⊢
      exact ⟨hsafe.1, hd, rfl⟩
  | complete i o =>
    obtain ⟨op, hcompleted⟩ := hlive.completion hnext
    exact ⟨hcompleted.live, hcompleted.down hd⟩
  | disconnect => cases he
  | teardownEnd => cases he
  | drainEnd =>
    obtain ⟨-, rfl⟩ := Client.next_drainEnd hnext
    exact ⟨hlive.drained hd, hd, rfl⟩
  | requestRegister =>
    obtain ⟨-, rfl⟩ := Client.next_requestRegister hnext
    exact ⟨hlive.asked false true _ _, hd, rfl⟩
  | setDetectValue value =>
    obtain ⟨-, rfl⟩ := Client.next_setDetectValue hnext
    exact ⟨hlive.asked _ _ true value, hd, rfl⟩
  | pollEnd =>
    obtain ⟨-, rfl⟩ := Client.next_pollEnd hnext
    exact ⟨hlive, hd, rfl⟩

theorem givenUp_execute {es : List Event} (h : Policy c) (hlive : Live c.impl true)
    (hd : c.impl.state = .disconnected) (hcalls : ∀ e ∈ es, e.isTeardown = false)
    (hconnect : ∀ e ∈ es, e.isConnect = false) (hdrains : Along Client.next Client.Drains c es)
    (hrun : Bajiru.execute Client.next c es = some d) : d.impl.attempts = c.impl.attempts := by
  induction es generalizing c with
  | nil =>
    cases hrun
    rfl
  | cons e es ih =>
    obtain ⟨u, hu, hrun⟩ := execute_cons_some hrun
    have he := hcalls e (by simp)
    obtain ⟨hlive', hd', hsame⟩ := givenUp_next hlive hd he (hconnect e (by simp)) hu
    exact (ih (h.next he hdrains.1 hu) hlive' hd' (fun e he => hcalls e (by simp [he]))
      (fun e he => hconnect e (by simp [he])) (hdrains.2 u hu) hrun).trans hsame

end Policy

/-- **The retry policy**, for every run of `connect`s, `pump`s and requests whose clock does not go back and in which the
drain loop completes what is outstanding. Between two attempts without a `connect` the connection is dropped, and the
second starts after the backoff of each drop. At most one attempt is alive, and it starts when nothing is left of the
last one. A failure before Ready keeps the link wanted. After a drop from Ready no attempt starts until `connect`. -/
theorem retry_policy {created : Int} {es : List Event} {c : Client}
    (h : execute Client.next (Client.new created) es = some c) (hcalls : ∀ e ∈ es, e.isTeardown = false)
    (hdrains : Along Client.next Client.Drains (Client.new created) es)
    (hclock : (es.filterMap Event.clock).Pairwise (· ≤ ·)) :
    (∀ now d, c.next (.pump now) = some d → c.Starts d → ∀ es₁ e es₂ u v, es = es₁ ++ e :: es₂ →
      execute Client.next (Client.new created) es₁ = some u → u.next e = some v → u.Starts v →
        (∀ e ∈ es₂, e.isConnect = false) → (∃ o, v.DropsIn es₂ o) ∧
          ∀ o, v.DropsIn es₂ o → o.now + reconnectBackoffMs ≤ now) ∧
    (∀ op ∈ c.impl.ioc, c.impl.ws = some op.stream ∧ op.stream + 1 = c.impl.attempts) ∧
    (∀ e d, e.isTeardown = false → c.next e = some d → c.Starts d →
      c.impl.state = .disconnected ∧ c.impl.needsRecycle = false ∧ c.impl.ioc = [] ∧ c.impl.ws = none) ∧
    (∀ e d, e.isTeardown = false → c.next e = some d → c.impl.state ≠ .disconnected → c.impl.state ≠ .ready →
      d.impl.state = .disconnected → d.impl.wantConnection = true) ∧
    ∀ e d, e.isTeardown = false → c.Drains e → c.next e = some d → c.impl.state = .ready →
      d.impl.state = .disconnected → ∀ es' f, execute Client.next d es' = some f →
        (∀ e ∈ es', e.isTeardown = false) → (∀ e ∈ es', e.isConnect = false) →
          Along Client.next Client.Drains d es' → f.impl.attempts = d.impl.attempts := by
  have hpolicy := (Policy.new created).execute hcalls hdrains h
  refine ⟨?_, ?_, ?_, ?_, ?_⟩
  · intro now d hnext hstarts es₁ e es₂ u v hes hu hv hstarts' hconnect
    subst hes
    have hcalls₂ : ∀ e ∈ es₂, e.isTeardown = false := fun e he => hcalls e (by simp [he])
    have hcallse : e.isTeardown = false := hcalls e (by simp)
    have hdrainse := along_of_append hdrains hu
    have hrest := execute_of_cons (execute_of_append h hu) hv
    have hpu := (Policy.new created).execute (fun e he => hcalls e (by simp [he])) (along_append_left hdrains) hu
    have hpv := hpu.next hcallse hdrainse.1 hv
    have hdrains₂ := hdrainse.2 v hv
    obtain ⟨_, -, -, -, -, hresolving⟩ := hpu.starts hcallse hv hstarts'
    obtain ⟨_, ⟨⟩, hd, -, hdue, -⟩ := hpolicy.starts rfl hnext hstarts
    refine ⟨hpv.exists_drop hcalls₂ hdrains₂ hrest (by rw [hresolving]; nofun) hd, ?_⟩
    intro o hdrop
    have hsub : List.Sublist (es₂.filterMap Event.clock) ((es₁ ++ e :: es₂).filterMap Event.clock) :=
      ((List.sublist_cons_self e es₂).trans (List.sublist_append_right es₁ _)).filterMap _
    have hlater := hpv.backoff hcalls₂ hconnect hdrains₂ hrest (List.Pairwise.sublist hsub hclock) hdrop
    omega
  · intro op hop
    exact ⟨hpolicy.own op hop, hpolicy.newest _ (hpolicy.own op hop)⟩
  · intro e d he hnext hstarts
    obtain ⟨now, rfl, hd, hr, -⟩ := hpolicy.starts he hnext hstarts
    exact ⟨hd, hr, hpolicy.rest hd hr⟩
  · intro e d he hnext hup hready hd
    obtain ⟨i, o, rfl⟩ := hpolicy.drop_completes he hnext hup hd
    obtain ⟨wasReady, hlive⟩ := hpolicy.live
    obtain ⟨rfl, -⟩ := (outstanding_opening hup hready).1 hlive.outstanding
    obtain ⟨op, hcompleted⟩ := hlive.completion hnext
    exact hcompleted.live.wants.wanted (by rw [hd]; rfl)
  · intro e d he hdrain hnext hready hd es' f hf hcalls' hconnect hdrains'
    obtain ⟨i, o, rfl⟩ := hpolicy.drop_completes he hnext (by rw [hready]; nofun) hd
    have hpd := hpolicy.next he hdrain hnext
    obtain ⟨wasReady, hlive⟩ := hpolicy.live
    have hout := hlive.outstanding
    rw [hready] at hout
    obtain ⟨rfl, -⟩ := hout
    obtain ⟨op, hcompleted⟩ := hlive.completion hnext
    exact hpd.givenUp_execute hcompleted.live hd hcalls' hconnect hdrains' hf

/-- The name is not resolved, and the pump recycles. -/
def unresolvedRun : List Event := [.connect "localhost" "8001" 0, .pump 0, .complete 0 fails, .pollEnd, .drainEnd]

theorem retry_policy_unresolved : ∃ c d, execute Client.next (Client.new 0) unresolvedRun = some c ∧
    c.next (.pump 5000) = some d ∧ c.Starts d ∧ c.impl.ioc = [] ∧ c.impl.ws = none ∧
      ∃ v, execute Client.next (Client.new 0) [.connect "localhost" "8001" 0, .pump 0] = some v ∧
        (∃ o, v.DropsIn [.complete 0 fails, .pollEnd, .drainEnd] o) ∧
          ∀ o, v.DropsIn [.complete 0 fails, .pollEnd, .drainEnd] o → o.now + reconnectBackoffMs ≤ 5000 := by
  obtain ⟨u, hu, hu₀⟩ := Option.map_eq_some_iff.1 (show
    (execute Client.next (Client.new 0) [.connect "localhost" "8001" 0]).map (·.impl.attempts) = some 0
      by decide +kernel)
  obtain ⟨v, hv, hv₁⟩ := Option.map_eq_some_iff.1 (show
    (execute Client.next (Client.new 0) ([.connect "localhost" "8001" 0] ++ [.pump 0])).map (·.impl.attempts) = some 1
      by decide +kernel)
  obtain ⟨c, hc, hc₁⟩ := Option.map_eq_some_iff.1 (show
    (execute Client.next (Client.new 0) unresolvedRun).map (·.impl.attempts) = some 1 by decide +kernel)
  obtain ⟨d, hd, hd₂⟩ := Option.map_eq_some_iff.1 (show
    (execute Client.next (Client.new 0) (unresolvedRun ++ [.pump 5000])).map (·.impl.attempts) = some 2
      by decide +kernel)
  have hnext : c.next (.pump 5000) = some d := execute_of_snoc hd hc
  have hfirst : u.next (.pump 0) = some v := execute_of_snoc hv hu
  have hstarts : c.Starts d := by rw [Client.Starts, hd₂, hc₁]
  obtain ⟨hbackoff, -, hrest, -⟩ := retry_policy hc (by decide) (by decide +kernel) (by decide)
  obtain ⟨-, -, hioc, hws⟩ := hrest _ d rfl hnext hstarts
  exact ⟨c, d, hc, hnext, hstarts, hioc, hws, v, hv, hbackoff 5000 d hnext hstarts [.connect "localhost" "8001" 0]
    (.pump 0) _ u v rfl hu hfirst (by rw [Client.Starts, hv₁, hu₀]) (by decide)⟩

end Vts

end Bajiru.Linkjiru
