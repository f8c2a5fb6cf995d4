import Bajiru.Linkjiru.VtsHandlers

/-!
# Whose stream a handler uses

A handler captures the client only, and it uses whatever stream the client has. An operation of the stream is cancelled
when the stream is destroyed, and completes before; `async_resolve` is not an operation of the stream. It may complete
after a `disconnect`, when there is no stream, or when there is the stream of a later attempt.

The operations of the stream always are on the current one (`StreamInv`), whatever the resolves do, so that the condition
is about the resolves only: `handlers_own_stream_iff`.
-/

namespace Bajiru.Linkjiru

namespace Vts

/-- The handler of the operation uses the stream: without one it is at its end. -/
def Impl.UsesStream (s : Impl) (op : Op) (c : Completion) : Prop := Impl.handle { s with ws := none } op c = .crash

namespace Client

/-- A handler that uses the stream uses that of the attempt that it was started for. -/
def OwnsStream (s : Client) : Event → Prop
  | .complete i c => ∀ op, s.phase.inPoll = true → s.impl.ioc[i]? = some op → s.impl.UsesStream op c →
      s.impl.ws = some op.stream
  | _ => True

/-- A resolve that completes without an error and outside a teardown belongs to the latest attempt, whose stream was not
destroyed. -/
def ResolvesInTime (s : Client) : Event → Prop
  | .complete i c => ∀ op, s.phase.inPoll = true → s.impl.ioc[i]? = some op → op.kind = .resolve → c.ok = true →
      s.impl.shuttingDown = false → s.impl.ws ≠ none ∧ op.stream + 1 = s.impl.attempts
  | _ => True

instance decidableResolvesInTime (s : Client) : ∀ e, Decidable (s.ResolvesInTime e)
  | .complete i c =>
    match h : s.impl.ioc[i]? with
    | none => .isTrue fun op _ hop => by rw [h] at hop; cases hop
    | some op => decidable_of_iff (s.phase.inPoll = true → op.kind = .resolve → c.ok = true →
        s.impl.shuttingDown = false → s.impl.ws ≠ none ∧ op.stream + 1 = s.impl.attempts)
      ⟨fun hG op' hpoll hop' => by rw [h] at hop'; cases hop'; exact hG hpoll, fun hG hpoll => hG op hpoll h⟩
  | .connect .. | .requestRegister | .setDetectValue _ | .pump _ | .pollEnd | .drainEnd | .disconnect | .teardownEnd =>
    .isTrue trivial

/-- `cancel` and the poll after it complete the operations of the stream, before it is destroyed. -/
def Cancels (s : Client) : Event → Prop
  | .drainEnd | .teardownEnd => ∀ op ∈ s.impl.ioc, op.kind = .resolve
  | _ => True

instance decidableCancels (s : Client) : ∀ e, Decidable (s.Cancels e)
  | .drainEnd | .teardownEnd => inferInstanceAs (Decidable (∀ op ∈ s.impl.ioc, op.kind = .resolve))
  | .connect .. | .requestRegister | .setDetectValue _ | .pump _ | .complete .. | .pollEnd | .disconnect =>
    .isTrue trivial

end Client

/-! ## The operations of the stream -/

/-- Apart from the resolves, the outstanding operations are on the stream, and a client that may connect has none; the
stream is that of the latest attempt. -/
structure StreamInv (s : Impl) : Prop where
  own : ∀ op ∈ s.ioc, op.kind ≠ .resolve → s.ws = some op.stream
  down : s.state = .disconnected → s.needsRecycle = false → ∀ op ∈ s.ioc, op.kind = .resolve
  newest : ∀ w, s.ws = some w → w + 1 = s.attempts

variable {s t : Impl} {now : Int}

/-- An operation is started on the stream. -/
theorem StreamInv.add (h : StreamInv s) {w : Nat} {kind : OpKind} (hw : s.ws = some w) (hws : t.ws = s.ws)
    (hattempts : t.attempts = s.attempts) (hioc : t.ioc = s.ioc ++ [⟨w, kind⟩]) (hup : t.state ≠ .disconnected) :
    StreamInv t := by
  refine ⟨?_, fun hd => absurd hd hup, ?_⟩
  · intro op hop hkind
    rw [hioc, List.mem_append, List.mem_singleton] at hop
    rw [hws]
    rcases hop with hop | rfl
    · exact h.own op hop hkind
    · exact hw
  · intro v hv
    rw [hattempts]
    exact h.newest v (hws ▸ hv)

/-- The link is left as it is, with fewer operations. -/
theorem StreamInv.fewer (h : StreamInv s) (hws : t.ws = s.ws) (hattempts : t.attempts = s.attempts)
    (hioc : ∀ op ∈ t.ioc, op ∈ s.ioc)
    (hdown : t.state = .disconnected → t.needsRecycle = false → s.state = .disconnected ∧ s.needsRecycle = false) :
    StreamInv t := by
  refine ⟨?_, ?_, ?_⟩
  · intro op hop hkind
    rw [hws]
    exact h.own op (hioc op hop) hkind
  · intro hd hr op hop
    obtain ⟨hd, hr⟩ := hdown hd hr
    exact h.down hd hr op (hioc op hop)
  · intro v hv
    rw [hattempts]
    exact h.newest v (hws ▸ hv)

theorem StreamInv.dropConnection (h : StreamInv s) (afterReady : Bool) : StreamInv (s.dropConnection afterReady now) := by
  unfold Impl.dropConnection
  split
  · exact h
  · exact h.fewer rfl rfl (fun _ => id) nofun

/-- A completion keeps the invariant, with whatever ends the handler. -/
theorem StreamInv.complete {i : Nat} {op : Op} (h : StreamInv s) (hop : s.ioc[i]? = some op) (c : Completion)
    {client : Client} (himpl : client.impl = s) (phase : Phase) :
    StreamInv (client.after phase (Impl.handle { s with ioc := s.ioc.eraseIdx i } op c)).impl := by
  have herase : StreamInv { s with ioc := s.ioc.eraseIdx i } :=
    h.fewer rfl rfl (fun _ => List.mem_of_mem_eraseIdx) fun hd hr => ⟨hd, hr⟩
  have hhandled := handle_handled { s with ioc := s.ioc.eraseIdx i } op c
  generalize Impl.handle { s with ioc := s.ioc.eraseIdx i } op c = ret at hhandled
  cases hhandled with
  | kept keeps ioc state =>
    refine herase.fewer keeps.ws keeps.attempts (fun op hop => ioc ▸ hop) fun hd hr => ?_
    exact ⟨state ▸ hd, keeps.needsRecycle ▸ hr⟩
  | @started t w kind ws keeps ioc leads =>
    by_cases hup : t.state = .disconnected
    · -- only an operation of the stream leaves the state as it is
      obtain ⟨-, hready⟩ | ⟨-, -, hopens | ⟨hkind, hsame⟩⟩ := leads
      · exact absurd (hup.symm.trans hready) nofun
      · rw [hup] at hopens
        cases hopens
      · refine ⟨?_, ?_, ?_⟩
        · intro op' hop' hkind'
          change op' ∈ t.ioc at hop'
          rw [ioc, List.mem_append, List.mem_singleton] at hop'
          refine keeps.ws.trans ?_
          rcases hop' with hop' | rfl
          · exact herase.own op' hop' hkind'
          · exact ws
        · intro _ hr
          have hall := h.down (hsame.symm.trans hup) (keeps.needsRecycle.symm.trans hr) op (List.mem_of_getElem? hop)
          exact absurd hall hkind
        · intro v hv
          exact (h.newest v (keeps.ws ▸ hv)).trans keeps.attempts.symm
    · exact herase.add ws keeps.ws keeps.attempts ioc hup
  | dropped write =>
    apply StreamInv.dropConnection
    exact herase.fewer rfl rfl (fun _ => id) fun hd hr => ⟨hd, hr⟩
  | @threw t keeps ioc state =>
    refine herase.fewer keeps.ws keeps.attempts (fun op hop => ioc ▸ hop) fun hd hr => ?_
    refine ⟨?_, keeps.needsRecycle ▸ hr⟩
    rcases state with hopens | hsame
    · rw [show t.state = .disconnected from hd] at hopens
      cases hopens
    · exact hsame ▸ hd
  | crash => exact himpl ▸ h

theorem StreamInv.connectIfDue (h : StreamInv s) : StreamInv (s.connectIfDue now) := by
  unfold Impl.connectIfDue
  split
  · rename_i hdue
    obtain ⟨-, hd, hr, -⟩ := hdue
    refine ⟨?_, nofun, ?_⟩
    · intro op hop hkind
      rw [show s.startConnect.ioc = s.ioc ++ [⟨s.attempts, .resolve⟩] from rfl, List.mem_append,
        List.mem_singleton] at hop
      rcases hop with hop | rfl
      · exact absurd (h.down hd (by simpa using hr) op hop) hkind
      · exact absurd rfl hkind
    · rintro w ⟨⟩
      rfl
  · exact h

theorem StreamInv.beginPump (h : StreamInv s) {client : Client} (himpl : client.impl = s) (phase : Phase) :
    StreamInv (client.after phase (s.beginPump now)).impl := by
  have hconnect : StreamInv (s.connectIfDue now) := h.connectIfDue
  unfold Impl.beginPump
  dsimp only
  split
  · rename_i hready
    have hup : (s.connectIfDue now).state ≠ .disconnected := by rw [hready]; nofun
    cases hw : (s.connectIfDue now).ws with
    | some w =>
      obtain heq | ⟨-, -, -, heq⟩ | ⟨-, -, -, heq⟩ := Impl.startWriteIfNeeded_cases hw
      · rw [heq]
        exact hconnect
      · rw [heq]
        exact hconnect.add hw rfl rfl rfl hup
      · rw [heq]
        exact hconnect.add hw rfl rfl rfl hup
    | none =>
      obtain heq | heq := Impl.startWriteIfNeeded_none hw
      · rw [heq]
        exact hconnect
      · rw [heq]
        exact himpl ▸ h
  · exact hconnect

namespace Client

/-- **The operations of the stream** are on the current one. -/
theorem streamInv_next {s t : Client} {e : Event} (h : StreamInv s.impl) (hcancel : s.Cancels e)
    (hnext : s.next e = some t) : StreamInv t.impl := by
  cases e with
  | pump now =>
    obtain ⟨-, rfl⟩ := next_pump hnext
    exact h.beginPump rfl _
  | complete i c =>
    obtain ⟨op, hop, -, rfl⟩ := next_complete hnext
    exact h.complete hop c rfl _
  | drainEnd =>
    obtain ⟨-, rfl⟩ := next_drainEnd hnext
    exact ⟨fun op hop hkind => absurd (hcancel op hop) hkind, fun _ _ => hcancel, by rintro w ⟨⟩⟩
  | teardownEnd =>
    simp only [next] at hnext
    split at hnext <;> cases hnext
    exact ⟨fun op hop hkind => absurd (hcancel op hop) hkind, fun _ _ => hcancel, by rintro w ⟨⟩⟩
  | _ =>
    simp only [next] at hnext
    split at hnext <;> cases hnext
    exact h.fewer rfl rfl (fun _ => id) fun hd hr => ⟨hd, hr⟩

/-- The handler of a resolve that succeeds connects the stream. -/
theorem usesStream_resolve {s : Impl} {op : Op} {c : Completion} (hkind : op.kind = .resolve) (hok : c.ok = true)
    (hshut : s.shuttingDown = false) : s.UsesStream op c := by
  unfold Impl.UsesStream Impl.handle
  rw [if_neg (by simp [hshut]), hkind, if_pos hok]
  rfl

/-- The handlers of the stream's operations use its stream; that of a resolve does if its attempt is the latest. -/
theorem ownsStream_iff {s : Client} {e : Event} (h : StreamInv s.impl) : s.OwnsStream e ↔ s.ResolvesInTime e := by
  cases e with
  | complete i c =>
    constructor
    · intro howns op hpoll hop hkind hok hshut
      have hws := howns op hpoll hop (usesStream_resolve hkind hok hshut)
      exact ⟨by simp [hws], h.newest _ hws⟩
    · intro htime op hpoll hop huses
      by_cases hkind : op.kind = .resolve
      · have hrun : s.impl.shuttingDown = false ∧ c.ok = true := by
          unfold Impl.UsesStream Impl.handle at huses
          rw [hkind] at huses
          cases hshut : s.impl.shuttingDown <;> cases hok : c.ok <;> simp [hshut, hok] at huses ⊢
        obtain ⟨hws, hlatest⟩ := htime op hpoll hop hkind hrun.2 hrun.1
        obtain ⟨w, hw⟩ := Option.ne_none_iff_exists'.1 hws
        have hnewest := h.newest w hw
        rw [hw, show w = op.stream by omega]
      · exact h.own op (List.mem_of_getElem? hop) hkind
  | _ => exact Iff.rfl

end Client

/-- **Whose stream the handlers use**: in a run in which `cancel` does what it should, every handler that uses the stream
has that of its own attempt, if and only if every resolve that succeeds outside a teardown belongs to the latest attempt
and finds its stream. -/
theorem handlers_own_stream_iff {created : Int} {es : List Event} {s : Client}
    (h : execute Client.next (Client.new created) es = some s)
    (hcancel : Along Client.next Client.Cancels (Client.new created) es) :
    Along Client.next Client.OwnsStream (Client.new created) es ↔
      Along Client.next Client.ResolvesInTime (Client.new created) es := by
  have hstart : StreamInv (Client.new created).impl := ⟨nofun, fun _ _ => nofun, nofun⟩
  have hboth := along_iff (P := fun s : Client => StreamInv s.impl)
    (G := fun s e => s.Cancels e ∧ s.ResolvesInTime e) (Q := fun s e => s.Cancels e ∧ s.OwnsStream e)
    (fun _ _ _ hinv hG hnext => Client.streamInv_next hinv hG.1 hnext)
    (fun _ _ _ hinv _ => and_congr_right fun _ => Client.ownsStream_iff hinv) hstart h
  rw [along_and, along_and] at hboth
  exact ⟨fun howns => (hboth.1 ⟨hcancel, howns⟩).2, fun htime => (hboth.2 ⟨hcancel, htime⟩).2⟩

/-- The client disconnects while the name is resolved. -/
def orphanRun : List Event := [.connect "localhost" "8001" 0, .pump 0, .pollEnd, .disconnect, .teardownEnd, .pump 1]

theorem handlers_own_stream_orphan : ¬ ∀ created es s, execute Client.next (Client.new created) es = some s →
    Along Client.next Client.Cancels (Client.new created) es →
      Along Client.next Client.OwnsStream (Client.new created) es := by
  intro hall
  obtain ⟨s, hs, heq⟩ := Option.map_eq_some_iff.1 (show
    (execute Client.next (Client.new 0) orphanRun).map
      (fun s => (s.impl.ioc, s.impl.ws, s.phase, s.impl.shuttingDown)) =
      some ([⟨0, .resolve⟩], none, .polling, false) by decide +kernel)
  obtain ⟨t, ht⟩ := Option.isSome_iff_exists.1 (show
    (execute Client.next (Client.new 0) (orphanRun ++ [.complete 0 (succeeds none)])).isSome = true by decide +kernel)
  simp only [Prod.mk.injEq] at heq
  obtain ⟨hioc, hws, hphase, hshut⟩ := heq
  have howns := along_of_append (hall 0 _ t ht (by decide +kernel)) hs
  have huses : s.impl.UsesStream ⟨0, .resolve⟩ (succeeds none) := Client.usesStream_resolve rfl rfl hshut
  have hown := howns.1 ⟨0, .resolve⟩ (by rw [hphase]; rfl) (by rw [hioc]; rfl) huses
  rw [hws] at hown
  cases hown

theorem handlers_own_stream_linkUp : ∃ s, execute Client.next (Client.new 0) linkUp = some s ∧
    Along Client.next Client.OwnsStream (Client.new 0) linkUp := by
  obtain ⟨s, hs⟩ := Option.isSome_iff_exists.1 (show
    (execute Client.next (Client.new 0) linkUp).isSome = true by decide +kernel)
  exact ⟨s, hs, (handlers_own_stream_iff hs (by decide +kernel)).2 (by decide +kernel)⟩

end Vts

end Bajiru.Linkjiru
