import Bajiru.Linkjiru.VtsDiscipline

/-!
# Retries of a session

A failure before the link was Ready is retried: the first pump at or past `nextAttempt` starts the next attempt. A drop
from Ready clears `wantConnection`, which only `connect` sets, and the loop never calls it again (`session_retries`).
-/

namespace Bajiru.Linkjiru

namespace Vts

namespace Session

variable {s t : Session} {wasReady : Bool}

/-- The step is a `pump` whose clock is at or past `nextAttempt` and whose recycle is done. -/
def Due (s : Session) : SessionEvent → Prop
  | .call (.pump now) => s.client.impl.needsRecycle = false ∧ s.client.impl.nextAttempt ≤ now
  | _ => False

/-- A session whose client is Disconnected. -/
structure Down (s : Session) (wasReady : Bool) (attempts : Nat) : Prop where
  inv : s.Inv
  state : s.client.impl.state = .disconnected
  wasReady : s.wasReady = wasReady
  attempts : s.client.impl.attempts = attempts

theorem Down.settle {pc : Pc} {c : Client} {attempts : Nat} (hinv : (s.settle pc c).Inv)
    (hs : c.impl.state = .disconnected) (hw : s.wasReady = wasReady) (ha : c.impl.attempts = attempts) :
    (s.settle pc c).Down wasReady attempts := by
  refine ⟨hinv, hs, ?_, ha⟩
  show (s.wasReady || decide (c.impl.state = .ready)) = wasReady
  rw [hs, hw]
  simp

/-- A Disconnected client stays so, except that a due pump starts an attempt if the link was never Ready. -/
theorem Down.next {e : SessionEvent} {attempts : Nat} (h : s.Down wasReady attempts)
    (hdue : s.Due e → wasReady = true) (hnext : s.next e = some t) : t.Down wasReady attempts := by
  have hinv := inv_next h.inv hnext
  cases e with
  | call e =>
    obtain ⟨pc, hcall, hnext⟩ := Option.bind_eq_some_iff.1 hnext
    obtain ⟨c, hc, rfl⟩ := Option.map_eq_some_iff.1 hnext
    cases e with
    | pump now =>
      obtain ⟨-, rfl⟩ := Client.next_pump hc
      obtain ⟨hwaits, -⟩ := h.inv.of_pump hcall
      have hnot : s.client.impl.connectIfDue now = s.client.impl := by
        apply if_neg
        rintro ⟨hwant, -, hrec, hnow⟩
        have hgone := hwaits.live.wants.given_up (h.wasReady.trans (hdue ⟨by simpa using hrec, hnow⟩)) h.state
        rw [hgone] at hwant
        cases hwant
      have heq : s.client.impl.beginPump now = .done s.client.impl := by
        simp [Impl.beginPump, hnot, h.state]
      rw [heq] at hinv ⊢
      exact Down.settle hinv h.state h.wasReady h.attempts
    | complete i o =>
      obtain ⟨op, hop, -, rfl⟩ := Client.next_complete hc
      obtain ⟨hpumps, -⟩ | ⟨htears, -⟩ := h.inv.of_complete hcall
      · obtain ⟨hdown, hsame⟩ := (after_safe (hpumps.live.complete hop o)).down h.state
        exact Down.settle hinv hdown h.wasReady (hsame.trans h.attempts)
      · rw [handle_shuttingDown (by exact htears.shuttingDown)] at hinv ⊢
        exact Down.settle hinv h.state h.wasReady h.attempts
    | connect host port now => cases hpc : s.pc <;> simp [Pc.call, hpc] at hcall
    | teardownEnd =>
      simp only [Client.next] at hc
      split at hc <;> cases hc
      exact Down.settle hinv rfl h.wasReady h.attempts
    | _ =>
      simp only [Client.next] at hc
      split at hc <;> cases hc
      exact Down.settle hinv h.state h.wasReady h.attempts
  | sleep =>
    simp only [Session.next] at hnext
    split at hnext <;> cases hnext
    exact ⟨hinv, h.state, h.wasReady, h.attempts⟩
  | exit =>
    simp only [Session.next] at hnext
    split at hnext <;> cases hnext
    exact ⟨hinv, h.state, h.wasReady, h.attempts⟩

/-- A due pump starts an attempt if the link was never Ready. -/
theorem Down.starts {e : SessionEvent} {attempts : Nat} (h : s.Down false attempts) (hdue : s.Due e)
    (hnext : s.next e = some t) :
    t.client.impl.attempts = s.client.impl.attempts + 1 ∧ t.client.impl.state = .resolving := by
  cases e with
  | call e =>
    cases e with
    | pump now =>
      obtain ⟨pc, hcall, hnext⟩ := Option.bind_eq_some_iff.1 hnext
      obtain ⟨c, hc, rfl⟩ := Option.map_eq_some_iff.1 hnext
      obtain ⟨-, rfl⟩ := Client.next_pump hc
      obtain ⟨hwaits, -⟩ := h.inv.of_pump hcall
      have heq : s.client.impl.beginPump now = .done s.client.impl.startConnect := by
        unfold Impl.beginPump
        rw [Impl.connectIfDue_of_due (hwaits.live.wants.wanted h.wasReady) h.state hdue.1 hdue.2]
        exact if_neg nofun
      rw [heq]
      exact ⟨rfl, rfl⟩
    | _ => exact hdue.elim
  | _ => exact hdue.elim

end Session

/-- **Retries.** From a Disconnected client whose link was never Ready, the first later pump that is due starts a new
attempt; after a drop from Ready the session starts no attempt any more. -/
theorem session_retries {created now : Int} {host port : String} {es : List SessionEvent} {s : Session}
    (h : execute Session.next (Session.new created host port now) es = some s)
    (hs : s.client.impl.state = .disconnected) :
    (s.wasReady = false → ∀ es' u e t, execute Session.next s es' = some u →
      Along Session.next (fun v e => ¬ v.Due e) s es' → u.Due e → u.next e = some t →
        t.client.impl.attempts = u.client.impl.attempts + 1 ∧ t.client.impl.state = .resolving) ∧
    (s.wasReady = true → ∀ es' u, execute Session.next s es' = some u →
      u.client.impl.attempts = s.client.impl.attempts) := by
  have hdown : ∀ wasReady, s.wasReady = wasReady → s.Down wasReady s.client.impl.attempts :=
    fun wasReady hw => ⟨Session.inv_execute h, hs, hw, rfl⟩
  constructor
  · intro hw es' u e t hu hquiet hdue hnext
    have hstays : u.Down false s.client.impl.attempts :=
      execute_inv_along (P := fun v => v.Down false s.client.impl.attempts)
        (fun _ _ _ hv hG hstep => hv.next (fun hd => absurd hd hG) hstep) (hdown false hw) hquiet hu
    exact hstays.starts hdue hnext
  · intro hw es' u hu
    have hstays : u.Down true s.client.impl.attempts :=
      execute_inv (P := fun v => v.Down true s.client.impl.attempts)
        (fun _ _ _ hv hstep => hv.next (fun _ => rfl) hstep) (hdown true hw) hu
    exact hstays.attempts

/-- The name is not resolved. -/
def refusedRun : List SessionEvent :=
  [.call (.pump 0), .call (.complete 0 fails), .call .pollEnd, .call .drainEnd, .sleep]

/-- The link becomes Ready, its read fails in the next tick, and the thread goes on. -/
def lostRun : List SessionEvent :=
  openingRun ++ [acceptance, .call .pollEnd, .sleep, .call (.pump 0), .call (.complete 0 fails), .call .pollEnd,
    .call .drainEnd, .sleep]

/-- A pump after the backoff. -/
def latePump : SessionEvent := .call (.pump 6000)

theorem session_retries_refused : ∃ s t u v, execute Session.next (Session.new 0 "localhost" "8001" 0) refusedRun =
    some s ∧ s.next latePump = some t ∧ t.client.impl.attempts = s.client.impl.attempts + 1 ∧
      execute Session.next (Session.new 0 "localhost" "8001" 0) lostRun = some u ∧ u.next latePump = some v ∧
        v.client.impl.attempts = u.client.impl.attempts := by
  obtain ⟨s, hs, heq⟩ := Option.map_eq_some_iff.1 (show
    (execute Session.next (Session.new 0 "localhost" "8001" 0) refusedRun).map
      (fun s => (s.client.impl.state, s.wasReady, s.client.impl.needsRecycle, s.client.impl.nextAttempt)) =
      some (.disconnected, false, false, 5000) by decide +kernel)
  obtain ⟨t, ht⟩ := Option.isSome_iff_exists.1 (show
    (execute Session.next (Session.new 0 "localhost" "8001" 0) (refusedRun ++ [latePump])).isSome = true
      by decide +kernel)
  obtain ⟨u, hu, heq'⟩ := Option.map_eq_some_iff.1 (show
    (execute Session.next (Session.new 0 "localhost" "8001" 0) lostRun).map
      (fun u => (u.client.impl.state, u.wasReady)) = some (.disconnected, true) by decide +kernel)
  obtain ⟨v, hv⟩ := Option.isSome_iff_exists.1 (show
    (execute Session.next (Session.new 0 "localhost" "8001" 0) (lostRun ++ [latePump])).isSome = true
      by decide +kernel)
  simp only [Prod.mk.injEq] at heq heq'
  obtain ⟨hdown, hnever, hrec, hnext⟩ := heq
  have ht' : s.next latePump = some t := execute_of_snoc ht hs
  have hv' : u.next latePump = some v := execute_of_snoc hv hu
  have hdue : s.Due latePump := ⟨hrec, by rw [hnext]; decide⟩
  exact ⟨s, t, u, v, hs, ht', ((session_retries hs hdown).1 hnever [] s latePump t rfl trivial hdue ht').1, hu, hv',
    (session_retries hu heq'.1).2 heq'.2 [latePump] v (execute_of_append hv hu)⟩

theorem session_lost : ¬ ∀ created host port now es s, execute Session.next (Session.new created host port now) es =
    some s → s.pc.inLoop = true → s.client.impl.state = .disconnected → ∀ es' u e t,
      execute Session.next s es' = some u → Along Session.next (fun v e => ¬ v.Due e) s es' → u.Due e →
        u.next e = some t → t.client.impl.attempts = u.client.impl.attempts + 1 := by
  intro hall
  obtain ⟨u, hu, heq⟩ := Option.map_eq_some_iff.1 (show
    (execute Session.next (Session.new 0 "localhost" "8001" 0) lostRun).map (fun u =>
      (u.pc, u.client.impl.state, u.client.impl.needsRecycle, u.client.impl.nextAttempt, u.client.impl.attempts)) =
      some (.loop, .disconnected, false, 5000, 1) by decide +kernel)
  obtain ⟨v, hv, hsame⟩ := Option.map_eq_some_iff.1 (show
    (execute Session.next (Session.new 0 "localhost" "8001" 0) (lostRun ++ [latePump])).map
      (·.client.impl.attempts) = some 1 by decide +kernel)
  simp only [Prod.mk.injEq] at heq
  obtain ⟨hloop, hdown, hrec, hnext, hattempts⟩ := heq
  have hv' : u.next latePump = some v := execute_of_snoc hv hu
  have hdue : u.Due latePump := ⟨hrec, by rw [hnext]; decide⟩
  have hstarts := hall 0 "localhost" "8001" 0 lostRun u hu (by rw [hloop]; rfl) hdown [] u latePump v rfl trivial
    hdue hv'
  omega

end Vts

end Bajiru.Linkjiru
