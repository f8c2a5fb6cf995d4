import Bajiru.LatestCell
import Bajiru.Linkjiru.AnalysisLoop
import Bajiru.Linkjiru.VtsHandlers

/-!
# The value of the loop on its way to VTube Studio

`AnalysisThread::run` with its client: in each tick, after the pump, the loop computes its value and hands it to
`setDetectValue`, unless the send gate holds it back. The client keeps the pending value until a steady write takes it.
The values of the ticks and the values that are handed to a socket are the history of one cell (`Faithful`), in every
run: no registration and no write in flight loses a value.
-/

namespace Bajiru.Linkjiru

namespace Vts

/-! ## The writes that a step starts -/

/-- The value of an inject. -/
def Request.injected : Request → Option ℚ
  | injectParameterData value => some value
  | _ => none

/-- The request of a write whose payload is newer than the first `payloads`. -/
def Op.handedAfter (payloads : Nat) (op : Op) : Option Request :=
  match op.kind with
  | .requestWrite r _ n | .steadyWrite r n => if payloads < n then some r else none
  | _ => none

/-- The requests that a step has handed to a socket. -/
def Impl.handed (s t : Impl) : List Request := t.ioc.filterMap (Op.handedAfter s.payloads)

variable {s t : Impl} {wasReady : Bool} {op : Op} {c : Completion} {now : Int}

/-- A steady write is handed to the socket with the next payload. -/
theorem handedAfter_steadyWrite (w payloads : Nat) (r : Request) :
    Op.handedAfter payloads ⟨w, .steadyWrite r (payloads + 1)⟩ = some r := if_pos (Nat.lt_succ_self payloads)

/-- The writes that were outstanding before are not new. -/
theorem Tidy.handed {payloads : Nat} {ioc : List Op} (h : Tidy payloads ioc) :
    ioc.filterMap (Op.handedAfter payloads) = [] := by
  rw [List.filterMap_eq_nil_iff]
  rintro ⟨w, kind⟩ hop
  cases kind with
  | requestWrite r onResp n =>
    have hn : n = payloads := h.payload _ hop n rfl
    exact if_neg (by rw [hn]; exact Nat.lt_irrefl payloads)
  | steadyWrite r n =>
    have hn : n = payloads := h.payload _ hop n rfl
    exact if_neg (by rw [hn]; exact Nat.lt_irrefl payloads)
  | _ => rfl

/-- A request of the auth phase is no inject. -/
theorem Request.handledBy.injected {r : Request} {onResp : OnResp} (h : r.handledBy onResp) : r.injected = none := by
  cases r with
  | injectParameterData value => cases onResp <;> exact h.elim
  | _ => rfl

/-- The writes of the auth phase have their handlers. -/
theorem Outstanding.request {ws : Option Nat} {payloads w n : Nat} {writeInFlight : Bool} {ioc : List Op}
    {state : State} {r : Request} {onResp : OnResp} (h : Outstanding ws payloads writeInFlight wasReady ioc state)
    (hop : ⟨w, .requestWrite r onResp n⟩ ∈ ioc) : r.handledBy onResp := by
  by_cases hr : state = .ready
  · subst hr
    obtain ⟨-, v, -, h⟩ := h
    split at h
    · obtain ⟨r', rfl | rfl⟩ := h <;> simp at hop
    · simp [h] at hop
  · by_cases hd : state = .disconnected
    · subst hd
      cases wasReady with
      | false => simp [h.2] at hop
      | true =>
        obtain rfl | ⟨v, kind, hk, rfl⟩ : Leftover payloads ioc := h
        · cases hop
        · cases List.mem_singleton.1 hop
          exact hk.elim
    · obtain ⟨-, -, v, -, rfl | ⟨kind, hk, rfl⟩⟩ := (outstanding_opening hd hr).1 h
      · cases hop
      · cases List.mem_singleton.1 hop
        cases state with
        | authenticating => exact hk.1
        | _ => exact hk.elim

/-- What a step does to the cell of the client: nothing, or it takes the pending value out of it. -/
inductive CellStep (s t : Impl) : Prop
  | keeps (pendingValue : t.pendingValue = s.pendingValue) (valueDirty : t.valueDirty = s.valueDirty)
      (handed : (Impl.handed s t).filterMap Request.injected = [])
  | takes (pendingValue : t.pendingValue = s.pendingValue) (dirty : s.valueDirty = true)
      (valueDirty : t.valueDirty = false) (handed : (Impl.handed s t).filterMap Request.injected = [s.pendingValue])

/-- A step that starts nothing. -/
theorem CellStep.idle (h : Tidy s.payloads t.ioc) (hvalue : t.pendingValue = s.pendingValue)
    (hdirty : t.valueDirty = s.valueDirty) : CellStep s t :=
  .keeps hvalue hdirty (by rw [Impl.handed, h.handed]; rfl)

/-- The pump takes the pending value out of the cell, or it leaves the cell alone. -/
theorem Live.pump_cell (h : Live s wasReady) (now : Int) : (s.beginPump now).Safe (CellStep s) := by
  have htidy := h.outstanding.tidy
  have hnew : ∀ op : Op, (s.ioc ++ [op]).filterMap (Op.handedAfter s.payloads) =
      (Op.handedAfter s.payloads op).toList := by
    intro op
    rw [List.filterMap_append, htidy.handed]
    cases hop : Op.handedAfter s.payloads op <;> simp [hop]
  obtain ⟨-, -, -, -, heq⟩ | ⟨hready, heq⟩ | ⟨-, heq⟩ := Impl.beginPump_cases s now
  · rw [heq]
    exact .keeps rfl rfl (by rw [Impl.handed, Impl.startConnect, hnew]; rfl)
  · obtain ⟨w, hw, -, -⟩ := h.current.ws (by rw [hready]; nofun)
    rw [heq]
    obtain heq | ⟨-, -, -, heq⟩ | ⟨-, -, hdirty, heq⟩ := Impl.startWriteIfNeeded_cases hw
    · rw [heq]
      exact .idle htidy rfl rfl
    · rw [heq]
      refine .keeps rfl rfl ?_
      rw [Impl.handed, Impl.addOp, hnew, handedAfter_steadyWrite]
      rfl
    · rw [heq]
      refine .takes rfl hdirty rfl ?_
      rw [Impl.handed, Impl.addOp, hnew, handedAfter_steadyWrite]
      rfl
  · rw [heq]
    exact .idle htidy rfl rfl

/-- The handlers leave the cell alone. -/
theorem Live.complete_cell {i : Nat} (h : Live s wasReady) (hop : s.ioc[i]? = some op) (c : Completion) :
    (Impl.handle { s with ioc := s.ioc.eraseIdx i } op c).Safe (CellStep s) := by
  have htidy := h.outstanding.tidy.eraseIdx i
  have hlive := h.complete hop c
  have hhandled := handle_handled { s with ioc := s.ioc.eraseIdx i } op c
  revert hlive hhandled
  generalize Impl.handle { s with ioc := s.ioc.eraseIdx i } op c = ret
  intro hlive hhandled
  cases hhandled with
  | kept keeps ioc state kind => exact .idle (by rw [ioc]; exact htidy) keeps.pendingValue keeps.valueDirty
  | @started t w kind ws keeps ioc leads =>
    refine .keeps keeps.pendingValue keeps.valueDirty ?_
    have houtstanding := hlive.live.outstanding
    rw [Impl.handed, ioc, List.filterMap_append, htidy.handed, List.nil_append]
    rw [ioc] at houtstanding
    obtain ⟨rfl, -⟩ | ⟨hopens, -⟩ := leads
    · rfl
    · cases kind with
      | requestWrite r onResp n =>
        have hnone := (houtstanding.request (List.mem_append_right _ (List.mem_singleton_self _))).injected
        by_cases hn : s.payloads < n <;> simp [Op.handedAfter, hn, hnone]
      | steadyWrite r n => cases hopens
      | _ => rfl
  | dropped write =>
    unfold Impl.dropConnection
    split
    · exact .idle htidy rfl rfl
    · exact .idle htidy rfl rfl
  | threw keeps ioc state kind => exact .idle (by rw [ioc]; exact htidy) keeps.pendingValue keeps.valueDirty
  | crash ws => exact hlive

/-! ## The calls of the thread -/

/-- A call does not lead back into the loop. -/
theorem Pc.inLoop_call {pc pc' : Pc} {e : Event} (h : pc.call e = some pc') (hloop : pc'.inLoop = true) :
    pc.inLoop = true := by
  cases pc with
  | loop | pumping | pumped | requested => rfl
  | lastValue =>
    cases e with
    | setDetectValue value =>
      simp only [call] at h
      split at h
      · cases h
        cases hloop
      · cases h
    | _ => cases h
  | _ => cases e <;> cases h <;> cases hloop

namespace Session

variable {s t : Session}

/-- The discipline of the stream is enough for a step that starts nothing. -/
theorem Inv.idle (h : s.Inv) {t : Impl} (hioc : t.ioc = s.client.impl.ioc)
    (hvalue : t.pendingValue = s.client.impl.pendingValue) (hdirty : t.valueDirty = s.client.impl.valueDirty) :
    CellStep s.client.impl t :=
  .idle (by rw [hioc]; exact h.discipline.tidy) hvalue hdirty

/-- **The client's side of the cell**: a step of a call other than `setDetectValue` takes the pending value out of the
cell or leaves the cell alone. -/
theorem cell_next {e : Event} (h : s.Inv) (hnext : s.next (.call e) = some t)
    (he : ∀ value, e ≠ .setDetectValue value) : CellStep s.client.impl t.client.impl := by
  obtain ⟨pc, hcall, hnext⟩ := Option.bind_eq_some_iff.1 hnext
  obtain ⟨c, hc, rfl⟩ := Option.map_eq_some_iff.1 hnext
  show CellStep s.client.impl c.impl
  cases e with
  | setDetectValue value => exact absurd rfl (he value)
  | pump now =>
    obtain ⟨-, rfl⟩ := Client.next_pump hc
    exact after_safe ((h.of_pump hcall).1.live.pump_cell now)
  | complete i o =>
    obtain ⟨op, hop, -, rfl⟩ := Client.next_complete hc
    obtain ⟨hpumps, -⟩ | ⟨htears, -⟩ := h.of_complete hcall
    · exact after_safe (hpumps.live.complete_cell hop o)
    · rw [handle_shuttingDown (by exact htears.shuttingDown)]
      exact .idle (by exact h.discipline.tidy.eraseIdx i) rfl rfl
  | _ =>
    simp only [Client.next] at hc
    split at hc
    · cases hc
      exact h.idle rfl rfl rfl
    · cases hc

theorem inLoop_next {e : Event} (hnext : s.next (.call e) = some t) (ht : t.pc.inLoop = true) : s.pc.inLoop = true := by
  obtain ⟨pc, hcall, hnext⟩ := Option.bind_eq_some_iff.1 hnext
  obtain ⟨c, -, rfl⟩ := Option.map_eq_some_iff.1 hnext
  have hpc : pc.inLoop = true := by
    unfold settle at ht
    dsimp only at ht
    split at ht
    · cases ht
    · split at ht
      · cases pc with
        | lastPumping | tearing => cases ht
        | _ => exact ht
      · exact ht
  exact Pc.inLoop_call hcall hpc

/-- `setDetectValue` fills the cell of the client. -/
theorem set_next {value : ℚ} (hnext : s.next (.call (.setDetectValue value)) = some t) :
    t.client.impl.pendingValue = value ∧ t.client.impl.valueDirty = true := by
  obtain ⟨pc, -, hnext⟩ := Option.bind_eq_some_iff.1 hnext
  obtain ⟨c, hc, rfl⟩ := Option.map_eq_some_iff.1 hnext
  obtain ⟨-, rfl⟩ := Client.next_setDetectValue hc
  exact ⟨rfl, rfl⟩

theorem sleep_next (hnext : s.next .sleep = some t) : t.client = s.client := by
  simp only [next] at hnext
  split at hnext
  · cases hnext
    rfl
  · cases hnext

theorem exit_next (hnext : s.next .exit = some t) : t.pc = .lastValue ∧ t.client = s.client := by
  simp only [next] at hnext
  split at hnext
  · cases hnext
    exact ⟨rfl, rfl⟩
  · cases hnext

end Session

end Vts

/-! ## The value of a tick -/

namespace AnalysisLoop

variable {α : Type*}

theorem vtsValue_ne (s : AnalysisLoop α) : s.vtsValue ≠ -1 := by
  unfold vtsValue
  split <;> decide

/-- **The loop's side of the cell**: the value of a tick is set, or it is the value that was set last. -/
theorem tick_value [Zero α] (s : AnalysisLoop α) (i : TickInput α) :
    (s.tick i).2.silenceGate.lastSent = (s.tick i).2.vtsValue ∧
      ((s.tick i).1.sent = some (s.tick i).2.vtsValue ∨
        (s.tick i).1.sent = none ∧ s.silenceGate.lastSent = (s.tick i).2.vtsValue) := by
  have htick := s.ticked i
  have hheard : (s.heard i).2.silenceGate.lastSent = s.silenceGate.lastSent := GatingLogic.lastSent_shouldEvaluate
  constructor
  · rw [htick.silenceGate]
    exact GatingLogic.lastSent_shouldSend
  · rw [htick.sent, ← hheard]
    cases hsend : ((s.heard i).2.silenceGate.shouldSend (s.tick i).2.vtsValue i.now).1 with
    | true => exact .inl rfl
    | false => exact .inr ⟨rfl, GatingLogic.shouldSend_held hsend⟩

end AnalysisLoop

/-! ## The thread with its loop and its client -/

open Vts

/-- The thread: its client, its loop, the values of the ticks and of the exit, and the requests that were handed to a
socket, each with the number of the values before. -/
structure AnalysisRun (α : Type*) where
  session : Session
  loop : AnalysisLoop α
  values : List ℚ
  handed : List (Nat × Request)

/-- A call of the client or a completion in it, the rest of a tick behind the pump, or the end of the loop, where the
value is set to 0. -/
inductive RunEvent (α : Type*)
  | call (e : Event)
  | tick (i : TickInput α)
  | exit

namespace AnalysisRun

variable {α : Type*}

/-- The client was constructed and `connect` was called. -/
def new (α : Type*) [Zero α] (modelReadyFlag : Bool) (created : Int) (host port : String) (now : Int) :
    AnalysisRun α where
  session := .new created host port now
  loop := .start α modelReadyFlag
  values := []
  handed := []

/-- The session has made a step, which may hand requests to a socket. -/
def settle (s : AnalysisRun α) (session : Session) : AnalysisRun α :=
  { s with
    session := session
    handed := s.handed ++ (s.session.client.impl.handed session.client.impl).map (s.values.length, ·) }

/-- The call of a tick: the value, if it passes the send gate. -/
def sends : Option ℚ → SessionEvent
  | some value => .call (.setDetectValue value)
  | none => .sleep

/-- One step; `setDetectValue` is called by the ticks and at the exit, and it starts no operation. -/
def next [Zero α] (s : AnalysisRun α) : RunEvent α → Option (AnalysisRun α)
  | .call (.setDetectValue _) => none
  | .call e => (s.session.next (.call e)).map s.settle
  | .tick i =>
    if s.session.pc = .pumped ∨ s.session.pc = .requested then
      let (o, loop) := s.loop.tick i
      (s.session.next (sends o.sent)).map fun session =>
        { s with session := session, loop := loop, values := s.values ++ [loop.vtsValue] }
    else none
  | .exit =>
    ((s.session.next .exit).bind (Session.next · (.call (.setDetectValue 0)))).map fun session =>
      { s with session := session, values := s.values ++ [0] }

/-- The values that were handed to a socket, each with the number of the values before. -/
def injected (s : AnalysisRun α) : List (Nat × ℚ) := s.handed.filterMap fun p => p.2.injected.map (p.1, ·)

/-- The invariant of a run. -/
structure Inv (s : AnalysisRun α) : Prop where
  session : s.session.Inv
  cell : Faithful s.values s.injected s.session.client.impl.pendingValue s.session.client.impl.valueDirty
  gate : s.session.pc.inLoop = true → s.loop.silenceGate.lastSent = s.values.getLast?.getD (-1)

theorem injected_settle (s : AnalysisRun α) (session : Session) :
    (s.settle session).injected = s.injected ++
      ((s.session.client.impl.handed session.client.impl).filterMap Request.injected).map (s.values.length, ·) := by
  unfold injected settle
  rw [List.filterMap_append, List.filterMap_map, List.map_filterMap]
  rfl

theorem inv_call {s : AnalysisRun α} {e : Event} {session : Session} (h : s.Inv)
    (he : ∀ value, e ≠ .setDetectValue value) (hnext : s.session.next (.call e) = some session) : (s.settle session).Inv where
  session := Session.inv_next h.session hnext
  cell := by
    rw [injected_settle]
    cases Session.cell_next h.session hnext he with
    | keeps pendingValue valueDirty handed =>
      rw [handed, List.map_nil, List.append_nil]
      show Faithful s.values s.injected session.client.impl.pendingValue session.client.impl.valueDirty
      rw [pendingValue, valueDirty]
      exact h.cell
    | takes pendingValue dirty valueDirty handed =>
      have hcell := h.cell
      rw [dirty] at hcell
      rw [handed]
      show Faithful s.values _ session.client.impl.pendingValue session.client.impl.valueDirty
      rw [pendingValue, valueDirty]
      exact hcell.take
  gate hloop := h.gate (Session.inLoop_next hnext hloop)

section Steps

variable [Zero α] {s t : AnalysisRun α}

theorem inv_new (modelReadyFlag : Bool) (created : Int) (host port : String) (now : Int) :
    (new α modelReadyFlag created host port now).Inv where
  session := Session.inv_new created host port now
  cell := .nil 0
  gate _ := rfl

theorem next_tick {i : TickInput α} (hnext : s.next (.tick i) = some t) : s.session.pc.inLoop = true ∧
    ∃ session, s.session.next (sends (s.loop.tick i).1.sent) = some session ∧
      t = { s with
        session := session, loop := (s.loop.tick i).2, values := s.values ++ [(s.loop.tick i).2.vtsValue] } := by
  simp only [next] at hnext
  split at hnext
  · rename_i hpc
    obtain ⟨session, hsession, rfl⟩ := Option.map_eq_some_iff.1 hnext
    refine ⟨?_, session, hsession, rfl⟩
    rcases hpc with hpc | hpc <;> rw [hpc] <;> rfl
  · cases hnext

theorem inv_tick {i : TickInput α} (h : s.Inv) (hnext : s.next (.tick i) = some t) : t.Inv := by
  obtain ⟨hloop, session, hsession, rfl⟩ := next_tick hnext
  obtain ⟨hlast, hsent⟩ := s.loop.tick_value i
  refine ⟨Session.inv_next h.session hsession, ?_, ?_⟩
  · show Faithful (s.values ++ [(s.loop.tick i).2.vtsValue]) s.injected session.client.impl.pendingValue
      session.client.impl.valueDirty
    obtain hsent | ⟨hsent, hheld⟩ := hsent
    · rw [hsent] at hsession
      obtain ⟨hvalue, hdirty⟩ := Session.set_next hsession
      rw [hvalue, hdirty]
      exact h.cell.put _
    · -- before the first value the gate holds back nothing that a tick can compute
      have hgate := h.gate hloop
      rw [hsent] at hsession
      rw [Session.sleep_next hsession]
      apply h.cell.keep
      cases hvalues : s.values.getLast? with
      | none =>
        rw [hvalues, hheld] at hgate
        exact absurd hgate (AnalysisLoop.vtsValue_ne _)
      | some value =>
        rw [hvalues, hheld] at hgate
        rw [hgate]
        rfl
  · intro _
    show (s.loop.tick i).2.silenceGate.lastSent = (s.values ++ [(s.loop.tick i).2.vtsValue]).getLast?.getD (-1)
    rw [hlast, List.getLast?_concat]
    rfl

theorem inv_exit (h : s.Inv) (hnext : s.next .exit = some t) : t.Inv := by
  obtain ⟨session, hsession, rfl⟩ := Option.map_eq_some_iff.1 hnext
  obtain ⟨mid, hexit, hset⟩ := Option.bind_eq_some_iff.1 hsession
  obtain ⟨hpc, -⟩ := Session.exit_next hexit
  obtain ⟨hvalue, hdirty⟩ := Session.set_next hset
  refine ⟨Session.inv_next (Session.inv_next h.session hexit) hset, ?_, ?_⟩
  · show Faithful (s.values ++ [0]) s.injected session.client.impl.pendingValue session.client.impl.valueDirty
    rw [hvalue, hdirty]
    exact h.cell.put 0
  · intro hloop
    have hmid := Session.inLoop_next hset hloop
    rw [hpc] at hmid
    cases hmid

/-- **The invariant of a run.** -/
theorem inv_next {e : RunEvent α} (h : s.Inv) (hnext : s.next e = some t) : t.Inv := by
  cases e with
  | call e =>
    cases e with
    | setDetectValue value => cases hnext
    | _ =>
      obtain ⟨session, hsession, rfl⟩ := Option.map_eq_some_iff.1 hnext
      exact inv_call h (by nofun) hsession
  | tick i => exact inv_tick h hnext
  | exit => exact inv_exit h hnext

/-- **The detect value is a latest-value cell** from the loop to the socket: after each tick the client holds the value
of the tick, an inject carries the newest value, the injects are in the order of the values, and a clean client has
handed out the value that it holds. -/
theorem detect_cell {modelReadyFlag : Bool} {created now : Int} {host port : String} {es : List (RunEvent α)}
    (h : execute next (new α modelReadyFlag created host port now) es = some s) :
    (∀ i t, s.next (.tick i) = some t → t.session.client.impl.pendingValue = t.loop.vtsValue) ∧
    (∀ n x, (n, x) ∈ s.injected → (s.values.take n).getLast? = some x) ∧
    s.injected.Pairwise (fun p q => p.1 ≤ q.1) ∧
    (s.values ≠ [] → s.session.client.impl.valueDirty = false →
      (s.injected.map Prod.snd).getLast? = some s.session.client.impl.pendingValue) := by
  have hinv : s.Inv := execute_inv (fun _ _ _ => inv_next) (inv_new modelReadyFlag created host port now) h
  refine ⟨?_, ?_, hinv.cell.ordered, hinv.cell.clean⟩
  · intro i t hnext
    have hcell := (inv_tick hinv hnext).cell
    obtain ⟨-, session, -, rfl⟩ := next_tick hnext
    obtain hlast | ⟨hnil, -⟩ := hcell.holds
    · rw [List.getLast?_concat] at hlast
      exact (Option.some.inj hlast).symm
    · simp at hnil
  · intro n x hx
    exact (hinv.cell.newest n x hx).2

end Steps

/-! ## A value and a registration -/

/-- A tick without audio. -/
def quiet : TickInput ℚ where
  now := 1000
  blocks := []
  windowRms := 0
  harvest := none
  ready := false
  inFlight := false
  stillInFlight := false
  failed := false

/-- The link becomes Ready, and the value of the first tick is written. -/
def valueRun : List (RunEvent ℚ) :=
  linkUp.tail.map .call ++ [.tick quiet, .call (.pump 0), .call (.complete 1 (succeeds none)), .call .pollEnd]

/-- A registration is written after it. -/
def registeringRun : List (RunEvent ℚ) := valueRun ++ [.call .requestRegister, .tick quiet, .call (.pump 0)]

theorem detect_cell_value : ∃ s t, execute next (new ℚ true 0 "localhost" "8001" 0) valueRun = some s ∧
    s.next (.tick quiet) = some t ∧ t.session.client.impl.pendingValue = t.loop.vtsValue ∧
      (s.values.take 1).getLast? = some 0 ∧
        (s.injected.map Prod.snd).getLast? = some s.session.client.impl.pendingValue := by
  obtain ⟨s, hs, heq⟩ := Option.map_eq_some_iff.1 (show
    (execute next (new ℚ true 0 "localhost" "8001" 0) valueRun).map
      (fun s => (s.values, s.injected, s.session.client.impl.valueDirty)) = some ([0], [(1, 0)], false)
      by decide +kernel)
  simp only [Prod.mk.injEq] at heq
  obtain ⟨hvalues, hinjected, hclean⟩ := heq
  obtain ⟨t, ht⟩ := Option.isSome_iff_exists.1 (show
    (execute next (new ℚ true 0 "localhost" "8001" 0) (valueRun ++ [.tick quiet])).isSome = true by decide +kernel)
  have hnext : s.next (.tick quiet) = some t := execute_of_snoc ht hs
  obtain ⟨hpending, hnewest, -, hlast⟩ := detect_cell hs
  exact ⟨s, t, hs, hnext, hpending quiet t hnext, hnewest 1 0 (by rw [hinjected]; exact List.mem_singleton_self _),
    hlast (by rw [hvalues]; nofun) hclean⟩

/-- After the registration the last request carries no value. -/
theorem detect_cell_registering : ¬ ∀ (es : List (RunEvent ℚ)) (s : AnalysisRun ℚ),
    execute next (new ℚ true 0 "localhost" "8001" 0) es = some s → s.values ≠ [] →
      s.session.client.impl.valueDirty = false →
        (s.handed.map Prod.snd).getLast? = some (.injectParameterData s.session.client.impl.pendingValue) := by
  intro hall
  obtain ⟨s, hs, heq⟩ := Option.map_eq_some_iff.1 (show
    (execute next (new ℚ true 0 "localhost" "8001" 0) registeringRun).map
      (fun s => (s.values, s.session.client.impl.valueDirty, (s.handed.map Prod.snd).getLast?)) =
      some ([0, 0], false, some .parameterCreation) by decide +kernel)
  simp only [Prod.mk.injEq] at heq
  obtain ⟨hvalues, hclean, hlast⟩ := heq
  have hcarried := hall registeringRun s hs (by rw [hvalues]; nofun) hclean
  rw [hlast] at hcarried
  cases hcarried

end AnalysisRun

end Bajiru.Linkjiru
