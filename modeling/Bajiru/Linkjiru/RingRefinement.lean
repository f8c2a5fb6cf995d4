import Bajiru.Runs
import Bajiru.Linkjiru.SharedRingBuffer

/-!
# The ring refines an append-only log

Clients of a ring write blocks, open cursors at `0` or at `getWriteCount()`, read through them and take snapshots
(`Call`), each operation run whole. The log of the same calls (`AppendLog`) keeps every sample, and its reads say what
the ring's should deliver: from the cursor, or from the oldest of the newest `Capacity` samples.

While the counter cannot wrap, the ring gives the replies of the log (`perform_sim`), and the reads of one cursor are a
path through the log whose gaps are the reported overruns (`Gapped`).
-/

namespace Bajiru.Linkjiru

open SharedRingBuffer

variable {α : Type*} [Zero α] {C : Capacity}

/-- A call on the ring. A snapshot is allowed `retries + 1` attempts. -/
inductive Call (α : Type*)
  | write (data : List α)
  | openZero
  | openNow
  | read (reader : Nat) (dest : Mem α) (maxSamples : IntNat)
  | readLastN (dest : Mem α) (n retries : Nat)
  | getWriteCount

/-- What a call returns: the samples are the slots of the destination that the call filled. -/
inductive Reply (α : Type*)
  | done
  | read (samples : List α) (overrun : Bool)
  | window (ok : Bool) (dest : List α)
  | count (n : Nat)

/-- The samples of a sequence of calls, in the order they are written. -/
def written : List (Call α) → List α
  | [] => []
  | .write data :: cs => data ++ written cs
  | _ :: cs => written cs

/-! ## The ring and its cursors -/

/-- A ring and the cursors of its readers. -/
structure RingClients (α : Type*) (C : Capacity) where
  ring : SharedRingBuffer α C
  cursors : List UInt64

/-- A new ring, before any cursor is opened. -/
def RingClients.new (α : Type*) [Zero α] (C : Capacity) : RingClients α C := ⟨SharedRingBuffer.new α C, []⟩

/-- One call on the ring; reading through a cursor that was not opened is not a call. -/
def ringCall (s : RingClients α C) : Call α → Option (RingClients α C × Reply α)
  | .write data => some ({ s with ring := s.ring.write data }, .done)
  | .openZero => some ({ s with cursors := s.cursors ++ [0] }, .done)
  | .openNow => some ({ s with cursors := s.cursors ++ [s.ring.getWriteCount] }, .done)
  | .read reader dest maxSamples =>
    s.cursors[reader]?.map fun cursor =>
      let res := s.ring.read dest maxSamples cursor
      ({ s with cursors := s.cursors.set reader res.2.2 },
        .read ((List.range res.1.samplesRead).map res.2.1) res.1.overrun)
  | .readLastN dest n retries =>
    let res := s.ring.readLastN dest n (retries + 1)
    some (s, .window res.1 ((List.range (min n C.val)).map res.2))
  | .getWriteCount => some (s, .count s.ring.getWriteCount.toNat)

/-! ## The log -/

/-- Every sample ever written, and how far each reader has come. -/
structure AppendLog (α : Type*) where
  history : List α
  cursors : List Nat

/-- One call on the log of a ring of capacity `C`. -/
def logCall (C : Capacity) (l : AppendLog α) : Call α → Option (AppendLog α × Reply α)
  | .write data => some ({ l with history := l.history ++ data }, .done)
  | .openZero => some ({ l with cursors := l.cursors ++ [0] }, .done)
  | .openNow => some ({ l with cursors := l.cursors ++ [l.history.length] }, .done)
  | .read reader _ maxSamples =>
    l.cursors[reader]?.map fun c =>
      let c' := max c (l.history.length - C.val)
      let k := min maxSamples.val (l.history.length - c')
      ({ l with cursors := l.cursors.set reader (c' + k) },
        .read ((l.history.drop c').take k) (decide (c < c')))
  | .readLastN _ n _ => some (l, .window true (window l.history (min n C.val) l.history.length))
  | .getWriteCount => some (l, .count l.history.length)

/-- A read of the log through an open cursor. -/
theorem logCall_read {l : AppendLog α} {r c : Nat} (h : l.cursors[r]? = some c) (dest : Mem α) (m : IntNat) :
    logCall C l (.read r dest m) =
      some (⟨l.history, l.cursors.set r
          (max c (l.history.length - C.val) + min m.val (l.history.length - max c (l.history.length - C.val)))⟩,
        .read ((l.history.drop (max c (l.history.length - C.val))).take
            (min m.val (l.history.length - max c (l.history.length - C.val))))
          (decide (c < max c (l.history.length - C.val)))) := by
  simp only [logCall, h, Option.map_some]

/-- The ring represents the log, its cursors are the log's, and no cursor is ahead of the log. -/
structure Refines (s : RingClients α C) (l : AppendLog α) : Prop where
  ring : s.ring.Represents l.history
  cursors : s.cursors.map UInt64.toNat = l.cursors
  behind : ∀ c ∈ l.cursors, c ≤ l.history.length

theorem Refines.new : Refines (RingClients.new α C) ⟨[], []⟩ := ⟨represents_new, rfl, by simp⟩

omit [Zero α] in
/-- The cursor of a reader in the ring and in the log. -/
theorem Refines.cursor {s : RingClients α C} {l : AppendLog α} (h : Refines s l) (r : Nat) :
    l.cursors[r]? = s.cursors[r]?.map UInt64.toNat := by
  rw [← h.cursors, List.getElem?_map]

/-- **One call.** The ring replies as the log does. -/
theorem ringCall_sim {s s' : RingClients α C} {l : AppendLog α} {c : Call α} {r : Reply α} (h : Refines s l)
    (htot : (l.history ++ written [c]).length + C.val < 2 ^ 64) (hs : ringCall s c = some (s', r)) :
    ∃ l', logCall C l c = some (l', r) ∧ Refines s' l' ∧ l'.history = l.history ++ written [c] := by
  have hC := C.lt
  rw [List.length_append] at htot
  cases c with
  | write data =>
    cases hs
    refine ⟨_, rfl, ⟨represents_write h.ring data, h.cursors, fun c hc => ?_⟩, by simp [written]⟩
    have := h.behind c hc
    rw [List.length_append]; omega
  | openZero =>
    cases hs
    refine ⟨_, rfl, ⟨h.ring, by simp [h.cursors], fun c hc => ?_⟩, by simp [written]⟩
    rcases List.mem_append.1 hc with hc | hc
    · exact h.behind c hc
    · rw [List.mem_singleton.1 hc]; exact Nat.zero_le _
  | openNow =>
    cases hs
    have hw : s.ring.writeCount.toNat = l.history.length := by rw [h.ring.count]; omega
    refine ⟨_, rfl, ⟨h.ring, by simp [h.cursors, getWriteCount, hw], fun c hc => ?_⟩, by simp [written]⟩
    rcases List.mem_append.1 hc with hc | hc
    · exact h.behind c hc
    · rw [List.mem_singleton.1 hc]
  | read reader dest m =>
    simp only [ringCall, Option.map_eq_some_iff, Prod.mk.injEq] at hs
    obtain ⟨cursor, hcur, rfl, rfl⟩ := hs
    have hlc : l.cursors[reader]? = some cursor.toNat := by rw [h.cursor, hcur]; rfl
    have hle := h.behind _ (List.mem_of_getElem? hlc)
    obtain ⟨hd, hover⟩ := read_spec h.ring rfl hle (by omega) m.property dest
    have hlog := logCall_read (C := C) hlc dest m
    rw [← hd.samples, ← hover] at hlog
    refine ⟨_, hlog, ⟨h.ring, ?_, fun c hc => ?_⟩, by simp [written]⟩
    · have hk := hd.cursor
      rw [Nat.mod_eq_of_lt (by omega)] at hk
      simp only [List.map_set, h.cursors, hk]
    · rcases List.mem_or_eq_of_mem_set hc with hc | rfl
      · exact h.behind c hc
      · dsimp only; omega
  | readLastN dest n retries =>
    cases hs
    obtain ⟨hok, hwin, -⟩ := readLastN_spec h.ring (by omega) n retries dest
    refine ⟨l, ?_, h, by simp [written]⟩
    simp only [logCall, hok, hwin]
  | getWriteCount =>
    cases hs
    have hw : s.ring.writeCount.toNat = l.history.length := by rw [h.ring.count]; omega
    exact ⟨l, by simp only [logCall, getWriteCount, hw], h, by simp [written]⟩

omit [Zero α] in
theorem written_cons (c : Call α) (cs : List (Call α)) : written (c :: cs) = written [c] ++ written cs := by
  cases c <;> simp [written]

omit [Zero α] in
theorem written_append (cs cs' : List (Call α)) : written (cs ++ cs') = written cs ++ written cs' := by
  induction cs with
  | nil => rfl
  | cons c cs ih => rw [List.cons_append, written_cons, written_cons c cs, ih, List.append_assoc]

/-- **A sequence of calls.** -/
theorem perform_sim {s s' : RingClients α C} {l : AppendLog α} {cs : List (Call α)} {rs : List (Reply α)}
    (h : Refines s l) (htot : (l.history ++ written cs).length + C.val < 2 ^ 64)
    (hs : perform ringCall s cs = some (s', rs)) :
    ∃ l', perform (logCall C) l cs = some (l', rs) ∧ Refines s' l' ∧ l'.history = l.history ++ written cs := by
  induction cs generalizing s l rs with
  | nil =>
    cases hs
    exact ⟨l, rfl, h, by simp [written]⟩
  | cons c cs ih =>
    obtain ⟨t, r, rs', hstep, hrest, rfl⟩ := perform_cons_some hs
    rw [written_cons, ← List.append_assoc] at htot
    obtain ⟨l₁, hlog, hr₁, hw₁⟩ := ringCall_sim h (by rw [List.length_append] at htot; omega) hstep
    obtain ⟨l', hlogs, hr', hw'⟩ := ih hr₁ (by rw [hw₁]; exact htot) hrest
    refine ⟨l', perform_cons hlog hlogs, hr', ?_⟩
    rw [hw', hw₁, written_cons c cs, List.append_assoc]

/-! ## The reads of one cursor -/

/-- The reads of reader `r` in a sequence of calls: what they delivered and whether they reported an overrun. -/
def readsOf (r : Nat) : List (Call α) → List (Reply α) → List (List α × Bool)
  | .read reader _ _ :: cs, .read samples overrun :: rs =>
    if reader = r then (samples, overrun) :: readsOf r cs rs else readsOf r cs rs
  | _ :: cs, _ :: rs => readsOf r cs rs
  | _, _ => []

/-- Reads that walk through the history `h` from `c` to `e`: a read leaves a gap exactly when it reports an overrun,
and delivers the samples behind it. -/
inductive Gapped (h : List α) : Nat → List (List α × Bool) → Nat → Prop
  | nil (c : Nat) : Gapped h c [] c
  | cons {c c' k e : Nat} {overrun : Bool} {reads : List (List α × Bool)} : c ≤ c' → (overrun = true ↔ c < c') →
      c' + k ≤ h.length → Gapped h (c' + k) reads e → Gapped h c (((h.drop c').take k, overrun) :: reads) e

omit [Zero α] in
/-- The samples of a read are those of every longer history. -/
theorem Gapped.read {h h' : List α} (hpre : h <+: h') {c c' k e : Nat} {overrun : Bool}
    {reads : List (List α × Bool)} (hle : c ≤ c') (hov : overrun = true ↔ c < c') (hk : c' + k ≤ h.length)
    (hrest : Gapped h' (c' + k) reads e) : Gapped h' c (((h.drop c').take k, overrun) :: reads) e := by
  obtain ⟨x, rfl⟩ := hpre
  have hsame : (h.drop c').take k = ((h ++ x).drop c').take k := by
    rw [List.drop_append_of_le_length (by omega), List.take_append_of_le_length (by rw [List.length_drop]; omega)]
  rw [hsame]
  exact .cons hle hov (by rw [List.length_append]; omega) hrest

/-- The log of a sequence of calls only grows. -/
theorem logCall_history {l l' : AppendLog α} {c : Call α} {r : Reply α} (h : logCall C l c = some (l', r)) :
    l.history <+: l'.history := by
  cases c with
  | write data => cases h; exact List.prefix_append _ _
  | read reader dest m =>
    simp only [logCall, Option.map_eq_some_iff, Prod.mk.injEq] at h
    obtain ⟨c, _, rfl, _⟩ := h
    exact List.prefix_rfl
  | _ => cases h; exact List.prefix_rfl

theorem perform_history {l l' : AppendLog α} {cs : List (Call α)} {rs : List (Reply α)}
    (h : perform (logCall C) l cs = some (l', rs)) : l.history <+: l'.history := by
  induction cs generalizing l rs with
  | nil => cases h; exact List.prefix_rfl
  | cons c cs ih =>
    obtain ⟨t, r, rs', hstep, hrest, rfl⟩ := perform_cons_some h
    exact (logCall_history hstep).trans (ih hrest)

/-- **The reads of a cursor are a path through the log**, from where the cursor is to where it ends. -/
theorem perform_gapped {l l' : AppendLog α} {cs : List (Call α)} {rs : List (Reply α)}
    (h : perform (logCall C) l cs = some (l', rs)) (hb : ∀ c ∈ l.cursors, c ≤ l.history.length) {r c : Nat}
    (hc : l.cursors[r]? = some c) :
    ∃ c', l'.cursors[r]? = some c' ∧ Gapped l'.history c (readsOf r cs rs) c' := by
  induction cs generalizing l rs c with
  | nil =>
    cases h
    exact ⟨c, hc, .nil c⟩
  | cons call cs ih =>
    obtain ⟨t, reply, rs', hstep, hrest, rfl⟩ := perform_cons_some h
    have hlt : r < l.cursors.length := (List.getElem?_eq_some_iff.1 hc).1
    cases call with
    | write data =>
      cases hstep
      have hb' : ∀ c ∈ l.cursors, c ≤ (l.history ++ data).length := fun c hc => by
        have := hb c hc
        rw [List.length_append]; omega
      simpa [readsOf] using ih hrest hb' hc
    | openZero =>
      cases hstep
      simpa [readsOf] using ih hrest (by simpa [or_imp, forall_and] using hb)
        (by simpa [List.getElem?_append_left hlt] using hc)
    | openNow =>
      cases hstep
      simpa [readsOf] using ih hrest (by simpa [or_imp, forall_and] using hb)
        (by simpa [List.getElem?_append_left hlt] using hc)
    | readLastN dest n retries =>
      cases hstep
      simpa [readsOf] using ih hrest hb hc
    | getWriteCount =>
      cases hstep
      simpa [readsOf] using ih hrest hb hc
    | read reader dest m =>
      simp only [logCall, Option.map_eq_some_iff, Prod.mk.injEq] at hstep
      obtain ⟨c₀, hc₀, rfl, rfl⟩ := hstep
      have hle := hb c₀ (List.mem_of_getElem? hc₀)
      set c' := max c₀ (l.history.length - C.val) with hc'
      have hb' : ∀ c ∈ l.cursors.set reader (c' + min m.val (l.history.length - c')), c ≤ l.history.length := by
        intro c hc
        rcases List.mem_or_eq_of_mem_set hc with hc | rfl
        · exact hb c hc
        · omega
      by_cases hr : reader = r
      · subst hr
        rw [hc] at hc₀
        cases hc₀
        obtain ⟨e, he, hg⟩ := ih hrest hb' (List.getElem?_set_self hlt)
        refine ⟨e, he, ?_⟩
        rw [readsOf, if_pos rfl]
        exact .read (perform_history hrest) (by omega) (by rw [decide_eq_true_iff])
          (show c' + min m.val (l.history.length - c') ≤ l.history.length by omega) hg
      · rw [readsOf, if_neg hr]
        exact ih hrest hb' (by rw [List.getElem?_set_ne hr]; exact hc)

/-- **The ring refines the append-only log.** While fewer than `2 ^ 64 - Capacity` samples are written, calls on the
ring reply as the same calls on the log, the counter is the length of the log, no cursor passes it, and from any point
of the run on the reads of a cursor are a path through the log with gaps exactly at the reported overruns. -/
theorem ring_refines_log {cs₁ cs₂ : List (Call α)} (htot : (written (cs₁ ++ cs₂)).length < 2 ^ 64 - C.val)
    {s₁ s₂ : RingClients α C} {rs₁ rs₂ : List (Reply α)}
    (h₁ : perform ringCall (RingClients.new α C) cs₁ = some (s₁, rs₁))
    (h₂ : perform ringCall s₁ cs₂ = some (s₂, rs₂)) :
    ∃ l₁ l₂ : AppendLog α, perform (logCall C) ⟨[], []⟩ cs₁ = some (l₁, rs₁) ∧
      perform (logCall C) l₁ cs₂ = some (l₂, rs₂) ∧
      l₂.history = written (cs₁ ++ cs₂) ∧ s₂.ring.getWriteCount.toNat = l₂.history.length ∧
      s₂.cursors.map UInt64.toNat = l₂.cursors ∧ (∀ c ∈ l₂.cursors, c ≤ l₂.history.length) ∧
      ∀ r c, l₁.cursors[r]? = some c →
        ∃ c', l₂.cursors[r]? = some c' ∧ Gapped l₂.history c (readsOf r cs₂ rs₂) c' := by
  have hC := C.lt
  have hlen := congrArg List.length (written_append cs₁ cs₂)
  rw [List.length_append] at hlen
  obtain ⟨l₁, hl₁, hr₁, hw₁⟩ := perform_sim Refines.new (by simp only [List.nil_append]; omega) h₁
  rw [List.nil_append] at hw₁
  obtain ⟨l₂, hl₂, hr₂, hw₂⟩ := perform_sim hr₁ (by rw [hw₁, ← written_append]; omega) h₂
  rw [hw₁, ← written_append] at hw₂
  refine ⟨l₁, l₂, hl₁, hl₂, hw₂, ?_, hr₂.cursors, hr₂.behind, fun r c => perform_gapped hl₂ hr₁.behind⟩
  rw [getWriteCount, hr₂.ring.count, hw₂]; omega

/-- Six samples through a ring of four: the reader is lapped and goes on from the oldest live sample. -/
theorem ring_refines_log_lapped : ∃ l₁ l₂ : AppendLog Nat,
    perform (logCall capacity4) ⟨[], []⟩ [.openZero] = some (l₁, [.done]) ∧
      perform (logCall capacity4) l₁ [.write [1, 2, 3, 4, 5, 6], .read 0 (fun _ => 0) ⟨3, by decide⟩] =
        some (l₂, [.done, .read [3, 4, 5] true]) ∧
      l₂.history = [1, 2, 3, 4, 5, 6] ∧ Gapped l₂.history 0 [([3, 4, 5], true)] 5 := by
  obtain ⟨l₁, l₂, h₁, h₂, hw, -, hcur, -, hg⟩ := ring_refines_log (C := capacity4) (α := Nat)
    (show (written [Call.openZero, .write [1, 2, 3, 4, 5, 6], .read 0 (fun _ => 0) ⟨3, by decide⟩]).length
      < 2 ^ 64 - capacity4.val by decide)
    (show perform ringCall (RingClients.new Nat capacity4) [.openZero] = some (_, [.done]) from rfl)
    (show perform ringCall _ [.write [1, 2, 3, 4, 5, 6], .read 0 (fun _ => 0) ⟨3, by decide⟩] =
      some (_, [.done, .read [3, 4, 5] true]) from rfl)
  cases h₁
  obtain ⟨c', hc', hg⟩ := hg 0 0 rfl
  cases h₂
  exact ⟨_, _, rfl, rfl, rfl, by cases hc'; exact hg⟩

end Bajiru.Linkjiru
