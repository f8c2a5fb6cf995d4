import Bajiru.PitchMath.Rolling

/-!
# The order of the results

One background thread assigns its results in the order of its copies, so the newest result never falls behind an older
one. `stop` waits for the thread, but only for two seconds: a thread that is still analysing then goes on, and after
another `start` it runs beside the new one. As long as every join returns because the thread has ended, and `start` is
not called twice in a row, there is one thread, and no result comes after `stop`. After a join that timed out each
thread that was left assigns one result at most, until the next `start`.
-/

namespace Bajiru.PitchMath

variable {α β : Type*} {n : Nat} {p : Params α β}

/-- In the loop of the background thread. -/
def Pc.listening : Pc α β → Bool
  | check | sleeping | acquiring | measuring | copying _ | analysing .. | assigning .. => true
  | _ => false

/-- In the body of that loop. -/
def Pc.busy : Pc α β → Bool
  | sleeping | acquiring | measuring | copying _ | analysing .. | assigning .. => true
  | _ => false

/-- The number of the blocks before the copy that is analysed. -/
def Pc.pending? : Pc α β → Option Nat
  | analysing m _ | assigning m _ => some m
  | _ => none

theorem Pc.listening_of_pending {pc : Pc α β} {m : Nat} (h : pc.pending? = some m) : pc.listening = true := by
  cases pc <;> first | rfl | cases h

theorem Pc.listening_of_busy {pc : Pc α β} (h : pc.busy = true) : pc.listening = true := by
  cases pc <;> first | rfl | cases h

namespace Rolling

variable {s t : Rolling α β n} {i : Nat} {pc q : Pc α β}

/-- `start` is not called while the object runs, and no join times out. -/
def Joined (s : Rolling α β n) : Event α → Prop
  | .start => s.running = false
  | .owner timedOut => s.owner = .joining → timedOut = false
  | _ => True

instance (s : Rolling α β n) : ∀ e : Event α, Decidable (s.Joined e)
  | .start => inferInstanceAs (Decidable (s.running = false))
  | .owner timedOut => inferInstanceAs (Decidable (s.owner = .joining → timedOut = false))
  | .stop | .callback .. | .thread .. => isTrue trivial

/-- Only the last thread is in the loop, and none after a join; the results are in the order of their copies, and the
copies that are analysed are not older than a result. -/
structure Fresh (s : Rolling α β n) : Prop where
  single : ∀ (j : Nat) (pc : Pc α β), s.threads[j]? = some pc → pc.listening = true → s.thread = some j
  quiet : s.running = false → s.owner ≠ .joining → ∀ (j : Nat) (pc : Pc α β), s.threads[j]? = some pc →
    pc.listening = false
  stopping : s.owner = .joining ∨ s.owner = .closing → s.running = false
  ordered : s.published.Pairwise fun a b => a.1 ≤ b.1
  pending : ∀ (j : Nat) (pc : Pc α β) (m : Nat), s.threads[j]? = some pc → pc.pending? = some m →
    ∀ r ∈ s.published, r.1 ≤ m

theorem fresh_new (α β : Type*) (n : Nat) : Fresh (new α β n) where
  single j pc h := by simp [new] at h
  quiet _ _ j pc h := by simp [new] at h
  stopping h := by simp [new] at h
  ordered := List.Pairwise.nil
  pending j pc m h := by simp [new] at h

/-- A thread moves on in or out of its loop; the results stay. -/
theorem Fresh.goto (h : s.Fresh) (hi : s.threads[i]? = some pc) (hl : q.listening = true → pc.listening = true)
    (hp : ∀ m, q.pending? = some m → ∀ r ∈ s.published, r.1 ≤ m) (ring : Deque α n) (lock : Option Nat)
    (delivered : List (List α)) :
    Fresh { s.goto i q with ring := ring, lock := lock, delivered := delivered } where
  single j qc hj hq := by
    obtain ⟨rfl, rfl⟩ | ⟨-, hj⟩ := getElem?_set_cases hj
    · exact h.single i pc hi (hl hq)
    · exact h.single j qc hj hq
  quiet hr ho j qc hj := by
    obtain ⟨rfl, rfl⟩ | ⟨-, hj⟩ := getElem?_set_cases hj
    · by_contra hq
      have := h.quiet hr ho i pc hi
      rw [hl (by simpa using hq)] at this
      cases this
    · exact h.quiet hr ho j qc hj
  stopping := h.stopping
  ordered := h.ordered
  pending j qc m hj hm := by
    obtain ⟨rfl, rfl⟩ | ⟨-, hj⟩ := getElem?_set_cases hj
    · exact hp m hm
    · exact h.pending j qc m hj hm

/-- A result is assigned by the one thread that is in the loop. -/
theorem Fresh.assigns (h : s.Fresh) {m : Nat} {result : β} (hi : s.threads[i]? = some (.assigning m result)) :
    Fresh { s.goto i .check with latest := some result, published := s.published ++ [(m, result)] } where
  single := (h.goto (q := .check) hi (fun _ => rfl) (fun _ h => by cases h) s.ring s.lock s.delivered).single
  quiet := (h.goto (q := .check) hi (fun _ => rfl) (fun _ h => by cases h) s.ring s.lock s.delivered).quiet
  stopping := h.stopping
  ordered := by
    refine List.pairwise_append.2 ⟨h.ordered, List.pairwise_singleton _ _, fun r hr q hq => ?_⟩
    obtain rfl := List.mem_singleton.1 hq
    exact h.pending i _ m hi rfl r hr
  pending j qc k hj hk := by
    obtain ⟨rfl, rfl⟩ | ⟨hij, hj⟩ := getElem?_set_cases hj
    · cases hk
    · have hsame := (h.single i _ hi rfl).symm.trans (h.single j qc hj (Pc.listening_of_pending hk))
      exact absurd (Option.some.inj hsame) hij

/-- A step of a thread. The copy that ends now is the newest of all. -/
theorem fresh_step {elapsedMs : ℚ} (hinv : s.Inv p) (h : s.Fresh) (hi : s.threads[i]? = some pc)
    (hs : s.step p i elapsedMs pc = some t) : t.Fresh := by
  cases pc with
  | closed | opened | ended => cases hs
  | arrived block =>
    obtain ⟨-, hs⟩ := Option.ite_none_right_eq_some.1 hs
    cases hs
    exact h.goto hi (fun h => by cases h) (fun _ h => by cases h) _ _ _
  | extending block k =>
    simp only [step] at hs
    split at hs <;> cases hs
    · exact h.goto hi (fun h => by cases h) (fun _ h => by cases h) _ _ _
    · exact h.goto hi (fun h => by cases h) (fun _ h => by cases h) _ _ _
  | check =>
    cases hs
    cases s.running
    · exact h.goto hi (fun _ => rfl) (fun _ h => by cases h) s.ring s.lock s.delivered
    · exact h.goto hi (fun _ => rfl) (fun _ h => by cases h) s.ring s.lock s.delivered
  | sleeping =>
    cases hs
    exact h.goto hi (fun _ => rfl) (fun _ h => by cases h) s.ring s.lock s.delivered
  | acquiring =>
    obtain ⟨-, hs⟩ := Option.ite_none_right_eq_some.1 hs
    cases hs
    exact h.goto hi (fun _ => rfl) (fun _ h => by cases h) _ _ _
  | measuring =>
    simp only [step] at hs
    split at hs <;> cases hs
    · exact h.goto hi (fun _ => rfl) (fun _ h => by cases h) _ _ _
    · exact h.goto hi (fun _ => rfl) (fun _ h => by cases h) s.ring s.lock s.delivered
  | copying audio =>
    simp only [step] at hs
    split at hs <;> cases hs
    · exact h.goto hi (fun _ => rfl) (fun _ h => by cases h) s.ring s.lock s.delivered
    · refine h.goto hi (fun _ => rfl) (fun m hm r hr => ?_) _ _ _
      obtain rfl := Option.some.inj hm
      obtain ⟨audio, _, hw, -⟩ := hinv.results r hr
      exact hw.blocks
  | analysing m audio =>
    have hpending := h.pending i _ m hi rfl
    simp only [step] at hs
    split at hs <;> cases hs
    · refine h.goto hi (fun _ => rfl) (fun k hk => ?_) s.ring s.lock s.delivered
      obtain rfl := Option.some.inj hk
      exact hpending
    · exact h.goto hi (fun _ => rfl) (fun _ h => by cases h) s.ring s.lock s.delivered
  | assigning m result =>
    cases hs
    exact h.assigns hi

/-- A thread is started outside the loop. -/
theorem Fresh.spawn (h : s.Fresh) (hl : pc.listening = false) (stream : Option Nat) (owner : OwnerPc)
    (howner : owner ≠ .joining ∧ s.owner ≠ .joining ∧ owner ≠ .closing) :
    Fresh { s with stream := stream, threads := s.threads ++ [pc], owner := owner } where
  single j qc hj hq := by
    obtain hj | rfl := getElem?_concat_cases hj
    · exact h.single j qc hj hq
    · rw [hl] at hq
      cases hq
  quiet hr _ j qc hj := by
    obtain hj | rfl := getElem?_concat_cases hj
    · exact h.quiet hr howner.2.1 j qc hj
    · exact hl
  stopping ho := absurd ho (not_or.2 ⟨howner.1, howner.2.2⟩)
  ordered := h.ordered
  pending j qc m hj hm := by
    obtain hj | rfl := getElem?_concat_cases hj
    · exact h.pending j qc m hj hm
    · rw [Pc.listening_of_pending hm] at hl
      cases hl

/-- `start`, when no thread is in the loop. -/
theorem Fresh.start (h : s.Fresh) (hr : s.running = false) (ho : s.owner = .idle) :
    Fresh { s with
      running := true, thread := some s.threads.length, threads := s.threads ++ [.check], owner := .starting }
    where
  single j qc hj hq := by
    obtain hlt | hge := Nat.lt_or_ge j s.threads.length
    · rw [List.getElem?_append_left hlt] at hj
      rw [h.quiet hr (by simp [ho]) j qc hj] at hq
      cases hq
    · obtain ⟨hlt, -⟩ := List.getElem?_eq_some_iff.1 hj
      rw [List.length_append, List.length_singleton] at hlt
      exact congrArg some (by omega)
  quiet hr' := by cases hr'
  stopping ho' := by simp at ho'
  ordered := h.ordered
  pending j qc m hj hm := by
    obtain hj | rfl := getElem?_concat_cases hj
    · exact h.pending j qc m hj hm
    · cases hm

/-- The owner goes on with nothing in the loop. -/
theorem Fresh.owner (h : s.Fresh) (owner : OwnerPc) (hr : owner = .joining ∨ owner = .closing → s.running = false)
    (hquiet : s.running = false → ∀ (j : Nat) (pc : Pc α β), s.threads[j]? = some pc → pc.listening = false) :
    Fresh { s with owner := owner } :=
  ⟨h.single, fun hr _ => hquiet hr, hr, h.ordered, h.pending⟩

theorem fresh_ownerStep {timedOut : Bool} (h : s.Fresh) (hG : s.owner = .joining → timedOut = false)
    (hs : s.ownerStep timedOut = some t) : t.Fresh := by
  cases howner : s.owner with
  | idle => simp [ownerStep, howner] at hs
  | starting =>
    simp only [ownerStep, howner] at hs
    cases hs
    exact h.spawn rfl _ _ ⟨by simp, by simp [howner], by simp⟩
  | joining =>
    have hr : s.running = false := h.stopping (.inl howner)
    obtain rfl := hG howner
    simp only [ownerStep, howner] at hs
    split at hs
    · next hthread =>
      cases hs
      refine h.owner _ (fun _ => hr) fun _ j pc hj => ?_
      by_contra hl
      have := h.single j pc hj (by simpa using hl)
      rw [hthread] at this
      cases this
    · next i hthread =>
      split at hs <;> cases hs
      · next hend =>
        -- the thread that was joined has ended, and it was the only one in the loop
        refine h.owner _ (fun _ => hr) fun _ j pc hj => ?_
        by_contra hl
        have hj' := h.single j pc hj (by simpa using hl)
        obtain rfl := Option.some.inj (hthread.symm.trans hj')
        obtain rfl := Option.some.inj (hend.symm.trans hj)
        exact hl rfl
      · next hfalse _ => cases hfalse
  | closing =>
    have hr : s.running = false := h.stopping (.inr howner)
    have hquiet := h.quiet hr (by simp [howner])
    simp only [ownerStep, howner] at hs
    split at hs
    · cases hs
      exact h.owner _ (by simp) fun _ => hquiet
    · split at hs
      · next hi =>
        cases hs
        have hgoto := h.goto (q := .closed) hi (fun h => by cases h) (fun _ h => by cases h) s.ring s.lock s.delivered
        exact hgoto.owner _ (by simp) fun _ => hgoto.quiet hr (by simp [Rolling.goto, howner])
      · next hi =>
        cases hs
        have hgoto := h.goto (q := .closed) hi (fun h => by cases h) (fun _ h => by cases h) s.ring s.lock s.delivered
        exact hgoto.owner _ (by simp) fun _ => hgoto.quiet hr (by simp [Rolling.goto, howner])
      · cases hs

theorem fresh_next {e : Event α} (hinv : s.Inv p) (h : s.Fresh) (hG : s.Joined e) (hs : s.next p e = some t) :
    t.Fresh := by
  cases e with
  | start =>
    obtain ⟨ho, hs⟩ := Option.ite_none_right_eq_some.1 hs
    cases hs
    exact h.start hG ho
  | stop =>
    obtain ⟨ho, hs⟩ := Option.ite_none_right_eq_some.1 hs
    cases hs
    exact ⟨h.single, fun _ ho => absurd rfl ho, fun _ => rfl, h.ordered, h.pending⟩
  | owner timedOut => exact fresh_ownerStep h hG hs
  | callback i block =>
    simp only [next] at hs
    split at hs
    · next hi =>
      cases hs
      exact h.goto hi (fun h => by cases h) (fun _ h => by cases h) s.ring s.lock s.delivered
    · cases hs
  | thread i elapsedMs =>
    obtain ⟨pc, hi, hs⟩ := Option.bind_eq_some_iff.1 hs
    exact fresh_step hinv h hi hs

theorem fresh_execute {es : List (Event α)} (h : execute (next p) (new α β n) es = some s)
    (hG : Along (next p) Joined (new α β n) es) : s.Fresh :=
  (execute_inv_along (P := fun s : Rolling α β n => s.Inv p ∧ s.Fresh)
    (fun _ _ _ hp hG hs => ⟨inv_next hp.1 hs, fresh_next hp.1 hp.2 hG hs⟩) ⟨inv_new p n, fresh_new α β n⟩ hG h).2

/-! ## After `stop` -/

/-- A thread is in the body of the loop. -/
def Busy (s : Rolling α β n) (i : Nat) : Prop := ∃ pc, s.threads[i]? = some pc ∧ pc.busy = true

/-- The thread and the result, if the event assigns one. -/
def assigned? (s : Rolling α β n) : Event α → Option (Nat × β)
  | .thread i _ =>
    match s.threads[i]? with
    | some (.assigning _ result) => some (i, result)
    | _ => none
  | _ => none

/-- The threads and the results that they assign in a run. -/
def assignments (p : Params α β) (s : Rolling α β n) : List (Event α) → List (Nat × β)
  | [] => []
  | e :: es =>
    match s.next p e with
    | some t => (s.assigned? e).toList ++ t.assignments p es
    | none => []

/-- What happens while the object is stopped: no further thread enters the body of the loop, and the results are of
threads that were in it and have left it. -/
structure Winds (s t : Rolling α β n) (results : List (Nat × β)) : Prop where
  running : t.running = false
  published : t.published.map Prod.snd = s.published.map Prod.snd ++ results.map Prod.snd
  busy : ∀ i, t.Busy i → s.Busy i
  left : ∀ a ∈ results, s.Busy a.1 ∧ ¬t.Busy a.1
  once : (results.map Prod.fst).Nodup

theorem Winds.refl (hr : s.running = false) : Winds s s [] where
  running := hr
  published := by simp
  busy _ h := h
  left := by simp
  once := List.nodup_nil

theorem Winds.trans {u : Rolling α β n} {results results' : List (Nat × β)} (h : Winds s t results)
    (h' : Winds t u results') : Winds s u (results ++ results') where
  running := h'.running
  published := by rw [h'.published, h.published, List.map_append, List.append_assoc]
  busy i hi := h.busy i (h'.busy i hi)
  left a ha := by
    obtain ha | ha := List.mem_append.1 ha
    · exact ⟨(h.left a ha).1, fun hu => (h.left a ha).2 (h'.busy _ hu)⟩
    · exact ⟨h.busy _ (h'.left a ha).1, (h'.left a ha).2⟩
  once := by
    rw [List.map_append]
    refine List.nodup_append.2 ⟨h.once, h'.once, fun i hi j hj hij => ?_⟩
    -- a thread of the second part is still in the body after the first
    obtain ⟨a, ha, rfl⟩ := List.mem_map.1 hi
    obtain ⟨b, hb, rfl⟩ := List.mem_map.1 hj
    exact (h.left a ha).2 (hij ▸ (h'.left b hb).1)

/-- No thread enters the body of the loop. -/
theorem busy_goto (hi : s.threads[i]? = some pc) (ht : t.threads = s.threads.set i q)
    (hb : q.busy = true → pc.busy = true) {j : Nat} (hj : t.Busy j) : s.Busy j := by
  obtain ⟨qc, hj, hq⟩ := hj
  rw [ht] at hj
  obtain ⟨rfl, rfl⟩ | ⟨-, hj⟩ := getElem?_set_cases hj
  · exact ⟨pc, hi, hb hq⟩
  · exact ⟨qc, hj, hq⟩

/-- A thread moves on without a result. -/
theorem winds_goto (hr : s.running = false) (hi : s.threads[i]? = some pc) (hrun : t.running = s.running)
    (hpub : t.published = s.published) (ht : t.threads = s.threads.set i q)
    (hb : q.busy = true → pc.busy = true) : Winds s t [] where
  running := hrun.trans hr
  published := by simp [hpub]
  busy _ := busy_goto hi ht hb
  left := by simp
  once := List.nodup_nil

/-- A thread leaves the body of the loop with a result. -/
theorem winds_assigns (hr : s.running = false) {m : Nat} {result : β}
    (hi : s.threads[i]? = some (.assigning m result)) :
    Winds s { s.goto i .check with latest := some result, published := s.published ++ [(m, result)] }
      [(i, result)] where
  running := hr
  published := by simp
  busy _ := busy_goto (q := .check) hi rfl (by simp [Pc.busy])
  left a ha := by
    obtain rfl := List.mem_singleton.1 ha
    refine ⟨⟨_, hi, rfl⟩, fun ⟨qc, hj, hq⟩ => ?_⟩
    obtain ⟨-, rfl⟩ | ⟨hne, -⟩ := getElem?_set_cases hj
    · cases hq
    · exact hne rfl
  once := List.pairwise_singleton _ _

theorem winds_step {elapsedMs : ℚ} (hr : s.running = false) (hi : s.threads[i]? = some pc)
    (hs : s.step p i elapsedMs pc = some t) : Winds s t (s.assigned? (.thread i elapsedMs)).toList := by
  simp only [assigned?, hi]
  cases pc with
  | closed | opened | ended => cases hs
  | arrived block =>
    obtain ⟨-, hs⟩ := Option.ite_none_right_eq_some.1 hs
    cases hs
    exact winds_goto hr hi rfl rfl rfl fun h => h
  | extending block k =>
    simp only [step] at hs
    split at hs <;> cases hs <;> exact winds_goto hr hi rfl rfl rfl fun h => h
  | check =>
    cases hs
    exact winds_goto hr hi rfl rfl rfl (by simp [hr, Pc.busy])
  | sleeping =>
    cases hs
    exact winds_goto hr hi rfl rfl rfl fun _ => rfl
  | acquiring =>
    obtain ⟨-, hs⟩ := Option.ite_none_right_eq_some.1 hs
    cases hs
    exact winds_goto hr hi rfl rfl rfl fun _ => rfl
  | measuring =>
    simp only [step] at hs
    split at hs <;> cases hs <;> exact winds_goto hr hi rfl rfl rfl fun _ => rfl
  | copying audio =>
    simp only [step] at hs
    split at hs <;> cases hs <;> exact winds_goto hr hi rfl rfl rfl fun _ => rfl
  | analysing m audio =>
    simp only [step] at hs
    split at hs <;> cases hs <;> exact winds_goto hr hi rfl rfl rfl fun _ => rfl
  | assigning m result =>
    cases hs
    exact winds_assigns hr hi

/-- The owner goes on, and the threads with their results stay. -/
theorem winds_owner (hr : s.running = false) (owner : OwnerPc) : Winds s { s with owner := owner } [] :=
  ⟨hr, by simp, fun _ h => h, by simp, List.nodup_nil⟩

theorem winds_ownerStep {timedOut : Bool} (hr : s.running = false) (hs : s.ownerStep timedOut = some t) :
    Winds s t [] := by
  cases howner : s.owner with
  | idle => simp [ownerStep, howner] at hs
  | starting =>
    simp only [ownerStep, howner] at hs
    cases hs
    refine ⟨hr, by simp, ?_, by simp, List.nodup_nil⟩
    rintro i ⟨pc, hi, hb⟩
    obtain hi | rfl := getElem?_concat_cases hi
    · exact ⟨pc, hi, hb⟩
    · cases hb
  | joining =>
    simp only [ownerStep, howner] at hs
    split at hs
    · cases hs
      exact winds_owner hr _
    · split at hs <;> cases hs <;> exact winds_owner hr _
  | closing =>
    simp only [ownerStep, howner] at hs
    split at hs
    · cases hs
      exact winds_owner hr _
    · split at hs
      · next hi => cases hs; exact winds_goto hr hi rfl rfl rfl fun h => h
      · next hi => cases hs; exact winds_goto hr hi rfl rfl rfl fun h => h
      · cases hs

theorem winds_next {e : Event α} (hr : s.running = false) (he : e ≠ .start) (hs : s.next p e = some t) :
    Winds s t (s.assigned? e).toList := by
  cases e with
  | start => exact absurd rfl he
  | stop =>
    obtain ⟨-, hs⟩ := Option.ite_none_right_eq_some.1 hs
    cases hs
    exact ⟨rfl, by simp [assigned?], fun _ h => h, by simp [assigned?], List.nodup_nil⟩
  | owner timedOut => exact winds_ownerStep hr hs
  | callback i block =>
    simp only [next] at hs
    split at hs
    · next hi => cases hs; exact winds_goto hr hi rfl rfl rfl fun h => h
    · cases hs
  | thread i elapsedMs =>
    obtain ⟨pc, hi, hs⟩ := Option.bind_eq_some_iff.1 hs
    exact winds_step hr hi hs

theorem winds_execute {es : List (Event α)} (hr : s.running = false) (he : ∀ e ∈ es, e ≠ .start)
    (h : execute (next p) s es = some t) : Winds s t (s.assignments p es) := by
  induction es generalizing s with
  | nil =>
    cases h
    exact Winds.refl hr
  | cons e es ih =>
    obtain ⟨u, hu, h⟩ := execute_cons_some h
    have hstep := winds_next hr (he e List.mem_cons_self) hu
    simp only [assignments, hu]
    exact hstep.trans (ih hstep.running (fun e hmem => he e (List.mem_cons_of_mem _ hmem)) h)

/-- After a join nothing is left in the loop. -/
theorem Fresh.not_busy (h : s.Fresh) (hr : s.running = false) (ho : s.owner ≠ .joining) (i : Nat) : ¬s.Busy i := by
  rintro ⟨pc, hi, hb⟩
  have hl := h.quiet hr ho i pc hi
  rw [Pc.listening_of_busy hb] at hl
  cases hl

/-- **No way back.** When every join waits its thread out, the results are in the order of their copies, and the newest
result is one of the newest copy. -/
theorem results_in_order {es : List (Event α)} (h : execute (next p) (new α β n) es = some s)
    (hG : Along (next p) Joined (new α β n) es) : (s.published.Pairwise fun a b => a.1 ≤ b.1) ∧
      ∀ r, s.latest = some r → ∃ m, (m, r) ∈ s.published ∧ ∀ q ∈ s.published, q.1 ≤ m := by
  have hordered := (fresh_execute h hG).ordered
  refine ⟨hordered, fun r hr => ?_⟩
  rw [(inv_execute h).newest, List.getLast?_map] at hr
  obtain ⟨⟨m, r⟩, hlast, rfl⟩ := Option.map_eq_some_iff.1 hr
  refine ⟨m, List.mem_of_getLast? hlast, fun q hq => ?_⟩
  obtain ⟨front, hfront⟩ := List.getLast?_eq_some_iff.1 hlast
  rw [hfront] at hordered hq
  obtain hq | hq := List.mem_append.1 hq
  · exact (List.pairwise_append.1 hordered).2.2 q hq _ (List.mem_singleton_self _)
  · rw [List.mem_singleton.1 hq]

/-- `stop`, until the stream is closed. -/
def stopping : List (Event Nat) := [.stop, .thread 0 0, .owner false, .owner false]

/-- The session with a second block and its result, until the stream is closed. -/
def twoResults : List (Event Nat) :=
  session ++ [.callback 1 [4]] ++ List.replicate 3 (.thread 1 0) ++ List.replicate 9 (.thread 0 0) ++ stopping

theorem results_in_order_twoResults : ∃ s, execute (next sums) (new Nat Nat 2) twoResults = some s ∧
    s.published = [(1, 5), (2, 7)] ∧ s.latest = some 7 ∧ ∃ m, (m, 7) ∈ s.published ∧ ∀ q ∈ s.published, q.1 ≤ m := by
  have hjoined : Along (next sums) Joined (new Nat Nat 2) twoResults := by decide
  obtain ⟨s, hs, hpublished, hlatest⟩ : ∃ s, execute (next sums) (new Nat Nat 2) twoResults = some s ∧
      s.published = [(1, 5), (2, 7)] ∧ s.latest = some 7 := ⟨_, rfl, rfl, rfl⟩
  exact ⟨s, hs, hpublished, hlatest, (results_in_order hs hjoined).2 7 hlatest⟩

/-- **After `stop`.** While the object is stopped, the results are of threads that were in the body of the loop, of each
at most one, and of none that a join has waited out. After a join when all joins have waited their threads out, there is
no such thread, and the newest result stays what it is. -/
theorem results_after_stop {es es' : List (Event α)} (h : execute (next p) (new α β n) es = some s)
    (hr : s.running = false) (he : ∀ e ∈ es', e ≠ .start) (h' : execute (next p) s es' = some t) :
    t.published.map Prod.snd = s.published.map Prod.snd ++ (s.assignments p es').map Prod.snd ∧
    ((s.assignments p es').map Prod.fst).Nodup ∧
    (∀ a ∈ s.assignments p es', s.Busy a.1 ∧ s.threads[a.1]? ≠ some .ended) ∧
    (Along (next p) Joined (new α β n) es → s.owner ≠ .joining →
      s.assignments p es' = [] ∧ t.latest = s.latest) := by
  have hwinds := winds_execute hr he h'
  refine ⟨hwinds.published, hwinds.once, fun a ha => ?_, fun hG ho => ?_⟩
  · obtain ⟨⟨pc, hi, hb⟩, -⟩ := hwinds.left a ha
    refine ⟨⟨pc, hi, hb⟩, fun hended => ?_⟩
    obtain rfl := Option.some.inj (hi.symm.trans hended)
    cases hb
  · have hnil : s.assignments p es' = [] := List.eq_nil_iff_forall_not_mem.2 fun a ha =>
      (fresh_execute h hG).not_busy hr ho a.1 (hwinds.left a ha).1
    have hpublished := hwinds.published
    rw [hnil, List.map_nil, List.append_nil] at hpublished
    refine ⟨hnil, ?_⟩
    rw [(execute_inv (fun _ _ _ => inv_next) (inv_execute h) h').newest, (inv_execute h).newest, hpublished]

/-- `stop` while the window is analysed. -/
def interrupted : List (Event Nat) :=
  [.start, .owner false, .callback 1 [1, 2, 3]] ++ List.replicate 5 (.thread 1 0) ++ List.replicate 7 (.thread 0 0) ++
    [.stop]

/-- The thread ends, and the join with it. -/
def winding : List (Event Nat) := List.replicate 3 (.thread 0 0) ++ [.owner false, .owner false]

theorem results_after_stop_interrupted : ∃ s t u, execute (next sums) (new Nat Nat 2) interrupted = some s ∧
    execute (next sums) s winding = some t ∧ execute (next sums) t [.stop, .owner false, .owner false] = some u ∧
    s.assignments sums winding = [(0, 5)] ∧ t.published.map Prod.snd = [5] ∧ u.latest = t.latest := by
  have hjoined : Along (next sums) Joined (new Nat Nat 2) (interrupted ++ winding) := by decide
  obtain ⟨s, t, u, hs, ht, hu, hpublished, hassigned, hrs, hrt, hot⟩ :
      ∃ s t u, execute (next sums) (new Nat Nat 2) interrupted = some s ∧ execute (next sums) s winding = some t ∧
        execute (next sums) t [.stop, .owner false, .owner false] = some u ∧ s.published = [] ∧
        s.assignments sums winding = [(0, 5)] ∧ s.running = false ∧ t.running = false ∧ t.owner ≠ .joining :=
    ⟨_, _, _, rfl, rfl, rfl, rfl, rfl, rfl, rfl, by decide⟩
  have hwinding : ∀ e ∈ winding, e ≠ .start := by simp [winding]
  refine ⟨s, t, u, hs, ht, hu, hassigned, ?_, ((results_after_stop (execute_trans hs ht) hrt (by simp) hu).2.2.2
    hjoined hot).2⟩
  rw [(results_after_stop hs hrs hwinding ht).1, hpublished, hassigned]
  rfl

/-- A join that times out while a window is analysed, and a second session that is faster. -/
def overtaken : List (Event Nat) :=
  [.start, .owner false, .callback 1 [1]] ++ List.replicate 3 (.thread 1 0) ++ List.replicate 6 (.thread 0 0) ++
    [.stop, .owner true, .owner false, .start, .owner false, .callback 3 [2]] ++ List.replicate 3 (.thread 3 0) ++
    List.replicate 9 (.thread 2 0) ++ List.replicate 2 (.thread 0 0)

theorem results_out_of_order : ¬ ∀ (es : List (Event Nat)) s, execute (next sums) (new Nat Nat 2) es = some s →
    s.published.Pairwise fun a b => a.1 ≤ b.1 := fun h =>
  absurd (h overtaken _ rfl) (by decide)

end Rolling

end Bajiru.PitchMath
