import Bajiru.Deque
import Bajiru.Lock
import Bajiru.Runs
import Mathlib.Data.Rat.Init

/-!
# A rolling window under a lock

What `VoiceListener` and `_AudioMonitor` share: the callback of an input stream extends a deque, a background thread
copies the deque and analyses the copy, and both do it `with self._lock`. The owner starts and stops them, and anyone
reads the newest result. `next` fires one step of one thread, down to the single item that is appended or copied; the
interleaving is the sequence of events. Nothing but the lock keeps a copy from seeing half a block.
-/

namespace Bajiru.PitchMath

/-- What the classes differ in: the length of the deque, the fewest samples that are analysed, and the analysis. It gets
the samples and the time that it took, and `None` is no result. -/
structure Params (α β : Type*) where
  windowSamples : Nat
  minSamples : Nat
  analyse : List α → ℚ → Option β

/-- Where a thread is. The callback of a stream: the stream is closed or open, a block has arrived, or it is in
`self._ring.extend`. The background thread: the test and the sleep of its loop, before the lock, under it at the length
test and in the copy, and past it. The number of the blocks before the copy is not program state. -/
inductive Pc (α β : Type*)
  | closed
  | opened
  | arrived (block : List α)
  | extending (block : List α) (k : Nat)
  | check
  | sleeping
  | acquiring
  | measuring
  | copying (audio : List α)
  | analysing (n : Nat) (audio : List α)
  | assigning (n : Nat) (result : β)
  | ended

/-- Where the owner is: between two calls, in `start` before the stream, or in `stop` before the join and before the
stream is stopped. -/
inductive OwnerPc
  | idle
  | starting
  | joining
  | closing
  deriving DecidableEq

/-- The object and its threads. The blocks whose callback has returned and the results with the number of the blocks
before their copy are not program state. -/
structure Rolling (α β : Type*) (n : Nat) where
  running : Bool
  ring : Deque α n
  lock : Option Nat
  latest : Option β
  thread : Option Nat
  stream : Option Nat
  owner : OwnerPc
  threads : List (Pc α β)
  delivered : List (List α)
  published : List (Nat × β)

/-- The owner calls `start` or `stop`, a call goes on (a join may time out), a stream hands a block to its callback, or
a thread makes a step (an analysis takes some time). -/
inductive Event (α : Type*)
  | start
  | stop
  | owner (timedOut : Bool)
  | callback (i : Nat) (block : List α)
  | thread (i : Nat) (elapsedMs : ℚ)

/-- Inside `with self._lock`. -/
def Pc.locked {α β : Type*} : Pc α β → Bool
  | extending .. | measuring | copying _ => true
  | _ => false

namespace Rolling

variable {α β : Type*} {n : Nat}

/-- `__init__`. -/
def new (α β : Type*) (n : Nat) : Rolling α β n := ⟨false, .empty α n, none, none, none, none, .idle, [], [], []⟩

def goto (s : Rolling α β n) (i : Nat) (pc : Pc α β) : Rolling α β n := { s with threads := s.threads.set i pc }

/-- The thread enters `with self._lock`. -/
def enter (s : Rolling α β n) (i : Nat) (pc : Pc α β) : Rolling α β n := { s.goto i pc with lock := some i }

/-- The thread leaves `with self._lock`. -/
def leave (s : Rolling α β n) (i : Nat) (pc : Pc α β) : Rolling α β n := { s.goto i pc with lock := none }

/-- The next step of a callback or of the background thread. -/
def step (p : Params α β) (s : Rolling α β n) (i : Nat) (elapsedMs : ℚ) : Pc α β → Option (Rolling α β n)
  | .arrived block => if s.lock = none then some (s.enter i (.extending block 0)) else none
  | .extending block k =>
    match block[k]? with
    | some x => some { s.goto i (.extending block (k + 1)) with ring := s.ring.append x }
    | none => some { s.leave i .opened with delivered := s.delivered ++ [block] }
  | .check => some (s.goto i (if s.running then .sleeping else .ended))
  | .sleeping => some (s.goto i .acquiring)
  | .acquiring => if s.lock = none then some (s.enter i .measuring) else none
  | .measuring => if s.ring.items.length < p.minSamples then some (s.leave i .check) else some (s.goto i (.copying []))
  | .copying audio =>
    match s.ring.items[audio.length]? with
    | some x => some (s.goto i (.copying (audio ++ [x])))
    | none => some (s.leave i (.analysing s.delivered.length audio))
  | .analysing m audio =>
    match p.analyse audio elapsedMs with
    | some result => some (s.goto i (.assigning m result))
    | none => some (s.goto i .check)
  | .assigning m result =>
    some { s.goto i .check with latest := some result, published := s.published ++ [(m, result)] }
  | _ => none

/-- The next step of the call that the owner is in. A join returns when the thread has ended or when it times out, and
stopping a stream waits for its callback. -/
def ownerStep (s : Rolling α β n) (timedOut : Bool) : Option (Rolling α β n) :=
  match s.owner with
  | .idle => none
  | .starting => some { s with stream := some s.threads.length, threads := s.threads ++ [.opened], owner := .idle }
  | .joining =>
    match s.thread with
    | none => some { s with owner := .closing }
    | some i =>
      match s.threads[i]?, timedOut with
      | some .ended, _ | _, true => some { s with owner := .closing }
      | _, false => none
  | .closing =>
    match s.stream with
    | none => some { s with owner := .idle }
    | some i =>
      match s.threads[i]? with
      | some .opened | some .closed => some { s.goto i .closed with owner := .idle }
      | _ => none

/-- One step of the owner, a stream or a thread. -/
def next (p : Params α β) (s : Rolling α β n) : Event α → Option (Rolling α β n)
  | .start =>
    if s.owner = .idle then
      some { s with
        running := true, thread := some s.threads.length, threads := s.threads ++ [.check], owner := .starting }
    else none
  | .stop => if s.owner = .idle then some { s with running := false, owner := .joining } else none
  | .owner timedOut => s.ownerStep timedOut
  | .callback i block =>
    match s.threads[i]? with
    | some .opened => some (s.goto i (.arrived block))
    | _ => none
  | .thread i elapsedMs => s.threads[i]?.bind (s.step p i elapsedMs)

end Rolling

/-! ## What is copied and analysed -/

section Sound

variable {α β : Type*} {n : Nat} {p : Params α β} {items audio : List α} {delivered : List (List α)} {m : Nat}

/-- The part of its block that a callback has appended. -/
def Pc.appended : Pc α β → List α
  | extending block k => block.take k
  | _ => []

/-- The last samples after the first `m` blocks, and enough of them. -/
structure Window (p : Params α β) (n : Nat) (delivered : List (List α)) (m : Nat) (audio : List α) : Prop where
  blocks : m ≤ delivered.length
  eq : audio = (delivered.take m).flatten.rtake n
  enough : p.minSamples ≤ audio.length

/-- A result of such a window. -/
def ResultOf (p : Params α β) (n : Nat) (delivered : List (List α)) (m : Nat) (result : β) : Prop :=
  ∃ audio elapsedMs, Window p n delivered m audio ∧ p.analyse audio elapsedMs = some result

/-- What a thread knows where it is, of the items of the deque and of the blocks. -/
def Pc.Sound (p : Params α β) (n : Nat) (items : List α) (delivered : List (List α)) : Pc α β → Prop
  | extending block k => k ≤ block.length
  | copying audio => audio <+: items ∧ p.minSamples ≤ items.length
  | analysing m audio => Window p n delivered m audio
  | assigning m result => ResultOf p n delivered m result
  | _ => True

theorem Window.append (h : Window p n delivered m audio) (block : List α) :
    Window p n (delivered ++ [block]) m audio where
  blocks := h.blocks.trans (by simp)
  eq := by rw [List.take_append_of_le_length h.blocks, ← h.eq]
  enough := h.enough

theorem ResultOf.append {result : β} (h : ResultOf p n delivered m result) (block : List α) :
    ResultOf p n (delivered ++ [block]) m result := by
  obtain ⟨audio, elapsedMs, hw, hr⟩ := h
  exact ⟨audio, elapsedMs, hw.append block, hr⟩

/-- Outside the lock a thread knows nothing of the deque, and what it knows of the blocks stays. -/
theorem Pc.Sound.frame {pc : Pc α β} (h : pc.Sound p n items delivered) (hl : pc.locked = false) (items' : List α) :
    pc.Sound p n items' delivered := by
  cases pc <;> first | exact h | cases hl

theorem Pc.Sound.append {pc : Pc α β} (h : pc.Sound p n items delivered) (block : List α) :
    pc.Sound p n items (delivered ++ [block]) := by
  cases pc with
  | analysing m audio => exact Window.append h block
  | assigning m result => exact ResultOf.append h block
  | _ => exact h

end Sound

namespace Rolling

variable {α β : Type*} {n : Nat} {p : Params α β} {s t : Rolling α β n} {i : Nat} {pc q : Pc α β}

/-- The lock is exclusive; the deque is the end of the stream, and of the block that a callback is appending; every
thread is sound and every result is one of a window. -/
structure Inv (p : Params α β) (s : Rolling α β n) : Prop where
  exclusive : Exclusive Pc.locked s.lock s.threads
  free : s.lock = none → s.ring.items = s.delivered.flatten.rtake n
  held : ∀ (i : Nat) (pc : Pc α β), s.threads[i]? = some pc → pc.locked = true →
    s.ring.items = (s.delivered.flatten ++ pc.appended).rtake n
  sound : ∀ (i : Nat) (pc : Pc α β), s.threads[i]? = some pc → pc.Sound p n s.ring.items s.delivered
  results : ∀ r ∈ s.published, ResultOf p n s.delivered r.1 r.2
  newest : s.latest = (s.published.map Prod.snd).getLast?

theorem inv_new (p : Params α β) (n : Nat) : Inv p (new α β n) where
  exclusive := Exclusive.nil
  free _ := by simp [new]
  held i pc h := by simp [new] at h
  sound i pc h := by simp [new] at h
  results r h := by simp [new] at h
  newest := rfl

/-- A thread after another one has moved. -/
theorem getElem?_set_cases {threads : List (Pc α β)} {j : Nat} {qc : Pc α β}
    (h : (threads.set i q)[j]? = some qc) : i = j ∧ qc = q ∨ i ≠ j ∧ threads[j]? = some qc := by
  by_cases hij : i = j
  · subst hij
    rw [List.getElem?_set_self'] at h
    obtain ⟨-, -, rfl⟩ := Option.map_eq_some_iff.1 h
    exact .inl ⟨rfl, rfl⟩
  · rw [List.getElem?_set_ne hij] at h
    exact .inr ⟨hij, h⟩

/-- A thread after another one was started. -/
theorem getElem?_concat_cases {threads : List (Pc α β)} {j : Nat} {qc : Pc α β}
    (h : (threads ++ [pc])[j]? = some qc) : threads[j]? = some qc ∨ qc = pc := by
  obtain hj | hj := Nat.lt_or_ge j threads.length
  · rw [List.getElem?_append_left hj] at h
    exact .inl h
  · rw [List.getElem?_append_right hj] at h
    exact .inr (List.mem_singleton.1 (List.mem_of_getElem? h))

/-- A copy with the next item. -/
theorem prefix_concat {items audio : List α} {x : α} (h : audio <+: items) (hx : items[audio.length]? = some x) :
    audio ++ [x] <+: items := by
  obtain ⟨rest, rfl⟩ := h
  rw [List.getElem?_append_right (Nat.le_refl _), Nat.sub_self] at hx
  cases rest with
  | nil => cases hx
  | cons y rest =>
    obtain rfl := Option.some.inj hx
    exact ⟨rest, by simp⟩

/-- A thread moves on, and neither the lock nor the deque changes. -/
theorem Inv.goto (h : s.Inv p) (hi : s.threads[i]? = some pc) (hl : q.locked = pc.locked)
    (ha : q.appended = pc.appended) (hs : q.Sound p n s.ring.items s.delivered) : (s.goto i q).Inv p where
  exclusive := h.exclusive.move hi hl
  free := h.free
  held j qc hj hq := by
    obtain ⟨rfl, rfl⟩ | ⟨-, hj⟩ := getElem?_set_cases hj
    · rw [ha]
      exact h.held i pc hi (hl.symm.trans hq)
    · exact h.held j qc hj hq
  sound j qc hj := by
    obtain ⟨rfl, rfl⟩ | ⟨-, hj⟩ := getElem?_set_cases hj
    · exact hs
    · exact h.sound j qc hj
  results := h.results
  newest := h.newest

/-- A thread takes the lock. -/
theorem Inv.enter (h : s.Inv p) (hi : s.threads[i]? = some pc) (hfree : s.lock = none) (hl : q.locked = true)
    (ha : q.appended = []) (hs : q.Sound p n s.ring.items s.delivered) : (s.enter i q).Inv p where
  exclusive := by
    have hex := h.exclusive
    rw [hfree] at hex
    exact hex.acquire hi hl
  free hf := by cases hf
  held j qc hj hq := by
    obtain ⟨rfl, rfl⟩ | ⟨-, hj⟩ := getElem?_set_cases hj
    · rw [ha, List.append_nil]
      exact h.free hfree
    · exact h.held j qc hj hq
  sound j qc hj := by
    obtain ⟨rfl, rfl⟩ | ⟨-, hj⟩ := getElem?_set_cases hj
    · exact hs
    · exact h.sound j qc hj
  results := h.results
  newest := h.newest

/-- The background thread gives the lock back. -/
theorem Inv.leave (h : s.Inv p) (hi : s.threads[i]? = some pc) (hl : pc.locked = true) (ha : pc.appended = [])
    (hl' : q.locked = false) (hs : q.Sound p n s.ring.items s.delivered) : (s.leave i q).Inv p where
  exclusive := h.exclusive.release hi hl hl'
  free _ := by
    have hheld := h.held i pc hi hl
    rwa [ha, List.append_nil] at hheld
  held j qc hj hq := by
    obtain ⟨rfl, rfl⟩ | ⟨-, hj⟩ := getElem?_set_cases hj
    · rw [hl'] at hq
      cases hq
    · exact h.held j qc hj hq
  sound j qc hj := by
    obtain ⟨rfl, rfl⟩ | ⟨-, hj⟩ := getElem?_set_cases hj
    · exact hs
    · exact h.sound j qc hj
  results := h.results
  newest := h.newest

/-- No other thread is in the lock. -/
theorem Inv.other (h : s.Inv p) (hi : s.threads[i]? = some pc) (hl : pc.locked = true) {j : Nat} {qc : Pc α β}
    (hij : i ≠ j) (hj : s.threads[j]? = some qc) : qc.locked = false := by
  cases hq : qc.locked with
  | false => rfl
  | true => exact absurd (h.exclusive.unique hi hl hj hq) hij

/-- A callback appends one sample of its block. -/
theorem Inv.appends (h : s.Inv p) {block : List α} {k : Nat} {x : α} (hi : s.threads[i]? = some (.extending block k))
    (hx : block[k]? = some x) : Inv p { s.goto i (.extending block (k + 1)) with ring := s.ring.append x } where
  exclusive := h.exclusive.move hi rfl
  free hf := by
    have hlock : s.lock = some i := h.exclusive.holder hi rfl
    exact absurd (hf.symm.trans hlock) (by simp)
  held j qc hj hq := by
    obtain ⟨rfl, rfl⟩ | ⟨hij, hj⟩ := getElem?_set_cases hj
    · have htake : block.take (k + 1) = block.take k ++ [x] := by
        rw [List.take_add_one, hx, Option.toList_some]
      show ((s.ring.items ++ [x]).rtake n) = (s.delivered.flatten ++ block.take (k + 1)).rtake n
      rw [h.held i _ hi rfl, rtake_append_rtake, htake, List.append_assoc]
      rfl
    · rw [h.other hi rfl hij hj] at hq
      cases hq
  sound j qc hj := by
    obtain ⟨rfl, rfl⟩ | ⟨hij, hj⟩ := getElem?_set_cases hj
    · exact (List.getElem?_eq_some_iff.1 hx).1
    · exact (h.sound j qc hj).frame (h.other hi rfl hij hj) _
  results := h.results
  newest := h.newest

/-- A callback has appended its block and gives the lock back. -/
theorem Inv.delivers (h : s.Inv p) {block : List α} {k : Nat} (hi : s.threads[i]? = some (.extending block k))
    (hk : block[k]? = none) : Inv p { s.leave i .opened with delivered := s.delivered ++ [block] } where
  exclusive := h.exclusive.release hi rfl rfl
  free _ := by
    have hheld := h.held i _ hi rfl
    rw [Pc.appended, List.take_of_length_le (List.getElem?_eq_none_iff.1 hk)] at hheld
    show s.ring.items = (s.delivered ++ [block]).flatten.rtake n
    simpa using hheld
  held j qc hj hq := by
    obtain ⟨rfl, rfl⟩ | ⟨hij, hj⟩ := getElem?_set_cases hj
    · cases hq
    · rw [h.other hi rfl hij hj] at hq
      cases hq
  sound j qc hj := by
    obtain ⟨rfl, rfl⟩ | ⟨-, hj⟩ := getElem?_set_cases hj
    · trivial
    · exact (h.sound j qc hj).append block
  results r hr := (h.results r hr).append block
  newest := h.newest

/-- The background thread assigns a result. -/
theorem Inv.assigns (h : s.Inv p) {m : Nat} {result : β} (hi : s.threads[i]? = some (.assigning m result)) :
    Inv p { s.goto i .check with latest := some result, published := s.published ++ [(m, result)] } where
  exclusive := h.exclusive.move hi rfl
  free := h.free
  held := (h.goto (q := .check) hi rfl rfl trivial).held
  sound := (h.goto (q := .check) hi rfl rfl trivial).sound
  results r hr := by
    obtain hr | hr := List.mem_append.1 hr
    · exact h.results r hr
    · obtain rfl := List.mem_singleton.1 hr
      exact h.sound i _ hi
  newest := by simp

/-- A copy that has reached the end of the deque is a window. -/
theorem Inv.copied (h : s.Inv p) {audio : List α} (hi : s.threads[i]? = some (.copying audio))
    (hend : s.ring.items[audio.length]? = none) : Window p n s.delivered s.delivered.length audio := by
  obtain ⟨hpre, henough⟩ : audio <+: s.ring.items ∧ p.minSamples ≤ s.ring.items.length :=
    h.sound i (.copying audio) hi
  have haudio : audio = s.ring.items := hpre.eq_of_length_le (List.getElem?_eq_none_iff.1 hend)
  have hheld : s.ring.items = (s.delivered.flatten ++ []).rtake n := h.held i _ hi rfl
  rw [List.append_nil] at hheld
  exact ⟨Nat.le_refl _, by rw [List.take_length]; exact haudio.trans hheld, haudio ▸ henough⟩

/-- A step of a thread keeps the invariant. -/
theorem inv_step {elapsedMs : ℚ} (h : s.Inv p) (hi : s.threads[i]? = some pc) (hs : s.step p i elapsedMs pc = some t) :
    t.Inv p := by
  cases pc with
  | closed | opened | ended => cases hs
  | arrived block =>
    obtain ⟨hfree, hs⟩ := Option.ite_none_right_eq_some.1 hs
    cases hs
    exact h.enter hi hfree rfl rfl (Nat.zero_le _)
  | extending block k =>
    simp only [step] at hs
    split at hs
    · next x hx => cases hs; exact h.appends hi hx
    · next hk => cases hs; exact h.delivers hi hk
  | check =>
    cases hs
    cases s.running with
    | true => exact h.goto hi rfl rfl trivial
    | false => exact h.goto hi rfl rfl trivial
  | sleeping =>
    cases hs
    exact h.goto hi rfl rfl trivial
  | acquiring =>
    obtain ⟨hfree, hs⟩ := Option.ite_none_right_eq_some.1 hs
    cases hs
    exact h.enter hi hfree rfl rfl trivial
  | measuring =>
    simp only [step] at hs
    split at hs
    · cases hs
      exact h.leave hi rfl rfl rfl trivial
    · next hlen =>
      cases hs
      exact h.goto hi rfl rfl ⟨List.nil_prefix, Nat.le_of_not_lt hlen⟩
  | copying audio =>
    obtain ⟨hpre, henough⟩ : audio <+: s.ring.items ∧ p.minSamples ≤ s.ring.items.length :=
      h.sound i (.copying audio) hi
    simp only [step] at hs
    split at hs
    · next x hx =>
      cases hs
      exact h.goto hi rfl rfl ⟨prefix_concat hpre hx, henough⟩
    · next hend =>
      cases hs
      exact h.leave hi rfl rfl rfl (h.copied hi hend)
  | analysing m audio =>
    simp only [step] at hs
    split at hs
    · next result hr =>
      cases hs
      exact h.goto hi rfl rfl ⟨audio, elapsedMs, h.sound i _ hi, hr⟩
    · cases hs
      exact h.goto hi rfl rfl trivial
  | assigning m result =>
    cases hs
    exact h.assigns hi

/-- A thread is started. -/
theorem Inv.spawn (h : s.Inv p) (pc : Pc α β) (hl : pc.locked = false) (hs : pc.Sound p n s.ring.items s.delivered) :
    Inv p { s with threads := s.threads ++ [pc] } where
  exclusive := h.exclusive.spawn hl
  free := h.free
  held j qc hj hq := by
    obtain hj | rfl := getElem?_concat_cases hj
    · exact h.held j qc hj hq
    · rw [hl] at hq
      cases hq
  sound j qc hj := by
    obtain hj | rfl := getElem?_concat_cases hj
    · exact h.sound j qc hj
    · exact hs
  results := h.results
  newest := h.newest

/-- The fields of the owner are not in the invariant. -/
theorem Inv.owner (h : s.Inv p) (running : Bool) (thread stream : Option Nat) (owner : OwnerPc) :
    Inv p { s with running := running, thread := thread, stream := stream, owner := owner } :=
  ⟨h.exclusive, h.free, h.held, h.sound, h.results, h.newest⟩

theorem inv_ownerStep {timedOut : Bool} (h : s.Inv p) (hs : s.ownerStep timedOut = some t) : t.Inv p := by
  cases howner : s.owner with
  | idle => simp [ownerStep, howner] at hs
  | starting =>
    simp only [ownerStep, howner] at hs
    cases hs
    exact (h.spawn .opened rfl trivial).owner _ _ _ _
  | joining =>
    simp only [ownerStep, howner] at hs
    split at hs
    · cases hs
      exact h.owner _ _ _ _
    · split at hs <;> cases hs
      all_goals exact h.owner _ _ _ _
  | closing =>
    simp only [ownerStep, howner] at hs
    split at hs
    · cases hs
      exact h.owner _ _ _ _
    · split at hs
      · next hi => cases hs; exact (h.goto (q := .closed) hi rfl rfl trivial).owner _ _ _ _
      · next hi => cases hs; exact (h.goto (q := .closed) hi rfl rfl trivial).owner _ _ _ _
      · cases hs

/-- **The invariant**, of the owner, the streams and the threads. -/
theorem inv_next {e : Event α} (h : s.Inv p) (hs : s.next p e = some t) : t.Inv p := by
  cases e with
  | start =>
    obtain ⟨-, hs⟩ := Option.ite_none_right_eq_some.1 hs
    cases hs
    exact (h.spawn .check rfl trivial).owner _ _ _ _
  | stop =>
    obtain ⟨-, hs⟩ := Option.ite_none_right_eq_some.1 hs
    cases hs
    exact h.owner _ _ _ _
  | owner timedOut => exact inv_ownerStep h hs
  | callback i block =>
    simp only [next] at hs
    split at hs
    · next hi => cases hs; exact h.goto hi rfl rfl trivial
    · cases hs
  | thread i elapsedMs =>
    obtain ⟨pc, hi, hs⟩ := Option.bind_eq_some_iff.1 hs
    exact inv_step h hi hs

theorem inv_execute {es : List (Event α)} (h : execute (next p) (new α β n) es = some s) : s.Inv p :=
  execute_inv (fun _ _ _ => inv_next) (inv_new p n) h

end Rolling

/-! ## The blocks of the stream -/

section Blocks

variable {α β : Type*}

/-- The block that a callback has not delivered yet. -/
def Pc.block? : Pc α β → Option (List α)
  | arrived block | extending block _ => some block
  | _ => none

def Event.block? : Event α → Option (List α)
  | callback _ block => some block
  | _ => none

/-- One item less and one more. -/
theorem filterMap_set_perm {σ τ : Type*} (f : σ → Option τ) {xs : List σ} {i : Nat} {x : σ}
    (h : xs[i]? = some x) (y : σ) :
    ((xs.set i y).filterMap f ++ (f x).toList).Perm (xs.filterMap f ++ (f y).toList) := by
  have hcons : ∀ w ws, (w :: ws).filterMap f = (f w).toList ++ ws.filterMap f := by
    intro w ws
    rw [List.filterMap_cons]
    cases f w <;> rfl
  induction xs generalizing i with
  | nil => cases h
  | cons z zs ih =>
    cases i with
    | zero =>
      obtain rfl := Option.some.inj h
      rw [List.set_cons_zero, hcons, hcons, List.append_assoc (f z).toList]
      exact List.perm_append_comm.trans (List.perm_append_comm.append_left _)
    | succ i =>
      rw [List.set_cons_succ, hcons, hcons, List.append_assoc, List.append_assoc]
      exact (ih (by simpa using h)).append_left _

end Blocks

namespace Rolling

variable {α β : Type*} {n : Nat} {p : Params α β} {s t : Rolling α β n} {i : Nat} {pc q : Pc α β}

/-- The blocks of the callbacks that have not returned. -/
def inFlight (s : Rolling α β n) : List (List α) := s.threads.filterMap Pc.block?

/-- A thread moves on with its block. -/
theorem blocks_goto (hi : s.threads[i]? = some pc) (hd : t.delivered = s.delivered)
    (ht : t.threads = s.threads.set i q) (hb : q.block? = pc.block?) :
    (t.delivered ++ t.inFlight).Perm (s.delivered ++ s.inFlight) := by
  have h := filterMap_set_perm Pc.block? hi q
  rw [hb] at h
  rw [hd, inFlight, inFlight, ht]
  exact ((List.perm_append_right_iff _).1 h).append_left _

/-- A step of a thread loses no block and doubles none. -/
theorem blocks_step {elapsedMs : ℚ} (hi : s.threads[i]? = some pc) (hs : s.step p i elapsedMs pc = some t) :
    (t.delivered ++ t.inFlight).Perm (s.delivered ++ s.inFlight) := by
  cases pc with
  | closed | opened | ended => cases hs
  | arrived block =>
    obtain ⟨-, hs⟩ := Option.ite_none_right_eq_some.1 hs
    cases hs
    exact blocks_goto hi rfl rfl rfl
  | extending block k =>
    simp only [step] at hs
    split at hs
    · cases hs
      exact blocks_goto hi rfl rfl rfl
    · cases hs
      have h := filterMap_set_perm Pc.block? hi (.opened)
      have h : ((s.leave i .opened).inFlight ++ [block]).Perm s.inFlight := by
        simpa [Pc.block?, inFlight, leave, goto] using h
      show ((s.delivered ++ [block]) ++ (s.leave i .opened).inFlight).Perm _
      rw [List.append_assoc]
      exact (List.perm_append_comm.trans h).append_left _
  | check =>
    cases hs
    cases s.running <;> exact blocks_goto hi rfl rfl rfl
  | sleeping =>
    cases hs
    exact blocks_goto hi rfl rfl rfl
  | acquiring =>
    obtain ⟨-, hs⟩ := Option.ite_none_right_eq_some.1 hs
    cases hs
    exact blocks_goto hi rfl rfl rfl
  | measuring =>
    simp only [step] at hs
    split at hs <;> cases hs <;> exact blocks_goto hi rfl rfl rfl
  | copying audio =>
    simp only [step] at hs
    split at hs <;> cases hs <;> exact blocks_goto hi rfl rfl rfl
  | analysing m audio =>
    simp only [step] at hs
    split at hs <;> cases hs <;> exact blocks_goto hi rfl rfl rfl
  | assigning m result =>
    cases hs
    exact blocks_goto hi rfl rfl rfl

theorem inFlight_spawn (s : Rolling α β n) (pc : Pc α β) (hb : pc.block? = none) :
    ((s.threads ++ [pc]).filterMap Pc.block?).Perm s.inFlight := by
  simp [hb, inFlight]

theorem blocks_ownerStep {timedOut : Bool} (hs : s.ownerStep timedOut = some t) :
    (t.delivered ++ t.inFlight).Perm (s.delivered ++ s.inFlight) := by
  cases howner : s.owner with
  | idle => simp [ownerStep, howner] at hs
  | starting =>
    simp only [ownerStep, howner] at hs
    cases hs
    exact (inFlight_spawn s .opened rfl).append_left _
  | joining =>
    simp only [ownerStep, howner] at hs
    split at hs
    · cases hs
      rfl
    · split at hs <;> cases hs <;> rfl
  | closing =>
    simp only [ownerStep, howner] at hs
    split at hs
    · cases hs
      rfl
    · split at hs
      · next hi => cases hs; exact blocks_goto hi rfl rfl rfl
      · next hi => cases hs; exact blocks_goto hi rfl rfl rfl
      · cases hs

/-- A step adds the block of its callback. -/
theorem blocks_next {e : Event α} (hs : s.next p e = some t) :
    (t.delivered ++ t.inFlight).Perm (s.delivered ++ s.inFlight ++ e.block?.toList) := by
  cases e with
  | start =>
    obtain ⟨-, hs⟩ := Option.ite_none_right_eq_some.1 hs
    cases hs
    rw [show (Event.start : Event α).block? = none from rfl, Option.toList_none, List.append_nil]
    exact (inFlight_spawn s .check rfl).append_left _
  | stop =>
    obtain ⟨-, hs⟩ := Option.ite_none_right_eq_some.1 hs
    cases hs
    simp [inFlight, Event.block?]
  | owner timedOut => simpa [Event.block?] using blocks_ownerStep hs
  | callback i block =>
    simp only [next] at hs
    split at hs
    · next hi =>
      cases hs
      have h := filterMap_set_perm Pc.block? hi (.arrived block)
      rw [show (Pc.opened : Pc α β).block? = none from rfl, Option.toList_none, List.append_nil] at h
      rw [List.append_assoc]
      exact h.append_left _
    · cases hs
  | thread i elapsedMs =>
    obtain ⟨pc, hi, hs⟩ := Option.bind_eq_some_iff.1 hs
    simpa [Event.block?] using blocks_step hi hs

/-- **No block is lost or doubled.** -/
theorem blocks_execute {es : List (Event α)} (h : execute (next p) s es = some t) :
    (t.delivered ++ t.inFlight).Perm (s.delivered ++ s.inFlight ++ es.filterMap Event.block?) := by
  induction es generalizing s with
  | nil =>
    cases h
    simp
  | cons e es ih =>
    obtain ⟨u, hu, h⟩ := execute_cons_some h
    have hcons : (e :: es).filterMap Event.block? = e.block?.toList ++ es.filterMap Event.block? := by
      rw [List.filterMap_cons]
      cases e.block? <;> rfl
    rw [hcons, ← List.append_assoc]
    exact (ih h).trans ((blocks_next hu).append_right _)

/-! ## What a reader sees -/

/-- The newest result is the analysis of a window. -/
theorem exists_window {p : Params α β} {es : List (Event α)} {s : Rolling α β p.windowSamples}
    (h : execute (next p) (new α β p.windowSamples) es = some s) {r : β} (hr : s.latest = some r) :
    ∃ m audio elapsedMs, m ≤ s.delivered.length ∧ audio = (s.delivered.take m).flatten.rtake p.windowSamples ∧
      p.minSamples ≤ audio.length ∧ p.analyse audio elapsedMs = some r := by
  have hinv := inv_execute h
  rw [hinv.newest] at hr
  obtain ⟨q, hq, rfl⟩ := List.mem_map.1 (List.mem_of_getLast? hr)
  obtain ⟨audio, elapsedMs, hw, hr⟩ := hinv.results q hq
  exact ⟨q.1, audio, elapsedMs, hw.blocks, hw.eq, hw.enough, hr⟩

/-- **Windows.** In every run, whatever the streams, the threads and the owner do and in whatever order: the newest
result is the analysis of the last samples after a whole number of blocks, never of a part of a block, and of enough of
them; while the lock is free the deque is the end of the stream; and the stream is made of the blocks that were handed
to the callbacks, each exactly once. -/
theorem windows_sound (p : Params α β) {es : List (Event α)} {s : Rolling α β p.windowSamples}
    (h : execute (next p) (new α β p.windowSamples) es = some s) :
    (∀ r, s.latest = some r → ∃ m audio elapsedMs, m ≤ s.delivered.length ∧
      audio = (s.delivered.take m).flatten.rtake p.windowSamples ∧ p.minSamples ≤ audio.length ∧
      p.analyse audio elapsedMs = some r) ∧
    (s.lock = none → s.ring.items = s.delivered.flatten.rtake p.windowSamples) ∧
    (s.delivered ++ s.inFlight).Perm (es.filterMap Event.block?) := by
  refine ⟨fun r hr => exists_window h hr, (inv_execute h).free, ?_⟩
  simpa [new, inFlight] using blocks_execute h

/-! ## A session that is left alone -/

/-- The first thread listens and the second one is a stream. -/
def listening (ring : Deque α n) (lock : Option Nat) (latest : Option β) (threads : List (Pc α β))
    (delivered : List (List α)) (published : List (Nat × β)) : Rolling α β n :=
  ⟨true, ring, lock, latest, some 0, some 1, .idle, threads, delivered, published⟩

variable {ring : Deque α n} {block audio : List α}

/-- The callback appends the rest of its block. -/
theorem execute_extending (p : Params α β) (ring : Deque α n) (latest : Option β) (delivered : List (List α))
    (published : List (Nat × β)) {k : Nat} {rest : List α} (h : block.drop k = rest) :
    execute (next p) (listening ring (some 1) latest [.check, .extending block k] delivered published)
      (List.replicate (rest.length + 1) (.thread 1 0)) =
        some (listening (ring.extend rest) none latest [.check, .opened] (delivered ++ [block]) published) := by
  induction rest generalizing k ring with
  | nil =>
    have hk : block[k]? = none := List.getElem?_eq_none_iff.2 (List.drop_eq_nil_iff.1 h)
    simp [execute, next, listening, step, hk, leave, goto, Deque.extend]
  | cons x rest ih =>
    obtain ⟨hx, hrest⟩ : block[k]? = some x ∧ block.drop (k + 1) = rest := by
      have hlt : k < block.length := by
        by_contra hge
        rw [List.drop_eq_nil_of_le (Nat.le_of_not_lt hge)] at h
        cases h
      rw [List.drop_eq_getElem_cons hlt] at h
      cases h
      exact ⟨List.getElem?_eq_getElem hlt, rfl⟩
    rw [List.length_cons, List.replicate_succ, execute_cons]
    have hnext : next p (listening ring (some 1) latest [.check, .extending block k] delivered published)
      (.thread 1 0) =
        some (listening (ring.append x) (some 1) latest [.check, .extending block (k + 1)] delivered published) := by
      simp [next, listening, step, hx, goto]
    rw [hnext, Option.bind_some, ih _ hrest]
    rfl

/-- The background thread copies the rest of the deque. -/
theorem execute_copying (p : Params α β) (latest : Option β) (delivered : List (List α)) (published : List (Nat × β))
    {rest : List α} (h : ring.items = audio ++ rest) :
    execute (next p) (listening ring (some 0) latest [.copying audio, .opened] delivered published)
      (List.replicate (rest.length + 1) (.thread 0 0)) =
        some (listening ring none latest [.analysing delivered.length ring.items, .opened] delivered published) := by
  induction rest generalizing audio with
  | nil => simp [execute, next, listening, step, h, leave, goto]
  | cons x rest ih =>
    rw [List.length_cons, List.replicate_succ, execute_cons]
    have hnext : next p (listening ring (some 0) latest [.copying audio, .opened] delivered published) (.thread 0 0) =
        some (listening ring (some 0) latest [.copying (audio ++ [x]), .opened] delivered published) := by
      simp [next, listening, step, h, goto]
    rw [hnext, Option.bind_some]
    exact ih (by simp [h])

/-- One block that is long enough is analysed. -/
theorem exists_session {result : β} (hmin : p.minSamples ≤ (block.rtake p.windowSamples).length)
    (hr : p.analyse (block.rtake p.windowSamples) 0 = some result) :
    ∃ es s, execute (next p) (new α β p.windowSamples) es = some s ∧ s.published = [(1, result)] ∧
      s.delivered = [block] := by
  have hopen : execute (next p) (new α β p.windowSamples) [.start, .owner false, .callback 1 block, .thread 1 0] =
      some (listening (.empty α _) (some 1) none [.check, .extending block 0] [] []) := rfl
  have hextend := execute_extending p (.empty α p.windowSamples) none [] [] (List.drop_zero (l := block))
  have hitems : ((Deque.empty α p.windowSamples).extend block).items = block.rtake p.windowSamples :=
    Deque.items_extend _ _
  have hmeasure : ∀ ring : Deque α p.windowSamples, ring.items = block.rtake p.windowSamples →
      execute (next p) (listening ring none none [.check, .opened] [block] []) (List.replicate 4 (.thread 0 0)) =
        some (listening ring (some 0) none [.copying [], .opened] [block] []) := by
    intro ring hring
    have hnot : ¬(block.rtake p.windowSamples).length < p.minSamples := Nat.not_lt.2 hmin
    simp only [List.replicate, execute, next, listening, step, enter, goto, List.getElem?_cons_zero, Option.bind_some,
      List.set_cons_zero, if_true, hring, if_neg hnot]
  have hcopy := execute_copying p none [block] []
    (List.nil_append ((Deque.empty α p.windowSamples).extend block).items).symm
  have hassign : ∀ ring : Deque α p.windowSamples, ring.items = block.rtake p.windowSamples →
      execute (next p) (listening ring none none [.analysing 1 ring.items, .opened] [block] [])
        (List.replicate 2 (.thread 0 0)) =
          some (listening ring none (some result) [.check, .opened] [block] [(1, result)]) := by
    intro ring hring
    simp [List.replicate, execute, next, listening, step, goto, hring, hr]
  exact ⟨_, _, execute_trans (execute_trans (execute_trans (execute_trans hopen hextend) (hmeasure _ hitems)) hcopy)
    (hassign _ hitems), rfl, rfl⟩

/-! ## A run -/

/-- A window of two samples, and its sum. -/
def sums : Params Nat Nat := ⟨2, 1, fun audio _ => some (audio.foldl Nat.add 0)⟩

/-- A session with one block of three samples and one result. -/
def session : List (Event Nat) :=
  [.start, .owner false, .callback 1 [1, 2, 3]] ++ List.replicate 5 (.thread 1 0) ++ List.replicate 9 (.thread 0 0)

theorem windows_sound_session : ∃ s, execute (next sums) (new Nat Nat 2) session = some s ∧ s.latest = some 5 ∧
    (s.lock = none → s.ring.items = s.delivered.flatten.rtake 2) := by
  obtain ⟨s, hs, hlatest⟩ : ∃ s, execute (next sums) (new Nat Nat 2) session = some s ∧ s.latest = some 5 :=
    ⟨_, rfl, rfl⟩
  exact ⟨s, hs, hlatest, (windows_sound sums hs).2.1⟩

end Rolling

end Bajiru.PitchMath
