import Bajiru.Runs
import Bajiru.Linkjiru.SharedRingBuffer

/-!
# A writer and a snapshot reader on one ring

The audio thread runs `write` and another thread `readLastN`, one memory access at a time: the writer loads its counter,
stores its samples slot by slot and publishes the counter; the reader loads the counter, copies its slots and re-reads
the counter. `next n` fires one such step; the interleaving is the sequence of events.

The re-read counter only covers published samples. A block that is being written has already overwritten slots, so a
window is safe only while no store at all has reached `start + Capacity`. Over the block sizes that is an exact
condition: `readLastN_coherent_iff`.
-/

namespace Bajiru.Linkjiru

open SharedRingBuffer

variable {α : Type*} {C : Capacity}

/-- Where the writer is: between two blocks, or in the loop of `write` with the samples it has not stored. -/
inductive WriterPc (α : Type*)
  | idle
  | storing (pos : UInt64) (i : Nat) (rest : List α)

/-- Where the reader is: outside `readLastN`, at the top of its loop, copying, or returned. -/
inductive ReaderPc
  | idle
  | load (left : Nat)
  | copy (left : Nat) (before start : UInt64) (toRead i : Nat)
  | returned (before : UInt64)
  | gaveUp
  deriving DecidableEq

/-- The ring, both threads and the reader's destination. The samples `stored` so far and the number `published` are not
program state. -/
structure Racing (α : Type*) (C : Capacity) where
  ring : SharedRingBuffer α C
  todo : List (List α)
  writer : WriterPc α
  reader : ReaderPc
  dest : Mem α
  stored : List α
  published : Nat

/-- A step of the writer, a step of the reader, or a call of `readLastN`. -/
inductive RaceEvent
  | writer
  | reader
  | call (maxRetries : Nat)

/-- The next memory access of `write`. -/
def Racing.writerStep (s : Racing α C) : Option (Racing α C) :=
  match s.writer, s.todo with
  | .idle, [] => none
  | .idle, block :: todo => some { s with writer := .storing s.ring.writeCount 0 block, todo := todo }
  | .storing pos i (x :: rest), _ =>
    some { s with
      ring := { s.ring with buffer := Function.update s.ring.buffer (C.slot (pos + UInt64.ofNat i)) x }
      writer := .storing pos (i + 1) rest
      stored := s.stored ++ [x] }
  | .storing pos i [], _ =>
    some { s with
      ring := { s.ring with writeCount := pos + UInt64.ofNat i }
      writer := .idle
      published := s.published + i }

/-- The next memory access of `readLastN`, for a window of `n` samples. -/
def Racing.readerStep [Zero α] (n : Nat) (s : Racing α C) : Option (Racing α C) :=
  match s.reader with
  | .load 0 => some { s with reader := .gaveUp }
  | .load (left + 1) =>
    let before := s.ring.writeCount
    if before = 0 then some { s with dest := fillN s.dest n 0, reader := .returned before }
    else
      let (start, toRead) := span before n
      some { s with dest := fillN s.dest (n - toRead) 0, reader := .copy left before start toRead 0 }
  | .copy left before start toRead i =>
    if i < toRead then
      some { s with
        dest := Function.update s.dest (n - toRead + i) (s.ring.buffer (C.slot (start + UInt64.ofNat i)))
        reader := .copy left before start toRead (i + 1) }
    else if unlapped C s.ring.writeCount start then some { s with reader := .returned before }
    else some { s with reader := .load left }
  | _ => none

/-- One step of the two threads; `n` is the argument of every `readLastN`. -/
def Racing.next [Zero α] (n : Nat) (s : Racing α C) : RaceEvent → Option (Racing α C)
  | .writer => s.writerStep
  | .reader => s.readerStep (clamp C n)
  | .call maxRetries =>
    match s.reader with
    | .load _ | .copy .. => none
    | _ => some { s with reader := .load maxRetries }

/-- A new ring, the blocks that will be written and the reader's memory. -/
def Racing.start [Zero α] (C : Capacity) (blocks : List (List α)) (dest : Mem α) : Racing α C :=
  ⟨SharedRingBuffer.new α C, blocks, .idle, .idle, dest, [], 0⟩

/-- The samples of the current block that are not stored. -/
def WriterPc.rest : WriterPc α → List α
  | .idle => []
  | .storing _ _ rest => rest

/-- The whole stream: what is stored and what will be. -/
def Racing.stream (s : Racing α C) : List α := s.stored ++ s.writer.rest ++ s.todo.flatten

/-- The size of the first block that is not empty, `0` if there is none. -/
def firstBlock : List Nat → Nat
  | [] => 0
  | b :: bs => if b = 0 then firstBlock bs else b

theorem firstBlock_pos : ∀ {bs : List Nat}, 0 < bs.sum → 0 < firstBlock bs
  | [], h => absurd h (Nat.lt_irrefl 0)
  | b :: bs, h => by
    unfold firstBlock
    split
    · exact firstBlock_pos (by rw [List.sum_cons] at h; omega)
    · omega

theorem firstBlock_lt {m : Nat} (hm : 0 < m) : ∀ {bs : List Nat}, (∀ b ∈ bs, b < m) → firstBlock bs < m
  | [], _ => hm
  | b :: bs, h => by
    unfold firstBlock
    split
    · exact firstBlock_lt hm fun b' hb => h b' (List.mem_cons_of_mem _ hb)
    · exact h b List.mem_cons_self

/-! ## The writer -/

/-- The blocks whose first non-empty one will be published first. -/
def WriterPc.sizes : WriterPc α → List (List α) → List Nat
  | .idle, todo => todo.map List.length
  | .storing _ i rest, todo => (i + rest.length) :: todo.map List.length

/-- What the writer keeps: the slots hold what is stored, the counter is what is published, and nothing is published
before the first non-empty block. -/
structure WriterInv (stream : List α) (F : Nat) (s : Racing α C) : Prop where
  stream_eq : s.stream = stream
  slots : RingSlots.Holds C.val s.stored s.ring.buffer
  count : s.ring.writeCount.toNat = s.published % 2 ^ 64
  idle : s.writer = .idle → s.stored.length = s.published
  storing : ∀ pos i rest, s.writer = .storing pos i rest →
    pos.toNat = s.published % 2 ^ 64 ∧ s.stored.length = s.published + i
  first : s.published = 0 → firstBlock (s.writer.sizes s.todo) = F
  later : s.published = 0 ∨ F ≤ s.published

theorem writerInv_start [Zero α] (blocks : List (List α)) (dest : Mem α) :
    WriterInv blocks.flatten (firstBlock (blocks.map List.length)) (Racing.start C blocks dest) where
  stream_eq := by simp [Racing.stream, Racing.start, WriterPc.rest]
  slots := RingSlots.Holds.nil
  count := by simp [Racing.start, SharedRingBuffer.new]
  idle := fun _ => rfl
  storing := fun pos i rest h => by cases h
  first := fun _ => rfl
  later := Or.inl rfl

theorem WriterInv.published_le {stream : List α} {F : Nat} {s : Racing α C} (h : WriterInv stream F s) :
    s.published ≤ s.stored.length := by
  cases hw : s.writer with
  | idle => rw [h.idle hw]
  | storing pos i rest => rw [(h.storing pos i rest hw).2]; exact Nat.le_add_right _ _

theorem WriterInv.stored_prefix {stream : List α} {F : Nat} {s : Racing α C} (h : WriterInv stream F s) :
    s.stored <+: stream := by
  rw [← h.stream_eq, Racing.stream, List.append_assoc]
  exact List.prefix_append _ _

/-- A step of the writer keeps its invariant. -/
theorem writerStep_inv {stream : List α} {F : Nat} {s s' : Racing α C} (h : WriterInv stream F s)
    (hs : s.writerStep = some s') : WriterInv stream F s' := by
  obtain ⟨ring, todo, writer, reader, dest, stored, published⟩ := s
  obtain ⟨hstream, hslots, hcount, hidle, hstoring, hfirst, hlater⟩ := h
  cases writer with
  | idle =>
    cases todo with
    | nil => cases hs
    | cons block todo =>
      cases hs
      refine ⟨?_, hslots, hcount, nofun, fun pos i rest h' => ?_, fun h0 => ?_, hlater⟩
      · rw [← hstream]; simp [Racing.stream, WriterPc.rest]
      · cases h'
        exact ⟨hcount, hidle rfl⟩
      · rw [← hfirst h0]; simp [WriterPc.sizes]
  | storing pos i rest =>
    obtain ⟨hpos, hlen⟩ := hstoring pos i rest rfl
    cases rest with
    | nil =>
      cases hs
      refine ⟨?_, hslots, toNat_add_ofNat hpos i, fun _ => hlen, nofun, ?_, ?_⟩
      · rw [← hstream]; simp [Racing.stream, WriterPc.rest]
      · intro h0
        dsimp only at h0
        have hF := hfirst (show published = 0 by omega)
        rw [← hF]
        simp [WriterPc.sizes, firstBlock, show i = 0 by omega]
      · dsimp only at hlater hfirst ⊢
        by_cases hi : i = 0
        · subst hi; exact hlater
        · by_cases h0 : published = 0
          · have hF := hfirst h0
            simp only [WriterPc.sizes, firstBlock, List.length_nil, Nat.add_zero, if_neg hi] at hF
            omega
          · omega
    | cons x rest =>
      cases hs
      refine ⟨?_, ?_, hcount, nofun, fun pos' i' rest' h' => ?_, fun h0 => ?_, hlater⟩
      · rw [← hstream]; simp [Racing.stream, WriterPc.rest]
      · dsimp only at hlen ⊢
        rw [C.slot_of_toNat (toNat_add_ofNat hpos i), ← hlen]
        exact hslots.store x
      · cases h'
        exact ⟨hpos, by simp only [List.length_append, List.length_singleton] at hlen ⊢; omega⟩
      · rw [← hfirst h0]; simp [WriterPc.sizes, Nat.add_comm, Nat.add_left_comm]

/-! ## A ring that never wraps over the first window -/

section Coherent

variable [Zero α] {stream : List α} {F n : Nat}

/-- What the reader keeps, for a window of `n` samples: it copies from `before - n` on, where at least the first
non-empty block was published. -/
structure ReaderInv (stream : List α) (F n : Nat) (s : Racing α C) : Prop where
  copy : ∀ left before start toRead i, s.reader = .copy left before start toRead i →
    before.toNat ≤ s.stored.length ∧ F ≤ before.toNat ∧ start.toNat = before.toNat - n ∧
      toRead = min n before.toNat ∧ i ≤ toRead ∧ (∀ j, j < n - toRead → s.dest j = 0) ∧
      (List.range i).map (fun j => s.dest (n - toRead + j)) = (stream.drop start.toNat).take i
  returned : ∀ before, s.reader = .returned before → (List.range n).map s.dest = window stream n before.toNat

/-- A longer stream does not change what the reader has copied. -/
theorem readerInv_writerStep {s s' : Racing α C} (h : ReaderInv stream F n s) (hs : s.writerStep = some s') :
    ReaderInv stream F n s' := by
  obtain ⟨ring, todo, writer, reader, dest, stored, published⟩ := s
  obtain ⟨hcopy, hret⟩ := h
  cases writer with
  | idle =>
    cases todo with
    | nil => cases hs
    | cons block todo => cases hs; exact ⟨hcopy, hret⟩
  | storing pos i rest =>
    cases rest with
    | nil => cases hs; exact ⟨hcopy, hret⟩
    | cons x rest =>
      cases hs
      refine ⟨fun left before start toRead i hc => ?_, hret⟩
      obtain ⟨h1, h2⟩ := hcopy left before start toRead i hc
      exact ⟨by simp only [List.length_append] at h1 ⊢; omega, h2⟩

/-- The window a reader has copied completely. -/
theorem window_of_copied {dest : Mem α} {before start toRead : Nat} (hstart : start = before - n)
    (hto : toRead = min n before) (hz : ∀ j, j < n - toRead → dest j = 0)
    (hx : (List.range toRead).map (fun j => dest (n - toRead + j)) = (stream.drop start).take toRead) :
    (List.range n).map dest = window stream n before := by
  rw [map_range_split (by omega) hz hx, window, hstart, List.drop_take]
  congr 2 <;> omega

/-- What a step of the reader can do. -/
theorem readerStep_cases {s s' : Racing α C} (hs : s.readerStep n = some s') :
    (s' = { s with reader := .gaveUp }) ∨
    (s.ring.writeCount = 0 ∧ s' = { s with dest := fillN s.dest n 0, reader := .returned 0 }) ∨
    (∃ left, s.ring.writeCount ≠ 0 ∧ s' = { s with
      dest := fillN s.dest (n - (span s.ring.writeCount n).2) 0
      reader := .copy left s.ring.writeCount (span s.ring.writeCount n).1 (span s.ring.writeCount n).2 0 }) ∨
    ∃ left before start toRead i, s.reader = .copy left before start toRead i ∧
      ((i < toRead ∧ s' = { s with
        dest := Function.update s.dest (n - toRead + i) (s.ring.buffer (C.slot (start + UInt64.ofNat i)))
        reader := .copy left before start toRead (i + 1) }) ∨
      (¬ i < toRead ∧ (s' = { s with reader := .returned before } ∨ s' = { s with reader := .load left }))) := by
  unfold Racing.readerStep at hs
  split at hs
  · cases hs; exact Or.inl rfl
  · dsimp only at hs
    split at hs
    · rename_i h0
      rw [h0] at hs
      cases hs
      exact Or.inr (Or.inl ⟨h0, rfl⟩)
    · rename_i left _ h0
      cases hs
      exact Or.inr (Or.inr (Or.inl ⟨left, h0, rfl⟩))
  · rename_i left before start toRead i hr
    refine Or.inr (Or.inr (Or.inr ⟨left, before, start, toRead, i, hr, ?_⟩))
    split at hs
    · rename_i hi
      cases hs
      exact Or.inl ⟨hi, rfl⟩
    · rename_i hi
      split at hs <;> cases hs
      · exact Or.inr ⟨hi, Or.inl rfl⟩
      · exact Or.inr ⟨hi, Or.inr rfl⟩
  · cases hs

omit [Zero α] in
/-- The slot of an index that the stores have not passed by the capacity. -/
theorem held_slot {s : Racing α C} (hw : WriterInv stream F s) {start : UInt64} {a i : Nat}
    (hs : start.toNat = a % 2 ^ 64) (hlt : a + i < s.stored.length) (hC : s.stored.length ≤ a + i + C.val) :
    stream[a + i]? = some (s.ring.buffer (C.slot (start + UInt64.ofNat i))) := by
  obtain ⟨rest, hrest⟩ := hw.stored_prefix
  rw [C.slot_of_toNat (toNat_add_ofNat hs i), ← hw.slots _ hlt hC, ← hrest, List.getElem?_append_left hlt]

/-- A step of the reader keeps its invariant while the stores cannot pass the slots of its window. -/
theorem readerInv_readerStep {s s' : Racing α C} (hw : WriterInv stream F s) (h : ReaderInv stream F n s)
    (hlt : stream.length < 2 ^ 64) (hn : n < 2 ^ 31) (hbound : stream.length ≤ C.val + (F - n))
    (hs : s.readerStep n = some s') : ReaderInv stream F n s' := by
  have hslen := hw.stored_prefix.length_le
  have hpub := hw.published_le
  have hcount : s.ring.writeCount.toNat = s.published := by rw [hw.count]; omega
  rcases readerStep_cases hs with rfl | ⟨-, rfl⟩ | ⟨left, h0, rfl⟩ | ⟨left, before, start, toRead, i, hr, hstep⟩
  · exact ⟨nofun, nofun⟩
  · refine ⟨nofun, fun before hb => ?_⟩
    cases hb
    exact window_of_copied (Nat.zero_sub n).symm (Nat.min_zero n).symm
      (fun j hj => if_pos hj) rfl
  · obtain ⟨hstart, hto⟩ := span_eq s.ring.writeCount hn
    refine ⟨fun left before start toRead i hc => ?_, nofun⟩
    cases hc
    refine ⟨by rw [hcount]; exact hpub, ?_, hstart, hto, Nat.zero_le _, fun j hj => ?_, by simp⟩
    · rcases hw.later with h' | h'
      · exact absurd (UInt64.toNat_inj.1 (by rw [hcount, UInt64.toNat_zero]; exact h')) h0
      · rw [hcount]; exact h'
    · dsimp only [fillN]
      rw [if_pos hj]
  · obtain ⟨hle, hF, hstart, hto, hi, hz, hx⟩ := h.copy left before start toRead i hr
    rcases hstep with ⟨hlti, rfl⟩ | ⟨hnlt, rfl | rfl⟩
    · refine ⟨fun left' before' start' toRead' i' hc => ?_, nofun⟩
      cases hc
      refine ⟨hle, hF, hstart, hto, hlti, fun j hj => ?_, ?_⟩
      · dsimp only
        rw [Function.update_of_ne (by omega)]
        exact hz j hj
      · have hnew := held_slot hw (Nat.mod_eq_of_lt start.toNat_lt).symm
          (show start.toNat + i < s.stored.length by omega) (by omega)
        rw [List.range_succ, List.map_append, List.take_add_one, List.getElem?_drop, hnew, ← hx]
        congr 1
        · apply List.map_congr_left
          intro j hj
          have := List.mem_range.1 hj
          dsimp only
          rw [Function.update_of_ne (by omega)]
        · simp
    · obtain rfl : i = toRead := by omega
      refine ⟨nofun, fun before' hb => ?_⟩
      cases hb
      exact window_of_copied hstart hto hz hx
    · exact ⟨nofun, nofun⟩

omit [Zero α] in
/-- The reader's own state is not the writer's concern. -/
theorem WriterInv.of_reader {s : Racing α C} (h : WriterInv stream F s) (dest : Mem α) (reader : ReaderPc) :
    WriterInv stream F { s with dest := dest, reader := reader } :=
  ⟨h.stream_eq, h.slots, h.count, h.idle, h.storing, h.first, h.later⟩

theorem writerInv_readerStep {s s' : Racing α C} (h : WriterInv stream F s) (hs : s.readerStep n = some s') :
    WriterInv stream F s' := by
  rcases readerStep_cases hs with rfl | ⟨-, rfl⟩ | ⟨left, -, rfl⟩ | ⟨left, before, start, toRead, i, -, hstep⟩
  · exact h.of_reader _ _
  · exact h.of_reader _ _
  · exact h.of_reader _ _
  · rcases hstep with ⟨-, rfl⟩ | ⟨-, rfl | rfl⟩
    · exact h.of_reader _ _
    · exact h.of_reader _ _
    · exact h.of_reader _ _

/-- Every step keeps the writer's invariant. -/
theorem writerInv_next {s s' : Racing α C} {e : RaceEvent} (h : WriterInv stream F s) (hs : s.next n e = some s') :
    WriterInv stream F s' := by
  cases e with
  | writer => exact writerStep_inv h hs
  | reader => exact writerInv_readerStep h hs
  | call maxRetries =>
    simp only [Racing.next] at hs
    split at hs <;> cases hs
    exact h.of_reader _ _

/-- Every step keeps both invariants while the stores cannot pass the slots of a window. -/
theorem raceInv_next {s s' : Racing α C} {e : RaceEvent} (hlt : stream.length < 2 ^ 64)
    (hbound : stream.length ≤ C.val + (F - clamp C n))
    (h : WriterInv stream F s ∧ ReaderInv stream F (clamp C n) s) (hs : s.next n e = some s') :
    WriterInv stream F s' ∧ ReaderInv stream F (clamp C n) s' := by
  have hC := C.lt
  refine ⟨writerInv_next h.1 hs, ?_⟩
  cases e with
  | writer => exact readerInv_writerStep h.2 hs
  | reader => exact readerInv_readerStep h.1 h.2 hlt (by rw [clamp_eq]; omega) hbound hs
  | call maxRetries =>
    simp only [Racing.next] at hs
    split at hs <;> cases hs
    exact ⟨nofun, nofun⟩

/-- **A ring that never wraps over the first window**: every window returned is coherent. -/
theorem coherent_of_bound {blocks : List (List α)} {dest : Mem α} {es : List RaceEvent} {s : Racing α C}
    (hlt : blocks.flatten.length < 2 ^ 64)
    (hbound : blocks.flatten.length ≤ C.val + (firstBlock (blocks.map List.length) - clamp C n))
    (h : execute (Racing.next n) (Racing.start C blocks dest) es = some s) {before : UInt64}
    (hr : s.reader = .returned before) :
    (List.range (clamp C n)).map s.dest = window blocks.flatten (clamp C n) before.toNat :=
  (execute_inv (fun _ _ _ => raceInv_next hlt hbound) ⟨writerInv_start blocks dest, ⟨nofun, nofun⟩⟩ h).2.returned
    before hr

end Coherent

/-! ## A window that a write in progress tears -/

section Torn

variable [Zero α] {stream : List α} {F n : Nat}

/-- From between two blocks, the writer gets to the store of its next sample. -/
theorem advance_idle (ring : SharedRingBuffer α C) (reader : ReaderPc) (dest : Mem α) (stored : List α)
    (published : Nat) : ∀ (todo : List (List α)), todo.flatten ≠ [] → ∃ k pos x rest todo',
      execute (Racing.next n) ⟨ring, todo, .idle, reader, dest, stored, published⟩ (List.replicate k .writer) =
        some ⟨ring, todo', .storing pos 0 (x :: rest), reader, dest, stored, published⟩
  | [], h => absurd rfl h
  | [] :: todo, h => by
    obtain ⟨k, pos, x, rest, todo', hes⟩ := advance_idle ring reader dest stored published todo (by simpa using h)
    -- an empty block publishes the counter it loaded
    have hsame : ring.writeCount + UInt64.ofNat 0 = ring.writeCount := UInt64.add_zero _
    refine ⟨k + 2, pos, x, rest, todo', ?_⟩
    simp only [List.replicate_succ, execute_cons, Racing.next, Racing.writerStep, Option.bind_some, hsame, Nat.add_zero]
    exact hes
  | (x :: rest) :: todo, _ => ⟨1, ring.writeCount, x, rest, todo, rfl⟩

variable (n) in
/-- Storing one sample. -/
theorem next_store (ring : SharedRingBuffer α C) (todo : List (List α)) (pos : UInt64) (i : Nat) (x : α)
    (rest : List α) (reader : ReaderPc) (dest : Mem α) (stored : List α) (published : Nat) :
    Racing.next n ⟨ring, todo, .storing pos i (x :: rest), reader, dest, stored, published⟩ .writer =
      some ⟨{ ring with buffer := Function.update ring.buffer (C.slot (pos + UInt64.ofNat i)) x }, todo,
        .storing pos (i + 1) rest, reader, dest, stored ++ [x], published⟩ := rfl

variable (n) in
/-- Publishing a block. -/
theorem next_publish (ring : SharedRingBuffer α C) (todo : List (List α)) (pos : UInt64) (i : Nat)
    (reader : ReaderPc) (dest : Mem α) (stored : List α) (published : Nat) :
    Racing.next n ⟨ring, todo, .storing pos i [], reader, dest, stored, published⟩ .writer =
      some ⟨{ ring with writeCount := pos + UInt64.ofNat i }, todo, .idle, reader, dest, stored, published + i⟩ := rfl

variable (n) in
/-- Calling `readLastN`. -/
theorem next_call (ring : SharedRingBuffer α C) (todo : List (List α)) (writer : WriterPc α) (maxRetries : Nat)
    (dest : Mem α) (stored : List α) (published : Nat) :
    Racing.next n ⟨ring, todo, writer, .idle, dest, stored, published⟩ (.call maxRetries) =
      some ⟨ring, todo, writer, .load maxRetries, dest, stored, published⟩ := rfl

variable (n) in
/-- Loading a counter that is not zero. -/
theorem next_load (ring : SharedRingBuffer α C) (todo : List (List α)) (writer : WriterPc α) (left : Nat)
    (dest : Mem α) (stored : List α) (published : Nat) (h : ring.writeCount ≠ 0) :
    Racing.next n ⟨ring, todo, writer, .load (left + 1), dest, stored, published⟩ .reader =
      some ⟨ring, todo, writer, .copy left ring.writeCount (span ring.writeCount (clamp C n)).1
        (span ring.writeCount (clamp C n)).2 0,
        fillN dest (clamp C n - (span ring.writeCount (clamp C n)).2) 0, stored, published⟩ := by
  simp only [Racing.next, Racing.readerStep, if_neg h]

variable (n) in
/-- A check that passes. -/
theorem next_verify {s : Racing α C} {left : Nat} {before start : UInt64} {toRead : Nat}
    (hr : s.reader = .copy left before start toRead toRead) (hun : unlapped C s.ring.writeCount start = true) :
    Racing.next n s .reader = some { s with reader := .returned before } := by
  simp only [Racing.next, Racing.readerStep, hr, if_neg (Nat.lt_irrefl toRead), hun, if_pos]

/-- Runs of the writer compose. -/
theorem writer_trans {s t u : Racing α C} {k l : Nat}
    (h : execute (Racing.next n) s (List.replicate k .writer) = some t)
    (h' : execute (Racing.next n) t (List.replicate l .writer) = some u) :
    execute (Racing.next n) s (List.replicate (k + l) .writer) = some u := by
  rw [← List.replicate_append_replicate]
  exact execute_trans h h'

/-- The writer can go on to store the next sample of the stream. -/
theorem advance {s : Racing α C} (h : WriterInv stream F s) (hlt : s.stored.length < stream.length) :
    ∃ k s', execute (Racing.next n) s (List.replicate k .writer) = some s' ∧
      s'.stored.length = s.stored.length + 1 ∧ s'.reader = s.reader ∧ s'.dest = s.dest ∧
      ∃ pos i rest, s'.writer = .storing pos (i + 1) rest := by
  have hne : s.writer.rest ++ s.todo.flatten ≠ [] := by
    intro h0
    have := congrArg List.length h.stream_eq
    rw [Racing.stream, List.append_assoc, h0, List.append_nil] at this
    omega
  obtain ⟨ring, todo, writer, reader, dest, stored, published⟩ := s
  cases writer with
  | idle =>
    obtain ⟨k, pos, x, rest, todo', hes⟩ := advance_idle (n := n) ring reader dest stored published todo hne
    exact ⟨k + 1, _, writer_trans (l := 1) hes (next_store n ..), List.length_append, rfl, rfl, pos, 0, rest, rfl⟩
  | storing pos i rest =>
    cases rest with
    | nil =>
      obtain ⟨k, pos', x, rest, todo', hes⟩ := advance_idle (n := n) { ring with writeCount := pos + UInt64.ofNat i }
        reader dest stored (published + i) todo hne
      have hpub : execute (Racing.next n) ⟨ring, todo, .storing pos i [], reader, dest, stored, published⟩
          (List.replicate 1 .writer) = some _ := next_publish n ..
      exact ⟨1 + k + 1, _, writer_trans (l := 1) (writer_trans hpub hes) (next_store n ..), List.length_append, rfl,
        rfl, pos', 0, rest, rfl⟩
    | cons x rest => exact ⟨1, _, next_store n .., List.length_append, rfl, rfl, pos, i, rest, rfl⟩

theorem writerInv_execute {s s' : Racing α C} {es : List RaceEvent} (h : WriterInv stream F s)
    (hes : execute (Racing.next n) s es = some s') : WriterInv stream F s' :=
  execute_inv (fun _ _ _ => writerInv_next) h hes

/-- The writer can stop right after any store that is still to come. -/
theorem reach_store {s : Racing α C} (h : WriterInv stream F s) : ∀ m, s.stored.length < m → m ≤ stream.length →
    ∃ k s', execute (Racing.next n) s (List.replicate k .writer) = some s' ∧ s'.stored.length = m ∧
      s'.reader = s.reader ∧ s'.dest = s.dest ∧ ∃ pos i rest, s'.writer = .storing pos (i + 1) rest
  | 0, hm, _ => absurd hm (Nat.not_lt_zero _)
  | m + 1, hm, hle => by
    rcases Nat.lt_succ_iff_lt_or_eq.1 hm with hlt | heq
    · obtain ⟨k, s₁, hes, hlen, hr, hd, -⟩ := reach_store h m hlt (by omega)
      obtain ⟨l, s₂, hes', hlen', hr', hd', hw⟩ := advance (writerInv_execute h hes)
        (show s₁.stored.length < stream.length by omega)
      exact ⟨k + l, s₂, writer_trans hes hes', by omega, hr'.trans hr, hd'.trans hd, hw⟩
    · obtain ⟨k, s₁, hes, hlen, hr⟩ := advance (n := n) h (by omega)
      exact ⟨k, s₁, hes, by omega, hr⟩

/-- The published samples only grow. -/
theorem published_mono {s s' : Racing α C} {e : RaceEvent} (h : s.next n e = some s') :
    s.published ≤ s'.published := by
  cases e with
  | writer =>
    obtain ⟨ring, todo, writer, reader, dest, stored, published⟩ := s
    cases writer with
    | idle =>
      cases todo with
      | nil => cases h
      | cons block todo => cases h; exact Nat.le_refl _
    | storing pos i rest =>
      cases rest with
      | nil => cases h; exact Nat.le_add_right _ _
      | cons x rest => cases h; exact Nat.le_refl _
  | reader =>
    rcases readerStep_cases h with rfl | ⟨-, rfl⟩ | ⟨left, -, rfl⟩ | ⟨_, _, _, _, _, -, ⟨-, rfl⟩ | ⟨-, rfl | rfl⟩⟩
    all_goals exact Nat.le_refl _
  | call maxRetries =>
    simp only [Racing.next] at h
    split at h <;> cases h
    exact Nat.le_refl _

/-- The reader's loop, when the writer does not step, is `copyOut`. -/
theorem copy_run (s : Racing α C) {left : Nat} {before start : UInt64} {toRead : Nat} (k : Nat) (hk : k ≤ toRead)
    (hr : s.reader = .copy left before start toRead 0) :
    execute (Racing.next n) s (List.replicate k .reader) =
      some { s with
        dest := s.ring.copyOut s.dest (clamp C n - toRead) start k
        reader := .copy left before start toRead k } := by
  induction k with
  | zero => rw [← hr]; rfl
  | succ k ih =>
    rw [List.replicate_succ']
    refine execute_snoc (ih (by omega)) ?_
    simp only [Racing.next, Racing.readerStep, if_pos (show k < toRead by omega)]
    rfl

/-- The writer publishes its first non-empty block, and the reader loads the counter. -/
theorem first_load (stream : List α) {s : Racing α C} (h : WriterInv stream F s) (hs : s.stored = [])
    (hr : s.reader = .idle) (hF : 0 < F) (hFlt : F < 2 ^ 31) (hlong : F ≤ stream.length) :
    ∃ es s' start, execute (Racing.next n) s es = some s' ∧
      s'.reader = .copy 0 (UInt64.ofNat F) start (min (clamp C n) F) 0 ∧ start.toNat = F - clamp C n ∧
      s'.stored.length = F ∧ s'.published = F := by
  have hC := C.lt
  have hcl : clamp C n = min n C.val := clamp_eq n
  obtain ⟨k, s₁, hes, hlen, hr₁, -, pos, i, rest, hw₁⟩ := reach_store (n := n) h F (by rw [hs]; exact hF) hlong
  have h₁ := writerInv_execute h hes
  obtain ⟨-, hst⟩ := h₁.storing _ _ _ hw₁
  have hpub₁ : s₁.published = 0 := by
    rcases h₁.later with h' | h'
    · exact h'
    · omega
  have hrest : rest = [] := by
    have hf := h₁.first hpub₁
    rw [hw₁] at hf
    simp only [WriterPc.sizes, firstBlock] at hf
    rw [if_neg (by omega)] at hf
    exact List.length_eq_zero_iff.1 (by omega)
  subst hrest
  obtain ⟨ring, todo, writer, reader, dest, stored, published⟩ := s₁
  obtain rfl : writer = .storing pos (i + 1) [] := hw₁
  obtain rfl : reader = .idle := hr₁.trans hr
  obtain rfl : published = 0 := hpub₁
  have hi : i + 1 = F := by dsimp only at hst hlen; omega
  have hcount : pos + UInt64.ofNat (i + 1) = UInt64.ofNat F := by
    have hpos := (h₁.storing _ _ _ rfl).1
    apply UInt64.toNat_inj.1
    rw [toNat_add_ofNat hpos, UInt64.toNat_ofNat', hi]
    dsimp only
    omega
  have hbefore : (UInt64.ofNat F).toNat = F := by rw [UInt64.toNat_ofNat']; omega
  have hne : UInt64.ofNat F ≠ 0 := fun h0 => by
    rw [h0, UInt64.toNat_zero] at hbefore
    omega
  obtain ⟨hstart, hto⟩ := span_eq (UInt64.ofNat F) (show clamp C n < 2 ^ 31 by omega)
  rw [hbefore] at hstart hto
  have hpub := next_publish n ring todo pos (i + 1) .idle dest stored 0
  rw [hcount, Nat.zero_add] at hpub
  have hcall := next_call (C := C) n { ring with writeCount := UInt64.ofNat F } todo .idle 1 dest stored (i + 1)
  have hload := next_load (C := C) n { ring with writeCount := UInt64.ofNat F } todo .idle 0 dest stored (i + 1) hne
  dsimp only at hload
  rw [hto] at hload
  exact ⟨_, _, _, execute_snoc (execute_snoc (execute_snoc hes hpub) hcall) hload, rfl, hstart, hlen, hi⟩

/-- Behind that load the writer goes on to store the sample that overwrites the oldest slot of the window. -/
theorem torn_copy (stream : List α) {s : Racing α C} (h : WriterInv stream F s) (hs : s.stored = [])
    (hr : s.reader = .idle) (hF : 0 < F) (hFlt : F < 2 ^ 31)
    (hlong : C.val + (F - clamp C n) < stream.length) :
    ∃ es s' start, execute (Racing.next n) s es = some s' ∧
      s'.reader = .copy 0 (UInt64.ofNat F) start (min (clamp C n) F) 0 ∧ start.toNat = F - clamp C n ∧
      s'.stored.length = C.val + (F - clamp C n) + 1 ∧ F ≤ s'.published ∧ s'.published < s'.stored.length := by
  have hcl : clamp C n = min n C.val := clamp_eq n
  obtain ⟨es, s₁, start, hes, hr₁, hstart, hlen, hpub⟩ := first_load (n := n) stream h hs hr hF hFlt (by omega)
  have h₁ := writerInv_execute h hes
  obtain ⟨k, s₂, hes', hlen', hr', -, pos, i, rest, hw⟩ :=
    reach_store (n := n) h₁ (C.val + (F - clamp C n) + 1) (by omega) (by omega)
  have h₂ := writerInv_execute h₁ hes'
  refine ⟨_, s₂, start, execute_trans hes hes', hr'.trans hr₁, hstart, hlen', ?_, ?_⟩
  · exact execute_inv (P := fun s => F ≤ s.published) (fun _ _ _ hP he => hP.trans (published_mono he)) hpub.ge hes'
  · have := (h₂.storing _ _ _ hw).2
    omega

/-- The samples of a stream `f`, cut into blocks of the given sizes. -/
def cut (f : Nat → α) : Nat → List Nat → List (List α)
  | _, [] => []
  | a, b :: bs => (List.range' a b).map f :: cut f (a + b) bs

omit [Zero α] in
theorem map_length_cut (f : Nat → α) : ∀ (a : Nat) (sizes : List Nat), (cut f a sizes).map List.length = sizes
  | _, [] => rfl
  | a, b :: bs => by simp [cut, map_length_cut f (a + b) bs]

omit [Zero α] in
theorem flatten_cut (f : Nat → α) : ∀ (a : Nat) (sizes : List Nat),
    (cut f a sizes).flatten = (List.range' a sizes.sum).map f
  | _, [] => rfl
  | a, b :: bs => by
    rw [cut, List.flatten_cons, flatten_cut f (a + b) bs, ← List.map_append, List.sum_cons, ← List.range'_append_1]

/-- The first sample of a window. -/
theorem getElem?_window {before : Nat} (hn : n ≠ 0) (hb : 0 < before) :
    (window stream n before)[n - min n before]? = stream[before - n]? := by
  rw [window, List.getElem?_append_right (by rw [List.length_replicate]; omega), List.length_replicate,
    show n - min n before - (n - before) = 0 by omega, List.getElem?_drop, Nat.add_zero, List.getElem?_take,
    if_pos (by omega)]

/-- After the overwriting store, the reader copies its window and its check passes. -/
theorem torn_return {s : Racing α C} (h : WriterInv stream F s) {before start : UInt64} {toRead : Nat} {a : Nat}
    (hr : s.reader = .copy 0 before start toRead 0) (hto : 0 < toRead) (hstart : start.toNat = a)
    (ha : a ≤ s.published) (hlen : s.stored.length = C.val + a + 1) (hpub : s.published < s.stored.length)
    (hlt : s.stored.length < 2 ^ 64) :
    ∃ es s', execute (Racing.next n) s es = some s' ∧ s'.reader = .returned before ∧
      some (s'.dest (clamp C n - toRead)) = stream[a + C.val]? := by
  have hcount : s.ring.writeCount.toNat = s.published := by rw [h.count]; omega
  have hun : unlapped C s.ring.writeCount start = true := by
    simp only [unlapped, decide_eq_true_eq, UInt64.le_iff_toNat_le, UInt64.toNat_sub, C.toNat_ofNat, hcount, hstart]
    omega
  refine ⟨_, _, execute_snoc (copy_run s toRead (Nat.le_refl _) hr) (next_verify n rfl hun), rfl, ?_⟩
  obtain ⟨rest, hrest⟩ := h.stored_prefix
  have hC := C.pos
  have hslot : C.slot (start + UInt64.ofNat (clamp C n - toRead - (clamp C n - toRead))) = (a + C.val) % C.val := by
    rw [Nat.sub_self, C.slot_of_toNat (toNat_add_ofNat (Nat.mod_eq_of_lt start.toNat_lt).symm 0), hstart,
      Nat.add_mod_right, Nat.add_zero]
  dsimp only
  rw [copyOut_apply, if_pos ⟨Nat.le_refl _, by omega⟩, hslot, ← h.slots (a + C.val) (by omega) (by omega), ← hrest,
    List.getElem?_append_left (by omega)]

end Torn

/-- **When `readLastN` is coherent**: whatever the samples and the interleaving, a window returned is the published one,
if and only if it is empty or no store reaches `start + Capacity` of the window behind the first block. -/
theorem readLastN_coherent_iff [Zero α] [Nontrivial α] (C : Capacity) (n : Nat) (sizes : List IntNat) :
    (∀ (blocks : List (List α)), blocks.map List.length = sizes.map Subtype.val → ∀ dest es s,
      execute (Racing.next n) (Racing.start C blocks dest) es = some s → ∀ before, s.reader = .returned before →
        (List.range (min n C.val)).map s.dest = window blocks.flatten (min n C.val) before.toNat) ↔
    n = 0 ∨ (sizes.map Subtype.val).sum ≤ C.val + (firstBlock (sizes.map Subtype.val) - min n C.val) := by
  have hcl : clamp C n = min n C.val := clamp_eq n
  constructor
  · intro hall
    by_contra hcon
    rw [not_or, Nat.not_le] at hcon
    obtain ⟨hn, hlong⟩ := hcon
    obtain ⟨y, hy⟩ := exists_ne (0 : α)
    have hC := C.lt
    have hCpos := C.pos
    have hF := firstBlock_pos (show 0 < (sizes.map Subtype.val).sum by omega)
    have hFlt : firstBlock (sizes.map Subtype.val) < 2 ^ 31 := firstBlock_lt (by omega) fun b hb => by
      obtain ⟨b', -, rfl⟩ := List.mem_map.1 hb
      exact b'.2
    generalize hFdef : firstBlock (sizes.map Subtype.val) = F at *
    -- only the overwriting sample is not zero
    let f : Nat → α := fun i => if i = F - min n C.val + C.val then y else 0
    have hsizes := map_length_cut f 0 (sizes.map Subtype.val)
    have hflat := flatten_cut f 0 (sizes.map Subtype.val)
    generalize cut f 0 (sizes.map Subtype.val) = blocks at hsizes hflat
    have hget : ∀ i, i < (sizes.map Subtype.val).sum → blocks.flatten[i]? = some (f i) := by
      intro i hi
      rw [hflat, List.getElem?_map, List.getElem?_range' hi, Option.map_some, Nat.zero_add, Nat.one_mul]
    have hstart := writerInv_start (C := C) blocks fun _ => 0
    rw [hsizes, hFdef] at hstart
    have hlen : blocks.flatten.length = (sizes.map Subtype.val).sum := by rw [hflat]; simp
    obtain ⟨es, s, start, hes, hr, hs, hst, hle, hlt⟩ :=
      torn_copy (n := n) blocks.flatten hstart rfl rfl hF hFlt (by omega)
    obtain ⟨es', s', hes', hr', hd⟩ := torn_return (writerInv_execute hstart hes) hr (by omega) hs (by omega)
      (by omega) hlt (by omega)
    have hwin := hall blocks hsizes _ _ s' (execute_trans hes hes') _ hr'
    have hbefore : (UInt64.ofNat F).toNat = F := by rw [UInt64.toNat_ofNat']; omega
    have hat := congrArg (fun l => l[min n C.val - min (min n C.val) F]?) hwin
    rw [hcl] at hd
    rw [hbefore, getElem?_window (by omega) hF, List.getElem?_map, List.getElem?_range (by omega), Option.map_some,
      hd, hget _ (by omega), hget _ (by omega)] at hat
    exact hy (by simpa [f, hCpos.ne'] using hat)
  · rintro (rfl | hbound) blocks hsizes dest es s h before hr
    · simp [window]
    · rw [← hcl] at hbound ⊢
      have hC := C.lt
      have hlen : blocks.flatten.length = (sizes.map Subtype.val).sum := by rw [List.length_flatten, hsizes]
      have hF : firstBlock (sizes.map Subtype.val) < 2 ^ 31 := firstBlock_lt (by omega) fun b hb => by
        obtain ⟨b', -, rfl⟩ := List.mem_map.1 hb
        exact b'.2
      exact coherent_of_bound (by omega) (by rw [hsizes]; omega) h hr

/-- The second block overwrites the oldest slot of the window before it is published: the reader takes `5` for `1`. -/
def tornRun : List RaceEvent :=
  List.replicate 6 .writer ++ [.call 1, .reader, .writer, .writer] ++ List.replicate 5 .reader

theorem tornRun_returns :
    (execute (Racing.next 4) (Racing.start capacity4 [[1, 2, 3, 4], [5]] fun _ => 0) tornRun).map
      (fun s => (s.reader, (List.range 4).map s.dest)) = some (.returned 4, [5, 2, 3, 4]) := by decide +kernel

theorem readLastN_torn : ¬ ∀ es s,
    execute (Racing.next 4) (Racing.start capacity4 [[1, 2, 3, 4], [5]] fun _ => 0) es = some s →
      ∀ before, s.reader = .returned before →
        (List.range 4).map s.dest = window [1, 2, 3, 4, 5] 4 before.toNat := by
  intro h
  obtain ⟨s, hs, heq⟩ := Option.map_eq_some_iff.1 tornRun_returns
  rw [Prod.mk.injEq] at heq
  have := h tornRun s hs 4 heq.1
  rw [heq.2] at this
  exact absurd this (by decide)

/-- A store of the second block falls into the copy, but no store laps the window. -/
def coherentRun : List RaceEvent :=
  List.replicate 5 .writer ++ [.call 1, .reader, .reader, .writer, .writer] ++ List.replicate 3 .reader

theorem readLastN_coherent_four : ∃ s,
    execute (Racing.next 4) (Racing.start capacity4 [[1, 2, 3], [4]] fun _ => 0) coherentRun = some s ∧
      s.reader = .returned 3 ∧ (List.range 4).map s.dest = window [1, 2, 3, 4] 4 3 := by
  obtain ⟨s, hs, hr⟩ := Option.map_eq_some_iff.1 (show
    (execute (Racing.next 4) (Racing.start capacity4 [[1, 2, 3], [4]] fun _ => 0) coherentRun).map (·.reader) =
      some (.returned 3) by decide +kernel)
  exact ⟨s, hs, hr, (readLastN_coherent_iff capacity4 4 [⟨3, by decide⟩, ⟨1, by decide⟩]).2 (.inr (by decide))
    [[1, 2, 3], [4]] rfl _ coherentRun s hs 3 hr⟩

end Bajiru.Linkjiru
