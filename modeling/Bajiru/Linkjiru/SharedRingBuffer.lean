import Bajiru.RingSlots
import Mathlib.Algebra.Notation.Defs
import Mathlib.Tactic.Common

/-!
# `SharedRingBuffer`

The ring of `SharedRingBuffer.h`, with its operations run whole: `write`, `readLastN`, `read`, `getWriteCount`. The
counter and the cursors are `uint64_t` and wrap; the slots are the memory of the `std::vector`, a destination is the
memory behind the caller's pointer.

`Represents rb h` says that `rb` has taken the samples `h`: the counter is the length modulo `2 ^ 64` and the slots
hold the newest `Capacity` samples. `write` appends (`represents_write`); `read` delivers the samples from the cursor
on (`read_spec`); `readLastN` delivers the newest ones after zeros (`readLastN_spec`).
-/

namespace Bajiru.Linkjiru

/-- A ring capacity: a power of two in the range of `int`. -/
structure Capacity where
  val : Nat
  pow : ∃ k, k < 31 ∧ val = 2 ^ k

namespace Capacity

/-- `Mask`. -/
def mask (C : Capacity) : UInt64 := UInt64.ofNat C.val - 1

/-- The slot of an absolute index: `index & Mask`. -/
def slot (C : Capacity) (i : UInt64) : Nat := (i &&& C.mask).toNat

variable (C : Capacity)

theorem pos : 0 < C.val := by
  obtain ⟨k, _, h⟩ := C.pow
  rw [h]; exact Nat.two_pow_pos k

theorem lt : C.val < 2 ^ 31 := by
  obtain ⟨k, hk, h⟩ := C.pow
  rw [h]; exact Nat.pow_lt_pow_right (by omega) hk

theorem dvd : C.val ∣ 2 ^ 64 := by
  obtain ⟨k, hk, h⟩ := C.pow
  rw [h]; exact Nat.pow_dvd_pow 2 (by omega)

theorem toNat_ofNat : (UInt64.ofNat C.val).toNat = C.val := by
  have := C.lt
  simp only [UInt64.toNat_ofNat']; omega

theorem toNat_mask : C.mask.toNat = C.val - 1 := by
  have := C.pos
  have := C.lt
  simp only [mask, UInt64.toNat_sub, toNat_ofNat, UInt64.toNat_one]; omega

/-- The mask takes an index modulo the capacity. -/
theorem slot_eq (i : UInt64) : C.slot i = i.toNat % C.val := by
  have hm := C.toNat_mask
  obtain ⟨k, _, h⟩ := C.pow
  rw [slot, UInt64.toNat_and, hm, h, Nat.and_two_pow_sub_one_eq_mod]

/-- Wrapping the counter does not change the slot. -/
theorem slot_of_toNat {i : UInt64} {a : Nat} (h : i.toNat = a % 2 ^ 64) : C.slot i = a % C.val := by
  rw [slot_eq, h, Nat.mod_mod_of_dvd _ C.dvd]

end Capacity

/-- The ring of four slots of the tests. -/
def capacity4 : Capacity := ⟨4, 2, by decide, rfl⟩

/-- An index counted from a wrapped one. -/
theorem toNat_add_ofNat {p : UInt64} {a : Nat} (h : p.toNat = a % 2 ^ 64) (i : Nat) :
    (p + UInt64.ofNat i).toNat = (a + i) % 2 ^ 64 := by
  rw [UInt64.toNat_add, UInt64.toNat_ofNat', h]; omega

/-- A non-negative `int`. -/
abbrev IntNat := { n : Nat // n < 2 ^ 31 }

/-- The memory behind a `float*`. -/
abbrev Mem (α : Type*) := Nat → α

/-- `std::fill_n(dest, n, x)`. -/
def fillN {α : Type*} (dest : Mem α) (n : Nat) (x : α) : Mem α := fun i => if i < n then x else dest i

/-- The slots and the total number of samples ever written. -/
structure SharedRingBuffer (α : Type*) (C : Capacity) where
  buffer : Mem α
  writeCount : UInt64

/-- What `read` returns. -/
structure ReadResult where
  samplesRead : Nat
  overrun : Bool
  deriving DecidableEq

namespace SharedRingBuffer

variable {α : Type*} {C : Capacity}

/-- The loop of `write`, from its `i`-th iteration on. -/
def writeLoop (C : Capacity) (pos : UInt64) (buffer : Mem α) : Nat → List α → Mem α
  | _, [] => buffer
  | i, x :: xs => writeLoop C pos (Function.update buffer (C.slot (pos + UInt64.ofNat i)) x) (i + 1) xs

/-- `write(data, numSamples)`. -/
def write (rb : SharedRingBuffer α C) (data : List α) : SharedRingBuffer α C :=
  { buffer := writeLoop C rb.writeCount rb.buffer 0 data
    writeCount := rb.writeCount + UInt64.ofNat data.length }

/-- `getWriteCount()`. -/
def getWriteCount (rb : SharedRingBuffer α C) : UInt64 := rb.writeCount

/-- `copyOut(dest + off, start, count)`. -/
def copyOut (rb : SharedRingBuffer α C) (dest : Mem α) (off : Nat) (start : UInt64) : Nat → Mem α
  | 0 => dest
  | i + 1 => Function.update (copyOut rb dest off start i) (off + i) (rb.buffer (C.slot (start + UInt64.ofNat i)))

/-- `start` and `toRead` of a snapshot of `n` samples, when `before` were written. -/
def span (before : UInt64) (n : Nat) : UInt64 × Nat :=
  if UInt64.ofNat n ≤ before then (before - UInt64.ofNat n, n) else (0, before.toNat)

/-- The check of the re-read counter: the writer has not passed `start + Capacity`. -/
def unlapped (C : Capacity) (count start : UInt64) : Bool := count - start ≤ UInt64.ofNat C.val

/-- `n` clamped to the capacity. -/
def clamp (C : Capacity) (n : Nat) : Nat := if n > C.val then C.val else n

section ReadLastN

variable [Zero α]

/-- The retry loop of `readLastN`, with `left` attempts left. -/
def attempts (rb : SharedRingBuffer α C) (n : Nat) : Nat → Mem α → Bool × Mem α
  | 0, dest => (false, dest)
  | left + 1, dest =>
    let before := rb.writeCount
    if before = 0 then (true, fillN dest n 0)
    else
      let (start, toRead) := span before n
      -- a full window fills nothing: `n - toRead = 0`
      let dest := rb.copyOut (fillN dest (n - toRead) 0) (n - toRead) start toRead
      if unlapped C rb.writeCount start then (true, dest) else attempts rb n left dest

/-- `readLastN(dest, n, maxRetries)`. -/
def readLastN (rb : SharedRingBuffer α C) (dest : Mem α) (n : Nat) (maxRetries : Nat) : Bool × Mem α :=
  rb.attempts (clamp C n) maxRetries dest

end ReadLastN

/-- The writer is more than the capacity ahead of the cursor. -/
def lapped (C : Capacity) (currentWrite cursor : UInt64) : Bool := currentWrite > cursor + UInt64.ofNat C.val

/-- `read(dest, maxSamples, cursor)`: the result, the destination and the new cursor. -/
def read (rb : SharedRingBuffer α C) (dest : Mem α) (maxSamples : Nat) (cursor : UInt64) :
    ReadResult × Mem α × UInt64 :=
  let currentWrite := rb.writeCount
  let overrun := lapped C currentWrite cursor
  let cursor := if overrun then currentWrite - UInt64.ofNat C.val else cursor
  let available := currentWrite - cursor
  let toRead := (min available (UInt64.ofNat maxSamples)).toNat
  (⟨toRead, overrun⟩, rb.copyOut dest 0 cursor toRead, cursor + UInt64.ofNat toRead)

/-! ## The samples a ring represents -/

/-- `rb` has taken the samples `h`. -/
structure Represents (rb : SharedRingBuffer α C) (h : List α) : Prop where
  count : rb.writeCount.toNat = h.length % 2 ^ 64
  slots : RingSlots.Holds C.val h rb.buffer

/-- A new ring: every slot is zero and nothing was written. -/
def new (α : Type*) [Zero α] (C : Capacity) : SharedRingBuffer α C := ⟨fun _ => 0, 0⟩

theorem represents_new [Zero α] : Represents (new α C) [] := ⟨by simp [new], RingSlots.Holds.nil⟩

/-- The loop of `write` stores the rest of the block. -/
theorem holds_writeLoop {pos : UInt64} {h : List α} (hpos : pos.toNat = h.length % 2 ^ 64) :
    ∀ (data done : List α) (buffer : Mem α), RingSlots.Holds C.val (h ++ done) buffer →
      RingSlots.Holds C.val (h ++ done ++ data) (writeLoop C pos buffer done.length data)
  | [], done, buffer, hh => by simpa [writeLoop] using hh
  | x :: xs, done, buffer, hh => by
    have hslot : C.slot (pos + UInt64.ofNat done.length) = (h ++ done).length % C.val := by
      rw [C.slot_of_toNat (toNat_add_ofNat hpos _), List.length_append]
    have hrest := holds_writeLoop hpos xs (done ++ [x]) _ (by
      rw [← List.append_assoc]; exact hh.store x)
    rw [writeLoop, hslot]
    simpa using hrest

/-- `write` appends its block. -/
theorem represents_write {rb : SharedRingBuffer α C} {h : List α} (hr : rb.Represents h) (data : List α) :
    (rb.write data).Represents (h ++ data) where
  count := by rw [write, toNat_add_ofNat hr.count, List.length_append]
  slots := by simpa [write] using holds_writeLoop hr.count data [] rb.buffer (by simpa using hr.slots)

theorem represents_foldl (blocks : List (List α)) {rb : SharedRingBuffer α C} {h : List α} (hr : rb.Represents h) :
    (blocks.foldl write rb).Represents (h ++ blocks.flatten) := by
  induction blocks generalizing rb h with
  | nil => simpa using hr
  | cons block blocks ih => simpa using ih (represents_write hr block)

/-! ## What the copies deliver -/

/-- `copyOut` writes its `count` slots of the destination and no other. -/
theorem copyOut_apply (rb : SharedRingBuffer α C) (dest : Mem α) (off : Nat) (start : UInt64) (count j : Nat) :
    rb.copyOut dest off start count j =
      if off ≤ j ∧ j < off + count then rb.buffer (C.slot (start + UInt64.ofNat (j - off))) else dest j := by
  induction count with
  | zero => simp [copyOut]
  | succ i ih =>
    rw [copyOut]
    by_cases hj : j = off + i
    · subst hj
      simp
    · rw [Function.update_of_ne hj, ih]
      congr 1
      simp only [eq_iff_iff]; omega

/-- The copied samples, for a span that is still in the ring. -/
theorem copyOut_eq {rb : SharedRingBuffer α C} {h : List α} (hr : rb.Represents h) {start : UInt64} {s count : Nat}
    (hs : start.toNat = s % 2 ^ 64) (hle : s + count ≤ h.length) (hC : h.length ≤ s + C.val) (dest : Mem α)
    (off : Nat) : (List.range count).map (fun i => rb.copyOut dest off start count (off + i)) =
      (h.drop s).take count := by
  rw [← hr.slots.map_range hle hC]
  apply List.map_congr_left
  intro i hi
  have hi := List.mem_range.1 hi
  rw [copyOut_apply, if_pos ⟨by omega, by omega⟩, Nat.add_sub_cancel_left,
    C.slot_of_toNat (toNat_add_ofNat hs i)]

/-! ## `read` -/

/-- The samples between a cursor and the counter, when the cursor is within the capacity. -/
theorem available_eq {rb : SharedRingBuffer α C} {h : List α} (hr : rb.Represents h) {cursor : UInt64} {c : Nat}
    (hc : cursor.toNat = c % 2 ^ 64) (hle : c ≤ h.length) (hC : h.length ≤ c + C.val) :
    (rb.writeCount - cursor).toNat = h.length - c := by
  have := C.lt
  rw [UInt64.toNat_sub, hr.count, hc]; omega

/-- The number of samples a read takes. -/
theorem toRead_eq {rb : SharedRingBuffer α C} {h : List α} (hr : rb.Represents h) {cursor : UInt64} {c m : Nat}
    (hc : cursor.toNat = c % 2 ^ 64) (hle : c ≤ h.length) (hC : h.length ≤ c + C.val) (hm : m < 2 ^ 31) :
    (min (rb.writeCount - cursor) (UInt64.ofNat m)).toNat = min m (h.length - c) := by
  have ha := available_eq hr hc hle hC
  have hm' : (UInt64.ofNat m).toNat = m := by rw [UInt64.toNat_ofNat']; omega
  rw [UInt64.min_def]
  split
  · rename_i h'
    rw [UInt64.le_iff_toNat_le, ha, hm'] at h'
    omega
  · rename_i h'
    rw [UInt64.le_iff_toNat_le, ha, hm'] at h'
    omega

/-- The cursor from which `read` copies. -/
def caughtUp (C : Capacity) (currentWrite cursor : UInt64) : UInt64 :=
  if lapped C currentWrite cursor then currentWrite - UInt64.ofNat C.val else cursor

/-- What `read` delivers from a caught-up cursor. -/
structure Delivers (rb : SharedRingBuffer α C) (h : List α) (dest : Mem α) (m : Nat) (cursor : UInt64) (c' : Nat) :
    Prop where
  samplesRead : (rb.read dest m cursor).1.samplesRead = min m (h.length - c')
  samples : (List.range (rb.read dest m cursor).1.samplesRead).map (rb.read dest m cursor).2.1 =
    (h.drop c').take (min m (h.length - c'))
  frame : ∀ j, (rb.read dest m cursor).1.samplesRead ≤ j → (rb.read dest m cursor).2.1 j = dest j
  cursor : (rb.read dest m cursor).2.2.toNat = (c' + min m (h.length - c')) % 2 ^ 64

/-- A read from a cursor that is within the capacity once it has caught up. -/
theorem delivers {rb : SharedRingBuffer α C} {h : List α} (hr : rb.Represents h) {cursor : UInt64} {c' m : Nat}
    (hc : (caughtUp C rb.writeCount cursor).toNat = c' % 2 ^ 64) (hle : c' ≤ h.length)
    (hC : h.length ≤ c' + C.val) (hm : m < 2 ^ 31) (dest : Mem α) : rb.Delivers h dest m cursor c' := by
  have hto := toRead_eq hr hc hle hC hm
  refine ⟨hto, ?_, fun j hj => ?_, ?_⟩
  · have hcopy := copyOut_eq hr hc (show c' + min m (h.length - c') ≤ h.length by omega) hC dest 0
    simp only [Nat.zero_add] at hcopy
    rw [← hcopy]
    show (List.range (min (rb.writeCount - caughtUp C rb.writeCount cursor) (UInt64.ofNat m)).toNat).map
      (rb.copyOut dest 0 (caughtUp C rb.writeCount cursor)
        (min (rb.writeCount - caughtUp C rb.writeCount cursor) (UInt64.ofNat m)).toNat) = _
    rw [hto]
  · show rb.copyOut dest 0 (caughtUp C rb.writeCount cursor) _ j = dest j
    rw [copyOut_apply, if_neg]
    rintro ⟨-, h'⟩
    exact absurd hj (by rw [Nat.zero_add] at h'; exact Nat.not_le.2 h')
  · show (caughtUp C rb.writeCount cursor +
      UInt64.ofNat (min (rb.writeCount - caughtUp C rb.writeCount cursor) (UInt64.ofNat m)).toNat).toNat = _
    rw [hto, toNat_add_ofNat hc]

/-- **`read`, while the counter has not wrapped**: it delivers from the cursor, or from the oldest live sample when the
writer has lapped it, and says so. -/
theorem read_spec {rb : SharedRingBuffer α C} {h : List α} (hr : rb.Represents h) {cursor : UInt64} {c m : Nat}
    (hc : cursor.toNat = c) (hle : c ≤ h.length) (htot : h.length + C.val < 2 ^ 64) (hm : m < 2 ^ 31)
    (dest : Mem α) : rb.Delivers h dest m cursor (max c (h.length - C.val)) ∧
      (rb.read dest m cursor).1.overrun = decide (c < max c (h.length - C.val)) := by
  have hw : rb.writeCount.toNat = h.length := by rw [hr.count]; omega
  have hlap : lapped C rb.writeCount cursor = decide (c < max c (h.length - C.val)) := by
    simp only [lapped, gt_iff_lt, UInt64.lt_iff_toNat_lt, UInt64.toNat_add, C.toNat_ofNat, hw, hc, decide_eq_decide]
    omega
  refine ⟨delivers hr ?_ (by omega) (by omega) hm dest, hlap⟩
  have := C.lt
  rw [caughtUp, hlap]
  by_cases hlt : c < max c (h.length - C.val)
  · rw [if_pos (decide_eq_true hlt), UInt64.toNat_sub, C.toNat_ofNat, hw]; omega
  · rw [if_neg (by simp only [decide_eq_true_eq]; exact hlt), hc]; omega

/-- **`read` by a reader that keeps up**: without an overrun it delivers from the cursor, even across a wrap of the
counter. -/
theorem read_keeps_up {rb : SharedRingBuffer α C} {h : List α} (hr : rb.Represents h) {cursor : UInt64} {c m : Nat}
    (hc : cursor.toNat = c % 2 ^ 64) (hle : c ≤ h.length) (hC : h.length ≤ c + C.val) (hm : m < 2 ^ 31)
    (dest : Mem α) (hover : (rb.read dest m cursor).1.overrun = false) : rb.Delivers h dest m cursor c := by
  refine delivers hr ?_ hle hC hm dest
  have hlap : lapped C rb.writeCount cursor = false := hover
  rw [caughtUp, hlap]
  exact hc

/-! ## `readLastN` -/

/-- A clamped window is the smaller of the request and the capacity, an `int`. -/
theorem clamp_eq (n : Nat) : clamp C n = min n C.val := by
  unfold clamp; split <;> omega

/-- The span of a snapshot, while the counter has not wrapped. -/
theorem span_eq (before : UInt64) {n : Nat} (hn : n < 2 ^ 31) :
    (span before n).1.toNat = before.toNat - n ∧ (span before n).2 = min n before.toNat := by
  have hn' : (UInt64.ofNat n).toNat = n := by rw [UInt64.toNat_ofNat']; omega
  have := before.toNat_lt
  unfold span
  split <;> rename_i h' <;> rw [UInt64.le_iff_toNat_le, hn'] at h'
  · rw [UInt64.toNat_sub, hn']
    dsimp only
    omega
  · rw [UInt64.toNat_zero]
    dsimp only
    omega

/-- The newest `n` of the first `before` samples of a stream, right-aligned after zeros. -/
def window [Zero α] (stream : List α) (n before : Nat) : List α :=
  List.replicate (n - before) 0 ++ (stream.take before).drop (before - n)

/-- Zeros in front and the copied samples after them are the whole destination. -/
theorem map_range_split [Zero α] {d : Mem α} {n k : Nat} {xs : List α} (hk : k ≤ n)
    (hz : ∀ i, i < n - k → d i = 0) (hx : (List.range k).map (fun i => d (n - k + i)) = xs) :
    (List.range n).map d = List.replicate (n - k) 0 ++ xs := by
  have hn : n = (n - k) + k := by omega
  conv_lhs => rw [hn, List.range_add, List.map_append, List.map_map]
  congr 1
  rw [List.eq_replicate_iff]
  refine ⟨by simp, fun y hy => ?_⟩
  obtain ⟨i, hi, rfl⟩ := List.mem_map.1 hy
  exact hz i (List.mem_range.1 hi)

/-- The first attempt of a `readLastN` that nothing overlaps succeeds. -/
theorem attempts_spec [Zero α] {rb : SharedRingBuffer α C} {h : List α} (hr : rb.Represents h)
    (htot : h.length < 2 ^ 64) {n : Nat} (hn : n ≤ C.val) (left : Nat) (dest : Mem α) :
    (rb.attempts n (left + 1) dest).1 = true ∧
      (List.range n).map (rb.attempts n (left + 1) dest).2 = window h n h.length ∧
      ∀ j, n ≤ j → (rb.attempts n (left + 1) dest).2 j = dest j := by
  have hw : rb.writeCount.toNat = h.length := by rw [hr.count]; omega
  have hC := C.lt
  obtain ⟨hstart, hto⟩ := span_eq rb.writeCount (show n < 2 ^ 31 by omega)
  rw [hw] at hstart hto
  by_cases h0 : rb.writeCount = 0
  · have hnil : h = [] := by
      rw [h0, UInt64.toNat_zero] at hw
      exact List.length_eq_zero_iff.1 hw.symm
    subst hnil
    have ha : rb.attempts n (left + 1) dest = (true, fillN dest n 0) := by simp [attempts, h0]
    rw [ha]
    refine ⟨rfl, ?_, fun j hj => by simp only [fillN]; rw [if_neg (by omega)]⟩
    have := map_range_split (d := fillN dest n 0) (Nat.zero_le n)
      (fun i hi => by simp only [fillN]; rw [if_pos (by omega)]) rfl
    simpa [window] using this
  · have hun : unlapped C rb.writeCount (span rb.writeCount n).1 = true := by
      simp only [unlapped, decide_eq_true_eq, UInt64.le_iff_toNat_le, UInt64.toNat_sub, C.toNat_ofNat, hw, hstart]
      omega
    have ha : rb.attempts n (left + 1) dest = (true, rb.copyOut (fillN dest (n - min n h.length) 0)
        (n - min n h.length) (span rb.writeCount n).1 (min n h.length)) := by
      simp only [attempts, if_neg h0, hun, hto, if_pos]
    rw [ha]
    have hz : ∀ i, i < n - min n h.length → rb.copyOut (fillN dest (n - min n h.length) 0)
        (n - min n h.length) (span rb.writeCount n).1 (min n h.length) i = 0 := by
      intro i hi
      rw [copyOut_apply, if_neg (by omega), fillN, if_pos hi]
    have hx := copyOut_eq hr (show (span rb.writeCount n).1.toNat = (h.length - n) % 2 ^ 64 by rw [hstart]; omega)
      (show h.length - n + min n h.length ≤ h.length by omega) (by omega) (fillN dest (n - min n h.length) 0)
      (n - min n h.length)
    refine ⟨rfl, ?_, fun j hj => ?_⟩
    · rw [map_range_split (Nat.min_le_left _ _) hz hx, window, List.take_length,
        List.take_of_length_le (by rw [List.length_drop]; omega)]
      congr 2
      omega
    · show rb.copyOut _ _ _ _ j = dest j
      rw [copyOut_apply, if_neg (by omega), fillN, if_neg (by omega)]

/-- **`readLastN`**: the newest samples, right-aligned after zeros; nothing behind the window is written. -/
theorem readLastN_spec [Zero α] {rb : SharedRingBuffer α C} {h : List α} (hr : rb.Represents h)
    (htot : h.length < 2 ^ 64) (n left : Nat) (dest : Mem α) :
    (rb.readLastN dest n (left + 1)).1 = true ∧
      (List.range (min n C.val)).map (rb.readLastN dest n (left + 1)).2 = window h (min n C.val) h.length ∧
      ∀ j, min n C.val ≤ j → (rb.readLastN dest n (left + 1)).2 j = dest j := by
  rw [readLastN, clamp_eq]
  exact attempts_spec hr htot (Nat.min_le_right _ _) left dest

/-- **`readLastN` of a window that the counter admits**: the newest samples, even after a wrap of the counter. -/
theorem readLastN_newest [Zero α] {rb : SharedRingBuffer α C} {h : List α} (hr : rb.Represents h) {n : Nat}
    (hpos : 0 < n) (hn : n ≤ C.val) (hcount : n ≤ rb.writeCount.toNat) (left : Nat) (dest : Mem α) :
    n ≤ h.length ∧ (rb.readLastN dest n (left + 1)).1 = true ∧
      (List.range n).map (rb.readLastN dest n (left + 1)).2 = h.drop (h.length - n) := by
  have hC := C.lt
  have hn' : (UInt64.ofNat n).toNat = n := by rw [UInt64.toNat_ofNat']; omega
  have hmod := hr.count
  have hle : n ≤ h.length := by
    have := Nat.mod_le h.length (2 ^ 64)
    omega
  have hspan : span rb.writeCount n = (rb.writeCount - UInt64.ofNat n, n) := by
    apply if_pos
    rw [UInt64.le_iff_toNat_le, hn']
    exact hcount
  have hstart : (rb.writeCount - UInt64.ofNat n).toNat = (h.length - n) % 2 ^ 64 := by
    rw [UInt64.toNat_sub, hn']
    omega
  have hun : unlapped C rb.writeCount (rb.writeCount - UInt64.ofNat n) = true := by
    simp only [unlapped, decide_eq_true_eq, UInt64.le_iff_toNat_le, UInt64.toNat_sub, hn', C.toNat_ofNat]
    omega
  have hne : rb.writeCount ≠ 0 := by
    intro h0
    rw [h0, UInt64.toNat_zero] at hcount
    omega
  have hread : rb.readLastN dest n (left + 1) =
      (true, rb.copyOut (fillN dest 0 0) 0 (rb.writeCount - UInt64.ofNat n) n) := by
    rw [readLastN, clamp_eq, Nat.min_eq_left hn]
    simp only [attempts, if_neg hne, hspan, Nat.sub_self, hun, if_true]
  rw [hread]
  have hcopy := copyOut_eq hr hstart (show h.length - n + n ≤ h.length by omega) (by omega) (fillN dest 0 0) 0
  simp only [Nat.zero_add] at hcopy
  refine ⟨hle, rfl, ?_⟩
  rw [hcopy]
  exact List.take_of_length_le (by rw [List.length_drop]; omega)

end SharedRingBuffer

end Bajiru.Linkjiru
