import Bajiru.Linkjiru.RingInterleaving

/-!
# A writer and a cursor reader on one ring

`read` against the writer of `RingInterleaving`, one memory access at a time: it loads the counter, which decides about an
overrun and fixes the number of samples, and then copies its slots. It never looks at the counter again, so the stores
of a block may overwrite the slots that it still has to copy, and it reports no overrun.

Over the block sizes, the condition under which every sample that is delivered without an overrun is the one at its
absolute index is exact: `read_reports_iff`.
-/

namespace Bajiru.Linkjiru

open SharedRingBuffer

variable {α : Type*} {C : Capacity}

/-- Where the reader is: outside `read`, before its load of the counter, copying, or returned. -/
inductive CursorPc
  | idle
  | load
  | copy (start : UInt64) (toRead i : Nat) (overrun : Bool)
  | returned (result : ReadResult)
  deriving DecidableEq

/-- The ring with its writer (and with a snapshot reader that is never called), and a reader with its destination and its
cursor. -/
structure CursorRace (α : Type*) (C : Capacity) where
  race : Racing α C
  reader : CursorPc
  dest : Mem α
  cursor : UInt64

/-- A step of the writer, a step of the reader, or a call of `read`. -/
inductive CursorEvent
  | writer
  | reader
  | call

namespace CursorRace

/-- The next memory access of `read`. -/
def readerStep (m : Nat) (s : CursorRace α C) : Option (CursorRace α C) :=
  match s.reader with
  | .load =>
    let currentWrite := s.race.ring.writeCount
    let overrun := lapped C currentWrite s.cursor
    let cursor := if overrun then currentWrite - UInt64.ofNat C.val else s.cursor
    let available := currentWrite - cursor
    let toRead := (min available (UInt64.ofNat m)).toNat
    some { s with cursor := cursor, reader := .copy cursor toRead 0 overrun }
  | .copy start toRead i overrun =>
    if i < toRead then
      some { s with
        dest := Function.update s.dest i (s.race.ring.buffer (C.slot (start + UInt64.ofNat i)))
        reader := .copy start toRead (i + 1) overrun }
    else some { s with cursor := start + UInt64.ofNat toRead, reader := .returned ⟨toRead, overrun⟩ }
  | _ => none

/-- One step of the two threads. Every call is `read(dest, m, cursor)` with the cursor at the absolute index `a`, which
is not past the counter. -/
def next (m a : Nat) (s : CursorRace α C) : CursorEvent → Option (CursorRace α C)
  | .writer => s.race.writerStep.map fun race => { s with race := race }
  | .reader => s.readerStep m
  | .call =>
    match s.reader with
    | .load | .copy .. => none
    | _ => if a ≤ s.race.published then some { s with cursor := UInt64.ofNat a, reader := .load } else none

/-- A new ring, the blocks that will be written and the reader's memory. -/
def start [Zero α] (C : Capacity) (blocks : List (List α)) (dest : Mem α) : CursorRace α C :=
  ⟨Racing.start C blocks dest, .idle, dest, 0⟩

/-- At the count `p`, a read from index `a` reports an overrun, or it has nothing to read. -/
def Reported (C : Capacity) (p a : Nat) : Prop :=
  lapped C (UInt64.ofNat p) (UInt64.ofNat a) = true ∨ UInt64.ofNat p = UInt64.ofNat a

/-- No read of `m` samples from index `a` can be lapped in silence: nothing is read, no store reaches `a + Capacity`, or
a read reports at every count past `a` that is published. -/
def Clean (C : Capacity) (m a : Nat) (sizes : List Nat) : Prop :=
  m = 0 ∨ sizes.sum ≤ a + C.val ∨ ∀ k, a < (sizes.take k).sum → Reported C (sizes.take k).sum a

/-! ## What the writer publishes -/

/-- The samples are published block by block. -/
structure Publishes (sizes : List Nat) (k : Nat) (s : Racing α C) : Prop where
  published : s.published = (sizes.take k).sum
  sizes : s.writer.sizes s.todo = sizes.drop k

theorem publishes_writerStep {sizes : List Nat} {k : Nat} {s s' : Racing α C} (h : Publishes sizes k s)
    (hs : s.writerStep = some s') : Publishes sizes k s' ∨ Publishes sizes (k + 1) s' := by
  obtain ⟨ring, todo, writer, reader, dest, stored, published⟩ := s
  obtain ⟨hpub, hsizes⟩ := h
  cases writer with
  | idle =>
    cases todo with
    | nil => cases hs
    | cons block todo =>
      cases hs
      refine .inl ⟨hpub, ?_⟩
      rw [← hsizes]
      simp [WriterPc.sizes]
  | storing pos i rest =>
    cases rest with
    | nil =>
      cases hs
      simp only [WriterPc.sizes, List.length_nil, Nat.add_zero] at hsizes
      have hk : k < sizes.length := by
        by_contra hge
        rw [List.drop_of_length_le (Nat.not_lt.1 hge)] at hsizes
        cases hsizes
      rw [List.drop_eq_getElem_cons hk, List.cons.injEq] at hsizes
      refine .inr ⟨?_, ?_⟩
      · dsimp only at hpub ⊢
        rw [List.take_succ_eq_append_getElem hk, List.sum_append, List.sum_singleton, hpub, hsizes.1]
      · rw [← hsizes.2]
        rfl
    | cons x rest =>
      cases hs
      refine .inl ⟨hpub, ?_⟩
      rw [← hsizes]
      simp [WriterPc.sizes, Nat.add_comm, Nat.add_left_comm]

/-! ## Reads that are clean -/

/-- What is known about a read without an overrun from index `a`: it has nothing to read, or its samples are published
and no store reaches `a + Capacity`. -/
def Covered (stream : List α) (C : Capacity) (a toRead stored : Nat) : Prop :=
  toRead = 0 ∨ (a + toRead ≤ stored ∧ stream.length ≤ a + C.val)

/-- What the reader keeps. -/
structure ReaderInv (stream : List α) (a : Nat) (s : CursorRace α C) : Prop where
  load : s.reader = .load → a ≤ s.race.published ∧ s.cursor = UInt64.ofNat a
  copy : ∀ start toRead i, s.reader = .copy start toRead i false → start.toNat = a % 2 ^ 64 ∧ i ≤ toRead ∧
    Covered stream C a toRead s.race.stored.length ∧ ∀ j, j < i → stream[a + j]? = some (s.dest j)
  returned : ∀ r, s.reader = .returned r → r.overrun = false →
    ∀ j, j < r.samplesRead → stream[a + j]? = some (s.dest j)

/-- What a run keeps. -/
structure Inv (stream : List α) (F a : Nat) (sizes : List Nat) (s : CursorRace α C) : Prop where
  writer : WriterInv stream F s.race
  publishes : ∃ k, Publishes sizes k s.race
  reader : ReaderInv stream a s

variable {stream : List α} {F m a : Nat} {sizes : List Nat} {s s' : CursorRace α C}

theorem stored_writerStep {r r' : Racing α C} (h : r.writerStep = some r') :
    r.stored.length ≤ r'.stored.length ∧ r.published ≤ r'.published := by
  obtain ⟨ring, todo, writer, reader, dest, stored, published⟩ := r
  cases writer with
  | idle =>
    cases todo with
    | nil => cases h
    | cons block todo =>
      cases h
      exact ⟨Nat.le_refl _, Nat.le_refl _⟩
  | storing pos i rest =>
    cases rest with
    | nil =>
      cases h
      exact ⟨Nat.le_refl _, Nat.le_add_right _ _⟩
    | cons x rest =>
      cases h
      simp

/-- The writer does not disturb the reader. -/
theorem inv_writer (h : Inv stream F a sizes s) {race : Racing α C} (hs : s.race.writerStep = some race) :
    Inv stream F a sizes { s with race := race } := by
  obtain ⟨hw, ⟨k, hp⟩, hr⟩ := h
  obtain ⟨hstored, hpublished⟩ := stored_writerStep hs
  refine ⟨writerStep_inv hw hs, ?_, ?_, ?_, hr.returned⟩
  · rcases publishes_writerStep hp hs with hp | hp
    · exact ⟨k, hp⟩
    · exact ⟨k + 1, hp⟩
  · intro hload
    obtain ⟨hle, hcur⟩ := hr.load hload
    exact ⟨hle.trans hpublished, hcur⟩
  · intro start toRead i hcopy
    obtain ⟨hstart, hi, hcov, hx⟩ := hr.copy start toRead i hcopy
    refine ⟨hstart, hi, ?_, hx⟩
    rcases hcov with h0 | ⟨hle, hC⟩
    · exact .inl h0
    · exact .inr ⟨hle.trans hstored, hC⟩

/-- The load of the counter, in a run that is clean. -/
theorem covered_load (hw : WriterInv stream F s.race) (hp : ∃ k, Publishes sizes k s.race)
    (hsum : sizes.sum = stream.length) (hm : m < 2 ^ 31) (hclean : Clean C m a sizes) (hle : a ≤ s.race.published)
    (hlap : lapped C s.race.ring.writeCount (UInt64.ofNat a) = false) :
    Covered stream C a (min (s.race.ring.writeCount - UInt64.ofNat a) (UInt64.ofNat m)).toNat
      s.race.stored.length := by
  have hC := C.lt
  have hslen := hw.stored_prefix.length_le
  have hpub := hw.published_le
  have hcount : s.race.ring.writeCount = UInt64.ofNat s.race.published := by
    apply UInt64.toNat_inj.1
    rw [hw.count, UInt64.toNat_ofNat']
  have hmin : (min (s.race.ring.writeCount - UInt64.ofNat a) (UInt64.ofNat m)).toNat =
      min (s.race.ring.writeCount - UInt64.ofNat a).toNat m := by
    have hm' : (UInt64.ofNat m).toNat = m := by rw [UInt64.toNat_ofNat']; omega
    rw [UInt64.min_def]
    split <;> rename_i h' <;> rw [UInt64.le_iff_toNat_le, hm'] at h' <;> omega
  rw [hmin]
  rcases hclean with rfl | hshort | hreport
  · exact .inl (Nat.min_zero _)
  · have havail : (s.race.ring.writeCount - UInt64.ofNat a).toNat = s.race.published - a := by
      rw [UInt64.toNat_sub, hw.count, UInt64.toNat_ofNat']
      omega
    rw [havail]
    exact .inr ⟨by omega, by omega⟩
  · obtain ⟨k, hpublished, -⟩ := hp
    rcases Nat.lt_or_eq_of_le hle with hlt | heq
    · rw [hpublished] at hlt
      rcases hreport k hlt with hlapped | hnone
      · rw [← hpublished, ← hcount, hlap] at hlapped
        cases hlapped
      · rw [hcount, hpublished, hnone, UInt64.sub_self]
        exact .inl (Nat.zero_min _)
    · rw [hcount, ← heq, UInt64.sub_self]
      exact .inl (Nat.zero_min _)

theorem inv_reader (h : Inv stream F a sizes s) (hsum : sizes.sum = stream.length) (hm : m < 2 ^ 31)
    (hclean : Clean C m a sizes) (hs : s.readerStep m = some s') : Inv stream F a sizes s' := by
  obtain ⟨hw, hp, hr⟩ := h
  have hslen := hw.stored_prefix.length_le
  unfold readerStep at hs
  split at hs
  · rename_i hload
    obtain ⟨hle, hcur⟩ := hr.load hload
    cases hs
    refine ⟨hw, hp, nofun, ?_, nofun⟩
    intro start toRead i hcopy
    simp only [CursorPc.copy.injEq] at hcopy
    obtain ⟨hstart, hto, rfl, hlap⟩ := hcopy
    rw [if_neg (by simp [hlap]), hcur] at hstart hto
    rw [hcur] at hlap
    subst hstart hto
    refine ⟨?_, Nat.zero_le _, covered_load hw hp hsum hm hclean hle hlap, nofun⟩
    rw [UInt64.toNat_ofNat']
  · rename_i start toRead i overrun hreader
    split at hs
    · rename_i hlt
      cases hs
      refine ⟨hw, hp, nofun, ?_, nofun⟩
      intro start' toRead' i' hcopy
      simp only [CursorPc.copy.injEq] at hcopy
      obtain ⟨rfl, rfl, rfl, rfl⟩ := hcopy
      obtain ⟨hstart, hi, hcov, hx⟩ := hr.copy start toRead i hreader
      refine ⟨hstart, hlt, hcov, ?_⟩
      intro j hj
      rcases hcov with h0 | ⟨hle, hC⟩
      · omega
      · dsimp only at hle ⊢
        rcases Nat.lt_succ_iff_lt_or_eq.1 hj with hj | rfl
        · rw [Function.update_of_ne (by omega)]
          exact hx j hj
        · rw [Function.update_self]
          exact held_slot hw hstart (by omega) (by omega)
    · rename_i hge
      cases hs
      refine ⟨hw, hp, nofun, nofun, ?_⟩
      rintro r ⟨⟩ hover j hj
      dsimp only at hover hj
      subst hover
      obtain ⟨-, hi, -, hx⟩ := hr.copy start toRead i hreader
      exact hx j (by omega)
  · cases hs

/-- Every step of a clean run keeps the invariant. -/
theorem inv_next {e : CursorEvent} (hsum : sizes.sum = stream.length) (hm : m < 2 ^ 31)
    (hclean : Clean C m a sizes) (h : Inv stream F a sizes s) (hs : s.next m a e = some s') :
    Inv stream F a sizes s' := by
  cases e with
  | writer =>
    obtain ⟨race, hrace, rfl⟩ := Option.map_eq_some_iff.1 hs
    exact inv_writer h hrace
  | reader => exact inv_reader h hsum hm hclean hs
  | call =>
    simp only [next] at hs
    split at hs
    · cases hs
    · cases hs
    · split at hs
      · rename_i hle
        cases hs
        exact ⟨h.writer, h.publishes, fun _ => ⟨hle, rfl⟩, nofun, nofun⟩
      · cases hs

theorem inv_start [Zero α] (blocks : List (List α)) (dest : Mem α) :
    Inv blocks.flatten (firstBlock (blocks.map List.length)) a (blocks.map List.length) (start C blocks dest) :=
  ⟨writerInv_start blocks dest, ⟨0, rfl, rfl⟩, nofun, nofun, nofun⟩

/-! ## A read that is lapped in silence -/

section Lapped

variable [Zero α] {r : Racing α C} {n : Nat}

/-- What the writer does alone, it does beside the reader. -/
theorem writer_lift {k : Nat} {race : Racing α C}
    (h : execute (Racing.next n) s.race (List.replicate k .writer) = some race) :
    execute (next m a) s (List.replicate k .writer) = some { s with race := race } := by
  induction k generalizing s with
  | zero =>
    cases h
    rfl
  | succ k ih =>
    rw [List.replicate_succ] at h ⊢
    obtain ⟨u, hu, h⟩ := execute_cons_some h
    have hstep : next m a s .writer = some { s with race := u } := by
      rw [next, show s.race.writerStep = some u from hu, Option.map_some]
    rw [execute_cons, hstep, Option.bind_some]
    exact ih (s := { s with race := u }) h

/-- The writer finishes its block. -/
theorem finish_block (rest : List α) (ring : SharedRingBuffer α C) (todo : List (List α)) (pos : UInt64) (i : Nat)
    (reader : ReaderPc) (dest : Mem α) (stored : List α) (published : Nat) : ∃ k ring' stored',
      execute (Racing.next n) ⟨ring, todo, .storing pos i rest, reader, dest, stored, published⟩
        (List.replicate k .writer) =
          some ⟨ring', todo, .idle, reader, dest, stored', published + (i + rest.length)⟩ := by
  induction rest generalizing ring i stored with
  | nil => exact ⟨1, _, _, next_publish n ..⟩
  | cons x rest ih =>
    obtain ⟨k, ring', stored', hk⟩ := ih
      { ring with buffer := Function.update ring.buffer (C.slot (pos + UInt64.ofNat i)) x } (i + 1) (stored ++ [x])
    refine ⟨1 + k, ring', stored', writer_trans (next_store n ..) ?_⟩
    rw [hk, List.length_cons]
    congr 2
    omega

/-- The writer publishes any number of its blocks. -/
theorem reach_published (k : Nat) (todo : List (List α)) (ring : SharedRingBuffer α C) (reader : ReaderPc)
    (dest : Mem α) (stored : List α) (published : Nat) : ∃ l ring' todo' stored',
      execute (Racing.next n) ⟨ring, todo, .idle, reader, dest, stored, published⟩ (List.replicate l .writer) =
        some ⟨ring', todo', .idle, reader, dest, stored', published + ((todo.map List.length).take k).sum⟩ := by
  induction k generalizing todo ring stored published with
  | zero => exact ⟨0, ring, todo, stored, by simp⟩
  | succ k ih =>
    cases todo with
    | nil => exact ⟨0, ring, [], stored, by simp⟩
    | cons block todo =>
      have hbegin : execute (Racing.next n) ⟨ring, block :: todo, .idle, reader, dest, stored, published⟩
          (List.replicate 1 .writer) =
            some ⟨ring, todo, .storing ring.writeCount 0 block, reader, dest, stored, published⟩ := rfl
      obtain ⟨l₁, ring₁, stored₁, h₁⟩ :=
        finish_block (n := n) block ring todo ring.writeCount 0 reader dest stored published
      obtain ⟨l₂, ring₂, todo₂, stored₂, h₂⟩ := ih todo ring₁ stored₁ (published + (0 + block.length))
      refine ⟨1 + l₁ + l₂, ring₂, todo₂, stored₂, ?_⟩
      rw [writer_trans (writer_trans hbegin h₁) h₂]
      simp [Nat.add_assoc]

omit [Zero α] in
/-- The copies of a reader, when the writer does not step. -/
theorem copy_all {start : UInt64} {toRead : Nat} {overrun : Bool} (k : Nat) (hk : k ≤ toRead)
    (hr : s.reader = .copy start toRead 0 overrun) :
    execute (next m a) s (List.replicate k .reader) = some { s with
      dest := s.race.ring.copyOut s.dest 0 start k
      reader := .copy start toRead k overrun } := by
  induction k with
  | zero =>
    rw [← hr]
    rfl
  | succ k ih =>
    rw [List.replicate_succ']
    refine execute_snoc (ih (by omega)) ?_
    simp only [next, readerStep, if_pos (show k < toRead by omega), copyOut, Nat.zero_add]

/-- The newest index that shares the slot of `a`. -/
theorem newest_index {c l : Nat} (hc : 0 < c) (h : a + c < l) : ∃ j, a < j ∧ j < l ∧ l ≤ j + c ∧ j % c = a % c := by
  have hmod := Nat.mod_lt (l - 1 - a) hc
  have hdiv := Nat.div_add_mod (l - 1 - a) c
  refine ⟨a + c * ((l - 1 - a) / c), ?_, by omega, by omega, Nat.add_mul_mod_self_left ..⟩
  have hq : 0 < (l - 1 - a) / c := Nat.div_pos (by omega) hc
  have := Nat.mul_pos hc hq
  omega

/-- Two counters that differ leave something to read. -/
theorem toRead_pos {currentWrite cursor : UInt64} (hm : 0 < m) (hm' : m < 2 ^ 31) (hne : currentWrite ≠ cursor) :
    0 < (min (currentWrite - cursor) (UInt64.ofNat m)).toNat := by
  have hsub : (currentWrite - cursor).toNat ≠ 0 := by
    intro h0
    apply hne
    apply UInt64.toNat_inj.1
    rw [UInt64.toNat_sub] at h0
    have := currentWrite.toNat_lt
    have := cursor.toNat_lt
    omega
  have hmn : (UInt64.ofNat m).toNat = m := by
    rw [UInt64.toNat_ofNat']
    omega
  rw [UInt64.min_def]
  split <;> omega

/-- The writer stores the sample of any index of the stream, if it has not done so. -/
theorem reach_past (hw : WriterInv stream F r) {l : Nat} (hl : l < stream.length) :
    ∃ k r', execute (Racing.next 0) r (List.replicate k .writer) = some r' ∧ l < r'.stored.length := by
  by_cases hdone : l < r.stored.length
  · exact ⟨0, r, rfl, hdone⟩
  · obtain ⟨k, r', hk, hlen, -⟩ := reach_store (n := 0) hw (l + 1) (by omega) hl
    exact ⟨k, r', hk, by omega⟩

/-- A read that has something to read and is not lapped at its load of the counter, but whose first slot is overwritten
before it is copied, returns another sample in silence. -/
theorem lapped_read (hw : WriterInv stream F r) (hm : 0 < m) (hm' : m < 2 ^ 31) (ha : a < r.published)
    (hlap : lapped C (UInt64.ofNat r.published) (UInt64.ofNat a) = false)
    (hne : UInt64.ofNat r.published ≠ UInt64.ofNat a) (hlong : a + C.val < stream.length) (dest : Mem α) :
    ∃ es s result j, execute (next m a) ⟨r, .idle, dest, 0⟩ es = some s ∧ s.reader = .returned result ∧
      result.overrun = false ∧ 0 < result.samplesRead ∧ a < j ∧ some (s.dest 0) = stream[j]? := by
  have hcount : r.ring.writeCount = UInt64.ofNat r.published := by
    apply UInt64.toNat_inj.1
    rw [hw.count, UInt64.toNat_ofNat']
  generalize hto : (min (r.ring.writeCount - UInt64.ofNat a) (UInt64.ofNat m)).toNat = toRead
  have hpos : 0 < toRead := by
    rw [← hto, hcount]
    exact toRead_pos hm hm' hne
  -- the reader loads the counter
  have hload : execute (next m a) ⟨r, .idle, dest, 0⟩ [.call, .reader] =
      some ⟨r, .copy (UInt64.ofNat a) toRead 0 false, dest, UInt64.ofNat a⟩ := by
    simp only [execute_cons, next, if_pos ha.le, Option.bind_some, readerStep, hcount, hlap, if_neg Bool.false_ne_true,
      execute_nil, ← hto]
  -- the writer passes the oldest slot, if it has not done so
  obtain ⟨k, r', hk, hlen⟩ := reach_past hw hlong
  have hw' := writerInv_execute hw hk
  have hwrite := writer_lift (m := m) (a := a) (s := ⟨r, .copy (UInt64.ofNat a) toRead 0 false, dest, UInt64.ofNat a⟩) hk
  have hcopy := copy_all (m := m) (a := a) (s := ⟨r', .copy (UInt64.ofNat a) toRead 0 false, dest, UInt64.ofNat a⟩)
    toRead (Nat.le_refl _) rfl
  have hdone : ∀ t : CursorRace α C, t.reader = .copy (UInt64.ofNat a) toRead toRead false → next m a t .reader =
      some { t with cursor := UInt64.ofNat a + UInt64.ofNat toRead, reader := .returned ⟨toRead, false⟩ } := by
    intro t ht
    simp only [next, readerStep, ht, if_neg (Nat.lt_irrefl toRead)]
  obtain ⟨j, haj, hj, hC, hslot⟩ := newest_index C.pos hlen
  refine ⟨_, _, ⟨toRead, false⟩, j, execute_snoc (execute_trans (execute_trans hload hwrite) hcopy) (hdone _ rfl), rfl,
    rfl, hpos, haj, ?_⟩
  obtain ⟨rest, hrest⟩ := hw'.stored_prefix
  dsimp only
  rw [copyOut_apply, if_pos ⟨Nat.le_refl _, by omega⟩, Nat.sub_self,
    C.slot_of_toNat (toNat_add_ofNat (UInt64.toNat_ofNat' ..) 0), Nat.add_zero, ← hslot, ← hw'.slots j hj hC, ← hrest,
    List.getElem?_append_left hj]

end Lapped

end CursorRace

open CursorRace in
/-- **When `read` reports every lapped sample**: whatever the samples and the interleaving, each sample that is delivered
without an overrun is the one at its absolute index, if and only if the block sizes are clean for the read. -/
theorem read_reports_iff [Zero α] [Nontrivial α] (C : Capacity) (m : IntNat) (a : Nat) (sizes : List IntNat) :
    (∀ blocks : List (List α), blocks.map List.length = sizes.map Subtype.val → ∀ dest es s,
      execute (next m.val a) (start C blocks dest) es = some s → ∀ result, s.reader = .returned result →
        result.overrun = false → ∀ j, j < result.samplesRead → blocks.flatten[a + j]? = some (s.dest j)) ↔
    Clean C m.val a (sizes.map Subtype.val) := by
  constructor
  · intro hall
    by_contra hcon
    simp only [Clean, Reported, not_or, not_forall, Nat.not_le, Bool.not_eq_true] at hcon
    obtain ⟨hm, hlong, k, hk, hlap, hne⟩ := hcon
    obtain ⟨y, hy⟩ := exists_ne (0 : α)
    -- only the sample at the cursor is not zero
    let f : Nat → α := fun i => if i = a then y else 0
    have hsizes := map_length_cut f 0 (sizes.map Subtype.val)
    have hflat := flatten_cut f 0 (sizes.map Subtype.val)
    generalize cut f 0 (sizes.map Subtype.val) = blocks at hsizes hflat
    have hlen : blocks.flatten.length = (sizes.map Subtype.val).sum := by rw [hflat]; simp
    have hget : ∀ i x, blocks.flatten[i]? = some x → x = f i := by
      intro i x hx
      rw [hflat, List.getElem?_map] at hx
      obtain ⟨i', hi', rfl⟩ := Option.map_eq_some_iff.1 hx
      obtain ⟨hlt, rfl⟩ := List.getElem?_eq_some_iff.1 hi'
      simp [List.getElem_range']
    obtain ⟨l, ring, todo, stored, hl⟩ := reach_published (n := 0) k blocks (SharedRingBuffer.new α C) .idle
      (fun _ => 0) [] 0
    rw [hsizes, Nat.zero_add] at hl
    have hw := writerInv_execute (writerInv_start (C := C) blocks fun _ => 0) hl
    obtain ⟨es, s, result, j, hes, hreader, hover, hread, haj, hj⟩ :=
      lapped_read hw (Nat.pos_of_ne_zero hm) m.2 hk hlap hne (by omega) fun _ => 0
    have hrun : execute (next m.val a) (start C blocks fun _ => 0) (List.replicate l .writer ++ es) = some s :=
      execute_trans (writer_lift hl) hes
    have hat := hget _ _ (hall blocks hsizes _ _ s hrun result hreader hover 0 hread)
    rw [hget _ _ hj.symm] at hat
    exact hy (by simpa [f, haj.ne'] using hat.symm)
  · intro hclean blocks hsizes dest es s h result hr hover
    have hsum : (sizes.map Subtype.val).sum = blocks.flatten.length := by rw [List.length_flatten, hsizes]
    have hstart := inv_start (C := C) (a := a) blocks dest
    rw [hsizes] at hstart
    exact (execute_inv (fun _ _ _ => inv_next hsum m.2 hclean) hstart h).reader.returned result hr hover

/-- The reader loads the counter `4`, the second block overwrites the slot at its cursor, and it takes `5` for `1`. -/
def lappedRun : List CursorEvent :=
  List.replicate 6 .writer ++ [.call, .reader, .writer, .writer] ++ List.replicate 5 .reader

open CursorRace in
theorem read_lapped : ¬ ∀ es s, execute (next 4 0) (start capacity4 [[1, 2, 3, 4], [5]] fun _ => 0) es = some s →
    ∀ result, s.reader = .returned result → result.overrun = false →
      ∀ j, j < result.samplesRead → [1, 2, 3, 4, 5][0 + j]? = some (s.dest j) := by
  intro h
  obtain ⟨s, hs, heq⟩ := Option.map_eq_some_iff.1 (show
    (execute (next 4 0) (start capacity4 [[1, 2, 3, 4], [5]] fun _ => 0) lappedRun).map
      (fun s => (s.reader, s.dest 0)) = some (.returned ⟨4, false⟩, 5) by decide +kernel)
  rw [Prod.mk.injEq] at heq
  have hfirst := h lappedRun s hs _ heq.1 rfl 0 (by decide)
  rw [heq.2] at hfirst
  exact absurd hfirst (by decide)

/-- A read of two samples from index `2` while the second block is stored. -/
def caughtUpRun : List CursorEvent :=
  List.replicate 6 .writer ++ [.call, .reader, .writer, .writer] ++ List.replicate 3 .reader

open CursorRace in
theorem read_reports_two : ∃ s,
    execute (next 2 2) (start capacity4 [[1, 2, 3, 4], [5]] fun _ => 0) caughtUpRun = some s ∧
      s.reader = .returned ⟨2, false⟩ ∧ ∀ j, j < 2 → [1, 2, 3, 4, 5][2 + j]? = some (s.dest j) := by
  obtain ⟨s, hs, hr⟩ := Option.map_eq_some_iff.1 (show
    (execute (next 2 2) (start capacity4 [[1, 2, 3, 4], [5]] fun _ => 0) caughtUpRun).map (·.reader) =
      some (.returned ⟨2, false⟩) by decide +kernel)
  exact ⟨s, hs, hr, (read_reports_iff capacity4 ⟨2, by decide⟩ 2 [⟨4, by decide⟩, ⟨1, by decide⟩]).2
    (.inr (.inl (by decide))) [[1, 2, 3, 4], [5]] rfl _ caughtUpRun s hs _ hr rfl⟩

end Bajiru.Linkjiru
