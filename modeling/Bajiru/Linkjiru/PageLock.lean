import Bajiru.Runs

/-!
# `PageLock`

Objects that lock a range of pages and move the lock among them, in the build for Windows. A process has any number of
them, and the answers of `VirtualLock` are given. Whatever is done with the objects, a granted lock has one holder until
it is unlocked, once (`locks_balance`).
-/

namespace Bajiru.Linkjiru

/-- `PageLock`. The address `nullptr` is 0. -/
structure PageLock where
  address : Nat := 0
  size : Nat := 0
  locked : Bool := false
deriving DecidableEq

/-- The calls of Windows, with the answer of `VirtualLock`. -/
inductive OsCall
  | virtualLock (range : Nat × Nat) (granted : Bool)
  | virtualUnlock (range : Nat × Nat)
deriving DecidableEq

namespace PageLock

/-- `unlock()`. -/
def unlock (p : PageLock) : PageLock × List OsCall :=
  ({ p with locked := false }, if p.locked ∧ p.address ≠ 0 then [.virtualUnlock (p.address, p.size)] else [])

/-- `lock(addr, bytes)`. -/
def lock (p : PageLock) (addr bytes : Nat) (granted : Bool) : PageLock × List OsCall :=
  let (p, calls) := p.unlock
  let p := { p with address := addr, size := bytes }
  if p.address ≠ 0 ∧ 0 < p.size then ({ p with locked := granted }, calls ++ [.virtualLock (addr, bytes) granted])
  else (p, calls)

end PageLock

/-- The objects of a process, `none` when they are gone, and the calls so far. -/
structure PageLocks where
  objects : List (Option PageLock)
  calls : List OsCall
deriving DecidableEq

/-- What is done with the objects. -/
inductive PageLockOp
  | construct
  | constructLocked (addr bytes : Nat) (granted : Bool)
  | moveConstruct (other : Nat)
  | moveAssign (i other : Nat)
  | lock (i addr bytes : Nat) (granted : Bool)
  | unlock (i : Nat)
  | destroy (i : Nat)

namespace PageLocks

/-- An object that is there. -/
def get? (s : PageLocks) (i : Nat) : Option PageLock := s.objects[i]?.join

/-- Cell `i` after a method has run on its object. -/
def put (s : PageLocks) (i : Nat) (o : Option PageLock) (calls : List OsCall) : PageLocks :=
  ⟨s.objects.set i o, s.calls ++ calls⟩

/-- A cell for a new object. -/
def push (s : PageLocks) (o : Option PageLock) : PageLocks := ⟨s.objects ++ [o], s.calls⟩

/-- The members of `PageLock`. -/
def next (s : PageLocks) : PageLockOp → Option PageLocks
  | .construct => some (s.push (some {}))
  | .constructLocked addr bytes granted =>
    let (p, calls) := ({} : PageLock).lock addr bytes granted
    some ((s.push (some {})).put s.objects.length (some p) calls)
  | .moveConstruct other => do
    let o ← s.get? other
    some ((s.put other (some {}) []).push (some ⟨o.address, o.size, o.locked⟩))
  | .moveAssign i other => do
    let p ← s.get? i
    let o ← s.get? other
    if i ≠ other then
      let (p, calls) := p.unlock
      let s := s.put i (some p) calls
      some ((s.put i (some { p with address := o.address, size := o.size, locked := o.locked }) []).put
        other (some {}) [])
    else some s
  | .lock i addr bytes granted => do
    let p ← s.get? i
    let (p, calls) := p.lock addr bytes granted
    some (s.put i (some p) calls)
  | .unlock i => do
    let p ← s.get? i
    let (p, calls) := p.unlock
    some (s.put i (some p) calls)
  | .destroy i => do
    let p ← s.get? i
    let (_, calls) := p.unlock
    some (s.put i none calls)

/-! ## Who holds a lock -/

/-- The range is locked by the object. -/
def holds (r : Nat × Nat) (o : Option PageLock) : Bool := o.any fun p => p.locked && (p.address, p.size) == r

/-- The objects that have the range locked. -/
def held (s : PageLocks) (r : Nat × Nat) : Nat := s.objects.countP (holds r)

def granted (r : Nat × Nat) (calls : List OsCall) : Nat := calls.count (.virtualLock r true)

def unlocked (r : Nat × Nat) (calls : List OsCall) : Nat := calls.count (.virtualUnlock r)

/-- What an object holds has an address. -/
def Sound (o : Option PageLock) : Prop := ∀ p, o = some p → p.locked = true → p.address ≠ 0

/-- The calls of a method account for what its object holds before and after. -/
structure Accounts (o : Option PageLock) (calls : List OsCall) (o' : Option PageLock) : Prop where
  sound : Sound o'
  count r : (holds r o).toNat + granted r calls = unlocked r calls + (holds r o').toNat
  never r : ∀ c, c <+: calls → unlocked r c ≤ granted r c + (holds r o).toNat

/-- The calls of a process account for what its objects hold. -/
structure Inv (s : PageLocks) : Prop where
  sound : ∀ o ∈ s.objects, Sound o
  count r : granted r s.calls = unlocked r s.calls + s.held r
  never r : ∀ c, c <+: s.calls → unlocked r c ≤ granted r c

variable {s t : PageLocks} {i : Nat} {o o' : Option PageLock} {p : PageLock} {calls calls' : List OsCall}

theorem granted_append (r : Nat × Nat) : granted r (calls ++ calls') = granted r calls + granted r calls' :=
  List.count_append

theorem unlocked_append (r : Nat × Nat) : unlocked r (calls ++ calls') = unlocked r calls + unlocked r calls' :=
  List.count_append

theorem holds_le_held (h : s.objects[i]? = some o) (r : Nat × Nat) : (holds r o).toNat ≤ s.held r := by
  cases hb : holds r o with
  | false => exact Nat.zero_le _
  | true => exact List.countP_pos_iff.2 ⟨o, List.mem_of_getElem? h, hb⟩

theorem held_put (h : s.objects[i]? = some o) (r : Nat × Nat) :
    (s.put i o' calls).held r + (holds r o).toNat = s.held r + (holds r o').toNat := by
  have hle := holds_le_held h r
  obtain ⟨hlt, rfl⟩ := List.getElem?_eq_some_iff.1 h
  have hif : ∀ b : Bool, (if b = true then 1 else 0) = b.toNat := fun b => by cases b <;> rfl
  simp only [held] at hle
  simp only [held, put, List.countP_set hlt, hif]
  omega

theorem held_push (r : Nat × Nat) : (s.push o).held r = s.held r + (holds r o).toNat := by
  cases hb : holds r o <;> simp [held, push, hb]

theorem sound_put (h : ∀ o ∈ s.objects, Sound o) (ho : Sound o) : ∀ o' ∈ (s.put i o calls).objects, Sound o' := by
  intro o' hmem
  obtain hold | rfl := List.mem_or_eq_of_mem_set hmem
  · exact h _ hold
  · exact ho

theorem sound_push (h : ∀ o ∈ s.objects, Sound o) (ho : Sound o) : ∀ o' ∈ (s.push o).objects, Sound o' := by
  intro o' hmem
  obtain hold | hnew := List.mem_append.1 hmem
  · exact h _ hold
  · rw [List.mem_singleton.1 hnew]
    exact ho

/-- A method that accounts for its object. -/
theorem Inv.put (hs : s.Inv) (h : s.objects[i]? = some o) (ha : Accounts o calls o') : (s.put i o' calls).Inv := by
  refine ⟨sound_put hs.sound ha.sound, fun r => ?_, fun r c hc => ?_⟩
  · have hheld : (s.put i o' calls).held r + (holds r o).toNat = s.held r + (holds r o').toNat := held_put h r
    have hcount := hs.count r
    have hcalls := ha.count r
    show granted r (s.calls ++ calls) = unlocked r (s.calls ++ calls) + _
    rw [granted_append, unlocked_append]
    omega
  · obtain ⟨rest, hrest⟩ := hc
    obtain ⟨a, hold, -⟩ | ⟨c', rfl, hnew⟩ := List.append_eq_append_iff.1 hrest
    · exact hs.never r c ⟨a, hold.symm⟩
    · have hle := holds_le_held h r
      have hcount := hs.count r
      have hnever := ha.never r c' ⟨rest, hnew.symm⟩
      rw [granted_append, unlocked_append]
      omega

/-- A lock that moves to another object. -/
theorem Inv.move (hs : s.Inv) (hcalls : t.calls = s.calls) (hheld : ∀ r, t.held r = s.held r)
    (hsound : ∀ o ∈ t.objects, Sound o) : t.Inv := by
  refine ⟨hsound, fun r => ?_, fun r => ?_⟩
  · rw [hcalls, hheld]
    exact hs.count r
  · rw [hcalls]
    exact hs.never r

/-! ## The methods -/

@[simp] theorem holds_none (r : Nat × Nat) : holds r none = false := rfl

@[simp] theorem holds_unlocked (r : Nat × Nat) (h : p.locked = false) : holds r (some p) = false := by simp [holds, h]

theorem sound_unlocked (h : p.locked = false) : Sound (some p) := by
  rintro _ ⟨⟩ hlocked
  rw [h] at hlocked
  cases hlocked

/-- `unlock` calls Windows once if the object holds a lock. -/
theorem accounts_unlock (h : Sound (some p)) (ho : Sound o') (hfree : ∀ r, holds r o' = false) :
    Accounts (some p) p.unlock.2 o' := by
  cases hlocked : p.locked with
  | false =>
    have hcalls : p.unlock.2 = [] := by simp [PageLock.unlock, hlocked]
    rw [hcalls]
    refine ⟨ho, fun r => by simp [hlocked, hfree, granted, unlocked], fun r c hc => ?_⟩
    rw [List.prefix_nil.1 hc]
    exact Nat.zero_le _
  | true =>
    have hcalls : p.unlock.2 = [.virtualUnlock (p.address, p.size)] := by
      simp [PageLock.unlock, hlocked, h p rfl hlocked]
    rw [hcalls]
    have hheld : ∀ r, unlocked r [.virtualUnlock (p.address, p.size)] = (holds r (some p)).toNat := by
      intro r
      by_cases hr : (p.address, p.size) = r
      · simp [unlocked, holds, hlocked, hr]
      · simp [unlocked, holds, hlocked, hr, beq_false_of_ne hr]
    have hgranted : ∀ r, granted r [.virtualUnlock (p.address, p.size)] = 0 := fun r => by simp [granted]
    refine ⟨ho, fun r => by simp [hheld, hgranted, hfree], fun r c hc => ?_⟩
    rw [← hheld]
    exact Nat.le_add_left_of_le (hc.sublist.count_le _)

/-- Methods one after the other. -/
theorem Accounts.trans {m : Option PageLock} (h : Accounts o calls m) (h' : Accounts m calls' o') :
    Accounts o (calls ++ calls') o' := by
  refine ⟨h'.sound, fun r => ?_, fun r c ⟨rest, hrest⟩ => ?_⟩
  · have hfirst := h.count r
    have hsecond := h'.count r
    rw [granted_append, unlocked_append]
    omega
  · obtain ⟨a, hold, -⟩ | ⟨c', rfl, hnew⟩ := List.append_eq_append_iff.1 hrest
    · exact h.never r c ⟨a, hold.symm⟩
    · have hcount := h.count r
      have hnever := h'.never r c' ⟨rest, hnew.symm⟩
      rw [granted_append, unlocked_append]
      omega

/-- A range with an address is locked if Windows grants it. -/
theorem accounts_virtualLock {q : PageLock} {grant : Bool} (hp : p.locked = false) (hq : q.locked = grant)
    (haddr : q.address ≠ 0) : Accounts (some p) [.virtualLock (q.address, q.size) grant] (some q) := by
  have hunlocked : ∀ r, unlocked r [.virtualLock (q.address, q.size) grant] = 0 := fun r => by simp [unlocked]
  refine ⟨fun _ hq' _ => Option.some.inj hq' ▸ haddr, fun r => ?_, fun r c hc => ?_⟩
  · rw [hunlocked, holds_unlocked r hp]
    cases hgrant : grant with
    | false => simp [holds, hq, hgrant, granted]
    | true =>
      by_cases hr : (q.address, q.size) = r
      · simp [holds, hq, hgrant, granted, hr]
      · simp [holds, hq, hgrant, granted, hr, beq_false_of_ne hr]
  · have hnone : unlocked r c ≤ 0 := hunlocked r ▸ hc.sublist.count_le _
    exact Nat.le_trans hnone (Nat.zero_le _)

theorem accounts_lock (h : Sound (some p)) (addr bytes : Nat) (grant : Bool) :
    Accounts (some p) (p.lock addr bytes grant).2 (some (p.lock addr bytes grant).1) := by
  have hfree : ∀ q : PageLock, q.locked = false → Accounts (some p) p.unlock.2 (some q) := fun q hq =>
    accounts_unlock h (sound_unlocked hq) fun r => holds_unlocked r hq
  unfold PageLock.lock
  dsimp only
  split
  next hrange =>
    exact (hfree ⟨addr, bytes, false⟩ rfl).trans
      (accounts_virtualLock (q := ⟨addr, bytes, grant⟩) rfl rfl hrange.1)
  next => exact hfree _ rfl

/-- An object that is there is in its cell. -/
theorem getElem?_of_get? (h : s.get? i = some p) : s.objects[i]? = some (some p) := Option.join_eq_some_iff.1 h

/-- **Assignment** first gives up the own lock, then takes over the other one. -/
theorem inv_moveAssign {other : Nat} {q : PageLock} (hs : s.Inv) (hp : s.objects[i]? = some (some p))
    (hq : s.objects[other]? = some (some q)) (hne : i ≠ other) :
    (((s.put i (some p.unlock.1) p.unlock.2).put i (some q) []).put other (some {}) []).Inv := by
  have hsound : Sound (some q) := hs.sound _ (List.mem_of_getElem? hq)
  have hempty : Sound (some {}) := sound_unlocked rfl
  have hfree : ∀ r, holds r (some p.unlock.1) = false := fun r => holds_unlocked r rfl
  have hgiven := hs.put hp (accounts_unlock (hs.sound _ (List.mem_of_getElem? hp)) (sound_unlocked rfl) hfree)
  have hi : (s.put i (some p.unlock.1) p.unlock.2).objects[i]? = some (some p.unlock.1) :=
    List.getElem?_set_self (List.getElem?_eq_some_iff.1 hp).1
  have hother : ((s.put i (some p.unlock.1) p.unlock.2).put i (some q) []).objects[other]? = some (some q) := by
    simp [put, hne, hq]
  refine hgiven.move (by simp [put]) (fun r => ?_) (sound_put (sound_put hgiven.sound hsound) hempty)
  have htaken := @held_put _ i _ (some q) [] hi r
  have hleft := @held_put _ other _ (some {}) [] hother r
  rw [hfree, Bool.toNat_false, Nat.add_zero] at htaken
  rw [holds_unlocked (p := {}) r rfl, Bool.toNat_false, Nat.add_zero] at hleft
  omega

theorem inv_next {op : PageLockOp} (hs : s.Inv) (h : s.next op = some t) : t.Inv := by
  have hempty : Sound (some {}) := sound_unlocked rfl
  have hpush : (s.push (some {})).Inv := hs.move rfl (fun r => by rw [held_push]; rfl) (sound_push hs.sound hempty)
  cases op with
  | construct =>
    cases h
    exact hpush
  | constructLocked addr bytes grant =>
    cases h
    exact hpush.put (by simp [push]) (accounts_lock hempty addr bytes grant)
  | moveConstruct other =>
    obtain ⟨o, ho, h⟩ := Option.bind_eq_some_iff.1 h
    cases h
    have hcell := getElem?_of_get? ho
    have hsound := hs.sound _ (List.mem_of_getElem? hcell)
    refine hs.move (List.append_nil _) (fun r => ?_) (sound_push (sound_put hs.sound hempty) hsound)
    have hput := @held_put s other _ (some {}) [] hcell r
    rw [held_push]
    exact hput
  | moveAssign i other =>
    obtain ⟨p, hp, h⟩ := Option.bind_eq_some_iff.1 h
    obtain ⟨o, ho, h⟩ := Option.bind_eq_some_iff.1 h
    dsimp only at h
    split at h
    next hne =>
      cases h
      exact inv_moveAssign hs (getElem?_of_get? hp) (getElem?_of_get? ho) hne
    next =>
      cases h
      exact hs
  | lock i addr bytes grant =>
    obtain ⟨p, hp, h⟩ := Option.bind_eq_some_iff.1 h
    cases h
    have hcell := getElem?_of_get? hp
    exact hs.put hcell (accounts_lock (hs.sound _ (List.mem_of_getElem? hcell)) addr bytes grant)
  | unlock i =>
    obtain ⟨p, hp, h⟩ := Option.bind_eq_some_iff.1 h
    cases h
    have hcell := getElem?_of_get? hp
    exact hs.put hcell (accounts_unlock (hs.sound _ (List.mem_of_getElem? hcell)) (sound_unlocked rfl)
      fun r => holds_unlocked r rfl)
  | destroy i =>
    obtain ⟨p, hp, h⟩ := Option.bind_eq_some_iff.1 h
    cases h
    have hcell := getElem?_of_get? hp
    exact hs.put hcell (accounts_unlock (hs.sound _ (List.mem_of_getElem? hcell)) nofun holds_none)

/-- **Every lock is given back once.** Whatever is done with the objects, no range is unlocked more often than it was
locked, at any call, and the locks that are not given back are those that the objects hold. When all objects are gone
there are none. -/
theorem locks_balance {ops : List PageLockOp} (h : execute next ⟨[], []⟩ ops = some s) (r : Nat × Nat) :
    (∀ c, c <+: s.calls → unlocked r c ≤ granted r c) ∧ granted r s.calls = unlocked r s.calls + s.held r ∧
      ((∀ o ∈ s.objects, o = none) → granted r s.calls = unlocked r s.calls) := by
  have hinit : Inv ⟨[], []⟩ := by
    refine ⟨fun _ ho => absurd ho List.not_mem_nil, fun _ => rfl, fun r c hc => ?_⟩
    rw [List.prefix_nil.1 hc]
    exact Nat.zero_le _
  have hinv := execute_inv (fun _ _ _ hs hnext => inv_next hs hnext) hinit h
  refine ⟨hinv.never r, hinv.count r, fun hgone => ?_⟩
  have hnone : s.held r = 0 := List.countP_eq_zero.2 fun o ho => by rw [hgone o ho]; exact Bool.false_ne_true
  rw [hinv.count r, hnone, Nat.add_zero]

/-- Two objects, of which one takes over the lock of the other and is locked anew. -/
def reused : List PageLockOp :=
  [.construct, .constructLocked 64 8 true, .moveAssign 0 1, .lock 0 128 8 true, .destroy 1, .destroy 0]

/-- How they end. -/
def reusedEnd : PageLocks where
  objects := [none, none]
  calls := [.virtualLock (64, 8) true, .virtualUnlock (64, 8), .virtualLock (128, 8) true, .virtualUnlock (128, 8)]

theorem reused_balance :
    granted (64, 8) reusedEnd.calls = unlocked (64, 8) reusedEnd.calls ∧ granted (64, 8) reusedEnd.calls = 1 := by
  have hrun : execute next ⟨[], []⟩ reused = some reusedEnd := by decide
  exact ⟨(locks_balance hrun (64, 8)).2.2 (by decide), by decide⟩

end PageLocks

end Bajiru.Linkjiru
