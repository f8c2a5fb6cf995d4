import Mathlib.Tactic.Common

/-!
# Computations with a state that may raise

Inversion of `Except` and of `StateT` over it (`bind_eq_ok`, `run_bind_eq_ok`), loops that may raise
(`foldlM_invariant`), and a list of computations one after the other: each result is that of its computation from some
state (`run_mapM_eq_ok`). A computation that neither reads nor writes the state is `Stateless`, and so is what is built
of such (`Stateless.bind`, `Stateless.foldlM`).
-/

namespace Bajiru.StateExcept

variable {σ ε α β : Type}

theorem bind_eq_ok {x : Except ε α} {f : α → Except ε β} {b : β} : x >>= f = .ok b ↔ ∃ a, x = .ok a ∧ f a = .ok b := by
  cases x with
  | error e => exact ⟨fun h => (nomatch h), fun ⟨_, h, _⟩ => (nomatch h)⟩
  | ok a => exact ⟨fun h => ⟨a, rfl, h⟩, fun ⟨_, ha, h⟩ => by cases ha; exact h⟩

/-- **What each pass keeps**, a loop keeps: `P done a` is what holds with the items `done` behind it. -/
theorem foldlM_invariant {P : List β → α → Prop} {f : α → β → Except ε α}
    (hf : ∀ done b a a', P done a → f a b = .ok a' → P (done ++ [b]) a') {done rest : List β} {a a' : α}
    (ha : P done a) (h : rest.foldlM f a = .ok a') : P (done ++ rest) a' := by
  induction rest generalizing done a with
  | nil =>
    cases h
    rwa [List.append_nil]
  | cons b rest ih =>
    rw [List.foldlM_cons] at h
    obtain ⟨t, ht, h⟩ := bind_eq_ok.1 h
    simpa using ih (hf done b a t ha ht) h

theorem run_bind_eq_ok {x : StateT σ (Except ε) α} {f : α → StateT σ (Except ε) β} {s : σ} {r : β × σ} :
    (x >>= f).run s = .ok r ↔ ∃ a t, x.run s = .ok (a, t) ∧ (f a).run t = .ok r := by
  rw [StateT.run_bind, bind_eq_ok]
  exact ⟨fun ⟨p, hp, h⟩ => ⟨p.1, p.2, hp, h⟩, fun ⟨a, t, hp, h⟩ => ⟨(a, t), hp, h⟩⟩

/-! ## One after the other -/

/-- **The results of a list of computations**, each from the state that the ones before it leave. -/
theorem run_mapM_eq_ok {f : α → StateT σ (Except ε) β} {xs : List α} {s s' : σ} {ys : List β}
    (h : (xs.mapM f).run s = .ok (ys, s')) :
    ys.length = xs.length ∧ ∀ (i : Nat) x, xs[i]? = some x → ∃ y t t', ys[i]? = some y ∧ (f x).run t = .ok (y, t') := by
  induction xs generalizing s ys with
  | nil =>
    rw [List.mapM_nil, StateT.run_pure] at h
    cases h
    exact ⟨rfl, fun i x hx => (nomatch hx)⟩
  | cons x xs ih =>
    rw [List.mapM_cons, run_bind_eq_ok] at h
    obtain ⟨y, t, hy, h⟩ := h
    obtain ⟨ys', t', hys, h⟩ := run_bind_eq_ok.1 h
    rw [StateT.run_pure] at h
    cases h
    obtain ⟨hlen, hget⟩ := ih hys
    refine ⟨congrArg Nat.succ hlen, fun i z hz => ?_⟩
    cases i with
    | zero =>
      cases hz
      exact ⟨y, s, t, rfl, hy⟩
    | succ i => exact hget i z hz

/-- Computations that never raise do not raise one after the other. -/
theorem exists_run_mapM {f : α → StateT σ (Except ε) β} {xs : List α} (h : ∀ x ∈ xs, ∀ s, ∃ r, (f x).run s = .ok r)
    (s : σ) :
    ∃ r, (xs.mapM f).run s = .ok r := by
  induction xs generalizing s with
  | nil => exact ⟨([], s), rfl⟩
  | cons x xs ih =>
    obtain ⟨hx, hxs⟩ := List.forall_mem_cons.1 h
    obtain ⟨⟨y, t⟩, hy⟩ := hx s
    obtain ⟨⟨ys, t'⟩, hys⟩ := ih hxs t
    refine ⟨(y :: ys, t'), ?_⟩
    rw [List.mapM_cons]
    exact run_bind_eq_ok.2 ⟨y, t, hy, run_bind_eq_ok.2 ⟨ys, t', hys, rfl⟩⟩

/-! ## Without the state -/

/-- From every state the result is the same, and the state stays. -/
def Stateless (x : StateT σ (Except ε) α) : Prop := ∃ r : Except ε α, ∀ s, x.run s = r.map fun a => (a, s)

theorem Stateless.pure (a : α) : Stateless (Pure.pure a : StateT σ (Except ε) α) := ⟨.ok a, fun _ => rfl⟩

theorem Stateless.lift (r : Except ε α) : Stateless (StateT.lift r : StateT σ (Except ε) α) := by
  refine ⟨r, fun s => ?_⟩
  cases r <;> rfl

theorem Stateless.bind {x : StateT σ (Except ε) α} {f : α → StateT σ (Except ε) β} (hx : Stateless x)
    (hf : ∀ a, Stateless (f a)) : Stateless (x >>= f) := by
  obtain ⟨r, hr⟩ := hx
  choose g hg using hf
  refine ⟨r >>= g, fun s => ?_⟩
  rw [StateT.run_bind, hr]
  cases r with
  | error e => rfl
  | ok a => exact hg a s

theorem Stateless.foldlM {f : α → β → StateT σ (Except ε) α} {ys : List β} (hf : ∀ y ∈ ys, ∀ a, Stateless (f a y))
    (a : α) :
    Stateless (ys.foldlM f a) := by
  induction ys generalizing a with
  | nil => exact Stateless.pure a
  | cons y ys ih =>
    obtain ⟨hy, hys⟩ := List.forall_mem_cons.1 hf
    rw [List.foldlM_cons]
    exact (hy a).bind fun b => ih hys b

/-- Two runs of a stateless computation have the same result. -/
theorem Stateless.eq {x : StateT σ (Except ε) α} (hx : Stateless x) {s s' t t' : σ} {a b : α}
    (ha : x.run s = .ok (a, s'))
    (hb : x.run t = .ok (b, t')) : a = b := by
  obtain ⟨r, hr⟩ := hx
  rw [hr] at ha hb
  cases r with
  | error e => cases ha
  | ok c =>
    cases ha
    cases hb
    rfl

end Bajiru.StateExcept
