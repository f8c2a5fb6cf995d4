import Mathlib.Data.List.Basic
import Mathlib.Tactic.Common

/-!
# Runs of a partial transition function

A system is given by `next : σ → ε → Option σ`: the event `e` is enabled in `s` when `next s e` is a state.
`execute` fires a list of events. An invariant is kept by every step, hence by every run (`execute_inv`); a condition
that holds at every step of a run is `Along next G s es`, and invariants may use it (`execute_inv_along`).
-/

namespace Bajiru

variable {σ ε : Type*} {next : σ → ε → Option σ}

/-- Fire the events of a list in order. -/
def execute (next : σ → ε → Option σ) : σ → List ε → Option σ
  | s, [] => some s
  | s, e :: es => (next s e).bind (execute next · es)

/-- Every event of the run is fired in a state that meets `G`. -/
def Along (next : σ → ε → Option σ) (G : σ → ε → Prop) : σ → List ε → Prop
  | _, [] => True
  | s, e :: es => G s e ∧ ∀ t, next s e = some t → Along next G t es

/-- A condition that can be decided can be checked along a run. -/
instance decidableAlong {G : σ → ε → Prop} [∀ s e, Decidable (G s e)] :
    ∀ (s : σ) (es : List ε), Decidable (Along next G s es)
  | _, [] => isTrue trivial
  | s, e :: es =>
    match h : next s e with
    | none => decidable_of_iff (G s e) ⟨fun hG => ⟨hG, fun t ht => by rw [h] at ht; cases ht⟩, fun hA => hA.1⟩
    | some t =>
      have := decidableAlong (G := G) t es
      decidable_of_iff (G s e ∧ Along next G t es)
        ⟨fun hA => ⟨hA.1, fun u hu => by rw [h] at hu; cases hu; exact hA.2⟩, fun hA => ⟨hA.1, hA.2 t h⟩⟩

@[simp] theorem execute_nil (s : σ) : execute next s [] = some s := rfl

theorem execute_cons (s : σ) (e : ε) (es : List ε) :
    execute next s (e :: es) = (next s e).bind (execute next · es) := rfl

/-- A run that starts with `e` goes through the successor. -/
theorem execute_cons_some {s t : σ} {e : ε} {es : List ε} (h : execute next s (e :: es) = some t) :
    ∃ u, next s e = some u ∧ execute next u es = some t := by
  rw [execute_cons] at h
  exact Option.bind_eq_some_iff.1 h

theorem execute_append (s : σ) (es es' : List ε) :
    execute next s (es ++ es') = (execute next s es).bind (execute next · es') := by
  induction es generalizing s with
  | nil => rfl
  | cons e es ih =>
    simp only [List.cons_append, execute_cons]
    cases next s e with
    | none => rfl
    | some t => simpa using ih t

/-- Runs compose. -/
theorem execute_trans {s t u : σ} {es es' : List ε} (h : execute next s es = some t)
    (h' : execute next t es' = some u) : execute next s (es ++ es') = some u := by
  rw [execute_append, h, Option.bind_some, h']

theorem execute_snoc {s t u : σ} {es : List ε} {e : ε} (h : execute next s es = some t)
    (h' : next t e = some u) : execute next s (es ++ [e]) = some u :=
  execute_trans h (by simp [execute_cons, h'])

/-- A run that starts with a known step. -/
theorem execute_of_cons {s t u : σ} {e : ε} {es : List ε} (h : execute next s (e :: es) = some u)
    (h' : next s e = some t) : execute next t es = some u := by
  rwa [execute_cons, h', Option.bind_some] at h

/-- A run in two parts goes through the state between them. -/
theorem execute_append_some {s u : σ} {es es' : List ε} (h : execute next s (es ++ es') = some u) :
    ∃ t, execute next s es = some t ∧ execute next t es' = some u := by
  rw [execute_append] at h
  exact Option.bind_eq_some_iff.1 h

/-- A run that starts with a known one. -/
theorem execute_of_append {s t u : σ} {es es' : List ε} (h : execute next s (es ++ es') = some u)
    (h' : execute next s es = some t) : execute next t es' = some u := by
  rwa [execute_append, h', Option.bind_some] at h

/-- The last step of a run. -/
theorem execute_of_snoc {s t u : σ} {es : List ε} {e : ε} (h : execute next s (es ++ [e]) = some u)
    (h' : execute next s es = some t) : next t e = some u := by
  obtain ⟨v, hv, hend⟩ := execute_cons_some (execute_of_append h h')
  obtain rfl := Option.some.inj hend
  exact hv

/-- **Invariants.** What every step keeps, every run keeps. -/
theorem execute_inv {P : σ → Prop} (hstep : ∀ s e t, P s → next s e = some t → P t) {s t : σ} {es : List ε}
    (hs : P s) (h : execute next s es = some t) : P t := by
  induction es generalizing s with
  | nil => cases h; exact hs
  | cons e es ih =>
    obtain ⟨u, hu, h⟩ := execute_cons_some h
    exact ih (hstep s e u hs hu) h

/-- **Invariants under a condition on the steps.** -/
theorem execute_inv_along {P : σ → Prop} {G : σ → ε → Prop}
    (hstep : ∀ s e t, P s → G s e → next s e = some t → P t) {s t : σ} {es : List ε} (hs : P s)
    (hG : Along next G s es) (h : execute next s es = some t) : P t := by
  induction es generalizing s with
  | nil => cases h; exact hs
  | cons e es ih =>
    obtain ⟨u, hu, h⟩ := execute_cons_some h
    exact ih (hstep s e u hs hG.1 hu) (hG.2 u hu) h

/-- A condition on the events alone. -/
theorem along_of_forall {P : ε → Prop} {s : σ} {es : List ε} (h : ∀ e ∈ es, P e) : Along next (fun _ => P) s es := by
  induction es generalizing s with
  | nil => trivial
  | cons e es ih => exact ⟨h e List.mem_cons_self, fun t _ => ih fun e' he' => h e' (List.mem_cons_of_mem e he')⟩

/-- A condition along a run that starts with a known step. -/
theorem along_cons {G : σ → ε → Prop} {s t : σ} {e : ε} {es : List ε} (h : next s e = some t) :
    Along next G s (e :: es) ↔ G s e ∧ Along next G t es := by
  refine and_congr_right fun _ => ⟨fun hA => hA t h, fun hA u hu => ?_⟩
  obtain rfl := Option.some.inj (h.symm.trans hu)
  exact hA

/-- A condition along a run holds along its end. -/
theorem along_of_append {G : σ → ε → Prop} {s t : σ} {es es' : List ε} (hG : Along next G s (es ++ es'))
    (h : execute next s es = some t) : Along next G t es' := by
  induction es generalizing s with
  | nil => cases h; exact hG
  | cons e es ih =>
    obtain ⟨u, hu, h⟩ := execute_cons_some h
    exact ih (hG.2 u hu) h

theorem along_append_left {G : σ → ε → Prop} {s : σ} {es es' : List ε} (hG : Along next G s (es ++ es')) :
    Along next G s es := by
  induction es generalizing s with
  | nil => trivial
  | cons e es ih => exact ⟨hG.1, fun t ht => ih (hG.2 t ht)⟩

/-- A condition along two runs holds along both together. -/
theorem along_trans {G : σ → ε → Prop} {s t : σ} {es es' : List ε} (hG : Along next G s es)
    (h : execute next s es = some t) (hG' : Along next G t es') : Along next G s (es ++ es') := by
  induction es generalizing s with
  | nil =>
    cases h
    exact hG'
  | cons e es ih =>
    obtain ⟨u, hu, h⟩ := execute_cons_some h
    refine ⟨hG.1, fun v hv => ?_⟩
    obtain rfl := Option.some.inj (hu.symm.trans hv)
    exact ih (hG.2 u hu) h

/-- Two conditions hold along a run exactly if each of them does. -/
theorem along_and {G G' : σ → ε → Prop} {s : σ} {es : List ε} :
    Along next (fun s e => G s e ∧ G' s e) s es ↔ Along next G s es ∧ Along next G' s es := by
  induction es generalizing s with
  | nil => simp [Along]
  | cons e es ih =>
    simp only [Along, ih]
    constructor
    · rintro ⟨⟨hG, hG'⟩, hrest⟩
      exact ⟨⟨hG, fun t ht => (hrest t ht).1⟩, hG', fun t ht => (hrest t ht).2⟩
    · rintro ⟨⟨hG, hrest⟩, hG', hrest'⟩
      exact ⟨⟨hG, hG'⟩, fun t ht => ⟨hrest t ht, hrest' t ht⟩⟩

/-- Two conditions that agree on every step from a state of the invariant agree along a run, if the invariant is kept
where one of them holds. -/
theorem along_iff {P : σ → Prop} {G Q : σ → ε → Prop} (hstep : ∀ s e t, P s → G s e → next s e = some t → P t)
    (hGQ : ∀ s e t, P s → next s e = some t → (Q s e ↔ G s e)) {s t : σ} {es : List ε} (hs : P s)
    (h : execute next s es = some t) : Along next Q s es ↔ Along next G s es := by
  induction es generalizing s with
  | nil => exact Iff.rfl
  | cons e es ih =>
    obtain ⟨u, hu, h⟩ := execute_cons_some h
    simp only [Along]
    rw [hGQ s e u hs hu]
    refine and_congr_right fun hG => forall_congr' fun v => forall_congr' fun hv => ?_
    obtain rfl := Option.some.inj (hu.symm.trans hv)
    exact ih (hstep s e _ hs hG hu) h

/-- What holds in every state that a run reaches holds at its start and after each of its steps. -/
theorem reached_iff {P : σ → Prop} {s t : σ} {es : List ε} (h : execute next s es = some t) :
    (∀ es₁ es₂ u, es = es₁ ++ es₂ → execute next s es₁ = some u → P u) ↔
      P s ∧ Along next (fun s e => ∀ u, next s e = some u → P u) s es := by
  induction es generalizing s with
  | nil =>
    refine ⟨fun hall => ⟨hall [] [] s rfl rfl, trivial⟩, fun ⟨hs, _⟩ es₁ es₂ u hes hu => ?_⟩
    obtain ⟨rfl, rfl⟩ := List.append_eq_nil_iff.1 hes.symm
    cases hu
    exact hs
  | cons e es ih =>
    obtain ⟨v, hv, h⟩ := execute_cons_some h
    have hstep : ∀ u, next s e = some u → u = v := fun u hu => Option.some.inj (hu.symm.trans hv)
    constructor
    · intro hall
      have htail := (ih h).1 fun es₁ es₂ u hes hu => hall (e :: es₁) es₂ u (by rw [hes]; rfl)
        (by rw [execute_cons, hv, Option.bind_some, hu])
      refine ⟨hall [] (e :: es) s rfl rfl, fun u hu => ?_, fun u hu => ?_⟩
      · rw [hstep u hu]
        exact htail.1
      · rw [hstep u hu]
        exact htail.2
    · rintro ⟨hs, hfirst, hrest⟩ es₁ es₂ u hes hu
      cases es₁ with
      | nil =>
        cases hu
        exact hs
      | cons e' es₁ =>
        rw [List.cons_append, List.cons.injEq] at hes
        obtain ⟨rfl, hes⟩ := hes
        obtain ⟨v', hv', hu⟩ := execute_cons_some hu
        rw [hstep v' hv'] at hu
        exact (ih h).2 ⟨hfirst v hv, hrest v hv⟩ es₁ es₂ u hes hu

/-! ## Calls with replies -/

section Perform

variable {σ τ ι ρ : Type*} {step : σ → ι → Option (σ × ρ)}

/-- Perform the calls of a list in order and collect their replies. -/
def perform (step : σ → ι → Option (σ × ρ)) : σ → List ι → Option (σ × List ρ)
  | s, [] => some (s, [])
  | s, c :: cs => (step s c).bind fun (t, r) => (perform step t cs).map fun (u, rs) => (u, r :: rs)

/-- A performance goes through the state after its first call. -/
theorem perform_cons_some {s u : σ} {c : ι} {cs : List ι} {rs : List ρ}
    (h : perform step s (c :: cs) = some (u, rs)) :
    ∃ t r rs', step s c = some (t, r) ∧ perform step t cs = some (u, rs') ∧ rs = r :: rs' := by
  simp only [perform, Option.bind_eq_some_iff, Option.map_eq_some_iff] at h
  obtain ⟨⟨t, r⟩, hstep, ⟨u', rs'⟩, hrest, heq⟩ := h
  cases heq
  exact ⟨t, r, rs', hstep, hrest, rfl⟩

theorem perform_cons {s t u : σ} {c : ι} {cs : List ι} {r : ρ} {rs : List ρ} (h : step s c = some (t, r))
    (h' : perform step t cs = some (u, rs)) : perform step s (c :: cs) = some (u, r :: rs) := by
  simp [perform, h, h']

end Perform

end Bajiru
