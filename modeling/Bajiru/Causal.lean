import Mathlib.Order.Basic
import Mathlib.Tactic.Common

/-!
# Causal operators on sequences

A sequence over ordered positions is a function of the position. An operator is causal if the output up to a position
depends only on the input up to it. Causal operators are closed under composition, entrywise operations and folds over
a stack of layers, and an operator that reads no position past its own is one (`Causal.of_reads`).
-/

namespace Bajiru

variable {ι α β γ δ : Type*} [Preorder ι]

/-- Two sequences agree on the positions up to `t`. -/
def AgreeUpTo (t : ι) (x y : ι → α) : Prop := ∀ s ≤ t, x s = y s

/-- The output up to a position depends only on the input up to it. -/
def Causal (f : (ι → α) → ι → β) : Prop := ∀ t x y, AgreeUpTo t x y → AgreeUpTo t (f x) (f y)

theorem AgreeUpTo.mono {s t : ι} {x y : ι → α} (h : AgreeUpTo t x y) (hst : s ≤ t) : AgreeUpTo s x y :=
  fun r hr => h r (hr.trans hst)

/-- It is enough to look at the last position. -/
theorem causal_iff {f : (ι → α) → ι → β} : Causal f ↔ ∀ t x y, AgreeUpTo t x y → f x t = f y t :=
  ⟨fun hf t x y h => hf t x y h t le_rfl, fun hf _ x y h s hs => hf s x y (h.mono hs)⟩

/-- What holds of operators one after the other holds of a stack of layers. -/
theorem foldl_closed {X : Type*} {P : (X → X) → Prop} (hid : P fun x => x)
    (hcomp : ∀ g f, P g → P f → P fun x => g (f x)) {n : Nat} {layer : X → Fin n → X}
    (h : ∀ i, P fun x => layer x i) : P fun x => Fin.foldl n layer x := by
  induction n with
  | zero =>
    simp only [Fin.foldl_zero]
    exact hid
  | succ n ih =>
    simp only [Fin.foldl_succ_last]
    exact hcomp _ _ (h (Fin.last n)) (ih fun i => h i.castSucc)

/-- The same for the layers of a list. -/
theorem list_foldl_closed {X Y : Type*} {P : (X → X) → Prop} (hid : P fun x => x)
    (hcomp : ∀ g f, P g → P f → P fun x => g (f x)) {layer : X → Y → X} {layers : List Y}
    (h : ∀ l ∈ layers, P fun x => layer x l) : P fun x => layers.foldl layer x := by
  induction layers with
  | nil => exact hid
  | cons l layers ih =>
    obtain ⟨hhead, hrest⟩ := List.forall_mem_cons.1 h
    exact hcomp _ _ (ih hrest) hhead

namespace Causal

/-- **An operator that reads** only positions up to its own. -/
theorem of_reads {f : (ι → α) → ι → β} (reads : ι → Set ι) (hle : ∀ t, ∀ s ∈ reads t, s ≤ t)
    (h : ∀ t x y, (∀ s ∈ reads t, x s = y s) → f x t = f y t) : Causal f :=
  causal_iff.2 fun t x y hxy => h t x y fun s hs => hxy s (hle t s hs)

/-- An operator that reads only its own position. -/
theorem of_entry {f : (ι → α) → ι → β} (h : ∀ t x y, x t = y t → f x t = f y t) : Causal f :=
  of_reads (fun t => {t}) (fun _ _ hs => le_of_eq hs) fun t x y hxy => h t x y (hxy t rfl)

theorem id : Causal fun x : ι → α => x := fun _ _ _ h => h

theorem comp {g : (ι → β) → ι → γ} {f : (ι → α) → ι → β} (hg : Causal g) (hf : Causal f) : Causal fun x => g (f x) :=
  fun t x y h => hg t _ _ (hf t x y h)

/-- An operation on the entry of each position. -/
theorem map {f : (ι → α) → ι → β} (hf : Causal f) (g : ι → β → γ) : Causal fun x t => g t (f x t) :=
  causal_iff.2 fun t x y h => congrArg (g t) (causal_iff.1 hf t x y h)

/-- An operation on the entries that two operators give to each position. -/
theorem map₂ {f : (ι → α) → ι → β} {g : (ι → α) → ι → γ} (hf : Causal f) (hg : Causal g) (op : ι → β → γ → δ) :
    Causal fun x t => op t (f x t) (g x t) :=
  causal_iff.2 fun t x y h => congrArg₂ (op t) (causal_iff.1 hf t x y h) (causal_iff.1 hg t x y h)

/-- **A stack of layers.** -/
theorem foldl {n : Nat} {layer : (ι → α) → Fin n → ι → α} (h : ∀ i, Causal fun x => layer x i) :
    Causal fun x => Fin.foldl n layer x :=
  foldl_closed id (fun _ _ hg hf => hg.comp hf) h

end Causal

end Bajiru
