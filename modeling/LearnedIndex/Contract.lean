import LearnedIndex.Hybrid.Parts

/-! Contracts for computations with a state that may fail or not return, and how they pass
through sequences and loops. -/

universe u v

namespace LearnedIndex

open Hybrid

/-- What every call keeps to: the invariant of the state, the failures it may end with, and
when it need not return. -/
structure Contract (σ : Type u) (E : Type v) where
  inv : σ → Prop
  failure : E → Prop
  divergence : Prop

namespace Contract

variable {σ α β : Type u} {E : Type v} (c : Contract σ E)

/-- A call that keeps to the contract and returns only values with `P`. -/
def Yields (x : StateT σ (Outcome E) α) (P : α → Prop) : Prop :=
  ∀ s, c.inv s → match x s with
    | .returns (a, s') => P a ∧ c.inv s'
    | .exits e => c.failure e
    | .diverges => c.divergence

variable {c} {x : StateT σ (Outcome E) α} {P Q : α → Prop}

theorem Yields.mono (hx : c.Yields x P) (h : ∀ a, P a → Q a) : c.Yields x Q := by
  intro s hs
  have hend := hx s hs
  cases hxs : x s with
  | returns r =>
    rw [hxs] at hend
    exact ⟨h _ hend.1, hend.2⟩
  | exits e =>
    rw [hxs] at hend
    exact hend
  | diverges =>
    rw [hxs] at hend
    exact hend

theorem Yields.bind {f : α → StateT σ (Outcome E) β} {R : β → Prop} (hx : c.Yields x P)
    (hf : ∀ a, P a → c.Yields (f a) R) : c.Yields (x >>= f) R := by
  intro s hs
  have hend := hx s hs
  change match (x s >>= fun r => f r.1 r.2) with
    | .returns (a, s') => R a ∧ c.inv s'
    | .exits e => c.failure e
    | .diverges => c.divergence
  cases hxs : x s with
  | returns r =>
    rw [hxs] at hend
    exact hf r.1 hend.1 r.2 hend.2
  | exits e =>
    rw [hxs] at hend
    exact hend
  | diverges =>
    rw [hxs] at hend
    exact hend

theorem Yields.pure {a : α} (h : P a) : c.Yields (Pure.pure a) P := fun _ hs => ⟨h, hs⟩

theorem Yields.map {f : α → β} {R : β → Prop} (hx : c.Yields x P) (hf : ∀ a, P a → R (f a)) :
    c.Yields (x >>= fun a => Pure.pure (f a)) R := hx.bind fun a ha => .pure (hf a ha)

theorem Yields.returns {a : α} (h : P a) :
    c.Yields (StateT.lift (.returns a)) P := fun _ hs => ⟨h, hs⟩

theorem Yields.diverges (h : c.divergence) :
    c.Yields (StateT.lift .diverges) P := fun _ _ => h

theorem Yields.exits {e : E} (h : c.failure e) :
    c.Yields (StateT.lift (.exits e)) P := fun _ _ => h

theorem Yields.require {e : E} {p : Prop} [Decidable p] {P : PUnit → Prop} (h : p → P ⟨⟩)
    (he : ¬p → c.failure e) : c.Yields (StateT.lift (Outcome.require e p)) P := by
  by_cases hp : p
  · rw [Outcome.require, if_pos hp]
    exact .returns (h hp)
  · rw [Outcome.require, if_neg hp]
    exact .exits (he hp)

theorem Yields.ofOption {e : E} {o : Option α} (h : ∀ a, o = some a → P a)
    (he : o = none → c.failure e) : c.Yields (StateT.lift (Outcome.ofOption e o)) P := by
  cases o with
  | none => exact .exits (he rfl)
  | some a => exact .returns (h a rfl)

/-- An access to the state. -/
theorem Yields.modifyGet {f : σ → α × σ} (h : ∀ s, c.inv s → P (f s).1 ∧ c.inv (f s).2) :
    c.Yields (modifyGet f) P := h

/-- A call that keeps to the contract and returns no value fails. -/
theorem Yields.rejects {s : σ} (hx : c.Yields x fun _ => False) (hdivergence : ¬c.divergence) (hs : c.inv s) :
    ∃ e, x s = .exits e ∧ c.failure e := by
  have hend := hx s hs
  cases hxs : x s with
  | returns r =>
    rw [hxs] at hend
    exact hend.1.elim
  | exits e =>
    rw [hxs] at hend
    exact ⟨e, rfl, hend⟩
  | diverges =>
    rw [hxs] at hend
    exact absurd hend hdivergence

section Loops

universe w

variable {ι : Type w} {xs : List ι} {b : β}

/-- A loop that takes the elements from the last to the first. -/
theorem Yields.foldrM {f : ι → β → StateT σ (Outcome E) β} {I : List ι → β → Prop} (hb : I [] b)
    (hstep : ∀ x xs' b, x :: xs' <:+ xs → I xs' b → c.Yields (f x b) (I (x :: xs'))) :
    c.Yields (xs.foldrM f b) (I xs) := by
  induction xs with
  | nil => exact .pure hb
  | cons x xs ih =>
    rw [List.foldrM_cons]
    apply Yields.bind (ih fun y ys b' hsuffix => hstep y ys b' (hsuffix.trans (List.suffix_cons x xs)))
    intro b' hb'
    exact hstep x xs b' List.suffix_rfl hb'

/-- A loop over positions. -/
theorem Yields.range' {f : β → Nat → StateT σ (Outcome E) β} {I : Nat → β → Prop} {n i : Nat}
    (hb : I i b) (hstep : ∀ j < i + n, ∀ b, I j b → c.Yields (f b j) (I (j + 1))) :
    c.Yields ((List.range' i n).foldlM f b) (I (i + n)) := by
  induction n generalizing i b with
  | zero => exact .pure hb
  | succ n ih =>
    rw [List.range'_succ, List.foldlM_cons]
    apply Yields.bind (hstep i (by omega) b hb)
    intro b' hb'
    rw [show i + (n + 1) = i + 1 + n by omega]
    exact ih hb' fun j hj => hstep j (by omega)

theorem Yields.range {f : β → Nat → StateT σ (Outcome E) β} {I : Nat → β → Prop} {n : Nat}
    (hb : I 0 b) (hstep : ∀ i < n, ∀ b, I i b → c.Yields (f b i) (I (i + 1))) :
    c.Yields ((List.range n).foldlM f b) (I n) := by
  have h := Yields.range' (i := 0) (n := n) hb (by simpa using hstep)
  rwa [← List.range_eq_range', Nat.zero_add] at h

end Loops

end Contract

end LearnedIndex
