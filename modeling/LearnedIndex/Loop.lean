import Mathlib.Data.Nat.Init

/-! Loops that may fail or go on for ever.  Both are `none`, so a value that comes out says
that no step failed and that the loop was left. -/

namespace LearnedIndex

variable {α β σ : Type}

/-- The computation comes back, with a value that has `P`. -/
def Returns (x : Option α) (P : α → Prop) : Prop := ∃ a, x = some a ∧ P a

namespace Loop

/-- A loop that is left from inside its body: `inl` goes on, `inr` leaves with a result. -/
def untilDone [Nonempty β] (body : σ → Option (σ ⊕ β)) : σ → Option β := repeatM body

theorem untilDone_eq [Nonempty β] (body : σ → Option (σ ⊕ β)) (s : σ) :
    untilDone body s = (body s).bind (Sum.elim (untilDone body) some) := by
  rw [untilDone, repeatM_eq_of_monadTail]
  apply congrArg (Option.bind (body s))
  funext next
  cases next with
  | inl s' => rfl
  | inr b => rfl

/-- `while (cond) body`. -/
def whileDo (cond : σ → Option Bool) (body : σ → Option σ) (s : σ) : Option σ :=
  have : Nonempty σ := ⟨s⟩
  untilDone (fun s => do if ← cond s then return .inl (← body s) else return .inr s) s

end Loop

namespace Returns

variable {x : Option α} {P Q : α → Prop}

@[simp] theorem some_iff {a : α} : Returns (some a) P ↔ P a := by simp [Returns]

theorem mono (hx : Returns x P) (h : ∀ a, P a → Q a) : Returns x Q := by
  obtain ⟨a, ha, hp⟩ := hx
  exact ⟨a, ha, h a hp⟩

theorem bind {f : α → Option β} {R : β → Prop} (hx : Returns x P)
    (hf : ∀ a, P a → Returns (f a) R) : Returns (x >>= f) R := by
  obtain ⟨a, rfl, hp⟩ := hx
  exact hf a hp

theorem map {f : α → β} {R : β → Prop} (hx : Returns x P) (hf : ∀ a, P a → R (f a)) :
    Returns (x >>= fun a => some (f a)) R := hx.bind fun a ha => some_iff.mpr (hf a ha)

/-- A loop whose body keeps an invariant and makes a measure smaller is left. -/
theorem untilDone [Nonempty β] {body : σ → Option (σ ⊕ β)} {I : σ → Prop} {R : β → Prop} (μ : σ → Nat)
    (hstep : ∀ s, I s → Returns (body s) (Sum.elim (fun s' => I s' ∧ μ s' < μ s) R)) {s : σ}
    (hs : I s) : Returns (Loop.untilDone body s) R := by
  induction hn : μ s using Nat.strong_induction_on generalizing s with
  | _ n ih =>
    obtain ⟨next, hnext, h⟩ := hstep s hs
    rw [Loop.untilDone_eq, hnext]
    cases next with
    | inl s' => exact ih (μ s') (hn ▸ h.2) h.1 rfl
    | inr b => exact some_iff.mpr h

theorem whileDo {cond : σ → Option Bool} {body : σ → Option σ} {I R : σ → Prop} (μ : σ → Nat)
    (hcond : ∀ s, I s → Returns (cond s) fun b =>
      if b = true then Returns (body s) (fun s' => I s' ∧ μ s' < μ s) else R s) {s : σ}
    (hs : I s) : Returns (Loop.whileDo cond body s) R := by
  have : Nonempty σ := ⟨s⟩
  refine untilDone μ (fun s hs => bind (hcond s hs) fun b hb => ?_) hs
  cases b with
  | true => exact map hb fun s' hs' => hs'
  | false => exact some_iff.mpr hb

/-- The same for an invariant that names what is left to do. -/
theorem whileDo_of {ι : Type} {cond : σ → Option Bool} {body : σ → Option σ} {I : ι → σ → Prop} {R : σ → Prop}
    (μ : ι → Nat)
    (hcond : ∀ i s, I i s → Returns (cond s) fun b =>
      if b = true then Returns (body s) (fun s' => ∃ j, I j s' ∧ μ j < μ i) else R s) {i : ι} {s : σ}
    (hs : I i s) : Returns (Loop.whileDo cond body s) R := by
  have : Nonempty σ := ⟨s⟩
  change Returns (Loop.untilDone _ s) R
  induction hn : μ i using Nat.strong_induction_on generalizing i s with
  | _ n ih =>
    obtain ⟨b, hb, h⟩ := hcond i s hs
    rw [Loop.untilDone_eq, hb]
    cases b with
    | true =>
      obtain ⟨s', hs', j, hj, hlt⟩ := h
      simp only [Option.bind_eq_bind, Option.bind_some, if_true, hs']
      exact ih (μ j) (hn ▸ hlt) hj rfl
    | false => exact some_iff.mpr h

end Returns

/-- The computation comes back with a value that has `P`, or does not come back where it need not. -/
def ReturnsUnless (stops : Prop) (x : Option α) (P : α → Prop) : Prop := x.elim stops P

theorem returnsUnless_false {x : Option α} {P : α → Prop} : ReturnsUnless False x P ↔ Returns x P := by
  cases x <;> simp [ReturnsUnless, Returns]

namespace ReturnsUnless

variable {stops : Prop} {x : Option α} {P Q : α → Prop}

@[simp] theorem some_iff {a : α} : ReturnsUnless stops (some a) P ↔ P a := .rfl

theorem of_returns (h : Returns x P) : ReturnsUnless stops x P := by
  obtain ⟨a, rfl, hp⟩ := h
  exact hp

theorem mono (hx : ReturnsUnless stops x P) (h : ∀ a, P a → Q a) : ReturnsUnless stops x Q := by
  cases x with
  | none => exact hx
  | some a => exact h a hx

theorem bind {f : α → Option β} {R : β → Prop} (hx : ReturnsUnless stops x P)
    (hf : ∀ a, P a → ReturnsUnless stops (f a) R) : ReturnsUnless stops (x >>= f) R := by
  cases x with
  | none => exact hx
  | some a => exact hf a hx

end ReturnsUnless

end LearnedIndex
