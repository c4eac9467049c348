import Mathlib.Data.Option.Basic

/-! Computations that may fail and that read what they do not determine themselves from
a tape: random draws, unspecified choices of a library. -/

universe u

namespace LearnedIndex

/-- A computation that consumes a prefix of the tape; `none` when it fails or when the
tape does not start with outcomes it can have. -/
abbrev Oracle (T : Type u) := StateT (List T) Option

namespace Oracle

variable {T α β : Type u}

def ofOption (o : Option α) : Oracle T α := fun tape => o.map fun a => (a, tape)

def require (p : Prop) [Decidable p] : Oracle T PUnit := ofOption (if p then some ⟨⟩ else none)

/-- One outcome of the tape, if `f` recognises it. -/
def next (f : T → Option α) : Oracle T α
  | [] => none
  | d :: tape => (f d).map fun a => (a, tape)

theorem bind_eq_some {x : Oracle T α} {f : α → Oracle T β} {tape tape' : List T} {b : β} :
    (x >>= f) tape = some (b, tape') ↔
      ∃ a mid, x tape = some (a, mid) ∧ f a mid = some (b, tape') := by
  change (x tape).bind (fun r => f r.1 r.2) = _ ↔ _
  rw [Option.bind_eq_some_iff]
  exact ⟨fun ⟨⟨a, mid⟩, h⟩ => ⟨a, mid, h⟩, fun ⟨a, mid, h⟩ => ⟨(a, mid), h⟩⟩

@[simp] theorem pure_eq_some {a b : α} {tape tape' : List T} :
    (pure a : Oracle T α) tape = some (b, tape') ↔ a = b ∧ tape = tape' := by
  change some (a, tape) = some (b, tape') ↔ _
  simp

@[simp] theorem ofOption_eq_some {o : Option α} {b : α} {tape tape' : List T} :
    ofOption o tape = some (b, tape') ↔ o = some b ∧ tape = tape' := by
  cases o <;> simp [ofOption]

@[simp] theorem require_eq_some {p : Prop} [Decidable p] {b : PUnit} {tape tape' : List T} :
    require p tape = some (b, tape') ↔ p ∧ tape = tape' := by
  by_cases h : p <;> simp [require, h]

theorem next_eq_some {f : T → Option α} {b : α} {tape tape' : List T} :
    next f tape = some (b, tape') ↔ ∃ d, tape = d :: tape' ∧ f d = some b := by
  cases tape with
  | nil => simp [next]
  | cons d tape =>
    simp only [next, Option.map_eq_some_iff, Prod.mk.injEq, List.cons.injEq]
    constructor
    · rintro ⟨a, ha, rfl, rfl⟩
      exact ⟨d, ⟨rfl, rfl⟩, ha⟩
    · rintro ⟨d', ⟨rfl, rfl⟩, ha⟩
      exact ⟨b, ha, rfl, rfl⟩

end Oracle

end LearnedIndex
