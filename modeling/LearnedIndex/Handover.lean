import Mathlib.Logic.Basic

/-! A mutex as its owner, against a thread's own account of whether it holds the mutex. -/

universe u

namespace LearnedIndex

/-- What one step of the thread `self` does to a mutex: `holds` is the thread's own account,
before and after the step. -/
inductive Handover {α : Type u} (self : α) : Option α → Bool → Option α → Bool → Prop
  | keep (owner : Option α) (holds : Bool) : Handover self owner holds owner holds
  | acquire (holds : Bool) : Handover self none holds (some self) true
  | release (holds : Bool) : Handover self (some self) holds none false

namespace Handover

variable {α : Type u} {self other : α} {owner owner' : Option α} {holds holds' : Bool}

theorem self_iff (h : Handover self owner holds owner' holds')
    (hself : holds = true ↔ owner = some self) : holds' = true ↔ owner' = some self := by
  cases h with
  | keep => exact hself
  | acquire => simp
  | release => simp

theorem other_iff (h : Handover self owner holds owner' holds') (hne : other ≠ self) :
    owner' = some other ↔ owner = some other := by
  cases h with
  | keep => exact Iff.rfl
  | acquire => simp [Ne.symm hne]
  | release => simp [Ne.symm hne]

end Handover

end LearnedIndex
