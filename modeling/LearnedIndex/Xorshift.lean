import Mathlib.Data.BitVec
import Mathlib.Dynamics.PeriodicPts.Lemmas

/-! Words that are xored with themselves shifted, and where iterating an injective map leads. -/

universe u

namespace LearnedIndex.Xorshift

variable {w k n m : Nat} {x : BitVec w}

/-- `x ^= (x << k)` -/
def xorShl (k : Nat) (x : BitVec w) : BitVec w := x ^^^ (x <<< k)

/-- `x ^= (x >> k)` -/
def xorShr (k : Nat) (x : BitVec w) : BitVec w := x ^^^ (x >>> k)

/-- The bits below `k` are kept, and every other one is xored with one below it. -/
theorem getLsbD_xorShl (k : Nat) (x : BitVec w) (i : Nat) : (xorShl k x).getLsbD i =
    if i < k then x.getLsbD i else x.getLsbD i ^^ (decide (i < w) && x.getLsbD (i - k)) := by
  rw [xorShl, BitVec.getLsbD_xor, BitVec.getLsbD_shiftLeft]
  split
  · next hlt => simp [hlt]
  · next hge => simp [hge]

theorem getLsbD_xorShr (k : Nat) (x : BitVec w) (i : Nat) :
    (xorShr k x).getLsbD i = (x.getLsbD i ^^ x.getLsbD (k + i)) := by
  rw [xorShr, BitVec.getLsbD_xor, BitVec.getLsbD_ushiftRight]

@[simp] theorem xorShl_zero (k : Nat) : xorShl k (0#w) = 0#w := by
  rw [xorShl, BitVec.zero_shiftLeft, BitVec.xor_self]

@[simp] theorem xorShr_zero (k : Nat) : xorShr k (0#w) = 0#w := by
  rw [xorShr, BitVec.zero_ushiftRight, BitVec.xor_self]

/-- The bits are read back from the lowest up. -/
theorem xorShl_injective (hk : 0 < k) : Function.Injective (xorShl k : BitVec w → BitVec w) := by
  intro x y h
  apply BitVec.eq_of_getLsbD_eq
  intro i hi
  induction i using Nat.strong_induction_on with
  | _ i ih =>
    have hbit := congrArg (BitVec.getLsbD · i) h
    simp only [getLsbD_xorShl] at hbit
    split at hbit
    · exact hbit
    · next hge =>
      rw [ih (i - k) (by omega) (by omega)] at hbit
      exact Bool.xor_left_inj.mp hbit

/-- The bits are read back from the highest down. -/
theorem xorShr_injective (hk : 0 < k) : Function.Injective (xorShr k : BitVec w → BitVec w) := by
  intro x y h
  have hbits : ∀ n i, w ≤ i + n → x.getLsbD i = y.getLsbD i := by
    intro n
    induction n with
    | zero =>
      intro i hi
      rw [BitVec.getLsbD_of_ge x i hi, BitVec.getLsbD_of_ge y i hi]
    | succ n ih =>
      intro i hi
      have hbit := congrArg (BitVec.getLsbD · i) h
      simp only [getLsbD_xorShr] at hbit
      rw [ih (k + i) (by omega)] at hbit
      exact Bool.xor_left_inj.mp hbit
  apply BitVec.eq_of_getLsbD_eq
  exact fun i _ => hbits w i (Nat.le_add_left w i)

section LowZero

/-- The low `n` bits are all zero. -/
def LowZero (n : Nat) (x : BitVec w) : Prop := ∀ i < n, x.getLsbD i = false

theorem LowZero.eq_zero (h : LowZero n x) (hle : w ≤ n) : x = 0#w := by
  apply BitVec.eq_of_getLsbD_eq
  intro i hi
  rw [h i (hi.trans_le hle), BitVec.getLsbD_zero]

/-- A shift to the left neither brings ones into the low bits nor takes them away. -/
theorem lowZero_xorShl (hk : 0 < k) : LowZero n (xorShl k x) ↔ LowZero n x := by
  constructor
  · intro h i hi
    induction i using Nat.strong_induction_on with
    | _ i ih =>
      have hbit := h i hi
      rw [getLsbD_xorShl] at hbit
      split at hbit
      · exact hbit
      · next hge =>
        rwa [ih (i - k) (by omega) (by omega), Bool.and_false, Bool.xor_false] at hbit
  · intro h i hi
    rw [getLsbD_xorShl, h i hi, h (i - k) (by omega), Bool.and_false, Bool.xor_false, ite_self]

/-- Low zeros that a shift to the right leaves zero are followed by `k` more. -/
theorem LowZero.of_xorShr (hx : LowZero n x) (h : LowZero m (xorShr k x)) (hle : m ≤ n) (hk : k ≤ n) :
    LowZero (m + k) x := by
  intro i hi
  by_cases hlow : i < k
  · exact hx i (by omega)
  · have hbit := h (i - k) (by omega)
    rwa [getLsbD_xorShr, hx (i - k) (by omega), Bool.false_xor,
      Nat.add_sub_cancel' (not_lt.mp hlow)] at hbit

theorem lowZero_setWidth {v : Nat} (h : x.setWidth v = 0#v) : LowZero v x := by
  intro i hi
  have hbit := congrArg (BitVec.getLsbD · i) h
  simpa [BitVec.getLsbD_setWidth, hi] using hbit

end LowZero

section Iterate

instance finiteBitVec : Finite (BitVec w) := Finite.of_injective BitVec.toFin fun _ _ => BitVec.toFin_inj.mp

variable {α : Type u} {f : α → α}

/-- What an injective map fixes is reached from nowhere else. -/
theorem iterate_ne {z a : α} (hf : Function.Injective f) (hz : f z = z) (ha : a ≠ z) (n : Nat) :
    f^[n] a ≠ z := by
  intro h
  apply ha
  apply hf.iterate n
  rw [h, Function.iterate_fixed hz]

/-- On a finite type an injective map comes back to where it started, and goes round for ever. -/
theorem exists_period [Finite α] (hf : Function.Injective f) (a : α) :
    ∃ p > 0, ∀ n, f^[n + p] a = f^[n] a := by
  obtain ⟨p, hp, hperiod⟩ := hf.mem_periodicPts a
  refine ⟨p, hp, fun n => ?_⟩
  rw [Function.iterate_add_apply, hperiod.eq]

end Iterate

end LearnedIndex.Xorshift
