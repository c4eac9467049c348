import Mathlib.Data.List.Basic
import Mathlib.Data.Nat.Bitwise

/-! Bitmaps as lists of bytes: reading, setting and clearing one bit, and the bits of one
byte from the lowest up. -/

namespace LearnedIndex

abbrev Byte := BitVec 8

abbrev Bitmap := List Byte

namespace Bitmap

/-- The number of bytes for `n` bits. -/
def size (n : Nat) : Nat := (n + 7) / 8

def byte (b : Bitmap) (i : Nat) : Byte := b.getD i 0

def get (b : Bitmap) (i : Nat) : Bool := (b.byte (i / 8)).getLsbD (i % 8)

def bit (i : Nat) : Byte := 1#8 <<< i

def set (b : Bitmap) (i : Nat) : Bitmap := b.modify (i / 8) fun x => x ||| bit (i % 8)

def clear (b : Bitmap) (i : Nat) : Bitmap := b.modify (i / 8) fun x => x &&& ~~~bit (i % 8)

theorem lt_size {n i : Nat} (h : i < n) : i / 8 < size n := by
  rw [size]
  omega

@[simp] theorem length_set (b : Bitmap) (i : Nat) : (b.set i).length = b.length := by
  simp [set]

@[simp] theorem length_clear (b : Bitmap) (i : Nat) : (b.clear i).length = b.length := by
  simp [clear]

theorem getLsbD_bit : ∀ i < 8, ∀ j < 8, (bit i).getLsbD j = decide (j = i) := by
  decide

theorem byte_modify (b : Bitmap) (f : Byte → Byte) (i j : Nat) (h : i < b.length) :
    byte (b.modify i f) j = if j = i then f (b.byte i) else b.byte j := by
  by_cases hj : j = i
  · subst hj
    simp [byte, List.getD_eq_getElem?_getD, h]
  · simp [byte, List.getD_eq_getElem?_getD, hj, Ne.symm hj]

theorem eq_of_div_mod {i j : Nat} (hdiv : j / 8 = i / 8) (hmod : j % 8 = i % 8) : j = i := by
  rw [← Nat.div_add_mod j 8, hdiv, hmod, Nat.div_add_mod]

theorem get_set {b : Bitmap} {i : Nat} (h : i / 8 < b.length) (j : Nat) :
    get (b.set i) j = (decide (j = i) || b.get j) := by
  have hi : i % 8 < 8 := Nat.mod_lt _ (by decide)
  have hj : j % 8 < 8 := Nat.mod_lt _ (by decide)
  rw [get, set, byte_modify _ _ _ _ h]
  split
  · next hdiv =>
    rw [BitVec.getLsbD_or, getLsbD_bit _ hi _ hj, ← hdiv, Bool.or_comm]
    congr 1
    exact decide_eq_decide.mpr ⟨eq_of_div_mod hdiv, fun heq => heq ▸ rfl⟩
  · next hdiv => simp [get, show j ≠ i from fun heq => hdiv (heq ▸ rfl)]

theorem get_clear {b : Bitmap} {i : Nat} (h : i / 8 < b.length) (j : Nat) :
    get (b.clear i) j = (!decide (j = i) && b.get j) := by
  have hi : i % 8 < 8 := Nat.mod_lt _ (by decide)
  have hj : j % 8 < 8 := Nat.mod_lt _ (by decide)
  rw [get, clear, byte_modify _ _ _ _ h]
  split
  · next hdiv =>
    rw [BitVec.getLsbD_and, BitVec.getLsbD_not, getLsbD_bit _ hi _ hj, ← hdiv, Bool.and_comm]
    simp only [hj, decide_true, Bool.true_and]
    congr 2
    exact decide_eq_decide.mpr ⟨eq_of_div_mod hdiv, fun heq => heq ▸ rfl⟩
  · next hdiv => simp [get, show j ≠ i from fun heq => hdiv (heq ▸ rfl)]

theorem get_clear_of_not {b : Bitmap} {j : Nat} (h : b.get j = false) (i : Nat) : get (b.clear i) j = false := by
  by_cases hi : i / 8 < b.length
  · rw [get_clear hi, h, Bool.and_false]
  · rwa [clear, List.modify_eq_self (not_lt.mp hi)]

theorem get_replicate {n i : Nat} (x : Byte) (h : i / 8 < n) :
    get (List.replicate n x) i = x.getLsbD (i % 8) := by
  simp [get, byte, List.getD_eq_getElem?_getD, h]

theorem get_replicate_zero (n i : Nat) : get (List.replicate n 0) i = false := by
  rw [get, byte, List.getD_eq_getElem?_getD, List.getElem?_replicate]
  split <;> simp

/-- The lowest bit of a byte that is set. -/
def next (x : Byte) : Option Nat := (List.range 8).find? x.getLsbD

/-- The bits of a byte that are set, from the lowest up. -/
def bits (x : Byte) : List Nat := (List.range 8).filter x.getLsbD

theorem mem_bits {x : Byte} {i : Nat} : i ∈ bits x ↔ x.getLsbD i = true := by
  rw [bits, List.mem_filter, List.mem_range]
  exact and_iff_right_of_imp BitVec.lt_of_getLsbD

theorem next_eq_head (x : Byte) : next x = (bits x).head? := by
  rw [next, bits, List.head?_filter]

set_option maxRecDepth 4000 in
/-- Subtracting the lowest bit that is set leaves the others. -/
theorem bits_sub : ∀ x : Byte, ∀ i < 8, (bits x).head? = some i → bits (x - bit i) = (bits x).tail := by
  decide +kernel

theorem bits_eq_nil {x : Byte} : bits x = [] ↔ x = 0 := by
  rw [bits, List.filter_eq_nil_iff]
  constructor
  · intro h
    apply BitVec.eq_of_getLsbD_eq
    intro i hi
    exact (Bool.eq_false_iff.mpr (h i (List.mem_range.mpr hi))).trans BitVec.getLsbD_zero.symm
  · rintro rfl i -
    simp

end Bitmap

end LearnedIndex
