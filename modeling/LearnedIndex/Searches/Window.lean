import LearnedIndex.Loop
import Mathlib.Data.Int.Order.Basic
import Mathlib.Data.List.Sort
import Mathlib.Order.Nat

/-! Sorted ranges of keys, and the positions that searches look for in them. -/

universe u

namespace LearnedIndex.Searches

/-- The first position of `[first, last)` with `P`, or `last` when there is none. -/
structure IsFirst (P : Int → Prop) (first last p : Int) : Prop where
  first_le : first ≤ p
  le_last : p ≤ last
  not_of_lt : ∀ i, first ≤ i → i < p → ¬P i
  of_lt : p < last → P p

theorem IsFirst.unique {P : Int → Prop} {first last p q : Int} (hp : IsFirst P first last p)
    (hq : IsFirst P first last q) : p = q := by
  obtain hlt | heq | hlt := lt_trichotomy p q
  · exact absurd (hp.of_lt (hlt.trans_le hq.le_last)) (hq.not_of_lt p hp.first_le hlt)
  · exact heq
  · exact absurd (hq.of_lt (hlt.trans_le hp.le_last)) (hp.not_of_lt q hq.first_le hlt)

/-- Two searches for the same position return the same. -/
theorem IsFirst.agree {P : Int → Prop} {first last : Int} {x y : Option Int}
    (hx : Returns x (IsFirst P first last)) (hy : Returns y (IsFirst P first last)) :
    ∃ p, x = some p ∧ y = some p := by
  obtain ⟨p, hp, hpfirst⟩ := hx
  obtain ⟨q, hq, hqfirst⟩ := hy
  exact ⟨p, hp, hq.trans (congrArg some (hqfirst.unique hpfirst))⟩

/-- `p` cuts `[first, last)` into the positions before a key and those that are not. -/
structure Cut (before : Int → Bool) (first last p : Int) : Prop where
  first_le : first ≤ p
  le_last : p ≤ last
  below : ∀ i, first ≤ i → i < p → before i = true
  above : ∀ i, p ≤ i → i < last → before i = false

theorem Cut.isFirst {before : Int → Bool} {first last p : Int} (h : Cut before first last p) :
    IsFirst (fun i => before i = false) first last p where
  first_le := h.first_le
  le_last := h.le_last
  not_of_lt i hi hlt := by rw [h.below i hi hlt]; exact Bool.true_eq_false.mp
  of_lt := h.above p le_rfl

/-- `[l, r)` is a part of `[first, last)` that has the cut in it: it starts behind a position
before the key and ends at one that is not. -/
structure Encloses (before : Int → Bool) (first last l r : Int) : Prop where
  first_le : first ≤ l
  le_last : r ≤ last
  below : first < l → before (l - 1) = true
  above : r < last → before r = false

namespace Encloses

variable {before : Int → Bool} {first last l r l' r' : Int}

theorem refl (before : Int → Bool) (first last : Int) : Encloses before first last first last where
  first_le := le_rfl
  le_last := le_rfl
  below h := absurd h (lt_irrefl _)
  above h := absurd h (lt_irrefl _)

theorem trans (h : Encloses before first last l r) (h' : Encloses before l r l' r') :
    Encloses before first last l' r' where
  first_le := h.first_le.trans h'.first_le
  le_last := h'.le_last.trans h.le_last
  below hlt := by
    obtain heq | hne := h'.first_le.eq_or_lt
    · exact heq ▸ h.below (heq ▸ hlt)
    · exact h'.below hne
  above hlt := by
    obtain heq | hne := h'.le_last.eq_or_lt
    · exact heq ▸ h.above (heq ▸ hlt)
    · exact h'.above hne

/-- The part behind a position before the key. -/
theorem behind (h : before l = true) (hfirst : first ≤ l) : Encloses before first last (l + 1) last where
  first_le := by omega
  le_last := le_rfl
  below _ := by rwa [Int.add_sub_cancel]
  above h := absurd h (lt_irrefl _)

/-- The part in front of a position that is not before the key. -/
theorem upTo (h : r < last → before r = false) (hlast : r ≤ last) :
    Encloses before first last first r where
  first_le := le_rfl
  le_last := hlast
  below h := absurd h (lt_irrefl _)
  above := h

/-- A cut inside a first part is one of the whole. -/
theorem of_cut_lt (h : Cut before first r l) (hlt : l < r) (hlast : r ≤ last) :
    Encloses before first last l l where
  first_le := h.first_le
  le_last := by omega
  below hl := h.below (l - 1) (by omega) (by omega)
  above _ := h.above l le_rfl hlt

/-- A cut inside a last part is one of the whole. -/
theorem of_cut_gt (h : Cut before l last r) (hlt : l < r) (hfirst : first ≤ l) :
    Encloses before first last r r where
  first_le := by omega
  le_last := h.le_last
  below _ := h.below (r - 1) (by omega) (by omega)
  above hr := h.above r le_rfl hr

end Encloses

/-- A test that can be made on every position of `[first, last)`; no position before the
key is behind one that is not. -/
structure Probes (probe : Int → Option Bool) (before : Int → Bool) (first last : Int) : Prop where
  reads : ∀ i, first ≤ i → i < last → probe i = some (before i)
  falls : ∀ i j, first ≤ i → i ≤ j → j < last → before j = true → before i = true

namespace Probes

variable {probe : Int → Option Bool} {before : Int → Bool} {first last l r p : Int}

theorem restrict (h : Probes probe before first last) (hl : first ≤ l) (hr : r ≤ last) :
    Probes probe before l r where
  reads i hi hlt := h.reads i (hl.trans hi) (hlt.trans_le hr)
  falls i j hi hij hj := h.falls i j (hl.trans hi) hij (hj.trans_le hr)

theorem rises (h : Probes probe before first last) {i j : Int} (hi : first ≤ i) (hij : i ≤ j)
    (hj : j < last) (hbefore : before i = false) : before j = false := by
  cases hb : before j with
  | false => rfl
  | true => exact (h.falls i j hi hij hj hb).symm.trans hbefore

theorem widen (h : Probes probe before first last) (hl : Encloses before first last l r)
    (hcut : Cut before l r p) : Cut before first last p where
  first_le := hl.first_le.trans hcut.first_le
  le_last := hcut.le_last.trans hl.le_last
  below i hi hlt := by
    by_cases hil : l ≤ i
    · exact hcut.below i hil hlt
    · have hl' : l ≤ last := (hcut.first_le.trans hcut.le_last).trans hl.le_last
      exact h.falls i (l - 1) hi (by omega) (by omega) (hl.below (by omega))
  above i hi hlt := by
    by_cases hir : i < r
    · exact hcut.above i hi hir
    · have hr' : first ≤ r := hl.first_le.trans (hcut.first_le.trans hcut.le_last)
      exact h.rises hr' (by omega) hlt (hl.above (by omega))

/-- Where nothing is left between the bounds the cut is found. -/
theorem cut (h : Probes probe before first last) (hp : Encloses before first last p p) :
    Cut before first last p :=
  h.widen hp ⟨le_rfl, le_rfl, fun _ hi hlt => absurd hi hlt.not_ge, fun _ hi hlt => absurd hi hlt.not_ge⟩

end Probes

section Start

variable {probe : Int → Option Bool} {before : Int → Bool} {first last start : Int}

/-- `start != last`, and the test holds at `start`. -/
def testStart (probe : Int → Option Bool) (last start : Int) : Option Bool :=
  if start = last then some false else probe start

theorem testStart_spec (h : Probes probe before first last) (hfirst : first ≤ start)
    (hlast : start ≤ last) : Returns (testStart probe last start) fun b =>
      (b = true → start < last ∧ before start = true) ∧
      (b = false → start < last → before start = false) := by
  unfold testStart
  split
  · next heq =>
    rw [Returns.some_iff]
    exact ⟨fun hb => absurd hb Bool.false_ne_true, fun _ hlt => absurd heq hlt.ne⟩
  · next hne =>
    have hlt : start < last := lt_of_le_of_ne hlast hne
    rw [h.reads start hfirst hlt, Returns.some_iff]
    exact ⟨fun hb => ⟨hlt, hb⟩, fun hb _ => hb⟩

end Start

variable {K : Type u} [LinearOrder K]

/-- A range `[first, last)` with ascending keys. -/
structure Window (K : Type u) [LinearOrder K] where
  first : Int
  last : Int
  keyAt : Int → K
  first_le_last : first ≤ last
  sorted : ∀ i j, first ≤ i → i ≤ j → j < last → keyAt i ≤ keyAt j

namespace Window

variable (w : Window K)

/-- Reads the key at a position; `none` outside the range. -/
def read (i : Int) : Option K := if w.first ≤ i ∧ i < w.last then some (w.keyAt i) else none

theorem read_eq {i : Int} (hi : w.first ≤ i) (hlt : i < w.last) : w.read i = some (w.keyAt i) :=
  if_pos ⟨hi, hlt⟩

/-- What `lower_bound` is to return: the first position whose key is not less. -/
def IsLowerBound (key : K) (p : Int) : Prop := IsFirst (fun i => ¬w.keyAt i < key) w.first w.last p

/-- What `upper_bound` is to return: the first position whose key is greater. -/
def IsUpperBound (key : K) (p : Int) : Prop := IsFirst (fun i => key < w.keyAt i) w.first w.last p

end Window

/-- `less(at(i), key)`. -/
def lessProbe (read : Int → Option K) (key : K) (i : Int) : Option Bool :=
  (read i).map fun k => decide (k < key)

/-- `!less(key, at(i))`. -/
def notGreaterProbe (read : Int → Option K) (key : K) (i : Int) : Option Bool :=
  (read i).map fun k => !decide (key < k)

namespace Window

variable (w : Window K) (key : K)

theorem probes_less :
    Probes (lessProbe w.read key) (fun i => decide (w.keyAt i < key)) w.first w.last where
  reads i hi hlt := by rw [lessProbe, w.read_eq hi hlt, Option.map_some]
  falls i j hi hij hj hb :=
    decide_eq_true ((w.sorted i j hi hij hj).trans_lt (of_decide_eq_true hb))

theorem probes_notGreater :
    Probes (notGreaterProbe w.read key) (fun i => !decide (key < w.keyAt i)) w.first w.last where
  reads i hi hlt := by rw [notGreaterProbe, w.read_eq hi hlt, Option.map_some]
  falls i j hi hij hj hb := by
    simp only [Bool.not_eq_true', decide_eq_false_iff_not, not_lt] at hb ⊢
    exact (w.sorted i j hi hij hj).trans hb

variable {w key} {p : Int}

theorem isLowerBound_of_cut (h : Cut (fun i => decide (w.keyAt i < key)) w.first w.last p) :
    w.IsLowerBound key p := by
  have hfirst := h.isFirst
  simp only [decide_eq_false_iff_not] at hfirst
  exact hfirst

theorem isUpperBound_of_cut (h : Cut (fun i => !decide (key < w.keyAt i)) w.first w.last p) :
    w.IsUpperBound key p := by
  have hfirst := h.isFirst
  simp only [Bool.not_eq_false', decide_eq_true_eq] at hfirst
  exact hfirst

/-- The keys `0, 0, 1, 1, 2`. -/
def pairs : Window Nat where
  first := 0
  last := 5
  keyAt i := (i / 2).toNat
  first_le_last := by decide
  sorted i j _ hij _ := Int.toNat_le_toNat (Int.ediv_le_ediv (by decide) hij)

end Window

end LearnedIndex.Searches
