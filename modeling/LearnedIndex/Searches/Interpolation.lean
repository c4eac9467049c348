import LearnedIndex.Searches.Window

/-! `InterpolationSearch`.  Keys are unsigned; a difference that would wrap and a quotient
with divisor zero are failures.  What the interpolation in `double` comes to is a parameter. -/

namespace LearnedIndex.Searches.InterpolationSearch

open Loop

/-- `mid_offset` by the round of the loop, the two differences and the distance from `first`
to `last`, which it does not exceed. -/
abbrev Estimate := (round dividend divisor distance : Nat) → Fin (distance + 1)

def sub (a b : Nat) : Option Nat := if b ≤ a then some (a - b) else none

def midOffset (est : Estimate) (round dividend divisor distance : Nat) : Option Nat :=
  if divisor = 0 then none else some (est round dividend divisor distance)

/-- The state of the loop; `last` is the last position of the interval itself. -/
structure Interval where
  round : Nat
  first : Int
  last : Int

/-- One round, by the keys to skip and by what is done at a key that is equal. -/
def narrow (read : Int → Option Nat) (before : Nat → Bool) (equal : Interval → Int → Option Int)
    (key : Nat) (est : Estimate) (s : Interval) : Option (Interval ⊕ Int) := do
  let atFirst ← read s.first
  let atLast ← read s.last
  if atFirst < atLast ∧ before atFirst = true ∧ before atLast = false then
    let dividend ← sub key atFirst
    let divisor ← sub atLast atFirst
    let offset ← midOffset est s.round dividend divisor (s.last - s.first).toNat
    let mid := s.first + offset
    let atMid ← read mid
    if atMid < key then return .inl ⟨s.round + 1, mid + 1, s.last⟩
    else if key < atMid then return .inl ⟨s.round + 1, s.first, mid - 1⟩
    else return .inr (← equal s mid)
  else if before atFirst then return .inr (s.last + 1) else return .inr s.first

def searchRange (read : Int → Option Nat) (before : Nat → Bool)
    (equal : Interval → Int → Option Int) (key : Nat) (est : Estimate) (first last : Int) :
    Option Int :=
  if first = last then some first
  else untilDone (narrow read before equal key est) ⟨0, first, last - 1⟩

/-- The walk to the front of the keys that are equal. -/
def equalLower (read : Int → Option Nat) (key : Nat) (s : Interval) (mid : Int) : Option Int := do
  let mid ← whileDo (fun mid => if mid = s.first then some false else (read mid).map (· == key))
    (fun mid => some (mid - 1)) mid
  let atMid ← read mid
  if atMid < key then return mid + 1 else return mid

/-- The walk behind the keys that are equal. -/
def equalUpper (read : Int → Option Nat) (key : Nat) (s : Interval) (mid : Int) : Option Int :=
  whileDo (fun mid => if mid = s.last + 1 then some false else (read mid).map (· == key))
    (fun mid => some (mid + 1)) mid

def search (read : Int → Option Nat) (before : Nat → Bool)
    (equal : Interval → Int → Option Int) (key : Nat) (est : Estimate) (first last start : Int) :
    Option Int := do
  if ← testStart (fun i => (read i).map before) last start then
    searchRange read before equal key est (start + 1) last
  else searchRange read before equal key est first start

def lowerBound (read : Int → Option Nat) (est : Estimate) (first last : Int) (key : Nat)
    (start : Int) : Option Int :=
  search read (fun k => decide (k < key)) (equalLower read key) key est first last start

def upperBound (read : Int → Option Nat) (est : Estimate) (first last : Int) (key : Nat)
    (start : Int) : Option Int :=
  search read (fun k => !decide (key < k)) (equalUpper read key) key est first last start

variable {w : Window Nat} {before : Nat → Bool} {key : Nat} {est : Estimate} {s : Interval}
  {mid first last start : Int} {equal : Interval → Int → Option Int}

/-- An interval of the range that starts at a key to skip and ends at one that is not. -/
structure Straddles (w : Window Nat) (before : Nat → Bool) (s : Interval) : Prop where
  first_le : w.first ≤ s.first
  last_lt : s.last < w.last
  first_lt : s.first < s.last
  before_first : before (w.keyAt s.first) = true
  before_last : before (w.keyAt s.last) = false

theorem equalLower_spec (h : Straddles w (fun k => decide (k < key)) s) (hfirst : s.first ≤ mid)
    (hlast : mid ≤ s.last) (hmid : w.keyAt mid = key) :
    Returns (equalLower w.read key s mid)
      (Cut (fun i => decide (w.keyAt i < key)) s.first (s.last + 1)) := by
  have hwlast := h.last_lt
  have hprobes : Probes (lessProbe w.read key) (fun i => decide (w.keyAt i < key)) s.first
      (s.last + 1) := (w.probes_less key).restrict h.first_le hwlast
  have hloop : Returns (whileDo (fun mid => if mid = s.first then some false
      else (w.read mid).map (· == key)) (fun mid => some (mid - 1)) mid) fun m =>
        s.first ≤ m ∧ m ≤ s.last ∧ w.keyAt m < key ∧
        Encloses (fun i => decide (w.keyAt i < key)) s.first (s.last + 1) s.first (m + 1) := by
    apply Returns.whileDo (I := fun m => s.first ≤ m ∧ m ≤ s.last ∧ w.keyAt m ≤ key ∧
      Encloses (fun i => decide (w.keyAt i < key)) s.first (s.last + 1) s.first (m + 1))
      fun m => (m - s.first).toNat
    · rintro m ⟨hm, hml, hle, henc⟩
      by_cases hsm : m = s.first
      · rw [if_pos hsm, Returns.some_iff, if_neg Bool.false_ne_true]
        exact ⟨hm, hml, hsm ▸ of_decide_eq_true h.before_first, henc⟩
      · have hfirst' := h.first_le
        rw [if_neg hsm, w.read_eq (by omega) (by omega), Option.map_some, Returns.some_iff]
        split
        · next heq =>
          have hsorted : w.keyAt (m - 1) ≤ w.keyAt m :=
            w.sorted _ _ (by omega) (by omega) (by omega)
          refine Returns.some_iff.mpr ⟨⟨by omega, by omega, hsorted.trans hle, ?_⟩, by omega⟩
          rw [Int.sub_add_cancel]
          exact .upTo (fun _ => by simp [eq_of_beq heq]) (by omega)
        · next hne => exact ⟨hm, hml, lt_of_le_of_ne hle (by simpa using hne), henc⟩
    · refine ⟨hfirst, hlast, hmid.le, .upTo (fun hlt => ?_) (by omega)⟩
      have hsorted : w.keyAt mid ≤ w.keyAt (mid + 1) :=
        w.sorted _ _ (h.first_le.trans hfirst) (by omega) (by omega)
      exact decide_eq_false (by omega)
  refine hloop.bind fun m hm => ?_
  obtain ⟨hm, hml, hlt, henc⟩ := hm
  rw [w.read_eq (h.first_le.trans hm) (by omega), Option.bind_eq_bind, Option.bind_some, if_pos hlt]
  refine Returns.some_iff.mpr (hprobes.cut (henc.trans (.behind (decide_eq_true hlt) hm)))

theorem equalUpper_spec (h : Straddles w (fun k => !decide (key < k)) s) (hfirst : s.first ≤ mid)
    (hlast : mid ≤ s.last) (hmid : w.keyAt mid = key) :
    Returns (equalUpper w.read key s mid)
      (Cut (fun i => !decide (key < w.keyAt i)) s.first (s.last + 1)) := by
  have hwlast := h.last_lt
  have hwfirst := h.first_le
  have hprobes : Probes (notGreaterProbe w.read key) (fun i => !decide (key < w.keyAt i)) s.first
      (s.last + 1) := (w.probes_notGreater key).restrict h.first_le hwlast
  apply Returns.whileDo (I := fun m => mid ≤ m ∧ m ≤ s.last + 1 ∧
    Encloses (fun i => !decide (key < w.keyAt i)) s.first (s.last + 1) m (s.last + 1))
    fun m => (s.last + 1 - m).toNat
  · rintro m ⟨hm, hml, henc⟩
    by_cases hsm : m = s.last + 1
    · rw [if_pos hsm, Returns.some_iff, if_neg Bool.false_ne_true]
      subst hsm
      exact hprobes.cut henc
    · rw [if_neg hsm, w.read_eq (by omega) (by omega), Option.map_some, Returns.some_iff]
      split
      · next heq =>
        refine Returns.some_iff.mpr ⟨⟨by omega, by omega, ?_⟩, by omega⟩
        exact henc.trans (.behind (by simp [eq_of_beq heq]) le_rfl)
      · next hne =>
        have hsorted : w.keyAt mid ≤ w.keyAt m := w.sorted _ _ (by omega) hm (by omega)
        have hne' : w.keyAt m ≠ key := by simpa using hne
        have hgt : key < w.keyAt m := by omega
        exact hprobes.cut (henc.trans (.upTo (fun _ => by simp [hgt]) hml))
  · refine ⟨le_rfl, by omega, ⟨hfirst, le_rfl, fun hlt => ?_, fun hlt => absurd hlt (lt_irrefl _)⟩⟩
    have hsorted : w.keyAt (mid - 1) ≤ w.keyAt mid := w.sorted _ _ (by omega) (by omega) (by omega)
    simp only [Bool.not_eq_true', decide_eq_false_iff_not]
    omega

/-- What both searches ask of the keys they skip. -/
structure Skips (before : Nat → Bool) (key : Nat) : Prop where
  of_lt : ∀ k < key, before k = true
  of_gt : ∀ k, key < k → before k = false

theorem Skips.probes (hskip : Skips before key) (w : Window Nat) :
    Probes (fun i => (w.read i).map before) (fun i => before (w.keyAt i)) w.first w.last where
  reads i hi hlt := by rw [w.read_eq hi hlt, Option.map_some]
  falls i j hi hij hj hb := by
    have hsorted : w.keyAt i ≤ w.keyAt j := w.sorted i j hi hij hj
    obtain heq | hne := hsorted.eq_or_lt
    · exact heq ▸ hb
    · by_contra hi'
      have h1 : ¬w.keyAt i < key := fun hlt => hi' (hskip.of_lt _ hlt)
      rw [hskip.of_gt _ (by omega)] at hb
      exact Bool.false_ne_true hb

theorem Skips.le (hskip : Skips before key) {k : Nat} (h : before k = true) : k ≤ key := by
  by_contra hlt
  rw [hskip.of_gt k (by omega)] at h
  exact Bool.false_ne_true h

theorem Skips.ge (hskip : Skips before key) {k : Nat} (h : before k = false) : key ≤ k := by
  by_contra hlt
  rw [hskip.of_lt k (by omega)] at h
  exact Bool.false_ne_true h.symm

section Narrow

variable (hskip : Skips before key)
  (hequal : ∀ s mid, Straddles w before s → s.first ≤ mid → mid ≤ s.last → w.keyAt mid = key →
    Returns (equal s mid) (Cut (fun i => before (w.keyAt i)) s.first (s.last + 1)))

include hskip hequal

/-- The differences are taken only where they do not wrap, the divisor is positive, and the
interval that is left is smaller. -/
theorem narrow_spec (hfirst : w.first ≤ s.first) (hle : s.first ≤ s.last) (hlast : s.last < w.last) :
    Returns (narrow w.read before equal key est s) (Sum.elim
      (fun s' => (Encloses (fun i => before (w.keyAt i)) s.first (s.last + 1) s'.first (s'.last + 1) ∧
        s'.first ≤ s'.last) ∧ (s'.last - s'.first).toNat < (s.last - s.first).toNat)
      (Cut (fun i => before (w.keyAt i)) s.first (s.last + 1))) := by
  have hprobes := (hskip.probes w).restrict hfirst hlast
  rw [narrow, w.read_eq hfirst (by omega), w.read_eq (hfirst.trans hle) hlast, Option.bind_eq_bind,
    Option.bind_some, Option.bind_eq_bind, Option.bind_some]
  split
  · next hguard =>
    obtain ⟨hlt, hbefore, hnot⟩ := hguard
    have hkey : w.keyAt s.first ≤ key := hskip.le hbefore
    have hne : s.first ≠ s.last := fun heq => by rw [heq] at hlt; exact lt_irrefl _ hlt
    have hstraddles : Straddles w before s := ⟨hfirst, hlast, by omega, hbefore, hnot⟩
    have hdivisor : ¬w.keyAt s.last - w.keyAt s.first = 0 := by omega
    simp only [sub, if_pos hkey, if_pos hlt.le, midOffset, if_neg hdivisor, Option.bind_some]
    generalize est s.round (key - w.keyAt s.first) (w.keyAt s.last - w.keyAt s.first)
      (s.last - s.first).toNat = offset
    have hoffset := offset.isLt
    rw [w.read_eq (by omega) (by omega), Option.bind_some]
    split
    · next hmid =>
      have hmid' : s.first + offset ≠ s.last := fun heq => by
        rw [heq] at hmid
        exact absurd (hskip.ge hnot) (not_le.mpr hmid)
      refine Returns.some_iff.mpr ⟨⟨.behind (hskip.of_lt _ hmid) (by omega), ?_⟩, ?_⟩
      all_goals simp only
      all_goals omega
    · split
      · next hmid =>
        have hmid' : (offset : Nat) ≠ 0 := fun heq => by
          rw [heq] at hmid
          simp only [Int.natCast_zero, Int.add_zero] at hmid
          exact absurd hkey (not_le.mpr hmid)
        refine Returns.some_iff.mpr ⟨⟨?_, ?_⟩, ?_⟩
        · simp only [Int.sub_add_cancel]
          exact .upTo (fun _ => hskip.of_gt _ hmid) (by omega)
        all_goals simp only
        all_goals omega
      · exact (hequal s _ hstraddles (by omega) (by omega) (by omega)).map fun p hp => hp
  · next hguard =>
    split
    · next hbefore =>
      refine Returns.some_iff.mpr (hprobes.cut ⟨by omega, le_rfl, fun _ => ?_, fun h => absurd h (lt_irrefl _)⟩)
      rw [Int.add_sub_cancel]
      by_cases heq : w.keyAt s.first = w.keyAt s.last
      · rwa [← heq]
      · have hsorted : w.keyAt s.first ≤ w.keyAt s.last := w.sorted _ _ hfirst hle hlast
        cases hnot : before (w.keyAt s.last) with
        | true => rfl
        | false => exact absurd ⟨by omega, hbefore, hnot⟩ hguard
    · next hnot =>
      refine Returns.some_iff.mpr (hprobes.cut (.upTo (fun _ => by simpa using hnot) (by omega)))

theorem searchRange_spec (hfirst : w.first ≤ first) (hle : first ≤ last) (hlast : last ≤ w.last) :
    Returns (searchRange w.read before equal key est first last)
      (Cut (fun i => before (w.keyAt i)) first last) := by
  have hprobes := (hskip.probes w).restrict hfirst hlast
  unfold searchRange
  split
  · next heq =>
    subst heq
    exact Returns.some_iff.mpr (hprobes.cut (.refl _ _ _))
  · refine Returns.untilDone (I := fun s => Encloses (fun i => before (w.keyAt i)) first last
      s.first (s.last + 1) ∧ s.first ≤ s.last) (fun s => (s.last - s.first).toNat) ?_ ?_
    · rintro s ⟨henc, hs⟩
      have hlast' := henc.le_last
      refine (narrow_spec hskip hequal (hfirst.trans henc.first_le) hs (by omega)).mono ?_
      intro r hr
      cases r with
      | inl s' => exact ⟨⟨henc.trans hr.1.1, hr.1.2⟩, hr.2⟩
      | inr p => exact hprobes.widen henc hr
    · simp only [Int.sub_add_cancel]
      exact ⟨.refl _ _ _, by omega⟩

theorem search_spec (hfirst : w.first ≤ start) (hlast : start ≤ w.last) :
    Returns (search w.read before equal key est w.first w.last start)
      (Cut (fun i => before (w.keyAt i)) w.first w.last) := by
  refine (testStart_spec (hskip.probes w) hfirst hlast).bind fun b hb => ?_
  cases b with
  | true =>
    obtain ⟨hlt, hbefore⟩ := hb.1 rfl
    have hbehind : Encloses (fun i => before (w.keyAt i)) w.first w.last (start + 1) w.last :=
      .behind hbefore hfirst
    exact (searchRange_spec hskip hequal (by omega) (by omega) le_rfl).mono fun p hp =>
      (hskip.probes w).widen hbehind hp
  | false =>
    have hupTo : Encloses (fun i => before (w.keyAt i)) w.first w.last w.first start :=
      .upTo (hb.2 rfl) hlast
    exact (searchRange_spec hskip hequal le_rfl hfirst hlast).mono fun p hp =>
      (hskip.probes w).widen hupTo hp

end Narrow

/-- Whatever the interpolation comes to, both searches end and return the positions they are
to return; no read is outside the range, no difference wraps and no divisor is zero. -/
theorem interpolate_exact (w : Window Nat) (key : Nat) (est : Estimate) (start : Int)
    (hfirst : w.first ≤ start) (hlast : start ≤ w.last) :
    Returns (lowerBound w.read est w.first w.last key start) (w.IsLowerBound key) ∧
      Returns (upperBound w.read est w.first w.last key start) (w.IsUpperBound key) := by
  constructor
  · have hskip : Skips (fun k => decide (k < key)) key :=
      ⟨fun k hk => decide_eq_true hk, fun k hk => decide_eq_false hk.not_gt⟩
    apply Returns.mono (search_spec hskip (fun _ _ => equalLower_spec) hfirst hlast)
    intro p hp
    exact Window.isLowerBound_of_cut hp
  · have hskip : Skips (fun k => !decide (key < k)) key :=
      ⟨fun k hk => by simp [hk.le], fun k hk => by simp [hk]⟩
    apply Returns.mono (search_spec hskip (fun _ _ => equalUpper_spec) hfirst hlast)
    intro p hp
    exact Window.isUpperBound_of_cut hp

/-- Each estimate as far off as it can be. -/
theorem interpolate_exact_pairs :
    Returns (lowerBound Window.pairs.read (fun _ _ _ n => Fin.last n) 0 5 1 0)
        (Window.pairs.IsLowerBound 1) ∧
      Returns (upperBound Window.pairs.read (fun _ _ _ n => Fin.last n) 0 5 1 0)
        (Window.pairs.IsUpperBound 1) :=
  interpolate_exact Window.pairs 1 (fun _ _ _ n => Fin.last n) 0 (by decide) (by decide)

end LearnedIndex.Searches.InterpolationSearch
