import LearnedIndex.Searches.Window

/-! `ExponentialSearch`, and the binary search it ends with.  The searches for a lower and
for an upper bound differ only in the test of a position against the key. -/

universe u

namespace LearnedIndex.Searches

open Loop

variable {probe : Int → Option Bool} {before : Int → Bool} {first last start : Int}

namespace BranchingBinarySearch

/-- `__len` positions from `first` on. -/
structure Span where
  first : Int
  len : Nat

def halve (probe : Int → Option Bool) (s : Span) : Option Span := do
  let half := s.len / 2
  let middle := s.first + half
  if ← probe middle then return ⟨middle + 1, s.len - half - 1⟩ else return ⟨s.first, half⟩

/-- `lower_bound_` and `upper_bound_`. -/
def searchRange (probe : Int → Option Bool) (first last : Int) : Option Int := do
  let s ← whileDo (fun s => some (decide (0 < s.len))) (halve probe) ⟨first, (last - first).toNat⟩
  return s.first

def search (probe : Int → Option Bool) (first last start : Int) : Option Int := do
  if ← testStart probe last start then searchRange probe (start + 1) last
  else searchRange probe first start

/-- The position behind a span. -/
def Span.finish (s : Span) : Int := s.first + s.len

theorem halve_spec {s : Span} (h : Probes probe before s.first s.finish) (hlen : 0 < s.len) :
    Returns (halve probe s) fun s' =>
      Encloses before s.first s.finish s'.first s'.finish ∧ s'.len < s.len := by
  have hmiddle : probe (s.first + (s.len / 2 : Nat)) = some (before (s.first + (s.len / 2 : Nat))) :=
    h.reads _ (by omega) (by unfold Span.finish; omega)
  rw [halve, hmiddle, Option.bind_eq_bind, Option.bind_some]
  cases hb : before (s.first + (s.len / 2 : Nat)) with
  | true =>
    have hlast : Span.finish ⟨s.first + (s.len / 2 : Nat) + 1, s.len - s.len / 2 - 1⟩ = s.finish := by
      simp only [Span.finish]
      omega
    refine Returns.some_iff.mpr ⟨?_, by simp only; omega⟩
    rw [hlast]
    exact .behind hb (by omega)
  | false =>
    refine Returns.some_iff.mpr ⟨.upTo (fun _ => hb) ?_, by simp only; omega⟩
    simp only [Span.finish]
    omega

theorem searchRange_spec (h : Probes probe before first last) (hle : first ≤ last) :
    Returns (searchRange probe first last) (Cut before first last) := by
  have hloop : Returns (whileDo (fun s : Span => some (decide (0 < s.len))) (halve probe)
      ⟨first, (last - first).toNat⟩) fun s =>
        Encloses before first last s.first s.finish ∧ s.len = 0 := by
    apply Returns.whileDo (I := fun s => Encloses before first last s.first s.finish) Span.len
    · intro s hs
      rw [Returns.some_iff]
      split
      · next hlen =>
        exact (halve_spec (h.restrict hs.first_le hs.le_last) (of_decide_eq_true hlen)).mono fun s' hs' =>
          ⟨hs.trans hs'.1, hs'.2⟩
      · next hlen => exact ⟨hs, by simpa using hlen⟩
    · have hlast : Span.finish ⟨first, (last - first).toNat⟩ = last := by
        simp only [Span.finish]
        omega
      rw [hlast]
      exact .refl before first last
  refine hloop.map ?_
  rintro s ⟨hs, hlen⟩
  have hlast : s.finish = s.first := by
    rw [Span.finish, hlen]
    exact Int.add_zero _
  rw [hlast] at hs
  exact h.cut hs

theorem search_spec (h : Probes probe before first last) (hfirst : first ≤ start)
    (hlast : start ≤ last) : Returns (search probe first last start) (Cut before first last) := by
  refine (testStart_spec h hfirst hlast).bind fun b hb => ?_
  cases b with
  | true =>
    obtain ⟨hlt, hbefore⟩ := hb.1 rfl
    have hs : Encloses before first last (start + 1) last := .behind hbefore hfirst
    exact (searchRange_spec (h.restrict hs.first_le hs.le_last) (by omega)).mono fun p hp => h.widen hs hp
  | false =>
    have hs : Encloses before first last first start := .upTo (hb.2 rfl) hlast
    exact (searchRange_spec (h.restrict hs.first_le hs.le_last) hfirst).mono fun p hp => h.widen hs hp

end BranchingBinarySearch

namespace ExponentialSearch

/-- The positions of a galloping loop and the distance it steps next. -/
structure Gallop where
  bound : Nat
  l : Int
  r : Int

/-- `while (bound <= size && less(at(r), lookup_key))`. -/
def gallopRight (probe : Int → Option Bool) (size : Nat) : Gallop → Option Gallop :=
  whileDo (fun s => if s.bound ≤ size then probe s.r else some false) fun s =>
    let bound := 2 * s.bound
    some ⟨bound, s.r, s.r + bound⟩

/-- `while (bound <= size && !(less(at(l), lookup_key)))`. -/
def gallopLeft (probe : Int → Option Bool) (size : Nat) : Gallop → Option Gallop :=
  whileDo (fun s => if s.bound ≤ size then (probe s.l).map not else some false) fun s =>
    let bound := 2 * s.bound
    some ⟨bound, s.l - bound, s.l⟩

def search (probe : Int → Option Bool) (first last start : Int) : Option Int :=
  if first = last then some first
  else do
    if ← testStart probe last start then
      let size := (last - start).toNat / 2
      let s ← gallopRight probe size ⟨1, start, start + 1⟩
      let r := if size < s.bound then last else s.r
      BranchingBinarySearch.search probe (s.l + 1) r (s.l + 1)
    else
      let size := ((start - first).toNat + 1) / 2
      let s ← gallopLeft probe size ⟨1, start - 1, start⟩
      let l := if size < s.bound then first else s.l + 1
      BranchingBinarySearch.search probe l s.r l

/-- The positions lie one step apart, and the last one that was tested is before the key. -/
theorem gallopRight_spec (h : Probes probe before first last) (hfirst : first ≤ start)
    (hlt : start < last) (hbefore : before start = true) :
    Returns (gallopRight probe ((last - start).toNat / 2) ⟨1, start, start + 1⟩) fun s =>
      Encloses before first last (s.l + 1)
        (if (last - start).toNat / 2 < s.bound then last else s.r) ∧
      s.l + 1 ≤ if (last - start).toNat / 2 < s.bound then last else s.r := by
  apply Returns.whileDo (I := fun s => 0 < s.bound ∧ s.l = start + s.bound - 1 ∧
    s.r = start + 2 * s.bound - 1 ∧ s.l < last ∧ before s.l = true)
    fun s => (last - start).toNat / 2 + 1 - s.bound
  · rintro s ⟨hpos, hl, hr, hllt, hlbefore⟩
    have hbehind : Encloses before first last (s.l + 1) last := .behind hlbefore (by omega)
    by_cases hsize : s.bound ≤ (last - start).toNat / 2
    · rw [if_pos hsize, h.reads s.r (by omega) (by omega), Returns.some_iff]
      split
      · next hb =>
        refine Returns.some_iff.mpr ⟨⟨?_, ?_, ?_, ?_, hb⟩, ?_⟩
        all_goals simp only
        all_goals omega
      · next hb =>
        rw [if_neg (by omega)]
        refine ⟨hbehind.trans (.upTo (fun _ => by simpa using hb) (by omega)), by omega⟩
    · rw [if_neg hsize, Returns.some_iff, if_neg Bool.false_ne_true, if_pos (by omega)]
      exact ⟨hbehind, by omega⟩
  · refine ⟨Nat.one_pos, ?_, ?_, hlt, hbefore⟩
    all_goals simp only
    all_goals omega

theorem gallopLeft_spec (h : Probes probe before first last) (hfirst : first ≤ start)
    (hlast : start ≤ last) (hbefore : start < last → before start = false) :
    Returns (gallopLeft probe (((start - first).toNat + 1) / 2) ⟨1, start - 1, start⟩) fun s =>
      Encloses before first last
        (if ((start - first).toNat + 1) / 2 < s.bound then first else s.l + 1) s.r ∧
      (if ((start - first).toNat + 1) / 2 < s.bound then first else s.l + 1) ≤ s.r := by
  apply Returns.whileDo (I := fun s => 0 < s.bound ∧ s.r = start - s.bound + 1 ∧
    s.l = start - 2 * s.bound + 1 ∧ first ≤ s.r ∧ (s.r < last → before s.r = false))
    fun s => ((start - first).toNat + 1) / 2 + 1 - s.bound
  · rintro s ⟨hpos, hr, hl, hrle, hrbefore⟩
    have hupTo : Encloses before first last first s.r := .upTo hrbefore (by omega)
    by_cases hsize : s.bound ≤ ((start - first).toNat + 1) / 2
    · rw [if_pos hsize, h.reads s.l (by omega) (by omega), Option.map_some, Returns.some_iff]
      split
      · next hb =>
        refine Returns.some_iff.mpr ⟨⟨?_, ?_, ?_, ?_, fun _ => by simpa using hb⟩, ?_⟩
        all_goals simp only
        all_goals omega
      · next hb =>
        rw [if_neg (by omega)]
        refine ⟨hupTo.trans (.behind (by simpa using hb) (by omega)), by omega⟩
    · rw [if_neg hsize, Returns.some_iff, if_neg Bool.false_ne_true, if_pos (by omega)]
      exact ⟨hupTo, hrle⟩
  · refine ⟨Nat.one_pos, ?_, ?_, hfirst, hbefore⟩
    all_goals simp only
    all_goals omega

theorem search_spec (h : Probes probe before first last) (hfirst : first ≤ start)
    (hlast : start ≤ last) : Returns (search probe first last start) (Cut before first last) := by
  unfold search
  split
  · next heq =>
    subst heq
    exact Returns.some_iff.mpr (h.cut (.refl _ _ _))
  · refine (testStart_spec h hfirst hlast).bind fun b hb => ?_
    cases b with
    | true =>
      obtain ⟨hlt, hbefore⟩ := hb.1 rfl
      refine (gallopRight_spec h hfirst hlt hbefore).bind fun s hs => ?_
      have hrest := h.restrict hs.1.first_le hs.1.le_last
      exact (BranchingBinarySearch.search_spec hrest le_rfl hs.2).mono fun p hp => h.widen hs.1 hp
    | false =>
      refine (gallopLeft_spec h hfirst hlast (hb.2 rfl)).bind fun s hs => ?_
      have hrest := h.restrict hs.1.first_le hs.1.le_last
      exact (BranchingBinarySearch.search_spec hrest le_rfl hs.2).mono fun p hp => h.widen hs.1 hp

variable {K : Type u} [LinearOrder K]

def lowerBound (read : Int → Option K) (first last : Int) (key : K) (start : Int) : Option Int :=
  search (lessProbe read key) first last start

def upperBound (read : Int → Option K) (first last : Int) (key : K) (start : Int) : Option Int :=
  search (notGreaterProbe read key) first last start

/-- From any start in the range both searches end and return the positions they are to
return, and no read is outside the range. -/
theorem gallop_exact (w : Window K) (key : K) (start : Int) (hfirst : w.first ≤ start)
    (hlast : start ≤ w.last) :
    Returns (lowerBound w.read w.first w.last key start) (w.IsLowerBound key) ∧
      Returns (upperBound w.read w.first w.last key start) (w.IsUpperBound key) := by
  constructor
  · exact (search_spec (w.probes_less key) hfirst hlast).mono fun p hp =>
      Window.isLowerBound_of_cut hp
  · exact (search_spec (w.probes_notGreater key) hfirst hlast).mono fun p hp =>
      Window.isUpperBound_of_cut hp

theorem gallop_exact_pairs :
    Returns (lowerBound Window.pairs.read 0 5 1 5) (Window.pairs.IsLowerBound 1) ∧
      Returns (upperBound Window.pairs.read 0 5 1 5) (Window.pairs.IsUpperBound 1) :=
  gallop_exact Window.pairs 1 5 (by decide) (by decide)

end ExponentialSearch

end LearnedIndex.Searches
