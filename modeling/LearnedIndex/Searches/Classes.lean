import LearnedIndex.Search
import LearnedIndex.Searches.Exponential
import LearnedIndex.Searches.Linear

/-! The searches as search classes of an index: they look into a window of a list of keys. -/

universe u

namespace LearnedIndex.Searches

variable {K : Type u} [LinearOrder K]

/-- `at`, for the positions of a list. -/
def readKeys (ks : List K) (i : Int) : Option K := if 0 ≤ i then ks[i.toNat]? else none

theorem probes_readKeys {ks : List K} (hks : ks.Pairwise (· ≤ ·)) (key : K) {first last : Nat}
    (hlast : last ≤ ks.length) :
    Probes (lessProbe (readKeys ks) key) (fun i => less ks key i.toNat) first last where
  reads i hi hlt := by
    have hget : i.toNat < ks.length := by omega
    rw [lessProbe, readKeys, if_pos (by omega), less, List.getElem?_eq_getElem hget]
    rfl
  falls i j hi hij hj hless := by
    rw [less_iff hks] at hless ⊢
    omega

theorem cut_eq {ks : List K} (hks : ks.Pairwise (· ≤ ·)) {key : K} {first last : Nat} {p : Int}
    (hcut : Cut (fun i => less ks key i.toNat) first last p) :
    p = (max first (min last (rank ks key)) : Nat) := by
  have hfirst := hcut.first_le
  have hlast := hcut.le_last
  have hbelow : (first : Int) < p → p ≤ rank ks key := fun hlt => by
    have hless := hcut.below (p - 1) (by omega) (by omega)
    rw [less_iff hks] at hless
    omega
  have habove : p < last → (rank ks key : Int) ≤ p := fun hlt => by
    have hless := hcut.above p le_rfl hlt
    have hnot : ¬p.toNat < rank ks key := fun h =>
      absurd (((less_iff hks key _).mpr h).symm.trans hless) (by decide)
    omega
  omega

/-- A search that makes a cut is a search class. -/
def classOf (search : (Int → Option Bool) → Int → Int → Int → Option Int)
    (hsearch : ∀ {probe : Int → Option Bool} {before : Int → Bool} {first last start : Int},
      Probes probe before first last → first ≤ start → start ≤ last →
        Returns (search probe first last start) (Cut before first last)) : Search K where
  lowerBound ks first last key start :=
    ((search (lessProbe (readKeys ks) key) first last start).getD first).toNat
  lowerBound_eq := by
    intro ks first last start key hks hfirst hlast hlen
    obtain ⟨p, hp, hcut⟩ :=
      hsearch (probes_readKeys hks key hlen) (Int.ofNat_le.mpr hfirst) (Int.ofNat_le.mpr hlast)
    rw [hp, Option.getD_some, cut_eq hks hcut, Int.toNat_natCast]

def LinearSearch.searchClass : Search K := classOf LinearSearch.search LinearSearch.search_spec

def ExponentialSearch.searchClass : Search K :=
  classOf ExponentialSearch.search ExponentialSearch.search_spec

/-- The binary search that checks its reads returns what the one on lists does. -/
theorem BranchingBinarySearch.search_eq {ks : List K} {key : K} {first last start : Nat}
    (hks : ks.Pairwise (· ≤ ·)) (hfirst : first ≤ start) (hlast : start ≤ last)
    (hlen : last ≤ ks.length) :
    search (lessProbe (readKeys ks) key) first last start =
      some (Int.ofNat
        (LearnedIndex.BranchingBinarySearch.search.lowerBound ks first last key start)) := by
  obtain ⟨p, hp, hcut⟩ :=
    search_spec (probes_readKeys hks key hlen) (Int.ofNat_le.mpr hfirst) (Int.ofNat_le.mpr hlast)
  rw [hp, cut_eq hks hcut,
    LearnedIndex.BranchingBinarySearch.search.lowerBound_eq hks hfirst hlast hlen, Int.ofNat_eq_natCast]

end LearnedIndex.Searches
