import LearnedIndex.Searches.Window

/-! `LinearSearch`. -/

universe u

namespace LearnedIndex.Searches.LinearSearch

open Loop

variable {probe : Int → Option Bool} {before : Int → Bool} {first last start : Int}

/-- `while(it != last && less(at(it), lookup_key)) ++it`. -/
def walkForward (probe : Int → Option Bool) (last : Int) : Int → Option Int :=
  whileDo (fun it => if it = last then some false else probe it) fun it => some (it + 1)

/-- `while(it != first)`: steps back to a position before the key, or to the front. -/
def walkBackward (probe : Int → Option Bool) (first : Int) : Int → Option Int :=
  untilDone fun it => do
    if it = first then return .inr it
    else if ← probe (it - 1) then return .inr (it - 1) else return .inl (it - 1)

def search (probe : Int → Option Bool) (first last start : Int) : Option Int :=
  if first = last then some first
  else do
    if ← testStart probe last start then walkForward probe last (start + 1)
    else
      let it ← walkBackward probe first start
      if ← probe it then return it + 1 else return it

theorem walkForward_spec (h : Probes probe before first last)
    (hstart : Encloses before first last start last) (hle : start ≤ last) :
    Returns (walkForward probe last start) (Cut before first last) := by
  apply Returns.whileDo (I := fun it => Encloses before first last it last ∧ it ≤ last)
    fun it => (last - it).toNat
  · rintro it ⟨hit, hle⟩
    have hfirst := hit.first_le
    by_cases heq : it = last
    · subst heq
      rw [if_pos rfl, Returns.some_iff, if_neg Bool.false_ne_true]
      exact h.cut hit
    · rw [if_neg heq, h.reads it hfirst (by omega), Returns.some_iff]
      split
      · next hb =>
        exact Returns.some_iff.mpr ⟨⟨hit.trans (.behind hb le_rfl), by omega⟩, by omega⟩
      · next hb => exact h.cut (hit.trans (.upTo (fun _ => by simpa using hb) hle))
  · exact ⟨hstart, hle⟩

/-- The walk ends at the front or behind nothing but positions that are not before the key. -/
theorem walkBackward_spec (h : Probes probe before first last)
    (hstart : Encloses before first last first start) (hfirst : first ≤ start) (hlt : first < last) :
    Returns (walkBackward probe first start) fun it => first ≤ it ∧ it < last ∧
      (before it = true → Encloses before first last first (it + 1)) ∧
      (before it = false → it = first) := by
  apply Returns.untilDone (I := fun it => first ≤ it ∧ Encloses before first last first it)
    fun it => (it - first).toNat
  · rintro it ⟨hle, hit⟩
    have hlast := hit.le_last
    by_cases heq : it = first
    · rw [if_pos heq]
      have hnot : before it = false := hit.above (heq ▸ hlt)
      exact Returns.some_iff.mpr ⟨hle, heq ▸ hlt, fun hb => absurd (hb.symm.trans hnot) (by decide),
        fun _ => heq⟩
    · rw [if_neg heq, h.reads (it - 1) (by omega) (by omega)]
      cases hb : before (it - 1) with
      | true =>
        refine Returns.some_iff.mpr ⟨by omega, by omega, fun _ => ?_,
          fun hnot => absurd (hb.symm.trans hnot) (by decide)⟩
        rwa [Int.sub_add_cancel]
      | false =>
        exact Returns.some_iff.mpr ⟨⟨by omega, .upTo (fun _ => hb) (by omega)⟩, by omega⟩
  · exact ⟨hfirst, hstart⟩

theorem search_spec (h : Probes probe before first last) (hfirst : first ≤ start)
    (hlast : start ≤ last) : Returns (search probe first last start) (Cut before first last) := by
  unfold search
  split
  · next heq =>
    subst heq
    exact Returns.some_iff.mpr (h.cut (.refl _ _ _))
  · next hne =>
    have hlt : first < last := lt_of_le_of_ne (hfirst.trans hlast) hne
    refine (testStart_spec h hfirst hlast).bind fun b hb => ?_
    cases b with
    | true =>
      obtain ⟨hstart, hbefore⟩ := hb.1 rfl
      exact walkForward_spec h (.behind hbefore hfirst) hstart
    | false =>
      refine (walkBackward_spec h (.upTo (hb.2 rfl) hlast) hfirst hlt).bind fun it hit => ?_
      obtain ⟨hle, hitlast, htrue, hfalse⟩ := hit
      rw [h.reads it hle hitlast, Option.bind_eq_bind, Option.bind_some]
      cases hbefore : before it with
      | true =>
        have hcut := (htrue hbefore).trans (.behind hbefore hle)
        exact Returns.some_iff.mpr (h.cut hcut)
      | false =>
        have hcut : Encloses before first last it it := by
          have heq := hfalse hbefore
          rw [heq] at hbefore ⊢
          exact .upTo (fun _ => hbefore) hlt.le
        exact Returns.some_iff.mpr (h.cut hcut)

variable {K : Type u} [LinearOrder K]

def lowerBound (read : Int → Option K) (first last : Int) (key : K) (start : Int) : Option Int :=
  search (lessProbe read key) first last start

def upperBound (read : Int → Option K) (first last : Int) (key : K) (start : Int) : Option Int :=
  search (notGreaterProbe read key) first last start

variable (w : Window K) (key : K)

theorem lowerBound_spec (hfirst : w.first ≤ start) (hlast : start ≤ w.last) :
    Returns (lowerBound w.read w.first w.last key start) (w.IsLowerBound key) :=
  (search_spec (w.probes_less key) hfirst hlast).mono fun _ hp => Window.isLowerBound_of_cut hp

theorem upperBound_spec (hfirst : w.first ≤ start) (hlast : start ≤ w.last) :
    Returns (upperBound w.read w.first w.last key start) (w.IsUpperBound key) :=
  (search_spec (w.probes_notGreater key) hfirst hlast).mono fun _ hp =>
    Window.isUpperBound_of_cut hp

end LearnedIndex.Searches.LinearSearch
