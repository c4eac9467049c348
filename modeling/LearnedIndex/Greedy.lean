import Mathlib.Data.List.Chain

/-! Cutting a list into pieces that each have a property which parts of a piece inherit.  The
greedy cut needs no more pieces than any other. -/

universe u

namespace LearnedIndex.Greedy

variable {α : Type u} {Q : List α → Prop} {pieces others : List (List α)}

/-- No piece has room for the first element of the next one. -/
def Full (Q : List α → Prop) (pieces : List (List α)) : Prop :=
  pieces.IsChain fun piece next => ∀ a ∈ next.head?, ¬ Q (piece ++ [a])

/-- Wherever the other cut begins in front of the greedy one, it is never ahead. -/
theorem Full.length_le_of_append (hinherit : ∀ xs ys zs, Q (xs ++ ys ++ zs) → Q ys) (hfull : Full Q pieces)
    (hne : ∀ piece ∈ pieces, piece ≠ []) (hothers : ∀ other ∈ others, Q other) {ahead : List α}
    (heq : others.flatten = ahead ++ pieces.flatten) : pieces.length ≤ others.length := by
  induction others generalizing pieces ahead with
  | nil =>
    cases pieces with
    | nil => exact le_rfl
    | cons piece pieces =>
      have hempty : piece = [] := by
        have hnil : ahead ++ (piece :: pieces).flatten = [] := heq.symm
        simp only [List.flatten_cons, List.append_eq_nil_iff] at hnil
        exact hnil.2.1
      exact absurd hempty (hne piece List.mem_cons_self)
  | cons other others ih =>
    match pieces, hfull, hne, heq with
    | [], _, _, _ => exact Nat.zero_le _
    | [piece], _, _, _ => simp
    | piece :: [] :: pieces, _, hne, _ => exact absurd rfl (hne [] (by simp))
    | piece :: (a :: rest) :: pieces, hfull, hne, heq =>
      obtain ⟨hpiece, hfull'⟩ := List.isChain_cons_cons.mp hfull
      have hne' : ∀ p ∈ (a :: rest) :: pieces, p ≠ [] := fun p hp => hne p (List.mem_cons_of_mem piece hp)
      have hothers' : ∀ o ∈ others, Q o := fun o ho => hothers o (List.mem_cons_of_mem other ho)
      rw [List.flatten_cons, List.flatten_cons, ← List.append_assoc] at heq
      apply Nat.succ_le_succ
      rcases List.append_eq_append_iff.mp heq with ⟨ahead', _, hrest⟩ | ⟨beyond, hbeyond, hrest⟩
      · exact ih hfull' hne' hothers' hrest
      · cases beyond with
        | nil =>
          have hlevel : others.flatten = [] ++ ((a :: rest) :: pieces).flatten := hrest.symm
          exact ih hfull' hne' hothers' hlevel
        | cons b beyond =>
          -- The other piece would hold the greedy one with one element more.
          rw [List.flatten_cons, List.cons_append, List.cons_append, List.cons.injEq] at hrest
          obtain ⟨rfl, -⟩ := hrest
          have hother := hothers other List.mem_cons_self
          rw [hbeyond] at hother
          exact absurd (hinherit ahead (piece ++ [a]) beyond (by simpa using hother)) (hpiece a rfl)

theorem Full.length_le (hinherit : ∀ xs ys zs, Q (xs ++ ys ++ zs) → Q ys) (hfull : Full Q pieces)
    (hne : ∀ piece ∈ pieces, piece ≠ []) (hothers : ∀ other ∈ others, Q other) (heq : others.flatten = pieces.flatten) :
    pieces.length ≤ others.length := by
  have hlevel : others.flatten = [] ++ pieces.flatten := heq
  exact hfull.length_le_of_append hinherit hne hothers hlevel

end LearnedIndex.Greedy
