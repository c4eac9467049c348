import Mathlib.Data.List.Infix
import Mathlib.Data.List.TakeWhile
import Mathlib.Logic.Function.Iterate

/-! Lists cut into blocks in which the elements with a property come first, and the scan
that skips such elements and the others in turn. -/

universe u v

namespace LearnedIndex.Alternation

variable {α : Type u} {p : α → Bool} {n : Nat} {xs ys : List α}

/-- The elements with the property come first. -/
def Leads (p : α → Bool) (xs : List α) : Prop := xs.Pairwise fun x y => p y = true → p x = true

theorem Leads.sublist (h : Leads p ys) (hsub : xs.Sublist ys) : Leads p xs := List.Pairwise.sublist hsub h

theorem Leads.eq_filter_append (h : Leads p xs) :
    xs = xs.filter p ++ xs.filter fun x => !p x := by
  induction xs with
  | nil => rfl
  | cons x xs ih =>
    obtain ⟨hx, hxs⟩ := List.pairwise_cons.mp h
    cases hpx : p x with
    | true => simpa [hpx] using ih hxs
    | false =>
      have hnone : ∀ y ∈ xs, p y = false := fun y hy => by
        rw [Bool.eq_false_iff]
        exact fun hpy => Bool.false_ne_true (hpx.symm.trans (hx y hy hpy))
      have hfilter : xs.filter p = [] := by
        rw [List.filter_eq_nil_iff]
        exact fun y hy => by simp [hnone y hy]
      have hrest : xs.filter (fun x => !p x) = xs := by
        rw [List.filter_eq_self]
        exact fun y hy => by simp [hnone y hy]
      simp [hpx, hfilter, hrest]

/-- Up to `n` blocks, in each of which the elements with the property come first. -/
inductive Blocks (p : α → Bool) : Nat → List α → Prop
  | nil : Blocks p 0 []
  | cons {n : Nat} {block rest : List α} (hblock : Leads p block) (hrest : Blocks p n rest) :
    Blocks p (n + 1) (block ++ rest)

theorem Blocks.append {m : Nat} (hxs : Blocks p n xs) (hys : Blocks p m ys) :
    Blocks p (m + n) (xs ++ ys) := by
  induction hxs with
  | nil => exact hys
  | cons hblock _ ih =>
    rw [List.append_assoc]
    exact .cons hblock ih

theorem Blocks.concat (hxs : Blocks p n xs) (hys : Leads p ys) : Blocks p (n + 1) (xs ++ ys) := by
  have hone : Blocks p 1 (ys ++ []) := .cons hys .nil
  rw [List.append_nil] at hone
  rw [Nat.add_comm]
  exact hxs.append hone

theorem Blocks.leads (h : Blocks p 1 xs) : Leads p xs := by
  obtain _ | @⟨_, block, _, hblock, hrest⟩ := h
  cases hrest
  rw [List.append_nil]
  exact hblock

theorem leads_map {β : Type v} {q : β → Bool} {f : α → β} :
    Leads q (xs.map f) ↔ Leads (fun x => q (f x)) xs := List.pairwise_map

/-- Only which elements have the property counts. -/
theorem Leads.of_map_eq {β : Type v} {q : β → Bool} {zs : List β} (h : Leads p xs)
    (heq : zs.map q = xs.map p) : Leads q zs := by
  have hmapped : Leads id (zs.map q) := heq ▸ leads_map.mpr h
  have hleads : Leads (fun x => id (q x)) zs := leads_map.mp hmapped
  exact hleads

theorem Blocks.of_map_eq {β : Type v} {q : β → Bool} {zs : List β} (h : Blocks p n xs)
    (heq : zs.map q = xs.map p) : Blocks q n zs := by
  induction h generalizing zs with
  | nil =>
    obtain rfl := List.map_eq_nil_iff.mp heq
    exact .nil
  | @cons n block rest hblock _ ih =>
    rw [List.map_append] at heq
    obtain ⟨front, back, rfl, hfront, hback⟩ := List.map_eq_append_iff.mp heq
    exact .cons (hblock.of_map_eq hfront) (ih hback)

/-- Skips the elements in front that have the property, or those that do not have it. -/
def skip (p : α → Bool) (b : Bool) (xs : List α) : List α := xs.dropWhile fun x => p x == b

theorem skip_suffix (b : Bool) (xs : List α) : skip p b xs <:+ xs := List.dropWhile_suffix _

theorem skip_suffix_of_suffix {b : Bool} (xs : List α) (hskip : ∀ x ∈ xs, p x = b) {zs : List α}
    (h : zs <:+ xs ++ ys) : skip p b zs <:+ ys := by
  induction xs generalizing zs with
  | nil => exact (skip_suffix b zs).trans h
  | cons x xs ih =>
    have hrest : ∀ y ∈ xs, p y = b := fun y hy => hskip y (List.mem_cons_of_mem x hy)
    obtain hall | hsuffix := List.suffix_cons_iff.mp h
    · have hdrop : skip p b zs = skip p b (xs ++ ys) := by
        rw [hall]
        simp [skip, hskip x List.mem_cons_self]
      rw [hdrop]
      exact ih hrest List.suffix_rfl
    · exact ih hrest hsuffix

/-- One round of the scan: first those with the property, then the others. -/
def skipBoth (p : α → Bool) (xs : List α) : List α := skip p false (skip p true xs)

theorem Leads.skipBoth_suffix (h : Leads p xs) {zs : List α} (hzs : zs <:+ xs ++ ys) :
    skipBoth p zs <:+ ys := by
  rw [h.eq_filter_append, List.append_assoc] at hzs
  apply skip_suffix_of_suffix (xs.filter fun x => !p x)
  · intro x hx
    simpa using (List.mem_filter.mp hx).2
  · exact skip_suffix_of_suffix (xs.filter p) (fun x hx => (List.mem_filter.mp hx).2) hzs

/-- As many rounds as there are blocks skip everything. -/
theorem Blocks.iterate_skipBoth (h : Blocks p n ys) {zs : List α} (hzs : zs <:+ ys) :
    (skipBoth p)^[n] zs = [] := by
  induction h generalizing zs with
  | nil => exact List.suffix_nil.mp hzs
  | cons hblock _ ih =>
    rw [Function.iterate_succ_apply]
    exact ih (hblock.skipBoth_suffix hzs)

end LearnedIndex.Alternation
