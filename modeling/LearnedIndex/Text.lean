import Mathlib.Data.List.Infix
import Mathlib.Data.Nat.Init

/-! Searching text that is made of blocks with a separator between them: the first
occurrence of a pattern, and decimal numbers. -/

universe u v

namespace LearnedIndex.Text

variable {α : Type u} {β : Type v}

/-- The position of the first occurrence of `sub`. -/
def find [DecidableEq α] (sub : List α) : List α → Option Nat
  | [] => if sub = [] then some 0 else none
  | c :: cs => if sub <+: c :: cs then some 0 else (find sub cs).map (· + 1)

/-- What the pattern matches at the leftmost position where it matches at all. -/
def search (pattern : List α → Option β) : List α → Option β
  | [] => pattern []
  | c :: cs => (pattern (c :: cs)).or (search pattern cs)

theorem find_isSome [DecidableEq α] {sub s : List α} : (find sub s).isSome = true ↔ sub <:+: s := by
  induction s with
  | nil => by_cases h : sub = [] <;> simp [find, h]
  | cons c cs ih =>
    rw [List.infix_cons_iff, ← ih, find]
    split
    · rename_i h
      simp [h]
    · rename_i h
      simp [h]

theorem prefix_append_sep {sub : List α} {sep : α} (hsub : sep ∉ sub) (s t : List α) :
    sub <+: s ++ sep :: t ↔ sub <+: s := by
  induction sub generalizing s with
  | nil => simp
  | cons x sub ih =>
    cases s with
    | nil =>
      have hx : x ≠ sep := fun h => hsub (h ▸ List.mem_cons_self)
      simp [List.cons_prefix_cons, hx]
    | cons c s =>
      rw [List.cons_append, List.cons_prefix_cons, List.cons_prefix_cons,
        ih fun h => hsub (List.mem_cons_of_mem _ h)]

/-- A word without the separator lies within one block. -/
theorem infix_append_sep {sub : List α} {sep : α} (hne : sub ≠ []) (hsub : sep ∉ sub) (s t : List α) :
    sub <:+: s ++ sep :: t ↔ sub <:+: s ∨ sub <:+: t := by
  induction s with
  | nil =>
    have hsep := prefix_append_sep hsub [] t
    simp only [List.nil_append, List.prefix_nil] at hsep
    simp [List.infix_cons_iff, hsep, hne]
  | cons c s ih =>
    rw [List.cons_append, List.infix_cons_iff, ih, List.infix_cons_iff, ← List.cons_append,
      prefix_append_sep hsub, or_assoc]

theorem infix_blocks {sub : List α} {sep : α} (hne : sub ≠ []) (hsub : sep ∉ sub) (s : List α)
    (blocks : List (List α)) :
    sub <:+: s ++ blocks.flatMap (sep :: ·) ↔ ∃ b ∈ s :: blocks, sub <:+: b := by
  induction blocks generalizing s with
  | nil => simp
  | cons b blocks ih =>
    rw [List.flatMap_cons, List.cons_append, infix_append_sep hne hsub, ih b]
    simp

/-- A word does not start among letters that are not its first. -/
theorem infix_of_append {x : α} {sub s : List α} (hx : x ∉ s) {t : List α}
    (h : x :: sub <:+: s ++ t) : x :: sub <:+: t := by
  induction s with
  | nil => exact h
  | cons c s ih =>
    obtain h | h := List.infix_cons_iff.mp h
    · exact (hx ((List.cons_prefix_cons.mp h).1 ▸ List.mem_cons_self)).elim
    · exact ih (fun h => hx (List.mem_cons_of_mem _ h)) h

theorem prefix_append_last (pre : List α) {z : α} {t : List α} (hz : z ∉ t) (s : List α) :
    pre ++ [z] <+: s ++ t ↔ pre ++ [z] <+: s := by
  induction s generalizing pre with
  | nil =>
    refine iff_of_false (fun h => hz (h.subset (by simp))) ?_
    simp
  | cons c s ih =>
    cases pre with
    | nil => simp [List.cons_prefix_cons]
    | cons x pre =>
      rw [List.cons_append, List.cons_append, List.cons_prefix_cons, List.cons_prefix_cons, ih]

/-- Text without the last letter of a word does not move its first occurrence. -/
theorem find_append [DecidableEq α] (pre : List α) {z : α} {t : List α} (hz : z ∉ t) (s : List α) :
    find (pre ++ [z]) (s ++ t) = find (pre ++ [z]) s := by
  induction s with
  | nil =>
    have hnone : find (pre ++ [z]) t = none := by
      rw [← Option.not_isSome_iff_eq_none, find_isSome]
      exact fun h => hz (h.subset (by simp))
    rw [List.nil_append, hnone, find, if_neg (by simp)]
  | cons c s ih =>
    have hprefix := prefix_append_last pre hz (c :: s)
    rw [List.cons_append] at hprefix ⊢
    simp only [find, ih, hprefix]

/-- The part of `s` behind the first occurrence of a word exists when the word occurs. -/
theorem find_le [DecidableEq α] {sub s : List α} {n : Nat} (h : find sub s = some n) : n + sub.length ≤ s.length := by
  induction s generalizing n with
  | nil =>
    rw [find] at h
    split at h
    · rename_i hsub
      cases h
      simp [hsub]
    · cases h
  | cons c s ih =>
    rw [find] at h
    split at h
    · rename_i hsub
      cases h
      simpa using hsub.length_le
    · obtain ⟨m, hm, rfl⟩ := Option.map_eq_some_iff.mp h
      have := ih hm
      rw [List.length_cons]
      omega

section Search

variable {pattern : List α → Option β} {sep : α}

/-- The pattern does not look behind a separator, and needs more than the empty word. -/
structure WithinBlock (sep : α) (pattern : List α → Option β) : Prop where
  nil : pattern [] = none
  append : ∀ s t, pattern (s ++ sep :: t) = pattern s

theorem WithinBlock.search_append (h : WithinBlock sep pattern) (s t : List α) :
    search pattern (s ++ sep :: t) = (search pattern s).or (search pattern t) := by
  induction s with
  | nil =>
    have hsep := h.append [] t
    rw [List.nil_append] at hsep ⊢
    rw [search, search, hsep, h.nil]
  | cons c s ih => rw [List.cons_append, search, search, ih, ← List.cons_append, h.append, Option.or_assoc]

theorem WithinBlock.search_blocks (h : WithinBlock sep pattern) (s : List α) (blocks : List (List α)) :
    search pattern (s ++ blocks.flatMap (sep :: ·)) =
      (search pattern s).or (blocks.findSome? (search pattern)) := by
  induction blocks generalizing s with
  | nil => simp
  | cons b blocks ih =>
    rw [List.flatMap_cons, List.cons_append, h.search_append, ih b, List.findSome?_cons]
    cases search pattern b <;> simp

theorem search_of_match {s : List α} {b : β} (h : pattern s = some b) : search pattern s = some b := by
  cases s with
  | nil => exact h
  | cons c s => rw [search, h, Option.some_or]

/-- There is nothing to find where a word that every match contains does not occur. -/
theorem search_eq_none {sub s : List α} (hpattern : ∀ s, pattern s ≠ none → sub <:+: s)
    (h : ¬ sub <:+: s) : search pattern s = none := by
  induction s with
  | nil => exact not_not.mp (mt (hpattern []) h)
  | cons c s ih =>
    rw [search, not_not.mp (mt (hpattern _) h), Option.none_or, ih]
    exact fun hs => h (List.infix_cons hs)

end Search

/-- The letters up to the first that fails `p`, which the separator does. -/
theorem span_append_sep (p : α → Bool) (sep : α) (hsep : p sep = false) (s t : List α) :
    (s ++ sep :: t).takeWhile p = s.takeWhile p ∧
      (s ++ sep :: t).dropWhile p = s.dropWhile p ++ sep :: t := by
  induction s with
  | nil => simp [hsep]
  | cons c s ih => cases hc : p c <;> simp [hc, ih]

/-- A run of letters that satisfy `p`, ended by one that does not. -/
theorem span_append_of_all {p : α → Bool} {s : List α} (hs : ∀ c ∈ s, p c = true) {x : α}
    (hx : p x = false) (t : List α) :
    (s ++ x :: t).takeWhile p = s ∧ (s ++ x :: t).dropWhile p = x :: t := by
  induction s with
  | nil => simp [hx]
  | cons c s ih =>
    have hc := hs c List.mem_cons_self
    have := ih fun d hd => hs d (List.mem_cons_of_mem _ hd)
    simp [hc, this]

end LearnedIndex.Text
