import Mathlib.Data.List.Nodup

/-! Doubly linked lists: the neighbours that every node knows, and the order of the nodes that
they make. -/

universe u

namespace LearnedIndex

variable {P : Type u}

/-- The neighbours that a node knows. -/
structure Links (P : Type u) where
  prev : Option P
  next : Option P

/-- The nodes are linked in this order, and every one of them knows its two neighbours. -/
def Linked (links : P → Option (Links P)) (ps : List P) : Prop :=
  ∀ before p after, ps = before ++ p :: after → links p = some ⟨before.getLast?, after.head?⟩

namespace Linked

variable {links links' : P → Option (Links P)} {ps before after : List P} {p q : P}

theorem nil (links : P → Option (Links P)) : Linked links [] := by
  intro before p after h
  exact absurd h.symm (by simp)

theorem at_mid (h : Linked links (before ++ p :: after)) :
    links p = some ⟨before.getLast?, after.head?⟩ :=
  h before p after rfl

/-- A node between others: its neighbours know it, and nothing else has changed. -/
theorem insert (h : Linked links (before ++ after)) (hnodup : (before ++ q :: after).Nodup)
    (hq : links' q = some ⟨before.getLast?, after.head?⟩)
    (hprev : ∀ p ∈ before.getLast?, links' p = (links p).map fun l => { l with next := some q })
    (hnext : ∀ p ∈ after.head?, links' p = (links p).map fun l => { l with prev := some q })
    (hframe : ∀ p ∈ before ++ after, p ∉ before.getLast? → p ∉ after.head? → links' p = links p) :
    Linked links' (before ++ q :: after) := by
  obtain ⟨hbefore, hafter, hapart⟩ := List.nodup_append.mp hnodup
  obtain ⟨hqafter, hafter⟩ := List.nodup_cons.mp hafter
  intro front p rest hsplit
  obtain ⟨mid, hfront, hrest⟩ | ⟨mid, hfront, hrest⟩ := List.append_eq_append_iff.mp hsplit
  · cases mid with
    | nil =>
      -- The node itself.
      rw [List.nil_append] at hrest
      obtain ⟨rfl, rfl⟩ := List.cons.inj hrest
      rw [hfront, List.append_nil]
      exact hq
    | cons q' mid =>
      -- A node behind it.
      obtain ⟨rfl, rfl⟩ := List.cons.inj hrest
      obtain rfl := hfront
      have hp : p ∉ before.getLast? := fun hp => by
        have hmem := List.mem_of_getLast? hp
        exact hapart p hmem p (by simp) rfl
      cases mid with
      | nil =>
        have hold := h before p rest (by simp)
        rw [hnext p (by simp), hold]
        simp
      | cons r mid =>
        have hne : p ∉ ((r :: mid ++ p :: rest).head?) := by
          intro hr
          obtain rfl : r = p := by simpa using hr
          exact (List.nodup_cons.mp hafter).1 (by simp)
        have hold := h (before ++ r :: mid) p rest (by simp)
        rw [hframe p (by simp) hp hne, hold]
        congr 2
        simp [List.getLast?_append, List.getLast?_cons]
  · cases mid with
    | nil =>
      rw [List.nil_append] at hrest
      obtain ⟨rfl, rfl⟩ := List.cons.inj hrest
      rw [List.append_nil] at hfront
      rw [← hfront]
      exact hq
    | cons p' mid =>
      -- A node in front of it.
      obtain ⟨rfl, rfl⟩ := List.cons.inj hrest
      obtain rfl := hfront
      have hp : p ∉ after.head? := fun hp => by
        have hmem : p ∈ q :: after := List.mem_cons_of_mem _ (List.mem_of_mem_head? hp)
        exact hapart p (by simp) p hmem rfl
      have hold := h front p (mid ++ after) (by simp)
      obtain rfl | ⟨init, r, rfl⟩ := mid.eq_nil_or_concat'
      · rw [hprev p (by simp), hold]
        simp
      · have hne : p ∉ (front ++ p :: (init ++ [r])).getLast? := by
          intro hr
          obtain rfl : r = p := by
            rw [← List.cons_append, ← List.append_assoc, List.getLast?_concat] at hr
            simpa using hr
          exact (List.nodup_cons.mp (List.nodup_append.mp hbefore).2.1).1 (by simp)
        rw [hframe p (by simp) hne hp, hold]
        simp [List.head?_append]

end Linked

end LearnedIndex
