import LearnedIndex.DynamicPgm.Lookup
import Mathlib.Data.Prod.Lex

/-! The iterator merges the levels: a range query sums the items of all levels whose keys
are in the range. -/

universe u v

namespace LearnedIndex.DynamicPgm

open SortedList Util

variable {K : Type u} {G : Type v} [LinearOrder K] {ops : Pgm K G} {idx : Index K G}

/-- The key and the level of a pair in the queue, in the order of departure. -/
def QueuePair.departure (e : QueuePair K) : Lex (K × Nat) := toLex (e.1.item.key, e.2)

theorem not_queueCmp_iff {e₁ e₂ : QueuePair K} :
    ¬queueCmp e₁ e₂ ↔ QueuePair.departure e₁ ≤ QueuePair.departure e₂ := by
  simp [queueCmp, QueuePair.departure, Prod.Lex.toLex_le_toLex']

instance : Std.Total fun e₁ e₂ : QueuePair K => ¬queueCmp e₁ e₂ where
  total _ _ := by
    simp only [not_queueCmp_iff]
    exact le_total _ _

instance : IsTrans (QueuePair K) fun e₁ e₂ => ¬queueCmp e₁ e₂ where
  trans _ _ _ := by
    simp only [not_queueCmp_iff]
    exact le_trans

/-- All items that the positions of a queue still lead to. -/
def remaining (queue : List (QueuePair K)) : List (Item K) := queue.flatMap fun e => e.1.items

omit [LinearOrder K] in
theorem remaining_perm {queue queue' : List (QueuePair K)} (h : queue.Perm queue') :
    (remaining queue).Perm (remaining queue') := h.flatMap_right _

/-- A queue in order of departure, with positions in sorted levels. -/
structure Queued (queue : List (QueuePair K)) : Prop where
  ordered : queue.Pairwise fun e₁ e₂ => ¬queueCmp e₁ e₂
  sorted : ∀ e ∈ queue, Sorted Item.key e.1.items

theorem Queued.makeQueue {pairs : List (QueuePair K)}
    (h : ∀ e ∈ pairs, Sorted Item.key e.1.items) : Queued (makeQueue pairs) where
  ordered := List.pairwise_insertionSort _ _
  sorted e he := h e ((List.mem_insertionSort _).mp he)

theorem Queued.emplace {e : QueuePair K} {queue : List (QueuePair K)} (h : Queued queue)
    (he : Sorted Item.key e.1.items) : Queued (emplace e queue) where
  ordered := h.ordered.orderedInsert e queue
  sorted e' he' := by
    obtain rfl | he' := (List.mem_orderedInsert _).mp he'
    · exact he
    · exact h.sorted e' he'

/-- The item at the front of the queue has the smallest key of all that remain. -/
theorem Queued.front_le {e : QueuePair K} {queue : List (QueuePair K)} (h : Queued (e :: queue)) :
    ∀ x ∈ remaining (e :: queue), e.1.item.key ≤ x.key := by
  intro x hx
  obtain ⟨e', he', hx⟩ := List.mem_flatMap.mp hx
  have hfirst : e'.1.item.key ≤ x.key := by
    obtain rfl | hx := List.mem_cons.mp hx
    · exact le_rfl
    · exact (List.pairwise_cons.mp (h.sorted e' he')).1 x hx
  obtain rfl | he' := List.mem_cons.mp he'
  · exact hfirst
  · have hle := (List.pairwise_cons.mp h.ordered).1 e' he'
    exact (not_lt.mp fun hlt => hle (.inl hlt)).trans hfirst

omit [LinearOrder K] in
theorem position_eq_some {xs : List (Item K)} {p : Position K} :
    position xs = some p ↔ p.items = xs := by
  cases xs with
  | nil => simp [position, Position.items]
  | cons x xs =>
    cases p
    simp [position, Position.items, eq_comm]

/-- One step of the iterator: the front of the queue leaves, and what is behind it on its
level stays. -/
theorem advanceQueue_cons {iter : Iterator K} {top : Position K} {level : Nat}
    {queue : List (QueuePair K)} (hqueue : iter.queue = (top, level) :: queue)
    (h : Queued iter.queue) :
    ∃ queue', advanceQueue iter = some { iter with it := top, queue := queue' } ∧ Queued queue' ∧
      (top.item :: remaining queue').Perm (remaining iter.queue) := by
  rw [hqueue] at h
  have hqueue' : Queued queue :=
    ⟨(List.pairwise_cons.mp h.ordered).2, fun e he => h.sorted e (List.mem_cons_of_mem _ he)⟩
  refine ⟨(position top.rest).elim queue fun p => emplace (p, level) queue, ?_, ?_, ?_⟩
  · simp only [advanceQueue, hqueue]
  · cases hp : position top.rest with
    | none => exact hqueue'
    | some p =>
      apply hqueue'.emplace
      rw [position_eq_some.mp hp]
      exact (List.pairwise_cons.mp (h.sorted _ List.mem_cons_self)).2
  · rw [hqueue]
    apply List.Perm.cons
    cases hp : position top.rest with
    | none =>
      have hrest : top.rest = [] := by
        cases hr : top.rest with
        | nil => rfl
        | cons => simp [hr, position] at hp
      simp [hrest, remaining, List.flatMap_def]
    | some p =>
      refine (remaining_perm (List.perm_orderedInsert _ _ _)).trans ?_
      simp [remaining, position_eq_some.mp hp, List.flatMap_def]

/-- The sum of the values with keys up to the bound. -/
def sumUpTo (hi : K) (xs : Multiset (Item K)) : UInt64 :=
  ((xs.filter fun x => x.key ≤ hi).map Item.value).sum

theorem sumUpTo_cons (hi : K) (x : Item K) (xs : Multiset (Item K)) :
    sumUpTo hi (x ::ₘ xs) = (if x.key ≤ hi then x.value else 0) + sumUpTo hi xs := by
  by_cases h : x.key ≤ hi <;> simp [sumUpTo, h]

theorem sumUpTo_eq_zero {hi : K} {xs : Multiset (Item K)} (h : ∀ x ∈ xs, hi < x.key) :
    sumUpTo hi xs = 0 := by
  rw [sumUpTo, Multiset.filter_eq_nil.mpr fun x hx => not_le.mpr (h x hx)]
  rfl

/-- The loop adds up what the iterator is at and what remains, as far as the bound. -/
theorem rangeLoop_eq (search : Search K) (ops : Pgm K G) (idx : Index K G) (hi : K) (fuel : Nat) :
    ∀ (iter : Iterator K) (result : UInt64), iter.level = none → Queued iter.queue →
      (∀ x ∈ remaining iter.queue, iter.it.item.key ≤ x.key) →
      (remaining iter.queue).length < fuel →
      rangeLoop search ops idx hi fuel (some iter) result =
        some (result + sumUpTo hi (iter.it.item ::ₘ ↑(remaining iter.queue))) := by
  induction fuel with
  | zero => exact fun _ _ _ _ _ hfuel => absurd hfuel (Nat.not_lt_zero _)
  | succ fuel ih =>
    intro iter result hlevel hqueued hmin hfuel
    rw [rangeLoop]
    split
    · next hle =>
      have hnext : iter.next search ops idx = some (advanceQueue iter) := by
        simp [Iterator.next, lazyInitializeQueue, hlevel]
      rw [hnext, Option.bind_some, sumUpTo_cons, if_pos hle]
      cases hqueue : iter.queue with
      | nil => simp [advanceQueue, hqueue, remaining, rangeLoop, sumUpTo]
      | cons e queue =>
        obtain ⟨top, level⟩ := e
        obtain ⟨queue', hadvance, hqueued', hperm⟩ := advanceQueue_cons hqueue hqueued
        have hfront : ∀ x ∈ remaining queue', top.item.key ≤ x.key := fun x hx => by
          have hx' := hperm.mem_iff.mp (List.mem_cons_of_mem _ hx)
          rw [hqueue] at hx' hqueued
          exact hqueued.front_le x hx'
        have hlen := hperm.length_eq
        rw [List.length_cons] at hlen
        rw [hadvance, ih { iter with it := top, queue := queue' } _ hlevel hqueued' hfront
          (by simp only; omega), UInt64.add_assoc, ← hqueue, ← Multiset.coe_eq_coe.mpr hperm,
          Multiset.cons_coe]
    · next hgt =>
      have hall : ∀ x ∈ iter.it.item ::ₘ (↑(remaining iter.queue) : Multiset (Item K)),
          hi < x.key := fun x hx => by
        obtain rfl | hx := Multiset.mem_cons.mp hx
        · exact not_le.mp hgt
        · exact (not_le.mp hgt).trans_le (hmin x (Multiset.mem_coe.mp hx))
      rw [sumUpTo_eq_zero hall, UInt64.add_zero]

theorem smallest_concat (pairs : List (QueuePair K)) (e : QueuePair K) :
    smallest (pairs ++ [e]) = some (match smallest pairs with
      | none => e.1
      | some p => if e.1.item.key < p.item.key then e.1 else p) := by
  rw [smallest, List.foldl_append]
  change (match smallest pairs with | none => _ | some p => _) = _
  cases smallest pairs with
  | none => rfl
  | some p => exact (apply_ite some _ _ _).symm

/-- The position that an iterator starts from is the one that leaves its queue first. -/
theorem smallest_spec {pairs : List (QueuePair K)} (h : pairs.Pairwise fun e₁ e₂ => e₁.2 < e₂.2)
    (hne : pairs ≠ []) :
    ∃ p level, smallest pairs = some p ∧ (p, level) ∈ pairs ∧
      ∀ e ∈ pairs, QueuePair.departure (p, level) ≤ QueuePair.departure e := by
  induction pairs using List.reverseRecOn with
  | nil => exact (hne rfl).elim
  | append_singleton pairs e ih =>
    obtain ⟨hpairs, -, hlast⟩ := List.pairwise_append.mp h
    by_cases hnil : pairs = []
    · subst hnil
      refine ⟨e.1, e.2, rfl, List.mem_cons_self, fun e' he' => ?_⟩
      rw [List.mem_singleton.mp he']
    · obtain ⟨p, level, hp, hmem, hmin⟩ := ih hpairs hnil
      have hlevel : level < e.2 := hlast _ hmem e List.mem_cons_self
      rw [smallest_concat, hp]
      simp only
      split
      · next hlt =>
        refine ⟨e.1, e.2, rfl, List.mem_append_right _ List.mem_cons_self, fun e' he' => ?_⟩
        obtain he' | he' := List.mem_append.mp he'
        · refine le_trans (le_of_lt ?_) (hmin e' he')
          exact Prod.Lex.toLex_lt_toLex.mpr (.inl hlt)
        · rw [List.mem_singleton.mp he']
      · next hge =>
        refine ⟨p, level, rfl, List.mem_append_left _ hmem, fun e' he' => ?_⟩
        obtain he' | he' := List.mem_append.mp he'
        · exact hmin e' he'
        · rw [List.mem_singleton.mp he']
          exact Prod.Lex.toLex_le_toLex'.mpr ⟨not_lt.mp hge, fun _ => hlevel.le⟩

theorem makeQueue_eq_cons {pairs : List (QueuePair K)}
    (h : pairs.Pairwise fun e₁ e₂ => e₁.2 < e₂.2) (hne : pairs ≠ []) :
    ∃ p level queue, smallest pairs = some p ∧ makeQueue pairs = (p, level) :: queue := by
  obtain ⟨p, level, hp, hmem, hmin⟩ := smallest_spec h hne
  cases hqueue : makeQueue pairs with
  | nil => exact (hne (by simpa [makeQueue] using congrArg List.length hqueue)).elim
  | cons e queue =>
    have hperm : (makeQueue pairs).Perm pairs := List.perm_insertionSort _ _
    have hordered : (makeQueue pairs).Pairwise fun e₁ e₂ => ¬queueCmp e₁ e₂ :=
      List.pairwise_insertionSort _ _
    rw [hqueue] at hperm hordered
    have he : e ∈ pairs := hperm.mem_iff.mp List.mem_cons_self
    have hle : QueuePair.departure e ≤ QueuePair.departure (p, level) := by
      obtain heq | hmem' := List.mem_cons.mp (hperm.mem_iff.mpr hmem)
      · rw [heq]
      · exact not_queueCmp_iff.mp ((List.pairwise_cons.mp hordered).1 _ hmem')
    have hlevel : e.2 = level :=
      congrArg (fun d => (ofLex d).2) (le_antisymm hle (hmin e he))
    have hnodup : (pairs.map Prod.snd).Nodup :=
      (List.pairwise_map.mpr h).imp fun hlt => hlt.ne
    refine ⟨p, level, queue, hp, ?_⟩
    rw [List.inj_on_of_nodup_map hnodup he hmem hlevel]

/-- The first step of an iterator builds its queue and takes the position it is at from it. -/
theorem rangeLoop_initialized (search : Search K) (ops : Pgm K G) (idx : Index K G) (hi : K)
    (fuel : Nat) (result : UInt64) {p : Position K} {level : Nat} {pairs queue : List (QueuePair K)}
    (hqueue : makeQueue pairs = (p, level) :: queue)
    (hsorted : ∀ e ∈ pairs, Sorted Item.key e.1.items) :
    ∃ queue', Queued queue' ∧ (p.item :: remaining queue').Perm (remaining pairs) ∧
      rangeLoop search ops idx hi (fuel + 1) (some ⟨p, some idx.usedLevels, pairs, []⟩) result =
        rangeLoop search ops idx hi (fuel + 1) (some ⟨p, none, pairs, queue'⟩) result := by
  have hqueued : Queued (makeQueue pairs) := .makeQueue hsorted
  let iter : Iterator K := ⟨p, some idx.usedLevels, pairs, makeQueue pairs⟩
  have htop : iter.queue = (p, level) :: queue := hqueue
  obtain ⟨queue', hadvance, hqueued', hperm⟩ := advanceQueue_cons htop hqueued
  refine ⟨queue', hqueued', hperm.trans (remaining_perm (List.perm_insertionSort _ _)), ?_⟩
  have hnone : pairsFrom search ops idx idx.usedLevels p.item.key = [] := by simp [pairsFrom]
  have hnext : Iterator.next search ops idx ⟨p, some idx.usedLevels, pairs, []⟩ =
      Iterator.next search ops idx ⟨p, none, pairs, queue'⟩ := by
    have hqueued : advanceQueue ⟨p, some idx.usedLevels, pairs, makeQueue pairs⟩ = _ := hadvance
    simp [Iterator.next, lazyInitializeQueue, hnone, hqueued, iter]
  rw [rangeLoop, rangeLoop, hnext]

omit [LinearOrder K] in
theorem remaining_filterMap (levels : List Nat) (next : Nat → List (Item K)) :
    remaining (levels.filterMap fun i => (position (next i)).map fun p => (p, i)) =
      levels.flatMap next := by
  induction levels with
  | nil => rfl
  | cons i levels ih =>
    cases hp : position (next i) with
    | none =>
      have hnil : next i = [] := by
        cases hf : next i with
        | nil => rfl
        | cons => simp [hf, position] at hp
      rw [List.filterMap_cons_none (by rw [hp]; rfl), ih, List.flatMap_cons, hnil, List.nil_append]
    | some p =>
      rw [List.filterMap_cons_some (by rw [hp]; rfl), remaining, List.flatMap_cons,
        position_eq_some.mp hp, List.flatMap_cons]
      exact congrArg _ ih

/-- All items of the index. -/
def Index.items (idx : Index K G) : List (Item K) := idx.levels.flatMap idx.getLevel

theorem startPosition_eq (search : Search K) (hguided : Guided ops idx) (hwf : WellFormed ops idx)
    (i : Nat) (key : K) :
    startPosition search ops idx i key = position (lowerBound Item.key key (idx.getLevel i)) := by
  obtain ⟨r, hle, hdrop, hrank⟩ := levelLowerBound_spec search hguided hwf i key
  simp only [startPosition, hdrop]
  split
  · next hmin =>
    have halive : ∀ x ∈ lowerBound Item.key key (idx.getLevel i), ¬ x.deleted = true := fun x hx => by
      simp [hwf.alive i x ((List.dropWhile_sublist _).subset hx)]
    rw [hrank (.inl hmin), drop_rank_map, List.dropWhile_eq_self_iff.mpr fun hpos => halive _ (List.getElem_mem hpos)]
  · rw [dropWhile_drop hle]

/-- A range query sums the values of all items with keys in the range. -/
theorem rangeQuery_eq (search : Search K) (hguided : Guided ops idx) (hwf : WellFormed ops idx)
    (lo hi : K) :
    rangeQuery search ops idx lo hi = some (rangeSum ↑(idx.items.map Item.pair) lo hi) := by
  let start := fun i => lowerBound Item.key lo (idx.getLevel i)
  let pairs := idx.levels.filterMap fun i => (position (start i)).map fun p => (p, i)
  have hremaining : remaining pairs = idx.items.filter fun x => decide (lo ≤ x.key) := by
    rw [remaining_filterMap, Index.items, List.filter_flatMap]
    congr 1
    funext i
    exact lowerBound_eq_filter (hwf.sorted i)
  have hsum : rangeSum ↑(idx.items.map Item.pair) lo hi = sumUpTo hi ↑(remaining pairs) := by
    rw [hremaining, rangeSum, sumUpTo]
    simp only [← Multiset.map_coe, Multiset.filter_map, Multiset.map_map, ← Multiset.filter_coe,
      Multiset.filter_filter, and_comm]
    rfl
  have hiter : lowerBoundIter search ops idx lo =
      (smallest pairs).map fun p => ⟨p, some idx.usedLevels, pairs, []⟩ := by
    simp only [lowerBoundIter, startPosition_eq search hguided hwf]
    rfl
  have hpairs : ∀ e ∈ pairs, Sorted Item.key e.1.items := by
    intro e he
    obtain ⟨i, -, he⟩ := List.mem_filterMap.mp he
    obtain ⟨p, hp, rfl⟩ := Option.map_eq_some_iff.mp he
    rw [position_eq_some.mp hp]
    exact (hwf.sorted i).sublist (List.dropWhile_sublist _)
  have hlevels : pairs.Pairwise fun e₁ e₂ => e₁.2 < e₂.2 := by
    have hlt : idx.levels.Pairwise (· < ·) := List.pairwise_lt_range'
    refine List.pairwise_filterMap.mpr (hlt.imp ?_)
    intro i j hlt e₁ he₁ e₂ he₂
    obtain ⟨-, -, rfl⟩ := Option.map_eq_some_iff.mp he₁
    obtain ⟨-, -, rfl⟩ := Option.map_eq_some_iff.mp he₂
    exact hlt
  have hsize : (remaining pairs).length ≤ idx.size := by
    rw [hremaining, Index.size, ← List.length_flatMap]
    exact List.length_filter_le _ _
  rw [rangeQuery, hiter, hsum]
  by_cases hnil : pairs = []
  · rw [hnil]
    rfl
  · obtain ⟨p, level, queue, hp, hqueue⟩ := makeQueue_eq_cons hlevels hnil
    obtain ⟨queue', hqueued, hperm, hloop⟩ :=
      rangeLoop_initialized search ops idx hi idx.size 0 hqueue hpairs
    have hlen := hperm.length_eq
    have hfront : ∀ x ∈ remaining queue', p.item.key ≤ x.key := by
      intro x hx
      have hqueued := Queued.makeQueue hpairs
      rw [hqueue] at hqueued
      apply hqueued.front_le x
      rw [← hqueue]
      exact (remaining_perm (List.perm_insertionSort _ _)).mem_iff.mpr
        (hperm.mem_iff.mp (List.mem_cons_of_mem _ hx))
    rw [hp, Option.map_some, hloop, rangeLoop_eq search ops idx hi _ _ _ rfl hqueued hfront
      (by rw [List.length_cons] at hlen; simp only; omega), UInt64.zero_add, Multiset.cons_coe,
      Multiset.coe_eq_coe.mpr hperm]

end LearnedIndex.DynamicPgm
