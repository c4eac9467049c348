import LearnedIndex.DynamicPgm.Iterator

/-! What the iterator goes through from `lower_bound` to `end()`, in which order. -/

universe u v

namespace LearnedIndex.DynamicPgm

open SortedList

variable {K : Type u} {G : Type v}

/-- The places of a level, from the first to the last. -/
def positions : List (Item K) → List (Position K)
  | [] => []
  | x :: xs => ⟨x, xs⟩ :: positions xs

@[simp] theorem positions_nil : positions ([] : List (Item K)) = [] := rfl

theorem positions_rest_lt {xs : List (Item K)} {p : Position K} (h : p ∈ positions xs) :
    p.rest.length < xs.length := by
  induction xs with
  | nil => cases h
  | cons x xs ih =>
    cases h with
    | head => exact Nat.lt_succ_self _
    | tail _ h => exact (ih h).trans (Nat.lt_succ_self _)

theorem positions_item_mem {xs : List (Item K)} {p : Position K} (h : p ∈ positions xs) :
    p.item ∈ xs := by
  induction xs with
  | nil => cases h
  | cons x xs ih =>
    cases h with
    | head => exact List.mem_cons_self
    | tail _ h => exact List.mem_cons_of_mem x (ih h)

variable [LinearOrder K]

theorem positions_lowerBound {xs : List (Item K)} (h : Sorted Item.key xs) (q : K) :
    positions (lowerBound Item.key q xs) =
      (positions xs).filter fun p => decide (q ≤ p.item.key) := by
  induction xs with
  | nil => rfl
  | cons x xs ih =>
    obtain ⟨hx, hxs⟩ := List.pairwise_cons.mp h
    by_cases hlt : x.key < q
    · have hdrop : lowerBound Item.key q (x :: xs) = lowerBound Item.key q xs :=
        List.dropWhile_cons_of_pos (decide_eq_true hlt)
      rw [hdrop, ih hxs, positions, List.filter_cons_of_neg]
      simpa using hlt
    · have hkeep : lowerBound Item.key q (x :: xs) = x :: xs :=
        List.dropWhile_cons_of_neg (by simpa using hlt)
      have hle : q ≤ x.key := not_lt.mp hlt
      rw [hkeep, eq_comm, List.filter_eq_self]
      intro p hp
      cases hp with
      | head => exact decide_eq_true hle
      | tail _ hp => exact decide_eq_true (hle.trans (hx _ (positions_item_mem hp)))

/-- The order of the iterator: keys, then levels, then places; of two places on a level the one
with fewer items behind it is the later. -/
def Before (e₁ e₂ : QueuePair K) : Prop :=
  e₁.1.item.key < e₂.1.item.key ∨ e₁.1.item.key = e₂.1.item.key ∧
    (e₁.2 < e₂.2 ∨ e₁.2 = e₂.2 ∧ e₂.1.rest.length < e₁.1.rest.length)

/-- All places that the pairs of a queue still lead to. -/
def ahead (queue : List (QueuePair K)) : List (QueuePair K) :=
  queue.flatMap fun e => (positions e.1.items).map fun p => (p, e.2)

omit [LinearOrder K] in
theorem mem_ahead {queue : List (QueuePair K)} {e : QueuePair K} :
    e ∈ ahead queue ↔ ∃ e' ∈ queue, e.1 ∈ positions e'.1.items ∧ e.2 = e'.2 := by
  simp only [ahead, List.mem_flatMap, List.mem_map]
  constructor
  · rintro ⟨e', he', p, hp, rfl⟩
    exact ⟨e', he', hp, rfl⟩
  · rintro ⟨e', he', hp, hlevel⟩
    exact ⟨e', he', e.1, hp, Prod.ext rfl hlevel.symm⟩

omit [LinearOrder K] in
theorem ahead_perm {queue queue' : List (QueuePair K)} (h : queue.Perm queue') :
    (ahead queue).Perm (ahead queue') := h.flatMap_right _

omit [LinearOrder K] in
theorem ahead_cons (p : Position K) (level : Nat) (queue : List (QueuePair K)) :
    ahead ((p, level) :: queue) =
      (p, level) :: ((positions p.rest).map fun p => (p, level)) ++ ahead queue := rfl

omit [LinearOrder K] in
theorem ahead_filterMap (levels : List Nat) (next : Nat → List (Item K)) :
    ahead (levels.filterMap fun i => (position (next i)).map fun p => (p, i)) =
      levels.flatMap fun i => (positions (next i)).map fun p => (p, i) := by
  induction levels with
  | nil => rfl
  | cons i levels ih =>
    rw [List.flatMap_cons, ← ih]
    cases hnext : next i with
    | nil =>
      rw [List.filterMap_cons_none (by rw [hnext]; rfl)]
      rfl
    | cons x xs =>
      rw [List.filterMap_cons_some (by rw [hnext]; rfl)]
      rfl

/-- A queue in order of departure, with one pair for each level it leads to. -/
structure Merging (queue : List (QueuePair K)) : Prop extends Queued queue where
  distinct : (queue.map Prod.snd).Nodup

theorem Merging.makeQueue {pairs : List (QueuePair K)} (h : ∀ e ∈ pairs, Sorted Item.key e.1.items)
    (hlevels : pairs.Pairwise fun e₁ e₂ => e₁.2 < e₂.2) : Merging (makeQueue pairs) where
  toQueued := .makeQueue h
  distinct := by
    have hperm : (DynamicPgm.makeQueue pairs).Perm pairs := List.perm_insertionSort _ _
    apply (hperm.map Prod.snd).nodup_iff.mpr
    exact (List.pairwise_map.mpr hlevels).imp fun hlt => hlt.ne

/-- The front of the queue comes before everything that the rest of the queue leads to. -/
theorem Merging.front_before {p : Position K} {level : Nat} {queue : List (QueuePair K)}
    (h : Merging ((p, level) :: queue)) :
    ∀ e ∈ ((positions p.rest).map fun p => (p, level)) ++ ahead queue, Before (p, level) e := by
  intro e he
  have hle : p.item.key ≤ e.1.item.key := by
    apply h.toQueued.front_le e.1.item
    simp only [remaining, List.flatMap_cons, List.mem_append, List.mem_flatMap]
    obtain he | he := List.mem_append.mp he
    · obtain ⟨p', hp', rfl⟩ := List.mem_map.mp he
      exact .inl (List.mem_cons_of_mem _ (positions_item_mem hp'))
    · obtain ⟨e', he', hp, -⟩ := mem_ahead.mp he
      exact .inr ⟨e', he', positions_item_mem hp⟩
  obtain hlt | heq := hle.lt_or_eq
  · exact .inl hlt
  · refine .inr ⟨heq, ?_⟩
    obtain he | he := List.mem_append.mp he
    · obtain ⟨p', hp', rfl⟩ := List.mem_map.mp he
      exact .inr ⟨rfl, positions_rest_lt hp'⟩
    · obtain ⟨e', he', hp, hlevel⟩ := mem_ahead.mp he
      left
      have hne : level ≠ e'.2 := fun heq =>
        (List.nodup_cons.mp h.distinct).1 (List.mem_map.mpr ⟨e', he', heq.symm⟩)
      have hdeparts := not_queueCmp_iff.mp ((List.pairwise_cons.mp h.ordered).1 e' he')
      have hkey : e'.1.item.key ≤ e.1.item.key := by
        obtain h' | h' := List.mem_cons.mp (positions_item_mem hp)
        · exact h' ▸ le_rfl
        · exact (List.pairwise_cons.mp (h.sorted e' (List.mem_cons_of_mem _ he'))).1 _ h'
      have hsame : p.item.key = e'.1.item.key :=
        le_antisymm (Prod.Lex.toLex_le_toLex'.mp hdeparts).1 (hkey.trans_eq heq.symm)
      rw [hlevel]
      exact lt_of_le_of_ne ((Prod.Lex.toLex_le_toLex'.mp hdeparts).2 hsame) hne

/-- One step of the iterator takes the first place that is ahead of it, and only that. -/
theorem advanceQueue_ahead {iter : Iterator K} {p : Position K} {level : Nat}
    {queue : List (QueuePair K)} (hqueue : iter.queue = (p, level) :: queue)
    (h : Merging iter.queue) :
    ∃ queue', advanceQueue iter = some { iter with it := p, queue := queue' } ∧ Merging queue' ∧
      ((p, level) :: ahead queue').Perm (ahead iter.queue) ∧
      ∀ e ∈ ahead queue', Before (p, level) e := by
  obtain ⟨queue', hadvance, hqueued, -⟩ := advanceQueue_cons hqueue h.toQueued
  have heq : queue' = (position p.rest).elim queue fun p => emplace (p, level) queue := by
    simp only [advanceQueue, hqueue, Option.some.injEq, Iterator.mk.injEq] at hadvance
    exact hadvance.2.2.2.symm
  have hnodup : (((p, level) :: queue).map Prod.snd).Nodup := hqueue ▸ h.distinct
  have hperm : (ahead queue').Perm (((positions p.rest).map fun p => (p, level)) ++ ahead queue) := by
    rw [heq]
    cases hrest : p.rest with
    | nil => exact .refl _
    | cons x xs => exact ahead_perm (List.perm_orderedInsert _ _ _)
  refine ⟨queue', hadvance, ⟨hqueued, ?_⟩, ?_, ?_⟩
  · rw [heq]
    cases hrest : p.rest with
    | nil => exact (List.nodup_cons.mp hnodup).2
    | cons x xs =>
      exact ((List.perm_orderedInsert _ _ _).map Prod.snd).nodup_iff.mpr hnodup
  · rw [hqueue, ahead_cons]
    exact hperm.cons _
  · intro e he
    rw [hqueue] at h
    exact h.front_before e (hperm.mem_iff.mp he)

section Yields

variable (search : Search K) (ops : Pgm K G) (idx : Index K G)

/-- The places that an iterator goes through down to `end()`. -/
inductive Yields : Option (Iterator K) → List (Position K) → Prop
  | done : Yields none []
  | step {iter : Iterator K} {next : Option (Iterator K)} {ps : List (Position K)} :
    iter.next search ops idx = some next → Yields next ps → Yields (some iter) (iter.it :: ps)

/-- An iterator goes through these places, each once and in order, and stops. -/
def YieldsAll (places : List (QueuePair K)) (iter : Option (Iterator K)) : Prop :=
  ∃ es : List (QueuePair K), es.Perm places ∧ es.Pairwise Before ∧
    Yields search ops idx iter (es.map Prod.fst)

/-- A queue is emptied in the order of the iterator. -/
theorem yields_advanceQueue {n : Nat} (iter : Iterator K) (hlevel : iter.level = none)
    (h : Merging iter.queue) (hn : (ahead iter.queue).length = n) :
    YieldsAll search ops idx (ahead iter.queue) (advanceQueue iter) := by
  induction n generalizing iter with
  | zero =>
    cases hqueue : iter.queue with
    | nil =>
      refine ⟨[], .refl _, .nil, ?_⟩
      rw [advanceQueue, hqueue]
      exact .done
    | cons e queue =>
      rw [hqueue] at hn
      cases hn
  | succ n ih =>
    cases hqueue : iter.queue with
    | nil =>
      rw [hqueue] at hn
      cases hn
    | cons e queue =>
      obtain ⟨p, level⟩ := e
      obtain ⟨queue', hadvance, hmerging, hperm, hbefore⟩ := advanceQueue_ahead hqueue h
      have hlen : (ahead queue').length = n := by
        have hlength := hperm.length_eq
        rw [hn] at hlength
        exact Nat.succ.inj hlength
      have hnext : YieldsAll search ops idx (ahead queue')
          (advanceQueue { iter with it := p, queue := queue' }) :=
        ih { iter with it := p, queue := queue' } hlevel hmerging hlen
      obtain ⟨es, hes, hordered, hyields⟩ := hnext
      refine ⟨(p, level) :: es, (hes.cons _).trans (hqueue ▸ hperm), ?_, ?_⟩
      · exact List.pairwise_cons.mpr ⟨fun e he => hbefore e (hes.mem_iff.mp he), hordered⟩
      · rw [hadvance]
        refine .step ?_ hyields
        simp [Iterator.next, lazyInitializeQueue, hlevel]

/-- All places of the levels in use. -/
def Index.places (idx : Index K G) : List (QueuePair K) :=
  idx.levels.flatMap fun i => (positions (idx.getLevel i)).map fun p => (p, i)

/-- The levels in use are sorted, keys may repeat on and across them, and nothing is deleted. -/
structure Ordered (idx : Index K G) : Prop where
  sorted : ∀ i ∈ idx.levels, Sorted Item.key (idx.getLevel i)
  alive : ∀ i ∈ idx.levels, ∀ x ∈ idx.getLevel i, x.deleted = false

/-- The window that the index of a large level gives lies in the level, and the first place
with a key from `q` on lies in the window. -/
structure Windowed (ops : Pgm K G) (idx : Index K G) (q : K) : Prop where
  range : ∀ i ∈ idx.levels, minIndexedLevel ≤ i → idx.getLevel i ≠ [] →
    let p := ops.findApproximatePosition (idx.getPgm ops i) q
    p.lo ≤ p.pos ∧ p.pos ≤ p.hi ∧ p.hi ≤ (idx.getLevel i).length
  found : ∀ i ∈ idx.levels, minIndexedLevel ≤ i → (∃ x ∈ idx.getLevel i, q ≤ x.key) →
    let p := ops.findApproximatePosition (idx.getPgm ops i) q
    let first := rank ((idx.getLevel i).map Item.key) q
    p.lo ≤ first ∧ first ≤ p.hi

variable {search ops idx} {q : K}

theorem Windowed.lo_le (h : Windowed ops idx q) {i : Nat} (hi : i ∈ idx.levels)
    (hmin : minIndexedLevel ≤ i) (hne : idx.getLevel i ≠ []) :
    (ops.findApproximatePosition (idx.getPgm ops i) q).lo ≤
      rank ((idx.getLevel i).map Item.key) q := by
  by_cases hex : ∃ x ∈ idx.getLevel i, q ≤ x.key
  · exact (h.found i hi hmin hex).1
  · obtain ⟨hlo, hpos, hhi⟩ := h.range i hi hmin hne
    have hall : ∀ k ∈ (idx.getLevel i).map Item.key, k < q := by
      intro k hk
      obtain ⟨x, hx, rfl⟩ := List.mem_map.mp hk
      exact not_le.mp fun hle => hex ⟨x, hx, hle⟩
    rw [rank, List.takeWhile_eq_self_iff.mpr fun k hk => decide_eq_true (hall k hk), List.length_map]
    exact hlo.trans (hpos.trans hhi)

theorem Ordered.startPosition_eq (h : Ordered idx) (hwindow : Windowed ops idx q) {i : Nat}
    (hi : i ∈ idx.levels) :
    startPosition search ops idx i q = position (lowerBound Item.key q (idx.getLevel i)) := by
  simp only [startPosition, levelLowerBound]
  split
  · congr 1
    -- Nothing is deleted, so the loop over tombstones stops at once.
    cases hlb : lowerBound Item.key q (idx.getLevel i) with
    | nil => rfl
    | cons x xs =>
      have hx : x ∈ idx.getLevel i := (List.dropWhile_sublist _).subset (hlb ▸ List.mem_cons_self)
      apply List.dropWhile_cons_of_neg
      rw [h.alive i hi x hx]
      exact Bool.false_ne_true
  · next hmin =>
    split
    · next hempty =>
      rw [List.isEmpty_iff.mp hempty]
      rfl
    · next hne =>
      have hne' : idx.getLevel i ≠ [] := fun h => hne (List.isEmpty_iff.mpr h)
      have hkeys : ((idx.getLevel i).map Item.key).Pairwise (· ≤ ·) :=
        List.pairwise_map.mpr (h.sorted i hi)
      obtain ⟨hlo, hpos, hhi⟩ := hwindow.range i hi (not_lt.mp hmin) hne'
      have hle := hwindow.lo_le hi (not_lt.mp hmin) hne'
      rw [search.lowerBound_eq hkeys hlo hpos (hhi.trans_eq (List.length_map _).symm),
        dropWhile_drop (max_le hle (min_le_right _ _))]

omit [LinearOrder K] in
theorem Index.levels_ascending (idx : Index K G) {next : Nat → List (Item K)} :
    (idx.levels.filterMap fun i => (position (next i)).map fun p => (p, i)).Pairwise
      fun e₁ e₂ => e₁.2 < e₂.2 := by
  have hlt : idx.levels.Pairwise (· < ·) := List.pairwise_lt_range'
  refine List.pairwise_filterMap.mpr (hlt.imp ?_)
  intro i j hlt e₁ he₁ e₂ he₂
  obtain ⟨-, -, rfl⟩ := Option.map_eq_some_iff.mp he₁
  obtain ⟨-, -, rfl⟩ := Option.map_eq_some_iff.mp he₂
  exact hlt

/-- The first increment builds the queue, drops the place the iterator is at from it, and goes on
to the next. -/
theorem yields_initialized {p : Position K} {pairs : List (QueuePair K)}
    (hsorted : ∀ e ∈ pairs, Sorted Item.key e.1.items)
    (hlevels : pairs.Pairwise fun e₁ e₂ => e₁.2 < e₂.2) (hp : smallest pairs = some p) :
    YieldsAll search ops idx (ahead pairs) (some ⟨p, some idx.usedLevels, pairs, []⟩) := by
  have hne : pairs ≠ [] := by
    rintro rfl
    cases hp
  obtain ⟨p', level, queue, hp', hqueue⟩ := makeQueue_eq_cons hlevels hne
  obtain rfl : p = p' := Option.some.inj (hp.symm.trans hp')
  have hmerging : Merging (makeQueue pairs) := .makeQueue hsorted hlevels
  have hfront : (Iterator.mk p (some idx.usedLevels) pairs (makeQueue pairs)).queue =
      (p, level) :: queue := hqueue
  obtain ⟨queue', hadvance, hmerging', hperm, hbefore⟩ := advanceQueue_ahead hfront hmerging
  have hrest : YieldsAll search ops idx (ahead queue') (advanceQueue ⟨p, none, pairs, queue'⟩) :=
    yields_advanceQueue search ops idx ⟨p, none, pairs, queue'⟩ rfl hmerging' rfl
  obtain ⟨es, hes, hordered, hyields⟩ := hrest
  have hpairs : (makeQueue pairs).Perm pairs := List.perm_insertionSort _ _
  refine ⟨(p, level) :: es, (hes.cons _).trans (hperm.trans (ahead_perm hpairs)), ?_, ?_⟩
  · exact List.pairwise_cons.mpr ⟨fun e he => hbefore e (hes.mem_iff.mp he), hordered⟩
  · refine .step ?_ hyields
    have hnone : pairsFrom search ops idx idx.usedLevels p.item.key = [] := by simp [pairsFrom]
    simp only [Iterator.next, lazyInitializeQueue, hnone, List.append_nil, hadvance]
    simp

/-- From `lower_bound` to `end()` the iterator goes through every place with a key from `q` on,
each once, in the order of keys, levels and places. -/
theorem lower_bound_yields_all (h : Ordered idx) (hwindow : Windowed ops idx q) :
    YieldsAll search ops idx (idx.places.filter fun e => decide (q ≤ e.1.item.key))
      (lowerBoundIter search ops idx q) := by
  let start := fun i => lowerBound Item.key q (idx.getLevel i)
  let pairs := idx.levels.filterMap fun i => (position (start i)).map fun p => (p, i)
  have hiter : lowerBoundIter search ops idx q =
      (smallest pairs).map fun p => ⟨p, some idx.usedLevels, pairs, []⟩ := by
    have hpairs : (idx.levels.filterMap fun i =>
        (startPosition search ops idx i q).map fun p => (p, i)) = pairs :=
      List.filterMap_congr fun i hi => by rw [h.startPosition_eq hwindow hi]
    rw [lowerBoundIter, hpairs]
  have hplaces : ahead pairs = idx.places.filter fun e => decide (q ≤ e.1.item.key) := by
    rw [ahead_filterMap, Index.places, List.filter_flatMap]
    apply List.flatMap_congr
    intro i hi
    rw [positions_lowerBound (h.sorted i hi), List.filter_map]
    rfl
  have hsorted : ∀ e ∈ pairs, Sorted Item.key e.1.items := by
    intro e he
    obtain ⟨i, hi, he⟩ := List.mem_filterMap.mp he
    obtain ⟨p, hp, rfl⟩ := Option.map_eq_some_iff.mp he
    rw [position_eq_some.mp hp]
    exact (h.sorted i hi).sublist (List.dropWhile_sublist _)
  rw [hiter, ← hplaces]
  by_cases hnil : pairs = []
  · rw [hnil]
    exact ⟨[], .nil, .nil, .done⟩
  · obtain ⟨p, level, queue, hp, -⟩ := makeQueue_eq_cons idx.levels_ascending hnil
    rw [hp]
    exact yields_initialized hsorted idx.levels_ascending hp

/-- Keys that repeat, in the buffer and on level 18, which has an index. -/
abbrev repeated : Index Nat (List Nat) :=
  ⟨19, [⟨1, false, 5⟩, ⟨2, false, 5⟩, ⟨3, false, 9⟩] ::
    (List.replicate 11 [] ++ [[⟨4, false, 4⟩, ⟨1, false, 5⟩, ⟨1, false, 5⟩]]), [[4, 5, 5]]⟩

theorem lower_bound_yields_all_repeated :
    YieldsAll BranchingBinarySearch.search Pgm.exact repeated
      (repeated.places.filter fun e => decide (5 ≤ e.1.item.key))
      (lowerBoundIter BranchingBinarySearch.search Pgm.exact repeated 5) :=
  lower_bound_yields_all ⟨by decide, by decide⟩ ⟨by decide, by decide⟩

end Yields

section Find

variable (search : Search K) (ops : Pgm K G) (idx : Index K G)

/-- `find` with the iterator it returns, which begins with level 0 and without pairs. -/
def findIter (key : K) : Option (Iterator K) := do
  let p ← idx.levels.findSome? fun i =>
    (position (levelLowerBound search ops idx i key)).filter fun p => p.item.key = key
  if p.item.deleted then none else some ⟨p, some 0, [], []⟩

/-- The iterators that `find` and `lower_bound` return go through the same places. -/
def IteratorsAgree (key : K) : Prop :=
  ∃ ps, Yields search ops idx (findIter search ops idx key) ps ∧
    Yields search ops idx (lowerBoundIter search ops idx key) ps

variable {search ops idx} {key : K} {iter : Iterator K}

theorem findIter_spec (h : findIter search ops idx key = some iter) :
    iter.level = some 0 ∧ minLevel < idx.usedLevels := by
  simp only [findIter, Option.bind_eq_bind, Option.bind_eq_some_iff] at h
  obtain ⟨p, hp, h⟩ := h
  split at h
  · cases h
  · cases h
    obtain ⟨i, hi, -⟩ := List.exists_of_findSome?_eq_some hp
    have hrange := List.mem_range'_1.mp hi
    exact ⟨rfl, by omega⟩

theorem find_eq_findIter : find search ops idx key =
    (findIter search ops idx key).map fun iter => iter.it.item := by
  have hitem : ∀ i, ((levelLowerBound search ops idx i key).head?.filter fun x => x.key = key) =
      ((position (levelLowerBound search ops idx i key)).filter fun p => p.item.key = key).map
        Position.item := by
    intro i
    cases levelLowerBound search ops idx i key with
    | nil => rfl
    | cons x xs => by_cases hx : x.key = key <;> simp [position, Option.filter, hx]
  simp only [find, findIter, hitem, Option.bind_eq_bind]
  generalize idx.levels = levels
  induction levels with
  | nil => rfl
  | cons i levels ih =>
    rw [List.findSome?_cons, List.findSome?_cons]
    cases hp : (position (levelLowerBound search ops idx i key)).filter fun p => p.item.key = key with
    | none => exact ih
    | some p =>
      simp only [Option.map_some, Option.bind_some]
      split <;> rfl

/-- An iterator of `find` cannot be advanced: it asks for level 0 first, and there is none. -/
theorem find_iterator_stuck (h : findIter search ops idx key = some iter) :
    iter.next search ops idx = none ∧ ¬IteratorsAgree search ops idx key := by
  obtain ⟨hlevel, hused⟩ := findIter_spec h
  have hnext : iter.next search ops idx = none := by
    simp only [Iterator.next, lazyInitializeQueue, hlevel]
    rw [if_pos ⟨by decide, by omega⟩]
    rfl
  refine ⟨hnext, ?_⟩
  rintro ⟨ps, hyields, -⟩
  rw [h] at hyields
  cases hyields with
  | step hstep _ => cases hnext.symm.trans hstep

end Find

section Single

/-- One pair, in the buffer. -/
abbrev single : Index Nat (List Nat) := ⟨7, [⟨10, false, 5⟩] :: List.replicate 8 [], []⟩

theorem find_iterator_stuck_single :
    Iterator.next BranchingBinarySearch.search Pgm.exact single
        ⟨⟨⟨10, false, 5⟩, []⟩, some 0, [], []⟩ = none ∧
      ¬IteratorsAgree BranchingBinarySearch.search Pgm.exact single 5 :=
  find_iterator_stuck rfl

/-- The entry is found, and the iterator at its lower bound ends behind it. -/
theorem find_iterator_differs :
    (findIter BranchingBinarySearch.search Pgm.exact single 5).isSome ∧
      Yields BranchingBinarySearch.search Pgm.exact single
        (lowerBoundIter BranchingBinarySearch.search Pgm.exact single 5) [⟨⟨10, false, 5⟩, []⟩] ∧
      ¬IteratorsAgree BranchingBinarySearch.search Pgm.exact single 5 := by
  refine ⟨rfl, .step rfl .done, ?_⟩
  rintro ⟨ps, hyields, -⟩
  have hfind : findIter BranchingBinarySearch.search Pgm.exact single 5 =
      some ⟨⟨⟨10, false, 5⟩, []⟩, some 0, [], []⟩ := rfl
  rw [hfind] at hyields
  cases hyields with
  | step hstep _ => cases hstep

end Single

end LearnedIndex.DynamicPgm
