import LearnedIndex.DynamicPgm.Checked

/-! Which sessions with a `DynamicPGMIndex` only touch levels that exist. -/

namespace LearnedIndex.DynamicPgm.Checked

open SortedList Util

variable {K G : Type} [LinearOrder K] {search : Search K} {ops : Pgm K G} {idx : Index K G}
  {memory : Memory K} {iter : Iterator K}

section Queries

variable {α β : Type}

theorem mapM_ok {f : α → Except Fault β} {g : α → β} {xs : List α} (h : ∀ x ∈ xs, f x = .ok (g x)) :
    xs.mapM f = .ok (xs.map g) := by
  induction xs with
  | nil => rfl
  | cons x xs ih =>
    rw [List.mapM_cons, h x List.mem_cons_self, ok_bind, ih fun y hy => h y (List.mem_cons_of_mem x hy)]
    rfl

theorem filterMap_id_map {f : α → Option β} (xs : List α) : (xs.map f).filterMap id = xs.filterMap f := by
  rw [List.filterMap_map]
  rfl

omit [LinearOrder K] in
theorem Indexable.hasLevel_of_mem (h : Indexable idx) {i : Nat} (hi : i ∈ idx.levels) :
    HasLevel idx i := by
  have hrange := List.mem_range'_1.mp hi
  exact h.hasLevel hrange.1 (by have := h.used; omega)

theorem levelLowerBound_ok (h : Indexable idx) {i : Nat} (hi : i ∈ idx.levels) (key : K) :
    levelLowerBound search ops idx i key = .ok (DynamicPgm.levelLowerBound search ops idx i key) := by
  rw [levelLowerBound, getLevel_eq (h.hasLevel_of_mem hi), ok_bind]
  split
  · rfl
  · next hlarge =>
    have hmin : minIndexedLevel ≤ i := not_lt.mp fun hlt => hlarge (.inl hlt)
    have hrange := List.mem_range'_1.mp hi
    have hpgm : HasPgm idx i := h.hasPgm (by have := h.used; omega) hmin
    rw [getPgm, check_of hpgm]
    rfl

theorem findFrom_ok (h : Indexable idx) (key : K) {levels : List Nat}
    (hlevels : ∀ i ∈ levels, i ∈ idx.levels) :
    findFrom search ops idx key levels = .ok (levels.findSome? fun i =>
      (position (DynamicPgm.levelLowerBound search ops idx i key)).filter fun p => p.item.key = key) := by
  induction levels with
  | nil => rfl
  | cons i levels ih =>
    rw [findFrom, levelLowerBound_ok h (hlevels i List.mem_cons_self), ok_bind, List.findSome?_cons]
    cases (position (DynamicPgm.levelLowerBound search ops idx i key)).filter
      fun p => p.item.key = key with
    | none => exact ih fun j hj => hlevels j (List.mem_cons_of_mem i hj)
    | some p => rfl

theorem findIter_ok (h : Indexable idx) (key : K) :
    findIter search ops idx key = .ok (DynamicPgm.findIter search ops idx key) := by
  rw [findIter, findFrom_ok h key fun _ hi => hi]
  rfl

theorem lowerBoundIter_ok (h : Indexable idx) (key : K) :
    lowerBoundIter search ops idx key = .ok (DynamicPgm.lowerBoundIter search ops idx key) := by
  have hpairs : ∀ i ∈ idx.levels, (levelLowerBound search ops idx i key >>= fun found =>
      return (if i < minIndexedLevel then position (found.dropWhile Item.deleted)
        else position (found.dropWhile fun x => decide (x.key < key))).map fun p => (p, i)) =
      Except.ok ((startPosition search ops idx i key).map fun p => (p, i)) := by
    intro i hi
    rw [levelLowerBound_ok h hi]
    rfl
  rw [lowerBoundIter]
  dsimp only
  rw [mapM_ok hpairs, ok_bind, filterMap_id_map]
  rfl

end Queries

section Iterators

/-- The pairs of an iterator are on levels that exist. -/
structure Live (idx : Index K G) (iter : Iterator K) : Prop where
  initial : ∀ e ∈ iter.initialPairs, HasLevel idx e.2
  queued : ∀ e ∈ iter.queue, HasLevel idx e.2
  started : ∀ level, iter.level = some level → level = idx.usedLevels

theorem Live.lowerBoundIter (h : Indexable idx) {key : K}
    (hiter : DynamicPgm.lowerBoundIter search ops idx key = some iter) : Live idx iter := by
  obtain ⟨lo, -, rfl⟩ := Option.map_eq_some_iff.mp hiter
  refine ⟨fun e he => ?_, fun e he => ?_, fun level hlevel => (Option.some.inj hlevel).symm⟩
  · obtain ⟨i, hi, he⟩ := List.mem_filterMap.mp he
    obtain ⟨p, -, rfl⟩ := Option.map_eq_some_iff.mp he
    exact h.hasLevel_of_mem hi
  · cases he

theorem advanceQueue_ok (h : ∀ e ∈ iter.queue, HasLevel idx e.2) :
    advanceQueue idx iter = .ok (DynamicPgm.advanceQueue iter) := by
  rw [advanceQueue]
  cases hqueue : iter.queue with
  | nil =>
    rw [DynamicPgm.advanceQueue, hqueue]
    rfl
  | cons e queue =>
    change (getLevel idx e.2 >>= fun _ => _) = _
    rw [getLevel_eq (h e (hqueue ▸ List.mem_cons_self))]
    rfl

theorem Live.advanceQueue {iter' : Iterator K} (h : Live idx iter)
    (hadvance : DynamicPgm.advanceQueue iter = some iter') : Live idx iter' := by
  rw [DynamicPgm.advanceQueue] at hadvance
  split at hadvance
  · cases hadvance
  · next top level queue hqueue =>
    obtain rfl := Option.some.inj hadvance
    have hfront : HasLevel idx level := h.queued (top, level) (hqueue ▸ List.mem_cons_self)
    have hrest : ∀ e ∈ queue, HasLevel idx e.2 := fun e he =>
      h.queued e (hqueue ▸ List.mem_cons_of_mem _ he)
    refine ⟨h.initial, ?_, h.started⟩
    cases position top.rest with
    | none => exact hrest
    | some p =>
      intro e he
      obtain rfl | he := (List.mem_orderedInsert _).mp he
      · exact hfront
      · exact hrest e he

/-- An iterator of `lower_bound` finds all its pairs made, and what it gets to has levels that
exist. -/
theorem next_ok (h : Live idx iter) :
    ∃ o, next search ops idx iter = .ok o ∧ iter.next search ops idx = some o ∧
      ∀ iter', o = some iter' → Live idx iter' := by
  cases hlevel : iter.level with
  | none =>
    refine ⟨DynamicPgm.advanceQueue iter, ?_, ?_, fun iter' => h.advanceQueue⟩
    · rw [next, lazyInitializeQueue, hlevel]
      exact advanceQueue_ok h.queued
    · rw [Iterator.next, DynamicPgm.lazyInitializeQueue, hlevel]
      rfl
  | some level =>
    obtain rfl := h.started level hlevel
    let queued : Iterator K := { iter with
      level := some idx.usedLevels
      initialPairs := iter.initialPairs ++ []
      queue := makeQueue (iter.initialPairs ++ []) }
    have hqueued : Live idx queued := by
      refine ⟨fun e he => ?_, fun e he => ?_, fun level heq => (Option.some.inj heq).symm⟩
      · exact h.initial e (by simpa [queued] using he)
      · have hmem : e ∈ iter.initialPairs ++ [] := (List.mem_insertionSort _).mp he
        exact h.initial e (by simpa using hmem)
    have hnone : List.range' idx.usedLevels (idx.usedLevels - idx.usedLevels) = [] := by simp
    have hinit : lazyInitializeQueue search ops idx iter = .ok ((DynamicPgm.advanceQueue queued).map
        fun iter => { iter with level := none }) := by
      rw [lazyInitializeQueue, hlevel]
      change (List.mapM _ (List.range' idx.usedLevels (idx.usedLevels - idx.usedLevels)) >>= _) = _
      rw [hnone, List.mapM_nil]
      change (advanceQueue idx queued >>= _) = _
      rw [advanceQueue_ok hqueued.queued]
      rfl
    have hinit' : DynamicPgm.lazyInitializeQueue search ops idx iter =
        some ((DynamicPgm.advanceQueue queued).map fun iter => { iter with level := none }) := by
      rw [DynamicPgm.lazyInitializeQueue, hlevel]
      dsimp only
      rw [if_neg (by omega), pairsFrom, hnone]
      rfl
    cases hadvance : DynamicPgm.advanceQueue queued with
    | none =>
      refine ⟨none, ?_, ?_, fun iter' heq => by cases heq⟩
      · rw [next, hinit, hadvance]
        rfl
      · rw [Iterator.next, hinit', hadvance]
        rfl
    | some first =>
      have hfirst := hqueued.advanceQueue hadvance
      have hstarted : Live idx { first with level := none } :=
        ⟨hfirst.initial, hfirst.queued, fun level heq => by cases heq⟩
      refine ⟨DynamicPgm.advanceQueue { first with level := none }, ?_, ?_,
        fun iter' => hstarted.advanceQueue⟩
      · rw [next, hinit, hadvance]
        exact advanceQueue_ok hstarted.queued
      · rw [Iterator.next, hinit', hadvance]
        rfl

/-- An iterator of `find` asks for level 0. -/
theorem next_of_find (hused : minLevel ≤ idx.usedLevels) (hlevel : iter.level = some 0) :
    next search ops idx iter = .error .level := by
  obtain ⟨used, hsucc⟩ : ∃ used, idx.usedLevels - 0 = used + 1 :=
    ⟨idx.usedLevels - 1, by have : minLevel = 6 := rfl; omega⟩
  have hzero : ¬HasLevel idx 0 := fun h => absurd h.1 (by decide)
  rw [next, lazyInitializeQueue, hlevel]
  change ((List.mapM _ (List.range' 0 (idx.usedLevels - 0)) >>= _) >>= _) = _
  rw [hsucc, List.range'_succ, List.mapM_cons]
  have hsearch : levelLowerBound search ops idx 0 iter.it.item.key = .error .level := by
    rw [levelLowerBound, getLevel, check, if_neg hzero]
    rfl
  rw [hsearch]
  rfl

end Iterators

section Constructors

variable {data : List (KeyValue K)}

omit [LinearOrder K] in
theorem forM_getLevel (idx : Index K G) (levels : List Nat) :
    (forM levels fun i => do
      let _ ← getLevel idx i
      return ⟨⟩ : Except Fault Unit) =
      if ∀ i ∈ levels, HasLevel idx i then .ok ⟨⟩ else .error .level := by
  induction levels with
  | nil => rfl
  | cons i levels ih =>
    rw [List.forM_cons, getLevel, check]
    by_cases hi : HasLevel idx i
    · rw [if_pos hi]
      refine ih.trans ?_
      by_cases hlevels : ∀ j ∈ levels, HasLevel idx j
      · rw [if_pos hlevels, if_pos (List.forall_mem_cons.mpr ⟨hi, hlevels⟩)]
      · rw [if_neg hlevels, if_neg fun h => hlevels (List.forall_mem_cons.mp h).2]
    · rw [if_neg hi, if_neg fun h => hi (List.forall_mem_cons.mp h).1]
      rfl

omit [LinearOrder K] in
theorem reserve_eq (idx : Index K G) : reserve idx =
    if maxFullyAllocatedLevel < minLevel + idx.data.length then .ok ⟨⟩ else .error .level := by
  have hall : (∀ i ∈ List.range' minLevel (maxFullyAllocatedLevel + 1 - minLevel), HasLevel idx i) ↔
      maxFullyAllocatedLevel < minLevel + idx.data.length := by
    constructor
    · intro h
      exact (h maxFullyAllocatedLevel (by decide)).2
    · intro h i hi
      have hrange := List.mem_range'_1.mp hi
      have hmin : minLevel + (maxFullyAllocatedLevel + 1 - minLevel) = maxFullyAllocatedLevel + 1 := rfl
      exact ⟨hrange.1, by omega⟩
  rw [reserve, forM_getLevel]
  simp only [hall]

omit [LinearOrder K] in
/-- The constructor without data reserves space on one level more than it makes. -/
theorem construct_empty (ops : Pgm K G) : construct ops none = .error .level := by
  rw [construct, reserve_eq, if_neg]
  · rfl
  · rw [List.length_replicate]
    decide

omit [LinearOrder K] in
theorem construct_small (ops : Pgm K G) (hlen : data.length ≤ 2 ^ 14) :
    ∃ f, construct ops (some data) = .error f ∧ f ≠ .memory := by
  have hlog : Nat.clog 2 data.length ≤ 14 := Nat.clog_le_of_le_pow hlen
  rw [construct]
  dsimp only
  by_cases hempty : 0 < data.length ∧ Nat.clog 2 data.length + 1 < 2 ^ 8
  · rw [check_of hempty, ok_bind]
    by_cases hmin : minLevel ≤ Nat.clog 2 data.length + 1
    · rw [check_of hmin, ok_bind, reserve_eq, if_neg]
      · exact ⟨.level, rfl, by decide⟩
      · rw [List.length_replicate, show maxFullyAllocatedLevel = 15 from rfl]
        omega
    · rw [check, if_neg hmin]
      exact ⟨.wrap, rfl, by decide⟩
  · rw [check, if_neg hempty]
    exact ⟨.wrap, rfl, by decide⟩

omit [LinearOrder K] in
theorem construct_large (ops : Pgm K G) (hlen : 2 ^ 14 < data.length) (hsize : data.length < 2 ^ 64) :
    ∃ idx, construct ops (some data) = .ok idx ∧ Index.ofSorted ops data = some idx := by
  have hlog : 14 < Nat.clog 2 data.length := (Nat.lt_clog_iff_pow_lt (by decide)).mpr hlen
  have hbits : Nat.clog 2 data.length ≤ 64 := Nat.clog_le_of_le_pow hsize.le
  have hmin : minLevel = 6 := rfl
  have hmax : maxFullyAllocatedLevel = 15 := rfl
  have hindexed : minIndexedLevel = 18 := rfl
  have hfits : 0 < data.length ∧ Nat.clog 2 data.length + 1 < 2 ^ 8 := by omega
  have hreserve : maxFullyAllocatedLevel < minLevel +
      (List.replicate (Nat.clog 2 data.length + 1 - minLevel) ([] : List (Item K))).length := by
    rw [List.length_replicate]
    omega
  rw [construct, Index.ofSorted]
  dsimp only
  rw [check_of hfits, ok_bind, check_of (by omega), ok_bind, reserve_eq, if_pos hreserve, ok_bind,
    setLevel_eq ⟨by omega, by rw [List.length_replicate]; omega⟩, ok_bind,
    if_pos (show maxFullyAllocatedLevel < Nat.clog 2 data.length + 1 by omega)]
  by_cases htop : minIndexedLevel ≤ Nat.clog 2 data.length + 1 - 1
  · rw [if_pos htop, if_pos htop, setPgm_eq fun _ => ⟨htop, by rw [List.length_replicate]; omega⟩]
    refine ⟨_, rfl, ?_⟩
    rw [Index.setPgm, if_pos htop, Index.setLevel, if_pos (by omega)]
  · rw [if_neg htop, if_neg htop]
    refine ⟨_, rfl, ?_⟩
    rw [Index.setLevel, if_pos (by omega)]

omit [LinearOrder K] in
theorem ofSorted_indexable (h : Index.ofSorted ops data = some idx) : Indexable idx := by
  obtain ⟨hused, hlog⟩ := ofSorted_usedLevels h
  obtain ⟨hdata, hindexed⟩ := ofSorted_allocated h
  have hlevel := ofSorted_getLevel h
  have hmin : minLevel = 6 := rfl
  have hmax : maxFullyAllocatedLevel = 15 := rfl
  refine ⟨by omega, by omega, by omega, hindexed, fun i hi => ?_, fun i hi => ?_, ?_⟩
  · rw [hlevel, if_neg (by omega)]
  · rw [hlevel]
    split
    · next htop =>
      obtain rfl : i = Nat.clog 2 data.length := by omega
      rw [List.length_map]
      exact Nat.le_pow_clog (by decide) _
    · exact Nat.zero_le _
  · rw [hlevel, if_neg (by omega)]
    exact Nat.zero_le _

end Constructors

section Sessions

/-- What a client does: it inserts, asks for iterators and steps them. -/
inductive Command (K : Type)
  | insert (item : Item K)
  | find (key : K)
  | lowerBound (key : K)
  | next (j : Nat)

/-- The index and the iterators into it, `none` for `end()`. -/
structure State (K G : Type) where
  index : Index K G
  iters : List (Option (Iterator K))

variable (search ops memory)

/-- An insert invalidates all iterators. -/
def step (s : State K G) : Command K → Except Fault (State K G)
  | .insert item => do
    let index ← insert ops memory s.index item
    return ⟨index, []⟩
  | .find key => do
    let iter ← findIter search ops s.index key
    return { s with iters := s.iters ++ [iter] }
  | .lowerBound key => do
    let iter ← lowerBoundIter search ops s.index key
    return { s with iters := s.iters ++ [iter] }
  | .next j =>
    s.iters[j]?.join.elim (return s) fun iter => do
      let iter ← next search ops s.index iter
      return { s with iters := s.iters.set j iter }

def session (data : Option (List (KeyValue K))) (cs : List (Command K)) :
    Except Fault (State K G) := do
  let idx ← construct ops data
  cs.foldlM (step search ops memory) ⟨idx, []⟩

/-- Iterator `j` is as `find` returned it. -/
def State.Found (s : State K G) (j : Nat) : Prop :=
  ∃ iter, s.iters[j]?.join = some iter ∧ iter.level = some 0

/-- No access to a level is out of range, and no level number wraps around. -/
def InRange {α : Type} (x : Except Fault α) : Prop := ∀ f, x = .error f → f = .memory

variable {search ops memory} {s s' : State K G} {c : Command K} {cs : List (Command K)}
  {data : Option (List (KeyValue K))}

/-- The levels are in order, and every iterator is one of `lower_bound` or not stepped yet. -/
structure Valid (s : State K G) : Prop where
  index : Indexable s.index
  iters : ∀ iter, some iter ∈ s.iters → Live s.index iter ∨ iter.level = some 0

omit [LinearOrder K] in
theorem Valid.join (h : Valid s) {j : Nat} {iter : Iterator K} (hj : s.iters[j]?.join = some iter) :
    Live s.index iter ∨ iter.level = some 0 := by
  exact h.iters iter (List.mem_of_getElem? (Option.join_eq_some_iff.mp hj))

omit [LinearOrder K] in
theorem Valid.append (h : Valid s) {o : Option (Iterator K)}
    (ho : ∀ iter, o = some iter → Live s.index iter ∨ iter.level = some 0) :
    Valid { s with iters := s.iters ++ [o] } where
  index := h.index
  iters iter hiter := by
    obtain hiter | hiter := List.mem_append.mp hiter
    · exact h.iters iter hiter
    · exact ho iter (List.mem_singleton.mp hiter).symm

theorem inRange_ok {α : Type} (a : α) : InRange (.ok a) := fun f h => by cases h

/-- A step from a valid state is in range unless it steps an iterator of `find`, and leads to a
valid state. -/
theorem Valid.step (h : Valid s) (hsize : s.index.size < 2 ^ 64) (c : Command K) :
    ((∀ j, c = .next j → ¬s.Found j) → InRange (Checked.step search ops memory s c)) ∧
      ∀ s', Checked.step search ops memory s c = .ok s' → Valid s' := by
  cases c with
  | insert item =>
    obtain ⟨heq, hindexable⟩ : insert ops memory s.index item =
        lift (DynamicPgm.insert ops memory s.index item) ∧ _ := insert_eq h.index hsize item
    rw [Checked.step, heq]
    cases hinsert : DynamicPgm.insert ops memory s.index item with
    | none =>
      refine ⟨fun _ f hf => ?_, fun s' hs' => by cases hs'⟩
      cases hf
      rfl
    | some index =>
      refine ⟨fun _ => inRange_ok _, fun s' hs' => ?_⟩
      cases hs'
      exact ⟨hindexable index hinsert, fun iter hiter => by cases hiter⟩
  | find key =>
    rw [Checked.step, findIter_ok h.index]
    refine ⟨fun _ => inRange_ok _, fun s' hs' => ?_⟩
    cases hs'
    exact h.append fun iter hiter => .inr (findIter_spec hiter).1
  | lowerBound key =>
    rw [Checked.step, lowerBoundIter_ok h.index]
    refine ⟨fun _ => inRange_ok _, fun s' hs' => ?_⟩
    cases hs'
    exact h.append fun iter hiter => .inl (.lowerBoundIter h.index hiter)
  | next j =>
    rw [Checked.step]
    cases hj : s.iters[j]?.join with
    | none =>
      refine ⟨fun _ => inRange_ok _, fun s' hs' => ?_⟩
      cases hs'
      exact h
    | some iter =>
      change (_ → InRange (next search ops s.index iter >>= _)) ∧
        ∀ s', (next search ops s.index iter >>= _) = .ok s' → _
      obtain hlive | hfound := h.join hj
      · obtain ⟨o, hnext, -, hlive'⟩ : ∃ o, next search ops s.index iter = .ok o ∧ _ := next_ok hlive
        rw [hnext]
        refine ⟨fun _ => inRange_ok _, fun s' hs' => ?_⟩
        cases hs'
        refine ⟨h.index, fun iter' hiter' => ?_⟩
        obtain hiter' | hiter' := List.mem_or_eq_of_mem_set hiter'
        · exact h.iters iter' hiter'
        · exact .inl (hlive' iter' hiter'.symm)
      · rw [next_of_find h.index.used hfound]
        exact ⟨fun hnot => (hnot j rfl ⟨iter, hj, hfound⟩).elim, fun s' hs' => by cases hs'⟩

theorem session_concat (cs : List (Command K)) (c : Command K) :
    session search ops memory data (cs ++ [c]) =
      session search ops memory data cs >>= fun s => step search ops memory s c := by
  rw [session, session]
  cases construct ops data with
  | error f => rfl
  | ok idx =>
    simp only [ok_bind, List.foldlM_append, List.foldlM_cons, List.foldlM_nil, bind_pure]

/-- A session stops at its first fault. -/
theorem session_error {f : Fault} {pre : List (Command K)} (hpre : pre <+: cs)
    (h : session search ops memory data pre = .error f) :
    session search ops memory data cs = .error f := by
  obtain ⟨suf, rfl⟩ := hpre
  induction suf using List.reverseRecOn with
  | nil => rwa [List.append_nil]
  | append_singleton suf c ih =>
    rw [← List.append_assoc, session_concat, ih]
    rfl

theorem session_valid (hdata : ∀ kvs, data = some kvs → kvs.length < 2 ^ 64)
    (hsize : ∀ pre s, pre <+: cs → session search ops memory data pre = .ok s →
      s.index.size < 2 ^ 64)
    (h : session search ops memory data cs = .ok s) : Valid s := by
  induction cs using List.reverseRecOn generalizing s with
  | nil =>
    obtain ⟨idx, hidx, h⟩ := bind_eq_ok.mp h
    cases h
    cases data with
    | none => cases hidx.symm.trans (construct_empty ops)
    | some kvs =>
      by_cases hlen : 2 ^ 14 < kvs.length
      · obtain ⟨idx', hidx', hsorted⟩ := construct_large ops hlen (hdata kvs rfl)
        cases hidx.symm.trans hidx'
        exact ⟨ofSorted_indexable hsorted, fun iter hiter => by cases hiter⟩
      · obtain ⟨f, hf, -⟩ := construct_small ops (not_lt.mp hlen)
        cases hidx.symm.trans hf
  | append_singleton cs c ih =>
    have hpre : ∀ pre s, pre <+: cs → session search ops memory data pre = .ok s →
        s.index.size < 2 ^ 64 := fun pre s hpre => hsize pre s (hpre.trans (List.prefix_append cs [c]))
    obtain ⟨mid, hmid, h⟩ := bind_eq_ok.mp (session_concat cs c ▸ h)
    exact ((ih hpre hmid).step (hpre cs mid (List.prefix_refl cs) hmid) c).2 s h

/-- A session stays in range exactly when it begins with more than 2^14 pairs and steps no iterator
that `find` has returned. -/
theorem level_accesses_in_range_iff (hdata : ∀ kvs, data = some kvs → kvs.length < 2 ^ 64)
    (hsize : ∀ pre s, pre <+: cs → session search ops memory data pre = .ok s →
      s.index.size < 2 ^ 64) :
    InRange (session search ops memory data cs) ↔
      (∃ kvs, data = some kvs ∧ 2 ^ 14 < kvs.length) ∧
        ∀ pre j s, pre ++ [.next j] <+: cs → session search ops memory data pre = .ok s →
          ¬s.Found j := by
  constructor
  · intro hrange
    refine ⟨?_, fun pre j s hpre hs hfound => ?_⟩
    · cases data with
      | none =>
        have hfault : session search ops memory (none : Option (List (KeyValue K))) cs = .error .level := by
          rw [session, construct_empty]
          rfl
        cases hrange _ hfault
      | some kvs =>
        refine ⟨kvs, rfl, ?_⟩
        by_contra hlen
        obtain ⟨f, hf, hne⟩ := construct_small ops (not_lt.mp hlen)
        have hfault : session search ops memory (some kvs) cs = .error f := by
          rw [session, hf]
          rfl
        exact hne (hrange f hfault)
    · have hvalid := session_valid hdata (fun pre' s' hpre' => hsize pre' s'
        (hpre'.trans ((List.prefix_append pre [.next j]).trans hpre))) hs
      obtain ⟨iter, hj, hlevel⟩ := hfound
      have hfault : session search ops memory data (pre ++ [.next j]) = .error .level := by
        rw [session_concat, hs, ok_bind, step, hj]
        change (next search ops s.index iter >>= _) = _
        rw [next_of_find hvalid.index.used hlevel]
        rfl
      cases hrange _ (session_error hpre hfault)
  · rintro ⟨⟨kvs, rfl, hlen⟩, hfound⟩
    induction cs using List.reverseRecOn with
    | nil =>
      obtain ⟨idx, hidx, -⟩ := construct_large ops hlen (hdata kvs rfl)
      rw [session, hidx]
      exact inRange_ok _
    | append_singleton cs c ih =>
      have hpre : ∀ pre s, pre <+: cs → session search ops memory (some kvs) pre = .ok s →
          s.index.size < 2 ^ 64 := fun pre s hpre =>
        hsize pre s (hpre.trans (List.prefix_append cs [c]))
      have hrange := ih hpre fun pre j s hpre => hfound pre j s (hpre.trans (List.prefix_append cs [c]))
      rw [session_concat]
      cases hs : session search ops memory (some kvs) cs with
      | error f =>
        rw [hs] at hrange
        exact hrange
      | ok s =>
        apply ((session_valid hdata hpre hs).step (hpre cs s (List.prefix_refl cs) hs) c).1
        rintro j rfl
        exact hfound cs j s (List.prefix_refl _) hs

theorem step_index (hc : ∀ item, c ≠ .insert item) (h : step search ops memory s c = .ok s') :
    s'.index = s.index := by
  cases c with
  | insert item => exact (hc item rfl).elim
  | find key =>
    obtain ⟨iter, -, h⟩ := bind_eq_ok.mp h
    cases h
    rfl
  | lowerBound key =>
    obtain ⟨iter, -, h⟩ := bind_eq_ok.mp h
    cases h
    rfl
  | next j =>
    rw [step] at h
    cases hj : s.iters[j]?.join with
    | none =>
      rw [hj] at h
      cases h
      rfl
    | some iter =>
      rw [hj] at h
      obtain ⟨iter', -, h⟩ := bind_eq_ok.mp h
      cases h
      rfl

/-- A session without inserts keeps the index it begins with. -/
theorem session_index (hcs : ∀ c ∈ cs, ∀ item, c ≠ .insert item)
    (h : session search ops memory data cs = .ok s) : construct ops data = .ok s.index := by
  induction cs using List.reverseRecOn generalizing s with
  | nil =>
    obtain ⟨idx, hidx, h⟩ := bind_eq_ok.mp h
    cases h
    exact hidx
  | append_singleton cs c ih =>
    obtain ⟨mid, hmid, h⟩ := bind_eq_ok.mp (session_concat cs c ▸ h)
    rw [step_index (hcs c (List.mem_append_right _ (List.mem_singleton_self c))) h]
    exact ih (fun c hc => hcs c (List.mem_append_left _ hc)) hmid

omit [LinearOrder K] in
theorem ofSorted_size {kvs : List (KeyValue K)} (h : Index.ofSorted ops kvs = some idx) :
    idx.size = kvs.length := by
  obtain ⟨below, hlevels, hbelow, htop⟩ := ofSorted_levels h
  have hzero : (below.map fun i => (idx.getLevel i).length).sum = 0 := by
    rw [List.sum_eq_zero_iff_forall_eq_nat]
    intro n hn
    obtain ⟨i, hi, rfl⟩ := List.mem_map.mp hn
    rw [hbelow i hi]
    rfl
  rw [Index.size, hlevels, List.map_append, List.sum_append, hzero, List.map_singleton,
    List.sum_singleton, htop, List.length_map, Nat.zero_add]

/-- The least number of pairs, all with one key, and an iterator that is stepped. -/
abbrev leastData : List (KeyValue Nat) := List.replicate (2 ^ 14 + 1) ⟨0, 0⟩

theorem level_accesses_in_range_iff_least :
    InRange (session BranchingBinarySearch.search (Pgm.exact : Pgm Nat (List Nat))
        (fun _ => ⟨0, false, 0⟩) (some leastData) [.lowerBound 0, .next 0]) ↔
      (∃ kvs, some leastData = some kvs ∧ 2 ^ 14 < kvs.length) ∧
        ∀ pre j s, pre ++ [.next j] <+: [.lowerBound 0, .next 0] →
          session BranchingBinarySearch.search (Pgm.exact : Pgm Nat (List Nat))
            (fun _ => ⟨0, false, 0⟩) (some leastData) pre = .ok s → ¬s.Found j := by
  have hlen : leastData.length = 2 ^ 14 + 1 := List.length_replicate
  apply level_accesses_in_range_iff
  · rintro kvs hkvs
    rw [← Option.some.inj hkvs, hlen]
    decide
  · intro pre s hpre hs
    obtain ⟨idx, hidx, hsorted⟩ := construct_large (Pgm.exact : Pgm Nat (List Nat))
      (show 2 ^ 14 < leastData.length by rw [hlen]; decide) (by rw [hlen]; decide)
    have hindex := session_index (fun c hc item heq => by
      subst heq
      simpa using hpre.subset hc) hs
    cases hidx.symm.trans hindex
    rw [ofSorted_size hsorted, hlen]
    decide

/-- An index that is made without data is out of range at once. -/
theorem level_accesses_out_of_range :
    session BranchingBinarySearch.search (Pgm.exact : Pgm Nat (List Nat)) (fun _ => ⟨0, false, 0⟩)
      none [] = .error .level := by
  rw [session, construct_empty]
  rfl

end Sessions

end LearnedIndex.DynamicPgm.Checked
