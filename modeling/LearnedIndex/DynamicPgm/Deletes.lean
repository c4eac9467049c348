import LearnedIndex.DynamicPgm.Lookup

/-! Erased and inserted again: what the buffer keeps of the changes to a key. -/

universe u v

namespace LearnedIndex.DynamicPgm

open SortedList Transition

variable {K : Type u} {G : Type v}

/-- `Item(key)`: the value of a tombstone is value-initialised. -/
def Item.tombstone (key : K) : Item K := ⟨0, true, key⟩

inductive Change (K : Type u)
  | insert (key : K) (value : UInt64)
  | erase (key : K)
  deriving DecidableEq, Repr

def Change.key : Change K → K
  | .insert key _ => key
  | .erase key => key

def Change.item : Change K → Item K
  | .insert key value => .ofPair ⟨key, value⟩
  | .erase key => .tombstone key

@[simp] theorem Change.key_item (c : Change K) : c.item.key = c.key := by cases c <;> rfl

/-- Only a value of 0 can be that of a tombstone. -/
theorem Change.deleted_item {c : Change K} (h : c.item.value ≠ 0) : c.item.deleted = false := by
  cases c with
  | insert key value => rfl
  | erase key => exact (h rfl).elim

section History

variable {x y last : Item K} {h : List (Item K)}

/-- What the buffer keeps of a key after one more item with this key. -/
def keep (kept : Option (Item K)) (x : Item K) : Option (Item K) :=
  if kept.any fun y => y.value = x.value then kept else some x

/-- The items with value 0 at the end of a history, the newest first. -/
def zeros (h : List (Item K)) : List (Item K) := h.reverse.takeWhile fun x => x.value = 0

theorem zeros_concat (h : List (Item K)) (x : Item K) :
    zeros (h ++ [x]) = if x.value = 0 then x :: zeros h else [] := by
  rw [zeros, List.reverse_append]
  by_cases hx : x.value = 0 <;> simp [hx, zeros]

/-- Of the last items with equal values the oldest one is kept. -/
theorem foldl_keep_concat (h : List (Item K)) (x : Item K) :
    ∃ y ∈ h ++ [x], (h ++ [x]).foldl keep none = some y ∧ y.value = x.value ∧
      (x.value = 0 → (zeros (h ++ [x])).getLast? = some y) := by
  induction h using List.reverseRecOn generalizing x with
  | nil =>
    refine ⟨x, List.mem_singleton_self x, rfl, rfl, fun hx => ?_⟩
    rw [zeros_concat, if_pos hx]
    rfl
  | append_singleton h z ih =>
    obtain ⟨y, hy, hfold, hvalue, hzeros⟩ := ih z
    rw [List.foldl_append, hfold, List.foldl_cons, List.foldl_nil, keep]
    by_cases heq : y.value = x.value
    · refine ⟨y, List.mem_append_left _ hy, by simp [heq], heq, fun hx => ?_⟩
      have hlast := hzeros (by rw [← hvalue, heq, hx])
      rw [zeros_concat, if_pos hx, List.getLast?_cons, hlast]
      rfl
    · refine ⟨x, List.mem_append_right _ (List.mem_singleton_self x), by simp [heq], rfl, fun hx => ?_⟩
      rw [zeros_concat, if_pos hx, zeros_concat, if_neg]
      · rfl
      · exact fun hz => heq (hvalue.trans (hz.trans hx.symm))

end History

variable [LinearOrder K] {ops : Pgm K G} {idx : Index K G} {x : Item K}

/-- A state with an empty buffer; the levels behind it may hold anything. -/
structure Unbuffered (idx : Index K G) : Prop where
  used : minLevel ≤ idx.usedLevels
  allocated : idx.data ≠ []
  buffer : idx.getLevel minLevel = []

theorem Start.unbuffered {data : List (KeyValue K)} (h : Start ops idx data) : Unbuffered idx where
  used := h.bounded.used
  allocated := List.ne_nil_of_length_pos (by have := h.bounded.buffer; omega)
  buffer := h.buffer

section Step

/-- A duplicate is an item with the value of the first item with its key. -/
theorem isDuplicate_eq (h : Sorted Item.key (idx.getLevel minLevel)) (x : Item K) :
    isDuplicate idx x =
      (lookupIn (idx.getLevel minLevel) x.key).any fun y => decide (y.value = x.value) := by
  rw [← lookupIn_lowerBound h]
  change (bufferBack idx x).head?.any _ = ((bufferBack idx x).head?.filter _).any _
  cases (bufferBack idx x).head? with
  | none => rfl
  | some y => by_cases hkey : y.key = x.key <;> simp [hkey]

/-- What holds of the buffer before the first merge; `kept` is what it holds for each key. -/
structure Buffered (idx : Index K G) (kept : K → Option (Item K)) : Prop where
  used : minLevel ≤ idx.usedLevels
  allocated : idx.data ≠ []
  sorted : Sorted Item.key (idx.getLevel minLevel)
  lookup : ∀ k, lookupIn (idx.getLevel minLevel) k = kept k
  inUse : idx.getLevel minLevel ≠ [] → minLevel < idx.usedLevels

variable (ops) in
/-- An insert that does not merge keeps the first of its item and the one before it, if their
values are equal, and else its item. -/
theorem Buffered.insert {kept : K → Option (Item K)} (h : Buffered idx kept) (memory : Memory K)
    (hmerge : mergesInto idx x = none) :
    ∃ idx', DynamicPgm.insert ops memory idx x = some idx' ∧
      (Buffered idx' fun k => if x.key = k then keep (kept k) x else kept k) ∧
      (idx'.getLevel minLevel).length ≤ (idx.getLevel minLevel).length + 1 := by
  have hdup := isDuplicate_eq h.sorted x
  rw [h.lookup] at hdup
  rw [DynamicPgm.insert]
  cases hcase : isDuplicate idx x with
  | true =>
    refine ⟨idx, rfl, ⟨h.used, h.allocated, h.sorted, fun k => ?_, h.inUse⟩, Nat.le_succ _⟩
    rw [h.lookup]
    split
    · next hkey =>
      subst hkey
      rw [keep, if_pos (hdup.symm.trans hcase)]
    · rfl
  | false =>
    have hroom : (idx.getLevel minLevel).length < firstLevelMaxSize := by
      rw [mergesInto, hcase] at hmerge
      simpa using hmerge
    have hlen : minLevel < minLevel + idx.data.length := by
      have hpos := List.length_pos_of_ne_nil h.allocated
      omega
    have hlevel : (idx.setLevel minLevel (extended idx x)).getLevel minLevel = extended idx x := by
      rw [Index.getLevel_setLevel le_rfl hlen, if_pos rfl]
    rw [if_neg Bool.false_ne_true, if_pos hroom]
    refine ⟨_, rfl, ⟨?_, ?_, ?_, fun k => ?_, fun _ => ?_⟩, ?_⟩
    · have hused := h.used
      simp only
      split <;> omega
    · rw [← List.length_pos_iff]
      simpa using List.length_pos_of_ne_nil h.allocated
    · exact hlevel.symm ▸ extended_sorted h.sorted x
    · refine (congrArg (fun level => lookupIn level k) hlevel).trans ?_
      rw [lookupIn_extended, h.lookup]
      split
      · next hkey =>
        subst hkey
        rw [keep, if_neg (by rw [← hdup, hcase]; exact Bool.false_ne_true)]
      · rfl
    · have hused := h.used
      simp only
      split <;> omega
    · exact ((congrArg List.length hlevel).trans (extended_length idx x)).le

theorem Unbuffered.buffered (h : Unbuffered idx) : Buffered idx fun _ => none where
  used := h.used
  allocated := h.allocated
  sorted := h.buffer ▸ .nil
  lookup k := h.buffer ▸ lookupIn_nil k
  inUse hne := (hne h.buffer).elim

/-- The buffer answers for the keys it has. -/
theorem Buffered.find {kept : K → Option (Item K)} (h : Buffered idx kept) (search : Search K)
    {k : K} {y : Item K} (hy : kept k = some y) :
    find search ops idx k = if y.deleted then none else some y := by
  have hfound : lookupIn (idx.getLevel minLevel) k = some y := (h.lookup k).trans hy
  have hne : idx.getLevel minLevel ≠ [] := by
    intro hnil
    rw [hnil] at hfound
    cases hfound
  have hlevels : idx.levels =
      minLevel :: List.range' (minLevel + 1) (idx.usedLevels - minLevel - 1) := by
    have hused := h.inUse hne
    rw [Index.levels, ← List.range'_succ]
    congr
    omega
  have hsearch : levelLowerBound search ops idx minLevel k =
      lowerBound Item.key k (idx.getLevel minLevel) := rfl
  rw [DynamicPgm.find, hlevels, List.findSome?_cons, hsearch, lookupIn_lowerBound h.sorted, hfound]
  rfl

end Step

section Changes

variable (ops) in
/-- `insert(key, value)` and `erase(key)`. -/
def change (memory : Memory K) (idx : Index K G) (c : Change K) : Option (Index K G) :=
  insert ops memory idx c.item

/-- The changes to a key. -/
def changesTo (cs : List (Change K)) (k : K) : List (Change K) := cs.filter fun c => c.key = k

def history (cs : List (Change K)) (k : K) : List (Item K) := (changesTo cs k).map Change.item

theorem history_concat (cs : List (Change K)) (c : Change K) (k : K) :
    history (cs ++ [c]) k = if c.key = k then history cs k ++ [c.item] else history cs k := by
  by_cases h : c.key = k <;> simp [history, changesTo, h]

variable (ops) in
/-- No change of the run fills the buffer and has it merged. -/
def NeverMerges (memory : Memory K) (start : Index K G) (cs : List (Change K)) : Prop :=
  ∀ pre c, pre ++ [c] <+: cs → ∀ idx, run (change ops memory) start pre = some idx →
    mergesInto idx c.item = none

/-- What `find` has to say after a change. -/
def Answers (search : Search K) (ops : Pgm K G) (idx : Index K G) : Change K → Prop
  | .insert key value => ∃ x, find search ops idx key = some x ∧ x.value = value
  | .erase key => find search ops idx key = none

/-- The changes to the key that end the history without a value other than 0 begin and end with
the same kind, both insert or both erase. -/
def Undisturbed (cs : List (Change K)) (k : K) : Prop :=
  ∀ newest oldest, (zeros (history cs k)).head? = some newest →
    (zeros (history cs k)).getLast? = some oldest → newest.deleted = oldest.deleted

theorem buffered_run {start : Index K G} {cs : List (Change K)} (memory : Memory K)
    (hstart : Unbuffered start) (hmerge : NeverMerges ops memory start cs) :
    ∃ idx, run (change ops memory) start cs = some idx ∧
      Buffered idx fun k => (history cs k).foldl keep none := by
  apply run_total (P := fun pre idx => Buffered idx fun k => (history pre k).foldl keep none)
  · exact hstart.buffered
  · intro pre idx c hpre hrun h
    obtain ⟨idx', hidx', h', -⟩ := h.insert ops memory (hmerge pre c hpre idx hrun)
    refine ⟨idx', hidx', ?_⟩
    have hkept : (fun k => (history (pre ++ [c]) k).foldl keep none) = fun k =>
        if c.item.key = k then keep ((history pre k).foldl keep none) c.item
        else (history pre k).foldl keep none := by
      funext k
      rw [history_concat, Change.key_item]
      split
      · rw [List.foldl_append]
        rfl
      · rfl
    rw [hkept]
    exact h'

/-- What the kept item says agrees with the last change exactly when both are of one kind. -/
theorem answers_iff {search : Search K} {c : Change K} {y : Item K}
    (hfind : find search ops idx c.key = if y.deleted then none else some y)
    (hvalue : y.value = c.item.value) :
    Answers search ops idx c ↔ y.deleted = c.item.deleted := by
  cases c with
  | insert key value =>
    change (∃ x, find search ops idx key = some x ∧ _) ↔ y.deleted = false
    rw [show find search ops idx key = _ from hfind]
    cases y.deleted with
    | true => simp
    | false => simpa using (show y.value = value from hvalue)
  | erase key =>
    change find search ops idx key = none ↔ y.deleted = true
    rw [show find search ops idx key = _ from hfind]
    cases y.deleted <;> simp

/-- Until the buffer is merged, `find` answers for the last change to a key exactly when this
change is not swallowed. -/
theorem find_after_changes_iff (search : Search K) (memory : Memory K) {start : Index K G}
    {cs : List (Change K)} (hstart : Unbuffered start) (hmerge : NeverMerges ops memory start cs) :
    ∃ idx, run (change ops memory) start cs = some idx ∧
      ∀ c, (changesTo cs c.key).getLast? = some c →
        (Answers search ops idx c ↔ Undisturbed cs c.key) := by
  obtain ⟨idx, hrun, h⟩ := buffered_run memory hstart hmerge
  refine ⟨idx, hrun, fun c hc => ?_⟩
  obtain ⟨older, holder⟩ := List.getLast?_eq_some_iff.mp hc
  have hhistory : history cs c.key = older.map Change.item ++ [c.item] := by
    rw [history, holder, List.map_append]
    rfl
  obtain ⟨y, hmem, hfold, hvalue, hzeros⟩ := foldl_keep_concat (older.map Change.item) c.item
  rw [← hhistory] at hmem hfold hzeros
  rw [answers_iff (h.find search hfold) hvalue, Undisturbed, hhistory, zeros_concat]
  rw [hhistory, zeros_concat] at hzeros
  by_cases hzero : c.item.value = 0
  · rw [if_pos hzero] at hzeros ⊢
    rw [hzeros hzero]
    simp only [List.head?_cons, Option.some.injEq]
    constructor
    · rintro hdeleted newest oldest rfl rfl
      exact hdeleted.symm
    · intro hsame
      exact (hsame _ _ rfl rfl).symm
  · rw [if_neg hzero]
    obtain ⟨c', -, rfl⟩ := List.mem_map.mp hmem
    rw [Change.deleted_item hzero, Change.deleted_item (hvalue ▸ hzero)]
    simp

/-- A run that fits into the buffer does not fill it. -/
theorem neverMerges_of_fits (memory : Memory K) {start : Index K G} {cs : List (Change K)}
    (hstart : Unbuffered start) (hlen : cs.length ≤ firstLevelMaxSize) :
    NeverMerges ops memory start cs := by
  intro pre c hpre idx hrun
  have hroom : ∀ {pre c} {idx : Index K G}, pre ++ [c] <+: cs →
      (idx.getLevel minLevel).length ≤ pre.length → mergesInto idx c.item = none := by
    intro pre c idx hpre hle
    have hlt := hpre.length_le
    rw [List.length_append, List.length_singleton] at hlt
    exact mergesInto_of_room (by omega)
  suffices h : (∃ kept, Buffered idx kept) ∧ (idx.getLevel minLevel).length ≤ pre.length from
    hroom hpre h.2
  apply run_induction (P := fun pre idx => (∃ kept, Buffered idx kept) ∧
    (idx.getLevel minLevel).length ≤ pre.length) _ _ hrun
  · exact ⟨⟨_, hstart.buffered⟩, by rw [hstart.buffer]; rfl⟩
  · intro bs r a r' hbs _ ⟨⟨kept, h⟩, hle⟩ hr'
    obtain ⟨idx', hidx', h', hlen'⟩ := h.insert ops memory
      (hroom (hbs.trans ((List.prefix_append pre [c]).trans hpre)) hle)
    obtain rfl : idx' = r' := Option.some.inj (hidx'.symm.trans hr')
    refine ⟨⟨_, h'⟩, hlen'.trans ?_⟩
    rw [List.length_append, List.length_singleton]
    exact Nat.succ_le_succ hle


end Changes

section Swallowed

/-- An index without data, with the levels it has from the start. -/
abbrev fresh : Index Nat (List Nat) := ⟨minLevel, List.replicate 9 [], []⟩

abbrev freshRun (cs : List (Change Nat)) : Option (Index Nat (List Nat)) :=
  run (change Pgm.exact fun _ => ⟨0, false, 0⟩) fresh cs

/-- Erased, inserted with 0 and erased again: nothing is swallowed. -/
theorem find_after_changes_iff_fresh :
    ∃ idx, freshRun [.insert 5 7, .erase 5, .insert 5 0, .erase 5] = some idx ∧
      ∀ c, (changesTo [.insert 5 7, .erase 5, .insert 5 0, .erase 5] c.key).getLast? = some c →
        (Answers BranchingBinarySearch.search Pgm.exact idx c ↔
          Undisturbed [.insert 5 7, .erase 5, .insert 5 0, .erase 5] c.key) :=
  find_after_changes_iff BranchingBinarySearch.search _ ⟨by decide, by decide, rfl⟩
    (neverMerges_of_fits _ ⟨by decide, by decide, rfl⟩ (by decide))

/-- The pair is found after it was erased, and is not found after it was inserted again. -/
theorem find_after_swallowed_change :
    ((freshRun [.insert 5 0, .erase 5]).map fun idx =>
      find BranchingBinarySearch.search Pgm.exact idx 5) = some (some ⟨0, false, 5⟩) ∧
    ((freshRun [.erase 5, .insert 5 0]).map fun idx =>
      find BranchingBinarySearch.search Pgm.exact idx 5) = some none := by
  decide +kernel

end Swallowed

end LearnedIndex.DynamicPgm
