import LearnedIndex.DynamicPgm.Order

/-! `DynamicPGMIndex` with every `get_level`, `get_pgm` and change of `used_levels` checked. -/

namespace LearnedIndex.DynamicPgm.Checked

open SortedList Util

variable {K G : Type}

/-- Why a run stops: a level or an index on a level that does not exist, an arithmetic result
that its type does not hold, or any other access out of range. -/
inductive Fault
  | level
  | pgm
  | wrap
  | memory
  deriving DecidableEq, Repr

section Checks

variable {α : Type}

def check (p : Prop) [Decidable p] (f : Fault) : Except Fault Unit :=
  if p then .ok ⟨⟩ else .error f

/-- What is undefined without the checks is an access to memory out of range. -/
def lift (o : Option α) : Except Fault α := o.elim (.error .memory) .ok

@[simp] theorem lift_some (a : α) : lift (some a) = .ok a := rfl

@[simp] theorem lift_none : lift (none : Option α) = .error .memory := rfl

@[simp] theorem ok_bind {β : Type} (a : α) (f : α → Except Fault β) : (Except.ok a >>= f) = f a := rfl

@[simp] theorem error_bind {β : Type} (e : Fault) (f : α → Except Fault β) :
    (Except.error e >>= f) = .error e := rfl

theorem bind_eq_ok {β : Type} {x : Except Fault α} {f : α → Except Fault β} {b : β} :
    (x >>= f) = .ok b ↔ ∃ a, x = .ok a ∧ f a = .ok b := by
  cases x with
  | error e =>
    constructor
    · intro h
      cases h
    · rintro ⟨a, ha, -⟩
      cases ha
  | ok a =>
    constructor
    · exact fun h => ⟨a, rfl, h⟩
    · rintro ⟨a', ha, h⟩
      cases ha
      exact h

theorem check_of {p : Prop} [Decidable p] (h : p) (f : Fault) : check p f = .ok ⟨⟩ := if_pos h

end Checks

abbrev HasLevel (idx : Index K G) (i : Nat) : Prop := minLevel ≤ i ∧ i < minLevel + idx.data.length

abbrev HasPgm (idx : Index K G) (i : Nat) : Prop :=
  minIndexedLevel ≤ i ∧ i < minIndexedLevel + idx.pgm.length

def getLevel (idx : Index K G) (i : Nat) : Except Fault (List (Item K)) := do
  check (HasLevel idx i) .level
  return idx.getLevel i

def getPgm (ops : Pgm K G) (idx : Index K G) (i : Nat) : Except Fault G := do
  check (HasPgm idx i) .pgm
  return idx.getPgm ops i

def setLevel (idx : Index K G) (i : Nat) (level : List (Item K)) : Except Fault (Index K G) := do
  check (HasLevel idx i) .level
  return idx.setLevel i level

/-- Changes the index on a level, if the level is large enough to have one. -/
def setPgm (idx : Index K G) (i : Nat) (g : G) : Except Fault (Index K G) :=
  if minIndexedLevel ≤ i then do
    check (HasPgm idx i) .pgm
    return idx.setPgm i g
  else return idx

/-- The loop of both constructors that reserves space on the first levels. -/
def reserve (idx : Index K G) : Except Fault Unit :=
  forM (List.range' minLevel (maxFullyAllocatedLevel + 1 - minLevel)) fun i => do
    let _ ← getLevel idx i
    return ⟨⟩

/-- The constructors: `none` for the one without data.  The logarithm of 0 has no 8-bit value. -/
def construct (ops : Pgm K G) : Option (List (KeyValue K)) → Except Fault (Index K G)
  | none => do
    let idx := ⟨minLevel, List.replicate (initLevels - minLevel) [], []⟩
    reserve idx
    return idx
  | some data => do
    let usedLevels := Nat.clog 2 data.length + 1
    check (0 < data.length ∧ usedLevels < 2 ^ 8) .wrap
    check (minLevel ≤ usedLevels) .wrap
    let idx := ⟨usedLevels, List.replicate (usedLevels - minLevel) [], []⟩
    reserve idx
    let idx ← setLevel idx (usedLevels - 1) (data.map Item.ofPair)
    if minIndexedLevel ≤ usedLevels - 1 then
      setPgm { idx with pgm := List.replicate (usedLevels - minIndexedLevel) ops.empty }
        (usedLevels - 1) (ops.build (keys data))
    else return idx

variable [LinearOrder K]

def mergeLevel (ops : Pgm K G) (mod : Nat) (s : MergeState K G) (i : Nat) :
    Except Fault (MergeState K G) := do
  let level ← getLevel s.index i
  let canDeletePermanently := i = s.index.usedLevels - 1
  if (i - minLevel) % 2 = mod then
    let out := merge canDeletePermanently (s.tmpA.take s.actualSize) level
    let tmpB ← lift (overwrite s.tmpB out)
    let index ← setLevel s.index i []
    let index ← setPgm index i ops.empty
    return ⟨s.tmpA, tmpB, out.length, index⟩
  else
    let out := merge canDeletePermanently (s.tmpB.take s.actualSize) level
    let tmpA ← lift (overwrite s.tmpA out)
    let index ← setLevel s.index i []
    let index ← setPgm index i ops.empty
    return ⟨tmpA, s.tmpB, out.length, index⟩

def pairwiseLogarithmicMerge (ops : Pgm K G) (memory : Memory K) (idx : Index K G)
    (newItem : Item K) (upToLevel sizeHint : Nat) (front back : List (Item K)) :
    Except Fault (Index K G) := do
  let targetLevel := upToLevel + 1
  let target ← getLevel idx targetLevel
  let mod := (upToLevel - minLevel) % 2
  let start ← lift (mergeStart memory idx (front ++ newItem :: back) sizeHint target.length mod)
  let limit := if target.isEmpty then upToLevel else upToLevel + 1
  let s ← (List.range' (minLevel + 1) (limit - minLevel)).foldlM (mergeLevel ops mod) start
  let merged := resize memory s.tmpB s.actualSize
  let index ← setLevel s.index minLevel []
  let index ← setLevel index targetLevel merged
  setPgm index targetLevel (ops.build (merged.map Item.key))

def targetLoop (idx : Index K G) : Nat → Nat → Nat → Except Fault (Nat × Nat)
  | 0, i, slotsRequired => return (i, slotsRequired)
  | n + 1, i, slotsRequired => do
    let level ← getLevel idx i
    check (level.length ≤ 2 ^ i) .wrap
    if slotsRequired ≤ 2 ^ i - level.length then return (i, slotsRequired)
    else targetLoop idx n (i + 1) (slotsRequired + level.length)

def mergeTarget (idx : Index K G) : Except Fault (Nat × Nat) :=
  targetLoop idx (idx.usedLevels - (minLevel + 1)) (minLevel + 1) (firstLevelMaxSize + 1)

/-- Takes one more level into use; `used_levels` has 8 bits. -/
def addLevel (ops : Pgm K G) (idx : Index K G) : Except Fault (Index K G) := do
  check (idx.usedLevels + 1 < 2 ^ 8) .wrap
  return DynamicPgm.addLevel ops idx

def insert (ops : Pgm K G) (memory : Memory K) (idx : Index K G) (newItem : Item K) :
    Except Fault (Index K G) := do
  let first ← getLevel idx minLevel
  let front := bufferFront idx newItem
  let back := bufferBack idx newItem
  if isDuplicate idx newItem then return idx
  else if first.length < firstLevelMaxSize then
    return { idx.setLevel minLevel (front ++ newItem :: back) with
      usedLevels := if idx.usedLevels = minLevel then minLevel + 1 else idx.usedLevels }
  else
    let (i, slotsRequired) ← mergeTarget idx
    let idx ← if i = idx.usedLevels then addLevel ops idx else pure idx
    pairwiseLogarithmicMerge ops memory idx newItem (i - 1) slotsRequired front back

section Query

variable (search : Search K) (ops : Pgm K G) (idx : Index K G)

/-- The search on level `i`; the index is asked on large levels that are not empty. -/
def levelLowerBound (i : Nat) (key : K) : Except Fault (List (Item K)) := do
  let level ← getLevel idx i
  if i < minIndexedLevel ∨ level.isEmpty then
    return DynamicPgm.levelLowerBound search ops idx i key
  else
    let _ ← getPgm ops idx i
    return DynamicPgm.levelLowerBound search ops idx i key

def findFrom (key : K) : List Nat → Except Fault (Option (Position K))
  | [] => return none
  | i :: levels => do
    let found ← levelLowerBound search ops idx i key
    ((position found).filter fun p => p.item.key = key).elim (findFrom key levels) fun p =>
      return some p

def findIter (key : K) : Except Fault (Option (Iterator K)) := do
  let p ← findFrom search ops idx key idx.levels
  return p.bind fun p => if p.item.deleted then none else some ⟨p, some 0, [], []⟩

def lowerBoundIter (key : K) : Except Fault (Option (Iterator K)) := do
  let pairs ← idx.levels.mapM fun i => do
    let found ← levelLowerBound search ops idx i key
    let start := if i < minIndexedLevel then position (found.dropWhile Item.deleted)
      else position (found.dropWhile fun x => decide (x.key < key))
    return start.map fun p => (p, i)
  let pairs := pairs.filterMap id
  return (smallest pairs).map fun lo => ⟨lo, some idx.usedLevels, pairs, []⟩

/-- The end of the level is asked for when a position leaves the queue. -/
def advanceQueue (iter : Iterator K) : Except Fault (Option (Iterator K)) :=
  iter.queue.head?.elim (return none) fun e => do
    let _ ← getLevel idx e.2
    return DynamicPgm.advanceQueue iter

def lazyInitializeQueue (iter : Iterator K) : Except Fault (Option (Iterator K)) :=
  iter.level.elim (return some iter) fun level => do
    let pairs ← (List.range' level (idx.usedLevels - level)).mapM fun i => do
      let found ← levelLowerBound search ops idx i iter.it.item.key
      return (position (found.dropWhile fun x => decide (x.key < iter.it.item.key))).map fun p =>
        (p, i)
    let pairs := iter.initialPairs ++ pairs.filterMap id
    let next ← advanceQueue idx { iter with initialPairs := pairs, queue := makeQueue pairs }
    return next.map fun iter => { iter with level := none }

def next (iter : Iterator K) : Except Fault (Option (Iterator K)) := do
  let iter ← lazyInitializeQueue search ops idx iter
  iter.elim (return none) (advanceQueue idx)

end Query

section Agreement

variable {ops : Pgm K G} {idx idx' : Index K G} {memory : Memory K} {i n mod : Nat}

omit [LinearOrder K] in
theorem getLevel_eq (h : HasLevel idx i) : getLevel idx i = .ok (idx.getLevel i) := by
  rw [getLevel, check_of h]
  rfl

omit [LinearOrder K] in
theorem setLevel_eq (h : HasLevel idx i) (level : List (Item K)) :
    setLevel idx i level = .ok (idx.setLevel i level) := by
  rw [setLevel, check_of h]
  rfl

omit [LinearOrder K] in
theorem setPgm_eq (h : minIndexedLevel ≤ i → HasPgm idx i) (g : G) :
    setPgm idx i g = .ok (idx.setPgm i g) := by
  rw [setPgm]
  split
  · next hmin =>
    rw [check_of (h hmin)]
    rfl
  · next hmin =>
    rw [Index.setPgm, if_neg hmin]
    rfl

/-- A round of the merge loop is in range when its level and its index are. -/
theorem mergeLevel_eq {s : MergeState K G} (hlevel : HasLevel s.index i)
    (hpgm : minIndexedLevel ≤ i → HasPgm s.index i) :
    mergeLevel ops mod s i = lift (DynamicPgm.mergeLevel ops mod s i) := by
  have hclear : setPgm (s.index.setLevel i []) i ops.empty =
      .ok ((s.index.setLevel i []).setPgm i ops.empty) :=
    setPgm_eq (fun hmin => by rw [HasPgm, Index.setLevel_pgm]; exact hpgm hmin) ops.empty
  rw [mergeLevel, DynamicPgm.mergeLevel, getLevel_eq hlevel, setLevel_eq hlevel]
  change (if (i - minLevel) % 2 = mod then _ else _) = _
  dsimp only
  split
  · cases overwrite s.tmpB _ with
    | none => rfl
    | some tmpB =>
      change (setPgm (s.index.setLevel i []) i ops.empty >>= _) = _
      rw [hclear]
      rfl
  · cases overwrite s.tmpA _ with
    | none => rfl
    | some tmpA =>
      change (setPgm (s.index.setLevel i []) i ops.empty >>= _) = _
      rw [hclear]
      rfl

/-- What a round leaves of the index, and how many items it may have merged. -/
theorem mergeLevel_spec {s s' : MergeState K G} (h : DynamicPgm.mergeLevel ops mod s i = some s') :
    s'.index = (s.index.setLevel i []).setPgm i ops.empty ∧
      s'.actualSize ≤ s.actualSize + (s.index.getLevel i).length := by
  have hlen : ∀ (skip : Bool) (xs : List (Item K)),
      (merge skip (xs.take s.actualSize) (s.index.getLevel i)).length ≤
        s.actualSize + (s.index.getLevel i).length := by
    intro skip xs
    have hmerge := (merges_merge skip (xs.take s.actualSize) (s.index.getLevel i)).length_le
    have htake := List.length_take_le s.actualSize xs
    omega
  rw [DynamicPgm.mergeLevel] at h
  split at h
  · obtain ⟨tmpB, -, rfl⟩ := Option.map_eq_some_iff.mp h
    exact ⟨rfl, hlen _ _⟩
  · obtain ⟨tmpA, -, rfl⟩ := Option.map_eq_some_iff.mp h
    exact ⟨rfl, hlen _ _⟩

/-- The index after `n` rounds of a merge. -/
structure Merged (idx : Index K G) (n : Nat) (s : MergeState K G) : Prop where
  used : s.index.usedLevels = idx.usedLevels
  data_length : s.index.data.length = idx.data.length
  pgm_length : s.index.pgm.length = idx.pgm.length
  levels : ∀ j, s.index.getLevel j =
    if minLevel < j ∧ j < minLevel + 1 + n then [] else idx.getLevel j
  size : s.actualSize ≤ firstLevelMaxSize + 1 + sizeUp idx.getLevel n

theorem Merged.step {s s' : MergeState K G} (h : Merged idx n s)
    (hlevel : HasLevel idx (minLevel + 1 + n))
    (hs : DynamicPgm.mergeLevel ops mod s (minLevel + 1 + n) = some s') : Merged idx (n + 1) s' := by
  obtain ⟨hindex, hsize⟩ := mergeLevel_spec hs
  have hlen : minLevel + 1 + n < minLevel + s.index.data.length := by
    rw [h.data_length]
    exact hlevel.2
  refine ⟨?_, ?_, ?_, fun j => ?_, ?_⟩
  · simp [hindex, h.used]
  · simp [hindex, h.data_length]
  · simp [hindex, h.pgm_length]
  · rw [hindex, Index.getLevel_setPgm, Index.getLevel_setLevel (by omega) hlen, h.levels]
    split
    · rw [if_pos (by omega)]
    · split
      · rw [if_pos (by omega)]
      · rw [if_neg (by omega)]
  · have hget : s.index.getLevel (minLevel + 1 + n) = idx.getLevel (minLevel + 1 + n) := by
      rw [h.levels, if_neg (by omega)]
    have hbound := h.size
    rw [hget] at hsize
    rw [sizeUp_succ]
    omega

variable (ops mod) in
/-- The merge loop stays in range on levels that exist. -/
theorem mergeLevels_eq {start : MergeState K G} (hlevels : ∀ j < n, HasLevel idx (minLevel + 1 + j))
    (hpgms : ∀ j < n, minIndexedLevel ≤ minLevel + 1 + j → HasPgm idx (minLevel + 1 + j))
    (h : Merged idx 0 start) :
    (List.range' (minLevel + 1) n).foldlM (mergeLevel ops mod) start =
        lift ((List.range' (minLevel + 1) n).foldlM (DynamicPgm.mergeLevel ops mod) start) ∧
      ∀ s, (List.range' (minLevel + 1) n).foldlM (DynamicPgm.mergeLevel ops mod) start = some s →
        Merged idx n s := by
  induction n with
  | zero => exact ⟨rfl, fun s hs => Option.some.inj hs ▸ h⟩
  | succ n ih =>
    obtain ⟨heq, hmerged⟩ := ih (fun j hj => hlevels j (hj.trans (Nat.lt_succ_self n)))
      fun j hj => hpgms j (hj.trans (Nat.lt_succ_self n))
    simp only [List.range'_concat, Nat.one_mul, List.foldlM_append, List.foldlM_cons,
      List.foldlM_nil, heq]
    cases hs : (List.range' (minLevel + 1) n).foldlM (DynamicPgm.mergeLevel ops mod) start with
    | none => exact ⟨rfl, fun s hs => by cases hs⟩
    | some s =>
      have hmid := hmerged s hs
      have hlevel : HasLevel s.index (minLevel + 1 + n) := by
        simpa [HasLevel, hmid.data_length] using hlevels n (Nat.lt_succ_self n)
      have hpgm : minIndexedLevel ≤ minLevel + 1 + n → HasPgm s.index (minLevel + 1 + n) := by
        simpa [HasPgm, hmid.pgm_length] using hpgms n (Nat.lt_succ_self n)
      constructor
      · change (mergeLevel ops mod s (minLevel + 1 + n) >>= fun s => return s) =
          lift (DynamicPgm.mergeLevel ops mod s (minLevel + 1 + n) >>= fun s => some s)
        rw [mergeLevel_eq hlevel hpgm]
        cases DynamicPgm.mergeLevel ops mod s (minLevel + 1 + n) <;> rfl
      · intro s' hs'
        apply hmid.step (hlevels n (Nat.lt_succ_self n))
        simpa using hs'

omit [LinearOrder K] in
theorem mergeStart_merged {first : List (Item K)} {sizeHint targetSize : Nat} {start : MergeState K G}
    (h : mergeStart memory idx first sizeHint targetSize mod = some start) : Merged idx 0 start := by
  have hstart : start.index = idx ∧ start.actualSize = firstLevelMaxSize + 1 := by
    rw [mergeStart] at h
    split at h
    · obtain ⟨tmp, -, rfl⟩ := Option.map_eq_some_iff.mp h
      exact ⟨rfl, rfl⟩
    · obtain ⟨tmp, -, rfl⟩ := Option.map_eq_some_iff.mp h
      exact ⟨rfl, rfl⟩
  obtain ⟨hindex, hsize⟩ := hstart
  refine ⟨by rw [hindex], by rw [hindex], by rw [hindex], fun j => ?_, ?_⟩
  · rw [hindex, if_neg (by omega)]
  · rw [hsize]
    exact Nat.le_add_right _ _

omit [LinearOrder K] in
theorem resize_length (memory : Memory K) (xs : List (Item K)) (n : Nat) :
    (resize memory xs n).length = n := by
  rw [resize, List.length_append, List.length_take, List.length_drop, allocate_length]
  omega

/-- The levels in use exist, with an index where they need one, and no level is larger than its
number allows. -/
structure Indexable (idx : Index K G) : Prop where
  used : minLevel ≤ idx.usedLevels
  allocated : idx.usedLevels ≤ minLevel + idx.data.length
  buffer : minLevel < minLevel + idx.data.length
  indexed : idx.usedLevels ≤ minIndexedLevel + idx.pgm.length
  unused : ∀ i, idx.usedLevels ≤ i → idx.getLevel i = []
  fits : ∀ i, minLevel < i → (idx.getLevel i).length ≤ 2 ^ i
  buffer_fits : (idx.getLevel minLevel).length ≤ firstLevelMaxSize

section Indexable

omit [LinearOrder K]

theorem Indexable.hasLevel (h : Indexable idx) (hmin : minLevel ≤ i) (hi : i < idx.usedLevels) :
    HasLevel idx i := ⟨hmin, hi.trans_le h.allocated⟩

theorem Indexable.hasPgm (h : Indexable idx) (hi : i < idx.usedLevels) (hmin : minIndexedLevel ≤ i) :
    HasPgm idx i := ⟨hmin, hi.trans_le h.indexed⟩

theorem Indexable.hasBuffer (h : Indexable idx) : HasLevel idx minLevel := ⟨le_rfl, h.buffer⟩

end Indexable

/-- A merge into a level in use stays in range, and what it gives is in order if the level has
room. -/
theorem pairwiseLogarithmicMerge_eq (h : Indexable idx) (htarget : minLevel + 1 + n < idx.usedLevels)
    (hroom : firstLevelMaxSize + 1 + sizeUp idx.getLevel n +
      (idx.getLevel (minLevel + 1 + n)).length ≤ 2 ^ (minLevel + 1 + n))
    (newItem : Item K) (sizeHint : Nat) (front back : List (Item K)) :
    pairwiseLogarithmicMerge ops memory idx newItem (minLevel + n) sizeHint front back =
        lift (DynamicPgm.pairwiseLogarithmicMerge ops memory idx newItem (minLevel + n) sizeHint front
          back) ∧
      ∀ idx', DynamicPgm.pairwiseLogarithmicMerge ops memory idx newItem (minLevel + n) sizeHint front
        back = some idx' → Indexable idx' := by
  have hnext : minLevel + n + 1 = minLevel + 1 + n := by omega
  have hlevel : HasLevel idx (minLevel + 1 + n) := h.hasLevel (by omega) htarget
  simp only [pairwiseLogarithmicMerge, DynamicPgm.pairwiseLogarithmicMerge, hnext,
    getLevel_eq hlevel, ok_bind]
  generalize hlimit : (if (idx.getLevel (minLevel + 1 + n)).isEmpty then minLevel + n
    else minLevel + 1 + n) = limit
  -- The rounds of the loop, the one for the target included if it holds items.
  have hrounds : limit - minLevel ≤ n + 1 ∧ sizeUp idx.getLevel (limit - minLevel) ≤
      sizeUp idx.getLevel n + (idx.getLevel (minLevel + 1 + n)).length := by
    rw [← hlimit]
    split
    · rw [show minLevel + n - minLevel = n by omega]
      exact ⟨Nat.le_succ n, Nat.le_add_right _ _⟩
    · rw [show minLevel + 1 + n - minLevel = n + 1 by omega, sizeUp_succ]
      exact ⟨le_rfl, le_rfl⟩
  cases hstart : mergeStart memory idx (front ++ newItem :: back) sizeHint
      (idx.getLevel (minLevel + 1 + n)).length ((minLevel + n - minLevel) % 2) with
  | none => exact ⟨rfl, fun idx' h => by cases h⟩
  | some start =>
    have hlevels : ∀ j < limit - minLevel, HasLevel idx (minLevel + 1 + j) := fun j hj =>
      h.hasLevel (by omega) (by omega)
    obtain ⟨heq, hmerged⟩ := mergeLevels_eq ops ((minLevel + n - minLevel) % 2) hlevels
      (fun j hj => h.hasPgm (by omega)) (mergeStart_merged hstart)
    simp only [lift_some, ok_bind, Option.bind_eq_bind, Option.bind_some]
    rw [heq]
    cases hs : (List.range' (minLevel + 1) (limit - minLevel)).foldlM
        (DynamicPgm.mergeLevel ops ((minLevel + n - minLevel) % 2)) start with
    | none => exact ⟨rfl, fun idx' h => by cases h⟩
    | some s =>
      have hs' := hmerged s hs
      have hbuffer : HasLevel s.index minLevel := by
        simpa [HasLevel, hs'.data_length] using h.hasBuffer
      have hlevel' : ∀ level, HasLevel (s.index.setLevel minLevel level) (minLevel + 1 + n) := by
        simpa [HasLevel, hs'.data_length] using hlevel
      have hpgm : ∀ level, minIndexedLevel ≤ minLevel + 1 + n → HasPgm ((s.index.setLevel minLevel
          []).setLevel (minLevel + 1 + n) level) (minLevel + 1 + n) := by
        simpa [HasPgm, hs'.pgm_length] using h.hasPgm htarget
      constructor
      · simp only [lift_some, ok_bind, setLevel_eq hbuffer, setLevel_eq (hlevel' []), setPgm_eq (hpgm _)]
        rfl
      · intro idx' hidx'
        obtain rfl := Option.some.inj hidx'
        have hget : ∀ j, (((s.index.setLevel minLevel []).setLevel (minLevel + 1 + n)
            (resize memory s.tmpB s.actualSize)).getLevel j) = if j = minLevel + 1 + n then
              resize memory s.tmpB s.actualSize else if j = minLevel then []
              else if minLevel < j ∧ j < minLevel + 1 + (limit - minLevel) then []
              else idx.getLevel j := fun j => by
          rw [Index.getLevel_setLevel (by omega) (hlevel' []).2,
            Index.getLevel_setLevel le_rfl hbuffer.2, hs'.levels]
        refine ⟨?_, ?_, ?_, ?_, fun i hi => ?_, fun i hi => ?_, ?_⟩
        · simpa [hs'.used] using h.used
        · simpa [hs'.used, hs'.data_length] using h.allocated
        · simpa [hs'.data_length] using h.buffer
        · simpa [hs'.used, hs'.pgm_length] using h.indexed
        · have hi' : idx.usedLevels ≤ i := by simpa [hs'.used] using hi
          rw [Index.getLevel_setPgm, hget, if_neg (by omega), if_neg (by omega), h.unused i hi',
            ite_self]
        · rw [Index.getLevel_setPgm, hget, if_neg (show i ≠ minLevel by omega)]
          split
          · next heq =>
            have hsize := hs'.size
            rw [resize_length, heq]
            omega
          · split
            · exact Nat.zero_le _
            · exact h.fits i hi
        · rw [Index.getLevel_setPgm, hget, if_neg (by omega), if_pos rfl]
          exact Nat.zero_le _

omit [LinearOrder K] in
theorem targetLoop_eq (h : Indexable idx) (hmin : minLevel < i) (hi : i + n ≤ idx.usedLevels)
    (slotsRequired : Nat) :
    targetLoop idx n i slotsRequired = .ok (DynamicPgm.targetLoop idx n i slotsRequired) := by
  induction n generalizing i slotsRequired with
  | zero => rfl
  | succ n ih =>
    rw [targetLoop, DynamicPgm.targetLoop, getLevel_eq (h.hasLevel hmin.le (by omega)), ok_bind,
      check_of (h.fits i hmin), ok_bind]
    split
    · rfl
    · exact ih (by omega) (by omega) _

omit [LinearOrder K] in
theorem Indexable.sizeUp_le (h : Indexable idx) (n : Nat) :
    firstLevelMaxSize + 1 + sizeUp idx.getLevel n ≤ 2 ^ (minLevel + 1 + n) := by
  induction n with
  | zero => exact le_of_eq rfl
  | succ n ih =>
    have hfits := h.fits (minLevel + 1 + n) (by omega)
    rw [sizeUp_succ, show minLevel + 1 + (n + 1) = minLevel + 1 + n + 1 by omega, Nat.pow_succ]
    omega

omit [LinearOrder K] in
theorem size_eq (h : minLevel < idx.usedLevels) :
    idx.size = (idx.getLevel minLevel).length +
      sizeUp idx.getLevel (idx.usedLevels - (minLevel + 1)) := by
  have hlevels : idx.levels =
      minLevel :: List.range' (minLevel + 1) (idx.usedLevels - (minLevel + 1)) := by
    rw [Index.levels, ← List.range'_succ]
    congr
    omega
  rw [Index.size, hlevels, List.map_cons, List.sum_cons]
  rfl

omit [LinearOrder K] in
theorem Indexable.addLevel (h : Indexable idx) : Indexable (DynamicPgm.addLevel ops idx) where
  used := h.used.trans (Nat.le_succ _)
  allocated := by
    have hallocated := h.allocated
    rw [addLevel_usedLevels, addLevel_data_length]
    omega
  buffer := by
    rw [addLevel_data_length]
    omega
  indexed := by
    have hindexed := h.indexed
    simp only [DynamicPgm.addLevel]
    split
    · rw [List.length_append, List.length_singleton]
      omega
    · omega
  unused i hi := by
    rw [addLevel_getLevel]
    exact h.unused i ((Nat.le_succ _).trans hi)
  fits i hi := by
    rw [addLevel_getLevel]
    exact h.fits i hi
  buffer_fits := by
    rw [addLevel_getLevel]
    exact h.buffer_fits

/-- One more item in the buffer. -/
theorem Indexable.extend (h : Indexable idx) {newItem : Item K}
    (hroom : (idx.getLevel minLevel).length < firstLevelMaxSize) :
    Indexable { idx.setLevel minLevel (extended idx newItem) with
      usedLevels := if idx.usedLevels = minLevel then minLevel + 1 else idx.usedLevels } := by
  have hget : ∀ j, (idx.setLevel minLevel (extended idx newItem)).getLevel j =
      if j = minLevel then extended idx newItem else idx.getLevel j :=
    Index.getLevel_setLevel le_rfl h.buffer _
  have hused := h.used
  have hallocated := h.allocated
  have hindexed := h.indexed
  have hbuffer := h.buffer
  refine ⟨?_, ?_, ?_, ?_, fun i hi => ?_, fun i hi => ?_, ?_⟩
  · dsimp only
    split <;> omega
  · simp only [Index.setLevel_data_length]
    split <;> omega
  · simpa using hbuffer
  · have hlt : minLevel + 1 ≤ minIndexedLevel := by decide
    simp only [Index.setLevel_pgm]
    split <;> omega
  · refine (hget i).trans ?_
    dsimp only at hi
    rw [if_neg (by split at hi <;> omega), h.unused i (by split at hi <;> omega)]
  · exact ((hget i).trans (if_neg (by omega))).symm ▸ h.fits i hi
  · refine (congrArg List.length ((hget minLevel).trans (if_pos rfl))).trans_le ?_
    rw [extended_length]
    exact hroom

omit [LinearOrder K] in
/-- `used_levels` stays far below 256, as a further level needs a full one below it. -/
theorem used_lt (hsize : idx.size < 2 ^ 64)
    (hfull : (idx.getLevel minLevel).length = firstLevelMaxSize) (hused : minLevel + 1 + n = idx.usedLevels)
    (hbelow : ∀ l < n, ¬firstLevelMaxSize + 1 + sizeUp idx.getLevel l ≤
      2 ^ (minLevel + 1 + l) - (idx.getLevel (minLevel + 1 + l)).length) :
    idx.usedLevels + 1 < 2 ^ 8 := by
  cases n with
  | zero =>
    rw [← hused]
    decide
  | succ n =>
    have hlast := hbelow n (Nat.lt_succ_self n)
    have hsize' := size_eq (show minLevel < idx.usedLevels by omega)
    rw [show idx.usedLevels - (minLevel + 1) = n + 1 by omega, sizeUp_succ, hfull] at hsize'
    have hpow : 2 ^ (minLevel + 1 + n) < 2 ^ 65 := by
      rw [show (2 : Nat) ^ 65 = 2 ^ 64 + 2 ^ 64 by decide]
      omega
    have hlt := (Nat.pow_lt_pow_iff_right (by decide)).mp hpow
    omega

/-- The model with checks does what the one without does, until it overruns one of the vectors of
a merge, and every state it gets to is in order again. -/
theorem insert_eq (h : Indexable idx) (hsize : idx.size < 2 ^ 64) (newItem : Item K) :
    insert ops memory idx newItem = lift (DynamicPgm.insert ops memory idx newItem) ∧
      ∀ idx', DynamicPgm.insert ops memory idx newItem = some idx' → Indexable idx' := by
  rw [insert, DynamicPgm.insert, getLevel_eq h.hasBuffer, ok_bind]
  dsimp only
  split
  · exact ⟨rfl, fun idx' hidx' => Option.some.inj hidx' ▸ h⟩
  · split
    · next hroom =>
      exact ⟨rfl, fun idx' hidx' => Option.some.inj hidx' ▸ h.extend hroom⟩
    · next hfull =>
      have hlen : (idx.getLevel minLevel).length = firstLevelMaxSize :=
        le_antisymm h.buffer_fits (not_lt.mp hfull)
      have hused : minLevel + 1 ≤ idx.usedLevels := by
        by_contra hlt
        rw [h.unused minLevel (by omega)] at hlen
        cases hlen
      obtain ⟨n, hn, htarget, hstop, hbelow⟩ := mergeTarget_spec hused
      have hchecked : mergeTarget idx = .ok (DynamicPgm.mergeTarget idx) :=
        targetLoop_eq h (Nat.lt_succ_self _) (by omega) _
      have hupTo : minLevel + 1 + n - 1 = minLevel + n := by omega
      rw [hchecked, ok_bind, htarget]
      dsimp only
      rw [hupTo]
      by_cases hnew : minLevel + 1 + n = idx.usedLevels
      · have hempty := h.unused (minLevel + 1 + n) hnew.ge
        have hadded : Indexable (DynamicPgm.addLevel ops idx) := h.addLevel
        have htarget' : minLevel + 1 + n < (DynamicPgm.addLevel ops idx).usedLevels := by
          rw [addLevel_usedLevels]
          omega
        rw [if_pos hnew, if_pos hnew, addLevel, check_of (used_lt hsize hlen hnew hbelow)]
        refine pairwiseLogarithmicMerge_eq hadded htarget' ?_ newItem _ _ _
        rw [addLevel_getLevel, hempty]
        exact h.sizeUp_le n
      · have hroom := hstop.resolve_left hnew
        rw [if_neg hnew, if_neg hnew, pure_bind]
        have htarget' : minLevel + 1 + n < idx.usedLevels := by omega
        exact pairwiseLogarithmicMerge_eq h htarget' (by omega) newItem _ _ _

end Agreement

end LearnedIndex.DynamicPgm.Checked
