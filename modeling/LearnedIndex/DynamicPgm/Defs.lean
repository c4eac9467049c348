import LearnedIndex.Search
import LearnedIndex.Util
import Mathlib.Data.List.Sort
import Mathlib.Data.Nat.Log

/-! `DynamicPGMIndex` and its wrapper `DynamicPGM`: a sorted buffer and levels of sorted
vectors that are merged pairwise.  The static PGM over a large level and the content of
freshly allocated memory are parameters; `none` stands for undefined behaviour. -/

universe u v

namespace LearnedIndex.DynamicPgm

open Util SortedList

structure Item (K : Type u) where
  second : UInt64
  flag : Bool
  first : K
  deriving DecidableEq, Repr

variable {K : Type u} {G : Type v}

namespace Item

def key (x : Item K) : K := x.first
def value (x : Item K) : UInt64 := x.second
def deleted (x : Item K) : Bool := x.flag

/-- `Item(key, value)`. -/
def ofPair (kv : KeyValue K) : Item K := ⟨kv.value, false, kv.key⟩

def pair (x : Item K) : KeyValue K := ⟨x.key, x.value⟩

@[simp] theorem key_ofPair (kv : KeyValue K) : (ofPair kv).key = kv.key := rfl
@[simp] theorem value_ofPair (kv : KeyValue K) : (ofPair kv).value = kv.value := rfl
@[simp] theorem deleted_ofPair (kv : KeyValue K) : (ofPair kv).deleted = false := rfl
@[simp] theorem pair_ofPair (kv : KeyValue K) : (ofPair kv).pair = kv := rfl

end Item

def minLevel : Nat := 6
def initLevels : Nat := 15
def minIndexedLevel : Nat := 18
def maxFullyAllocatedLevel : Nat := 15

/-- The capacity of the buffer. -/
def firstLevelMaxSize : Nat := 2 ^ (minLevel + 1) - 1

structure ApproxPos where
  pos : Nat
  lo : Nat
  hi : Nat

/-- The static PGM-index over the keys of one level. -/
structure Pgm (K : Type u) (G : Type v) where
  empty : G
  build : List K → G
  findApproximatePosition : G → K → ApproxPos

/-- The window around an approximate position contains the lower bound of the key. -/
def Pgm.Window [LinearOrder K] (ops : Pgm K G) : Prop :=
  ∀ (ks : List K) (key : K), ks.Pairwise (· ≤ ·) →
    let p := ops.findApproximatePosition (ops.build ks) key
    p.lo ≤ p.pos ∧ p.pos ≤ p.hi ∧ p.hi ≤ ks.length ∧ p.lo ≤ rank ks key ∧ rank ks key ≤ p.hi

/-- The range of a key is inside the keys.  It does not begin behind the lower bound of the key,
and if the key is there it does not end in front of it. -/
def Pgm.Guides [LinearOrder K] (ops : Pgm K G) (ks : List K) : Prop := ∀ key,
  let p := ops.findApproximatePosition (ops.build ks) key
  p.lo ≤ p.pos ∧ p.pos ≤ p.hi ∧ p.hi ≤ ks.length ∧ p.lo ≤ rank ks key ∧ (key ∈ ks → rank ks key ≤ p.hi)

theorem Pgm.Window.guides [LinearOrder K] {ops : Pgm K G} (hwindow : ops.Window) {ks : List K} (hks : ks.Pairwise (· ≤ ·)) :
    ops.Guides ks := by
  intro key
  obtain ⟨hlo, hpos, hhi, hrankLo, hrankHi⟩ := hwindow ks key hks
  exact ⟨hlo, hpos, hhi, hrankLo, fun _ => hrankHi⟩

/-- An index whose approximate positions are exact. -/
def Pgm.exact [LinearOrder K] : Pgm K (List K) where
  empty := []
  build := id
  findApproximatePosition ks key := ⟨rank ks key, rank ks key, rank ks key⟩

theorem Pgm.exact_window [LinearOrder K] : (Pgm.exact : Pgm K (List K)).Window :=
  fun ks key _ => ⟨le_rfl, le_rfl, rank_le_length ks key, le_rfl, le_rfl⟩

structure Index (K : Type u) (G : Type v) where
  usedLevels : Nat
  data : List (List (Item K))
  pgm : List G

namespace Index

def getLevel (idx : Index K G) (i : Nat) : List (Item K) :=
  if minLevel ≤ i then idx.data.getD (i - minLevel) [] else []

def setLevel (idx : Index K G) (i : Nat) (level : List (Item K)) : Index K G :=
  if minLevel ≤ i then { idx with data := idx.data.set (i - minLevel) level } else idx

def getPgm (ops : Pgm K G) (idx : Index K G) (i : Nat) : G :=
  idx.pgm.getD (i - minIndexedLevel) ops.empty

/-- Changes the index on a level, if the level is large enough to have one. -/
def setPgm (idx : Index K G) (i : Nat) (g : G) : Index K G :=
  if minIndexedLevel ≤ i then { idx with pgm := idx.pgm.set (i - minIndexedLevel) g } else idx

/-- The levels in use, from the buffer up. -/
def levels (idx : Index K G) : List Nat := List.range' minLevel (idx.usedLevels - minLevel)

/-- The default constructor with this many levels allocated; its loop reserves space on
every level up to `max_fully_allocated_level`. -/
def empty (allocated : Nat) : Option (Index K G) :=
  if maxFullyAllocatedLevel < minLevel + allocated then
    some ⟨minLevel, List.replicate allocated [], []⟩
  else none

/-- The constructor on sorted data, with the same loop. -/
def ofSorted (ops : Pgm K G) (data : List (KeyValue K)) : Option (Index K G) :=
  let usedLevels := Nat.clog 2 data.length + 1
  let top := usedLevels - 1
  if maxFullyAllocatedLevel < usedLevels then
    some {
      usedLevels := usedLevels
      data := (List.replicate (usedLevels - minLevel) []).set (top - minLevel)
        (data.map Item.ofPair)
      pgm :=
        if minIndexedLevel ≤ top then
          (List.replicate (usedLevels - minIndexedLevel) ops.empty).set (top - minIndexedLevel)
            (ops.build (keys data))
        else [] }
  else none

end Index

section Insert

variable [LinearOrder K]

/-- `merge` with a first range that starts with `x`; `rest` merges what follows `x`. -/
def mergeHead (skipDeleted : Bool) (x : Item K) (xs : List (Item K))
    (rest : List (Item K) → List (Item K)) : List (Item K) → List (Item K)
  | [] => x :: xs
  | y :: ys =>
    if y.key < x.key then y :: mergeHead skipDeleted x xs rest ys
    else if x.key < y.key then x :: rest (y :: ys)
    else if skipDeleted && x.deleted then rest ys
    else x :: rest ys

/-- `merge<SkipDeleted>`: of two equal keys the item of the first range survives. -/
def merge (skipDeleted : Bool) : List (Item K) → List (Item K) → List (Item K)
  | [], ys => ys
  | x :: xs, ys => mergeHead skipDeleted x xs (merge skipDeleted xs) ys

/-- What a vector holds in the positions that were allocated but never written. -/
abbrev Memory (K : Type u) := Nat → Item K

def allocate (memory : Memory K) (n : Nat) : List (Item K) := (List.range n).map memory

/-- Writing a range to the start of a vector. -/
def overwrite (dst src : List (Item K)) : Option (List (Item K)) :=
  if src.length ≤ dst.length then some (src ++ dst.drop src.length) else none

def resize (memory : Memory K) (xs : List (Item K)) (n : Nat) : List (Item K) :=
  xs.take n ++ (allocate memory n).drop xs.length

structure MergeState (K : Type u) (G : Type v) where
  tmpA : List (Item K)
  tmpB : List (Item K)
  actualSize : Nat
  index : Index K G

/-- One round of the merge loop: reads one of the two vectors and writes the other. -/
def mergeLevel (ops : Pgm K G) (mod : Nat) (s : MergeState K G) (i : Nat) :
    Option (MergeState K G) :=
  let canDeletePermanently := i = s.index.usedLevels - 1
  let index := (s.index.setLevel i []).setPgm i ops.empty
  if (i - minLevel) % 2 = mod then
    let out := merge canDeletePermanently (s.tmpA.take s.actualSize) (s.index.getLevel i)
    (overwrite s.tmpB out).map fun tmpB => ⟨s.tmpA, tmpB, out.length, index⟩
  else
    let out := merge canDeletePermanently (s.tmpB.take s.actualSize) (s.index.getLevel i)
    (overwrite s.tmpA out).map fun tmpA => ⟨tmpA, s.tmpB, out.length, index⟩

/-- The two vectors, one of them with the buffer and the new item in it. -/
def mergeStart (memory : Memory K) (idx : Index K G) (first : List (Item K))
    (sizeHint targetSize mod : Nat) : Option (MergeState K G) :=
  let tmpA := allocate memory sizeHint
  let tmpB := allocate memory (sizeHint + targetSize)
  let actualSize := 2 ^ (1 + minLevel)
  if mod = 1 then (overwrite tmpA first).map fun tmpA => ⟨tmpA, tmpB, actualSize, idx⟩
  else (overwrite tmpB first).map fun tmpB => ⟨tmpA, tmpB, actualSize, idx⟩

/-- `front` and `back` are the buffer before and behind the insertion point. -/
def pairwiseLogarithmicMerge (ops : Pgm K G) (memory : Memory K) (idx : Index K G)
    (newItem : Item K) (upToLevel sizeHint : Nat) (front back : List (Item K)) :
    Option (Index K G) := do
  let targetLevel := upToLevel + 1
  let target := idx.getLevel targetLevel
  let mod := (upToLevel - minLevel) % 2
  let start ← mergeStart memory idx (front ++ newItem :: back) sizeHint target.length mod
  let limit := if target.isEmpty then upToLevel else upToLevel + 1
  let s ← (List.range' (minLevel + 1) (limit - minLevel)).foldlM (mergeLevel ops mod) start
  let merged := resize memory s.tmpB s.actualSize
  return ((s.index.setLevel minLevel []).setLevel targetLevel merged).setPgm targetLevel
    (ops.build (merged.map Item.key))

/-- The level that receives the merge, and the number of slots it takes; `n` more levels
are in use from `i` on. -/
def targetLoop (idx : Index K G) : Nat → Nat → Nat → Nat × Nat
  | 0, i, slotsRequired => (i, slotsRequired)
  | n + 1, i, slotsRequired =>
    if slotsRequired ≤ 2 ^ i - (idx.getLevel i).length then (i, slotsRequired)
    else targetLoop idx n (i + 1) (slotsRequired + (idx.getLevel i).length)

def mergeTarget (idx : Index K G) : Nat × Nat :=
  targetLoop idx (idx.usedLevels - (minLevel + 1)) (minLevel + 1) (firstLevelMaxSize + 1)

/-- Takes one more level into use. -/
def addLevel (ops : Pgm K G) (idx : Index K G) : Index K G where
  usedLevels := idx.usedLevels + 1
  data := idx.data ++ [[]]
  pgm := if minIndexedLevel + idx.pgm.length ≤ idx.usedLevels then idx.pgm ++ [ops.empty] else idx.pgm

/-- The buffer before the insertion point. -/
def bufferFront (idx : Index K G) (newItem : Item K) : List (Item K) :=
  (idx.getLevel minLevel).takeWhile fun x => decide (x.key < newItem.key)

/-- The buffer from the insertion point on. -/
def bufferBack (idx : Index K G) (newItem : Item K) : List (Item K) :=
  lowerBound Item.key newItem.key (idx.getLevel minLevel)

/-- Only an item with the same key and the same value is taken for a duplicate. -/
def isDuplicate (idx : Index K G) (newItem : Item K) : Bool :=
  (bufferBack idx newItem).head?.any fun x => x.key = newItem.key ∧ x.value = newItem.value

def insert (ops : Pgm K G) (memory : Memory K) (idx : Index K G) (newItem : Item K) :
    Option (Index K G) :=
  let front := bufferFront idx newItem
  let back := bufferBack idx newItem
  if isDuplicate idx newItem then some idx
  else if (idx.getLevel minLevel).length < firstLevelMaxSize then
    some { idx.setLevel minLevel (front ++ newItem :: back) with
      usedLevels := if idx.usedLevels = minLevel then minLevel + 1 else idx.usedLevels }
  else
    let (i, slotsRequired) := mergeTarget idx
    let idx := if i = idx.usedLevels then addLevel ops idx else idx
    pairwiseLogarithmicMerge ops memory idx newItem (i - 1) slotsRequired front back

/-- The level that an insert merges into, if it merges at all. -/
def mergesInto (idx : Index K G) (newItem : Item K) : Option Nat :=
  if isDuplicate idx newItem then none
  else if (idx.getLevel minLevel).length < firstLevelMaxSize then none
  else some (mergeTarget idx).1

/-- `DynamicPGM::Insert`. -/
def insertPair (ops : Pgm K G) (memory : Memory K) (idx : Index K G) (kv : KeyValue K) :
    Option (Index K G) :=
  insert ops memory idx (.ofPair kv)

end Insert

section Query

variable [LinearOrder K] (search : Search K) (ops : Pgm K G)

/-- What the search on level `i` finds: the level from the lower bound on. -/
def levelLowerBound (idx : Index K G) (i : Nat) (key : K) : List (Item K) :=
  let level := idx.getLevel i
  if i < minIndexedLevel then lowerBound Item.key key level
  else if level.isEmpty then []
  else
    let p := ops.findApproximatePosition (idx.getPgm ops i) key
    level.drop (search.lowerBound (level.map Item.key) p.lo p.hi key p.pos)

/-- `find`: the levels are asked from the buffer up, and the first that has the key answers. -/
def find (idx : Index K G) (key : K) : Option (Item K) := do
  let x ← idx.levels.findSome? fun i =>
    (levelLowerBound search ops idx i key).head?.filter fun x => x.key = key
  if x.deleted then none else some x

/-- `DynamicPGM::EqualityLookup`. -/
def equalityLookup (idx : Index K G) (key : K) : UInt64 :=
  (find search ops idx key).elim overflow Item.value

/-- An iterator into a level that is not at its end. -/
structure Position (K : Type u) where
  item : Item K
  rest : List (Item K)

def Position.items (p : Position K) : List (Item K) := p.item :: p.rest

def position : List (Item K) → Option (Position K)
  | [] => none
  | x :: xs => some ⟨x, xs⟩

/-- A position and its level. -/
abbrev QueuePair (K : Type u) := Position K × Nat

/-- Whether `e₁` leaves the queue after `e₂`. -/
def queueCmp (e₁ e₂ : QueuePair K) : Prop :=
  e₂.1.item.key < e₁.1.item.key ∨ e₁.1.item.key = e₂.1.item.key ∧ e₂.2 < e₁.2

instance : DecidableRel (queueCmp (K := K)) := fun _ _ => inferInstanceAs (Decidable (_ ∨ _))

/-- A priority queue lists its pairs in the order in which they leave it. -/
def makeQueue (pairs : List (QueuePair K)) : List (QueuePair K) :=
  pairs.insertionSort fun e₁ e₂ => ¬queueCmp e₁ e₂

def emplace (e : QueuePair K) (queue : List (QueuePair K)) : List (QueuePair K) :=
  queue.orderedInsert (fun e₁ e₂ => ¬queueCmp e₁ e₂) e

/-- A `DynamicPGMIndexIterator` other than `end()`; `level` is `none` once the queue has
been initialised. -/
structure Iterator (K : Type u) where
  it : Position K
  level : Option Nat
  initialPairs : List (QueuePair K)
  queue : List (QueuePair K)

/-- `none` is `end()`. -/
def advanceQueue (iter : Iterator K) : Option (Iterator K) :=
  match iter.queue with
  | [] => none
  | (top, level) :: queue =>
    let queue := (position top.rest).elim queue fun p => emplace (p, level) queue
    some { iter with it := top, queue := queue }

/-- The levels from `from` on, positioned at the key of the iterator. -/
def pairsFrom (idx : Index K G) (start : Nat) (key : K) : List (QueuePair K) :=
  (List.range' start (idx.usedLevels - start)).filterMap fun i =>
    (position ((levelLowerBound search ops idx i key).dropWhile fun x => decide (x.key < key))).map
      fun p => (p, i)

/-- `some none` is `end()`; a level below the buffer does not exist. -/
def lazyInitializeQueue (idx : Index K G) (iter : Iterator K) : Option (Option (Iterator K)) :=
  match iter.level with
  | none => some (some iter)
  | some level =>
    if level < minLevel ∧ level < idx.usedLevels then none
    else
      let pairs := iter.initialPairs ++ pairsFrom search ops idx level iter.it.item.key
      let queued := { iter with initialPairs := pairs, queue := makeQueue pairs }
      some ((advanceQueue queued).map fun iter => { iter with level := none })

/-- `operator++`. -/
def Iterator.next (idx : Index K G) (iter : Iterator K) : Option (Option (Iterator K)) :=
  (lazyInitializeQueue search ops idx iter).map fun iter => iter.bind advanceQueue

/-- The first position of a level that `lower_bound` takes into account. -/
def startPosition (idx : Index K G) (i : Nat) (key : K) : Option (Position K) :=
  let found := levelLowerBound search ops idx i key
  if i < minIndexedLevel then position (found.dropWhile Item.deleted)
  else position (found.dropWhile fun x => decide (x.key < key))

/-- The position with the smallest key, the first of them for equal keys. -/
def smallest (pairs : List (QueuePair K)) : Option (Position K) :=
  pairs.foldl (fun lo e =>
    match lo with
    | none => some e.1
    | some p => if e.1.item.key < p.item.key then some e.1 else some p) none

/-- `lower_bound`. -/
def lowerBoundIter (idx : Index K G) (key : K) : Option (Iterator K) :=
  let pairs := idx.levels.filterMap fun i => (startPosition search ops idx i key).map fun p => (p, i)
  (smallest pairs).map fun lo => ⟨lo, some idx.usedLevels, pairs, []⟩

/-- The number of items in the index. -/
def Index.size (idx : Index K G) : Nat := (idx.levels.map fun i => (idx.getLevel i).length).sum

/-- The loop of `RangeQuery`, for at most `fuel` steps. -/
def rangeLoop (idx : Index K G) (upperKey : K) :
    Nat → Option (Iterator K) → UInt64 → Option UInt64
  | _, none, result => some result
  | 0, some _, _ => none
  | fuel + 1, some iter, result =>
    if iter.it.item.key ≤ upperKey then
      (iter.next search ops idx).bind fun next =>
        rangeLoop idx upperKey fuel next (result + iter.it.item.value)
    else some result

/-- `DynamicPGM::RangeQuery`; no loop takes more steps than there are items. -/
def rangeQuery (idx : Index K G) (lowerKey upperKey : K) : Option UInt64 :=
  rangeLoop search ops idx upperKey (idx.size + 1) (lowerBoundIter search ops idx lowerKey) 0

end Query

end LearnedIndex.DynamicPgm
