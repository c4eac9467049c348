import LearnedIndex.Oracle
import LearnedIndex.SortedList
import LearnedIndex.Util
import Mathlib.Data.List.Perm.Basic
import Mathlib.Data.Rat.Floor

/-! The workload generator.  Random draws and the order in which sorting leaves equal
keys come from a tape; the arithmetic of doubles is a parameter. -/

namespace LearnedIndex.Workload

open Util SortedList Oracle

/-- What the generator computes with `double`. -/
class Double (D : Type) extends Add D, Sub D, Mul D, NatCast D, OfScientific D where
  lt : D → D → Bool
  le : D → D → Bool
  /-- The conversion to an integer type. -/
  trunc : D → Nat

open Double

instance : Double Float where
  natCast := Float.ofNat
  lt a b := a < b
  le a b := a ≤ b
  trunc a := a.toUInt64.toNat

/-- Exact arithmetic in place of rounding. -/
instance : Double ℚ where
  lt a b := a < b
  le a b := a ≤ b
  trunc a := a.floor.toNat

inductive Op
  | lookup
  | rangeQuery
  | insert
  deriving DecidableEq, Repr

/-- A workload operation; a value-initialised one is a `lookup`. -/
structure Operation (K : Type) where
  op : Op := .lookup
  loKey : K
  hiKey : K
  result : UInt64 := 0
  deriving DecidableEq, Repr

variable {K D : Type}

instance [Inhabited K] : Inhabited (Operation K) := ⟨{ loKey := default, hiKey := default }⟩

/-- A vector of keys, as `load_data` reads it behind its 64-bit size. -/
structure Dataset (K : Type) where
  keys : List K
  size_lt : keys.length < 2 ^ 64

def addValues (keys : List K) : List (KeyValue K) :=
  keys.mapIdx fun i key => ⟨key, UInt64.ofNat i⟩

/-- What the three key types do differently. -/
structure KeyType (K D : Type) where
  isString : Bool
  /-- `(ranny.ScaleFactor() * (max_key - min_key)) + min_key`. -/
  scale : D → K → K → K
  /-- The cap on `max_key` for the 64-bit keys of one dataset. -/
  cap : Option K

inductive Draw (K D : Type)
  | scaleFactor (f : D)
  | randUint32 (n : Nat)
  | shuffle (permute : List Nat)
  | sort (sorted : List (KeyValue K))
  | sample (chosen : List (KeyValue K))
  deriving DecidableEq

abbrev Gen (K D : Type) := Oracle (Draw K D)

/-- `a - b` in `size_t`. -/
def sizeSub (a b : Nat) : Nat := (a + 2 ^ 64 - b) % 2 ^ 64

section Draws

def scaleFactor : Gen K D D :=
  next fun
    | .scaleFactor f => some f
    | _ => none

/-- `RandUint32(0, hi)`: the bound is cut to 32 bits, and the remainder by the size of
the interval is undefined when that size is 2^32. -/
def randUint32 (hi : Nat) : Gen K D Nat :=
  next fun
    | .randUint32 n => if hi % 2 ^ 32 ≠ 2 ^ 32 - 1 ∧ n ≤ hi % 2 ^ 32 then some n else none
    | _ => none

def shuffle (xs : List Nat) : Gen K D (List Nat) :=
  next fun
    | .shuffle ys => if ys.isPerm xs then some ys else none
    | _ => none

variable [LinearOrder K]

/-- `std::sort` by key. -/
def sort (xs : List (KeyValue K)) : Gen K D (List (KeyValue K)) :=
  next fun
    | .sort ys => if ys.isPerm xs ∧ Sorted KeyValue.key ys then some ys else none
    | _ => none

/-- `std::sample`, which keeps the order of the population. -/
def sample (population : List (KeyValue K)) (n : Nat) : Gen K D (List (KeyValue K)) :=
  next fun
    | .sample ys =>
      if ys.Sublist population ∧ ys.length = min n population.length then some ys else none
    | _ => none

end Draws

def generatePermute (lo hi : Nat) (isShuffle : Bool) : Gen K D (List Nat) := do
  require (lo ≤ hi)
  let permute := List.range' lo (hi - lo)
  if isShuffle then shuffle permute else return permute

/-- `permute[pos ++] = cur ++`, `count` times. -/
def fill (pos cur : Nat) : Nat → List Nat → Option (List Nat)
  | 0, permute => some permute
  | count + 1, permute =>
    if pos < permute.length then fill (pos + 1) (cur + 1) count (permute.set pos cur) else none

structure BlockCursor where
  permute : List Nat
  cur : Nat
  insertCur : Nat
  lookupCur : Nat
  rangeQueryCur : Nat

def generatePermuteBlockwise (opCnt insertCnt rangeQueryCnt lookupCnt blockNum : Nat) :
    Option (List Nat) := do
  let start : BlockCursor :=
    ⟨List.replicate opCnt 0, 0, 0, insertCnt, insertCnt + lookupCnt⟩
  let done ← (List.range blockNum).foldlM (fun c i => do
    let last := i = blockNum - 1
    let inserts := if last then sizeSub insertCnt c.insertCur else insertCnt / blockNum
    let ranges := if last then sizeSub opCnt c.rangeQueryCur else rangeQueryCnt / blockNum
    let lookups :=
      if last then sizeSub (insertCnt + lookupCnt) c.lookupCur else lookupCnt / blockNum
    let permute ← fill c.insertCur c.cur inserts c.permute
    let permute ← fill c.lookupCur (c.cur + inserts) lookups permute
    let permute ← fill c.rangeQueryCur (c.cur + inserts + lookups) ranges permute
    return ⟨permute, c.cur + inserts + lookups + ranges, c.insertCur + inserts,
      c.lookupCur + lookups, c.rangeQueryCur + ranges⟩) start
  return done.permute

inductive InsertPat
  | equality
  | delta
  | hotspot
  deriving DecidableEq, Repr

/-- Changes `ops[op_id[i]]`. -/
def modifyOp (opId : List Nat) (i : Nat) (f : Operation K → Operation K)
    (ops : List (Operation K)) : Option (List (Operation K)) := do
  let p ← opId[i]?
  if p < ops.length then return ops.modify p f else none

def Operation.setInsert (kv : KeyValue K) (op : Operation K) : Operation K :=
  { op with op := .insert, loKey := kv.key, result := kv.value }

/-- The pairs that are inserted, and those that stay for the bulk load. -/
def distribute (opId : List Nat) (insertCnt : Nat) :
    Nat → List (KeyValue K) → List (Operation K) × List (KeyValue K) →
      Option (List (Operation K) × List (KeyValue K))
  | _, [], r => some r
  | i, kv :: kvs, (ops, bulkLoads) =>
    if i < insertCnt then do
      distribute opId insertCnt (i + 1) kvs (← modifyOp opId i (.setInsert kv) ops, bulkLoads)
    else distribute opId insertCnt (i + 1) kvs (ops, bulkLoads ++ [kv])

section Generate

variable [LinearOrder K] [Double D]

/-- The part of the dataset that inserts are taken from. -/
def insertRange (size insertCnt : Nat) (hotspotRatio : D) : InsertPat → Nat × Nat
  | .equality => (0, size)
  | .delta => (sizeSub size insertCnt, size)
  | .hotspot =>
    let lo := trunc ((0.3 : D) * (size : D))
    (lo, trunc ((lo : D) + hotspotRatio * (size : D)))

def generateInserts (ops : List (Operation K)) (bulkLoads : List (KeyValue K)) (opId : List Nat)
    (dataVec : List (KeyValue K)) (insertCnt : Nat) (pat : InsertPat) (hotspotRatio : D) :
    Gen K D (List (Operation K) × List (KeyValue K)) := do
  let (lo, hi) := insertRange dataVec.length insertCnt hotspotRatio pat
  require (lo ≤ dataVec.length ∧ hi ≤ dataVec.length)
  let bulkLoads := bulkLoads ++ dataVec.take lo
  if pat = .delta then
    let (ops, bulkLoads) ← ofOption (distribute opId insertCnt 0 (dataVec.drop lo) (ops, bulkLoads))
    return (ops, bulkLoads ++ dataVec.drop hi)
  else
    let kvId ← generatePermute lo hi true
    let kvs ← ofOption (kvId.mapM fun i => dataVec[i]?)
    let (ops, bulkLoads) ← ofOption (distribute opId insertCnt 0 kvs (ops, bulkLoads))
    let sorted ← sort (bulkLoads.drop lo)
    return (ops, bulkLoads.take lo ++ sorted ++ dataVec.drop hi)

/-- `std::multimap`; the order of the values of one key is not observed. -/
structure Multimap (K : Type) [LinearOrder K] where
  pairs : List (KeyValue K)
  sorted : Sorted KeyValue.key pairs

def Multimap.empty : Multimap K := ⟨[], .nil⟩

def Multimap.emplace (m : Multimap K) (kv : KeyValue K) : Multimap K :=
  ⟨insertUpper KeyValue.key kv m.pairs, m.sorted.insertUpper kv⟩

def maxNum : Nat := 100

def maxNumRetries : Nat := 100

/-- The container a query is generated from: the multimap when there are inserts, else
the vector, which is sorted then. -/
def shadow (isInsert : Bool) (dataMap : Multimap K) (dataVec : List (KeyValue K)) :
    List (KeyValue K) :=
  if isInsert then dataMap.pairs else dataVec

def isExist (data : List (KeyValue K)) (key : K) : Bool :=
  (lowerBound KeyValue.key key data).head?.any fun kv => kv.key = key

/-- Draws until the key is not in the data. -/
def drawNegative (keyType : KeyType K D) (data : List (KeyValue K)) (minKey maxKey : K) :
    List (Draw K D) → Option (K × List (Draw K D))
  | .scaleFactor f :: tape =>
    let key := keyType.scale f minKey maxKey
    if isExist data key then drawNegative keyType data minKey maxKey tape else some (key, tape)
  | _ => none

/-- Draws one of the positions of `data_vec`. -/
def drawKey (dataVec : List (KeyValue K)) : Gen K D K := do
  let offset ← randUint32 (sizeSub dataVec.length 1)
  let kv ← ofOption dataVec[offset]?
  return kv.key

/-- Whether a lookup is to be a negative one; string keys have none. -/
def chooseNegative (keyType : KeyType K D) (negativeLookupRatio : D) : Gen K D Bool :=
  if keyType.isString = false ∧ lt ((0 : Nat) : D) negativeLookupRatio then do
    let factor ← scaleFactor
    return lt factor negativeLookupRatio
  else return false

def generateLookup (keyType : KeyType K D) (negativeLookupRatio : D)
    (data dataVec : List (KeyValue K)) (op : Operation K) : Gen K D (Operation K) := do
  let first ← ofOption data.head?
  let last ← ofOption data.getLast?
  let maxKey := keyType.cap.elim last.key (min last.key)
  if ← chooseNegative keyType negativeLookupRatio then
    let key ← drawNegative keyType data first.key maxKey
    return { op with loKey := key, result := notFound }
  else
    let key ← drawKey dataVec
    return { op with loKey := key, result := 0 }

def drawLoKey (keyType : KeyType K D) (dataVec : List (KeyValue K)) (minKey maxKey : K) :
    Gen K D K :=
  if keyType.isString then drawKey dataVec
  else do
    let factor ← scaleFactor
    return keyType.scale factor minKey maxKey

/-- One attempt at a range query; `none` when another key has to be tried. -/
def tryRangeQuery (keyType : KeyType K D) (data dataVec : List (KeyValue K)) (op : Operation K) :
    Gen K D (Option (Operation K)) := do
  let first ← ofOption data.head?
  let last ← ofOption data[sizeSub data.length (maxNum + 1)]?
  let loKey ← drawLoKey keyType dataVec first.key last.key
  if keyType.isString ∧ last.key < loKey then return none
  else
    let factor ← scaleFactor
    let lower := lowerBound KeyValue.key loKey data
    let hi ← ofOption lower[trunc ((((1 : Nat) : D) - factor * (0.05 : D)) * (maxNum : D))]?
    let qualifying := lower.takeWhile fun kv => decide (kv.key ≤ hi.key)
    let minNum := trunc ((((1 : Nat) : D) - (0.05 : D)) * (maxNum : D))
    if maxNum < qualifying.length ∨ qualifying.length < minNum then return none
    else
      let result := (qualifying.map KeyValue.value).sum
      return some { op with loKey := loKey, hiKey := hi.key, result := result }

/-- At most `retries` further attempts. -/
def generateRangeQuery (keyType : KeyType K D) (data dataVec : List (KeyValue K))
    (op : Operation K) : Nat → Gen K D (Operation K)
  | 0 => do
    match ← tryRangeQuery keyType data dataVec op with
    | some op => return op
    | none => ofOption none
  | retries + 1 => do
    match ← tryRangeQuery keyType data dataVec op with
    | some op => return op
    | none => generateRangeQuery keyType data dataVec op retries

def generateEqualityLookups (keyType : KeyType K D) (negativeLookupRatio : D) (isInsert : Bool) :
    Multimap K → List (KeyValue K) → List (Operation K) → Gen K D (List (Operation K))
  | _, _, [] => return []
  | dataMap, dataVec, op :: ops => do
    let data := shadow isInsert dataMap dataVec
    match op.op with
    | .insert =>
      let kv := ⟨op.loKey, op.result⟩
      let ops ← generateEqualityLookups keyType negativeLookupRatio isInsert (dataMap.emplace kv)
        (dataVec ++ [kv]) ops
      return op :: ops
    | .lookup =>
      let op ← generateLookup keyType negativeLookupRatio data dataVec op
      let ops ← generateEqualityLookups keyType negativeLookupRatio isInsert dataMap dataVec ops
      return op :: ops
    | .rangeQuery =>
      let op ← generateRangeQuery keyType data dataVec op maxNumRetries
      let ops ← generateEqualityLookups keyType negativeLookupRatio isInsert dataMap dataVec ops
      return op :: ops

structure Params (D : Type) where
  opCnt : Nat
  rangeQueryRatio : D
  negativeLookupRatio : D
  insertRatio : D
  pat : InsertPat
  hotspotRatio : D
  threadNum : Nat
  mix : Bool
  blockNum : Nat
  /-- `none` for `size_t(-1)`. -/
  bulkloadCnt : Option Nat

/-- The files `generate` writes. -/
structure Output (K : Type) where
  bulkload : Option (List (KeyValue K))
  ops : List (List (Operation K))
  deriving DecidableEq, Repr

def insertCnt (p : Params D) : Nat := trunc ((p.opCnt : D) * p.insertRatio)

def queryCnts (p : Params D) : Nat × Nat :=
  if le ((1 : Nat) : D) (p.insertRatio + p.rangeQueryRatio) then (sizeSub p.opCnt (insertCnt p), 0)
  else
    let rangeQueryCnt := trunc ((p.opCnt : D) * p.rangeQueryRatio)
    (rangeQueryCnt, sizeSub (sizeSub p.opCnt (insertCnt p)) rangeQueryCnt)

def hasInserts (p : Params D) : Bool := lt ((0 : Nat) : D) p.insertRatio

/-- The order in which the three kinds of operations are given their places. -/
def generateOpId (p : Params D) : Gen K D (List Nat) := do
  let opId ←
    if p.blockNum = 1 then generatePermute 0 p.opCnt p.mix
    else ofOption (generatePermuteBlockwise p.opCnt (insertCnt p) (queryCnts p).1 (queryCnts p).2
      p.blockNum)
  if hasInserts p ∧ p.mix then
    require (insertCnt p ≤ opId.length)
    return (opId.take (insertCnt p)).insertionSort (· ≤ ·) ++ opId.drop (insertCnt p)
  else return opId

/-- The bulk load, and the operations with the inserts put in. -/
def generateBulkLoads [Inhabited K] (p : Params D) (orgVec : List (KeyValue K)) (opId : List Nat) :
    Gen K D (List (Operation K) × List (KeyValue K)) := do
  let totOps := List.replicate p.opCnt default
  if hasInserts p then
    let (totOps, bulkLoads) ←
      generateInserts totOps [] opId orgVec (insertCnt p) p.pat p.hotspotRatio
    match p.bulkloadCnt with
    | some n => do
      let chosen ← sample bulkLoads n
      return (totOps, chosen)
    | none => return (totOps, bulkLoads)
  else
    match p.bulkloadCnt with
    | some n => do
      let chosen ← sample orgVec n
      return (totOps, chosen)
    | none => return (totOps, orgVec)

/-- Gives the operations at `op_id[lo], …, op_id[hi - 1]` the kind `op`. -/
def label (opId : List Nat) (op : Op) (lo hi : Nat) (ops : List (Operation K)) :
    Option (List (Operation K)) :=
  (List.range' lo (hi - lo)).foldlM (fun ops j => modifyOp opId j (fun e => { e with op := op }) ops)
    ops

/-- Deals the operations out to the threads. -/
def deal (threadNum : Nat) : List (Operation K) → List (List (Operation K)) →
    Gen K D (List (List (Operation K)))
  | [], threads => return threads
  | e :: totOps, threads => do
    let i ← randUint32 (sizeSub threadNum 1)
    require (i < threads.length)
    deal threadNum totOps (threads.modify i (· ++ [e]))

def dealThreads (threadNum : Nat) (totOps : List (Operation K)) :
    Gen K D (List (List (Operation K))) :=
  if 1 < threadNum then deal threadNum totOps (List.replicate threadNum [])
  else return [totOps]

/-- The pairs a list of operations inserts. -/
def inserts (ops : List (Operation K)) : List (KeyValue K) :=
  ops.filterMap fun op => if op.op = .insert then some ⟨op.loKey, op.result⟩ else none

def pairLe (x y : KeyValue K) : Prop := x.key < y.key ∨ x.key = y.key ∧ x.value ≤ y.value

instance : DecidableRel (pairLe (K := K)) := fun _ _ => inferInstanceAs (Decidable (_ ∨ _))

/-- What thread `i` takes to be in the index before its own operations. -/
def initialMap (bulkLoads : List (KeyValue K)) (threads : List (List (Operation K))) (i : Nat) :
    Multimap K :=
  let otherVec := bulkLoads ++ (threads.eraseIdx i).flatMap inserts
  let otherVec := if 1 < threads.length then otherVec.insertionSort pairLe else otherVec
  otherVec.foldl Multimap.emplace .empty

/-- Generates the queries of the threads from the `i`-th on. -/
def generateThreads (keyType : KeyType K D) (p : Params D) (bulkLoads : List (KeyValue K))
    (threads : List (List (Operation K))) :
    Nat → List (List (Operation K)) → Gen K D (List (List (Operation K)))
  | _, [] => return []
  | i, ops :: rest => do
    let dataMap := if hasInserts p then initialMap bulkLoads threads i else .empty
    let ops ← generateEqualityLookups keyType p.negativeLookupRatio (hasInserts p) dataMap bulkLoads
      ops
    let rest ← generateThreads keyType p bulkLoads threads (i + 1) rest
    return ops :: rest

def generate [Inhabited K] (keyType : KeyType K D) (p : Params D) (data : Dataset K) :
    Gen K D (Output K) := do
  let keys := data.keys
  require (keys.Pairwise (· ≤ ·))
  let orgVec := addValues keys
  require (∀ n ∈ p.bulkloadCnt, (insertCnt p + n) % 2 ^ 64 ≤ keys.length)
  -- The vector is reserved for `org_vec.size() - insert_cnt` pairs.
  require (insertCnt p ≤ orgVec.length)
  let opId ← generateOpId p
  let (totOps, bulkLoads) ← generateBulkLoads p orgVec opId
  let lookupEnd := (insertCnt p + (queryCnts p).2) % 2 ^ 64
  let totOps ← ofOption (label opId .lookup (insertCnt p) lookupEnd totOps)
  let totOps ← ofOption (label opId .rangeQuery lookupEnd p.opCnt totOps)
  require (p.threadNum ≠ 0)
  let threads ← dealThreads p.threadNum totOps
  let ops ← generateThreads keyType p bulkLoads threads 0 threads
  let written := hasInserts p ∨ p.bulkloadCnt.isSome
  return ⟨if written then some bulkLoads else none, ops⟩

/-- The command line, parsed. -/
structure Options (D : Type) where
  operationCount : Nat
  negativeLookupRatio : D
  thread : Nat
  scanRatio : D
  insertRatio : D
  insertPattern : String
  hotspotRatio : D
  mix : Bool
  block : Nat
  bulkloadCount : Option Nat

def InsertPat.ofString : String → Option InsertPat
  | "equality" => some .equality
  | "delta" => some .delta
  | "hotspot" => some .hotspot
  | _ => none

def Options.insertPat (o : Options D) : Option InsertPat :=
  if lt ((0 : Nat) : D) o.insertRatio then InsertPat.ofString o.insertPattern else some .equality

def isRatio (r : D) : Bool := !lt r ((0 : Nat) : D) && !lt ((1 : Nat) : D) r

def main [Inhabited K] (keyType : KeyType K D) (o : Options D) (data : Dataset K) :
    Gen K D (Output K) := do
  require (¬(1 < o.block ∧ (1 < o.thread ∨ o.mix)))
  let pat ← ofOption o.insertPat
  require (isRatio o.negativeLookupRatio ∧ isRatio o.scanRatio ∧ isRatio o.insertRatio)
  require (¬le o.hotspotRatio ((0 : Nat) : D) ∧ ¬lt ((1 : Nat) : D) o.hotspotRatio)
  generate keyType
    { opCnt := o.operationCount, rangeQueryRatio := o.scanRatio,
      negativeLookupRatio := if keyType.isString then ((0 : Nat) : D) else o.negativeLookupRatio,
      insertRatio := o.insertRatio, pat := pat, hotspotRatio := o.hotspotRatio,
      threadNum := o.thread, mix := o.mix, blockNum := o.block, bulkloadCnt := o.bulkloadCount }
    data

end Generate

end LearnedIndex.Workload
