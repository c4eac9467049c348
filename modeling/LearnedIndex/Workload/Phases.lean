import LearnedIndex.Alternation
import LearnedIndex.Search
import LearnedIndex.Workload.Generate
import Mathlib.Data.List.GetD
import Mathlib.Order.Monotone.Basic

/-! The phases in which `Benchmark` executes a workload: where the constructor puts their bounds,
and what `DoOps` executes between them. -/

namespace LearnedIndex.Workload

open Alternation

variable {K D : Type}

def isInsert (op : Operation K) : Bool := op.op = .insert

/-- `flag_`: mixed, insert-only and lookup-only workloads have one phase. -/
def benchmarkFlag [Double D] (isMix : Bool) (insertRatio : D) : Bool :=
  let equals := fun r : D => Double.le insertRatio r && Double.le r insertRatio
  isMix || equals ((0 : Nat) : D) || equals ((1 : Nat) : D)

/-- Walks on from `cur` to the first insert when `j` is even, to the first query when it is odd. -/
def scanBound (j : Nat) : Nat → List (Operation K) → Nat
  | cur, [] => cur
  | cur, op :: ops => if isInsert op ^^ decide (j % 2 = 1) then cur else scanBound j (cur + 1) ops

/-- `bound_points[j]` for a workload in blocks. -/
def blockBound (ops : List (Operation K)) : Nat → Nat
  | 0 => 0
  | j + 1 => scanBound (j + 1) (blockBound ops j) (ops.drop (blockBound ops j))

/-- `std::lower_bound` with 1 for the key, and `op != INSERT` for the keys of the operations. -/
def insertEnd (ops : List (Operation K)) : Nat :=
  BranchingBinarySearch.lowerBoundLoop (ops.map fun op => (!isInsert op).toNat) 1 0 ops.length

/-- The three bounds of a thread without blocks. -/
def threadBounds (flag : Bool) (ops : List (Operation K)) : List Nat :=
  [0, if flag then 0 else insertEnd ops, ops.length]

/-- `bound_points`, as the constructor sets them; `none` when it rejects the workload. -/
def boundPoints (numBlocks : Nat) (flag : Bool) (ops : List (List (Operation K))) :
    Option (List Nat) :=
  if 1 < numBlocks then
    if 1 < ops.length ∨ flag then none
    else ops.head?.map fun os => (List.range (2 * numBlocks + 1)).map (blockBound os)
  else some (ops.flatMap (threadBounds flag))

/-- The operations `DoOps` gives to thread `worker` in phase `i`. -/
def phase (numBlocks : Nat) (flag : Bool) (bounds : List Nat) (worker : Nat)
    (ops : List (Operation K)) (i : Nat) : List (Operation K) :=
  let start := if 1 < numBlocks then bounds.getD i 0 else bounds.getD (3 * worker + i) 0
  let limit := if 1 < numBlocks then bounds.getD (i + 1) 0
    else bounds.getD (3 * worker + i + 1 + flag.toNat) 0
  (ops.take limit).drop start

def doOps (numBlocks : Nat) (flag : Bool) (bounds : List Nat) (worker : Nat)
    (ops : List (Operation K)) : List (List (Operation K)) :=
  (List.range ((2 - flag.toNat) * numBlocks)).map (phase numBlocks flag bounds worker ops)

section Blocks

variable {ops : List (Operation K)} {n : Nat}

theorem scanBound_eq (j cur : Nat) (ops : List (Operation K)) :
    scanBound j cur ops =
      cur + (ops.takeWhile fun op => isInsert op == decide (j % 2 = 1)).length := by
  induction ops generalizing cur with
  | nil => rfl
  | cons op ops ih =>
    rw [scanBound]
    cases hop : isInsert op <;> by_cases hj : j % 2 = 1
    all_goals simp [hop, hj, ih, Nat.add_assoc, Nat.add_comm 1]

/-- What lies between two bounds, by the parity of the first. -/
def segment (ops : List (Operation K)) (j : Nat) : List (Operation K) :=
  (ops.drop (blockBound ops j)).takeWhile fun op => isInsert op == decide (j % 2 = 0)

theorem blockBound_succ (ops : List (Operation K)) (j : Nat) :
    blockBound ops (j + 1) = blockBound ops j + (segment ops j).length := by
  have hparity : decide ((j + 1) % 2 = 1) = decide (j % 2 = 0) := by
    rw [decide_eq_decide]
    omega
  rw [blockBound, scanBound_eq, hparity, segment]

/-- From one bound to the next lie the operations that the scan skips. -/
theorem drop_blockBound (ops : List (Operation K)) (j : Nat) :
    ops.drop (blockBound ops (j + 1)) = skip isInsert (decide (j % 2 = 0)) (ops.drop (blockBound ops j)) := by
  have happend : segment ops j ++ skip isInsert (decide (j % 2 = 0)) (ops.drop (blockBound ops j)) =
      ops.drop (blockBound ops j) := List.takeWhile_append_dropWhile
  rw [blockBound_succ, ← List.drop_drop]
  nth_rewrite 1 [← happend]
  rw [List.drop_left]

theorem take_blockBound (ops : List (Operation K)) (j : Nat) :
    (ops.take (blockBound ops (j + 1))).drop (blockBound ops j) = segment ops j := by
  rw [List.drop_take, blockBound_succ, Nat.add_sub_cancel_left]
  exact (List.prefix_iff_eq_take.mp (List.takeWhile_prefix _)).symm

theorem segment_kind (ops : List (Operation K)) (j : Nat) :
    ∀ op ∈ segment ops j, isInsert op = decide (j % 2 = 0) := by
  intro op hop
  have hskip := List.mem_takeWhile_imp hop
  exact eq_of_beq hskip

theorem blockBound_le (ops : List (Operation K)) (j : Nat) : blockBound ops j ≤ ops.length := by
  induction j with
  | zero => exact Nat.zero_le _
  | succ j ih =>
    have hlen : (segment ops j).length ≤ (ops.drop (blockBound ops j)).length :=
      (List.takeWhile_sublist _).length_le
    rw [List.length_drop] at hlen
    rw [blockBound_succ]
    omega

theorem blockBound_mono (ops : List (Operation K)) : Monotone (blockBound ops) := by
  apply monotone_nat_of_le_succ
  intro j
  rw [blockBound_succ]
  exact Nat.le_add_right _ _

theorem drop_blockBound_even (ops : List (Operation K)) (n : Nat) :
    ops.drop (blockBound ops (2 * n)) = (skipBoth isInsert)^[n] ops := by
  induction n with
  | zero => rfl
  | succ n ih =>
    have hodd : (2 * n + 1) % 2 ≠ 0 := by omega
    have heven : 2 * n % 2 = 0 := by omega
    rw [Function.iterate_succ_apply', ← ih, Nat.mul_succ, drop_blockBound, drop_blockBound,
      decide_eq_false hodd, decide_eq_true heven, skipBoth]

/-- The scan gets to the end when there are as many blocks as it expects. -/
theorem blockBound_last (h : Blocks isInsert n ops) : blockBound ops (2 * n) = ops.length := by
  have hnil := drop_blockBound_even ops n
  rw [h.iterate_skipBoth List.suffix_rfl, List.drop_eq_nil_iff] at hnil
  exact le_antisymm (blockBound_le ops _) hnil

/-- All segments together are the operations up to the last bound. -/
theorem flatMap_segment (ops : List (Operation K)) (n : Nat) :
    (List.range n).flatMap (segment ops) = ops.take (blockBound ops n) := by
  induction n with
  | zero => rfl
  | succ n ih =>
    have hprefix : ops.take (blockBound ops n) =
        (ops.take (blockBound ops (n + 1))).take (blockBound ops n) := by
      rw [List.take_take, min_eq_left (blockBound_mono ops (Nat.le_succ n))]
    rw [List.range_succ, List.flatMap_append, ih, List.flatMap_singleton, ← take_blockBound, hprefix,
      List.take_append_drop]

/-- Bounds that cut the operations of a blocked workload into phases of one kind each. -/
structure Cuts (numBlocks : Nat) (bounds : List Nat) (ops : List (Operation K)) : Prop where
  length : bounds.length = 2 * numBlocks + 1
  ascending : bounds.Pairwise (· ≤ ·)
  first : bounds.head? = some 0
  last : bounds.getLast? = some ops.length
  kinds : ∀ i os, (doOps numBlocks false bounds 0 ops)[i]? = some os →
    ∀ op ∈ os, isInsert op = decide (i % 2 = 0)
  executed : (doOps numBlocks false bounds 0 ops).flatten = ops

theorem blockBounds_getD (ops : List (Operation K)) {j m : Nat} (hj : j ≤ m) :
    ((List.range (m + 1)).map (blockBound ops)).getD j 0 = blockBound ops j := by
  rw [List.getD_eq_getElem?_getD, List.getElem?_map, List.getElem?_range (Nat.lt_succ_of_le hj)]
  rfl

theorem doOps_blockBound (hn : 1 < n) (ops : List (Operation K)) :
    doOps n false ((List.range (2 * n + 1)).map (blockBound ops)) 0 ops =
      (List.range (2 * n)).map (segment ops) := by
  unfold doOps
  apply List.map_congr_left
  intro i hi
  rw [Bool.toNat_false, Nat.sub_zero, List.mem_range] at hi
  rw [phase, if_pos hn, if_pos hn, blockBounds_getD ops hi.le, blockBounds_getD ops (Nat.succ_le_of_lt hi),
    take_blockBound]

theorem cuts_of_blocks (hn : 1 < n) (h : Blocks isInsert n ops) :
    ∃ bounds, boundPoints n false [ops] = some bounds ∧ Cuts n bounds ops := by
  refine ⟨(List.range (2 * n + 1)).map (blockBound ops), ?_, ?_, ?_, ?_, ?_, ?_, ?_⟩
  · rw [boundPoints, if_pos hn, if_neg (by simp)]
    rfl
  · rw [List.length_map, List.length_range]
  · rw [List.pairwise_map]
    exact List.pairwise_lt_range.imp fun hij => blockBound_mono ops hij.le
  · rw [List.range_succ_eq_map]
    rfl
  · rw [List.range_succ, List.map_append, List.map_singleton, List.getLast?_concat,
      blockBound_last h]
  · intro i os hos
    rw [doOps_blockBound hn, List.getElem?_map, Option.map_eq_some_iff] at hos
    obtain ⟨j, hj, rfl⟩ := hos
    obtain ⟨-, rfl⟩ := List.getElem?_eq_some_iff.mp hj
    rw [List.getElem_range]
    exact segment_kind ops i
  · rw [doOps_blockBound hn, ← List.flatMap_def, flatMap_segment, blockBound_last h, List.take_length]

end Blocks

section Threads

variable {ops : List (List (Operation K))} {os : List (Operation K)} {worker : Nat}

theorem flatMap_getD {f : List (Operation K) → List Nat} (hf : ∀ os, (f os).length = 3)
    (hos : ops[worker]? = some os) {r : Nat} (hr : r < 3) :
    (ops.flatMap f).getD (3 * worker + r) 0 = (f os).getD r 0 := by
  induction ops generalizing worker with
  | nil => cases hos
  | cons first rest ih =>
    rw [List.flatMap_cons]
    cases worker with
    | zero =>
      obtain rfl : first = os := Option.some.inj hos
      rw [Nat.mul_zero, Nat.zero_add, List.getD_append _ _ _ _ (by rw [hf]; exact hr)]
    | succ worker =>
      rw [List.getD_append_right _ _ _ _ (by rw [hf]; omega), hf, ← ih hos]
      congr 1
      omega

theorem threadBounds_getD {flag : Bool} (hos : ops[worker]? = some os) {r : Nat} (hr : r < 3) :
    (ops.flatMap (threadBounds flag)).getD (3 * worker + r) 0 = (threadBounds flag os).getD r 0 :=
  flatMap_getD (fun _ => rfl) hos hr

/-- The bounds of one thread where its inserts come first: they split its operations into the
inserts and the others. -/
structure Splits (bounds : List Nat) (worker : Nat) (ops : List (Operation K)) : Prop where
  first : bounds.getD (3 * worker) 0 = 0
  middle : bounds.getD (3 * worker + 1) 0 = (ops.filter isInsert).length
  last : bounds.getD (3 * worker + 2) 0 = ops.length
  phases : doOps 1 false bounds worker ops = [ops.filter isInsert, ops.filter fun op => !isInsert op]
  executed : ops.filter isInsert ++ (ops.filter fun op => !isInsert op) = ops

theorem takeWhile_of_leads (h : Leads isInsert os) : os.takeWhile isInsert = os.filter isInsert := by
  nth_rewrite 1 [h.eq_filter_append]
  rw [List.takeWhile_append_of_pos fun op hop => (List.mem_filter.mp hop).2]
  have hnone : (os.filter fun op => !isInsert op).takeWhile isInsert = [] := by
    rw [List.takeWhile_eq_nil_iff]
    intro hpos
    have hmem := List.get_mem (os.filter fun op => !isInsert op) ⟨0, hpos⟩
    simpa using (List.mem_filter.mp hmem).2
  rw [hnone, List.append_nil]

theorem insertEnd_le (os : List (Operation K)) : insertEnd os ≤ os.length := by
  have hle := BranchingBinarySearch.lowerBoundLoop_le (os.map fun op => (!isInsert op).toNat) 1 0 os.length
  rwa [Nat.zero_add] at hle

theorem insertEnd_of_leads (h : Leads isInsert os) : insertEnd os = (os.filter isInsert).length := by
  have hsorted : (os.map fun op => (!isInsert op).toNat).Pairwise (· ≤ ·) := by
    apply List.pairwise_map.mpr
    apply List.Pairwise.imp _ h
    intro x y hxy
    cases hy : isInsert y with
    | true => rw [hxy hy]
    | false => exact Bool.toNat_le _
  have hrank : rank (os.map fun op => (!isInsert op).toNat) 1 = (os.takeWhile isInsert).length := by
    rw [rank, List.takeWhile_map, List.length_map]
    congr 2
    funext op
    cases hop : isInsert op <;> simp [hop]
  have hle : (os.filter isInsert).length ≤ os.length := List.length_filter_le _ _
  rw [insertEnd, BranchingBinarySearch.lowerBoundLoop_eq hsorted, hrank, takeWhile_of_leads h]
  omega

theorem splits_of_leads (hos : ops[worker]? = some os) (hleads : Leads isInsert os) :
    Splits (ops.flatMap (threadBounds false)) worker os := by
  have hfirst : (ops.flatMap (threadBounds false)).getD (3 * worker) 0 = 0 :=
    threadBounds_getD hos (r := 0) (by decide)
  have hmiddle : (ops.flatMap (threadBounds false)).getD (3 * worker + 1) 0 =
      (os.filter isInsert).length := by
    rw [threadBounds_getD hos (by decide), ← insertEnd_of_leads hleads]
    rfl
  have hlast : (ops.flatMap (threadBounds false)).getD (3 * worker + 2) 0 = os.length :=
    threadBounds_getD hos (by decide)
  refine ⟨hfirst, hmiddle, hlast, ?_, hleads.eq_filter_append.symm⟩
  have hinserts : phase 1 false (ops.flatMap (threadBounds false)) worker os 0 = os.filter isInsert := by
    rw [phase, if_neg (Nat.lt_irrefl 1), if_neg (Nat.lt_irrefl 1), Nat.add_zero, hfirst,
      Bool.toNat_false, Nat.add_zero, hmiddle, List.drop_zero]
    nth_rewrite 2 [hleads.eq_filter_append]
    exact List.take_left
  have hqueries : phase 1 false (ops.flatMap (threadBounds false)) worker os 1 =
      os.filter fun op => !isInsert op := by
    rw [phase, if_neg (Nat.lt_irrefl 1), if_neg (Nat.lt_irrefl 1), hmiddle, Bool.toNat_false,
      Nat.add_zero, hlast, List.take_length]
    nth_rewrite 2 [hleads.eq_filter_append]
    exact List.drop_left
  rw [← hinserts, ← hqueries]
  rfl

/-- With the flag set all operations of a thread are one phase. -/
theorem doOps_flagged (hos : ops[worker]? = some os) :
    doOps 1 true (ops.flatMap (threadBounds true)) worker os = [os] := by
  have hfirst : (ops.flatMap (threadBounds true)).getD (3 * worker) 0 = 0 :=
    threadBounds_getD hos (r := 0) (by decide)
  have hlast : (ops.flatMap (threadBounds true)).getD (3 * worker + 2) 0 = os.length :=
    threadBounds_getD hos (by decide)
  have hphase : phase 1 true (ops.flatMap (threadBounds true)) worker os 0 = os := by
    rw [phase, if_neg (Nat.lt_irrefl 1), if_neg (Nat.lt_irrefl 1), Nat.add_zero, hfirst,
      Bool.toNat_true, hlast, List.take_length, List.drop_zero]
  exact congrArg (fun phase => [phase]) hphase

end Threads

end LearnedIndex.Workload
