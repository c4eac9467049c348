import LearnedIndex.Workload.Replay
import Mathlib.Algebra.BigOperators.Group.Finset.Basic
import Mathlib.Algebra.Order.BigOperators.Group.Multiset

/-! Range queries of several threads: what the generator expects of them, and what they find under
any schedule. -/

namespace LearnedIndex.Workload

open Util Transition

variable {K : Type}

section Conservation

variable {n i : Nat} {start s s' : Execution K}

/-- The pairs that the first `n` threads have yet to insert. -/
def toCome (n : Nat) (s : Execution K) : Multiset (KeyValue K) :=
  ∑ j ∈ Finset.range n, (inserts (s.pending j) : Multiset (KeyValue K))

/-- Those of them that thread `i` does not insert. -/
def toComeFromOthers (n i : Nat) (s : Execution K) : Multiset (KeyValue K) :=
  ∑ j ∈ (Finset.range n).erase i, (inserts (s.pending j) : Multiset (KeyValue K))

theorem toCome_eq (hi : i < n) (s : Execution K) :
    toCome n s = inserts (s.pending i) + toComeFromOthers n i s :=
  (Finset.add_sum_erase _ _ (Finset.mem_range.mpr hi)).symm

theorem execStep_eq_some (h : execStep s i = some s') : ∃ op ops, s.pending i = op :: ops ∧
    s' = ⟨Function.update s.pending i ops, execute s.reference op⟩ := by
  unfold execStep at h
  split at h
  · cases h
  · exact ⟨_, _, ‹_›, (Option.some.inj h).symm⟩

theorem toComeFromOthers_update (ops : List (Operation K)) (reference : List (KeyValue K)) :
    toComeFromOthers n i ⟨Function.update s.pending i ops, reference⟩ = toComeFromOthers n i s := by
  apply Finset.sum_congr rfl
  intro j hj
  dsimp only
  rw [Function.update_of_ne (Finset.ne_of_mem_erase hj)]

/-- All pairs that the threads bring along: those in the multimap and those yet to come. -/
def Conserved (n : Nat) (start s : Execution K) : Prop :=
  (∀ j, n ≤ j → s.pending j = []) ∧
    (s.reference : Multiset (KeyValue K)) + toCome n s = start.reference + toCome n start

theorem Conserved.step (h : Conserved n start s) (hs : execStep s i = some s') : Conserved n start s' := by
  obtain ⟨hnone, hsum⟩ := h
  obtain ⟨op, ops, hpending, rfl⟩ := execStep_eq_some hs
  have hi : i < n := by
    by_contra hge
    rw [hnone i (Nat.le_of_not_lt hge)] at hpending
    cases hpending
  constructor
  · intro j hj
    have hne : j ≠ i := fun h => Nat.not_lt_of_le hj (h ▸ hi)
    dsimp only
    rw [Function.update_of_ne hne, hnone j hj]
  · rw [← hsum, toCome_eq hi, toCome_eq hi s, toComeFromOthers_update, execute_eq, hpending,
      inserts_cons op ops]
    dsimp only
    rw [Function.update_self, ← Multiset.coe_add, ← Multiset.coe_add, add_assoc, add_assoc]

theorem run_conserved {schedule : List Nat} (hnone : ∀ j, n ≤ j → start.pending j = [])
    (h : run execStep start schedule = some s) : Conserved n start s :=
  run_invariant (fun _ _ _ (_ : True) hr hs => hr.step hs) (fun _ _ => trivial) ⟨hnone, rfl⟩ h

/-- A thread that runs alone for a while. -/
theorem run_alone {pre rest : List (Operation K)} (h : s.pending i = pre ++ rest) :
    run execStep s (List.replicate pre.length i) =
      some ⟨Function.update s.pending i rest, s.reference ++ inserts pre⟩ := by
  induction pre generalizing s with
  | nil =>
    rw [List.nil_append] at h
    rw [← h, Function.update_eq_self]
    exact congrArg (fun reference => some (Execution.mk s.pending reference)) (List.append_nil _).symm
  | cons op pre ih =>
    have hstep : execStep s i =
        some ⟨Function.update s.pending i (pre ++ rest), execute s.reference op⟩ := by
      rw [execStep, h]
      rfl
    rw [List.length_cons, List.replicate_succ, run_cons, hstep, Option.bind_some, ih (Function.update_self ..),
      Function.update_idem, execute_eq, List.append_assoc, ← inserts_cons]

end Conservation

section Others

variable {n i : Nat} {threads : List (List (Operation K))}

theorem coe_flatMap_inserts (threads : List (List (Operation K))) :
    (threads.flatMap inserts : Multiset (KeyValue K)) =
      ∑ j ∈ Finset.range threads.length, (inserts ((threads[j]?).getD []) : Multiset (KeyValue K)) := by
  induction threads with
  | nil => rfl
  | cons ops threads ih =>
    rw [List.flatMap_cons, ← Multiset.coe_add, ih, List.length_cons, Finset.sum_range_succ', add_comm]
    rfl

/-- The pairs of all threads but one. -/
theorem coe_flatMap_eraseIdx (hi : i < threads.length) :
    ((threads.eraseIdx i).flatMap inserts : Multiset (KeyValue K)) =
      ∑ j ∈ (Finset.range threads.length).erase i,
        (inserts ((threads[j]?).getD []) : Multiset (KeyValue K)) := by
  have hperm : (threads[i] :: threads.eraseIdx i).Perm threads := List.getElem_cons_eraseIdx_perm hi
  have hall := Multiset.coe_eq_coe.mpr (hperm.flatMap_right inserts)
  have hget : (threads[i]?).getD [] = threads[i] := by
    rw [List.getElem?_eq_getElem hi, Option.getD_some]
  rw [coe_flatMap_inserts threads, ← Finset.add_sum_erase _ _ (Finset.mem_range.mpr hi), hget,
    List.flatMap_cons, ← Multiset.coe_add] at hall
  exact add_left_cancel hall

end Others

section Queries

variable {D : Type} [LinearOrder K] [Double D] {keyType : KeyType K D} {p : Params D} {ks : List K}
  {threads : List (List (Operation K))} {out : Output K} {i : Nat}

omit [LinearOrder K] in
@[simp] theorem start_pending (out : Output K) (ks : List K) (i : Nat) :
    (out.start ks).pending i = (out.ops[i]?).getD [] := rfl

theorem Prepared.toComeFromOthers_start (h : Prepared keyType p ks threads out) (hi : i < threads.length) :
    ((threads.eraseIdx i).flatMap inserts : Multiset (KeyValue K)) =
      toComeFromOthers threads.length i (out.start ks) := by
  rw [coe_flatMap_eraseIdx hi]
  apply Finset.sum_congr rfl
  intro j hj
  have hlt : j < threads.length := Finset.mem_range.mp (Finset.mem_of_mem_erase hj)
  have hlt' : j < out.ops.length := by rwa [h.ops_length, ← h.threads_length]
  have hops := List.getElem?_eq_getElem hlt
  have hops' := List.getElem?_eq_getElem hlt'
  rw [start_pending, hops, hops', Option.getD_some, Option.getD_some, (h.fits hops hops').1]

/-- What a query expects counts the pairs that the other threads have yet to insert. -/
theorem Prepared.result_eq (h : Prepared keyType p ks threads out) {schedule : List Nat}
    {s : Execution K} (hrun : run execStep (out.start ks) schedule = some s) {op : Operation K}
    {rest : List (Operation K)} (hnext : s.pending i = op :: rest) (hop : op.op = .rangeQuery) :
    op.result = rangeSum s.reference op.loKey op.hiKey +
      rangeSum (toComeFromOthers out.ops.length i s) op.loKey op.hiKey := by
  have hlength : out.ops.length = threads.length := h.ops_length.trans h.threads_length.symm
  obtain ⟨done, hpending, -⟩ := run_progress hrun
  have hsplit : done i ++ op :: rest = (out.ops[i]?).getD [] := by
    rw [← hnext]
    exact hpending i
  have hi : i < out.ops.length := by
    by_contra hge
    rw [List.getElem?_eq_none (Nat.le_of_not_lt hge)] at hsplit
    simp at hsplit
  have hnone : ∀ j, out.ops.length ≤ j → (out.start ks).pending j = [] := by
    intro j hj
    rw [start_pending, List.getElem?_eq_none hj, Option.getD_none]
  obtain ⟨-, hsum⟩ := run_conserved hnone hrun
  have hops' := List.getElem?_eq_getElem hi
  have hops := List.getElem?_eq_getElem (hlength ▸ hi)
  rw [hops', Option.getD_some] at hsplit
  have hrange := ((h.fits hops hops').2 _ _ _ hsplit.symm).range hop
  -- What the thread itself has yet to insert is on both sides.
  have hparts : (↑(out.initial ks ++ (threads.eraseIdx i).flatMap inserts ++ inserts (done i)) :
      Multiset (KeyValue K)) = s.reference + toComeFromOthers out.ops.length i s := by
    rw [toCome_eq hi, toCome_eq hi (out.start ks), start_pending, hops', Option.getD_some, ← hsplit,
      inserts_append, ← Multiset.coe_add, ← hnext] at hsum
    rw [← Multiset.coe_add, ← Multiset.coe_add, h.toComeFromOthers_start (hlength ▸ hi), ← hlength]
    apply add_left_cancel (a := (inserts (s.pending i) : Multiset (KeyValue K)))
    rw [add_left_comm _ (s.reference : Multiset (KeyValue K)), hsum]
    change _ = (out.initial ks : Multiset (KeyValue K)) + _
    ac_rfl
  rw [hrange, hparts, rangeSum_add]

/-- The query finds what is expected of it, and the benchmark takes no right answer for a wrong one. -/
def QueryHolds (ks : List K) (s : Execution K) (op : Operation K) : Prop :=
  op.result = rangeSum s.reference op.loKey op.hiKey ∧
    ∀ answer, Answers s.reference op answer → verify ks op answer = true

omit [Double D] in
theorem queryHolds_iff {s : Execution K} {op : Operation K} (hop : op.op = .rangeQuery) :
    QueryHolds ks s op ↔ op.result = rangeSum s.reference op.loKey op.hiKey := by
  constructor
  · exact fun h => h.1
  · intro h
    refine ⟨h, fun answer hanswer => ?_⟩
    rw [Answers, hop] at hanswer
    rw [verify, hop]
    exact decide_eq_true (hanswer.trans h.symm)

/-- Every range query holds, whatever the schedule up to it. -/
def QueriesHold (ks : List K) (out : Output K) : Prop :=
  ∀ schedule s i op rest, run execStep (out.start ks) schedule = some s → s.pending i = op :: rest →
    op.op = .rangeQuery → QueryHolds ks s op

/-- No thread inserts a value other than zero where another one asks for a sum. -/
def Apart (ops : List (List (Operation K))) : Prop :=
  ∀ (i j : Nat) (os os' : List (Operation K)), i ≠ j → ops[i]? = some os → ops[j]? = some os' →
    ∀ op ∈ os, op.op = .rangeQuery → ∀ kv ∈ inserts os', op.loKey ≤ kv.key → kv.key ≤ op.hiKey → kv.value = 0

theorem rangeSum_eq_zero {kvs : Multiset (KeyValue K)} {lo hi : K}
    (h : ∀ kv ∈ kvs, lo ≤ kv.key → kv.key ≤ hi → kv.value = 0) : rangeSum kvs lo hi = 0 := by
  apply Multiset.sum_eq_zero
  intro v hv
  obtain ⟨kv, hkv, rfl⟩ := Multiset.mem_map.mp hv
  obtain ⟨hmem, hlo, hhi⟩ := Multiset.mem_filter.mp hkv
  exact h kv hmem hlo hhi

omit [LinearOrder K] in
theorem mem_of_pending {schedule : List Nat} {s : Execution K}
    (hrun : run execStep (out.start ks) schedule = some s) {op : Operation K} (h : op ∈ s.pending i) :
    ∃ os, out.ops[i]? = some os ∧ op ∈ os := by
  obtain ⟨done, hpending, -⟩ := run_progress hrun
  have hmem : op ∈ (out.ops[i]?).getD [] := by
    rw [← start_pending out ks, ← hpending i]
    exact List.mem_append_right _ h
  cases hos : out.ops[i]? with
  | none =>
    rw [hos] at hmem
    cases hmem
  | some os =>
    rw [hos] at hmem
    exact ⟨os, rfl, hmem⟩

theorem Apart.queriesHold (h : Prepared keyType p ks threads out) (hapart : Apart out.ops) :
    QueriesHold ks out := by
  intro schedule s i op rest hrun hnext hop
  have hhead : op ∈ s.pending i := by
    rw [hnext]
    exact List.mem_cons_self
  obtain ⟨os, hos, hmem⟩ := mem_of_pending hrun hhead
  rw [queryHolds_iff hop, h.result_eq hrun hnext hop, add_eq_left]
  apply rangeSum_eq_zero
  intro kv hkv
  obtain ⟨j, hj, hkv⟩ := Multiset.mem_sum.mp hkv
  obtain ⟨ins, hins, hinsert, heq⟩ := mem_inserts.mp (Multiset.mem_coe.mp hkv)
  obtain ⟨os', hos', hins'⟩ := mem_of_pending hrun hins
  apply hapart i j os os' (Finset.ne_of_mem_erase hj).symm hos hos' op hmem hop
  exact mem_inserts.mpr ⟨ins, hins', hinsert, heq⟩

variable (ks) in
omit [LinearOrder K] in
/-- First thread `j` runs alone for a while, and then thread `i`. -/
theorem run_two {j : Nat} (hne : i ≠ j) {pre rest pre' rest' : List (Operation K)}
    (hi : out.ops[i]? = some (pre ++ rest)) (hj : out.ops[j]? = some (pre' ++ rest')) :
    ∃ s, run execStep (out.start ks) (List.replicate pre'.length j ++ List.replicate pre.length i) = some s ∧
      s.pending i = rest ∧ s.reference = out.initial ks ++ inserts pre' ++ inserts pre := by
  have hfirst : (out.start ks).pending j = pre' ++ rest' := by rw [start_pending, hj, Option.getD_some]
  have hthen : (Function.update (out.start ks).pending j rest') i = pre ++ rest := by
    rw [Function.update_of_ne hne, start_pending, hi, Option.getD_some]
  refine ⟨_, run_append_eq_some.mpr ⟨_, run_alone hfirst, run_alone hthen⟩, ?_, rfl⟩
  exact Function.update_self ..

theorem QueriesHold.apart (h : QueriesHold ks out) : Apart out.ops := by
  intro i j os os' hne hos hos' op hop hquery kv hkv hlo hhi
  obtain ⟨pre, post, rfl⟩ := List.append_of_mem hop
  obtain ⟨ins, hins, hinsert, rfl⟩ := mem_inserts.mp hkv
  obtain ⟨pre', post', rfl⟩ := List.append_of_mem hins
  -- The query right before the insert and right after it.
  obtain ⟨s, hrun, hnext, hreference⟩ := run_two ks hne hos hos'
  have hos'' : out.ops[j]? = some (pre' ++ [ins] ++ post') := by
    rw [hos', List.append_assoc, List.singleton_append]
  obtain ⟨s', hrun', hnext', hreference'⟩ := run_two ks hne hos hos''
  have hbefore := (h _ _ _ _ _ hrun hnext hquery).1
  have hafter := (h _ _ _ _ _ hrun' hnext' hquery).1
  have hsum : rangeSum (↑[(⟨ins.loKey, ins.result⟩ : KeyValue K)]) op.loKey op.hiKey = ins.result := by
    rw [← Multiset.cons_coe, rangeSum_cons, if_pos ⟨hlo, hhi⟩]
    exact add_zero _
  rw [hbefore, hreference, hreference', inserts_append, inserts_singleton_of_insert hinsert] at hafter
  simp only [← Multiset.coe_add, rangeSum_add, hsum] at hafter
  rw [add_left_inj, add_right_inj, left_eq_add] at hafter
  exact hafter

theorem range_queries_hold_iff [Inhabited K] {o : Options D} {data : Dataset K}
    {tape tape' : List (Draw K D)} (h : main keyType o data tape = some (out, tape')) :
    (∀ schedule s i op rest, run execStep (out.start data.keys) schedule = some s →
      s.pending i = op :: rest → op.op = .rangeQuery →
      (QueryHolds data.keys s op ↔
        rangeSum (toComeFromOthers out.ops.length i s) op.loKey op.hiKey = 0)) ∧
      (QueriesHold data.keys out ↔ Apart out.ops) := by
  obtain ⟨p, threads, -, hprep⟩ := main_prepared h
  constructor
  · intro schedule s i op rest hrun hnext hop
    rw [queryHolds_iff hop, hprep.result_eq hrun hnext hop, add_eq_left]
  · exact ⟨QueriesHold.apart, fun hapart => hapart.queriesHold hprep⟩

end Queries

section Collision

/-- The options of a workload of one insert and one range query for two threads. -/
def insertAndQuery : Options ℚ := ⟨2, 0, 2, 1 / 2, 1 / 2, "equality", 1 / 10, false, 1, none⟩

def hundredAndOne : Dataset ℕ := ⟨List.range 101, by decide⟩

/-- One thread inserts the key 5, the other one sums up the keys from 0 to 99. -/
def colliding : Output ℕ :=
  ⟨some (((List.range 101).erase 5).map fun k => ⟨k, UInt64.ofNat k⟩),
    [[⟨.insert, 5, 0, 5⟩], [⟨.rangeQuery, 0, 99, 4950⟩]]⟩

theorem main_colliding : main linearKeys insertAndQuery hundredAndOne
    [.shuffle (5 :: (List.range 101).erase 5),
      .sort (((List.range 101).erase 5).map fun k => ⟨k, UInt64.ofNat k⟩), .randUint32 0, .randUint32 1,
      .scaleFactor 0, .scaleFactor (1 / 5)] = some (colliding, []) := by
  decide +kernel

theorem range_queries_hold_iff_colliding :
    (∀ schedule s i op rest, run execStep (colliding.start hundredAndOne.keys) schedule = some s →
      s.pending i = op :: rest → op.op = .rangeQuery →
      (QueryHolds hundredAndOne.keys s op ↔ rangeSum (toComeFromOthers 2 i s) op.loKey op.hiKey = 0)) ∧
      (QueriesHold hundredAndOne.keys colliding ↔ Apart colliding.ops) :=
  range_queries_hold_iff main_colliding

/-- The query runs first, and the sum is 4945. -/
theorem range_query_before_insert :
    main linearKeys insertAndQuery hundredAndOne
        [.shuffle (5 :: (List.range 101).erase 5),
          .sort (((List.range 101).erase 5).map fun k => ⟨k, UInt64.ofNat k⟩), .randUint32 0,
          .randUint32 1, .scaleFactor 0, .scaleFactor (1 / 5)] = some (colliding, []) ∧
      run execStep (colliding.start hundredAndOne.keys) [] = some (colliding.start hundredAndOne.keys) ∧
      (colliding.start hundredAndOne.keys).pending 1 = [⟨.rangeQuery, 0, 99, 4950⟩] ∧
      rangeSum (colliding.start hundredAndOne.keys).reference 0 99 = 4945 ∧
      verify hundredAndOne.keys ⟨.rangeQuery, 0, 99, 4950⟩ 4945 = false :=
  ⟨main_colliding, rfl, rfl, by decide +kernel, by decide⟩

end Collision

end LearnedIndex.Workload
