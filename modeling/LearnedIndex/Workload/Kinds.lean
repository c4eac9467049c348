import LearnedIndex.Workload.Permute
import LearnedIndex.Workload.Phases
import LearnedIndex.Workload.Replay

/-! Where the inserts of a generated workload stand: in every block they come before the queries. -/

namespace LearnedIndex.Workload

open Alternation Oracle

variable {K D : Type} {opId slots : List Nat} {ops ops' : List (Operation K)} {m n i : Nat}

/-- The first `m` indices have inserts in their places, the others do not. -/
def Inserted (opId : List Nat) (ops : List (Operation K)) (m : Nat) : Prop :=
  ∀ j p, opId[j]? = some p → ∃ op, ops[p]? = some op ∧ isInsert op = decide (j < m)

theorem inserted_replicate [Inhabited K] (h : ∀ p ∈ opId, p < n) :
    Inserted opId (List.replicate n (default : Operation K)) 0 := by
  intro j p hp
  refine ⟨default, ?_, rfl⟩
  rw [List.getElem?_replicate, if_pos (h p (List.mem_of_getElem? hp))]

theorem modifyOp_spec {f : Operation K → Operation K} (h : modifyOp opId i f ops = some ops') :
    ∃ p, opId[i]? = some p ∧ ops' = ops.modify p f := by
  simp only [modifyOp, Option.bind_eq_bind, Option.bind_eq_some_iff, Option.ite_none_right_eq_some,
    Option.pure_def, Option.some.injEq] at h
  obtain ⟨p, hp, -, rfl⟩ := h
  exact ⟨p, hp, rfl⟩

theorem modifyOp_length {f : Operation K → Operation K} (h : modifyOp opId i f ops = some ops') :
    ops'.length = ops.length := by
  obtain ⟨p, -, rfl⟩ := modifyOp_spec h
  exact List.length_modify _ _ _

/-- Giving index `i` a kind changes nothing in the places of the other indices. -/
theorem Inserted.modify (hnodup : opId.Nodup) {f : Operation K → Operation K} {m' : Nat}
    (h : Inserted opId ops m) (hmod : modifyOp opId i f ops = some ops')
    (hf : ∀ op, isInsert (f op) = decide (i < m'))
    (hothers : ∀ j, j ≠ i → decide (j < m') = decide (j < m)) : Inserted opId ops' m' := by
  obtain ⟨q, hq, rfl⟩ := modifyOp_spec hmod
  intro j p hp
  obtain ⟨op, hop, hkind⟩ := h j p hp
  by_cases hji : j = i
  · subst hji
    obtain rfl : q = p := Option.some.inj (hq.symm.trans hp)
    exact ⟨f op, by simp [hop], hf op⟩
  · have hne : q ≠ p := by
      rintro rfl
      have hlt : j < opId.length := (List.getElem?_eq_some_iff.mp hp).1
      exact hji ((List.getElem?_inj hlt hnodup).mp (hp.trans hq.symm))
    exact ⟨op, by simp [hne, hop], hkind.trans (hothers j hji).symm⟩

theorem distribute_inserted {insertCnt : Nat} {kvs bulk bulk' : List (KeyValue K)}
    (hnodup : opId.Nodup)
    (h : distribute opId insertCnt i kvs (ops, bulk) = some (ops', bulk'))
    (hops : Inserted opId ops (min i insertCnt)) :
    ops'.length = ops.length ∧ ∃ m ≤ insertCnt, Inserted opId ops' m := by
  induction kvs generalizing i ops bulk with
  | nil =>
    simp only [distribute, Option.some.injEq, Prod.mk.injEq] at h
    obtain ⟨rfl, rfl⟩ := h
    exact ⟨rfl, _, min_le_right _ _, hops⟩
  | cons kv kvs ih =>
    rw [distribute] at h
    split at h
    · next hlt =>
      simp only [Option.bind_eq_bind, Option.bind_eq_some_iff] at h
      obtain ⟨mid, hmid, h⟩ := h
      have hnext : Inserted opId mid (min (i + 1) insertCnt) := by
        apply hops.modify hnodup hmid
        · intro op
          rw [decide_eq_true (show i < min (i + 1) insertCnt by omega)]
          rfl
        · intro j hj
          rw [decide_eq_decide]
          omega
      obtain ⟨hlen, hrest⟩ := ih h hnext
      exact ⟨hlen.trans (modifyOp_length hmid), hrest⟩
    · next hge =>
      rw [show min i insertCnt = min (i + 1) insertCnt by omega] at hops
      exact ih h hops

theorem label_inserted {op : Op} {lo hi : Nat} (hop : op ≠ .insert) (hnodup : opId.Nodup)
    (hm : m ≤ lo) (h : label opId op lo hi ops = some ops') (hops : Inserted opId ops m) :
    ops'.length = ops.length ∧ Inserted opId ops' m := by
  unfold label at h
  have hge : ∀ j ∈ List.range' lo (hi - lo), m ≤ j := fun j hj =>
    hm.trans (List.mem_range'_1.mp hj).1
  generalize List.range' lo (hi - lo) = js at h hge
  induction js generalizing ops with
  | nil =>
    simp only [List.foldlM_nil, Option.pure_def, Option.some.injEq] at h
    exact h ▸ ⟨rfl, hops⟩
  | cons j js ih =>
    simp only [List.foldlM_cons, Option.bind_eq_bind, Option.bind_eq_some_iff] at h
    obtain ⟨mid, hmid, h⟩ := h
    have hnext : Inserted opId mid m := by
      apply hops.modify hnodup hmid
      · intro e
        rw [decide_eq_false (not_lt.mpr (hge j List.mem_cons_self))]
        simp [isInsert, hop]
      · exact fun _ _ => rfl
    obtain ⟨hlen, hrest⟩ := ih hnext h fun j' hj' => hge j' (List.mem_cons_of_mem j hj')
    exact ⟨hlen.trans (modifyOp_length hmid), hrest⟩

/-- Read in the order of the places, the kinds are those of the indices. -/
theorem Inserted.map_eq (h : Inserted opId ops m) (hlen : ops.length = n)
    (hslots : slots.map (fun j => opId[j]?) = (List.range n).map some) :
    ops.map isInsert = slots.map fun j => decide (j < m) := by
  have hlength : slots.length = n := by simpa using congrArg List.length hslots
  apply List.ext_getElem?
  intro p
  rw [List.getElem?_map, List.getElem?_map]
  cases hj : slots[p]? with
  | none =>
    rw [List.getElem?_eq_none_iff, hlength, ← hlen] at hj
    rw [List.getElem?_eq_none_iff.mpr hj]
    rfl
  | some j =>
    have hlt : p < n := hlength ▸ (List.getElem?_eq_some_iff.mp hj).1
    have hplace : opId[j]? = some p := by
      have hat := congrArg (fun xs => xs[p]?) hslots
      simp only [List.getElem?_map, hj, List.getElem?_range hlt, Option.map_some,
        Option.some.injEq] at hat
      exact hat
    obtain ⟨op, hop, hkind⟩ := h j p hplace
    rw [hop, Option.map_some, Option.map_some, hkind]

section Generate

variable [LinearOrder K] [Double D] {tape tape' : List (Draw K D)} {p : Params D}

omit [LinearOrder K] in
/-- The places of the operations, and the indices in the order of their places. -/
theorem generateOpId_placed (hmix : p.mix = false) (hblock : 1 ≤ p.blockNum)
    (hcnt : insertCnt p + (queryCnts p).2 + (queryCnts p).1 = p.opCnt) (hsize : p.opCnt < 2 ^ 64)
    (h : generateOpId p tape = some (opId, tape')) :
    opId.Perm (List.range p.opCnt) ∧
      ∃ slots, slots.map (fun j => opId[j]?) = (List.range p.opCnt).map some ∧
        ∀ m ≤ insertCnt p, Blocks (fun j => decide (j < m)) p.blockNum slots := by
  simp only [generateOpId, hmix, Bool.false_eq_true, and_false, if_false] at h
  split at h
  · next hone =>
    simp only [generatePermute, bind_eq_some, require_eq_some, Bool.false_eq_true, if_false,
      pure_eq_some, Nat.sub_zero] at h
    obtain ⟨_, _, ⟨_, _, -, rfl, rfl⟩, rfl, rfl⟩ := h
    rw [← List.range_eq_range']
    refine ⟨.refl _, List.range p.opCnt, ?_, fun m _ => ?_⟩
    · apply List.map_congr_left
      intro j hj
      exact List.getElem?_range (List.mem_range.mp hj)
    · have hleads : Leads (fun j => decide (j < m)) (List.range p.opCnt) := by
        apply List.pairwise_lt_range.imp
        intro i j hij hj
        exact decide_eq_true (hij.trans (of_decide_eq_true hj))
      rw [hone]
      exact Blocks.nil.concat hleads
  · rw [← hcnt] at hsize
    obtain ⟨permute, hgen, hperm⟩ := generatePermuteBlockwise_perm hblock hsize
    obtain ⟨permute', slots, hgen', -, -, hslots, hblocks⟩ :=
      generatePermuteBlockwise_placed hblock hsize
    rw [hcnt] at hgen hgen' hslots hperm
    obtain rfl : permute = permute' := Option.some.inj (hgen.symm.trans hgen')
    simp only [bind_eq_some, ofOption_eq_some, hgen, Option.some.injEq, pure_eq_some] at h
    obtain ⟨_, _, ⟨rfl, -⟩, rfl, -⟩ := h
    exact ⟨hperm, slots, hslots, hblocks⟩

theorem generateInserts_inserted {bulk : List (KeyValue K)} {dataVec : List (KeyValue K)} {cnt : Nat}
    {pat : InsertPat} {hotspotRatio : D} (hnodup : opId.Nodup)
    (h : generateInserts ops [] opId dataVec cnt pat hotspotRatio tape = some ((ops', bulk), tape'))
    (hops : Inserted opId ops 0) :
    ops'.length = ops.length ∧ ∃ m ≤ cnt, Inserted opId ops' m := by
  have hstart : Inserted opId ops (min 0 cnt) := by
    rw [Nat.zero_min]
    exact hops
  simp only [generateInserts, bind_eq_some, List.nil_append] at h
  obtain ⟨_, _, -, h⟩ := h
  split at h
  · simp only [bind_eq_some, ofOption_eq_some, pure_eq_some, Prod.mk.injEq] at h
    obtain ⟨⟨os, mid⟩, _, ⟨hdist, -⟩, ⟨rfl, -⟩, -⟩ := h
    exact distribute_inserted hnodup hdist hstart
  · simp only [bind_eq_some, ofOption_eq_some, pure_eq_some, Prod.mk.injEq] at h
    obtain ⟨kvId, _, -, kvs, _, -, ⟨os, mid⟩, _, ⟨hdist, -⟩, sorted, _, -, ⟨rfl, -⟩, -⟩ := h
    exact distribute_inserted hnodup hdist hstart

theorem generateBulkLoads_inserted [Inhabited K] {orgVec bulk : List (KeyValue K)}
    (hperm : opId.Perm (List.range p.opCnt))
    (h : generateBulkLoads p orgVec opId tape = some ((ops, bulk), tape')) :
    ops.length = p.opCnt ∧ ∃ m ≤ insertCnt p, Inserted opId ops m := by
  have hnodup : opId.Nodup := hperm.nodup_iff.mpr List.nodup_range
  have hstart : Inserted opId (List.replicate p.opCnt (default : Operation K)) 0 :=
    inserted_replicate fun q hq => List.mem_range.mp (hperm.mem_iff.mp hq)
  unfold generateBulkLoads at h
  split at h
  · simp only [bind_eq_some] at h
    obtain ⟨⟨os, mid⟩, _, hgen, h⟩ := h
    obtain ⟨hlen, hins⟩ := generateInserts_inserted hnodup hgen hstart
    rw [List.length_replicate] at hlen
    cases hcnt : p.bulkloadCnt with
    | none =>
      simp only [hcnt, pure_eq_some, Prod.mk.injEq] at h
      obtain ⟨⟨rfl, -⟩, -⟩ := h
      exact ⟨hlen, hins⟩
    | some n =>
      simp only [hcnt, bind_eq_some, pure_eq_some, Prod.mk.injEq] at h
      obtain ⟨chosen, _, -, ⟨rfl, -⟩, -⟩ := h
      exact ⟨hlen, hins⟩
  · have hnone : ops = List.replicate p.opCnt default := by
      cases hcnt : p.bulkloadCnt with
      | none =>
        simp only [hcnt, pure_eq_some, Prod.mk.injEq] at h
        exact h.1.1.symm
      | some n =>
        simp only [hcnt, bind_eq_some, pure_eq_some, Prod.mk.injEq] at h
        obtain ⟨chosen, _, -, ⟨rfl, -⟩, -⟩ := h
        rfl
    rw [hnone]
    exact ⟨List.length_replicate, 0, Nat.zero_le _, hstart⟩

/-- A query stays a query, and an insert an insert. -/
theorem generateEqualityLookups_kinds {keyType : KeyType K D} {negativeLookupRatio : D}
    {hasIns : Bool} {dataMap : Multimap K} {dataVec : List (KeyValue K)}
    (h : generateEqualityLookups keyType negativeLookupRatio hasIns dataMap dataVec ops tape =
      some (ops', tape')) :
    ops'.map isInsert = ops.map isInsert := by
  induction ops generalizing dataMap dataVec ops' tape tape' with
  | nil =>
    simp only [generateEqualityLookups, pure_eq_some] at h
    obtain ⟨rfl, -⟩ := h
    rfl
  | cons op ops ih =>
    cases hop : op.op with
    | insert =>
      simp only [generateEqualityLookups, hop, bind_eq_some, pure_eq_some] at h
      obtain ⟨os, _, hos, rfl, -⟩ := h
      rw [List.map_cons, List.map_cons, ih hos]
    | lookup =>
      simp only [generateEqualityLookups, hop, bind_eq_some, pure_eq_some] at h
      obtain ⟨o, _, ho, os, _, hos, rfl, -⟩ := h
      have hkind : o.op = .lookup := generateLookup_op hop ho
      rw [List.map_cons, List.map_cons, ih hos, isInsert, isInsert, hkind, hop]
    | rangeQuery =>
      simp only [generateEqualityLookups, hop, bind_eq_some, pure_eq_some] at h
      obtain ⟨o, _, ho, os, _, hos, rfl, -⟩ := h
      have hkind : o.op = .rangeQuery := generateRangeQuery_op hop ho
      rw [List.map_cons, List.map_cons, ih hos, isInsert, isInsert, hkind, hop]

omit [LinearOrder K] [Double D] in
theorem deal_sublist {threadNum : Nat} {totOps : List (Operation K)}
    {threads threads' : List (List (Operation K))}
    (h : deal threadNum totOps threads tape = some (threads', tape')) {w : Nat}
    {os : List (Operation K)} (hos : threads'[w]? = some os) :
    ∃ old part, threads[w]? = some old ∧ os = old ++ part ∧ part.Sublist totOps := by
  induction totOps generalizing threads tape with
  | nil =>
    simp only [deal, pure_eq_some] at h
    obtain ⟨rfl, -⟩ := h
    exact ⟨os, [], hos, (List.append_nil os).symm, .slnil⟩
  | cons e totOps ih =>
    simp only [deal, bind_eq_some] at h
    obtain ⟨i, _, -, _, _, -, h⟩ := h
    obtain ⟨old, part, hold, rfl, hpart⟩ := ih h
    rw [List.getElem?_modify, Option.map_eq_map, Option.map_eq_some_iff] at hold
    obtain ⟨older, holder, rfl⟩ := hold
    refine ⟨older, ?_⟩
    split
    · exact ⟨e :: part, holder, by simp, hpart.cons_cons e⟩
    · exact ⟨part, holder, rfl, hpart.cons e⟩

/-- In every block of a generated workload the inserts come first. -/
theorem generate_kinds [Inhabited K] {keyType : KeyType K D} {data : Dataset K} {out : Output K}
    (hmix : p.mix = false) (hblock : 1 ≤ p.blockNum)
    (hcnt : insertCnt p + (queryCnts p).2 + (queryCnts p).1 = p.opCnt) (hsize : p.opCnt < 2 ^ 64)
    (h : generate keyType p data tape = some (out, tape')) :
    (p.threadNum = 1 → ∃ os, out.ops = [os] ∧ os.length = p.opCnt ∧ Blocks isInsert p.blockNum os) ∧
      (p.blockNum = 1 → ∀ os ∈ out.ops, Leads isInsert os) := by
  simp only [generate, bind_eq_some, require_eq_some, ofOption_eq_some, pure_eq_some] at h
  obtain ⟨_, _, -, _, _, -, _, _, -, opId, _, hopId, ⟨ops₀, bulk⟩, _, hbulk, ops₁, _,
    ⟨hops₁, -⟩, ops₂, _, ⟨hops₂, -⟩, _, _, -, threads, _, hdeal, outs, _, houts, rfl, rfl⟩ := h
  obtain ⟨hperm, slots, hslots, hblocks⟩ := generateOpId_placed hmix hblock hcnt hsize hopId
  have hnodup : opId.Nodup := hperm.nodup_iff.mpr List.nodup_range
  obtain ⟨hlen₀, m, hm, hins₀⟩ := generateBulkLoads_inserted hperm hbulk
  obtain ⟨hlen₁, hins₁⟩ := label_inserted (by simp) hnodup hm hops₁ hins₀
  have hend : m ≤ (insertCnt p + (queryCnts p).2) % 2 ^ 64 := by
    rw [Nat.mod_eq_of_lt (by omega)]
    omega
  obtain ⟨hlen₂, hins₂⟩ := label_inserted (by simp) hnodup hend hops₂ hins₁
  have hlen : ops₂.length = p.opCnt := hlen₂.trans (hlen₁.trans hlen₀)
  have htotal : Blocks isInsert p.blockNum ops₂ := (hblocks m hm).of_map_eq (hins₂.map_eq hlen hslots)
  obtain ⟨hlens, hthreads⟩ := generateThreads_spec houts
  -- The queries of a thread are generated in the places of the operations dealt to it.
  have hkinds : ∀ (j : Nat) os, outs[j]? = some os → ∃ dealt, threads[j]? = some dealt ∧
      os.map isInsert = dealt.map isInsert := by
    intro j os hos
    have hlt : j < threads.length := hlens ▸ (List.getElem?_eq_some_iff.mp hos).1
    obtain ⟨mid, mid', hgen⟩ := hthreads j threads[j] os (List.getElem?_eq_getElem hlt) hos
    exact ⟨threads[j], List.getElem?_eq_getElem hlt, generateEqualityLookups_kinds hgen⟩
  constructor
  · intro hone
    simp only [dealThreads, hone, Nat.lt_irrefl, if_false, pure_eq_some] at hdeal
    obtain ⟨rfl, -⟩ := hdeal
    obtain ⟨os, rfl⟩ := List.length_eq_one_iff.mp hlens
    obtain ⟨dealt, hdealt, hmap⟩ := hkinds 0 os rfl
    obtain rfl : ops₂ = dealt := by simpa using hdealt
    refine ⟨os, rfl, ?_, htotal.of_map_eq hmap⟩
    rw [← hlen, ← List.length_map isInsert, hmap, List.length_map]
  · intro hone os hos
    obtain ⟨j, hj⟩ := List.mem_iff_getElem?.mp hos
    obtain ⟨dealt, hdealt, hmap⟩ := hkinds j os hj
    have hleads : Leads isInsert ops₂ := (hone ▸ htotal).leads
    refine Leads.of_map_eq (hleads.sublist ?_) hmap
    unfold dealThreads at hdeal
    split at hdeal
    · obtain ⟨old, part, hold, rfl, hpart⟩ := deal_sublist hdeal hdealt
      obtain rfl : old = [] := List.eq_of_mem_replicate (List.mem_of_getElem? hold)
      exact hpart
    · simp only [pure_eq_some] at hdeal
      obtain ⟨rfl, -⟩ := hdeal
      rw [List.mem_singleton.mp (List.mem_of_getElem? hdealt)]

/-- What the constructor and `DoOps` make of a generated workload without mixing. -/
structure Executes (blockNum : Nat) (flag : Bool) (ops : List (List (Operation K))) : Prop where
  blocked : 1 < blockNum → flag = false → ops.length = 1 →
    ∃ os bounds, ops = [os] ∧ boundPoints blockNum flag ops = some bounds ∧ Cuts blockNum bounds os
  rejected : 1 < blockNum → flag = true → boundPoints blockNum flag ops = none
  unblocked : blockNum = 1 → flag = false → ∃ bounds, boundPoints blockNum flag ops = some bounds ∧
    bounds.length = 3 * ops.length ∧
    ∀ (worker : Nat) os, ops[worker]? = some os → Splits bounds worker os
  flagged : blockNum = 1 → flag = true → ∃ bounds, boundPoints blockNum flag ops = some bounds ∧
    ∀ (worker : Nat) os, ops[worker]? = some os → doOps blockNum flag bounds worker os = [os]

omit [LinearOrder K] in
theorem threadBounds_length (flag : Bool) (ops : List (List (Operation K))) :
    (ops.flatMap (threadBounds flag)).length = 3 * ops.length := by
  induction ops with
  | nil => rfl
  | cons os ops ih =>
    rw [List.flatMap_cons, List.length_append, ih, List.length_cons, threadBounds]
    simp only [List.length_cons, List.length_nil]
    omega

omit [LinearOrder K] in
theorem executes_of_kinds {blockNum : Nat} {flag : Bool} {ops : List (List (Operation K))}
    (hblocks : ∀ os, ops = [os] → Blocks isInsert blockNum os)
    (hleads : blockNum = 1 → ∀ os ∈ ops, Leads isInsert os) : Executes blockNum flag ops := by
  refine ⟨?_, ?_, ?_, ?_⟩
  · rintro hn rfl hone
    obtain ⟨os, rfl⟩ := List.length_eq_one_iff.mp hone
    obtain ⟨bounds, hbounds, hcuts⟩ := cuts_of_blocks hn (hblocks os rfl)
    exact ⟨os, bounds, rfl, hbounds, hcuts⟩
  · rintro hn rfl
    rw [boundPoints, if_pos hn, if_pos (.inr rfl)]
  · rintro rfl rfl
    refine ⟨_, rfl, threadBounds_length false ops, fun worker os hos => ?_⟩
    exact splits_of_leads hos (hleads rfl os (List.mem_of_getElem? hos))
  · rintro rfl rfl
    exact ⟨_, rfl, fun worker os hos => doOps_flagged hos⟩

/-- The blockwise order is a permutation, and every workload that is generated without mixing is
executed once, in order, in phases of one kind; a flagged workload has one phase per thread. -/
theorem generated_operations_executed [Inhabited K] (keyType : KeyType K D) :
    (∀ insertCnt lookupCnt rangeQueryCnt blockNum : Nat, 1 ≤ blockNum →
      insertCnt + lookupCnt + rangeQueryCnt < 2 ^ 64 →
      ∃ permute, generatePermuteBlockwise (insertCnt + lookupCnt + rangeQueryCnt) insertCnt
          rangeQueryCnt lookupCnt blockNum = some permute ∧
        permute.Perm (List.range (insertCnt + lookupCnt + rangeQueryCnt)) ∧
        ∀ (ops : List (Operation K)) (m : Nat), m ≤ insertCnt →
          ops.length = insertCnt + lookupCnt + rangeQueryCnt → Inserted permute ops m →
          ∀ flag, Executes blockNum flag [ops]) ∧
      ∀ (p : Params D) (data : Dataset K) (out : Output K) (tape tape' : List (Draw K D)) (ratio : D),
        p.mix = false → 1 ≤ p.blockNum → (1 < p.blockNum → p.threadNum = 1) →
        insertCnt p + (queryCnts p).2 + (queryCnts p).1 = p.opCnt → p.opCnt < 2 ^ 64 →
        generate keyType p data tape = some (out, tape') →
        Executes p.blockNum (benchmarkFlag p.mix ratio) out.ops := by
  constructor
  · intro insertCnt lookupCnt rangeQueryCnt blockNum hblock hsize
    obtain ⟨permute, hgen, hperm⟩ := generatePermuteBlockwise_perm hblock hsize
    obtain ⟨permute', slots, hgen', -, -, hslots, hblocks⟩ :=
      generatePermuteBlockwise_placed hblock hsize
    obtain rfl : permute = permute' := Option.some.inj (hgen.symm.trans hgen')
    refine ⟨permute, hgen, hperm, fun ops m hm hlen hins flag => ?_⟩
    have hkinds : Blocks isInsert blockNum ops := (hblocks m hm).of_map_eq (hins.map_eq hlen hslots)
    apply executes_of_kinds
    · intro os hos
      obtain rfl : ops = os := by simpa using hos
      exact hkinds
    · rintro rfl os hos
      rw [List.mem_singleton.mp hos]
      exact hkinds.leads
  · intro p data out tape tape' ratio hmix hblock hthread hcnt hsize h
    obtain ⟨hblocks, hleads⟩ := generate_kinds hmix hblock hcnt hsize h
    apply executes_of_kinds _ hleads
    intro os hos
    by_cases hone : p.blockNum = 1
    · rw [hone]
      exact Blocks.nil.concat (hleads hone os (by simp [hos]))
    · obtain ⟨os', hos', -, hkinds⟩ := hblocks (hthread (by omega))
      obtain rfl : os' = os := by simpa [hos] using hos'.symm
      exact hkinds

/-- Two inserts, a lookup and a range query in three blocks, and an unblocked workload of one insert
and three lookups. -/
theorem generated_operations_executed_blocks :
    (∃ permute, generatePermuteBlockwise 4 2 1 1 3 = some permute ∧ permute.Perm [0, 1, 2, 3]) ∧
      Executes 1 (benchmarkFlag false (1 / 4 : ℚ))
        [[⟨.insert, 5, 0, 2⟩, ⟨.lookup, 4, 0, Util.notFound⟩, ⟨.lookup, 5, 0, 0⟩,
          ⟨.lookup, 1, 0, (0 : UInt64)⟩]] := by
  obtain ⟨hpermute, hexecutes⟩ := generated_operations_executed linearKeys
  constructor
  · obtain ⟨permute, hgen, hperm, -⟩ := hpermute 2 1 1 3 (by decide) (by decide)
    exact ⟨permute, hgen, hperm⟩
  · exact hexecutes
      { opCnt := 4, rangeQueryRatio := 0, negativeLookupRatio := 1 / 2, insertRatio := 1 / 4,
        pat := .equality, hotspotRatio := 1 / 10, threadNum := 1, mix := false, blockNum := 1,
        bulkloadCnt := none }
      ⟨[1, 2, 5, 7], by decide⟩ ⟨some [⟨1, 0⟩, ⟨2, 1⟩, ⟨7, 3⟩], _⟩
      [.shuffle [2, 0, 1, 3], .sort [⟨1, 0⟩, ⟨2, 1⟩, ⟨7, 3⟩], .scaleFactor 0,
        .scaleFactor (1 / 2), .scaleFactor 1, .randUint32 3, .scaleFactor 1, .randUint32 0] []
      (1 / 4) rfl (by decide) (by decide) (by decide +kernel) (by decide) (by decide +kernel)

/-- An insert-only workload has one phase: its middle bound is 0, and not the number of inserts. -/
theorem insert_only_one_phase :
    (generate linearKeys
        { opCnt := 1, rangeQueryRatio := 0, negativeLookupRatio := 0, insertRatio := 1,
          pat := .equality, hotspotRatio := 1 / 10, threadNum := 1, mix := false, blockNum := 1,
          bulkloadCnt := none }
        ⟨[1, 2], by decide⟩ [.shuffle [0, 1], .sort [⟨2, 1⟩]] =
      some (⟨some [⟨2, 1⟩], [[⟨.insert, 1, 0, 0⟩]]⟩, [])) ∧
    benchmarkFlag false (1 : ℚ) = true ∧
    boundPoints 1 (benchmarkFlag false (1 : ℚ)) [[(⟨.insert, 1, 0, 0⟩ : Operation ℕ)]] =
      some [0, 0, 1] ∧
    ([(⟨.insert, 1, 0, 0⟩ : Operation ℕ)].filter isInsert).length = 1 := by
  decide +kernel

end Generate

end LearnedIndex.Workload
