import LearnedIndex.Workload.Kinds
import LearnedIndex.Workload.Splitting

/-! No pair of the dataset is in two places of a generated workload: in the bulk load and among the
inserts, or among the inserts twice. -/

namespace LearnedIndex.Workload

open Util SortedList Oracle

variable {K D : Type} {opId : List Nat} {ops ops' : List (Operation K)} {i : Nat} {kvs bulk bulk' : List (KeyValue K)}

section Places

variable {kv : Multiset (KeyValue K)} {f : Operation K → Operation K}

theorem coe_inserts_cons (op : Operation K) (ops : List (Operation K)) :
    (inserts (op :: ops) : Multiset (KeyValue K)) = inserts [op] + inserts ops := by
  rw [inserts_cons, Multiset.coe_add]

theorem inserts_modify_le (hf : ∀ op, inserts [f op] = kv) (p : Nat) (ops : List (Operation K)) :
    inserts (ops.modify p f) ≤ kv + inserts ops := by
  induction ops generalizing p with
  | nil =>
    rw [List.modify_nil]
    exact Multiset.zero_le _
  | cons op ops ih =>
    cases p with
    | zero =>
      rw [List.modify_zero_cons, coe_inserts_cons (f op), hf, coe_inserts_cons op ops]
      exact add_le_add_right (Multiset.le_add_left _ _) _
    | succ p =>
      rw [List.modify_succ_cons, coe_inserts_cons op (ops.modify p f), coe_inserts_cons op ops, add_left_comm]
      exact add_le_add_right (ih p) _

theorem modifyOp_inserts_le (hf : ∀ op, inserts [f op] = kv) (h : modifyOp opId i f ops = some ops') :
    inserts ops' ≤ kv + inserts ops := by
  obtain ⟨p, -, rfl⟩ := modifyOp_spec h
  exact inserts_modify_le hf p ops

theorem distribute_le {insertCnt : Nat} (h : distribute opId insertCnt i kvs (ops, bulk) = some (ops', bulk')) :
    (inserts ops' + bulk' : Multiset (KeyValue K)) ≤ inserts ops + bulk + kvs := by
  induction kvs generalizing i ops bulk with
  | nil =>
    obtain ⟨rfl, rfl⟩ := Prod.mk.inj (Option.some.inj h)
    exact Multiset.le_add_right _ _
  | cons kv kvs ih =>
    have hcons : ((kv :: kvs : List (KeyValue K)) : Multiset (KeyValue K)) = {kv} + kvs := rfl
    rw [distribute] at h
    split_ifs at h with hlt
    · obtain ⟨mid, hmid, h⟩ := Option.bind_eq_some_iff.mp h
      have hmid : (inserts mid : Multiset (KeyValue K)) ≤ {kv} + inserts ops := modifyOp_inserts_le (fun _ => rfl) hmid
      calc (inserts ops' + bulk' : Multiset (KeyValue K))
          ≤ inserts mid + bulk + kvs := ih h
        _ ≤ {kv} + inserts ops + bulk + kvs := by gcongr
        _ = inserts ops + bulk + (kv :: kvs : List (KeyValue K)) := by rw [hcons]; abel
    · calc (inserts ops' + bulk' : Multiset (KeyValue K))
          ≤ inserts ops + (bulk ++ [kv] : List (KeyValue K)) + kvs := ih h
        _ = inserts ops + bulk + (kv :: kvs : List (KeyValue K)) := by
          rw [hcons, ← Multiset.coe_add, Multiset.coe_singleton]
          abel

theorem label_le {op : Op} {lo hi : Nat} (hop : op ≠ .insert) (h : label opId op lo hi ops = some ops') :
    (inserts ops' : Multiset (KeyValue K)) ≤ inserts ops := by
  unfold label at h
  generalize List.range' lo (hi - lo) = js at h
  induction js generalizing ops with
  | nil =>
    obtain rfl := Option.some.inj h
    exact le_rfl
  | cons j js ih =>
    rw [List.foldlM_cons] at h
    obtain ⟨mid, hmid, h⟩ := Option.bind_eq_some_iff.mp h
    have hnone : ∀ e : Operation K, (inserts [{ e with op := op }] : Multiset (KeyValue K)) = 0 := by
      intro e
      rw [inserts_singleton_of_query hop, Multiset.coe_nil]
    calc (inserts ops' : Multiset (KeyValue K))
        ≤ inserts mid := ih h
      _ ≤ 0 + inserts ops := modifyOp_inserts_le hnone hmid
      _ = inserts ops := zero_add _

theorem inserts_flatMap_modify {threads : List (List (Operation K))} (hi : i < threads.length) (op : Operation K) :
    ((threads.modify i (· ++ [op])).flatMap inserts : Multiset (KeyValue K)) =
      threads.flatMap inserts + inserts [op] := by
  induction threads generalizing i with
  | nil => cases hi
  | cons os threads ih =>
    cases i with
    | zero =>
      simp only [List.modify_zero_cons, List.flatMap_cons, inserts_append, ← Multiset.coe_add]
      abel
    | succ i =>
      rw [List.modify_succ_cons, List.flatMap_cons, List.flatMap_cons, ← Multiset.coe_add, ← Multiset.coe_add,
        ih (Nat.lt_of_succ_lt_succ hi), add_assoc]

theorem deal_inserts {threadNum : Nat} {totOps : List (Operation K)} {threads threads' : List (List (Operation K))}
    {tape tape' : List (Draw K D)} (h : deal threadNum totOps threads tape = some (threads', tape')) :
    (threads'.flatMap inserts : Multiset (KeyValue K)) = threads.flatMap inserts + inserts totOps := by
  induction totOps generalizing threads tape with
  | nil =>
    obtain ⟨rfl, -⟩ := Prod.mk.inj (Option.some.inj h)
    exact (add_zero _).symm
  | cons op totOps ih =>
    simp only [deal, bind_eq_some, require_eq_some] at h
    obtain ⟨i, _, -, _, _, ⟨hi, -⟩, h⟩ := h
    rw [ih h, inserts_flatMap_modify hi, coe_inserts_cons op totOps, add_assoc]

end Places

section Generate

variable [LinearOrder K] [Double D] {dataVec : List (KeyValue K)} {tape tape' : List (Draw K D)}

theorem generateInserts_le {insertCnt : Nat} {pat : InsertPat} {hotspotRatio : D}
    (h : generateInserts ops [] opId dataVec insertCnt pat hotspotRatio tape = some ((ops', bulk), tape')) :
    (inserts ops' + bulk : Multiset (KeyValue K)) ≤ inserts ops + dataVec := by
  obtain ⟨lo, hi, hrange⟩ : ∃ lo hi, insertRange dataVec.length insertCnt hotspotRatio pat = (lo, hi) := ⟨_, _, rfl⟩
  by_cases hpat : pat = .delta
  · obtain rfl : dataVec.length = hi := by
      subst hpat
      exact (Prod.mk.inj hrange).2
    simp only [generateInserts, hrange, if_pos hpat, bind_eq_some, ofOption_eq_some, pure_eq_some, List.nil_append,
      List.drop_length, List.append_nil, Prod.mk.injEq] at h
    obtain ⟨_, _, -, ⟨os, mid⟩, _, ⟨hdist, -⟩, ⟨rfl, rfl⟩, -⟩ := h
    calc (inserts os + mid : Multiset (KeyValue K))
        ≤ inserts ops + dataVec.take lo + dataVec.drop lo := distribute_le hdist
      _ = inserts ops + dataVec := by rw [add_assoc, Multiset.coe_add, List.take_append_drop]
  · obtain ⟨hlo, hhi, permute, mid, kvs, os, rest, sorted, hshuffle, hkvs, hdist, hsort, hr⟩ :=
      (generateInserts_shuffled hpat hrange).mp h
    obtain ⟨rfl, rfl⟩ := Prod.mk.inj hr
    obtain ⟨xs, hxs, hperm⟩ := mapM_permute (n := hi - lo) (shuffle_spec hshuffle)
      (by omega : lo + (hi - lo) ≤ dataVec.length)
    obtain rfl : kvs = xs := Option.some.inj (hkvs.symm.trans hxs)
    have hrest : (rest.take lo ++ sorted).Perm rest := by
      have happend := (sort_spec hsort).append_left (rest.take lo)
      rwa [List.take_append_drop] at happend
    calc (inserts ops' + (rest.take lo ++ sorted ++ dataVec.drop hi : List (KeyValue K)) : Multiset (KeyValue K))
        = inserts ops' + rest + dataVec.drop hi := by
          rw [← Multiset.coe_add, Multiset.coe_eq_coe.mpr hrest, add_assoc]
      _ ≤ inserts ops + dataVec.take lo + kvs + dataVec.drop hi := add_le_add_left (distribute_le hdist) _
      _ = inserts ops + dataVec := by
          conv_rhs => rw [eq_parts hlo dataVec]
          rw [Multiset.coe_eq_coe.mpr hperm, ← Multiset.coe_add, ← Multiset.coe_add, ← add_assoc, ← add_assoc]

theorem generateBulkLoads_le [Inhabited K] {p : Params D}
    (h : generateBulkLoads p dataVec opId tape = some ((ops, bulk), tape')) :
    (inserts ops + bulk : Multiset (KeyValue K)) ≤ dataVec := by
  have hdefault : (inserts (List.replicate p.opCnt (default : Operation K)) : Multiset (KeyValue K)) = 0 :=
    congrArg _ (inserts_replicate_default p.opCnt)
  unfold generateBulkLoads at h
  split at h
  · simp only [bind_eq_some] at h
    obtain ⟨⟨os, mid⟩, _, hgen, h⟩ := h
    have hmid := generateInserts_le hgen
    rw [hdefault, zero_add] at hmid
    cases hcnt : p.bulkloadCnt with
    | none =>
      simp only [hcnt, pure_eq_some, Prod.mk.injEq] at h
      obtain ⟨⟨rfl, rfl⟩, -⟩ := h
      exact hmid
    | some n =>
      simp only [hcnt, bind_eq_some, pure_eq_some, Prod.mk.injEq] at h
      obtain ⟨chosen, _, hchosen, ⟨rfl, rfl⟩, -⟩ := h
      exact (add_le_add_right (Multiset.coe_le.mpr (sample_spec hchosen).subperm) _).trans hmid
  · cases hcnt : p.bulkloadCnt with
    | none =>
      simp only [hcnt, pure_eq_some, Prod.mk.injEq] at h
      obtain ⟨⟨rfl, rfl⟩, -⟩ := h
      rw [hdefault, zero_add]
    | some n =>
      simp only [hcnt, bind_eq_some, pure_eq_some, Prod.mk.injEq] at h
      obtain ⟨chosen, _, hchosen, ⟨rfl, rfl⟩, -⟩ := h
      rw [hdefault, zero_add]
      exact Multiset.coe_le.mpr (sample_spec hchosen).subperm

/-- The queries of a thread are generated around its inserts. -/
theorem generateEqualityLookups_inserts {keyType : KeyType K D} {negativeLookupRatio : D} {hasIns : Bool}
    {dataMap : Multimap K}
    (h : generateEqualityLookups keyType negativeLookupRatio hasIns dataMap dataVec ops tape = some (ops', tape')) :
    inserts ops' = inserts ops := by
  induction ops generalizing dataMap dataVec ops' tape tape' with
  | nil =>
    simp only [generateEqualityLookups, pure_eq_some] at h
    obtain ⟨rfl, -⟩ := h
    rfl
  | cons op ops ih =>
    have hquery : ∀ {o : Operation K} {os : List (Operation K)}, op.op ≠ .insert → o.op = op.op →
        inserts os = inserts ops → inserts (o :: os) = inserts (op :: ops) := by
      intro o os hop ho hos
      rw [inserts_cons o, inserts_cons op, inserts_singleton_of_query hop, inserts_singleton_of_query (ho ▸ hop), hos]
    cases hop : op.op with
    | insert =>
      simp only [generateEqualityLookups, hop, bind_eq_some, pure_eq_some] at h
      obtain ⟨os, _, hos, rfl, -⟩ := h
      rw [inserts_cons op os, inserts_cons op ops, ih hos]
    | lookup =>
      simp only [generateEqualityLookups, hop, bind_eq_some, pure_eq_some] at h
      obtain ⟨o, _, ho, os, _, hos, rfl, -⟩ := h
      exact hquery (by simp [hop]) ((generateLookup_op hop ho).trans hop.symm) (ih hos)
    | rangeQuery =>
      simp only [generateEqualityLookups, hop, bind_eq_some, pure_eq_some] at h
      obtain ⟨o, _, ho, os, _, hos, rfl, -⟩ := h
      exact hquery (by simp [hop]) ((generateRangeQuery_op hop ho).trans hop.symm) (ih hos)

theorem generateThreads_inserts {keyType : KeyType K D} {p : Params D}
    {threads rest outs : List (List (Operation K))}
    (h : generateThreads keyType p bulk threads i rest tape = some (outs, tape')) :
    outs.flatMap inserts = rest.flatMap inserts := by
  induction rest generalizing i outs tape with
  | nil =>
    simp only [generateThreads, pure_eq_some] at h
    obtain ⟨rfl, -⟩ := h
    rfl
  | cons ops rest ih =>
    simp only [generateThreads, bind_eq_some, pure_eq_some] at h
    obtain ⟨ops', mid, hops, outs, _, houts, rfl, rfl⟩ := h
    rw [List.flatMap_cons, List.flatMap_cons, ih houts, generateEqualityLookups_inserts hops]

/-- The bulk load is written unless it is the whole dataset. -/
theorem initial_eq [Inhabited K] {p : Params D} {ks : List K} {outs : List (List (Operation K))}
    (h : generateBulkLoads p (addValues ks) opId tape = some ((ops, bulk), tape')) :
    (Output.mk (if hasInserts p ∨ p.bulkloadCnt.isSome then some bulk else none) outs).initial ks = bulk := by
  unfold Output.initial
  split_ifs with hwritten
  · rfl
  · obtain ⟨hno, hcnt⟩ := not_or.mp hwritten
    have hcnt : p.bulkloadCnt = none := by simpa using hcnt
    simp only [generateBulkLoads, hno, hcnt, Bool.false_eq_true, if_false, pure_eq_some, Prod.mk.injEq] at h
    simpa using h.1.2

variable [Inhabited K] {keyType : KeyType K D} {p : Params D} {data : Dataset K} {out : Output K}

theorem generate_bulkload (h : generate keyType p data tape = some (out, tape')) :
    out.bulkload = if hasInserts p ∨ p.bulkloadCnt.isSome then some (out.initial data.keys) else none := by
  simp only [generate, bind_eq_some, require_eq_some, ofOption_eq_some, pure_eq_some] at h
  obtain ⟨_, _, -, _, _, -, _, _, -, opId, _, -, ⟨ops₀, bulk⟩, _, hbulk, _, _, -, _, _, -, _, _, -, _, _, -, outs, _, -, rfl,
    -⟩ := h
  rw [initial_eq hbulk]

theorem generate_le (h : generate keyType p data tape = some (out, tape')) :
    (out.initial data.keys + out.ops.flatMap inserts : Multiset (KeyValue K)) ≤ addValues data.keys := by
  simp only [generate, bind_eq_some, require_eq_some, ofOption_eq_some, pure_eq_some] at h
  obtain ⟨_, _, -, _, _, -, _, _, -, opId, _, -, ⟨ops₀, bulk⟩, _, hbulk, ops₁, _, ⟨hops₁, -⟩, ops₂, _, ⟨hops₂, -⟩, _, _,
    -, threads, _, hdeal, outs, _, houts, rfl, -⟩ := h
  have hthreads : (threads.flatMap inserts : Multiset (KeyValue K)) = inserts ops₂ := by
    unfold dealThreads at hdeal
    split at hdeal
    · have hnone : (List.replicate p.threadNum ([] : List (Operation K))).flatMap inserts = [] := by
        rw [List.flatMap_eq_nil_iff]
        intro ops hops
        rw [List.eq_of_mem_replicate hops]
        rfl
      rw [deal_inserts hdeal, hnone, Multiset.coe_nil, zero_add]
    · simp only [pure_eq_some] at hdeal
      obtain ⟨rfl, -⟩ := hdeal
      rw [List.flatMap_singleton]
  calc (_ + outs.flatMap inserts : Multiset (KeyValue K))
      = bulk + inserts ops₂ := by rw [initial_eq hbulk, generateThreads_inserts houts, hthreads]
    _ ≤ bulk + inserts ops₀ := by
        gcongr
        exact (label_le (by simp) hops₂).trans (label_le (by simp) hops₁)
    _ ≤ addValues data.keys := by
        rw [add_comm]
        exact generateBulkLoads_le hbulk

/-- Keys that are unique in the dataset stay so in the workload. -/
theorem generate_keys_nodup (hkeys : data.keys.Nodup) (h : generate keyType p data tape = some (out, tape')) :
    (keys (out.initial data.keys ++ out.ops.flatMap inserts)).Nodup := by
  have hmap := Multiset.map_le_map (f := KeyValue.key) (generate_le h)
  rw [Multiset.coe_add, Multiset.map_coe, Multiset.map_coe] at hmap
  have hall : (keys (addValues data.keys)).Nodup := (keys_addValues data.keys).symm ▸ hkeys
  exact Multiset.coe_nodup.mp (Multiset.nodup_of_le hmap (Multiset.coe_nodup.mpr hall))

omit [LinearOrder K] [Inhabited K] in
theorem addValues_nodup (data : Dataset K) : (addValues data.keys).Nodup := by
  apply List.Nodup.of_map KeyValue.value
  rw [List.nodup_iff_getElem?_ne_getElem?]
  intro i j hij hj heq
  simp only [addValues, List.length_map, List.length_mapIdx] at hj
  have hi := hij.trans hj
  have hsize := data.size_lt
  simp [addValues, hi, hj] at heq
  have hnat := congrArg UInt64.toNat heq
  simp only [UInt64.toNat_ofNat'] at hnat
  omega

/-- No pair of the dataset is inserted twice, or inserted and loaded as well, whatever the pattern, the
mixing, the blocks and the number of threads. -/
theorem pairs_used_once (h : generate keyType p data tape = some (out, tape')) :
    (out.initial data.keys ++ out.ops.flatMap inserts).Nodup ∧
      ∀ kv ∈ out.initial data.keys ++ out.ops.flatMap inserts, kv ∈ addValues data.keys := by
  have hle := generate_le h
  rw [Multiset.coe_add] at hle
  constructor
  · exact Multiset.coe_nodup.mp (Multiset.nodup_of_le hle (Multiset.coe_nodup.mpr (addValues_nodup data)))
  · exact fun kv hkv => Multiset.mem_coe.mp (Multiset.mem_of_le hle (Multiset.mem_coe.mpr hkv))

/-- Two threads with an insert between them. -/
theorem pairs_used_once_two_threads :
    let out : Output ℕ := ⟨some [⟨1, 0⟩, ⟨2, 1⟩, ⟨7, 3⟩], [[⟨.insert, 5, 0, 2⟩, ⟨.lookup, 5, 0, 0⟩],
      [⟨.lookup, 4, 0, notFound⟩, ⟨.lookup, 1, 0, 0⟩]]⟩
    (out.initial [1, 2, 5, 7] ++ out.ops.flatMap inserts).Nodup ∧
      ∀ kv ∈ out.initial [1, 2, 5, 7] ++ out.ops.flatMap inserts, kv ∈ addValues [1, 2, 5, 7] :=
  pairs_used_once (show generate linearKeys
      { opCnt := 4, rangeQueryRatio := 0, negativeLookupRatio := 1 / 2, insertRatio := 1 / 4,
        pat := .equality, hotspotRatio := 1 / 10, threadNum := 2, mix := false, blockNum := 1,
        bulkloadCnt := none }
      ⟨[1, 2, 5, 7], by decide⟩
      [.shuffle [2, 0, 1, 3], .sort [⟨1, 0⟩, ⟨2, 1⟩, ⟨7, 3⟩], .randUint32 0, .randUint32 1, .randUint32 0,
        .randUint32 1, .scaleFactor 1, .randUint32 3, .scaleFactor 0, .scaleFactor (1 / 2), .scaleFactor 1,
        .randUint32 0] = some (_, []) by decide +kernel)

end Generate

end LearnedIndex.Workload
