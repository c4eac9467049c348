import LearnedIndex.Workload.Queries

/-! What `generate` hands to its threads: pairs of the dataset, and no inserts unless the
insert ratio is positive. -/

namespace LearnedIndex.Workload

open Util SortedList Oracle Double

variable {K D : Type}

theorem keys_addValues (ks : List K) : keys (addValues ks) = ks := by
  refine List.ext_getElem? fun i => ?_
  simp only [keys, addValues, List.getElem?_map, List.getElem?_mapIdx, Option.map_map]
  cases ks[i]? <;> rfl

theorem Dataset.getElem_value (data : Dataset K) {kv : KeyValue K} (h : kv ∈ addValues data.keys) :
    data.keys[kv.value.toNat]? = some kv.key := by
  obtain ⟨i, hi, rfl⟩ := List.mem_mapIdx.mp h
  have hlt : i < 18446744073709551616 := hi.trans data.size_lt
  simp [Nat.mod_eq_of_lt hlt, hi]

theorem mem_modify {α : Type} {f : α → α} {i : Nat} {xs : List α} {x : α}
    (h : x ∈ xs.modify i f) : x ∈ xs ∨ ∃ y ∈ xs, x = f y := by
  obtain ⟨j, hj⟩ := List.mem_iff_getElem?.mp h
  rw [List.getElem?_modify] at hj
  cases hx : xs[j]? with
  | none => simp [hx] at hj
  | some y =>
    have hy : y ∈ xs := List.mem_of_getElem? hx
    rw [hx] at hj
    by_cases hij : i = j
    · exact .inr ⟨y, hy, by simpa [hij] using hj.symm⟩
    · exact .inl (by simpa [hij, ← (by simpa [hij] using hj : y = x)] using hy)

section Inserts

variable {P : KeyValue K → Prop} {opId : List Nat} {ops ops' : List (Operation K)}

theorem modifyOp_inserts {i : Nat} {f : Operation K → Operation K}
    (h : modifyOp opId i f ops = some ops') (hops : ∀ kv ∈ inserts ops, P kv)
    (hf : ∀ op, ∀ kv ∈ inserts [f op], P kv) : ∀ kv ∈ inserts ops', P kv := by
  simp only [modifyOp, Option.bind_eq_bind, Option.bind_eq_some_iff] at h
  obtain ⟨p, -, h⟩ := h
  split at h
  · simp only [Option.pure_def, Option.some.injEq] at h
    subst h
    intro kv hkv
    obtain ⟨op, hop, hins, rfl⟩ := mem_inserts.mp hkv
    obtain hop | ⟨op', -, rfl⟩ := mem_modify hop
    · exact hops _ (mem_inserts.mpr ⟨op, hop, hins, rfl⟩)
    · exact hf op' _ (mem_inserts.mpr ⟨_, List.mem_singleton_self _, hins, rfl⟩)
  · cases h

theorem distribute_inserts {insertCnt i : Nat} {kvs bulk bulk' : List (KeyValue K)}
    (h : distribute opId insertCnt i kvs (ops, bulk) = some (ops', bulk'))
    (hkvs : ∀ kv ∈ kvs, P kv) (hops : ∀ kv ∈ inserts ops, P kv) (hbulk : ∀ kv ∈ bulk, P kv) :
    (∀ kv ∈ inserts ops', P kv) ∧ ∀ kv ∈ bulk', P kv := by
  induction kvs generalizing i ops bulk with
  | nil =>
    simp only [distribute, Option.some.injEq, Prod.mk.injEq] at h
    obtain ⟨rfl, rfl⟩ := h
    exact ⟨hops, hbulk⟩
  | cons kv kvs ih =>
    have hkv : P kv := hkvs kv List.mem_cons_self
    have hrest : ∀ kv ∈ kvs, P kv := fun x hx => hkvs x (List.mem_cons_of_mem _ hx)
    rw [distribute] at h
    split at h
    · simp only [Option.bind_eq_bind, Option.bind_eq_some_iff] at h
      obtain ⟨mid, hmid, h⟩ := h
      refine ih h hrest (modifyOp_inserts hmid hops fun op x hx => ?_) hbulk
      obtain rfl : (⟨kv.key, kv.value⟩ : KeyValue K) = x := by
        simpa [inserts, Operation.setInsert, eq_comm] using hx
      exact hkv
    · refine ih h hrest hops fun x hx => ?_
      obtain hx | hx := List.mem_append.mp hx
      · exact hbulk x hx
      · exact List.mem_singleton.mp hx ▸ hkv

theorem label_inserts {op : Op} {lo hi : Nat} (hop : op ≠ .insert)
    (h : label opId op lo hi ops = some ops') (hops : ∀ kv ∈ inserts ops, P kv) :
    ∀ kv ∈ inserts ops', P kv := by
  unfold label at h
  generalize List.range' lo (hi - lo) = js at h
  induction js generalizing ops with
  | nil =>
    simp only [List.foldlM_nil, Option.pure_def, Option.some.injEq] at h
    exact h ▸ hops
  | cons j js ih =>
    simp only [List.foldlM_cons, Option.bind_eq_bind, Option.bind_eq_some_iff] at h
    obtain ⟨mid, hmid, h⟩ := h
    refine ih (modifyOp_inserts hmid hops fun e x hx => ?_) h
    simp [inserts_singleton_of_query, hop] at hx

theorem mapM_getElem? {xs ys : List (KeyValue K)} {is : List Nat}
    (h : is.mapM (fun i => xs[i]?) = some ys) : ∀ y ∈ ys, y ∈ xs := by
  induction is generalizing ys with
  | nil =>
    simp only [List.mapM_nil, Option.pure_def, Option.some.injEq] at h
    simp [← h]
  | cons i is ih =>
    simp only [List.mapM_cons, Option.bind_eq_bind, Option.bind_eq_some_iff, Option.pure_def,
      Option.some.injEq] at h
    obtain ⟨y, hy, ys', hys', rfl⟩ := h
    intro z hz
    obtain rfl | hz := List.mem_cons.mp hz
    · exact List.mem_of_getElem? hy
    · exact ih hys' z hz

end Inserts

theorem inserts_replicate_default [Inhabited K] (n : Nat) :
    inserts (List.replicate n (default : Operation K)) = [] := by
  simp only [inserts, List.filterMap_eq_nil_iff]
  intro op hop
  rw [List.eq_of_mem_replicate hop]
  rfl

section Draws

variable {tape tape' : List (Draw K D)}

theorem deal_mem {threadNum : Nat} {totOps : List (Operation K)}
    {threads threads' : List (List (Operation K))} {P : Operation K → Prop}
    (h : deal threadNum totOps threads tape = some (threads', tape'))
    (htot : ∀ e ∈ totOps, P e) (hthreads : ∀ ops ∈ threads, ∀ e ∈ ops, P e) :
    threads'.length = threads.length ∧ ∀ ops ∈ threads', ∀ e ∈ ops, P e := by
  induction totOps generalizing threads tape with
  | nil =>
    simp only [deal, pure_eq_some] at h
    exact h.1 ▸ ⟨rfl, hthreads⟩
  | cons e totOps ih =>
    simp only [deal, bind_eq_some] at h
    obtain ⟨i, _, -, _, _, -, h⟩ := h
    obtain ⟨hlen, hmem⟩ := ih h (fun x hx => htot x (List.mem_cons_of_mem _ hx)) fun ops hops => by
      obtain hops | ⟨old, hold, rfl⟩ := mem_modify hops
      · exact hthreads ops hops
      · intro x hx
        obtain hx | hx := List.mem_append.mp hx
        · exact hthreads old hold x hx
        · exact List.mem_singleton.mp hx ▸ htot e List.mem_cons_self
    exact ⟨by simpa using hlen, hmem⟩

variable [LinearOrder K]

theorem sort_spec {xs ys : List (KeyValue K)} (h : sort xs tape = some (ys, tape')) :
    ys.Perm xs := by
  obtain ⟨d, -, hd⟩ := next_eq_some.mp h
  cases d with
  | sort zs =>
    simp only [Option.ite_none_right_eq_some, Option.some.injEq] at hd
    obtain ⟨⟨hperm, -⟩, rfl⟩ := hd
    exact List.isPerm_iff.mp hperm
  | _ => cases hd

theorem sample_spec {xs ys : List (KeyValue K)} {n : Nat}
    (h : sample xs n tape = some (ys, tape')) : ys.Sublist xs := by
  obtain ⟨d, -, hd⟩ := next_eq_some.mp h
  cases d with
  | sample zs =>
    simp only [Option.ite_none_right_eq_some, Option.some.injEq] at hd
    obtain ⟨⟨hsub, -⟩, rfl⟩ := hd
    exact hsub
  | _ => cases hd

variable [Double D]

theorem generateInserts_spec {P : KeyValue K → Prop} {ops ops' : List (Operation K)}
    {opId : List Nat} {dataVec bulk : List (KeyValue K)} {insertCnt : Nat} {pat : InsertPat}
    {hotspotRatio : D}
    (h : generateInserts ops [] opId dataVec insertCnt pat hotspotRatio tape =
      some ((ops', bulk), tape'))
    (hdata : ∀ kv ∈ dataVec, P kv) (hops : ∀ kv ∈ inserts ops, P kv) :
    (∀ kv ∈ inserts ops', P kv) ∧ ∀ kv ∈ bulk, P kv := by
  simp only [generateInserts, bind_eq_some, List.nil_append] at h
  obtain ⟨_, _, -, h⟩ := h
  have htake : ∀ n, ∀ kv ∈ dataVec.take n, P kv := fun n kv hkv => hdata kv (List.mem_of_mem_take hkv)
  have hdrop : ∀ n, ∀ kv ∈ dataVec.drop n, P kv := fun n kv hkv => hdata kv (List.mem_of_mem_drop hkv)
  split at h
  · simp only [bind_eq_some, ofOption_eq_some, pure_eq_some, Prod.mk.injEq] at h
    obtain ⟨⟨os, mid⟩, _, ⟨hdist, -⟩, ⟨rfl, rfl⟩, -⟩ := h
    obtain ⟨hins, hmid⟩ := distribute_inserts hdist (hdrop _) hops (htake _)
    refine ⟨hins, fun kv hkv => ?_⟩
    obtain hkv | hkv := List.mem_append.mp hkv
    · exact hmid kv hkv
    · exact hdrop _ kv hkv
  · simp only [bind_eq_some, ofOption_eq_some, pure_eq_some, Prod.mk.injEq] at h
    obtain ⟨kvId, _, -, kvs, _, ⟨hkvs, -⟩, ⟨os, mid⟩, _, ⟨hdist, -⟩, sorted, _, hsort, ⟨rfl, rfl⟩,
      -⟩ := h
    obtain ⟨hins, hmid⟩ := distribute_inserts hdist
      (fun kv hkv => hdata kv (mapM_getElem? hkvs kv hkv)) hops (htake _)
    refine ⟨hins, fun kv hkv => ?_⟩
    simp only [List.mem_append] at hkv
    obtain (hkv | hkv) | hkv := hkv
    · exact hmid kv (List.mem_of_mem_take hkv)
    · exact hmid kv (List.mem_of_mem_drop ((sort_spec hsort).mem_iff.mp hkv))
    · exact hdrop _ kv hkv

theorem generateBulkLoads_spec [Inhabited K] {P : KeyValue K → Prop} {p : Params D}
    {orgVec bulk : List (KeyValue K)} {opId : List Nat} {ops : List (Operation K)}
    (h : generateBulkLoads p orgVec opId tape = some ((ops, bulk), tape'))
    (horg : ∀ kv ∈ orgVec, P kv) :
    (∀ kv ∈ inserts ops, P kv) ∧ (∀ kv ∈ bulk, P kv) ∧
      (hasInserts p = false → inserts ops = [] ∧ bulk.Sublist orgVec) := by
  have hdefault : ∀ kv ∈ inserts (List.replicate p.opCnt (default : Operation K)), P kv := by
    simp [inserts_replicate_default]
  unfold generateBulkLoads at h
  split at h
  · next hins =>
    simp only [bind_eq_some] at h
    obtain ⟨⟨os, mid⟩, _, hgen, h⟩ := h
    obtain ⟨hos, hmid⟩ := generateInserts_spec hgen horg hdefault
    have hnot : hasInserts p = false → inserts ops = [] ∧ bulk.Sublist orgVec := by
      intro hno
      rw [hins] at hno
      cases hno
    cases hcnt : p.bulkloadCnt with
    | none =>
      simp only [hcnt, pure_eq_some, Prod.mk.injEq] at h
      obtain ⟨⟨rfl, rfl⟩, -⟩ := h
      exact ⟨hos, hmid, hnot⟩
    | some n =>
      simp only [hcnt, bind_eq_some, pure_eq_some, Prod.mk.injEq] at h
      obtain ⟨chosen, _, hchosen, ⟨rfl, rfl⟩, -⟩ := h
      exact ⟨hos, fun kv hkv => hmid kv ((sample_spec hchosen).subset hkv), hnot⟩
  · cases hcnt : p.bulkloadCnt with
    | none =>
      simp only [hcnt, pure_eq_some, Prod.mk.injEq] at h
      obtain ⟨⟨rfl, rfl⟩, -⟩ := h
      exact ⟨hdefault, horg, fun _ => ⟨inserts_replicate_default _, .refl _⟩⟩
    | some n =>
      simp only [hcnt, bind_eq_some, pure_eq_some, Prod.mk.injEq] at h
      obtain ⟨chosen, _, hchosen, ⟨rfl, rfl⟩, -⟩ := h
      have hsub := sample_spec hchosen
      exact ⟨hdefault, fun kv hkv => horg kv (hsub.subset hkv),
        fun _ => ⟨inserts_replicate_default _, hsub⟩⟩

/-- Each list of operations that `generate` writes comes from the list dealt to its thread. -/
theorem generateThreads_spec {keyType : KeyType K D} {p : Params D} {bulk : List (KeyValue K)}
    {threads rest outs : List (List (Operation K))} {i : Nat}
    (h : generateThreads keyType p bulk threads i rest tape = some (outs, tape')) :
    outs.length = rest.length ∧ ∀ (j : Nat) (ops ops' : List (Operation K)),
      rest[j]? = some ops → outs[j]? = some ops' →
      ∃ mid mid', generateEqualityLookups keyType p.negativeLookupRatio (hasInserts p)
        (if hasInserts p then initialMap bulk threads (i + j) else .empty) bulk ops mid =
          some (ops', mid') := by
  induction rest generalizing i outs tape with
  | nil =>
    simp only [generateThreads, pure_eq_some] at h
    obtain ⟨rfl, -⟩ := h
    exact ⟨rfl, by simp⟩
  | cons ops rest ih =>
    simp only [generateThreads, bind_eq_some, pure_eq_some] at h
    obtain ⟨ops', mid, hops, outs, _, houts, rfl, rfl⟩ := h
    obtain ⟨hlen, hrest⟩ := ih houts
    refine ⟨by simp [hlen], fun j os os' hj hj' => ?_⟩
    cases j with
    | zero =>
      obtain rfl : ops = os := by simpa using hj
      obtain rfl : ops' = os' := by simpa using hj'
      exact ⟨_, _, hops⟩
    | succ j =>
      rw [show i + (j + 1) = i + 1 + j by omega]
      exact hrest j os os' (by simpa using hj) (by simpa using hj')

/-- The pairs an index starts with: the bulk-load file, or the whole dataset without one. -/
def Output.initial (out : Output K) (ks : List K) : List (KeyValue K) :=
  out.bulkload.getD (addValues ks)

/-- How the operations written for the threads came about. -/
structure Prepared (keyType : KeyType K D) (p : Params D) (ks : List K)
    (threads : List (List (Operation K))) (out : Output K) : Prop where
  threads_length : threads.length = p.threadNum
  ops_length : out.ops.length = p.threadNum
  bulk_mem : ∀ kv ∈ out.initial ks, kv ∈ addValues ks
  inserts_mem : ∀ ops ∈ threads, ∀ kv ∈ inserts ops, kv ∈ addValues ks
  queries_only : hasInserts p = false → Sorted KeyValue.key (out.initial ks) ∧
    ∀ ops ∈ threads, inserts ops = []
  generated : ∀ (i : Nat) (ops ops' : List (Operation K)),
    threads[i]? = some ops → out.ops[i]? = some ops' →
    ∃ mid mid', generateEqualityLookups keyType p.negativeLookupRatio (hasInserts p)
      (if hasInserts p then initialMap (out.initial ks) threads i else .empty) (out.initial ks) ops
        mid = some (ops', mid')

theorem generate_prepared [Inhabited K] {keyType : KeyType K D} {p : Params D} {data : Dataset K}
    {out : Output K} (h : generate keyType p data tape = some (out, tape')) :
    ∃ threads, Prepared keyType p data.keys threads out := by
  simp only [generate, bind_eq_some, require_eq_some, ofOption_eq_some, pure_eq_some] at h
  obtain ⟨_, _, ⟨hsorted, -⟩, _, _, -, _, _, -, opId, _, -, ⟨ops₀, bulk⟩, _, hbulk, ops₁, _,
    ⟨hops₁, -⟩, ops₂, _, ⟨hops₂, -⟩, _, _, ⟨hthread, -⟩, threads, _, hdeal, outs, _, houts, rfl,
    rfl⟩ := h
  have hkeys : Sorted KeyValue.key (addValues data.keys) := by
    have hpair := (keys_addValues data.keys).symm ▸ hsorted
    exact List.pairwise_map.mp hpair
  obtain ⟨hins₀, hbulkMem, hnone⟩ :=
    generateBulkLoads_spec (P := (· ∈ addValues data.keys)) hbulk fun _ h => h
  have hinitial : (Output.mk (if hasInserts p ∨ p.bulkloadCnt.isSome then some bulk else none)
      outs).initial data.keys = bulk := by
    unfold Output.initial
    split
    · rfl
    · next hno =>
      -- Without a bulk-load file the bulk load is the whole dataset.
      obtain ⟨hno, hcnt⟩ := not_or.mp hno
      have hcnt : p.bulkloadCnt = none := by simpa using hcnt
      simp only [generateBulkLoads, hno, hcnt, Bool.false_eq_true, if_false, pure_eq_some,
        Prod.mk.injEq] at hbulk
      simpa using hbulk.1.2
  -- The labels only make queries, so both facts about the inserts survive them.
  have htotal : ∀ {P : KeyValue K → Prop}, (∀ kv ∈ inserts ops₀, P kv) →
      ∀ kv ∈ inserts ops₂, P kv := fun hP =>
    label_inserts (by simp) hops₂ (label_inserts (by simp) hops₁ hP)
  have hthreads : threads.length = p.threadNum ∧
      ∀ ops ∈ threads, ∀ kv ∈ inserts ops, kv ∈ inserts ops₂ := by
    have hsingle : ∀ ops : List (Operation K), (∀ e ∈ ops, e ∈ ops₂) →
        ∀ kv ∈ inserts ops, kv ∈ inserts ops₂ := by
      intro ops hops kv hkv
      obtain ⟨e, he, hrest⟩ := mem_inserts.mp hkv
      exact mem_inserts.mpr ⟨e, hops e he, hrest⟩
    unfold dealThreads at hdeal
    split at hdeal
    · obtain ⟨hlen, hmem⟩ := deal_mem (P := (· ∈ ops₂)) hdeal (fun _ h => h) fun ops hops e he => by
        rw [List.eq_of_mem_replicate hops] at he
        cases he
      exact ⟨by simpa using hlen, fun ops hops => hsingle ops (hmem ops hops)⟩
    · simp only [pure_eq_some] at hdeal
      obtain ⟨rfl, -⟩ := hdeal
      refine ⟨?_, by simp⟩
      simp only [List.length_singleton]
      omega
  obtain ⟨hlen, hgen⟩ := generateThreads_spec houts
  refine ⟨threads, hthreads.1, hlen.trans hthreads.1, ?_, ?_, ?_, ?_⟩
  · rw [hinitial]
    exact hbulkMem
  · exact fun ops hops kv hkv => htotal hins₀ kv (hthreads.2 ops hops kv hkv)
  · intro hno
    rw [hinitial]
    refine ⟨hkeys.sublist (hnone hno).2, fun ops hops => List.eq_nil_iff_forall_not_mem.mpr ?_⟩
    intro kv hkv
    exact htotal (P := fun _ => False) (by simp [(hnone hno).1]) kv (hthreads.2 ops hops kv hkv)
  · rw [hinitial]
    simpa using hgen

end Draws

end LearnedIndex.Workload
