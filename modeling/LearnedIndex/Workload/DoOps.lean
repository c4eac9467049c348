import LearnedIndex.Loop
import LearnedIndex.Workload.Once

/-! `Benchmark::Run` with one thread and with verification, on any index that answers as a multimap
would: a generated workload never sets `run_failed`. -/

namespace LearnedIndex.Workload

open Util SortedList Oracle

variable {K S D : Type}

/-- What the benchmark calls of an index; `none` is a call that does not come back. -/
structure Index (K S : Type) where
  build : List (KeyValue K) → Option S
  equalityLookup : S → K → Option UInt64
  rangeQuery : S → K → K → Option UInt64
  insert : S → KeyValue K → Option S

variable [LinearOrder K]

section Defs

variable (index : Index K S) (ks : List K)

/-- One round of the loop; `false` sets `run_failed`. -/
def doOp (s : S) (op : Operation K) : Option (S × Bool) :=
  match op.op with
  | .lookup => do return (s, verify ks op (← index.equalityLookup s op.loKey))
  | .rangeQuery => do return (s, verify ks op (← index.rangeQuery s op.loKey op.hiKey))
  | .insert => do return (← index.insert s ⟨op.loKey, op.result⟩, true)

/-- `DoOpsCoreLoop` -/
def doOpsCoreLoop : S → List (Operation K) → Option (S × Bool)
  | s, [] => some (s, true)
  | s, op :: ops => do
    let (s, passed) ← doOp index ks s op
    if passed then doOpsCoreLoop s ops else return (s, false)

/-- The loop of `DoOps` over its phases. -/
def doPhases : S → List (List (Operation K)) → Option (S × Bool)
  | s, [] => some (s, true)
  | s, phase :: phases => do
    let (s, passed) ← doOpsCoreLoop index ks s phase
    if passed then doPhases s phases else return (s, false)

/-- `Run`, after the constructor has put the bounds of the phases. -/
def benchmarkRun (numBlocks : Nat) (flag : Bool) (out : Output K) : Option (S × Bool) := do
  let bounds ← boundPoints numBlocks flag out.ops
  let ops ← out.ops[0]?
  let s ← index.build (out.initial ks)
  doPhases index ks s (doOps numBlocks flag bounds 0 ops)

end Defs

/-- What an index takes, and whether its calls may stop the process. -/
structure Terms (K : Type) where
  stops : Prop
  loads : List (KeyValue K) → Prop
  admits : List (KeyValue K) → KeyValue K → Prop

/-- The terms of an index that takes everything. -/
def Terms.everything : Terms K := ⟨False, fun _ => True, fun _ _ => True⟩

/-- The terms of an index for unique keys that is built on so many pairs. -/
def Terms.unique (stops : Prop) (least : Nat) : Terms K where
  stops := stops
  loads data := least ≤ data.length ∧ (keys data).Nodup
  admits kvs kv := kv.key ∉ keys kvs

/-- On these terms an index that holds these pairs answers as a multimap does. -/
structure Index.Serves (index : Index K S) (terms : Terms K) (Holds : S → List (KeyValue K) → Prop) : Prop where
  build : ∀ {data}, Sorted KeyValue.key data → terms.loads data → ReturnsUnless terms.stops (index.build data) (Holds · data)
  equalityLookup : ∀ {s kvs}, Holds s kvs → ∀ key, ReturnsUnless terms.stops (index.equalityLookup s key) fun answer =>
    ⟨key, answer⟩ ∈ kvs ∨ key ∉ keys kvs ∧ answer = overflow
  rangeQuery : ∀ {s} {kvs : List (KeyValue K)}, Holds s kvs → ∀ lo hi,
    ReturnsUnless terms.stops (index.rangeQuery s lo hi) (· = rangeSum kvs lo hi)
  insert : ∀ {s kvs kv}, Holds s kvs → terms.admits kvs kv →
    ReturnsUnless terms.stops (index.insert s kv) (Holds · (kvs ++ [kv]))

/-- The index admits every insert when it comes. -/
def Terms.AdmitsAll (terms : Terms K) (initial : List (KeyValue K)) (ops : List (Operation K)) : Prop :=
  ∀ pre op post, ops = pre ++ op :: post → op.op = .insert → terms.admits (replay initial pre) ⟨op.loKey, op.result⟩

section Run

variable {index : Index K S} {terms : Terms K} {Holds : S → List (KeyValue K) → Prop} {ks : List K} {s : S}
  {kvs : List (KeyValue K)}

theorem Index.Serves.doOp_spec (h : index.Serves terms Holds) (hs : Holds s kvs) {op : Operation K}
    (hop : Verified ks kvs op) (hadmits : op.op = .insert → terms.admits kvs ⟨op.loKey, op.result⟩) :
    ReturnsUnless terms.stops (doOp index ks s op) fun (s', passed) => passed = true ∧ Holds s' (execute kvs op) := by
  unfold doOp execute
  cases hkind : op.op with
  | lookup =>
    apply (h.equalityLookup hs op.loKey).bind
    intro answer hanswer
    exact ReturnsUnless.some_iff.mpr ⟨hop.passes answer (by simpa only [Answers, hkind] using hanswer), hs⟩
  | rangeQuery =>
    apply (h.rangeQuery hs op.loKey op.hiKey).bind
    intro answer hanswer
    exact ReturnsUnless.some_iff.mpr ⟨hop.passes answer (by simpa only [Answers, hkind] using hanswer), hs⟩
  | insert =>
    apply (h.insert hs (hadmits hkind)).bind
    intro s' hs'
    exact ReturnsUnless.some_iff.mpr ⟨rfl, hs'⟩

/-- Operations whose expected results are those of a multimap. -/
theorem Index.Serves.doOpsCoreLoop_spec (h : index.Serves terms Holds) (hs : Holds s kvs) {ops : List (Operation K)}
    (hops : ∀ pre op post, ops = pre ++ op :: post → Verified ks (replay kvs pre) op) (hadmits : terms.AdmitsAll kvs ops) :
    ReturnsUnless terms.stops (doOpsCoreLoop index ks s ops) fun (s', passed) =>
      passed = true ∧ Holds s' (replay kvs ops) := by
  induction ops generalizing s kvs with
  | nil => exact ReturnsUnless.some_iff.mpr ⟨rfl, hs⟩
  | cons op ops ih =>
    apply (h.doOp_spec hs (hops [] op ops rfl) (hadmits [] op ops rfl)).bind
    rintro ⟨s', passed⟩ ⟨rfl, hs'⟩
    apply ih hs'
    · exact fun pre op' post hsplit => hops (op :: pre) op' post (by rw [hsplit]; rfl)
    · exact fun pre op' post hsplit => hadmits (op :: pre) op' post (by rw [hsplit]; rfl)

theorem doOpsCoreLoop_append (s : S) (ops ops' : List (Operation K)) :
    doOpsCoreLoop index ks s (ops ++ ops') = (do
      let (s, passed) ← doOpsCoreLoop index ks s ops
      if passed then doOpsCoreLoop index ks s ops' else return (s, false)) := by
  induction ops generalizing s with
  | nil => rfl
  | cons op ops ih =>
    rw [List.cons_append, doOpsCoreLoop, doOpsCoreLoop]
    cases doOp index ks s op with
    | none => rfl
    | some r =>
      obtain ⟨s', passed⟩ := r
      cases passed with
      | false => rfl
      | true => exact ih s'

/-- One phase after the other is all of their operations in a row. -/
theorem doPhases_eq (s : S) (phases : List (List (Operation K))) :
    doPhases index ks s phases = doOpsCoreLoop index ks s phases.flatten := by
  induction phases generalizing s with
  | nil => rfl
  | cons phase phases ih =>
    rw [doPhases, List.flatten_cons, doOpsCoreLoop_append]
    simp only [ih]

end Run

section Loads

variable [Double D] {dataVec bulk : List (KeyValue K)} {opId : List Nat} {tape tape' : List (Draw K D)}

omit [LinearOrder K] [Double D] in
theorem distribute_bulk {insertCnt i : Nat} {kvs bulk' : List (KeyValue K)} {ops ops' : List (Operation K)}
    (h : distribute opId insertCnt i kvs (ops, bulk) = some (ops', bulk')) :
    bulk' = bulk ++ kvs.drop (insertCnt - i) := by
  induction kvs generalizing i ops bulk with
  | nil =>
    obtain ⟨-, rfl⟩ := Prod.mk.inj (Option.some.inj h)
    simp
  | cons kv kvs ih =>
    rw [distribute] at h
    split_ifs at h with hlt
    · obtain ⟨ops'', -, h⟩ := Option.bind_eq_some_iff.mp h
      rw [ih h, show insertCnt - i = insertCnt - (i + 1) + 1 by omega, List.drop_succ_cons]
    · rw [ih h, show insertCnt - i = 0 by omega, show insertCnt - (i + 1) = 0 by omega, List.drop_zero, List.drop_zero,
        List.append_assoc, List.singleton_append]

/-- Whatever the pattern, what stays for the bulk load is in order. -/
theorem generateInserts_sorted {ops ops' : List (Operation K)} {insertCnt : Nat} {pat : InsertPat} {hotspotRatio : D}
    (hdata : Sorted KeyValue.key dataVec)
    (h : generateInserts ops [] opId dataVec insertCnt pat hotspotRatio tape = some ((ops', bulk), tape')) :
    Sorted KeyValue.key bulk := by
  obtain ⟨lo, hi, hrange⟩ : ∃ lo hi, insertRange dataVec.length insertCnt hotspotRatio pat = (lo, hi) := ⟨_, _, rfl⟩
  by_cases hpat : pat = .delta
  · obtain rfl : dataVec.length = hi := by
      subst hpat
      exact (Prod.mk.inj hrange).2
    simp only [generateInserts, hrange, if_pos hpat, bind_eq_some, ofOption_eq_some, pure_eq_some, List.nil_append,
      List.drop_length, List.append_nil, Prod.mk.injEq] at h
    obtain ⟨_, _, -, ⟨os, mid⟩, _, ⟨hdist, -⟩, ⟨-, rfl⟩, -⟩ := h
    rw [distribute_bulk hdist]
    refine hdata.sublist (List.Sublist.trans ((List.drop_sublist _ _).append_left _) ?_)
    rw [List.take_append_drop]
  · obtain ⟨hlo, hhi, permute, mid, kvs, os, rest, sorted, hshuffle, hkvs, hdist, hsort, hr⟩ :=
      (generateInserts_shuffled hpat hrange).mp h
    obtain ⟨-, rfl⟩ := Prod.mk.inj hr
    obtain ⟨xs, hxs, hperm⟩ := mapM_permute (n := hi - lo) (shuffle_spec hshuffle)
      (by omega : lo + (hi - lo) ≤ dataVec.length)
    obtain rfl : kvs = xs := Option.some.inj (hkvs.symm.trans hxs)
    rw [distribute_bulk hdist] at hsort ⊢
    obtain ⟨htake, hdrop⟩ := take_drop_glued (hlo.trans hhi) (kvs.drop (insertCnt - 0))
    rw [hdrop] at hsort
    rw [htake]
    exact sorted_glue hlo hdata (sort_sorted hsort) fun x hx =>
      hperm.mem_iff.mp (List.mem_of_mem_drop ((sort_spec hsort).mem_iff.mp hx))

theorem generateBulkLoads_sorted [Inhabited K] {p : Params D} {orgVec : List (KeyValue K)} {ops : List (Operation K)}
    (horg : Sorted KeyValue.key orgVec) (h : generateBulkLoads p orgVec opId tape = some ((ops, bulk), tape')) :
    Sorted KeyValue.key bulk := by
  unfold generateBulkLoads at h
  split at h
  · simp only [bind_eq_some] at h
    obtain ⟨⟨os, mid⟩, _, hgen, h⟩ := h
    have hmid := generateInserts_sorted horg hgen
    cases hcnt : p.bulkloadCnt with
    | none =>
      simp only [hcnt, pure_eq_some, Prod.mk.injEq] at h
      obtain ⟨⟨-, rfl⟩, -⟩ := h
      exact hmid
    | some n =>
      simp only [hcnt, bind_eq_some, pure_eq_some, Prod.mk.injEq] at h
      obtain ⟨chosen, _, hchosen, ⟨-, rfl⟩, -⟩ := h
      exact hmid.sublist (sample_spec hchosen)
  · cases hcnt : p.bulkloadCnt with
    | none =>
      simp only [hcnt, pure_eq_some, Prod.mk.injEq] at h
      obtain ⟨⟨-, rfl⟩, -⟩ := h
      exact horg
    | some n =>
      simp only [hcnt, bind_eq_some, pure_eq_some, Prod.mk.injEq] at h
      obtain ⟨chosen, _, hchosen, ⟨-, rfl⟩, -⟩ := h
      exact horg.sublist (sample_spec hchosen)

/-- What the index is built from is in order. -/
theorem initial_sorted [Inhabited K] {keyType : KeyType K D} {p : Params D} {data : Dataset K} {out : Output K}
    (h : generate keyType p data tape = some (out, tape')) : Sorted KeyValue.key (out.initial data.keys) := by
  simp only [generate, bind_eq_some, require_eq_some, ofOption_eq_some, pure_eq_some] at h
  obtain ⟨_, _, ⟨hsorted, -⟩, _, _, -, _, _, -, opId, _, -, ⟨ops₀, bulk⟩, _, hbulk, ops₁, _, -, ops₂, _, -, _, _, -,
    threads, _, -, outs, _, -, rfl, -⟩ := h
  have hkeys : Sorted KeyValue.key (addValues data.keys) := by
    have hpair := (keys_addValues data.keys).symm ▸ hsorted
    exact List.pairwise_map.mp hpair
  rw [initial_eq hbulk]
  exact generateBulkLoads_sorted hkeys hbulk

end Loads

/-- Parameters of a workload for one thread, with this ratio of inserts in its name, that the
benchmark does not reject; without mixing, the three kinds add up to all operations. -/
structure OneThread [Double D] (p : Params D) (ratio : D) : Prop where
  thread : p.threadNum = 1
  blocks : 1 ≤ p.blockNum
  accepted : 1 < p.blockNum → benchmarkFlag p.mix ratio = false
  kinds : p.mix = false → insertCnt p + (queryCnts p).2 + (queryCnts p).1 = p.opCnt
  size : p.opCnt < 2 ^ 64

section Generated

variable [Double D] {keyType : KeyType K D} {p : Params D} {data : Dataset K} {out : Output K}
  {ops : List (Operation K)} {tape tape' : List (Draw K D)}

/-- What the only thread looks up and sums is in the multimap by then. -/
theorem Prepared.verified {threads : List (List (Operation K))}
    (h : Prepared keyType p data.keys threads out) (hone : p.threadNum = 1) (hops : out.ops = [ops])
    {pre post : List (Operation K)} {op : Operation K} (hsplit : ops = pre ++ op :: post) :
    Verified data.keys (replay (out.initial data.keys) pre) op := by
  obtain ⟨dealt, rfl⟩ := List.length_eq_one_iff.mp (h.threads_length.trans hone)
  obtain ⟨hins, hfits⟩ := h.fits (i := 0) rfl (by rw [hops]; rfl)
  rw [replay_eq]
  apply Fits.verified
  · simpa using hfits pre op post hsplit
  · intro kv hkv
    obtain hkv | hkv := List.mem_append.mp hkv
    · exact h.bulk_mem kv hkv
    · apply h.inserts_mem dealt (List.mem_singleton_self dealt) kv
      rw [← hins, hsplit, inserts_append]
      exact List.mem_append_left _ hkv

/-- The phases of a generated workload are its operations, in their order. -/
theorem phases_flatten [Inhabited K] {ratio : D} (h : generate keyType p data tape = some (out, tape'))
    (hp : OneThread p ratio) (hops : out.ops = [ops]) :
    ∃ bounds, boundPoints p.blockNum (benchmarkFlag p.mix ratio) out.ops = some bounds ∧
      (doOps p.blockNum (benchmarkFlag p.mix ratio) bounds 0 ops).flatten = ops := by
  have hget : out.ops[0]? = some ops := by rw [hops]; rfl
  cases hflag : benchmarkFlag p.mix ratio with
  | true =>
    have hunblocked : p.blockNum = 1 := by
      by_contra hne
      exact absurd (hp.accepted (by have := hp.blocks; omega)) (by rw [hflag]; simp)
    rw [hunblocked]
    refine ⟨_, rfl, ?_⟩
    rw [doOps_flagged hget]
    simp
  | false =>
    have hmix : p.mix = false := by
      unfold benchmarkFlag at hflag
      simp only [Bool.or_eq_false_iff] at hflag
      exact hflag.1.1
    obtain ⟨hblocks, hleads⟩ := generate_kinds hmix hp.blocks (hp.kinds hmix) hp.size h
    have hexecutes : Executes p.blockNum false out.ops := by
      apply executes_of_kinds _ hleads
      intro os hos
      obtain ⟨os', hos', -, hkinds⟩ := hblocks hp.thread
      obtain rfl : os' = os := by simpa [hos] using hos'.symm
      exact hkinds
    by_cases hblocked : 1 < p.blockNum
    · obtain ⟨os, bounds, hos, hbounds, hcuts⟩ := hexecutes.blocked hblocked rfl (by rw [hops]; rfl)
      obtain rfl : ops = os := by simpa [hops] using hos
      exact ⟨bounds, hbounds, hcuts.executed⟩
    · have hunblocked : p.blockNum = 1 := by have := hp.blocks; omega
      obtain ⟨bounds, hbounds, -, hsplits⟩ := hexecutes.unblocked hunblocked rfl
      refine ⟨bounds, hbounds, ?_⟩
      rw [hunblocked, (hsplits 0 ops hget).phases]
      simpa using (hsplits 0 ops hget).executed

variable {index : Index K S} {terms : Terms K} {Holds : S → List (KeyValue K) → Prop}

/-- A generated workload passes on every index that answers as a multimap does and takes the workload,
and leaves in it what it was built from and what was inserted. -/
theorem Index.Serves.benchmarkRun_spec [Inhabited K] (hserves : index.Serves terms Holds) {ratio : D}
    (h : generate keyType p data tape = some (out, tape')) (hp : OneThread p ratio) (hloads : terms.loads (out.initial data.keys))
    (hadmits : ∀ ops, out.ops = [ops] → terms.AdmitsAll (out.initial data.keys) ops) :
    ReturnsUnless terms.stops (benchmarkRun index data.keys p.blockNum (benchmarkFlag p.mix ratio) out)
      fun (s, passed) => passed = true ∧ Holds s (out.initial data.keys ++ out.ops.flatMap inserts) := by
  obtain ⟨threads, hprepared⟩ := generate_prepared h
  obtain ⟨ops, hops⟩ := List.length_eq_one_iff.mp (hprepared.ops_length.trans hp.thread)
  obtain ⟨bounds, hbounds, hphases⟩ := phases_flatten h hp hops
  have hget : out.ops[0]? = some ops := by rw [hops]; rfl
  simp only [benchmarkRun, hbounds, hget, Option.bind_eq_bind, Option.bind_some]
  apply (hserves.build (initial_sorted h) hloads).bind
  intro s hs
  rw [doPhases_eq, hphases]
  have hverified : ∀ pre op post, ops = pre ++ op :: post → Verified data.keys (replay (out.initial data.keys) pre) op :=
    fun pre op post hsplit => hprepared.verified hp.thread hops hsplit
  apply (hserves.doOpsCoreLoop_spec hs hverified (hadmits ops hops)).mono
  rintro ⟨s', passed⟩ ⟨hpassed, hs'⟩
  refine ⟨hpassed, ?_⟩
  simpa [hops, replay_eq] using hs'

/-- An index for unique keys admits the inserts of a workload on unique keys. -/
theorem unique_admitsAll [Inhabited K] (h : generate keyType p data tape = some (out, tape')) (hkeys : data.keys.Nodup)
    (stops : Prop) (least : Nat) (ops : List (Operation K)) (hops : out.ops = [ops]) :
    (Terms.unique stops least).AdmitsAll (out.initial data.keys) ops := by
  intro pre op post hsplit hop
  have hnodup := generate_keys_nodup hkeys h
  rw [hops, List.flatMap_singleton, hsplit, inserts_append, inserts_cons, inserts_singleton_of_insert hop,
    ← List.append_assoc, keys_append, List.nodup_append] at hnodup
  change op.loKey ∉ keys (replay (out.initial data.keys) pre)
  rw [replay_eq]
  exact fun hmem => hnodup.2.2 op.loKey hmem op.loKey List.mem_cons_self rfl

end Generated

end LearnedIndex.Workload
