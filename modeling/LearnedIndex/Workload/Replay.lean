import LearnedIndex.Workload.Threads
import LearnedIndex.Transition
import Mathlib.Algebra.Order.Floor.Ring
import Mathlib.Data.Rat.Floor

/-! A written workload replayed against a reference multimap: one thread under the checks
of the benchmark, and several threads under any schedule. -/

namespace LearnedIndex.Workload

open Util SortedList Oracle Double Transition

variable {K D : Type}

/-- The reference multimap after an operation. -/
def execute (reference : List (KeyValue K)) (op : Operation K) : List (KeyValue K) :=
  match op.op with
  | .insert => reference ++ [⟨op.loKey, op.result⟩]
  | _ => reference

theorem execute_eq (reference : List (KeyValue K)) (op : Operation K) :
    execute reference op = reference ++ inserts [op] := by
  cases h : op.op <;> simp [execute, h, inserts]

def replay (initial : List (KeyValue K)) (ops : List (Operation K)) : List (KeyValue K) :=
  ops.foldl execute initial

theorem replay_eq (initial : List (KeyValue K)) (ops : List (Operation K)) :
    replay initial ops = initial ++ inserts ops := by
  induction ops generalizing initial with
  | nil => simp [replay]
  | cons op ops ih =>
    calc
      replay initial (op :: ops) = execute initial op ++ inserts ops := ih _
      _ = initial ++ (inserts [op] ++ inserts ops) := by rw [execute_eq, List.append_assoc]
      _ = initial ++ inserts (op :: ops) := by rw [← inserts_cons]

section Concurrent

/-- Threads that run their operations against one shared reference multimap. -/
structure Execution (K : Type) where
  pending : Nat → List (Operation K)
  reference : List (KeyValue K)

/-- Thread `i` runs its next operation. -/
def execStep (s : Execution K) (i : Nat) : Option (Execution K) :=
  match s.pending i with
  | [] => none
  | op :: ops =>
    some ⟨Function.update s.pending i ops, execute s.reference op⟩

def Output.start (out : Output K) (ks : List K) : Execution K :=
  ⟨fun i => (out.ops[i]?).getD [], out.initial ks⟩

/-- The reference holds what it started with and what the threads have inserted so far. -/
def Progress (start s : Execution K) (done : Nat → List (Operation K)) : Prop :=
  (∀ i, done i ++ s.pending i = start.pending i) ∧
    ∀ kv, kv ∈ s.reference ↔ kv ∈ start.reference ∨ ∃ i, kv ∈ inserts (done i)

theorem Progress.step {start s s' : Execution K} {done : Nat → List (Operation K)} {i : Nat}
    (h : Progress start s done) (hs : execStep s i = some s') : ∃ done', Progress start s' done' := by
  obtain ⟨hpending, hreference⟩ := h
  unfold execStep at hs
  split at hs
  · cases hs
  next op ops hop =>
  obtain rfl : Execution.mk (Function.update s.pending i ops) (execute s.reference op) = s' := by
    simpa using hs
  refine ⟨Function.update done i (done i ++ [op]), fun j => ?_, fun kv => ?_⟩
  · by_cases hj : j = i
    · subst hj
      simpa [hop] using hpending j
    · simpa [hj] using hpending j
  · have hdone : (∃ j, kv ∈ inserts (Function.update done i (done i ++ [op]) j)) ↔
        (∃ j, kv ∈ inserts (done j)) ∨ kv ∈ inserts [op] := by
      constructor
      · rintro ⟨j, hj⟩
        by_cases hji : j = i
        · subst hji
          simp only [Function.update_self, inserts_append, List.mem_append] at hj
          exact hj.imp_left fun h => ⟨j, h⟩
        · rw [Function.update_of_ne hji] at hj
          exact .inl ⟨j, hj⟩
      · rintro (⟨j, hj⟩ | hop')
        · refine ⟨j, ?_⟩
          by_cases hji : j = i
          · subst hji
            simp [inserts_append, hj]
          · rwa [Function.update_of_ne hji]
        · exact ⟨i, by simp [inserts_append, hop']⟩
    rw [hdone, execute_eq, List.mem_append, hreference, or_assoc]

theorem run_progress {start s : Execution K} {schedule : List Nat}
    (h : run execStep start schedule = some s) : ∃ done, Progress start s done := by
  refine run_invariant (I := fun s => ∃ done, Progress start s done)
    (fun r i r' (_ : True) hr hs => ?_) (fun _ _ => trivial) ⟨fun _ => [], by simp, by simp⟩ h
  obtain ⟨done, hdone⟩ := hr
  exact hdone.step hs

end Concurrent

variable [LinearOrder K]

/-- The check that `DoOpsCoreLoop` makes on the answer of an index; `false` sets `run_failed`. -/
def verify (ks : List K) (op : Operation K) (answer : UInt64) : Bool :=
  match op.op with
  | .lookup =>
    !((op.result = notFound && answer ≠ overflow) ||
      (op.result = 0 && (ks.length ≤ answer.toNat || ks[answer.toNat]? ≠ some op.loKey)))
  | .rangeQuery => answer = op.result
  | .insert => true

/-- What the reference multimap may answer: any value of the key, `OVERFLOW` for no value. -/
def Answers (reference : List (KeyValue K)) (op : Operation K) (answer : UInt64) : Prop :=
  match op.op with
  | .lookup => ⟨op.loKey, answer⟩ ∈ reference ∨ op.loKey ∉ keys reference ∧ answer = overflow
  | .rangeQuery => answer = rangeSum reference op.loKey op.hiKey
  | .insert => True

/-- An operation whose expected result agrees with the reference multimap it runs on. -/
structure Verified (ks : List K) (reference : List (KeyValue K)) (op : Operation K) : Prop where
  passes : ∀ answer, Answers reference op answer → verify ks op answer = true
  found : op.op = .lookup → op.result = 0 →
    ∃ v, ⟨op.loKey, v⟩ ∈ reference ∧ ks[v.toNat]? = some op.loKey
  missing : op.op = .lookup → op.result = notFound → op.loKey ∉ keys reference
  range : op.op = .rangeQuery → op.result = rangeSum reference op.loKey op.hiKey

theorem Fits.verified {data : Dataset K} {reference : List (KeyValue K)} {op : Operation K}
    (h : Fits reference reference op) (hmem : ∀ kv ∈ reference, kv ∈ addValues data.keys) :
    Verified data.keys reference op := by
  have hvalue : ∀ v, ⟨op.loKey, v⟩ ∈ reference → data.keys[v.toNat]? = some op.loKey :=
    fun v hv => data.getElem_value (hmem _ hv)
  refine ⟨fun answer ha => ?_, fun hop hres => ?_, fun hop hres => ?_, h.range⟩
  · cases hop : op.op with
    | insert => simp [verify, hop]
    | rangeQuery =>
      have hsum : answer = rangeSum reference op.loKey op.hiKey := by simpa [Answers, hop] using ha
      simp [verify, hop, hsum, h.range hop]
    | lookup =>
      have ha : ⟨op.loKey, answer⟩ ∈ reference ∨ op.loKey ∉ keys reference ∧ answer = overflow := by
        simpa [Answers, hop] using ha
      obtain ⟨hres, hk⟩ | ⟨hres, hk⟩ := h.lookup hop
      · have hv : ⟨op.loKey, answer⟩ ∈ reference := ha.resolve_right fun h => h.1 hk
        have hget := hvalue answer hv
        obtain ⟨hlt, hget⟩ := List.getElem?_eq_some_iff.mp hget
        simp [verify, hop, hres, hget, hlt, notFound]
      · obtain ha | ⟨-, rfl⟩ := ha
        · exact (hk (mem_keys_of_mem ha)).elim
        · simp [verify, hop, hres, notFound]
  · obtain ⟨-, hk⟩ | ⟨hres', -⟩ := h.lookup hop
    · obtain ⟨⟨k, v⟩, hkv, rfl⟩ := mem_keys.mp hk
      exact ⟨v, hkv, hvalue v hkv⟩
    · rw [hres] at hres'
      cases hres'
  · obtain ⟨hres', -⟩ | ⟨-, hk⟩ := h.lookup hop
    · rw [hres] at hres'
      cases hres'
    · exact hk

theorem foldl_emplace_perm (m : Multimap K) (kvs : List (KeyValue K)) :
    (kvs.foldl Multimap.emplace m).pairs.Perm (m.pairs ++ kvs) := by
  induction kvs generalizing m with
  | nil => simp
  | cons kv kvs ih =>
    refine (ih _).trans (((insertUpper_perm kv).append_right kvs).trans ?_)
    exact List.perm_middle.symm

theorem initialMap_perm (bulk : List (KeyValue K)) (threads : List (List (Operation K))) (i : Nat) :
    (initialMap bulk threads i).pairs.Perm (bulk ++ (threads.eraseIdx i).flatMap inserts) := by
  refine (foldl_emplace_perm _ _).trans ?_
  simp only [Multimap.empty, List.nil_append]
  split
  · exact List.perm_insertionSort _ _
  · exact .refl _

variable [Double D] {keyType : KeyType K D} {p : Params D} {ks : List K}
  {threads : List (List (Operation K))} {out : Output K}

/-- A query of thread `i` succeeds on what the thread has put there itself, and fails on
everything the others ever put there as well. -/
theorem Prepared.fits (h : Prepared keyType p ks threads out) {i : Nat}
    {ops ops' : List (Operation K)} (hops : threads[i]? = some ops) (hops' : out.ops[i]? = some ops') :
    inserts ops' = inserts ops ∧ ∀ pre op post, ops' = pre ++ op :: post →
      Fits (out.initial ks ++ inserts pre)
        (out.initial ks ++ (threads.eraseIdx i).flatMap inserts ++ inserts pre) op := by
  obtain ⟨mid, mid', hgen⟩ := h.generated i ops ops' hops hops'
  have hmem : ops ∈ threads := List.mem_of_getElem? hops
  cases hins : hasInserts p with
  | true =>
    simp only [hins, if_true] at hgen
    obtain ⟨heq, hfits⟩ := generateEqualityLookups_fits (by simp) hgen
    refine ⟨heq, fun pre op post hsplit => (hfits pre op post hsplit).perm (.refl _) ?_⟩
    exact (initialMap_perm _ _ _).append_right _
  | false =>
    obtain ⟨hsorted, hnone⟩ := h.queries_only hins
    simp only [hins, Bool.false_eq_true, if_false] at hgen
    have hno : ∀ op ∈ ops, op.op ≠ .insert := by
      intro op hop hop'
      have hkv := mem_inserts.mpr ⟨op, hop, hop', rfl⟩
      simp [hnone ops hmem] at hkv
    obtain ⟨heq, hfits⟩ := generateEqualityLookups_fits (fun _ => ⟨hsorted, hno⟩) hgen
    have hothers : (threads.eraseIdx i).flatMap inserts = [] := by
      rw [List.flatMap_eq_nil_iff]
      exact fun os hos => hnone os (List.mem_of_mem_eraseIdx hos)
    refine ⟨heq, fun pre op post hsplit => ?_⟩
    simpa [hothers, shadow] using hfits pre op post hsplit

theorem main_prepared [Inhabited K] {o : Options D} {data : Dataset K} {tape tape' : List (Draw K D)}
    (h : main keyType o data tape = some (out, tape')) :
    ∃ (p : Params D) (threads : List (List (Operation K))),
      p.threadNum = o.thread ∧ Prepared keyType p data.keys threads out := by
  simp only [main, bind_eq_some] at h
  obtain ⟨_, _, -, pat, _, -, _, _, -, _, _, -, h⟩ := h
  obtain ⟨threads, hprep⟩ := generate_prepared h
  exact ⟨_, threads, rfl, hprep⟩

section Claims

def linearKeys : KeyType ℕ ℚ where
  isString := false
  scale f minKey maxKey := (f * ((maxKey - minKey : ℕ) : ℚ)).floor.toNat + minKey
  cap := none

variable [Inhabited K] {o : Options D} {data : Dataset K} {tape tape' : List (Draw K D)}

/-- A workload for one thread passes the checks of the benchmark. -/
theorem generate_passes_verification (hthread : o.thread = 1)
    (h : main keyType o data tape = some (out, tape')) :
    ∃ ops, out.ops = [ops] ∧ ∀ pre op post, ops = pre ++ op :: post →
      Verified data.keys (replay (out.initial data.keys) pre) op := by
  obtain ⟨p, threads, hp, hprep⟩ := main_prepared h
  obtain ⟨ops, hops⟩ := List.length_eq_one_iff.mp (hprep.ops_length.trans (hp.trans hthread))
  obtain ⟨ops₀, rfl⟩ := List.length_eq_one_iff.mp (hprep.threads_length.trans (hp.trans hthread))
  refine ⟨ops, hops, fun pre op post hsplit => ?_⟩
  have hget : out.ops[0]? = some ops := by simp [hops]
  obtain ⟨hins, hfits⟩ := hprep.fits (i := 0) rfl hget
  rw [replay_eq]
  refine Fits.verified (by simpa using hfits pre op post hsplit) fun kv hkv => ?_
  obtain hkv | hkv := List.mem_append.mp hkv
  · exact hprep.bulk_mem kv hkv
  · refine hprep.inserts_mem ops₀ (by simp) kv ?_
    rw [← hins, hsplit, inserts_append]
    exact List.mem_append_left _ hkv

theorem generate_passes_verification_four_operations :
    ∃ ops, (Output.mk (some [⟨1, 0⟩, ⟨2, 1⟩, ⟨7, 3⟩])
        [[⟨.insert, 5, 0, 2⟩, ⟨.lookup, 4, 0, notFound⟩, ⟨.lookup, 5, 0, 0⟩,
          ⟨.lookup, 1, 0, 0⟩]]).ops = [ops] ∧
      ∀ pre op post, ops = pre ++ op :: post →
        Verified [1, 2, 5, 7] (replay [⟨1, 0⟩, ⟨2, 1⟩, ⟨7, 3⟩] pre) op :=
  generate_passes_verification rfl
    (show main linearKeys ⟨4, 1 / 2, 1, 0, 1 / 4, "equality", 1 / 10, false, 1, none⟩
        ⟨[1, 2, 5, 7], by decide⟩
        [.shuffle [2, 0, 1, 3], .sort [⟨1, 0⟩, ⟨2, 1⟩, ⟨7, 3⟩], .scaleFactor 0,
          .scaleFactor (1 / 2), .scaleFactor 1, .randUint32 3, .scaleFactor 1, .randUint32 0] =
      some (_, []) by decide +kernel)

/-- Whatever the schedule, a lookup finds its key when it was generated to, and misses it
when it was generated to. -/
theorem lookups_independent_of_schedule (h : main keyType o data tape = some (out, tape'))
    {schedule : List Nat} {s : Execution K}
    (hrun : run execStep (out.start data.keys) schedule = some s) {i : Nat} {op : Operation K}
    {rest : List (Operation K)} (hnext : s.pending i = op :: rest) (hop : op.op = .lookup) :
    op.result = 0 ∧ op.loKey ∈ keys s.reference ∨
      op.result = notFound ∧ op.loKey ∉ keys s.reference := by
  obtain ⟨p, threads, -, hprep⟩ := main_prepared h
  obtain ⟨done, hpending, hreference⟩ := run_progress hrun
  have hthread : ∀ j, done j ++ s.pending j ≠ [] → ∃ ops ops', threads[j]? = some ops ∧
      out.ops[j]? = some ops' ∧ ops' = done j ++ s.pending j := by
    intro j hne
    rw [hpending j] at hne ⊢
    cases hj : out.ops[j]? with
    | none => simp [Output.start, hj] at hne
    | some ops' =>
      have hlt : j < threads.length := by
        rw [hprep.threads_length, ← hprep.ops_length]
        exact (List.getElem?_eq_some_iff.mp hj).1
      exact ⟨threads[j], ops', by simp [hlt], rfl, by simp [Output.start, hj]⟩
  obtain ⟨ops, ops', hops, hops', hsplit⟩ := hthread i (by simp [hnext])
  rw [hnext] at hsplit
  obtain ⟨hres, hk⟩ | ⟨hres, hk⟩ := ((hprep.fits hops hops').2 _ _ _ hsplit).lookup hop
  · refine .inl ⟨hres, ?_⟩
    obtain ⟨kv, hkv, heq⟩ := mem_keys.mp hk
    refine mem_keys.mpr ⟨kv, (hreference kv).mpr ?_, heq⟩
    exact (List.mem_append.mp hkv).imp_right fun h => ⟨i, h⟩
  · refine .inr ⟨hres, fun hk' => hk ?_⟩
    obtain ⟨kv, hkv, heq⟩ := mem_keys.mp hk'
    refine mem_keys.mpr ⟨kv, ?_, heq⟩
    rw [List.append_assoc, List.mem_append, List.mem_append]
    obtain hkv | ⟨j, hj⟩ := (hreference kv).mp hkv
    · exact .inl hkv
    by_cases hji : j = i
    · exact .inr (.inr (hji ▸ hj))
    · -- Another thread inserts only what it was dealt, all of which the generator avoided.
      have hne : done j ++ s.pending j ≠ [] := by
        intro hnil
        simp [(List.append_eq_nil_iff.mp hnil).1] at hj
      obtain ⟨os, os', hos, hos', heq'⟩ := hthread j hne
      refine .inr (.inl (List.mem_flatMap.mpr ⟨os, List.mem_eraseIdx_iff_getElem?.mpr ⟨j, hji, hos⟩, ?_⟩))
      rw [← (hprep.fits hos hos').1, heq', inserts_append]
      exact List.mem_append_left _ hj

/-- Both threads have run one operation, and the first is to look up what it inserted. -/
theorem lookups_independent_of_schedule_two_threads :
    (0 : UInt64) = 0 ∧ 5 ∈ keys ([⟨1, 0⟩, ⟨2, 1⟩, ⟨7, 3⟩, ⟨5, 2⟩] : List (KeyValue ℕ)) ∨
      0 = notFound ∧ 5 ∉ keys ([⟨1, 0⟩, ⟨2, 1⟩, ⟨7, 3⟩, ⟨5, 2⟩] : List (KeyValue ℕ)) :=
  lookups_independent_of_schedule (i := 0)
    (show main linearKeys ⟨4, 1 / 2, 2, 0, 1 / 4, "equality", 1 / 10, false, 1, none⟩
        ⟨[1, 2, 5, 7], by decide⟩
        [.shuffle [2, 0, 1, 3], .sort [⟨1, 0⟩, ⟨2, 1⟩, ⟨7, 3⟩], .randUint32 0, .randUint32 1,
          .randUint32 0, .randUint32 1, .scaleFactor 1, .randUint32 3, .scaleFactor 0,
          .scaleFactor (1 / 2), .scaleFactor 1, .randUint32 0] =
      some (⟨some [⟨1, 0⟩, ⟨2, 1⟩, ⟨7, 3⟩], [[⟨.insert, 5, 0, 2⟩, ⟨.lookup, 5, 0, 0⟩],
        [⟨.lookup, 4, 0, notFound⟩, ⟨.lookup, 1, 0, 0⟩]]⟩, []) by decide +kernel)
    (show run execStep (Output.start ⟨some [⟨1, 0⟩, ⟨2, 1⟩, ⟨7, 3⟩],
        [[⟨.insert, 5, 0, 2⟩, ⟨.lookup, 5, 0, 0⟩], [⟨.lookup, 4, 0, notFound⟩, ⟨.lookup, 1, 0, 0⟩]]⟩
        [1, 2, 5, 7]) [1, 0] =
      some ⟨_, [⟨1, 0⟩, ⟨2, 1⟩, ⟨7, 3⟩, ⟨5, 2⟩]⟩ from rfl)
    (show _ = Operation.mk .lookup 5 0 0 :: _ from rfl) rfl

end Claims

end LearnedIndex.Workload
