import LearnedIndex.Workload.Generate

/-! What `generate_equality_lookups` promises about the queries it fills in, relative to
the pairs it takes to be in the index. -/

namespace LearnedIndex.Workload

open Util SortedList Oracle Double

variable {K D : Type}

theorem mem_inserts {ops : List (Operation K)} {kv : KeyValue K} :
    kv ∈ inserts ops ↔ ∃ op ∈ ops, op.op = .insert ∧ ⟨op.loKey, op.result⟩ = kv := by
  simp [inserts, List.mem_filterMap]

@[simp] theorem inserts_nil : inserts ([] : List (Operation K)) = [] := rfl

theorem inserts_append (xs ys : List (Operation K)) :
    inserts (xs ++ ys) = inserts xs ++ inserts ys := List.filterMap_append

theorem inserts_cons (op : Operation K) (ops : List (Operation K)) :
    inserts (op :: ops) = inserts [op] ++ inserts ops := inserts_append [op] ops

theorem inserts_singleton_of_insert {op : Operation K} (h : op.op = .insert) :
    inserts [op] = [⟨op.loKey, op.result⟩] := by
  simp [inserts, h]

theorem inserts_singleton_of_query {op : Operation K} (h : op.op ≠ .insert) :
    inserts [op] = [] := by
  simp [inserts, h]

theorem drawKey_spec {dataVec : List (KeyValue K)} {tape tape' : List (Draw K D)} {k : K}
    (h : drawKey dataVec tape = some (k, tape')) : k ∈ keys dataVec := by
  simp only [drawKey, bind_eq_some, ofOption_eq_some, pure_eq_some] at h
  obtain ⟨offset, _, -, kv, _, ⟨hkv, -⟩, rfl, -⟩ := h
  exact mem_keys_of_mem (List.mem_of_getElem? hkv)

variable [LinearOrder K]

/-- A query that succeeds on `present`, fails on `absent` and sums `absent`. -/
structure Fits (present absent : List (KeyValue K)) (op : Operation K) : Prop where
  lookup : op.op = .lookup → op.result = 0 ∧ op.loKey ∈ keys present ∨
    op.result = notFound ∧ op.loKey ∉ keys absent
  range : op.op = .rangeQuery → op.result = rangeSum absent op.loKey op.hiKey

theorem Fits.of_insert {present absent : List (KeyValue K)} {op : Operation K}
    (h : op.op = .insert) : Fits present absent op := by
  constructor <;> simp [h]

theorem Fits.perm {present absent present' absent' : List (KeyValue K)} {op : Operation K}
    (h : Fits present absent op) (hp : present.Perm present') (ha : absent.Perm absent') :
    Fits present' absent' op := by
  constructor
  · intro hop
    obtain ⟨hr, hk⟩ | ⟨hr, hk⟩ := h.lookup hop
    · exact .inl ⟨hr, (hp.map KeyValue.key).mem_iff.mp hk⟩
    · exact .inr ⟨hr, fun hk' => hk ((ha.map KeyValue.key).mem_iff.mpr hk')⟩
  · intro hop
    rw [h.range hop, Multiset.coe_eq_coe.mpr ha]

theorem isExist_iff {data : List (KeyValue K)} (h : Sorted KeyValue.key data) (k : K) :
    isExist data k = true ↔ k ∈ keys data := by
  rw [mem_keys, ← head_lowerBound_iff h, isExist]
  cases (lowerBound KeyValue.key k data).head? <;> simp

theorem interval_sum {data : List (KeyValue K)} (h : Sorted KeyValue.key data) (lo hi : K) :
    ((((lowerBound KeyValue.key lo data).takeWhile fun kv => decide (kv.key ≤ hi)).map
      KeyValue.value).sum) = rangeSum data lo hi := by
  rw [interval_eq_filter h, rangeSum, Multiset.filter_coe, Multiset.map_coe, Multiset.sum_coe]

variable {keyType : KeyType K D} {data dataVec : List (KeyValue K)} {op op' : Operation K}
  {tape tape' : List (Draw K D)}

theorem drawNegative_spec (h : Sorted KeyValue.key data) {minKey maxKey k : K}
    (hk : drawNegative keyType data minKey maxKey tape = some (k, tape')) : k ∉ keys data := by
  induction tape with
  | nil => simp [drawNegative] at hk
  | cons d tape ih =>
    cases d with
    | scaleFactor f =>
      rw [drawNegative] at hk
      split at hk
      · exact ih hk
      · next hnot =>
        simp only [Option.some.injEq, Prod.mk.injEq] at hk
        rw [← hk.1, ← isExist_iff h]
        exact hnot
    | _ => simp [drawNegative] at hk

variable [Double D] {negativeLookupRatio : D}

theorem generateLookup_op (hop : op.op = .lookup)
    (h : generateLookup keyType negativeLookupRatio data dataVec op tape = some (op', tape')) :
    op'.op = .lookup := by
  simp only [generateLookup, bind_eq_some] at h
  obtain ⟨first, _, -, last, _, -, negative, _, -, h⟩ := h
  cases negative with
  | true =>
    simp only [if_true, bind_eq_some, pure_eq_some] at h
    obtain ⟨k, _, -, rfl, -⟩ := h
    exact hop
  | false =>
    simp only [Bool.false_eq_true, if_false, bind_eq_some, pure_eq_some] at h
    obtain ⟨k, _, -, rfl, -⟩ := h
    exact hop

theorem generateLookup_fits (hdata : Sorted KeyValue.key data) (hop : op.op = .lookup)
    (h : generateLookup keyType negativeLookupRatio data dataVec op tape = some (op', tape')) :
    Fits dataVec data op' := by
  have hop' := generateLookup_op hop h
  refine ⟨fun _ => ?_, fun hrange => absurd (hop'.symm.trans hrange) (by decide)⟩
  simp only [generateLookup, bind_eq_some] at h
  obtain ⟨first, _, -, last, _, -, negative, _, -, h⟩ := h
  cases negative with
  | true =>
    simp only [if_true, bind_eq_some, pure_eq_some] at h
    obtain ⟨k, _, hk, rfl, -⟩ := h
    exact .inr ⟨rfl, drawNegative_spec hdata hk⟩
  | false =>
    simp only [Bool.false_eq_true, if_false, bind_eq_some, pure_eq_some] at h
    obtain ⟨k, _, hk, rfl, -⟩ := h
    exact .inl ⟨rfl, drawKey_spec hk⟩

theorem tryRangeQuery_op (hop : op.op = .rangeQuery)
    (h : tryRangeQuery keyType data dataVec op tape = some (some op', tape')) :
    op'.op = .rangeQuery := by
  simp only [tryRangeQuery, bind_eq_some] at h
  obtain ⟨first, _, -, last, _, -, loKey, _, -, h⟩ := h
  split at h
  · simp at h
  simp only [bind_eq_some] at h
  obtain ⟨factor, _, -, hi, _, -, h⟩ := h
  split at h
  · simp at h
  simp only [pure_eq_some, Option.some.injEq] at h
  obtain ⟨rfl, -⟩ := h
  exact hop

theorem tryRangeQuery_fits (hdata : Sorted KeyValue.key data) (hop : op.op = .rangeQuery)
    (h : tryRangeQuery keyType data dataVec op tape = some (some op', tape')) :
    Fits dataVec data op' := by
  have hop' := tryRangeQuery_op hop h
  refine ⟨fun hlookup => absurd (hop'.symm.trans hlookup) (by decide), fun _ => ?_⟩
  simp only [tryRangeQuery, bind_eq_some] at h
  obtain ⟨first, _, -, last, _, -, loKey, _, -, h⟩ := h
  split at h
  · simp at h
  simp only [bind_eq_some] at h
  obtain ⟨factor, _, -, hi, _, -, h⟩ := h
  split at h
  · simp at h
  simp only [pure_eq_some, Option.some.injEq] at h
  obtain ⟨rfl, -⟩ := h
  exact interval_sum hdata _ _

/-- What holds of the result of every attempt holds of the query. -/
theorem generateRangeQuery_try {P : Operation K → Prop}
    (htry : ∀ o mid mid', tryRangeQuery keyType data dataVec op mid = some (some o, mid') → P o)
    {retries : Nat}
    (h : generateRangeQuery keyType data dataVec op retries tape = some (op', tape')) : P op' := by
  induction retries generalizing tape with
  | zero =>
    simp only [generateRangeQuery, bind_eq_some] at h
    obtain ⟨r, _, hr, h⟩ := h
    cases r with
    | none => simp at h
    | some r =>
      simp only [pure_eq_some] at h
      obtain ⟨rfl, -⟩ := h
      exact htry _ _ _ hr
  | succ retries ih =>
    simp only [generateRangeQuery, bind_eq_some] at h
    obtain ⟨r, _, hr, h⟩ := h
    cases r with
    | none => exact ih h
    | some r =>
      simp only [pure_eq_some] at h
      obtain ⟨rfl, -⟩ := h
      exact htry _ _ _ hr

theorem generateRangeQuery_op (hop : op.op = .rangeQuery) {retries : Nat}
    (h : generateRangeQuery keyType data dataVec op retries tape = some (op', tape')) :
    op'.op = .rangeQuery := generateRangeQuery_try (fun _ _ _ => tryRangeQuery_op hop) h

theorem generateRangeQuery_fits (hdata : Sorted KeyValue.key data) (hop : op.op = .rangeQuery)
    {retries : Nat}
    (h : generateRangeQuery keyType data dataVec op retries tape = some (op', tape')) :
    Fits dataVec data op' := generateRangeQuery_try (fun _ _ _ => tryRangeQuery_fits hdata hop) h

theorem shadow_perm_insert (isInsert : Bool) (dataMap : Multimap K) (kv : KeyValue K)
    (rest : List (KeyValue K)) :
    (shadow isInsert (dataMap.emplace kv) (dataVec ++ [kv]) ++ rest).Perm
      (shadow isInsert dataMap dataVec ++ (kv :: rest)) := by
  cases isInsert with
  | false => simp [shadow]
  | true =>
    refine ((insertUpper_perm kv).append_right rest).trans ?_
    exact List.perm_middle.symm

/-- Every query fits the pairs present when it runs, if those are the shadow data and the
pairs inserted before it; the inserts themselves are not touched. -/
theorem generateEqualityLookups_fits {isInsert : Bool} {dataMap : Multimap K}
    {ops ops' : List (Operation K)}
    (hno : isInsert = false → Sorted KeyValue.key dataVec ∧ ∀ op ∈ ops, op.op ≠ .insert)
    (h : generateEqualityLookups keyType negativeLookupRatio isInsert dataMap dataVec ops tape =
      some (ops', tape')) :
    inserts ops' = inserts ops ∧ ∀ pre op post, ops' = pre ++ op :: post →
      Fits (dataVec ++ inserts pre) (shadow isInsert dataMap dataVec ++ inserts pre) op := by
  induction ops generalizing dataMap dataVec ops' tape with
  | nil =>
    simp only [generateEqualityLookups, pure_eq_some] at h
    obtain ⟨rfl, -⟩ := h
    exact ⟨rfl, by simp⟩
  | cons op ops ih =>
    have hdata : Sorted KeyValue.key (shadow isInsert dataMap dataVec) := by
      cases isInsert with
      | false => exact (hno rfl).1
      | true => exact dataMap.sorted
    have hrest : isInsert = false → Sorted KeyValue.key dataVec ∧ ∀ op ∈ ops, op.op ≠ .insert :=
      fun hi => ⟨(hno hi).1, fun o ho => (hno hi).2 o (List.mem_cons_of_mem _ ho)⟩
    -- A query leaves the shadow data alone, so the rest of the list starts from the same data.
    have hquery : ∀ o os mid, o.op ≠ .insert → op.op ≠ .insert →
        Fits dataVec (shadow isInsert dataMap dataVec) o →
        generateEqualityLookups keyType negativeLookupRatio isInsert dataMap dataVec ops mid =
          some (os, tape') →
        inserts (o :: os) = inserts (op :: ops) ∧ ∀ pre q post, o :: os = pre ++ q :: post →
          Fits (dataVec ++ inserts pre) (shadow isInsert dataMap dataVec ++ inserts pre) q := by
      intro o os mid ho hop hfit hos
      obtain ⟨hins, hfits⟩ := ih hrest hos
      rw [inserts_cons o, inserts_cons op, inserts_singleton_of_query ho,
        inserts_singleton_of_query hop, hins]
      refine ⟨rfl, fun pre q post heq => ?_⟩
      cases pre with
      | nil =>
        simp only [List.nil_append, List.cons.injEq] at heq
        simpa [← heq.1] using hfit
      | cons p pre =>
        simp only [List.cons_append, List.cons.injEq] at heq
        rw [inserts_cons, ← heq.1, inserts_singleton_of_query ho]
        exact hfits pre q post heq.2
    cases hop : op.op with
    | insert =>
      simp only [generateEqualityLookups, hop, bind_eq_some, pure_eq_some] at h
      obtain ⟨os, _, hos, rfl, rfl⟩ := h
      have hins' : isInsert = true := by
        cases isInsert with
        | false => exact ((hno rfl).2 op List.mem_cons_self hop).elim
        | true => rfl
      obtain ⟨hins, hfits⟩ := ih (fun hi => by rw [hins'] at hi; cases hi) hos
      rw [inserts_cons op os, inserts_cons op ops, hins]
      refine ⟨rfl, fun pre q post heq => ?_⟩
      cases pre with
      | nil =>
        simp only [List.nil_append, List.cons.injEq] at heq
        exact .of_insert (heq.1 ▸ hop)
      | cons p pre =>
        simp only [List.cons_append, List.cons.injEq] at heq
        rw [inserts_cons, ← heq.1, inserts_singleton_of_insert hop]
        refine (hfits pre q post heq.2).perm ?_ (shadow_perm_insert isInsert dataMap _ _)
        simp
    | lookup =>
      simp only [generateEqualityLookups, hop, bind_eq_some, pure_eq_some] at h
      obtain ⟨o, _, ho, os, _, hos, rfl, rfl⟩ := h
      have ho' := generateLookup_op hop ho
      exact hquery o os _ (by simp [ho']) (by simp [hop]) (generateLookup_fits hdata hop ho) hos
    | rangeQuery =>
      simp only [generateEqualityLookups, hop, bind_eq_some, pure_eq_some] at h
      obtain ⟨o, _, ho, os, _, hos, rfl, rfl⟩ := h
      have ho' := generateRangeQuery_op hop ho
      exact hquery o os _ (by simp [ho']) (by simp [hop]) (generateRangeQuery_fits hdata hop ho) hos

end LearnedIndex.Workload
