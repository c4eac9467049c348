import LearnedIndex.Workload.Permute
import LearnedIndex.Workload.Threads

/-! How `generate_inserts` splits the data into inserts and a bulk load. -/

namespace LearnedIndex.Workload

open SortedList Oracle Double

variable {K D : Type} {opId : List Nat} {ops ops' : List (Operation K)}
  {dataVec bulk kvs : List (KeyValue K)} {insertCnt i : Nat}

/-- The operations at the first places of `opId` became inserts of `kvs`, the others stayed. -/
structure Placement (opId : List Nat) (ops ops' : List (Operation K)) (kvs : List (KeyValue K)) :
    Prop where
  inserted : ∀ (j : Nat) (kv : KeyValue K), kvs[j]? = some kv →
    ∃ p, ∃ op : Operation K, opId[j]? = some p ∧ ops[p]? = some op ∧
      ops'[p]? = some (op.setInsert kv)
  untouched : ∀ p, p ∉ opId.take kvs.length → ops'[p]? = ops[p]?

theorem Placement.nil (opId : List Nat) (ops : List (Operation K)) : Placement opId ops ops [] where
  inserted j kv h := by simp at h
  untouched p _ := rfl

theorem Placement.cons {p : Nat} {kv : KeyValue K} (hnodup : (p :: opId).Nodup)
    (hp : p < ops.length) (h : Placement opId (ops.modify p (.setInsert kv)) ops' kvs) :
    Placement (p :: opId) ops ops' (kv :: kvs) where
  inserted j kv' hkv' := by
    cases j with
    | zero =>
      obtain rfl : kv = kv' := by simpa using hkv'
      have hnot : p ∉ opId.take kvs.length := fun hmem =>
        (List.nodup_cons.mp hnodup).1 (List.mem_of_mem_take hmem)
      refine ⟨p, ops[p], rfl, List.getElem?_eq_getElem hp, ?_⟩
      rw [h.untouched p hnot, List.getElem?_modify_eq, List.getElem?_eq_getElem hp]
      rfl
    | succ j =>
      obtain ⟨q, op, hq, hop, hop'⟩ := h.inserted j kv' (by simpa using hkv')
      have hne : p ≠ q := fun heq =>
        (List.nodup_cons.mp hnodup).1 (heq ▸ List.mem_of_getElem? hq)
      rw [List.getElem?_modify_ne _ _ hne] at hop
      exact ⟨q, op, by simpa using hq, hop, hop'⟩
  untouched q hq := by
    rw [List.length_cons, List.take_succ_cons, List.mem_cons, not_or] at hq
    rw [h.untouched q hq.2, List.getElem?_modify_ne _ _ (Ne.symm hq.1)]

theorem distribute_eq (hnodup : opId.Nodup) (hrange : ∀ p ∈ opId, p < ops.length)
    (hcnt : insertCnt ≤ opId.length) (kvs bulk : List (KeyValue K)) :
    ∃ ops', distribute opId insertCnt i kvs (ops, bulk) =
        some (ops', bulk ++ kvs.drop (insertCnt - i)) ∧
      Placement (opId.drop i) ops ops' (kvs.take (insertCnt - i)) := by
  induction kvs generalizing i ops bulk with
  | nil => exact ⟨ops, by simp [distribute], by simpa using Placement.nil _ ops⟩
  | cons kv kvs ih =>
    rw [distribute]
    split
    · next hlt =>
      have hi : i < opId.length := hlt.trans_le hcnt
      have hp : opId[i] < ops.length := hrange _ (List.getElem_mem hi)
      have hmodify : modifyOp opId i (.setInsert kv) ops =
          some (ops.modify opId[i] (.setInsert kv)) := by
        rw [modifyOp, List.getElem?_eq_getElem hi]
        exact if_pos hp
      have hrange' : ∀ p ∈ opId, p < (ops.modify opId[i] (.setInsert kv)).length := by
        simpa using hrange
      obtain ⟨ops', hops', hplace⟩ := ih (i := i + 1) hrange' bulk
      have hcons := List.drop_eq_getElem_cons hi ▸ Placement.cons
        (List.drop_eq_getElem_cons hi ▸ hnodup.drop) hp hplace
      refine ⟨ops', ?_, ?_⟩
      · rw [hmodify, Option.bind_eq_bind, Option.bind_some, hops',
          show insertCnt - i = insertCnt - (i + 1) + 1 by omega, List.drop_succ_cons]
      · rw [show insertCnt - i = insertCnt - (i + 1) + 1 by omega, List.take_succ_cons]
        exact hcons
    · next hge =>
      obtain ⟨ops', hops', hplace⟩ := ih (i := i + 1) hrange (bulk ++ [kv])
      rw [show insertCnt - (i + 1) = 0 by omega] at hops' hplace
      refine ⟨ops', ?_, ?_⟩
      · rw [hops', show insertCnt - i = 0 by omega]
        simp
      · rw [show insertCnt - i = 0 by omega, List.take_zero]
        rw [List.take_zero] at hplace
        exact ⟨fun j kv h => by simp at h, fun p _ => hplace.untouched p (by simp)⟩

theorem filterMap_range' {xs : List (KeyValue K)} {lo n : Nat} (h : lo + n ≤ xs.length) :
    (List.range' lo n).filterMap (fun j => xs[j]?) = (xs.drop lo).take n := by
  induction n generalizing lo with
  | zero => simp
  | succ n ih =>
    have hlo : lo < xs.length := by omega
    rw [List.range'_succ, List.filterMap_cons, List.getElem?_eq_getElem hlo, ih (by omega),
      List.drop_eq_getElem_cons hlo, List.take_succ_cons]

/-- The pairs at shuffled positions of a part of the dataset are the pairs of this part. -/
theorem mapM_permute {xs : List (KeyValue K)} {permute : List Nat} {lo n : Nat}
    (h : permute.Perm (List.range' lo n)) (hlen : lo + n ≤ xs.length) :
    ∃ kvs, permute.mapM (fun j => xs[j]?) = some kvs ∧ kvs.Perm ((xs.drop lo).take n) := by
  refine ⟨permute.filterMap fun j => xs[j]?, ?_, filterMap_range' hlen ▸ h.filterMap _⟩
  have hlt : ∀ j ∈ permute, j < xs.length := fun j hj => by
    have hmem := List.mem_range'_1.mp (h.mem_iff.mp hj)
    omega
  clear h
  induction permute with
  | nil => rfl
  | cons j permute ih =>
    rw [List.mapM_cons, List.filterMap_cons, ih fun i hi => hlt i (List.mem_cons_of_mem j hi),
      List.getElem?_eq_getElem (hlt j List.mem_cons_self)]
    rfl

theorem shuffle_eq {xs permute : List Nat} (h : permute.Perm xs) (tape : List (Draw K D)) :
    shuffle xs (.shuffle permute :: tape) = some (permute, tape) := by
  rw [shuffle, next_eq_some]
  exact ⟨_, rfl, if_pos (List.isPerm_iff.mpr h)⟩

theorem shuffle_spec {xs permute : List Nat} {tape tape' : List (Draw K D)}
    (h : shuffle xs tape = some (permute, tape')) : permute.Perm xs := by
  obtain ⟨d, -, hd⟩ := next_eq_some.mp h
  cases d with
  | shuffle ys =>
    simp only [Option.ite_none_right_eq_some, Option.some.injEq] at hd
    obtain ⟨hperm, rfl⟩ := hd
    exact List.isPerm_iff.mp hperm
  | _ => cases hd

section Split

variable [LinearOrder K] {r : List (Operation K) × List (KeyValue K)} {tape tape' : List (Draw K D)}

theorem sort_eq {xs ys : List (KeyValue K)} (hperm : ys.Perm xs) (hsorted : Sorted KeyValue.key ys)
    (tape : List (Draw K D)) : sort xs (.sort ys :: tape) = some (ys, tape) := by
  rw [sort, next_eq_some]
  exact ⟨_, rfl, if_pos ⟨List.isPerm_iff.mpr hperm, hsorted⟩⟩

theorem sort_sorted {xs ys : List (KeyValue K)} (h : sort xs tape = some (ys, tape')) :
    Sorted KeyValue.key ys := by
  obtain ⟨d, -, hd⟩ := next_eq_some.mp h
  cases d with
  | sort zs =>
    simp only [Option.ite_none_right_eq_some, Option.some.injEq] at hd
    obtain ⟨⟨-, hsorted⟩, rfl⟩ := hd
    exact hsorted
  | _ => cases hd

/-- `insert_cnt` operations became inserts, and the bulk load and the inserted pairs are the
dataset. -/
def Lossless (ops : List (Operation K)) (opId : List Nat) (dataVec : List (KeyValue K))
    (insertCnt : Nat) (r : List (Operation K) × List (KeyValue K)) : Prop :=
  ∃ kvs, kvs.length = insertCnt ∧ Placement opId ops r.1 kvs ∧ Sorted KeyValue.key r.2 ∧
    (kvs ++ r.2).Perm dataVec

omit [LinearOrder K] in
theorem eq_parts {lo hi : Nat} (hlo : lo ≤ hi) (xs : List (KeyValue K)) :
    xs = xs.take lo ++ ((xs.drop lo).take (hi - lo) ++ xs.drop hi) := by
  rw [show xs.drop hi = (xs.drop lo).drop (hi - lo) by rw [List.drop_drop, Nat.add_sub_cancel' hlo],
    List.take_append_drop, List.take_append_drop]

/-- The three parts that the bulk load is glued together from. -/
theorem sorted_glue {xs sorted : List (KeyValue K)} {lo hi : Nat} (hlo : lo ≤ hi)
    (hxs : Sorted KeyValue.key xs) (hsorted : Sorted KeyValue.key sorted)
    (hmem : ∀ x ∈ sorted, x ∈ (xs.drop lo).take (hi - lo)) :
    Sorted KeyValue.key (xs.take lo ++ sorted ++ xs.drop hi) := by
  rw [eq_parts hlo xs] at hxs
  obtain ⟨hpre, hrest, hcross⟩ := List.pairwise_append.mp hxs
  obtain ⟨-, hsuf, hcross'⟩ := List.pairwise_append.mp hrest
  rw [List.append_assoc]
  refine List.pairwise_append.mpr ⟨hpre, List.pairwise_append.mpr ⟨hsorted, hsuf, ?_⟩, ?_⟩
  · intro x hx y hy
    exact hcross' x (hmem x hx) y hy
  · intro x hx y hy
    apply hcross x hx y
    obtain hy | hy := List.mem_append.mp hy
    · exact List.mem_append_left _ (hmem y hy)
    · exact List.mem_append_right _ hy

variable {pat : InsertPat} {lo hi : Nat} {kvs : List (KeyValue K)}

/-- What the shuffled patterns make of the pairs between `lo` and `hi`. -/
theorem splits_of_shuffled {sorted : List (KeyValue K)} (hdata : Sorted KeyValue.key dataVec)
    (hlo : lo ≤ hi) (hkvs : kvs.Perm ((dataVec.drop lo).take (hi - lo)))
    (hcnt : insertCnt ≤ kvs.length) (hplace : Placement opId ops ops' (kvs.take insertCnt))
    (hperm : sorted.Perm (kvs.drop insertCnt)) (hsorted : Sorted KeyValue.key sorted) :
    Lossless ops opId dataVec insertCnt (ops', dataVec.take lo ++ sorted ++ dataVec.drop hi) := by
  refine ⟨kvs.take insertCnt, List.length_take_of_le hcnt, hplace, ?_, ?_⟩
  · exact sorted_glue hlo hdata hsorted fun x hx =>
      hkvs.mem_iff.mp (List.mem_of_mem_drop (hperm.mem_iff.mp hx))
  · have hparts : (kvs.take insertCnt ++ sorted).Perm ((dataVec.drop lo).take (hi - lo)) := by
      apply List.Perm.trans (hperm.append_left _)
      rwa [List.take_append_drop]
    simp only [List.append_assoc]
    apply List.Perm.trans (List.perm_append_comm_assoc _ _ _)
    conv_rhs => rw [eq_parts hlo dataVec]
    apply List.Perm.append_left
    rw [← List.append_assoc]
    exact hparts.append_right _

section Patterns

variable [Double D] {hotspotRatio : D}

/-- The part of the dataset that a hotspot covers lies in it and has a pair for every insert. -/
def HotspotFits (size insertCnt : Nat) (hotspotRatio : D) : Prop :=
  ∃ lo hi, lo = trunc ((0.3 : D) * (size : D)) ∧ hi = trunc ((lo : D) + hotspotRatio * (size : D)) ∧
    lo + insertCnt ≤ hi ∧ hi ≤ size

omit [LinearOrder K] in
theorem insertRange_fits (hcnt : insertCnt ≤ dataVec.length) (hsize : dataVec.length < 2 ^ 64)
    (hfits : pat = .hotspot → HotspotFits dataVec.length insertCnt hotspotRatio)
    (h : insertRange dataVec.length insertCnt hotspotRatio pat = (lo, hi)) :
    lo + insertCnt ≤ hi ∧ hi ≤ dataVec.length := by
  cases pat with
  | equality =>
    obtain ⟨rfl, rfl⟩ := Prod.mk.inj h
    exact ⟨by omega, le_rfl⟩
  | delta =>
    obtain ⟨rfl, rfl⟩ := Prod.mk.inj h
    rw [sizeSub_eq hcnt hsize]
    exact ⟨by omega, le_rfl⟩
  | hotspot =>
    obtain ⟨_, _, rfl, rfl, hle, hlen⟩ := hfits rfl
    obtain ⟨rfl, rfl⟩ := Prod.mk.inj h
    exact ⟨hle, hlen⟩

theorem generateInserts_shuffled (hpat : pat ≠ .delta)
    (hrange : insertRange dataVec.length insertCnt hotspotRatio pat = (lo, hi)) :
    generateInserts ops [] opId dataVec insertCnt pat hotspotRatio tape = some (r, tape') ↔
      lo ≤ hi ∧ hi ≤ dataVec.length ∧ ∃ permute mid kvs ops' bulk sorted,
        shuffle (List.range' lo (hi - lo)) tape = some (permute, mid) ∧
        permute.mapM (fun j => dataVec[j]?) = some kvs ∧
        distribute opId insertCnt 0 kvs (ops, dataVec.take lo) = some (ops', bulk) ∧
        sort (bulk.drop lo) mid = some (sorted, tape') ∧
        r = (ops', bulk.take lo ++ sorted ++ dataVec.drop hi) := by
  simp only [generateInserts, generatePermute, hrange, if_neg hpat, if_true, bind_eq_some,
    require_eq_some, ofOption_eq_some, pure_eq_some, List.nil_append]
  constructor
  · rintro ⟨_, _, ⟨⟨-, hhi⟩, rfl⟩, permute, mid, ⟨_, _, ⟨hlo, rfl⟩, hshuffle⟩, kvs, _, ⟨hkvs, rfl⟩,
      ⟨ops', bulk⟩, _, ⟨hdist, rfl⟩, sorted, _, hsort, rfl, rfl⟩
    exact ⟨hlo, hhi, permute, mid, kvs, ops', bulk, sorted, hshuffle, hkvs, hdist, hsort, rfl⟩
  · rintro ⟨hlo, hhi, permute, mid, kvs, ops', bulk, sorted, hshuffle, hkvs, hdist, hsort, rfl⟩
    exact ⟨⟨⟩, tape, ⟨⟨hlo.trans hhi, hhi⟩, rfl⟩, permute, mid, ⟨⟨⟩, tape, ⟨hlo, rfl⟩, hshuffle⟩, kvs,
      mid, ⟨hkvs, rfl⟩, (ops', bulk), mid, ⟨hdist, rfl⟩, sorted, tape', hsort, rfl, rfl⟩

omit [LinearOrder K] in
theorem take_drop_glued {xs : List (KeyValue K)} (hlo : lo ≤ xs.length) (ys : List (KeyValue K)) :
    (xs.take lo ++ ys).take lo = xs.take lo ∧ (xs.take lo ++ ys).drop lo = ys :=
  ⟨List.take_left' (List.length_take_of_le hlo), List.drop_left' (List.length_take_of_le hlo)⟩

/-- What a run of one of the shuffled patterns gives. -/
theorem shuffled_run (hpat : pat ≠ .delta)
    (hrange : insertRange dataVec.length insertCnt hotspotRatio pat = (lo, hi)) (hnodup : opId.Nodup)
    (hops : ∀ p ∈ opId, p < ops.length) (hid : insertCnt ≤ opId.length)
    (h : generateInserts ops [] opId dataVec insertCnt pat hotspotRatio tape = some (r, tape')) :
    lo ≤ hi ∧ hi ≤ dataVec.length ∧ ∃ (kvs : List (KeyValue K)) (ops' : List (Operation K))
      (sorted : List (KeyValue K)), kvs.Perm ((dataVec.drop lo).take (hi - lo)) ∧ Placement opId ops ops' (kvs.take insertCnt) ∧
      sorted.Perm (kvs.drop insertCnt) ∧ Sorted KeyValue.key sorted ∧
      r = (ops', dataVec.take lo ++ sorted ++ dataVec.drop hi) := by
  obtain ⟨hlo, hhi, permute, mid, kvs, ops', bulk, sorted, hshuffle, hkvs, hdist, hsort, rfl⟩ :=
    (generateInserts_shuffled hpat hrange).mp h
  obtain ⟨xs, hxs, hperm⟩ := mapM_permute (n := hi - lo) (shuffle_spec hshuffle)
    (by omega : lo + (hi - lo) ≤ dataVec.length)
  obtain rfl : kvs = xs := Option.some.inj (hkvs.symm.trans hxs)
  obtain ⟨os, hdist', hplace⟩ := distribute_eq (i := 0) hnodup hops hid kvs (dataVec.take lo)
  obtain ⟨rfl, rfl⟩ := Prod.mk.inj (Option.some.inj (hdist.symm.trans hdist'))
  obtain ⟨htake, hdrop⟩ := take_drop_glued (hlo.trans hhi) (kvs.drop insertCnt)
  rw [Nat.sub_zero, hdrop] at hsort
  rw [Nat.sub_zero, htake]
  exact ⟨hlo, hhi, kvs, ops', sorted, hperm, hplace, sort_spec hsort, sort_sorted hsort, rfl⟩

/-- No access of one of the shuffled patterns is out of range. -/
theorem shuffled_ends (hpat : pat ≠ .delta)
    (hrange : insertRange dataVec.length insertCnt hotspotRatio pat = (lo, hi)) (hnodup : opId.Nodup)
    (hops : ∀ p ∈ opId, p < ops.length) (hid : insertCnt ≤ opId.length) (hlo : lo ≤ hi)
    (hhi : hi ≤ dataVec.length) {permute : List Nat} (hperm : permute.Perm (List.range' lo (hi - lo))) :
    ∃ sorted r, generateInserts ops [] opId dataVec insertCnt pat hotspotRatio
      [.shuffle permute, .sort sorted] = some r := by
  obtain ⟨kvs, hkvs, -⟩ := mapM_permute hperm (by omega : lo + (hi - lo) ≤ dataVec.length)
  obtain ⟨ops', hdist, -⟩ := distribute_eq (i := 0) hnodup hops hid kvs (dataVec.take lo)
  rw [Nat.sub_zero] at hdist
  have hdrop := (take_drop_glued (hlo.trans hhi) (kvs.drop insertCnt)).2
  have hsorted : Sorted KeyValue.key
      ((kvs.drop insertCnt).insertionSort fun x y => x.key ≤ y.key) :=
    List.pairwise_insertionSort _ _
  have hsort := sort_eq (D := D) (List.perm_insertionSort _ _) hsorted []
  exact ⟨_, _, (generateInserts_shuffled hpat hrange).mpr ⟨hlo, hhi, permute, _, kvs, ops', _, _,
    shuffle_eq hperm _, hkvs, hdist, hdrop.symm ▸ hsort, rfl⟩⟩

/-- Every shuffle of the part that inserts are taken from leads to a split without loss. -/
def LosslessAlways (ops : List (Operation K)) (opId : List Nat) (dataVec : List (KeyValue K))
    (insertCnt : Nat) (pat : InsertPat) (hotspotRatio : D) : Prop :=
  (∀ permute lo hi, insertRange dataVec.length insertCnt hotspotRatio pat = (lo, hi) →
    permute.Perm (List.range' lo (hi - lo)) →
    ∃ sorted r, generateInserts ops [] opId dataVec insertCnt pat hotspotRatio
      [.shuffle permute, .sort sorted] = some r) ∧
  ∀ tape r tape',
    generateInserts ops [] opId dataVec insertCnt pat hotspotRatio tape = some (r, tape') →
    Lossless ops opId dataVec insertCnt r

theorem generateInserts_delta (hnodup : opId.Nodup) (hops : ∀ p ∈ opId, p < ops.length)
    (hid : insertCnt ≤ opId.length) (hcnt : insertCnt ≤ dataVec.length)
    (hsize : dataVec.length < 2 ^ 64) (hdata : Sorted KeyValue.key dataVec)
    (tape : List (Draw K D)) :
    ∃ r, generateInserts ops [] opId dataVec insertCnt .delta hotspotRatio tape = some (r, tape) ∧
      Lossless ops opId dataVec insertCnt r := by
  have hlen : (dataVec.drop (dataVec.length - insertCnt)).length = insertCnt := by
    rw [List.length_drop]
    omega
  obtain ⟨ops', hdist, hplace⟩ := distribute_eq (i := 0) hnodup hops hid
    (dataVec.drop (dataVec.length - insertCnt)) (dataVec.take (dataVec.length - insertCnt))
  rw [Nat.sub_zero, List.drop_eq_nil_of_le hlen.le, List.append_nil] at hdist
  rw [List.drop_zero, Nat.sub_zero, List.take_of_length_le hlen.le] at hplace
  refine ⟨(ops', dataVec.take (dataVec.length - insertCnt)), ?_, _, hlen, hplace, ?_, ?_⟩
  · simp only [generateInserts, insertRange, sizeSub_eq hcnt hsize, if_true, bind_eq_some,
      require_eq_some, ofOption_eq_some, pure_eq_some, List.nil_append]
    exact ⟨⟨⟩, tape, ⟨⟨Nat.sub_le _ _, le_rfl⟩, rfl⟩, (ops', _), tape, ⟨hdist, rfl⟩, by simp, rfl⟩
  · exact hdata.sublist (List.take_sublist _ _)
  · exact List.perm_append_comm.trans (by rw [List.take_append_drop])

/-- Without loss exactly when a hotspot fits into the dataset; the other patterns always do. -/
theorem generate_inserts_splits_iff (hnodup : opId.Nodup) (hops : ∀ p ∈ opId, p < ops.length)
    (hid : insertCnt ≤ opId.length) (hcnt : insertCnt ≤ dataVec.length)
    (hsize : dataVec.length < 2 ^ 64) (hdata : Sorted KeyValue.key dataVec) :
    LosslessAlways ops opId dataVec insertCnt pat hotspotRatio ↔
      (pat = .hotspot → HotspotFits dataVec.length insertCnt hotspotRatio) := by
  constructor
  · rintro ⟨hruns, hsplits⟩ rfl
    obtain ⟨lo, hi, hrange⟩ :
        ∃ lo hi, insertRange dataVec.length insertCnt hotspotRatio .hotspot = (lo, hi) := ⟨_, _, rfl⟩
    obtain ⟨sorted, ⟨r, tape'⟩, hrun⟩ := hruns _ lo hi hrange (.refl _)
    obtain ⟨kvs, hkvs, -, -, hperm⟩ := hsplits _ _ _ hrun
    obtain ⟨hlo, hhi, xs, ops', sorted', hxs, -, hsorted, -, rfl⟩ :=
      shuffled_run (by simp) hrange hnodup hops hid hrun
    -- Too few pairs would leave too few for the inserts and the bulk load together.
    have hlen := hperm.length_eq
    have hxslen := hxs.length_eq
    simp only [List.length_append, List.length_take, List.length_drop, hsorted.length_eq] at hlen hxslen
    obtain ⟨rfl, rfl⟩ := Prod.mk.inj hrange
    exact ⟨_, _, rfl, rfl, by omega, hhi⟩
  · intro hfits
    by_cases hdelta : pat = .delta
    · subst hdelta
      have hrun : ∀ tape : List (Draw K D), ∃ r,
          generateInserts ops [] opId dataVec insertCnt .delta hotspotRatio tape = some (r, tape) ∧
            Lossless ops opId dataVec insertCnt r :=
        generateInserts_delta hnodup hops hid hcnt hsize hdata
      constructor
      · intro permute lo hi _ _
        obtain ⟨r, hr, -⟩ := hrun [.shuffle permute, .sort []]
        exact ⟨[], _, hr⟩
      · intro tape r tape' h
        obtain ⟨r', hr', hsplits⟩ := hrun tape
        obtain ⟨rfl, -⟩ := Prod.mk.inj (Option.some.inj (h.symm.trans hr'))
        exact hsplits
    · constructor
      · intro permute lo hi hrange hperm
        obtain ⟨hle, hhi⟩ := insertRange_fits hcnt hsize hfits hrange
        exact shuffled_ends hdelta hrange hnodup hops hid (by omega) hhi hperm
      · intro tape r tape' h
        obtain ⟨hle, hhi⟩ := insertRange_fits hcnt hsize hfits rfl
        obtain ⟨hlo, -, kvs, ops', sorted, hkvs, hplace, hperm, hsorted, rfl⟩ :=
          shuffled_run hdelta rfl hnodup hops hid h
        apply splits_of_shuffled hdata hlo hkvs _ hplace hperm hsorted
        rw [hkvs.length_eq, List.length_take, List.length_drop]
        omega

/-- Without rounding, a hotspot has as many pairs as its ratio says. -/
theorem hotspotFits_exact {size : Nat} {ratio : ℚ} (hratio : 0 ≤ ratio) :
    HotspotFits size insertCnt ratio ↔
      insertCnt ≤ trunc (ratio * size) ∧ trunc ((0.3 : ℚ) * size) + trunc (ratio * size) ≤ size := by
  have hend : ∀ lo : Nat, trunc ((lo : ℚ) + ratio * size) = lo + trunc (ratio * size) := by
    intro lo
    have hnonneg : 0 ≤ (ratio * size).floor :=
      Rat.le_floor_iff.mpr (by exact_mod_cast mul_nonneg hratio (Nat.cast_nonneg size))
    change ((lo : ℚ) + ratio * size).floor.toNat = lo + (ratio * size).floor.toNat
    have hfloor : ((lo : ℚ) + ratio * size).floor = lo + (ratio * size).floor :=
      Int.floor_natCast_add lo (ratio * size)
    omega
  constructor
  · rintro ⟨lo, hi, rfl, rfl, hle, hhi⟩
    rw [hend] at hle hhi
    exact ⟨by omega, hhi⟩
  · rintro ⟨hle, hhi⟩
    exact ⟨_, _, rfl, rfl, by rw [hend]; omega, by rw [hend]; exact hhi⟩

/-- Three inserts in the hotspot of half of ten pairs. -/
theorem generate_inserts_splits_iff_half :
    LosslessAlways [default, default, default, default] [2, 0, 3, 1] (addValues (List.range 10)) 3
        .hotspot (1 / 2 : ℚ) ↔
      (InsertPat.hotspot = .hotspot → HotspotFits (addValues (List.range 10)).length 3 (1 / 2 : ℚ)) :=
  generate_inserts_splits_iff (by decide) (by decide) (by decide) (by decide) (by decide) (by decide)

/-- A hotspot as large as the dataset starts behind three of its ten pairs and ends behind its end. -/
theorem generate_inserts_overruns :
    ¬LosslessAlways [default] [0] (addValues (List.range 10)) 1 .hotspot (1 : ℚ) := by
  rintro ⟨hruns, -⟩
  have hrange : insertRange (addValues (List.range 10)).length 1 (1 : ℚ) .hotspot = (3, 13) := by
    decide +kernel
  obtain ⟨sorted, ⟨r, tape'⟩, hrun⟩ := hruns (List.range' 3 10) 3 13 hrange (.refl _)
  obtain ⟨-, hhi, -⟩ := shuffled_run (by decide) hrange (by decide) (by decide) (by decide) hrun
  exact absurd hhi (by decide)

end Patterns

end Split

end LearnedIndex.Workload
