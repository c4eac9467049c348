import LearnedIndex.Lipp.Scan
import LearnedIndex.SortedList

/-! The trees that are built from a list of pairs hold these pairs. -/

universe u v

namespace LearnedIndex.Lipp

open Hybrid SortedList

variable {K : Type u} [LinearOrder K] {fit : Fit K} {n : Node K (Tree K)}
  {f : Nat → List (KeyValue K)} {kvs : List (KeyValue K)}

/-- A node without keys. -/
theorem Filled.empty (hshape : Shape n)
    (htwo : n.isTwo = true → n.buildSize = 2 ∧ n.numItems = 8 ∧ n.fixed = false)
    (hview : ∀ i < n.numItems, n.view i = .empty) : Filled n fun _ => [] where
  shape := hshape
  two := htwo
  item i hi := by
    rw [hview i hi]
    rfl
  predicted i hi kv hkv := absurd hkv List.not_mem_nil
  children i hi c hc := by
    rw [hview i hi] at hc
    cases hc

omit [LinearOrder K] in
theorem total_nil (n : Node K (Tree K)) : n.total (fun _ => []) = [] := by
  simp [Node.total]

/-- Ascending lists with the same pairs are the same. -/
theorem Ascending.eq_of_perm {xs ys : List (KeyValue K)} (hxs : Ascending xs) (hys : Ascending ys)
    (h : xs.Perm ys) : xs = ys :=
  h.eq_of_pairwise (fun _ _ _ _ hlt hgt => absurd hlt hgt.asymm) hxs hys

section Two

theorem twoNode_filled {model : K → Nat} (hmodel : Monotone model) {items : List (Item K (Tree K))}
    (hitems : items.length = 8) : Filled ((twoNode model).withItems items) fun _ => [] := by
  apply Filled.empty
  · have hsize : 1 = Bitmap.size 8 := by decide
    exact ⟨Nat.succ_pos 7, hitems, hsize, hsize, hmodel⟩
  · exact fun _ => ⟨rfl, rfl, rfl⟩
  · intro i hi
    apply Node.view_eq_empty.mpr
    have hbits : ∀ i < 8, Bitmap.get [0xff] i = true ∧ Bitmap.get [0] i = false := by decide
    exact hbits i hi

omit [LinearOrder K] in
theorem padded_eight (h : n.numItems = 8) : (Tree.node n).Padded := by
  refine ⟨h ▸ (by decide), fun i hle hlt => ?_⟩
  rw [h] at hle hlt
  exact absurd hlt (not_lt.mpr hle)

theorem buildOrdered_yields {kv₁ kv₂ : KeyValue K} (hlt : kv₁.key < kv₂.key) :
    (contract fit).Yields (buildOrdered fit kv₁ kv₂) fun n =>
      (Tree.node n).Padded ∧ ∃ kvs, Holds (.node n) kvs ∧ kvs.Perm [kv₁, kv₂] := by
  unfold buildOrdered
  apply Contract.Yields.bind (rtAssert_yields fun hge => absurd hlt hge)
  rintro - -
  apply Contract.Yields.bind (ensure_yields fun _ => .inr (.inl rfl))
  intro model hmodel
  apply Contract.Yields.bind (takeTwo_yields model)
  rintro n ⟨items, hitems, rfl⟩
  have hf := twoNode_filled (fit.two_mono hmodel) hitems
  apply Contract.Yields.bind (rtAssert_yields fun _ => .inl rfl)
  rintro - hnone₁
  obtain ⟨f₁, hf₁, hperm₁⟩ := hf.place hnone₁
  apply Contract.Yields.bind (rtAssert_yields fun _ => .inl rfl)
  rintro - hnone₂
  obtain ⟨f₂, hf₂, hperm₂⟩ := hf₁.place hnone₂
  rw [total_nil] at hperm₁
  have hperm := (hperm₂.trans (hperm₁.cons kv₂)).trans (List.Perm.swap kv₁ kv₂ [])
  exact .pure ⟨padded_eight rfl, _, hf₂.holds hperm.length_eq.symm, hperm⟩

theorem buildTreeTwo_yields {kv₁ kv₂ : KeyValue K} (hne : kv₁.key ≠ kv₂.key) :
    (contract fit).Yields (buildTreeTwo fit kv₁ kv₂) fun n =>
      (Tree.node n).Padded ∧ ∃ kvs, Holds (.node n) kvs ∧ kvs.Perm [kv₁, kv₂] := by
  unfold buildTreeTwo
  split
  · next hlt =>
    apply (buildOrdered_yields hlt).mono
    rintro n ⟨hpadded, kvs, hn, hperm⟩
    exact ⟨hpadded, kvs, hn, hperm.trans (List.Perm.swap _ _ _)⟩
  · next hge => exact buildOrdered_yields (lt_of_le_of_ne (not_lt.mp hge) hne)

/-- Two equal keys fail the assertion. -/
theorem buildTreeTwo_rejects {kv₁ kv₂ : KeyValue K} (heq : kv₁.key = kv₂.key) {failure : Failure → Prop}
    {divergence : Prop} (hfailure : failure .ordered) :
    (poolContract failure divergence).Yields (buildTreeTwo fit kv₁ kv₂) fun _ => False := by
  have hirrefl : ¬kv₁.key < kv₂.key := heq ▸ lt_irrefl _
  unfold buildTreeTwo
  rw [if_neg (heq ▸ lt_irrefl _)]
  unfold buildOrdered
  apply Contract.Yields.bind (rtAssert_yields fun _ => hfailure)
  exact fun _ hlt => absurd hlt hirrefl

end Two

section Bulk

variable {model : K → Nat}

omit [LinearOrder K] in
theorem bulkNode_bits {size i : Nat} (hi : i < 8 * Bitmap.size (size * (computeGapCount size + 1))) :
    (bulkNode size model : Node K (Tree K)).isNone i = true ∧
      (bulkNode size model : Node K (Tree K)).isChild i = false := by
  have hlt : i / 8 < Bitmap.size (size * (computeGapCount size + 1)) := by omega
  have hbyte : ∀ j < 8, (0xff : Byte).getLsbD j = true ∧ (0 : Byte).getLsbD j = false := by decide
  obtain ⟨hone, hzero⟩ := hbyte (i % 8) (Nat.mod_lt _ (by decide))
  exact ⟨(Bitmap.get_replicate _ hlt).trans hone, (Bitmap.get_replicate _ hlt).trans hzero⟩

theorem bulkNode_filled {size : Nat} (hsize : 0 < size) (hmodel : Monotone model) :
    Filled (bulkNode size model : Node K (Tree K)) fun _ => [] := by
  apply Filled.empty
  · exact ⟨Nat.mul_pos hsize (Nat.succ_pos _), List.length_replicate, List.length_replicate,
      List.length_replicate, hmodel⟩
  · intro htwo
    cases htwo
  · intro i hi
    apply Node.view_eq_empty.mpr
    apply bulkNode_bits
    have hlt := Bitmap.lt_size hi
    change i / 8 < Bitmap.size (size * (computeGapCount size + 1)) at hlt
    omega

omit [LinearOrder K] in
theorem bulkNode_padded {size : Nat} (hsize : 3 ≤ size) :
    (Tree.node (bulkNode size model : Node K (Tree K))).Padded := by
  refine ⟨?_, fun _ _ hi => (bulkNode_bits hi).1⟩
  calc
    1 < 3 := by decide
    _ ≤ size := hsize
    _ ≤ size * (computeGapCount size + 1) := Nat.le_mul_of_pos_right _ (Nat.succ_pos _)

/-- The runs `rs` are in their places in the node, which had been `n₀`. -/
structure Placed (n₀ : Node K (Tree K)) (rs : List (List (KeyValue K))) (n : Node K (Tree K)) : Prop where
  frame : Frame n₀ n
  size : n.size = n₀.size
  stored : ∃ f, Filled n f ∧ (n.total f).Perm rs.flatten

/-- The place of a run is free as long as only runs behind it have been placed. -/
theorem Filled.free {kv : KeyValue K} {rest : List (KeyValue K)} (h : Filled n f)
    (hperm : (n.total f).Perm rest) (hlt : ∀ x ∈ rest, n.predictPos kv.key < n.predictPos x.key) :
    f (n.predictPos kv.key) = [] := by
  have hpos := h.shape.predictPos_lt kv.key
  apply List.eq_nil_iff_forall_not_mem.mpr
  intro x hx
  have hmem := hperm.subset (Node.mem_total.mpr ⟨_, hpos, hx⟩)
  exact absurd (h.predicted _ hpos x hx) (hlt x hmem).ne'

theorem placeRun_yields {n₀ : Node K (Tree K)} {build : List (KeyValue K) → Alloc K (Tree K)}
    {r : List (KeyValue K)} {rs : List (List (KeyValue K))} (hmono : Monotone n₀.predictPos)
    (hkvs : Ascending kvs) (hsuffix : r :: rs <:+ runs n₀ kvs)
    (hbuild : 2 ≤ r.length → (contract fit).Yields (build r) fun c => Holds c r ∧ c.Padded)
    (h : Placed n₀ rs n) : (contract fit).Yields (placeRun build r n) (Placed n₀ (r :: rs)) := by
  obtain ⟨hframe, hsize, f, hf, hperm⟩ := h
  have hmem : r ∈ runsBy (fun kv => n₀.predictPos kv.key) kvs := hsuffix.subset List.mem_cons_self
  have hlt : ∀ x ∈ r, ∀ y ∈ rs.flatten, n.predictPos x.key < n.predictPos y.key := by
    have hsorted : Sorted (fun kv => n₀.predictPos kv.key) kvs := hkvs.imp fun hlt => hmono hlt.le
    intro x hx y hy
    rw [hframe.predictPos, hframe.predictPos]
    exact hsorted.run_lt hsuffix hx hy
  cases r with
  | nil => exact absurd rfl (List.ne_nil_of_mem_splitBy hmem)
  | cons kv r =>
    have hnil := hf.free hperm (hlt kv List.mem_cons_self)
    have hpos := hf.shape.predictPos_lt kv.key
    cases r with
    | nil =>
      obtain ⟨f', hf', hperm'⟩ := hf.place (hf.isNone_of_nil hpos hnil).1
      apply Contract.Yields.pure
      exact ⟨hframe.trans (frame_place hf.shape hpos kv), hsize, f', hf', hperm'.trans (hperm.cons kv)⟩
    | cons kv' r =>
      have hpred : ∀ x ∈ kv :: kv' :: r, n.predictPos x.key = n.predictPos kv.key := by
        intro x hx
        have heq := key_eq_of_mem_run hmem hx List.mem_cons_self
        rwa [hframe.predictPos, hframe.predictPos]
      apply (hbuild (Nat.le_add_left 2 r.length)).map
      rintro c ⟨hc, hpadded⟩
      obtain ⟨f', hf', hperm'⟩ := hf.placeChild hpos hnil hc hpadded (List.cons_ne_nil _ _) hpred
      exact ⟨hframe.trans (frame_placeChild hf.shape hpos c), hsize, f', hf',
        hperm'.trans (hperm.append_left _)⟩

/-- A run that is not shorter than all the keys: the model has collapsed. -/
theorem collapses_of_length_run {r : List (KeyValue K)} (hkvs : Ascending kvs) (hthree : 3 ≤ kvs.length)
    (hmodel : fit.bulk (keys kvs) = some model)
    (hr : r ∈ runs (bulkNode kvs.length model : Node K (Tree K)) kvs) (hlength : kvs.length ≤ r.length) :
    fit.Collapses := by
  have hkeys : (keys kvs).length = kvs.length := List.length_map _
  have hrun : r ∈ runsBy (fun kv => (bulkNode kvs.length model : Node K (Tree K)).predictPos kv.key) kvs := hr
  have hsublist : r.Sublist kvs := by
    have hflatten : (runs (bulkNode kvs.length model : Node K (Tree K)) kvs).flatten = kvs :=
      List.flatten_splitBy _ _
    rw [← hflatten]
    exact List.sublist_flatten_of_mem hr
  have heq : r = kvs := hsublist.eq_of_length_le hlength
  refine ⟨keys kvs, model, hmodel, hkeys ▸ hthree, List.pairwise_map.mpr hkvs, ?_⟩
  intro k hk k' hk'
  obtain ⟨x, hx, rfl⟩ := mem_keys.mp hk
  obtain ⟨y, hy, rfl⟩ := mem_keys.mp hk'
  rw [hkeys]
  have hpos := key_eq_of_mem_run hrun (heq ▸ hx) (heq ▸ hy)
  exact hpos

/-- The tree that is built holds exactly the given pairs. -/
theorem buildTreeBulk_yields (fuel : Nat) (kvs : List (KeyValue K)) (hkvs : Ascending kvs)
    (htwo : 2 ≤ kvs.length) (hfuel : kvs.length ≤ fuel ∨ fit.Collapses) :
    (contract fit).Yields (buildTreeBulk fit fuel kvs) fun t => Holds t kvs ∧ t.Padded := by
  induction fuel generalizing kvs with
  | zero =>
    unfold buildTreeBulk
    apply Contract.Yields.diverges
    exact hfuel.resolve_left (by omega)
  | succ fuel ih =>
    match kvs, htwo with
    | [kv₁, kv₂], _ =>
      unfold buildTreeBulk
      have hne : kv₁.key ≠ kv₂.key := (List.rel_of_pairwise_cons hkvs List.mem_cons_self).ne
      apply (buildTreeTwo_yields hne).map
      rintro n ⟨hpadded, kvs', hn, hperm⟩
      rw [← hn.ascending.eq_of_perm hkvs hperm]
      exact ⟨hn, hpadded⟩
    | kv₁ :: kv₂ :: kv₃ :: kvs', _ =>
      unfold buildTreeBulk
      have hthree : 3 ≤ (kv₁ :: kv₂ :: kv₃ :: kvs').length := Nat.le_add_left 3 kvs'.length
      generalize kv₁ :: kv₂ :: kv₃ :: kvs' = kvs at *
      apply Contract.Yields.bind (ensure_yields fun _ => .inr (.inl rfl))
      intro model hmodel
      have hn := bulkNode_filled (show 0 < kvs.length by omega) (fit.bulk_mono hmodel)
      have hflatten : (runs (bulkNode kvs.length model : Node K (Tree K)) kvs).flatten = kvs :=
        List.flatten_splitBy _ _
      have hstart : Placed (bulkNode kvs.length model) [] (bulkNode kvs.length model) :=
        ⟨.refl _, rfl, _, hn, by rw [total_nil]; rfl⟩
      apply (Contract.Yields.foldrM hstart _).map
      · rintro n ⟨hframe, hsize, f, hf, hperm⟩
        rw [hflatten] at hperm
        rw [← hf.ascending.eq_of_perm hkvs hperm]
        exact ⟨hf.holds (hsize.trans hperm.length_eq.symm), (Tree.Framed.node hframe).padded (bulkNode_padded hthree)⟩
      · intro r rs n hsuffix hplaced
        apply placeRun_yields hn.shape.predictPos_mono hkvs hsuffix _ hplaced
        intro hr
        have hmem := hsuffix.subset List.mem_cons_self
        have hsublist : r.Sublist kvs := hflatten ▸ List.sublist_flatten_of_mem hmem
        apply ih r (hkvs.sublist hsublist) hr
        by_cases hlt : r.length < kvs.length
        · exact hfuel.imp_left fun hle => by omega
        · exact .inr (collapses_of_length_run hkvs hthree hmodel hmem (not_lt.mp hlt))

end Bulk

end LearnedIndex.Lipp
