import LearnedIndex.Hybrid.Lawful
import LearnedIndex.Lipp.Insert

/-! `LIPP` behind its wrapper, over any sequence of calls. -/

universe u v

namespace LearnedIndex.Lipp

open Hybrid Util

/-- The calls that change the index. -/
inductive Op (K : Type u)
  | build (data : List (KeyValue K))
  | insert (kv : KeyValue K)

variable {K : Type u} [LinearOrder K] {fit : Fit K} {lipp : LIPP K} {kvs : List (KeyValue K)}

namespace Op

/-- The pairs after a call. -/
def contents (kvs : List (KeyValue K)) : Op K → List (KeyValue K)
  | .build data => data
  | .insert kv => kv :: kvs

/-- The data of `Build` ascends, and inserted keys are fresh. -/
def Allowed (kvs : List (KeyValue K)) : Op K → Prop
  | .build data => Ascending data
  | .insert kv => ∀ x ∈ kvs, x.key ≠ kv.key

end Op

/-- Every call is allowed in its turn. -/
def Allowed : List (KeyValue K) → List (Op K) → Prop
  | _, [] => True
  | kvs, op :: ops => op.Allowed kvs ∧ Allowed (op.contents kvs) ops

/-- The pairs after all calls. -/
def stored (kvs : List (KeyValue K)) (ops : List (Op K)) : List (KeyValue K) :=
  ops.foldl Op.contents kvs

namespace LIPP

def apply (fit : Fit K) (lipp : LIPP K) : Op K → Run (LIPP K)
  | .build data => lipp.build fit data
  | .insert kv => lipp.insert fit kv

def run (fit : Fit K) (lipp : LIPP K) (ops : List (Op K)) : Run (LIPP K) := ops.foldlM (apply fit) lipp

/-- The invariant of the index. -/
structure Inv (lipp : LIPP K) (kvs : List (KeyValue K)) : Prop where
  holds : ∃ pairs, Holds lipp.root pairs ∧ pairs.Perm kvs
  recyclable : ∀ n ∈ lipp.pendingTwo, Recyclable n

theorem inv_new : Inv (new : LIPP K) [] :=
  ⟨⟨[], buildTreeNone_holds, .refl _⟩, fun _ hn => absurd hn List.not_mem_nil⟩

/-- How a call on an index ends. -/
def Ends (fit : Fit K) (P : LIPP K → Prop) : Run (LIPP K) → Prop
  | .returns lipp => P lipp
  | .exits e => e.OnModel
  | .diverges => fit.Collapses

theorem Ends.mono {P Q : LIPP K → Prop} {r : Run (LIPP K)} (hr : Ends fit P r)
    (h : ∀ lipp, P lipp → Q lipp) : Ends fit Q r := by
  cases r with
  | returns lipp => exact h lipp hr
  | exits e => exact hr
  | diverges => exact hr

theorem Ends.bind {P Q : LIPP K → Prop} {r : Run (LIPP K)} {f : LIPP K → Run (LIPP K)}
    (hr : Ends fit P r) (hf : ∀ lipp, P lipp → Ends fit Q (f lipp)) : Ends fit Q (r >>= f) := by
  cases r with
  | returns lipp => exact hf lipp hr
  | exits e => exact hr
  | diverges => exact hr

/-- A call that leaves such a tree leaves an index with it. -/
theorem Ends.of_root {P : Tree K → Prop} {x : Alloc K (Tree K)}
    (hpool : ∀ n ∈ lipp.pendingTwo, Recyclable n) (hx : (contract fit).Yields x P) :
    Ends fit (fun lipp => P lipp.root ∧ ∀ n ∈ lipp.pendingTwo, Recyclable n)
      (x lipp.pendingTwo >>= fun r => .returns ⟨r.1, r.2⟩) := by
  have hend := hx lipp.pendingTwo hpool
  cases hrun : x lipp.pendingTwo with
  | returns r =>
    rw [hrun] at hend
    exact hend
  | exits e =>
    rw [hrun] at hend
    exact hend
  | diverges =>
    rw [hrun] at hend
    exact hend

/-- A call that leaves a tree with these pairs leaves an index with them. -/
theorem Ends.of_yields {x : Alloc K (Tree K)} (hpool : ∀ n ∈ lipp.pendingTwo, Recyclable n)
    (hx : (contract fit).Yields x fun t => ∃ pairs, Holds t pairs ∧ pairs.Perm kvs) :
    Ends fit (Inv · kvs) (x lipp.pendingTwo >>= fun r => .returns ⟨r.1, r.2⟩) :=
  (Ends.of_root hpool hx).mono fun _ h => ⟨h.1, h.2⟩

theorem Inv.build {data : List (KeyValue K)} (h : Inv lipp kvs) (hdata : Ascending data) :
    Ends fit (Inv · data) (lipp.build fit data) := by
  obtain ⟨⟨pairs, hroot, -⟩, hpool⟩ := h
  apply Ends.of_yields hpool
  exact (bulkLoad_yields hdata hroot).mono fun t ht => ⟨data, ht.1, .refl _⟩

theorem Inv.insert {kv : KeyValue K} (h : Inv lipp kvs) (hkey : ∀ x ∈ kvs, x.key ≠ kv.key) :
    Ends fit (Inv · (kv :: kvs)) (lipp.insert fit kv) := by
  obtain ⟨⟨pairs, hroot, hperm⟩, hpool⟩ := h
  apply Ends.of_yields hpool
  apply (insertTree_yields (fun x hx => hkey x (hperm.subset hx)) hroot).mono
  rintro t ⟨⟨pairs', ht, hperm'⟩, -⟩
  exact ⟨pairs', ht, hperm'.trans (hperm.cons kv)⟩

theorem Inv.apply {op : Op K} (h : Inv lipp kvs) (hop : op.Allowed kvs) :
    Ends fit (Inv · (op.contents kvs)) (lipp.apply fit op) := by
  cases op with
  | build data => exact h.build hop
  | insert kv => exact h.insert hop

theorem Inv.run {ops : List (Op K)} (h : Inv lipp kvs) (hops : Lipp.Allowed kvs ops) :
    Ends fit (Inv · (stored kvs ops)) (lipp.run fit ops) := by
  induction ops generalizing lipp kvs with
  | nil => exact h
  | cons op ops ih => exact Ends.bind (h.apply hops.1) fun lipp' h' => ih h' hops.2

/-- What an index with the pairs `kvs` looks like from outside and inside. -/
structure Correct (lipp : LIPP K) (kvs : List (KeyValue K)) : Prop where
  root : ∃ pairs, Holds lipp.root pairs ∧ pairs.Perm kvs
  subtree : ∀ n, Subtree (.node n) lipp.root →
    ∃ pairs, Holds (.node n) pairs ∧ n.size = pairs.length ∧ Ascending pairs
  lookup_mem : ∀ kv ∈ kvs, lipp.equalityLookup kv.key = some kv.value
  lookup_absent : ∀ key, (∀ kv ∈ kvs, kv.key ≠ key) → lipp.equalityLookup key = some notFound

/-- Whichever node the next insertion rebuilds, the scan returns the pairs of its subtree, and
the new subtree holds them. -/
def RebuildsSame (fit : Fit K) (lipp : LIPP K) (kvs : List (KeyValue K)) : Prop :=
  ∀ kv, (∀ x ∈ kvs, x.key ≠ kv.key) → ∀ t toData pathSize pool,
    insertDown fit kv maxDepth lipp.root lipp.pendingTwo = .returns ((t, toData, pathSize), pool) →
    ∀ n, Subtree (.node n) t → n.needRebuild = true →
      ∃ pairs, Holds (.node n) pairs ∧
        (∃ pool', scanAndDestroyTree n pool = .returns (pairs, pool')) ∧
        match rebuild fit n pool with
        | .returns (t', _) => Holds t' pairs
        | .exits e => e.OnModel
        | .diverges => fit.Collapses

theorem Inv.correct (h : Inv lipp kvs) : Correct lipp kvs := by
  obtain ⟨⟨pairs, hroot, hperm⟩, -⟩ := h
  have hlookup : ∀ key value, lipp.root.find key = some value →
      lipp.equalityLookup key = some (value.getD notFound) := by
    intro key value hfind
    rw [equalityLookup, hfind]
    rfl
  refine ⟨⟨pairs, hroot, hperm⟩, fun n hn => ?_, fun kv hkv => ?_, fun key habsent => ?_⟩
  · obtain ⟨pairs', hn', -⟩ := hroot.subtree hn
    exact ⟨pairs', hn', hn'.size, hn'.ascending⟩
  · obtain ⟨value, hfind, hvalue⟩ := hroot.find kv.key
    rw [hlookup _ _ hfind, (hvalue kv.value).mpr (hperm.symm.subset hkv)]
    rfl
  · obtain ⟨value, hfind, hvalue⟩ := hroot.find key
    rw [hlookup _ _ hfind]
    cases hv : value with
    | none => rfl
    | some v => exact absurd rfl (habsent ⟨key, v⟩ (hperm.subset ((hvalue v).mp hv)))

/-- No assertion of the scan fails. -/
theorem scanAndDestroyTree_returns {n : Node K (Tree K)} {pairs : List (KeyValue K)} {pool : Pool K}
    (hn : Holds (.node n) pairs) (hpool : ∀ m ∈ pool, Recyclable m) :
    ∃ pool', scanAndDestroyTree n pool = .returns (pairs, pool') := by
  have hend : (poolContract (fun _ => False) False).Yields (scanAndDestroyTree n) fun kvs => kvs = pairs :=
    scanAndDestroyTree_yields hn
  have hend := hend pool hpool
  cases hscan : scanAndDestroyTree n pool with
  | returns r =>
    rw [hscan] at hend
    exact ⟨r.2, by rw [← hend.1]⟩
  | exits e =>
    rw [hscan] at hend
    exact hend.elim
  | diverges =>
    rw [hscan] at hend
    exact hend.elim

theorem Inv.rebuildsSame (h : Inv lipp kvs) : RebuildsSame fit lipp kvs := by
  obtain ⟨⟨pairs, hroot, hperm⟩, hpool⟩ := h
  intro kv hkey t toData pathSize pool hdown n hn hneed
  have hyields : (contract fit).Yields (insertDown fit kv maxDepth lipp.root) _ :=
    insertDown_yields (fun x hx => hkey x (hperm.subset hx)) maxDepth hroot
  have hend := hyields _ hpool
  rw [hdown] at hend
  obtain ⟨⟨⟨pairs', ht, -⟩, -, -⟩, hpool'⟩ := hend
  obtain ⟨pairs'', hn', -⟩ := ht.subtree hn
  refine ⟨pairs'', hn', scanAndDestroyTree_returns hn' hpool', ?_⟩
  have hsize := several_of_needRebuild hneed
  rw [hn'.size] at hsize
  have hrebuilds : (contract fit).Yields (rebuild fit n) _ := rebuild_yields hn' (by omega)
  have hend := hrebuilds pool hpool'
  cases hrebuild : rebuild fit n pool with
  | returns r =>
    rw [hrebuild] at hend
    exact hend.1.1
  | exits e =>
    rw [hrebuild] at hend
    exact hend
  | diverges =>
    rw [hrebuild] at hend
    exact hend

/-- What the hybrid index calls. -/
def lippOps (fit : Fit K) : LippOps K (LIPP K) Failure where
  empty := new
  build := build fit
  insert := insert fit
  equalityLookup lipp key := (lipp.equalityLookup key).getD notFound

/-- The pairs that a scan of the whole tree returns. -/
def contents (lipp : LIPP K) : Multiset (KeyValue K) :=
  match lipp.root with
  | .node n =>
    match scanAndDestroyTree n [] with
    | .returns (kvs, _) => kvs
    | _ => 0

theorem Inv.contents (h : Inv lipp kvs) : lipp.contents = kvs := by
  obtain ⟨⟨pairs, hroot, hperm⟩, -⟩ := h
  rw [LIPP.contents]
  cases hn : lipp.root with
  | node n =>
    rw [hn] at hroot
    obtain ⟨pool, hscan⟩ := scanAndDestroyTree_returns hroot fun _ hm => absurd hm List.not_mem_nil
    simp only [hscan]
    exact Multiset.coe_eq_coe.mpr hperm

theorem Ends.of_returns {P : LIPP K → Prop} {r : Run (LIPP K)} {lipp : LIPP K} (hends : Ends fit P r)
    (h : r = .returns lipp) : P lipp := by
  rw [h] at hends
  exact hends

/-- The hybrid index may rely on `LIPP`. -/
theorem lippOps_lawful (fit : Fit K) :
    (lippOps fit).Lawful (fun lipp => ∃ kvs, Inv lipp kvs) LIPP.contents where
  build hdata h := by
    have hinv := (inv_new.build (List.pairwise_map.mp hdata)).of_returns h
    exact ⟨⟨_, hinv⟩, hinv.contents⟩
  insert hinv hkey h := by
    obtain ⟨kvs, hinv⟩ := hinv
    rw [hinv.contents] at hkey ⊢
    have hinv' := (hinv.insert hkey).of_returns h
    exact ⟨⟨_, hinv'⟩, hinv'.contents⟩
  lookup_mem hinv hkv := by
    obtain ⟨kvs, hinv⟩ := hinv
    rw [hinv.contents] at hkv
    exact congrArg (Option.getD · notFound) (hinv.correct.lookup_mem _ hkv)
  lookup_absent hinv habsent := by
    obtain ⟨kvs, hinv⟩ := hinv
    rw [hinv.contents] at habsent
    exact congrArg (Option.getD · notFound) (hinv.correct.lookup_absent _ habsent)

/-- Nothing is inserted under a key that is there. -/
theorem Inv.insert_rejects {x kv : KeyValue K} (h : Inv lipp kvs) (hx : x ∈ kvs) (hkey : x.key = kv.key) :
    ∃ e, lipp.insert fit kv = .exits e := by
  obtain ⟨⟨pairs, hroot, hperm⟩, hpool⟩ := h
  have hyields : (poolContract (fun e => e = .ordered ∨ e = .depth) False).Yields
      (insertTree fit lipp.root kv) fun _ => False := by
    unfold insertTree
    apply Contract.Yields.bind (insertDown_rejects (hperm.symm.subset hx) hkey maxDepth hroot)
    exact fun _ hr => hr.elim
  obtain ⟨e, he, -⟩ := hyields.rejects id hpool
  exact ⟨e, by rw [LIPP.insert, he, Outcome.exits_bind]⟩

theorem lippOps_asserts (fit : Fit K) :
    (lippOps fit).Asserts (fun lipp => ∃ kvs, Inv lipp kvs) LIPP.contents where
  toLawful := lippOps_lawful fit
  insert_present hinv hx hkey := by
    obtain ⟨kvs, hinv⟩ := hinv
    rw [hinv.contents] at hx
    exact hinv.insert_rejects hx hkey

/-- The index over one pair. -/
def single (x : KeyValue K) : LIPP K := ⟨.node ((Node.count buildTreeNone).place 0 x), []⟩

theorem build_single (x : KeyValue K) : LIPP.build fit .new [x] = .returns (single x) := by
  with_unfolding_all rfl

/-- The second key of an index that is the first one again. -/
theorem insert_single {x y : KeyValue K} (hkey : x.key = y.key) :
    (single x).insert fit y = .exits .ordered := by
  -- The root's only item has `x`, so that `y` meets it there.
  have hmeets : insertDown fit y maxDepth (single x).root = buildTreeTwo fit y ⟨x.key, x.value⟩ >>= fun c =>
      pure (.node ((((Node.count buildTreeNone).place 0 x).count.replaceData 0 (.node c)).countToData true),
        true, 1) := by
    with_unfolding_all rfl
  have htwo : (poolContract (fun e => e = .ordered) False).Yields (buildTreeTwo fit y ⟨x.key, x.value⟩)
      fun _ => False := buildTreeTwo_rejects hkey.symm rfl
  have hyields : (poolContract (fun e => e = .ordered) False).Yields (insertTree fit (single x).root y)
      fun _ => False := by
    unfold insertTree
    rw [hmeets, bind_assoc]
    apply htwo.bind
    exact fun _ hr => hr.elim
  have hpool : ∀ n ∈ (single x).pendingTwo, Recyclable n := fun n hn => absurd hn List.not_mem_nil
  obtain ⟨e, he, rfl⟩ := hyields.rejects id hpool
  rw [LIPP.insert, he, Outcome.exits_bind]

end LIPP

/-- No key is lost, whatever is built, inserted and rebuilt. -/
theorem keys_survive (fit : Fit K) (ops : List (Op K)) (hops : Allowed [] ops) :
    LIPP.Ends fit (fun lipp => lipp.Correct (stored [] ops) ∧ lipp.RebuildsSame fit (stored [] ops))
      (LIPP.run fit .new ops) := by
  apply (LIPP.inv_new.run hops).mono
  exact fun lipp h => ⟨h.correct, h.rebuildsSame⟩

/-- Keys are their own positions; two keys are told apart by the larger. -/
def plainFit : Fit Nat where
  bulk _ := some id
  two _ k₂ := some fun k => if k < k₂ then 2 else 5
  bulk_mono h := by
    cases h
    exact monotone_id
  two_mono h := by
    cases h
    intro k k' hle
    dsimp only
    split <;> split <;> omega

/-- All but the first three keys lie behind the items of the root. -/
def crowded : List (Op Nat) :=
  [.build [⟨1, 10⟩, ⟨2, 20⟩, ⟨3, 30⟩], .insert ⟨100, 40⟩, .insert ⟨101, 50⟩, .insert ⟨200, 60⟩]

/-- Whether a call returns. -/
def returned : Run (LIPP K) → Bool
  | .returns _ => true
  | _ => false

theorem keys_survive_crowded : ∃ lipp, LIPP.run plainFit .new crowded = .returns lipp ∧
    lipp.Correct (stored [] crowded) ∧ lipp.RebuildsSame plainFit (stored [] crowded) := by
  have hallowed : Allowed [] crowded := by
    simp [Allowed, crowded, Op.Allowed, Op.contents, Ascending]
  have hreturns : returned (LIPP.run plainFit .new crowded) = true := by decide +kernel
  have hends := keys_survive plainFit crowded hallowed
  cases hrun : LIPP.run plainFit .new crowded with
  | returns lipp =>
    rw [hrun] at hends
    exact ⟨lipp, rfl, hends⟩
  | exits e => simp [hrun, returned] at hreturns
  | diverges => simp [hrun, returned] at hreturns

end LearnedIndex.Lipp
