import LearnedIndex.Lipp.Build

/-! Insertion adds exactly one pair, and a rebuild none. -/

universe u v

namespace LearnedIndex.Lipp

open Hybrid

variable {K : Type u} [LinearOrder K] {fit : Fit K} {n n' : Node K (Tree K)}
  {f : Nat → List (KeyValue K)} {t t' : Tree K} {kv : KeyValue K} {kvs : List (KeyValue K)}

/-- The nodes on the way to a key, as many as `path` has. -/
inductive Path (key : K) : Nat → Tree K → Prop
  | last (t : Tree K) : Path key 1 t
  | child {n c pathSize} (hview : n.view (n.predictPos key) = .child c) (h : Path key pathSize c) :
      Path key (pathSize + 1) (.node n)

omit [LinearOrder K] in
theorem Path.pos {key : K} {pathSize : Nat} (h : Path key pathSize t) : 0 < pathSize := by
  cases h with
  | last t => exact Nat.one_pos
  | child hview h => exact Nat.succ_pos _

theorem Filled.congr (h : Filled n f) (hframe : Frame n n') (hview : ∀ i, n'.view i = n.view i) :
    Filled n' f where
  shape := hframe.shape h.shape
  two := by
    rw [hframe.isTwo, hframe.buildSize, hframe.numItems, hframe.fixed]
    exact h.two
  item i hi := by
    rw [hview]
    exact h.item i (hframe.numItems ▸ hi)
  predicted i hi kv hkv := by
    rw [hframe.predictPos]
    exact h.predicted i (hframe.numItems ▸ hi) kv hkv
  children i hi c hc := by
    rw [hview] at hc
    exact h.children i (hframe.numItems ▸ hi) c hc

/-- What `insertDown` leaves of a tree with the pairs `kvs`. -/
structure Inserted (kv : KeyValue K) (kvs : List (KeyValue K)) (t : Tree K)
    (r : Tree K × Bool × Nat) : Prop where
  holds : ∃ kvs', Holds r.1 kvs' ∧ kvs'.Perm (kv :: kvs)
  framed : t.Framed r.1
  path : Path kv.key r.2.2 r.1

/-- A node that has counted the new key and has it in an item. -/
theorem inserted_node {toData : Bool} {pathSize : Nat} (hn : Holds (.node n) kvs) (hf : Filled n' f)
    (hframe : Frame n n') (hsize : n'.size = n.size + 1) (hperm : (n'.total f).Perm (kv :: kvs))
    (hpath : Path kv.key pathSize (.node n')) :
    Inserted kv kvs (.node n) (.node n', toData, pathSize) where
  holds := by
    refine ⟨_, hf.holds ?_, hperm⟩
    rw [hsize, hn.size, hperm.length_eq, List.length_cons]
  framed := hframe
  path := hpath

/-- The new key never meets itself, and reaches an empty item, another key, or too deep a node. -/
theorem insertDown_yields (hkey : ∀ x ∈ kvs, x.key ≠ kv.key) (fuel : Nat) (ht : Holds t kvs) :
    (contract fit).Yields (insertDown fit kv fuel t) (Inserted kv kvs t) := by
  induction fuel generalizing t kvs with
  | zero =>
    unfold insertDown
    exact .exits (.inr (.inr rfl))
  | succ fuel ih =>
    cases t with
    | node n =>
      obtain ⟨f, hf, rfl⟩ := ht.filled
      have hcount : Filled n.count f := hf.congr (frame_count n) (view_count n)
      have hpos := hcount.shape.predictPos_lt kv.key
      have hnew : ∀ x ∈ [kv], n.count.predictPos x.key = n.count.predictPos kv.key := by
        intro x hx
        rw [List.mem_singleton.mp hx]
      unfold insertDown
      dsimp only
      cases hview : n.count.view (n.count.predictPos kv.key) with
      | empty =>
        obtain ⟨hnone, -⟩ := Node.view_eq_empty.mp hview
        rw [if_pos hnone]
        obtain ⟨f', hf', hperm⟩ := hcount.place hnone
        apply Contract.Yields.pure
        exact inserted_node ht hf' ((frame_count n).trans (frame_place hcount.shape hpos kv)) rfl hperm
          (.last _)
      | data kv' =>
        obtain ⟨hnone, hchild, hget⟩ := Node.view_eq_data.mp hview
        have hmem : kv' ∈ n.count.total f := by
          have hitem := hcount.item _ hpos
          rw [hview] at hitem
          exact Node.mem_total.mpr ⟨_, hpos, hitem ▸ List.mem_singleton_self kv'⟩
        rw [hnone, hchild, hget]
        apply (buildTreeTwo_yields (hkey kv' hmem).symm).map
        rintro c ⟨hpadded, kvs', hc, hperm⟩
        have happend : kvs'.Perm ([kv] ++ [kv']) := hperm
        obtain ⟨f', hf', hperm'⟩ := hcount.replaceData hpos hview hc hpadded happend hnew
        have hframe := frame_replaceData n.count (n.count.predictPos kv.key) (.node c)
        have hdata := frame_countToData (n.count.replaceData (n.count.predictPos kv.key) (.node c)) true
        exact inserted_node ht (hf'.congr hdata fun i => rfl) ((frame_count n).trans (hframe.trans hdata))
          rfl hperm' (.last _)
      | child c =>
        obtain ⟨hnone, hchild, hget⟩ := Node.view_eq_child.mp hview
        have hc := hcount.children _ hpos c hview
        rw [hnone, hchild, hget]
        apply (ih (fun x hx => hkey x (Node.mem_total.mpr ⟨_, hpos, hx⟩)) hc).map
        rintro ⟨c', toData, pathSize⟩ ⟨⟨kvs', hc', hperm⟩, hframed, hpath⟩
        have happend : kvs'.Perm ([kv] ++ f (n.count.predictPos kv.key)) := hperm
        obtain ⟨f', hf', hperm'⟩ := hcount.setChild hpos hview hc' hframed.padded happend hnew
        have hframe := frame_setChild n.count (n.count.predictPos kv.key) c'
        have hdata := frame_countToData (n.count.setChild (n.count.predictPos kv.key) c') toData
        apply inserted_node ht (hf'.congr hdata fun i => rfl) ((frame_count n).trans (hframe.trans hdata))
          rfl hperm'
        apply Path.child _ hpath
        rw [(hframe.trans hdata).predictPos, view_countToData, view_setChild hcount.shape hpos hnone hchild,
          if_pos rfl]
      | invalid =>
        have hitem := hcount.item _ hpos
        rw [hview] at hitem
        exact hitem.elim

/-- A key that is already there meets itself, unless too deep a node comes first. -/
theorem insertDown_rejects {x : KeyValue K} (hmem : x ∈ kvs) (hkey : x.key = kv.key) (fuel : Nat)
    (ht : Holds t kvs) :
    (poolContract (fun e => e = .ordered ∨ e = .depth) False).Yields (insertDown fit kv fuel t)
      fun _ => False := by
  induction fuel generalizing t kvs with
  | zero =>
    unfold insertDown
    exact .exits (.inr rfl)
  | succ fuel ih =>
    cases t with
    | node n =>
      obtain ⟨f, hf, rfl⟩ := ht.filled
      have hcount : Filled n.count f := hf.congr (frame_count n) (view_count n)
      have hpos := hcount.shape.predictPos_lt kv.key
      have hitem := hcount.item _ hpos
      have hthere : x ∈ f (n.count.predictPos kv.key) := by
        rw [← hkey]
        exact hcount.mem_total.mp hmem
      unfold insertDown
      dsimp only
      cases hview : n.count.view (n.count.predictPos kv.key) with
      | empty =>
        rw [hview] at hitem
        have hnil : f (n.count.predictPos kv.key) = [] := hitem
        rw [hnil] at hthere
        cases hthere
      | data kv' =>
        obtain ⟨hnone, hchild, hget⟩ := Node.view_eq_data.mp hview
        rw [hview] at hitem
        have hsingle : f (n.count.predictPos kv.key) = [kv'] := hitem
        rw [hsingle, List.mem_singleton] at hthere
        subst hthere
        rw [hnone, hchild, hget]
        apply Contract.Yields.bind (buildTreeTwo_rejects hkey.symm (.inl rfl))
        exact fun _ h => h.elim
      | child c =>
        obtain ⟨hnone, hchild, hget⟩ := Node.view_eq_child.mp hview
        rw [hnone, hchild, hget]
        apply Contract.Yields.bind (ih hthere (hcount.children _ hpos c hview))
        exact fun _ h => h.elim
      | invalid =>
        rw [hview] at hitem
        exact hitem.elim

/-- A rebuilt node holds the pairs it had. -/
theorem rebuild_yields (hn : Holds (.node n) kvs) (htwo : 2 ≤ kvs.length) :
    (contract fit).Yields (rebuild fit n) fun t => Holds t kvs ∧ t.Padded := by
  unfold rebuild
  apply Contract.Yields.bind (scanAndDestroyTree_yields hn)
  intro kvs' hkvs'
  subst hkvs'
  exact buildTreeBulk_yields _ _ hn.ascending htwo (.inl le_rfl)

omit [LinearOrder K] in
theorem several_of_needRebuild (h : n.needRebuild = true) : 64 ≤ n.size := by
  rw [Node.needRebuild, Bool.and_eq_true, decide_eq_true_eq] at h
  exact h.2.2.1

theorem rebuildPath_yields {key : K} {pathSize : Nat} (hpath : Path key pathSize t) (ht : Holds t kvs) :
    (contract fit).Yields (rebuildPath fit key pathSize t) fun t' =>
      Holds t' kvs ∧ (t.Framed t' ∨ t'.Padded) := by
  induction hpath generalizing kvs with
  | last t =>
    cases t with
    | node n =>
      unfold rebuildPath
      split
      · next hneed =>
        have hsize := several_of_needRebuild hneed
        rw [ht.size] at hsize
        apply (rebuild_yields ht (by omega)).mono
        exact fun t' ⟨ht', hpadded⟩ => ⟨ht', .inr hpadded⟩
      · exact .pure ⟨ht, .inl (.refl _)⟩
  | @child n c pathSize hview hpath ih =>
    unfold rebuildPath
    split
    · next hneed =>
      have hsize := several_of_needRebuild hneed
      rw [ht.size] at hsize
      apply (rebuild_yields ht (by omega)).mono
      exact fun t' ⟨ht', hpadded⟩ => ⟨ht', .inr hpadded⟩
    · obtain ⟨f, hf, rfl⟩ := ht.filled
      have hpos := hf.shape.predictPos_lt key
      rw [if_neg hpath.pos.ne', (Node.view_eq_child.mp hview).2.2]
      apply (ih (hf.children _ hpos c hview)).map
      rintro c' ⟨hc', hframed⟩
      have hpadded : c.Padded → c'.Padded := fun h => hframed.elim (fun hframed => hframed.padded h) id
      obtain ⟨f', hf', hperm⟩ := hf.setChild hpos hview hc' hpadded (List.Perm.refl ([] ++ _))
        (fun x hx => absurd hx List.not_mem_nil)
      have heq := hf'.ascending.eq_of_perm hf.ascending hperm
      have hframe := frame_setChild n (n.predictPos key) c'
      rw [← heq]
      refine ⟨hf'.holds ?_, .inl hframe⟩
      rw [hperm.length_eq]
      exact ht.size

/-- The tree has gained exactly one pair. -/
theorem insertTree_yields (hkey : ∀ x ∈ kvs, x.key ≠ kv.key) (ht : Holds t kvs) :
    (contract fit).Yields (insertTree fit t kv) fun t' =>
      (∃ kvs', Holds t' kvs' ∧ kvs'.Perm (kv :: kvs)) ∧ (t.Framed t' ∨ t'.Padded) := by
  unfold insertTree
  apply Contract.Yields.bind (insertDown_yields hkey maxDepth ht)
  rintro ⟨t', toData, pathSize⟩ ⟨⟨kvs', ht', hperm⟩, hframed, hpath⟩
  apply (rebuildPath_yields hpath ht').mono
  rintro t'' ⟨ht'', hend⟩
  exact ⟨⟨kvs', ht'', hperm⟩, hend.imp_left hframed.trans⟩

theorem buildTreeNone_holds : Holds (.node (buildTreeNone : Node K (Tree K))) [] := by
  have hf : Filled (buildTreeNone : Node K (Tree K)) fun _ => [] := by
    apply Filled.empty
    · have hsize : 1 = Bitmap.size 1 := by decide
      exact ⟨Nat.one_pos, rfl, hsize, hsize, monotone_const⟩
    · intro htwo
      cases htwo
    · intro i hi
      obtain rfl := Nat.lt_one_iff.mp hi
      have hbits : Bitmap.get (Bitmap.set [0] 0) 0 = true ∧ Bitmap.get [0] 0 = false := by decide
      exact Node.view_eq_empty.mpr hbits
  have h := hf.holds (by rw [total_nil]; rfl)
  rwa [total_nil] at h

omit [LinearOrder K] in
theorem buildTreeNone_single : (Tree.node (buildTreeNone : Node K (Tree K))).Single := by
  have hbit : Bitmap.get (Bitmap.set [0] 0) 1 = false := by decide
  exact ⟨rfl, hbit⟩

/-- The new tree holds the data, whatever the old one held. -/
theorem bulkLoad_yields {data : List (KeyValue K)} (hdata : Ascending data) (ht : Holds t kvs) :
    (contract fit).Yields (bulkLoad fit t data) fun t' => Holds t' data ∧ (t'.Padded ∨ t'.Single) := by
  match data with
  | [] =>
    unfold bulkLoad
    exact (destroyTree_yields ht).map fun _ _ => ⟨buildTreeNone_holds, .inr buildTreeNone_single⟩
  | [kv] =>
    unfold bulkLoad
    apply Contract.Yields.bind (destroyTree_yields ht)
    rintro - -
    apply (insertTree_yields (fun x hx => absurd hx List.not_mem_nil) buildTreeNone_holds).mono
    rintro t' ⟨⟨kvs', ht', hperm⟩, hend⟩
    rw [List.perm_singleton.mp hperm] at ht'
    exact ⟨ht', hend.symm.imp_right fun hframed => hframed.single buildTreeNone_single⟩
  | [kv₁, kv₂] =>
    unfold bulkLoad
    apply Contract.Yields.bind (destroyTree_yields ht)
    rintro - -
    have hne : kv₁.key ≠ kv₂.key := (List.rel_of_pairwise_cons hdata List.mem_cons_self).ne
    apply (buildTreeTwo_yields hne).map
    rintro n ⟨hpadded, kvs', hn, hperm⟩
    rw [hn.ascending.eq_of_perm hdata hperm] at hn
    exact ⟨hn, .inl hpadded⟩
  | kv₁ :: kv₂ :: kv₃ :: data =>
    unfold bulkLoad
    have hchain : (keys (kv₁ :: kv₂ :: kv₃ :: data)).IsChain (· < ·) :=
      (List.pairwise_map.mpr hdata).isChain
    apply Contract.Yields.bind (rtAssert_yields fun hne => absurd hchain hne)
    rintro - -
    apply Contract.Yields.bind (destroyTree_yields ht)
    rintro - -
    apply (buildTreeBulk_yields _ _ hdata (Nat.le_add_left 2 _) (.inl le_rfl)).mono
    exact fun t' ⟨ht', hpadded⟩ => ⟨ht', .inl hpadded⟩

/-- Two pairs or more make a root with more than one item. -/
theorem bulkLoad_padded {data : List (KeyValue K)} (hdata : Ascending data) (htwo : 2 ≤ data.length) (ht : Holds t kvs) :
    (contract fit).Yields (bulkLoad fit t data) fun t' => Holds t' data ∧ t'.Padded := by
  match data with
  | [kv₁, kv₂] =>
    unfold bulkLoad
    apply Contract.Yields.bind (destroyTree_yields ht)
    rintro - -
    apply (buildTreeTwo_yields (List.rel_of_pairwise_cons hdata List.mem_cons_self).ne).map
    rintro n ⟨hpadded, kvs', hn, hperm⟩
    rw [hn.ascending.eq_of_perm hdata hperm] at hn
    exact ⟨hn, hpadded⟩
  | kv₁ :: kv₂ :: kv₃ :: data =>
    unfold bulkLoad
    have hchain : (keys (kv₁ :: kv₂ :: kv₃ :: data)).IsChain (· < ·) := (List.pairwise_map.mpr hdata).isChain
    apply Contract.Yields.bind (rtAssert_yields fun hne => absurd hchain hne)
    rintro - -
    apply Contract.Yields.bind (destroyTree_yields ht)
    rintro - -
    exact buildTreeBulk_yields _ _ hdata htwo (.inl le_rfl)

end LearnedIndex.Lipp
