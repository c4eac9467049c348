import LearnedIndex.Lipp.Heap.Losses

/-! A rebuild frees the first node, with all its keys, before the tree points to another. -/

namespace LearnedIndex.Lipp.Heap

variable {K : Type}

section Find

variable [DecidableEq K] {mem : Memory K} {p : Pointer} {c : Cell K} {key : K}

theorem find_freed (hp : mem.nodes p = some c) (hitems : c.items = none) (fuel : Nat) (value : UInt64) :
    find mem key fuel p ≠ .found value := by
  have hitem : ∀ i, c.item i = none := fun i => by rw [Cell.item, hitems]; rfl
  cases hchild : c.isChild (c.predictPos key) with
  | none =>
    cases fuel with
    | zero => exact Lookup.noConfusion
    | succ fuel =>
      rw [find, hp]
      dsimp only
      rw [hchild]
      exact Lookup.noConfusion
  | some bit =>
    cases bit with
    | true => exact find_strays hp hchild (by rw [Cell.child, hitem]) fuel value
    | false =>
      cases fuel with
      | zero => exact Lookup.noConfusion
      | succ fuel =>
        rw [find_data hp hchild, Cell.findData, hitem]
        split
        · exact Lookup.noConfusion
        · next heq => cases heq
        · exact Lookup.noConfusion

theorem find_emptied (hp : mem.nodes p = some c) (hchild : c.isChild (c.predictPos key) = some false)
    (hnone : c.isNone (c.predictPos key) = some true) (fuel : Nat) (value : UInt64) :
    find mem key fuel p ≠ .found value := by
  cases fuel with
  | zero => exact Lookup.noConfusion
  | succ fuel =>
    rw [find_data hp hchild, Cell.findData, hnone]
    exact Lookup.noConfusion

end Find

variable [LinearOrder K] {fit : Fit K} {alloc : Allocator K} {mem : Memory K} {p : Pointer}
  {n : Node K (Tree K)} {t : Tree K} {foot : Set Pointer} {kvs : List (KeyValue K)}
  {f : Nat → List (KeyValue K)} {c : Cell K} {key : K} {fuel : Nat}

/-- Where `scan_and_destory_tree` is once it has read `i` items of a node. -/
structure Scanned (n : Node K (Tree K)) (f : Nat → List (KeyValue K)) (i : Nat) (scan : Scan K) : Prop where
  begin : scan.begin = (before f i).length
  buffer : scan.buffer.length = n.size

theorem scanItem_reads {next : Nat → Pointer} {own : Nat → Set Pointer} {i : Nat} {scan : Scan K}
    (live : mem.nodes p = some c) (stands : c.Stands n)
    (child : ∀ i t, n.view i = .child t → c.child i = some (next i))
    (below : ∀ i t, n.view i = .child t → Represents mem.nodes (next i) t (own i)) (hf : Filled n f)
    (hsize : n.size = (n.total f).length) (hi : i < n.numItems) (h : Scanned n f i scan) :
    ∃ scan', (scanItem p scan i).Reads mem scan' ∧ Scanned n f (i + 1) scan' := by
  have hitem := hf.item i hi
  unfold scanItem
  cases hview : n.view i with
  | empty =>
    obtain ⟨hnone, -⟩ := Node.view_eq_empty.mp hview
    rw [hview] at hitem
    refine ⟨scan, ?_, ?_, h.buffer⟩
    · apply (load_reads live).bind
      apply (read_reads ((stands.isNone i).trans (congrArg some hnone)) mem).bind
      rw [if_pos rfl]
      exact .pure _ _
    · rw [before_succ, show f i = [] from hitem, List.append_nil]
      exact h.begin
  | data kv =>
    obtain ⟨hnone, hbit, -⟩ := Node.view_eq_data.mp hview
    rw [hview] at hitem
    have hbegin : (before f (i + 1)).length = scan.begin + 1 := by
      rw [before_succ, show f i = [kv] from hitem, List.length_append, h.begin]
      rfl
    have hroom : scan.begin < scan.buffer.length := by
      have hle := (before_mono f hi).length_le
      rw [h.buffer, hsize]
      exact (hbegin ▸ hle : scan.begin + 1 ≤ (before f n.numItems).length)
    refine ⟨⟨scan.s, scan.begin + 1, scan.buffer.set scan.begin (some kv)⟩, ?_, hbegin.symm, ?_⟩
    · apply (load_reads live).bind
      apply (read_reads ((stands.isNone i).trans (congrArg some hnone)) mem).bind
      rw [if_neg Bool.false_ne_true]
      apply (read_reads ((stands.isChild i).trans (congrArg some hbit)) mem).bind
      rw [if_neg Bool.false_ne_true]
      apply (read_reads (stands.data i kv hview) mem).bind
      rw [writeBuffer, if_pos hroom]
      exact .pure _ _
    · exact List.length_set.trans h.buffer
  | child t =>
    obtain ⟨hnone, hbit, -⟩ := Node.view_eq_child.mp hview
    have hcell : ∃ d, mem.nodes (next i) = some d ∧ d.size = (f i).length := by
      have hholds := hf.children i hi t hview
      cases below i t hview with
      | node live' stands' child' below' apart' =>
        exact ⟨_, live', stands'.size.trans hholds.size⟩
    obtain ⟨d, hlive, hcount⟩ := hcell
    refine ⟨⟨(scan.begin, next i) :: scan.s, scan.begin + d.size, scan.buffer⟩, ?_, ?_, h.buffer⟩
    · apply (load_reads live).bind
      apply (read_reads ((stands.isNone i).trans (congrArg some hnone)) mem).bind
      rw [if_neg Bool.false_ne_true]
      apply (read_reads ((stands.isChild i).trans (congrArg some hbit)) mem).bind
      rw [if_pos rfl]
      apply (read_reads (child i t hview) mem).bind
      apply (load_reads hlive).bind
      exact .pure _ _
    · rw [before_succ, List.length_append, ← h.begin, hcount]
  | invalid =>
    rw [hview] at hitem
    exact hitem.elim

/-- Freeing a node hides all that was below it. -/
theorem recycle_loses (live : mem.nodes p = some c) (stands : c.Stands n) (hf : Filled n f) (hp : p ∈ foot)
    (key : K) : (recycle p).Passes mem (Loses mem foot p key) := by
  unfold recycle
  apply (load_reads live).passes
  cases htwo : c.isTwo with
  | true =>
    have hisTwo : n.isTwo = true := stands.isTwo.symm.trans htwo
    obtain ⟨hbuild, hitems, -⟩ := hf.two hisTwo
    rw [if_pos rfl]
    apply (rtAssert_reads (stands.buildSize.trans hbuild) mem).passes
    apply (rtAssert_reads (stands.numItems.trans hitems) mem).passes
    apply (stores_ends live (I := fun _ => True) (C := fun _ => True) (fun _ _ => trivial) trivial
      (fun _ _ _ _ => trivial)).passes
    rintro - _ rfl
    apply (Traced.Writes.write _ _).passes
    have hreset := (reset_recyclable hf.shape hf.two hisTwo).2
    have hnone : List.set n.noneBitmap 0 0xff = [0xff] := congrArg Node.noneBitmap hreset
    have hchild : List.set n.childBitmap 0 0 = [0] := congrArg Node.childBitmap hreset
    have hlt : n.predictPos key < 8 := (hf.shape.predictPos_lt key).trans_eq hitems
    have hbits : ∀ i < 8, Bitmap.get [0xff] i = true ∧ Bitmap.get [0] i = false := by decide
    constructor
    · rfl
    · exact fun q hq => Memory.set_of_ne fun heq => hq (heq ▸ hp)
    · have hlive : ∀ d pool, ({ mem.set p (some d) with pendingTwo := pool } : Memory K).nodes p = some d :=
        fun d pool => Memory.set_self mem p (some d)
      apply find_emptied (hlive _ _)
      · change ((c.childBitmap.map fun bitmap => List.set bitmap 0 0).map
          fun bitmap => Bitmap.get bitmap (c.predictPos key)) = some false
        rw [stands.childBitmap, stands.predictPos, Option.map_some, Option.map_some, hchild, (hbits _ hlt).2]
      · change ((c.noneBitmap.map fun bitmap => List.set bitmap 0 0xff).map
          fun bitmap => Bitmap.get bitmap (c.predictPos key)) = some true
        rw [stands.noneBitmap, stands.predictPos, Option.map_some, Option.map_some, hnone, (hbits _ hlt).1]
  | false =>
    rw [if_neg Bool.false_ne_true]
    apply Traced.Passes.bind
    apply stores_passes live
    apply Loses.set hp
    exact find_freed (Memory.set_self _ _ _) rfl

/-- The scan frees its first node before any other. -/
theorem scanAndDestroyTree_loses (hrep : Represents mem.nodes p (.node n) foot) (ht : Holds (.node n) kvs)
    (key : K) : (scanAndDestroyTree (fuel + 1) p).Passes mem (Loses mem foot p key) := by
  obtain ⟨f, hf, rfl⟩ := ht.filled
  cases hrep with
  | @node _ c _ _ next own live stands child below apart =>
    have hstart : Scanned n f 0 ⟨[], 0, List.replicate c.size none⟩ :=
      ⟨rfl, List.length_replicate.trans stands.size⟩
    obtain ⟨scan, hscan, hend⟩ := Traced.Reads.range (s := mem) hstart fun i hi scan h =>
      scanItem_reads live stands child below hf ht.size hi h
    have hcount : 0 + c.size = scan.begin := by
      rw [Nat.zero_add, hend.begin, stands.size]
      exact ht.size
    unfold scanAndDestroyTree
    apply (load_reads live).passes
    apply Traced.Passes.bind
    unfold scanLoop
    apply (load_reads live).passes
    rw [stands.numItems]
    apply hscan.passes
    apply (rtAssert_reads hcount mem).passes
    apply Traced.Passes.bind
    exact recycle_loses live stands hf apart.top key

omit [LinearOrder K] in
theorem Cell.Stands.view_child {i : Nat} (stands : c.Stands n) (hview : n.view i ≠ .invalid)
    (hchild : c.isChild i = some true) : ∃ t, n.view i = .child t := by
  have hbit : n.isChild i = true := Option.some.inj ((stands.isChild i).symm.trans hchild)
  cases hi : n.view i with
  | empty => simp [(Node.view_eq_empty.mp hi).2] at hbit
  | data kv => simp [(Node.view_eq_data.mp hi).2.1] at hbit
  | child t => exact ⟨t, rfl⟩
  | invalid => exact absurd hi hview

theorem exists_other_key (hkvs : Ascending kvs) (hlength : 2 ≤ kvs.length) (key : K) :
    ∃ x ∈ kvs, x.key ≠ key := by
  match kvs with
  | x :: y :: kvs =>
    have hlt : x.key < y.key := List.rel_of_pairwise_cons hkvs List.mem_cons_self
    by_cases hx : x.key = key
    · exact ⟨y, List.mem_cons_of_mem _ List.mem_cons_self, hx ▸ hlt.ne'⟩
    · exact ⟨x, List.mem_cons_self, hx⟩

/-- The node that is rebuilt had many keys. -/
theorem rebuildNode_loses {path : List Pointer} {parent : Option Pointer} (live : mem.nodes p = some c)
    (hneed : c.needRebuild = true) (hrep : Represents mem.nodes p t foot) (ht : Holds t kvs) :
    ∃ x ∈ kvs, x.key ≠ key ∧
      (rebuildPath fit alloc (fuel + 1) key parent (p :: path)).Passes mem (Loses mem foot p x.key) := by
  cases t with
  | node n =>
    have hsize : 64 ≤ kvs.length := by
      cases hrep with
      | node live' stands child below apart =>
        obtain rfl := Option.some.inj (live.symm.trans live')
        rw [← ht.size]
        exact several_of_needRebuild (stands.needRebuild.symm.trans hneed)
    obtain ⟨x, hx, hne⟩ := exists_other_key ht.ascending (by omega) key
    refine ⟨x, hx, hne, ?_⟩
    unfold rebuildPath
    apply (load_reads live).passes
    rw [if_pos hneed]
    exact (scanAndDestroyTree_loses hrep ht x.key).bind

/-- A rebuild on the way of a key hides others. -/
theorem rebuildPath_loses {path : List Pointer} {parent : Option Pointer} (htrail : Trail mem.nodes key p path)
    (hrep : Represents mem.nodes p t foot) (ht : Holds t kvs)
    (hneed : ¬∀ q ∈ path, ∀ c, mem.nodes q = some c → c.needRebuild = false) :
    ∃ x ∈ kvs, x.key ≠ key ∧
      (rebuildPath fit alloc (fuel + 1) key parent path).Passes mem (Loses mem foot p x.key) := by
  induction htrail generalizing t foot kvs parent with
  | @last p c live =>
    apply rebuildNode_loses live _ hrep ht
    by_contra hkeep
    apply hneed
    intro q hq d hd
    obtain rfl := List.mem_singleton.mp hq
    obtain rfl := Option.some.inj (live.symm.trans hd)
    exact Bool.eq_false_iff.mpr hkeep
  | @child p q c path live hchild hq htrail ih =>
    by_cases hkeep : c.needRebuild = true
    · exact rebuildNode_loses live hkeep hrep ht
    · have hrest : ¬∀ r ∈ path, ∀ d, mem.nodes r = some d → d.needRebuild = false := by
        intro hrest
        rw [List.forall_mem_cons] at hneed
        refine hneed ⟨fun d hd => ?_, hrest⟩
        obtain rfl := Option.some.inj (live.symm.trans hd)
        exact Bool.eq_false_iff.mpr hkeep
      cases hrep with
      | @node _ d n _ next own live' stands child below apart =>
        obtain rfl := Option.some.inj (live.symm.trans live')
        obtain ⟨f, hf, rfl⟩ := ht.filled
        have hpos := hf.shape.predictPos_lt key
        rw [stands.predictPos] at hchild hq
        have hvalid : n.view (n.predictPos key) ≠ .invalid := by
          intro hinvalid
          have hitem := hf.item _ hpos
          rw [hinvalid] at hitem
          exact hitem
        obtain ⟨t, hview⟩ := stands.view_child hvalid hchild
        obtain rfl := Option.some.inj (hq.symm.trans (child _ t hview))
        obtain ⟨x, hx, hne, hpasses⟩ := ih (below _ t hview) (hf.children _ hpos t hview) hrest
        have hsame : c.predictPos x.key = n.predictPos key :=
          (stands.predictPos _).trans (hf.predicted _ hpos x hx)
        refine ⟨x, Node.mem_total.mpr ⟨_, hpos, hx⟩, hne, ?_⟩
        unfold rebuildPath
        apply (load_reads live).passes
        rw [if_neg hkeep]
        apply hpasses.mono
        intro mem' hloses
        exact hloses.parent live (apart.not_top _) (hsame ▸ hchild) (hsame ▸ hq) (apart.part _)

/-- Without a rebuild, nothing more is written. -/
theorem rebuildPath_reads {path : List Pointer} {parent : Option Pointer} (htrail : Trail mem.nodes key p path)
    (hkeep : ∀ q ∈ path, ∀ c, mem.nodes q = some c → c.needRebuild = false) :
    (rebuildPath fit alloc fuel key parent path).Reads mem none := by
  induction htrail generalizing parent with
  | @last p c live =>
    unfold rebuildPath
    apply (load_reads live).bind
    rw [if_neg (Bool.eq_false_iff.mp (hkeep p List.mem_cons_self c live))]
    exact .pure _ _
  | @child p q c path live hchild hq htrail ih =>
    obtain ⟨hhead, hrest⟩ := List.forall_mem_cons.mp hkeep
    unfold rebuildPath
    apply (load_reads live).bind
    rw [if_neg (Bool.eq_false_iff.mp (hhead c live))]
    exact ih hrest

end LearnedIndex.Lipp.Heap
