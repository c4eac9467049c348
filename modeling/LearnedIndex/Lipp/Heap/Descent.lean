import LearnedIndex.Lipp.Heap.Writes

/-! The descent of an insertion: where the way of its key ends, and what the memory is like on the
way there. -/

namespace LearnedIndex.Lipp.Heap

variable {K : Type}

/-- The way of a key has at most so many nodes, and ends at an item with `P`. -/
inductive Reaches (key : K) (P : View K (Tree K) → Prop) : Nat → Tree K → Prop
  | here {n depth} (h : P (n.view (n.predictPos key))) : Reaches key P (depth + 1) (.node n)
  | child {n t depth} (hview : n.view (n.predictPos key) = .child t) (h : Reaches key P depth t) :
      Reaches key P (depth + 1) (.node n)

/-- The way of a key ends at an empty item, and no node on it needs a rebuild when it has counted
the key. -/
inductive Quiet (key : K) : Tree K → Prop
  | last {n} (hview : n.view (n.predictPos key) = .empty) (hkeep : n.count.needRebuild = false) :
      Quiet key (.node n)
  | child {n t} (hview : n.view (n.predictPos key) = .child t) (hkeep : n.count.needRebuild = false)
      (h : Quiet key t) : Quiet key (.node n)

/-- The nodes on the way of a key. -/
inductive Trail (nodes : Pointer → Option (Cell K)) (key : K) : Pointer → List Pointer → Prop
  | last {p c} (live : nodes p = some c) : Trail nodes key p [p]
  | child {p q c path} (live : nodes p = some c) (hchild : c.isChild (c.predictPos key) = some true)
      (hq : c.child (c.predictPos key) = some q) (h : Trail nodes key q path) : Trail nodes key p (p :: path)

variable {key : K} {n : Node K (Tree K)} {t : Tree K} {kvs : List (KeyValue K)} {P : View K (Tree K) → Prop}

/-- A way that ends is not too deep. -/
theorem Reaches.not_path {depth : Nat} (hP : ∀ t, ¬P (.child t)) (h : Reaches key P depth t) :
    ¬Path key (depth + 1) t := by
  induction h with
  | here h =>
    intro hpath
    cases hpath with
    | child hview hpath =>
      rw [hview] at h
      exact hP _ h
  | child hview h ih =>
    intro hpath
    cases hpath with
    | child hview' hpath =>
      rw [hview] at hview'
      cases hview'
      exact ih hpath

theorem Quiet.not_reaches_data {depth : Nat} (h : Quiet key t) :
    ¬Reaches key (fun view => ∃ kv, view = .data kv) depth t := by
  induction h generalizing depth with
  | last hview hkeep =>
    intro hreaches
    cases hreaches with
    | here hdata =>
      obtain ⟨kv, hdata⟩ := hdata
      rw [hview] at hdata
      cases hdata
    | child hchild =>
      rw [hview] at hchild
      cases hchild
  | child hview hkeep h ih =>
    intro hreaches
    cases hreaches with
    | here hdata =>
      obtain ⟨kv, hdata⟩ := hdata
      rw [hview] at hdata
      cases hdata
    | child hchild hreaches =>
      rw [hview] at hchild
      cases hchild
      exact ih hreaches

theorem quiet_last_iff (hview : n.view (n.predictPos key) = .empty) :
    Quiet key (.node n) ↔ n.count.needRebuild = false := by
  constructor
  · intro h
    cases h with
    | last hempty hkeep => exact hkeep
    | child hchild hkeep h => exact hkeep
  · exact .last hview

theorem quiet_child_iff (hview : n.view (n.predictPos key) = .child t) :
    Quiet key (.node n) ↔ n.count.needRebuild = false ∧ Quiet key t := by
  constructor
  · intro h
    cases h with
    | last hempty hkeep =>
      rw [hview] at hempty
      cases hempty
    | child hchild hkeep h =>
      rw [hview] at hchild
      cases hchild
      exact ⟨hkeep, h⟩
  · exact fun ⟨hkeep, h⟩ => .child hview hkeep h

variable [LinearOrder K]

/-- A key meets too deep a node, an empty item, or another key. -/
theorem path_or_reaches (depth : Nat) (ht : Holds t kvs) :
    Path key (depth + 1) t ∨ Reaches key (fun view => view = .empty) depth t ∨
      Reaches key (fun view => ∃ kv, view = .data kv) depth t := by
  induction depth generalizing t kvs with
  | zero => exact .inl (.last t)
  | succ depth ih =>
    cases t with
    | node n =>
      obtain ⟨f, hf, rfl⟩ := ht.filled
      have hpos := hf.shape.predictPos_lt key
      have hitem := hf.item _ hpos
      cases hview : n.view (n.predictPos key) with
      | empty => exact .inr (.inl (.here hview))
      | data kv => exact .inr (.inr (.here ⟨kv, hview⟩))
      | child t =>
        obtain hpath | hreaches | hreaches := ih (hf.children _ hpos t hview)
        · exact .inl (.child hview hpath)
        · exact .inr (.inl (.child hview hreaches))
        · exact .inr (.inr (.child hview hreaches))
      | invalid =>
        rw [hview] at hitem
        exact hitem.elim

section Descent

variable {fit : Fit K} {alloc : Allocator K} {descend : Pointer → Exec K (List Pointer × Bool)}
  {kv : KeyValue K} {mem : Memory K} {p q : Pointer} {c : Cell K} {foot : Set Pointer} {depth : Nat}

theorem insertItem_child (live : mem.nodes p = some c) (stands : c.Stands n)
    (hview : n.view (n.predictPos kv.key) = .child t) (hq : c.child (n.predictPos kv.key) = some q) :
    insertItem fit alloc descend kv p mem = (descend q >>= fun r => pure (p :: r.1, r.2)) mem := by
  obtain ⟨hnone, hchild, -⟩ := Node.view_eq_child.mp hview
  unfold insertItem
  rw [(load_reads live).bind_eq, stands.predictPos,
    (read_reads ((stands.isNone _).trans (congrArg some hnone)) mem).bind_eq, if_neg Bool.false_ne_true,
    (read_reads ((stands.isChild _).trans (congrArg some hchild)) mem).bind_eq, if_pos rfl,
    (read_reads hq mem).bind_eq]

theorem insertItem_empty (live : mem.nodes p = some c) (stands : c.Stands n)
    (hview : n.view (n.predictPos kv.key) = .empty) :
    insertItem fit alloc descend kv p mem =
      (place p (n.predictPos kv.key) kv >>= fun _ => pure ([p], false)) mem := by
  obtain ⟨hnone, -⟩ := Node.view_eq_empty.mp hview
  unfold insertItem
  rw [(load_reads live).bind_eq, stands.predictPos,
    (read_reads ((stands.isNone _).trans (congrArg some hnone)) mem).bind_eq, if_pos rfl]

theorem insertItem_data {kv' : KeyValue K} (live : mem.nodes p = some c) (stands : c.Stands n)
    (hview : n.view (n.predictPos kv.key) = .data kv') :
    (insertItem fit alloc descend kv p).Passes mem fun mem' =>
      mem' = mem.set p (some (c.setChildBit (n.predictPos kv.key))) := by
  obtain ⟨hnone, hchild, -⟩ := Node.view_eq_data.mp hview
  unfold insertItem
  apply (load_reads live).passes
  rw [stands.predictPos]
  apply (read_reads ((stands.isNone _).trans (congrArg some hnone)) mem).passes
  rw [if_neg Bool.false_ne_true]
  apply (read_reads ((stands.isChild _).trans (congrArg some hchild)) mem).passes
  rw [if_neg Bool.false_ne_true]
  apply Traced.Passes.bind
  exact (store_writes live _).passes rfl

/-- On a way that is too deep, the nodes only count the key. -/
theorem insertDown_deep (hpath : Path kv.key (depth + 1) t) (hrep : Represents mem.nodes p t foot)
    (ht : Holds t kvs) : (insertDown fit alloc kv depth p).Exits mem mem.Extends := by
  induction depth generalizing mem p t foot kvs with
  | zero => exact .lift _
  | succ depth ih =>
    cases hpath with
    | @child n t _ hview hpath =>
      obtain ⟨f, hf, -⟩ := ht.filled
      obtain ⟨c, live, hcount⟩ := hrep.count
      have hext := Memory.Extends.set live (Cell.Extends.count c)
      cases hcount with
      | @node _ d _ _ next own live' stands child below apart =>
        apply (count_ends live).exits
        rintro - _ rfl
        rw [Traced.Exits, insertItem_child live' stands hview (child _ t hview)]
        apply Traced.Exits.bind
        have h := ih hpath (below _ t hview) (hf.children _ (hf.shape.predictPos_lt _) t hview)
        exact h.mono fun mem' => hext.trans

/-- Where a descent to an empty item gets to. -/
structure Descended (fit : Fit K) (kv : KeyValue K) (depth : Nat) (mem : Memory K) (p : Pointer) (t : Tree K)
    (foot : Set Pointer) (path : List Pointer) (mem' : Memory K) : Prop where
  kept : mem.Extends mem'
  frame : ∀ q, q ∉ foot → mem'.nodes q = mem.nodes q
  tree : ∃ t' pathSize, (∀ pool, Lipp.insertDown fit kv depth t pool = .returns ((t', false, pathSize), pool)) ∧
    Represents mem'.nodes p t' foot
  trail : Trail mem'.nodes kv.key p path
  quiet : Quiet kv.key t ↔ ∀ q ∈ path, ∀ c, mem'.nodes q = some c → c.needRebuild = false

/-- The step of the descent on trees, at an empty item. -/
theorem treeDown_empty (hview : n.view (n.predictPos kv.key) = .empty) (pool : Pool K) :
    Lipp.insertDown fit kv (depth + 1) (.node n) pool =
      .returns ((.node (n.count.place (n.count.predictPos kv.key) kv), false, 1), pool) := by
  obtain ⟨hnone, -⟩ := Node.view_eq_empty.mp hview
  have hcounted : n.count.isNone (n.count.predictPos kv.key) = true := hnone
  unfold Lipp.insertDown
  dsimp only
  rw [if_pos hcounted]
  rfl

/-- The step of the descent on trees, at a child. -/
theorem treeDown_child {t' : Tree K} {insertToData : Bool} {pathSize : Nat} {pool pool' : Pool K}
    (hview : n.view (n.predictPos kv.key) = .child t)
    (h : Lipp.insertDown fit kv depth t pool = .returns ((t', insertToData, pathSize), pool')) :
    Lipp.insertDown fit kv (depth + 1) (.node n) pool =
      .returns ((.node ((n.count.setChild (n.count.predictPos kv.key) t').countToData insertToData),
        insertToData, pathSize + 1), pool') := by
  have hcounted : n.count.view (n.count.predictPos kv.key) = .child t := hview
  obtain ⟨hnone, hchild, hget⟩ := Node.view_eq_child.mp hcounted
  unfold Lipp.insertDown
  dsimp only
  rw [hnone, hchild, hget]
  change (Lipp.insertDown fit kv depth t pool >>= _) = _
  rw [h]
  rfl

/-- The node where a descent ends has a place for the key. -/
theorem descended_here (hrep : Represents mem.nodes p (.node n) foot) (hn : Shape n)
    (hview : n.view (n.predictPos kv.key) = .empty) :
    (insertDown fit alloc kv (depth + 1) p).Ends mem mem.Extends fun r mem' =>
      r.2 = false ∧ Descended fit kv (depth + 1) mem p (.node n) foot r.1 mem' := by
  have hcounted : Shape n.count := (frame_count n).shape hn
  have hpos := hcounted.predictPos_lt kv.key
  obtain ⟨hnone, hchild⟩ := Node.view_eq_empty.mp hview
  obtain ⟨c, live, hcount⟩ := hrep.count
  have hext := Memory.Extends.set live (Cell.Extends.count c)
  have hcopy := hcount
  cases hcopy with
  | @node _ d _ _ next own live' stands child below apart =>
    have hempty : d.isNone (n.count.predictPos kv.key) = some true :=
      (stands.isNone _).trans (congrArg some hnone)
    have hwrites := Cell.Extends.placeWrites hempty kv
    have hplaced := Cell.Extends.place hempty kv
    have hstands := stands.place hcounted hpos hchild kv
    apply (count_ends live).bind
    rintro - _ rfl
    rw [Traced.Ends, insertItem_empty live' stands hview]
    apply (stores_ends live' (fun e he => hext.trans (.set live' he)) (.refl d) hwrites).bind
    rintro - _ rfl
    apply Traced.Ends.pure
    refine ⟨rfl, hext.trans (.set live' hplaced), ?_, ⟨_, _, treeDown_empty hview, ?_⟩, ?_, ?_⟩
    · intro q hq
      have hne : q ≠ p := fun heq => hq (heq ▸ apart.top)
      rw [Memory.set_of_ne hne, Memory.set_of_ne hne]
    · apply hcount.update live' (Memory.set_self _ _ _) hplaced hstands
      · intro i t hi
        rw [view_place hcounted hpos hchild] at hi
        split at hi
        · cases hi
        · exact hi
      · exact fun q hq => Memory.set_of_ne hq
    · exact .last (Memory.set_self _ _ _)
    · rw [quiet_last_iff hview, List.forall_mem_singleton]
      exact hstands.needRebuild_iff (Memory.set_self _ _ _)

/-- A descent to an empty item leaves the memory of a tree with the new key, and all that it
writes on its way extends the memory it starts from. -/
theorem insertDown_opens (hreaches : Reaches kv.key (fun view => view = .empty) depth t)
    (hrep : Represents mem.nodes p t foot) (ht : Holds t kvs) :
    (insertDown fit alloc kv depth p).Ends mem mem.Extends fun r mem' =>
      r.2 = false ∧ Descended fit kv depth mem p t foot r.1 mem' := by
  induction hreaches generalizing mem p foot kvs with
  | here hview =>
    obtain ⟨f, hf, -⟩ := ht.filled
    exact descended_here hrep hf.shape hview
  | @child n t depth hview hreaches ih =>
    obtain ⟨f, hf, -⟩ := ht.filled
    have hcounted : Shape n.count := (frame_count n).shape hf.shape
    have hpos := hcounted.predictPos_lt kv.key
    obtain ⟨c, live, hcount⟩ := hrep.count
    have hext := Memory.Extends.set live (Cell.Extends.count c)
    cases hcount with
    | @node _ d _ _ next own live' stands child below apart =>
      apply (count_ends live).bind
      rintro - _ rfl
      rw [Traced.Ends, insertItem_child live' stands hview (child _ t hview)]
      have h := ih (below _ t hview) (hf.children _ hpos t hview)
      apply (h.mono (fun mem' => hext.trans) fun r mem' => id).bind
      rintro ⟨path, insertToData⟩ mem' ⟨hdata, hrest⟩
      obtain rfl : insertToData = false := hdata
      obtain ⟨t', pathSize, hdown, ht'⟩ := hrest.tree
      have hlive : mem'.nodes p = some d := (hrest.frame p (apart.not_top _)).trans live'
      obtain ⟨-, hbit, -⟩ := Node.view_eq_child.mp hview
      have hset := Represents.setChild live' stands child below apart hcounted hpos hview ht' hrest.frame
      apply Traced.Ends.pure
      refine ⟨rfl, hext.trans hrest.kept, ?_, ⟨_, _, fun pool => treeDown_child hview (hdown pool), hset⟩, ?_, ?_⟩
      · intro q hq
        rw [hrest.frame q fun hmem => hq (apart.part _ hmem)]
        exact Memory.set_of_ne fun heq => hq (heq ▸ apart.top)
      · apply Trail.child hlive _ _ hrest.trail
        · rw [stands.predictPos, stands.isChild]
          exact congrArg some hbit
        · rw [stands.predictPos]
          exact child _ t hview
      · rw [quiet_child_iff hview, List.forall_mem_cons, hrest.quiet]
        exact and_congr_left' (stands.needRebuild_iff hlive)

end Descent

end LearnedIndex.Lipp.Heap
