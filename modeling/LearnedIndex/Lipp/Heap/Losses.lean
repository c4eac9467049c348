import LearnedIndex.Lipp.Heap.Descent

/-! The writes of an insertion that hide keys from a lookup: the bit of a child is set while its
item still has a key, and a rebuild frees the nodes that the tree still points to. -/

namespace LearnedIndex.Lipp.Heap

variable {K : Type}

section Find

variable [DecidableEq K] {mem mem' mem'' : Memory K} {p q : Pointer} {c : Cell K} {key : K}
  {foot own : Set Pointer}

/-- `Loses mem foot p key mem'`: from `p` on, a lookup does not find the key in `mem'`, which
differs from `mem` at most in `foot`. -/
structure Loses (mem : Memory K) (foot : Set Pointer) (p : Pointer) (key : K) (mem' : Memory K) : Prop where
  root : mem'.root = mem.root
  frame : ∀ q, q ∉ foot → mem'.nodes q = mem.nodes q
  lost : ∀ fuel value, find mem' key fuel p ≠ .found value

theorem find_strays (hp : mem.nodes p = some c) (hchild : c.isChild (c.predictPos key) = some true)
    (hnone : c.child (c.predictPos key) = none) (fuel : Nat) (value : UInt64) :
    find mem key fuel p ≠ .found value := by
  cases fuel with
  | zero => exact Lookup.noConfusion
  | succ fuel =>
    rw [find, hp]
    dsimp only
    rw [hchild]
    dsimp only
    rw [hnone]
    exact Lookup.noConfusion

/-- What a child has lost, its parent has. -/
theorem Loses.parent (h : Loses mem own q key mem') (live : mem.nodes p = some c) (hp : p ∉ own)
    (hchild : c.isChild (c.predictPos key) = some true) (hq : c.child (c.predictPos key) = some q)
    (hsub : own ⊆ foot) : Loses mem foot p key mem' where
  root := h.root
  frame r hr := h.frame r fun hmem => hr (hsub hmem)
  lost fuel value := by
    cases fuel with
    | zero => exact Lookup.noConfusion
    | succ fuel =>
      rw [find_child ((h.frame p hp).trans live) hchild hq]
      split
      · exact h.lost fuel value
      · exact Lookup.noConfusion

/-- A write to a node of its own does not matter. -/
theorem Loses.of_set {c : Option (Cell K)} (h : Loses (mem.set q c) foot p key mem') (hq : q ∈ foot) :
    Loses mem foot p key mem' where
  root := h.root
  frame r hr := (h.frame r hr).trans (Memory.set_of_ne fun heq => hr (heq ▸ hq))
  lost := h.lost

/-- One write to the node at `p` can lose its keys. -/
theorem Loses.set {c : Option (Cell K)} (hp : p ∈ foot)
    (hlost : ∀ fuel value, find (mem.set p c) key fuel p ≠ .found value) :
    Loses mem foot p key (mem.set p c) where
  root := rfl
  frame _ hr := Memory.set_of_ne fun heq => hr (heq ▸ hp)
  lost := hlost

omit [DecidableEq K] in
theorem child_setChildBit {pos : Nat} {kv : KeyValue K} (h : c.data pos = some kv) (i : Nat) :
    (c.setChildBit i).child pos = none := by
  change c.child pos = none
  rw [Cell.data] at h
  rw [Cell.child]
  split at h
  · next hitem => rw [hitem]
  · cases h

end Find

variable [LinearOrder K] {fit : Fit K} {alloc : Allocator K} {kv : KeyValue K} {mem : Memory K} {p : Pointer}
  {n : Node K (Tree K)} {t : Tree K} {foot : Set Pointer} {kvs : List (KeyValue K)} {depth : Nat}

/-- The key that another one meets is lost as soon as the bit of its item is set. -/
theorem insertDown_meets (hreaches : Reaches kv.key (fun view => ∃ kv', view = .data kv') depth t)
    (hrep : Represents mem.nodes p t foot) (ht : Holds t kvs) :
    ∃ x ∈ kvs, (insertDown fit alloc kv depth p).Passes mem (Loses mem foot p x.key) := by
  induction hreaches generalizing mem p foot kvs with
  | @here n depth hview =>
    obtain ⟨x, hview⟩ := hview
    obtain ⟨f, hf, rfl⟩ := ht.filled
    obtain ⟨c, live, hcount⟩ := hrep.count
    have hcounted : Shape n.count := (frame_count n).shape hf.shape
    have hpos := hcounted.predictPos_lt kv.key
    have hitem := hf.item _ hpos
    cases hcount with
    | @node _ d _ _ next own live' stands child below apart =>
      have hx : x ∈ f (n.count.predictPos kv.key) := by
        rw [show n.view (n.count.predictPos kv.key) = .data x from hview] at hitem
        rw [show f (n.count.predictPos kv.key) = [x] from hitem]
        exact List.mem_singleton_self x
      have hsame : d.predictPos x.key = n.count.predictPos kv.key :=
        (stands.predictPos _).trans (hf.predicted _ hpos x hx)
      refine ⟨x, Node.mem_total.mpr ⟨_, hpos, hx⟩, ?_⟩
      apply (count_ends live).passes
      rintro - _ rfl
      apply (insertItem_data live' stands hview).mono
      rintro _ rfl
      apply (Loses.set apart.top _).of_set apart.top
      intro fuel value
      apply find_strays (Memory.set_self _ _ _)
      · change (d.setChildBit _).isChild (d.predictPos x.key) = _
        rw [hsame, Cell.isChild, Cell.setChildBit, stands.childBitmap, Option.map_some, Option.map_some,
          Bitmap.get_set (hcounted.lt_child hpos)]
        simp
      · change (d.setChildBit _).child (d.predictPos x.key) = _
        rw [hsame]
        exact child_setChildBit (stands.data _ x hview) _
  | @child n t depth hview hreaches ih =>
    obtain ⟨f, hf, rfl⟩ := ht.filled
    have hcounted : Shape n.count := (frame_count n).shape hf.shape
    have hpos := hcounted.predictPos_lt kv.key
    obtain ⟨-, hbit, -⟩ := Node.view_eq_child.mp hview
    obtain ⟨c, live, hcount⟩ := hrep.count
    cases hcount with
    | @node _ d _ _ next own live' stands child below apart =>
      obtain ⟨x, hx, hpasses⟩ := ih (below _ t hview) (hf.children _ hpos t hview)
      have hsame : d.predictPos x.key = n.count.predictPos kv.key :=
        (stands.predictPos _).trans (hf.predicted _ hpos x hx)
      refine ⟨x, Node.mem_total.mpr ⟨_, hpos, hx⟩, ?_⟩
      apply (count_ends live).passes
      rintro - _ rfl
      rw [Traced.Passes, insertItem_child live' stands hview (child _ t hview)]
      apply Traced.Passes.bind
      apply hpasses.mono
      intro mem' hloses
      refine Loses.of_set (hloses.parent live' (apart.not_top _) ?_ ?_ (apart.part _)) apart.top
      · rw [hsame, stands.isChild]
        exact congrArg some hbit
      · rw [hsame]
        exact child _ t hview

end LearnedIndex.Lipp.Heap
