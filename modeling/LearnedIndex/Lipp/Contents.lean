import LearnedIndex.Lipp.Defs

/-! What a tree stores: the view of a node item by item, and the trees whose bitmaps, items
and sizes agree and whose keys lie where they are predicted. -/

universe u v

namespace LearnedIndex.Lipp

variable {K : Type u} {N : Type v}

/-- An item as its bits in the bitmaps tell to read it. -/
inductive View (K : Type u) (N : Type v)
  | empty
  | data (kv : KeyValue K)
  | child (c : N)
  | invalid

namespace Node

def view (n : Node K N) (i : Nat) : View K N :=
  match n.isNone i, n.isChild i, n.items[i]? with
  | true, false, _ => .empty
  | false, false, some (.data key value) => .data ⟨key, value⟩
  | false, true, some (.child c) => .child c
  | _, _, _ => .invalid

theorem view_eq_empty {n : Node K N} {i : Nat} :
    n.view i = .empty ↔ n.isNone i = true ∧ n.isChild i = false := by
  unfold view
  split <;> simp_all

theorem view_eq_data {n : Node K N} {i : Nat} {kv : KeyValue K} : n.view i = .data kv ↔
    n.isNone i = false ∧ n.isChild i = false ∧ n.items[i]? = some (.data kv.key kv.value) := by
  obtain ⟨key, value⟩ := kv
  unfold view
  split <;> simp_all

theorem view_eq_child {n : Node K N} {i : Nat} {c : N} : n.view i = .child c ↔
    n.isNone i = false ∧ n.isChild i = true ∧ n.items[i]? = some (.child c) := by
  unfold view
  split <;> simp_all

end Node

/-- The bitmaps and the items have the length they should have. -/
structure Shape [Preorder K] (n : Node K N) : Prop where
  pos : 0 < n.numItems
  items : n.items.length = n.numItems
  none : n.noneBitmap.length = Bitmap.size n.numItems
  child : n.childBitmap.length = Bitmap.size n.numItems
  mono : Monotone n.model

/-- The bits behind the last item never look occupied. -/
def Node.Padded (n : Node K N) : Prop :=
  ∀ i, n.numItems ≤ i → i < 8 * Bitmap.size n.numItems → n.isNone i = true

/-- A tree that was built from two keys or more. -/
def Tree.Padded : Tree K → Prop
  | .node n => 1 < n.numItems ∧ n.Padded

/-- The node of `build_tree_none`: behind its only item it looks occupied. -/
def Tree.Single : Tree K → Prop
  | .node n => n.numItems = 1 ∧ n.isNone 1 = false

/-- `n'` differs from `n` in its counters and items only, and in the bits of the items. -/
structure Frame (n n' : Node K N) : Prop where
  isTwo : n'.isTwo = n.isTwo
  buildSize : n'.buildSize = n.buildSize
  fixed : n'.fixed = n.fixed
  numItems : n'.numItems = n.numItems
  model : n'.model = n.model
  items : n'.items.length = n.items.length
  none : n'.noneBitmap.length = n.noneBitmap.length
  child : n'.childBitmap.length = n.childBitmap.length
  padding : ∀ i, n.numItems ≤ i → n'.isNone i = n.isNone i

namespace Frame

variable {n n' n'' : Node K N}

theorem refl (n : Node K N) : Frame n n := ⟨rfl, rfl, rfl, rfl, rfl, rfl, rfl, rfl, fun _ _ => rfl⟩

theorem trans (h : Frame n n') (h' : Frame n' n'') : Frame n n'' where
  isTwo := h'.isTwo.trans h.isTwo
  buildSize := h'.buildSize.trans h.buildSize
  fixed := h'.fixed.trans h.fixed
  numItems := h'.numItems.trans h.numItems
  model := h'.model.trans h.model
  items := h'.items.trans h.items
  none := h'.none.trans h.none
  child := h'.child.trans h.child
  padding i hi := (h'.padding i (h.numItems ▸ hi)).trans (h.padding i hi)

theorem predictPos (h : Frame n n') (key : K) : n'.predictPos key = n.predictPos key := by
  rw [Node.predictPos, Node.predictPos, h.numItems, h.model]

theorem shape [Preorder K] (h : Frame n n') (hn : Shape n) : Shape n' where
  pos := h.numItems ▸ hn.pos
  items := by rw [h.items, hn.items, h.numItems]
  none := by rw [h.none, hn.none, h.numItems]
  child := by rw [h.child, hn.child, h.numItems]
  mono := h.model ▸ hn.mono

theorem padded (h : Frame n n') (hn : n.Padded) : n'.Padded := by
  intro i hle hlt
  rw [h.numItems] at hle hlt
  rw [h.padding i hle]
  exact hn i hle hlt

end Frame

/-- The nodes at the top differ as in `Frame`. -/
def Tree.Framed : Tree K → Tree K → Prop
  | .node n, .node n' => Frame n n'

namespace Tree.Framed

variable {t t' t'' : Tree K}

theorem refl (t : Tree K) : t.Framed t := by
  cases t with
  | node n => exact Frame.refl n

theorem node {n n' : Node K (Tree K)} (h : Frame n n') : (Tree.node n).Framed (.node n') := h

theorem padded (h : t.Framed t') (ht : t.Padded) : t'.Padded := by
  cases t with
  | node n =>
    cases t' with
    | node n' => exact ⟨ht.1.trans_eq (Frame.numItems h).symm, Frame.padded h ht.2⟩

theorem single (h : t.Framed t') (ht : t.Single) : t'.Single := by
  cases t with
  | node n =>
    cases t' with
    | node n' => exact ⟨(Frame.numItems h).trans ht.1, (Frame.padding h 1 ht.1.le).trans ht.2⟩

theorem trans (h : t.Framed t') (h' : t'.Framed t'') : t.Framed t'' := by
  cases t with
  | node n =>
    cases t' with
    | node n' =>
      cases t'' with
      | node n'' => exact Frame.trans h h'

end Tree.Framed

section Updates

variable {n : Node K N} {pos : Nat}

theorem Shape.lt_none [Preorder K] (h : Shape n) (hpos : pos < n.numItems) :
    pos / 8 < n.noneBitmap.length := h.none ▸ Bitmap.lt_size hpos

theorem Shape.lt_child [Preorder K] (h : Shape n) (hpos : pos < n.numItems) :
    pos / 8 < n.childBitmap.length := h.child ▸ Bitmap.lt_size hpos

variable [Preorder K] (hn : Shape n) (hpos : pos < n.numItems)

include hn hpos

theorem frame_place (kv : KeyValue K) : Frame n (n.place pos kv) where
  isTwo := rfl
  buildSize := rfl
  fixed := rfl
  numItems := rfl
  model := rfl
  items := List.length_set
  none := Bitmap.length_clear _ _
  child := rfl
  padding i hi := by
    rw [Node.isNone, Node.place, Bitmap.get_clear (hn.lt_none hpos)]
    simp [(hpos.trans_le hi).ne', Node.isNone]

theorem frame_placeChild (c : N) : Frame n (n.placeChild pos c) where
  isTwo := rfl
  buildSize := rfl
  fixed := rfl
  numItems := rfl
  model := rfl
  items := List.length_set
  none := Bitmap.length_clear _ _
  child := Bitmap.length_set _ _
  padding i hi := by
    rw [Node.isNone, Node.placeChild, Bitmap.get_clear (hn.lt_none hpos)]
    simp [(hpos.trans_le hi).ne', Node.isNone]

theorem view_place (hchild : n.isChild pos = false) (kv : KeyValue K) (i : Nat) :
    (n.place pos kv).view i = if i = pos then .data kv else n.view i := by
  have hnone : (n.place pos kv).isNone i = (!decide (i = pos) && n.isNone i) :=
    Bitmap.get_clear (hn.lt_none hpos) i
  split
  · next heq =>
    subst heq
    apply Node.view_eq_data.mpr
    refine ⟨by simp [hnone], hchild, ?_⟩
    simp [Node.place, hn.items, hpos]
  · next hne =>
    have hitem : (n.place pos kv).items[i]? = n.items[i]? := List.getElem?_set_ne (Ne.symm hne)
    simp only [Node.view, hnone, hitem, hne, decide_false, Bool.not_false, Bool.true_and]
    rfl

theorem view_placeChild (c : N) (i : Nat) :
    (n.placeChild pos c).view i = if i = pos then .child c else n.view i := by
  have hnone : (n.placeChild pos c).isNone i = (!decide (i = pos) && n.isNone i) :=
    Bitmap.get_clear (hn.lt_none hpos) i
  have hchild : (n.placeChild pos c).isChild i = (decide (i = pos) || n.isChild i) :=
    Bitmap.get_set (hn.lt_child hpos) i
  split
  · next heq =>
    subst heq
    apply Node.view_eq_child.mpr
    refine ⟨by simp [hnone], by simp [hchild], ?_⟩
    simp [Node.placeChild, hn.items, hpos]
  · next hne =>
    have hitem : (n.placeChild pos c).items[i]? = n.items[i]? := List.getElem?_set_ne (Ne.symm hne)
    simp only [Node.view, hnone, hchild, hitem, hne, decide_false, Bool.not_false, Bool.true_and,
      Bool.false_or]

theorem view_replaceData (hnone : n.isNone pos = false) (c : N) (i : Nat) :
    (n.replaceData pos c).view i = if i = pos then .child c else n.view i := by
  have hchild : (n.replaceData pos c).isChild i = (decide (i = pos) || n.isChild i) :=
    Bitmap.get_set (hn.lt_child hpos) i
  split
  · next heq =>
    subst heq
    apply Node.view_eq_child.mpr
    refine ⟨hnone, by simp [hchild], ?_⟩
    simp [Node.replaceData, hn.items, hpos]
  · next hne =>
    have hitem : (n.replaceData pos c).items[i]? = n.items[i]? := List.getElem?_set_ne (Ne.symm hne)
    simp only [Node.view, hchild, hitem, hne, decide_false, Bool.false_or]
    rfl

theorem view_setChild (hnone : n.isNone pos = false) (hchild : n.isChild pos = true) (c : N) (i : Nat) :
    (n.setChild pos c).view i = if i = pos then .child c else n.view i := by
  split
  · next heq =>
    subst heq
    apply Node.view_eq_child.mpr
    refine ⟨hnone, hchild, ?_⟩
    simp [Node.setChild, hn.items, hpos]
  · next hne =>
    have hitem : (n.setChild pos c).items[i]? = n.items[i]? := List.getElem?_set_ne (Ne.symm hne)
    simp only [Node.view, hitem]
    rfl

omit hn hpos [Preorder K]

theorem frame_replaceData (n : Node K N) (pos : Nat) (c : N) : Frame n (n.replaceData pos c) where
  isTwo := rfl
  buildSize := rfl
  fixed := rfl
  numItems := rfl
  model := rfl
  items := List.length_set
  none := rfl
  child := Bitmap.length_set _ _
  padding _ _ := rfl

theorem frame_setChild (n : Node K N) (pos : Nat) (c : N) : Frame n (n.setChild pos c) where
  isTwo := rfl
  buildSize := rfl
  fixed := rfl
  numItems := rfl
  model := rfl
  items := List.length_set
  none := rfl
  child := rfl
  padding _ _ := rfl

theorem frame_count (n : Node K N) : Frame n n.count := ⟨rfl, rfl, rfl, rfl, rfl, rfl, rfl, rfl, fun _ _ => rfl⟩

theorem frame_countToData (n : Node K N) (toData : Bool) : Frame n (n.countToData toData) :=
  ⟨rfl, rfl, rfl, rfl, rfl, rfl, rfl, rfl, fun _ _ => rfl⟩

@[simp] theorem view_count (n : Node K N) (i : Nat) : n.count.view i = n.view i := rfl

@[simp] theorem view_countToData (n : Node K N) (toData : Bool) (i : Nat) :
    (n.countToData toData).view i = n.view i := rfl

end Updates

end LearnedIndex.Lipp
