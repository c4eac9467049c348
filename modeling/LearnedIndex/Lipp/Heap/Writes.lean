import LearnedIndex.Lipp.Heap.Represents
import LearnedIndex.Lipp.Insert

/-! The reads and writes of the memory, and what becomes of a node that stands for a value. -/

namespace LearnedIndex.Lipp.Heap

open Hybrid

variable {K : Type} {mem : Memory K} {p q : Pointer} {c : Cell K}

section Memory

@[simp] theorem Memory.set_self (mem : Memory K) (p : Pointer) (c : Option (Cell K)) :
    (mem.set p c).nodes p = c := Function.update_self _ _ _

theorem Memory.set_of_ne {c : Option (Cell K)} (h : q ≠ p) : (mem.set p c).nodes q = mem.nodes q :=
  Function.update_of_ne h _ _

@[simp] theorem Memory.set_set (mem : Memory K) (p : Pointer) (c c' : Option (Cell K)) :
    (mem.set p c).set p c' = mem.set p c' := by
  rw [Memory.set, Memory.set, Memory.set, Function.update_idem]

theorem Memory.set_eq_self {c : Option (Cell K)} (h : mem.nodes p = c) : mem.set p c = mem := by
  rw [Memory.set, ← h, Function.update_eq_self]

end Memory

section Exec

variable {I : Memory K → Prop}

theorem read_reads {α : Type} {o : Option α} {a : α} (h : o = some a) (mem : Memory K) :
    (read o : Exec K α).Reads mem a := by
  rw [h]
  exact .lift a mem

theorem rtAssert_reads {e : Failure} {P : Prop} [Decidable P] (h : P) (mem : Memory K) :
    (rtAssert e P : Exec K PUnit).Reads mem ⟨⟩ := by
  rw [rtAssert, Outcome.require, if_pos h]
  exact .lift _ mem

theorem load_reads (h : mem.nodes p = some c) : (load p).Reads mem c :=
  (Traced.Reads.get mem).bind (read_reads h mem)

theorem store_writes (h : mem.nodes p = some c) (f : Cell K → Cell K) :
    (store p f).Writes mem ⟨⟩ (mem.set p (some (f c))) :=
  (load_reads h).writes (.write _ mem)

/-- Writes to a node that all keep `C`. -/
theorem stores_ends {C : Cell K → Prop} {fs : List (Cell K → Cell K)} (h : mem.nodes p = some c)
    (hI : ∀ d, C d → I (mem.set p (some d))) (hc : C c) (hfs : ∀ f ∈ fs, ∀ d, C d → C (f d)) :
    (stores p fs).Ends mem I fun _ mem' => mem' = mem.set p (some (fs.foldl (fun d f => f d) c)) := by
  rw [stores]
  induction fs generalizing mem c with
  | nil => exact .pure (Memory.set_eq_self h).symm
  | cons f fs ih =>
    obtain ⟨hf, hfs⟩ := List.forall_mem_cons.mp hfs
    apply (store_writes h f).ends (hI _ (hf c hc))
    have hrest := ih (Memory.set_self mem p (some (f c)))
      (fun d hd => by rw [Memory.set_set]; exact hI d hd) (hf c hc) hfs
    simpa only [Memory.set_set, List.foldl_cons] using hrest

theorem stores_passes {P : Memory K → Prop} {f : Cell K → Cell K} (h : mem.nodes p = some c)
    (fs : List (Cell K → Cell K)) (hP : P (mem.set p (some (f c)))) : (stores p (f :: fs)).Passes mem P := by
  change Traced.Passes (store p f >>= fun _ => stores p fs) mem P
  exact ((store_writes h f).passes hP).bind

end Exec

section Updates

theorem item_setWord (c : Cell K) (pos : Nat) (word : Word K) (i : Nat) :
    (c.setWord pos word).item i = (c.item i).map fun comp => if pos = i then { comp with word := word } else comp := by
  simp only [Cell.item, Cell.setWord]
  cases c.items with
  | none => rfl
  | some items => exact List.getElem?_modify _ _ _ _

theorem item_setValue (c : Cell K) (pos : Nat) (value : UInt64) (i : Nat) :
    (c.setValue pos value).item i =
      (c.item i).map fun comp => if pos = i then { comp with value := some value } else comp := by
  simp only [Cell.item, Cell.setValue]
  cases c.items with
  | none => rfl
  | some items => exact List.getElem?_modify _ _ _ _

theorem isNone_clearNone {i : Nat} (h : c.isNone i = some false) (pos : Nat) :
    (c.clearNone pos).isNone i = some false := by
  simp only [Cell.isNone, Cell.clearNone, Option.map_map, Option.map_eq_some_iff, Function.comp] at h ⊢
  obtain ⟨bitmap, hbitmap, hget⟩ := h
  exact ⟨bitmap, hbitmap, Bitmap.get_clear_of_not hget pos⟩

namespace Cell.Extends

variable {d : Cell K} {pos : Nat}

theorem clearNone (h : c.Extends d) (pos : Nat) : c.Extends (d.clearNone pos) where
  numItems := h.numItems
  model := h.model
  isChild := h.isChild
  occupied i hi := by
    obtain ⟨hfalse, hitem⟩ := h.occupied i hi
    exact ⟨isNone_clearNone hfalse pos, hitem⟩

theorem setWord (h : c.Extends d) (hpos : c.isNone pos = some true) (word : Word K) :
    c.Extends (d.setWord pos word) where
  numItems := h.numItems
  model := h.model
  isChild := h.isChild
  occupied i hi := by
    have hne : pos ≠ i := fun heq => by simp [← heq, hpos] at hi
    obtain ⟨hfalse, hitem⟩ := h.occupied i hi
    refine ⟨hfalse, ?_⟩
    simp only [item_setWord, hne, if_false, Option.map_id', hitem]

theorem setValue (h : c.Extends d) (hpos : c.isNone pos = some true) (value : UInt64) :
    c.Extends (d.setValue pos value) where
  numItems := h.numItems
  model := h.model
  isChild := h.isChild
  occupied i hi := by
    have hne : pos ≠ i := fun heq => by simp [← heq, hpos] at hi
    obtain ⟨hfalse, hitem⟩ := h.occupied i hi
    refine ⟨hfalse, ?_⟩
    simp only [item_setValue, hne, if_false, Option.map_id', hitem]

theorem incSize (h : c.Extends d) : c.Extends d.incSize := ⟨h.numItems, h.model, h.isChild, h.occupied⟩

theorem incInserts (h : c.Extends d) : c.Extends d.incInserts :=
  ⟨h.numItems, h.model, h.isChild, h.occupied⟩

theorem count (c : Cell K) : c.Extends c.incSize.incInserts := (refl c).incSize.incInserts

/-- The writes of `insert_tree` to every node on its path. -/
theorem countWrites (c : Cell K) :
    ∀ f ∈ [Cell.incSize, Cell.incInserts], ∀ d, c.Extends d → c.Extends (f d) := by
  intro f hf d h
  simp only [List.mem_cons, List.not_mem_nil, or_false] at hf
  obtain rfl | rfl := hf
  · exact h.incSize
  · exact h.incInserts

theorem place (hpos : c.isNone pos = some true) (kv : KeyValue K) :
    c.Extends (((c.clearNone pos).setWord pos (.key kv.key)).setValue pos kv.value) :=
  (((refl c).clearNone pos).setWord hpos _).setValue hpos _

/-- The writes of `insert_tree` to an item that is empty. -/
theorem placeWrites (hpos : c.isNone pos = some true) (kv : KeyValue K) :
    ∀ f ∈ [Cell.clearNone pos, Cell.setWord pos (.key kv.key), Cell.setValue pos kv.value], ∀ d,
      c.Extends d → c.Extends (f d) := by
  intro f hf d h
  simp only [List.mem_cons, List.not_mem_nil, or_false] at hf
  obtain rfl | rfl | rfl := hf
  · exact h.clearNone pos
  · exact h.setWord hpos _
  · exact h.setValue hpos _

end Cell.Extends

end Updates

/-- A node on the path of an insertion counts it. -/
theorem count_ends (live : mem.nodes p = some c) :
    (stores p [Cell.incSize, Cell.incInserts]).Ends mem mem.Extends fun _ mem' =>
      mem' = mem.set p (some c.incSize.incInserts) :=
  stores_ends live (fun _ hd => .set live hd) (.refl c) (.countWrites c)

section Stands

variable {n : Node K (Tree K)}

theorem Cell.Stands.count (h : c.Stands n) : (c.incSize.incInserts).Stands n.count :=
  { h with
    size := congrArg Nat.succ h.size
    numInserts := congrArg Nat.succ h.numInserts }

theorem Cell.Stands.place [Preorder K] {pos : Nat} (h : c.Stands n) (hn : Shape n)
    (hpos : pos < n.numItems) (hchild : n.isChild pos = false) (kv : KeyValue K) :
    (((c.clearNone pos).setWord pos (.key kv.key)).setValue pos kv.value).Stands (n.place pos kv) := by
  have hitem : ∀ i, (((c.clearNone pos).setWord pos (.key kv.key)).setValue pos kv.value).item i =
      (c.item i).map fun comp => if pos = i then ⟨.key kv.key, some kv.value⟩ else comp := by
    intro i
    rw [item_setValue, item_setWord, Option.map_map]
    congr 1
    funext comp
    by_cases heq : pos = i
    · simp [heq]
    · simp [heq]
  obtain ⟨items, hitems, hlength⟩ := h.items
  refine { h with noneBitmap := ?_, items := ?_, data := ?_ }
  · simp only [Cell.setValue, Cell.setWord, Cell.clearNone, h.noneBitmap, Option.map_some, Node.place]
  · simp only [Cell.setValue, Cell.setWord, Cell.clearNone, hitems, Option.map_some, Node.place]
    exact ⟨_, rfl, by simp [hlength]⟩
  · intro i kv' hview
    rw [view_place hn hpos hchild] at hview
    rw [Cell.data, hitem]
    split at hview
    · next heq =>
      obtain rfl := View.data.inj hview
      have hlt : i < items.length := by rw [hlength, hn.items, heq]; exact hpos
      simp [Cell.item, hitems, List.getElem?_eq_getElem hlt, heq.symm]
    · next hne =>
      simp only [Ne.symm hne, if_false, Option.map_id']
      exact h.data i kv' hview

/-- A child has changed, but not the pointer to it. -/
theorem Cell.Stands.setChild [Preorder K] {pos : Nat} {t : Tree K} (h : c.Stands n) (hn : Shape n)
    (hpos : pos < n.numItems) (hview : n.view pos = .child t) (t' : Tree K) :
    c.Stands ((n.setChild pos t').countToData false) := by
  obtain ⟨hnone, hchild, -⟩ := Node.view_eq_child.mp hview
  refine { h with items := ?_, data := ?_ }
  · obtain ⟨items, hitems, hlength⟩ := h.items
    exact ⟨items, hitems, hlength.trans List.length_set.symm⟩
  · intro i kv hdata
    rw [view_countToData, view_setChild hn hpos hnone hchild] at hdata
    split at hdata
    · cases hdata
    · exact h.data i kv hdata

end Stands

section Represents

variable {nodes nodes' : Pointer → Option (Cell K)} {n n' : Node K (Tree K)} {foot : Set Pointer} {c' : Cell K}

/-- A node that keeps its children. -/
theorem Represents.update (h : Represents nodes p (.node n) foot) (hp : nodes p = some c)
    (hp' : nodes' p = some c') (hext : c.Extends c') (stands : c'.Stands n')
    (hview : ∀ i t, n'.view i = .child t → n.view i = .child t) (hsame : ∀ q, q ≠ p → nodes' q = nodes q) :
    Represents nodes' p (.node n') foot := by
  cases h with
  | @node _ d _ _ next own live stands₀ child below apart =>
    obtain rfl := Option.some.inj (hp.symm.trans live)
    have hchild : ∀ i t, n'.view i = .child t → c'.child i = some (next i) := by
      intro i t hi
      have hnone : c.isNone i = some false := by
        rw [stands₀.isNone, (Node.view_eq_child.mp (hview i t hi)).1]
      rw [hext.child hnone]
      exact child i t (hview i t hi)
    refine .node hp' stands hchild (fun i t hi => ?_) apart
    apply (below i t (hview i t hi)).congr
    exact fun q hq => hsame q fun heq => apart.not_top i (heq ▸ hq)

theorem Represents.count (h : Represents mem.nodes p (.node n) foot) :
    ∃ c, mem.nodes p = some c ∧
      Represents (mem.set p (some c.incSize.incInserts)).nodes p (.node n.count) foot := by
  cases h with
  | @node _ c _ _ _ _ live stands child below apart =>
    refine ⟨c, live, ?_⟩
    apply Represents.update (.node live stands child below apart) live (Memory.set_self _ _ _) (.count c)
      stands.count
    · exact fun i t hview => hview
    · exact fun q hq => Memory.set_of_ne hq

/-- A child changes, where nothing else is. -/
theorem Represents.setChild [Preorder K] {next : Nat → Pointer} {own : Nat → Set Pointer} {pos : Nat}
    {t t' : Tree K} (live : nodes p = some c) (stands : c.Stands n)
    (child : ∀ i t, n.view i = .child t → c.child i = some (next i))
    (below : ∀ i t, n.view i = .child t → Represents nodes (next i) t (own i)) (apart : Apart p own foot)
    (hn : Shape n) (hpos : pos < n.numItems) (hview : n.view pos = .child t)
    (ht' : Represents nodes' (next pos) t' (own pos)) (hsame : ∀ q, q ∉ own pos → nodes' q = nodes q) :
    Represents nodes' p (.node ((n.setChild pos t').countToData false)) foot := by
  obtain ⟨hnone, hchild, -⟩ := Node.view_eq_child.mp hview
  have hviews : ∀ i s, ((n.setChild pos t').countToData false).view i = .child s →
      i = pos ∧ s = t' ∨ i ≠ pos ∧ n.view i = .child s := by
    intro i s hi
    rw [view_countToData, view_setChild hn hpos hnone hchild] at hi
    split at hi
    · next heq => exact .inl ⟨heq, (View.child.inj hi).symm⟩
    · next hne => exact .inr ⟨hne, hi⟩
  have hnext : ∀ i s, ((n.setChild pos t').countToData false).view i = .child s →
      c.child i = some (next i) := by
    intro i s hi
    obtain ⟨rfl, -⟩ | ⟨-, hi⟩ := hviews i s hi
    · exact child i t hview
    · exact child i s hi
  have hlive : nodes' p = some c := (hsame p (apart.not_top pos)).trans live
  refine .node hlive (stands.setChild hn hpos hview t') hnext (fun i s hi => ?_) apart
  obtain ⟨rfl, rfl⟩ | ⟨hne, hi⟩ := hviews i s hi
  · exact ht'
  · apply (below i s hi).congr
    exact fun q hq => hsame q (apart.disjoint i pos hne q hq)

end Represents

end LearnedIndex.Lipp.Heap
