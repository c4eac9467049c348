import LearnedIndex.Lipp.Contents
import Mathlib.Data.List.Perm.Basic
import Mathlib.Logic.Function.Basic

/-! The trees that store a list of pairs: every key lies where its node predicts it, and every
node counts the pairs below it. -/

universe u v

namespace LearnedIndex.Lipp

variable {K : Type u} {N : Type v}

/-- The pairs of a node, if item `i` stores the pairs `f i`. -/
def Node.total (n : Node K N) (f : Nat → List (KeyValue K)) : List (KeyValue K) :=
  (List.range n.numItems).flatMap f

theorem Node.mem_total {n : Node K N} {f : Nat → List (KeyValue K)} {kv : KeyValue K} :
    kv ∈ n.total f ↔ ∃ i < n.numItems, kv ∈ f i := by
  simp [Node.total]

/-- What an item may store; of a child it only says that there is something. -/
def View.Stores : View K (Tree K) → List (KeyValue K) → Prop
  | .empty, kvs => kvs = []
  | .data kv, kvs => kvs = [kv]
  | .child c, kvs => c.Padded ∧ kvs ≠ []
  | .invalid, _ => False

/-- The keys in ascending order. -/
abbrev Ascending [LT K] (kvs : List (KeyValue K)) : Prop := kvs.Pairwise fun x y => x.key < y.key

variable [LinearOrder K]

structure Fits (n : Node K (Tree K)) (f : Nat → List (KeyValue K)) : Prop where
  shape : Shape n
  two : n.isTwo = true → n.buildSize = 2 ∧ n.numItems = 8 ∧ n.fixed = false
  item : ∀ i < n.numItems, (n.view i).Stores (f i)
  predicted : ∀ i < n.numItems, ∀ kv ∈ f i, n.predictPos kv.key = i

/-- `Holds t kvs`: the tree stores the pairs `kvs`, in the order of its items. -/
inductive Holds : Tree K → List (KeyValue K) → Prop
  | node {n f} (fits : Fits n f)
      (children : ∀ i < n.numItems, ∀ c, n.view i = .child c → Holds c (f i))
      (size : n.size = (n.total f).length) : Holds (.node n) (n.total f)

/-- A node whose items store what they should; its size need not be right yet. -/
structure Filled (n : Node K (Tree K)) (f : Nat → List (KeyValue K)) : Prop extends Fits n f where
  children : ∀ i < n.numItems, ∀ c, n.view i = .child c → Holds c (f i)

/-- The subtrees of a tree, itself included. -/
inductive Subtree : Tree K → Tree K → Prop
  | refl (t : Tree K) : Subtree t t
  | child {n i c s} (hlt : i < n.numItems) (hview : n.view i = .child c) (h : Subtree s c) :
      Subtree s (.node n)

section Positions

variable {n : Node K (Tree K)} {f : Nat → List (KeyValue K)}

theorem Shape.predictPos_lt (h : Shape n) (key : K) : n.predictPos key < n.numItems := by
  have hpos := h.pos
  rw [Node.predictPos]
  omega

theorem Shape.predictPos_mono (h : Shape n) : Monotone n.predictPos := by
  intro k k' hle
  exact min_le_min_left _ (h.mono hle)

/-- Predicted positions that ascend come from keys that ascend. -/
theorem Shape.lt_of_predictPos_lt (h : Shape n) {k k' : K} (hlt : n.predictPos k < n.predictPos k') :
    k < k' := by
  by_contra hle
  exact absurd (h.predictPos_mono (not_lt.mp hle)) (not_le.mpr hlt)

/-- A stored key is among the pairs of the item where it is predicted. -/
theorem Fits.mem_total (h : Fits n f) {kv : KeyValue K} :
    kv ∈ n.total f ↔ kv ∈ f (n.predictPos kv.key) := by
  rw [Node.mem_total]
  constructor
  · rintro ⟨i, hi, hkv⟩
    rwa [h.predicted i hi kv hkv]
  · intro hkv
    exact ⟨_, h.shape.predictPos_lt kv.key, hkv⟩

theorem Fits.ascending (h : Fits n f)
    (hchild : ∀ i < n.numItems, ∀ c, n.view i = .child c → Ascending (f i)) :
    Ascending (n.total f) := by
  apply List.pairwise_flatMap.mpr
  constructor
  · intro i hi
    rw [List.mem_range] at hi
    have hitem := h.item i hi
    cases hview : n.view i with
    | empty =>
      rw [hview] at hitem
      rw [hitem]
      exact List.Pairwise.nil
    | data kv =>
      rw [hview] at hitem
      rw [hitem]
      exact List.pairwise_singleton _ _
    | child c => exact hchild i hi c hview
    | invalid =>
      rw [hview] at hitem
      exact hitem.elim
  · apply List.pairwise_lt_range.imp_of_mem
    intro i j hi hj hlt x hx y hy
    apply h.shape.lt_of_predictPos_lt
    rwa [h.predicted i (List.mem_range.mp hi) x hx, h.predicted j (List.mem_range.mp hj) y hy]

end Positions

section Contents

variable {t s c : Tree K} {n : Node K (Tree K)} {f : Nat → List (KeyValue K)} {kvs : List (KeyValue K)}

theorem Filled.holds (h : Filled n f) (hsize : n.size = (n.total f).length) :
    Holds (.node n) (n.total f) := .node h.toFits h.children hsize

theorem Holds.filled (h : Holds (.node n) kvs) : ∃ f, Filled n f ∧ kvs = n.total f := by
  cases h with
  | node fits children size => exact ⟨_, ⟨fits, children⟩, rfl⟩

theorem Holds.size (h : Holds (.node n) kvs) : n.size = kvs.length := by
  cases h with
  | node fits children size => exact size

/-- Slot order is key order. -/
theorem Holds.ascending (h : Holds t kvs) : Ascending kvs := by
  induction h with
  | node fits children size ih => exact fits.ascending ih

theorem Filled.ascending (h : Filled n f) : Ascending (n.total f) :=
  h.toFits.ascending fun i hi c hview => (h.children i hi c hview).ascending

/-- Every node of a tree counts what is stored below it. -/
theorem Holds.subtree (h : Holds t kvs) (hs : Subtree s t) : ∃ pairs, Holds s pairs ∧ pairs ⊆ kvs := by
  induction hs generalizing kvs with
  | refl t => exact ⟨kvs, h, List.Subset.refl _⟩
  | @child n i c s hlt hview hs ih =>
    obtain ⟨f, hf, rfl⟩ := h.filled
    obtain ⟨pairs, hpairs, hsub⟩ := ih (hf.children i hlt c hview)
    refine ⟨pairs, hpairs, fun kv hkv => ?_⟩
    exact Node.mem_total.mpr ⟨i, hlt, hsub hkv⟩

end Contents

section Find

theorem findItems_eq {key : K} {isNone isChild : Bool} {items : List (Item K (Tree K))} {pos : Nat}
    {item : Item K (Tree K)} (h : items[pos]? = some item) :
    findItems key isNone isChild pos items = findItem key isNone isChild item := by
  induction items generalizing pos with
  | nil => simp at h
  | cons x items ih =>
    cases pos with
    | zero =>
      cases h
      simp only [findItems]
    | succ pos =>
      simp only [findItems]
      exact ih h

variable {n : Node K (Tree K)} {t : Tree K} {kvs : List (KeyValue K)} {key : K}

theorem find_node {item : Item K (Tree K)} (h : n.items[n.predictPos key]? = some item) :
    (Tree.node n).find key =
      findItem key (n.isNone (n.predictPos key)) (n.isChild (n.predictPos key)) item := by
  rw [Tree.find]
  exact findItems_eq h

theorem find_empty (hn : Shape n) (h : n.view (n.predictPos key) = .empty) :
    (Tree.node n).find key = some none := by
  obtain ⟨hnone, hchild⟩ := Node.view_eq_empty.mp h
  have hlt : n.predictPos key < n.items.length := hn.items ▸ hn.predictPos_lt key
  rw [find_node (List.getElem?_eq_getElem hlt), hnone, hchild]
  simp only [findItem]

theorem find_data {kv : KeyValue K} (h : n.view (n.predictPos key) = .data kv) :
    (Tree.node n).find key = some (if kv.key = key then some kv.value else none) := by
  obtain ⟨hnone, hchild, hitem⟩ := Node.view_eq_data.mp h
  rw [find_node hitem, hnone, hchild]
  simp only [findItem]

theorem find_child {c : Tree K} (h : n.view (n.predictPos key) = .child c) :
    (Tree.node n).find key = c.find key := by
  obtain ⟨hnone, hchild, hitem⟩ := Node.view_eq_child.mp h
  rw [find_node hitem, hnone, hchild]
  simp only [findItem]

/-- `find` reads only what is live, and finds exactly the stored value. -/
theorem Holds.find (h : Holds t kvs) (key : K) :
    ∃ value, t.find key = some value ∧ ∀ v, value = some v ↔ ⟨key, v⟩ ∈ kvs := by
  induction h with
  | @node n f fits children size ih =>
    have hpos := fits.shape.predictPos_lt key
    have hmem : ∀ v, ⟨key, v⟩ ∈ n.total f ↔ ⟨key, v⟩ ∈ f (n.predictPos key) := fun v => fits.mem_total
    have hitem := fits.item _ hpos
    simp only [hmem]
    cases hview : n.view (n.predictPos key) with
    | empty =>
      rw [hview] at hitem
      rw [find_empty fits.shape hview, hitem]
      exact ⟨none, rfl, by simp⟩
    | data kv =>
      rw [hview] at hitem
      rw [find_data hview, hitem]
      refine ⟨_, rfl, fun v => ?_⟩
      obtain ⟨k, v'⟩ := kv
      by_cases hk : k = key
      · simp [hk, eq_comm]
      · simp [hk, Ne.symm hk]
    | child c =>
      rw [find_child hview]
      exact ih _ hpos c hview
    | invalid =>
      rw [hview] at hitem
      exact hitem.elim

end Find

section Update

/-- One part of a concatenation changes. -/
theorem flatMap_update_perm {ι : Type u} {α : Type v} [DecidableEq ι] {is : List ι} {f : ι → List α}
    {i : ι} {xs ys : List α} (hnodup : is.Nodup) (hi : i ∈ is) (h : ys.Perm (xs ++ f i)) :
    (is.flatMap (Function.update f i ys)).Perm (xs ++ is.flatMap f) := by
  induction is with
  | nil => simp at hi
  | cons j is ih =>
    obtain ⟨hj, hnodup⟩ := List.nodup_cons.mp hnodup
    rw [List.flatMap_cons, List.flatMap_cons]
    by_cases hij : j = i
    · subst hij
      have hrest : is.flatMap (Function.update f j ys) = is.flatMap f := by
        apply List.flatMap_congr
        intro k hk
        exact Function.update_of_ne (ne_of_mem_of_not_mem hk hj) _ _
      rw [hrest, Function.update_self, ← List.append_assoc]
      exact h.append_right _
    · rw [Function.update_of_ne hij]
      have hi := List.mem_of_ne_of_mem (Ne.symm hij) hi
      exact ((ih hnodup hi).append_left _).trans (List.perm_append_comm_assoc _ _ _)

variable {n n' : Node K (Tree K)} {f : Nat → List (KeyValue K)} {pos : Nat} {w : View K (Tree K)}
  {kvs xs : List (KeyValue K)}

omit [LinearOrder K] in
theorem total_update_perm (hframe : Frame n n') (hpos : pos < n.numItems) (h : kvs.Perm (xs ++ f pos)) :
    (n'.total (Function.update f pos kvs)).Perm (xs ++ n.total f) := by
  rw [Node.total, Node.total, hframe.numItems]
  exact flatMap_update_perm List.nodup_range (List.mem_range.mpr hpos) h

/-- One item of a node changes. -/
theorem Filled.update (h : Filled n f) (hframe : Frame n n')
    (hview : ∀ i, n'.view i = if i = pos then w else n.view i) (hw : w.Stores kvs)
    (hchild : ∀ c, w = .child c → Holds c kvs) (hpred : ∀ kv ∈ kvs, n.predictPos kv.key = pos) :
    Filled n' (Function.update f pos kvs) where
  shape := hframe.shape h.shape
  two := by
    rw [hframe.isTwo, hframe.buildSize, hframe.numItems, hframe.fixed]
    exact h.two
  item i hi := by
    rw [hframe.numItems] at hi
    rw [hview]
    split
    · next heq => rwa [heq, Function.update_self]
    · next hne =>
      rw [Function.update_of_ne hne]
      exact h.item i hi
  predicted i hi kv hkv := by
    rw [hframe.numItems] at hi
    rw [hframe.predictPos]
    by_cases heq : i = pos
    · subst heq
      rw [Function.update_self] at hkv
      exact hpred kv hkv
    · rw [Function.update_of_ne heq] at hkv
      exact h.predicted i hi kv hkv
  children i hi c hc := by
    rw [hframe.numItems] at hi
    rw [hview] at hc
    by_cases heq : i = pos
    · rw [if_pos heq] at hc
      rw [heq, Function.update_self]
      exact hchild c hc
    · rw [if_neg heq] at hc
      rw [Function.update_of_ne heq]
      exact h.children i hi c hc

theorem Filled.isChild_of_isNone (h : Filled n f) (hpos : pos < n.numItems) (hnone : n.isNone pos = true) :
    n.isChild pos = false ∧ f pos = [] := by
  have hitem := h.item pos hpos
  cases hview : n.view pos with
  | empty =>
    rw [hview] at hitem
    exact ⟨(Node.view_eq_empty.mp hview).2, hitem⟩
  | data kv => simp [(Node.view_eq_data.mp hview).1] at hnone
  | child c => simp [(Node.view_eq_child.mp hview).1] at hnone
  | invalid =>
    rw [hview] at hitem
    exact hitem.elim

theorem Filled.isNone_of_nil (h : Filled n f) (hpos : pos < n.numItems) (hnil : f pos = []) :
    n.isNone pos = true ∧ n.isChild pos = false := by
  have hitem := h.item pos hpos
  rw [hnil] at hitem
  cases hview : n.view pos with
  | empty => exact Node.view_eq_empty.mp hview
  | data kv =>
    rw [hview] at hitem
    exact absurd hitem (by simp [View.Stores])
  | child c =>
    rw [hview] at hitem
    exact absurd rfl hitem.2
  | invalid =>
    rw [hview] at hitem
    exact hitem.elim

/-- A key goes to an empty item. -/
theorem Filled.place {kv : KeyValue K} (h : Filled n f) (hnone : n.isNone (n.predictPos kv.key) = true) :
    ∃ f', Filled (n.place (n.predictPos kv.key) kv) f' ∧
      ((n.place (n.predictPos kv.key) kv).total f').Perm (kv :: n.total f) := by
  have hpos := h.shape.predictPos_lt kv.key
  obtain ⟨hchild, hnil⟩ := h.isChild_of_isNone hpos hnone
  have hframe := frame_place h.shape hpos kv
  refine ⟨Function.update f (n.predictPos kv.key) [kv], ?_, ?_⟩
  · apply h.update hframe (view_place h.shape hpos hchild kv) rfl
    · intro c hc
      cases hc
    · intro x hx
      rw [List.mem_singleton.mp hx]
  · have hperm : [kv].Perm ([kv] ++ f (n.predictPos kv.key)) := by rw [hnil, List.append_nil]
    exact total_update_perm hframe hpos hperm

/-- A child with the pairs of an empty item. -/
theorem Filled.placeChild {c : Tree K} (h : Filled n f) (hpos : pos < n.numItems) (hnil : f pos = [])
    (hc : Holds c kvs) (hpadded : c.Padded) (hne : kvs ≠ [])
    (hpred : ∀ kv ∈ kvs, n.predictPos kv.key = pos) :
    ∃ f', Filled (n.placeChild pos c) f' ∧ ((n.placeChild pos c).total f').Perm (kvs ++ n.total f) := by
  have hframe := frame_placeChild h.shape hpos c
  refine ⟨Function.update f pos kvs, ?_, ?_⟩
  · apply h.update hframe (view_placeChild h.shape hpos c) ⟨hpadded, hne⟩ _ hpred
    intro c' hc'
    cases hc'
    exact hc
  · apply total_update_perm hframe hpos
    rw [hnil, List.append_nil]

/-- The pair of an item moves into a child, with others. -/
theorem Filled.replaceData {c : Tree K} {kv : KeyValue K} (h : Filled n f) (hpos : pos < n.numItems)
    (hview : n.view pos = .data kv) (hc : Holds c kvs) (hpadded : c.Padded)
    (hperm : kvs.Perm (xs ++ [kv])) (hpred : ∀ x ∈ xs, n.predictPos x.key = pos) :
    ∃ f', Filled (n.replaceData pos c) f' ∧ ((n.replaceData pos c).total f').Perm (xs ++ n.total f) := by
  have hframe := frame_replaceData n pos c
  have hitem : f pos = [kv] := by
    have hitem := h.item pos hpos
    rwa [hview] at hitem
  refine ⟨Function.update f pos kvs, ?_, ?_⟩
  · apply h.update hframe (view_replaceData h.shape hpos (Node.view_eq_data.mp hview).1 c)
    · refine ⟨hpadded, fun hnil => ?_⟩
      simp [hnil] at hperm
    · intro c' hc'
      cases hc'
      exact hc
    · intro x hx
      obtain hx | hx := List.mem_append.mp (hperm.subset hx)
      · exact hpred x hx
      · exact h.predicted pos hpos x (hitem ▸ hx)
  · apply total_update_perm hframe hpos
    rwa [hitem]

/-- Another child takes the place of one, with its pairs and others. -/
theorem Filled.setChild {c c' : Tree K} (h : Filled n f) (hpos : pos < n.numItems)
    (hview : n.view pos = .child c) (hc' : Holds c' kvs) (hpadded : c.Padded → c'.Padded)
    (hperm : kvs.Perm (xs ++ f pos)) (hpred : ∀ x ∈ xs, n.predictPos x.key = pos) :
    ∃ f', Filled (n.setChild pos c') f' ∧ ((n.setChild pos c').total f').Perm (xs ++ n.total f) := by
  have hframe := frame_setChild n pos c'
  obtain ⟨hnone, hchild, -⟩ := Node.view_eq_child.mp hview
  have hitem : c.Padded ∧ f pos ≠ [] := by
    have hitem := h.item pos hpos
    rwa [hview] at hitem
  refine ⟨Function.update f pos kvs, ?_, ?_⟩
  · apply h.update hframe (view_setChild h.shape hpos hnone hchild c')
    · refine ⟨hpadded hitem.1, fun hnil => ?_⟩
      rw [hnil] at hperm
      exact hitem.2 (List.append_eq_nil_iff.mp hperm.nil_eq.symm).2
    · intro c'' hc''
      cases hc''
      exact hc'
    · intro x hx
      obtain hx | hx := List.mem_append.mp (hperm.subset hx)
      · exact hpred x hx
      · exact h.predicted pos hpos x hx
  · exact total_update_perm hframe hpos hperm

end Update

end LearnedIndex.Lipp
