import LearnedIndex.Contract
import LearnedIndex.Lipp.Stored

/-! Freeing trees: what is recycled is as good as new, and the scan finds every pair. -/

universe u v

namespace LearnedIndex.Lipp

open Hybrid

variable {K : Type u} {failure : Failure → Prop} {divergence : Prop}

section Recycle

def Node.withItems (n : Node K (Tree K)) (items : List (Item K (Tree K))) : Node K (Tree K) :=
  { n with items := items }

/-- A node that differs from a new one only in what its items still hold. -/
def Recyclable (n : Node K (Tree K)) : Prop :=
  n.items.length = 8 ∧ n = (twoNode n.model).withItems n.items

/-- Calls into `LIPP` keep the recycled nodes as good as new. -/
def poolContract (failure : Failure → Prop) (divergence : Prop) : Contract (Pool K) Failure where
  inv pool := ∀ n ∈ pool, Recyclable n
  failure := failure
  divergence := divergence

theorem rtAssert_yields {e : Failure} {p : Prop} [Decidable p] (he : ¬p → failure e) :
    (poolContract failure divergence).Yields (rtAssert e p : Alloc K PUnit) fun _ => p := .require id he

theorem ensure_yields {α : Type u} {e : Failure} {o : Option α} (he : o = none → failure e) :
    (poolContract failure divergence).Yields (ensure e o : Alloc K α) fun a => o = some a :=
  .ofOption (fun _ h => h) he

/-- A recycled node is as good as a new one. -/
theorem takeTwo_yields (model : K → Nat) :
    (poolContract failure divergence).Yields (takeTwo model) fun n =>
      ∃ items, items.length = 8 ∧ n = (twoNode model).withItems items := by
  apply Contract.Yields.modifyGet
  intro pool hpool
  cases pool with
  | nil => exact ⟨⟨_, List.length_replicate, rfl⟩, hpool⟩
  | cons n pool =>
    obtain ⟨⟨hlength, heq⟩, hpool⟩ := List.forall_mem_cons.mp hpool
    refine ⟨⟨n.items, hlength, ?_⟩, hpool⟩
    change { n with model := model } = _
    rw [heq]
    rfl

variable [LinearOrder K] {n : Node K (Tree K)} {f : Nat → List (KeyValue K)}

theorem reset_recyclable (hshape : Shape n)
    (htwo : n.isTwo = true → n.buildSize = 2 ∧ n.numItems = 8 ∧ n.fixed = false)
    (h : n.isTwo = true) : Recyclable n.reset := by
  obtain ⟨hbuild, hitems, hfixed⟩ := htwo h
  have hnone : List.set n.noneBitmap 0 0xff = [0xff] := by
    obtain ⟨b, hb⟩ := List.length_eq_one_iff.mp (hshape.none.trans (by rw [hitems]; rfl))
    rw [hb]
    rfl
  have hchild : List.set n.childBitmap 0 0 = [0] := by
    obtain ⟨b, hb⟩ := List.length_eq_one_iff.mp (hshape.child.trans (by rw [hitems]; rfl))
    rw [hb]
    rfl
  refine ⟨hshape.items.trans hitems, ?_⟩
  simp only [Node.reset, Node.withItems, twoNode, h, hbuild, hitems, hfixed, hnone, hchild]

theorem recycle_yields (h : Filled n f) : (poolContract failure divergence).Yields (recycle n) fun _ => True := by
  unfold recycle
  split
  · next htwo =>
    obtain ⟨hbuild, hitems, -⟩ := h.two htwo
    apply Contract.Yields.bind (rtAssert_yields fun hne => absurd hbuild hne)
    rintro - -
    apply Contract.Yields.bind (rtAssert_yields fun hne => absurd hitems hne)
    rintro - -
    apply Contract.Yields.modifyGet
    intro pool hpool
    exact ⟨trivial, List.forall_mem_cons.mpr ⟨reset_recyclable h.shape h.two htwo, hpool⟩⟩
  · exact .pure trivial

end Recycle

section Models

/-- A model sends many keys to the same position. -/
def Fit.Collapses [LinearOrder K] (fit : Fit K) : Prop :=
  ∃ ks model, fit.bulk ks = some model ∧ 3 ≤ ks.length ∧ ks.Pairwise (· < ·) ∧
    ∀ k ∈ ks, ∀ k' ∈ ks, (bulkNode ks.length model : Node K (Tree K)).predictPos k =
      (bulkNode ks.length model : Node K (Tree K)).predictPos k'

/-- The assertions about the models. -/
def Failure.OnModel (e : Failure) : Prop := e = .slotEmpty ∨ e = .modelFinite ∨ e = .depth

/-- Calls fail only because of a model, and end unless one collapses. -/
abbrev contract [LinearOrder K] (fit : Fit K) : Contract (Pool K) Failure :=
  poolContract Failure.OnModel fit.Collapses

end Models

variable [LinearOrder K] {n : Node K (Tree K)} {f : Nat → List (KeyValue K)}

section Destroy

/-- The nodes that are left to visit from these. -/
def countNodes (s : List (Node K (Tree K))) : Nat := (s.map fun n => (Tree.node n).count).sum

omit [LinearOrder K] in
theorem count_node (n : Node K (Tree K)) : (Tree.node n).count = countItems n.items + 1 := by
  cases n
  simp only [Tree.count]

omit [LinearOrder K] in
theorem countNodes_cons (n : Node K (Tree K)) (s : List (Node K (Tree K))) :
    countNodes (n :: s) = countItems n.items + 1 + countNodes s := by
  rw [countNodes, List.map_cons, List.sum_cons, count_node, countNodes]

omit [LinearOrder K] in
/-- What the loop over the items has not seen yet. -/
theorem countItems_drop {items : List (Item K (Tree K))} {i : Nat} {item : Item K (Tree K)}
    (h : items[i]? = some item) :
    countItems (items.drop i) = countItem item + countItems (items.drop (i + 1)) := by
  obtain ⟨hlt, rfl⟩ := List.getElem?_eq_some_iff.mp h
  rw [List.drop_eq_getElem_cons hlt]
  simp only [countItems]

omit [LinearOrder K] in
theorem countItems_drop_le (items : List (Item K (Tree K))) (i : Nat) :
    countItems (items.drop (i + 1)) ≤ countItems (items.drop i) := by
  cases h : items[i]? with
  | none =>
    have hle := List.getElem?_eq_none_iff.mp h
    rw [List.drop_eq_nil_of_le hle, List.drop_eq_nil_of_le (hle.trans (Nat.le_succ i))]
  | some item =>
    rw [countItems_drop h]
    exact Nat.le_add_left _ _

/-- The nodes on the stack are live, and with the items of `n` from `i` on there are at most
`bound` nodes to visit. -/
structure Destroying (n : Node K (Tree K)) (bound i : Nat) (s : List (Node K (Tree K))) : Prop where
  live : ∀ m ∈ s, ∃ kvs, Holds (.node m) kvs
  bounded : countNodes s + countItems (n.items.drop i) ≤ bound

theorem pushChild_yields {bound i : Nat} {s : List (Node K (Tree K))} (hf : Filled n f)
    (hi : i < n.numItems) (h : Destroying n bound i s) :
    (poolContract failure divergence).Yields (pushChild n s i) (Destroying n bound (i + 1)) := by
  have hskip : Destroying n bound (i + 1) s :=
    ⟨h.live, (Nat.add_le_add_left (countItems_drop_le n.items i) _).trans h.bounded⟩
  have hitem := hf.item i hi
  unfold pushChild
  cases hview : n.view i with
  | empty =>
    obtain ⟨-, hchild⟩ := Node.view_eq_empty.mp hview
    rw [hchild]
    exact .pure hskip
  | data kv =>
    obtain ⟨-, hchild, -⟩ := Node.view_eq_data.mp hview
    rw [hchild]
    exact .pure hskip
  | child c =>
    obtain ⟨-, hchild, hget⟩ := Node.view_eq_child.mp hview
    cases c with
    | node m =>
      rw [hchild, hget]
      apply Contract.Yields.pure
      constructor
      · exact List.forall_mem_cons.mpr ⟨⟨_, hf.children i hi _ hview⟩, h.live⟩
      · have hbounded := h.bounded
        rw [countItems_drop hget, countItem, count_node] at hbounded
        rw [countNodes_cons]
        omega
  | invalid =>
    rw [hview] at hitem
    exact hitem.elim

theorem destroyLoop_yields (fuel : Nat) (s : List (Node K (Tree K)))
    (hlive : ∀ m ∈ s, ∃ kvs, Holds (.node m) kvs) (hfuel : countNodes s ≤ fuel) :
    (poolContract failure divergence).Yields (destroyLoop fuel s) fun _ => True := by
  induction fuel generalizing s with
  | zero =>
    cases s with
    | nil =>
      unfold destroyLoop
      exact .pure trivial
    | cons n s =>
      rw [countNodes_cons] at hfuel
      omega
  | succ fuel ih =>
    cases s with
    | nil =>
      unfold destroyLoop
      exact .pure trivial
    | cons n s =>
      obtain ⟨⟨kvs, hn⟩, hlive⟩ := List.forall_mem_cons.mp hlive
      obtain ⟨f, hf, -⟩ := hn.filled
      rw [countNodes_cons] at hfuel
      unfold destroyLoop
      have hstart : Destroying n fuel 0 s := ⟨hlive, by rw [List.drop_zero]; omega⟩
      apply Contract.Yields.bind (.range hstart fun i hi s' hs' => pushChild_yields hf hi hs')
      intro s' hs'
      apply Contract.Yields.bind (recycle_yields hf)
      rintro - -
      exact ih s' hs'.live ((Nat.le_add_right _ _).trans hs'.bounded)

theorem destroyTree_yields {t : Tree K} {kvs : List (KeyValue K)} (h : Holds t kvs) :
    (poolContract failure divergence).Yields (destroyTree t) fun _ => True := by
  cases t with
  | node n =>
    unfold destroyTree
    apply destroyLoop_yields
    · intro m hm
      rw [List.mem_singleton.mp hm]
      exact ⟨kvs, h⟩
    · simp [countNodes]

end Destroy

section Scan

variable {out : List (KeyValue K)}

abbrev Segments (K : Type u) := List (Nat × Node K (Tree K))

/-- The arrays agree with `out`, except for the places that are pending and those that belong
to a segment on the stack. -/
structure Scanning (out : List (KeyValue K)) (pending : Nat → Prop) (s : Segments K)
    (buffer : Buffer K) : Prop where
  length : buffer.length = out.length
  segment : ∀ begin n, (begin, n) ∈ s → ∃ kvs, Holds (.node n) kvs ∧ kvs <+: out.drop begin
  written : ∀ p < out.length, buffer[p]? = some out[p]? ∨ pending p ∨
    ∃ begin n, (begin, n) ∈ s ∧ begin ≤ p ∧ p < begin + n.size

theorem Scanning.mono {pending pending' : Nat → Prop} {s s' : Segments K} {buffer : Buffer K}
    (h : Scanning out pending s buffer) (hs : s ⊆ s')
    (hsegment : ∀ begin n, (begin, n) ∈ s' → (begin, n) ∈ s ∨
      ∃ kvs, Holds (.node n) kvs ∧ kvs <+: out.drop begin)
    (hpending : ∀ p, pending p → pending' p ∨ ∃ begin n, (begin, n) ∈ s' ∧ begin ≤ p ∧ p < begin + n.size) :
    Scanning out pending' s' buffer where
  length := h.length
  segment begin n hmem := (hsegment begin n hmem).elim (h.segment begin n) id
  written p hp := by
    obtain hwritten | hpend | ⟨begin, n, hmem, hrange⟩ := h.written p hp
    · exact .inl hwritten
    · exact .inr (hpending p hpend)
    · exact .inr (.inr ⟨begin, n, hs hmem, hrange⟩)

theorem Scanning.lt_length {pending : Nat → Prop} {s : Segments K} {buffer : Buffer K} {kv : KeyValue K}
    {begin : Nat} (h : Scanning out pending s buffer) (hget : out[begin]? = some kv) :
    begin < buffer.length := by
  rw [h.length]
  exact (List.getElem?_eq_some_iff.mp hget).1

theorem Scanning.write {s : Segments K} {buffer : Buffer K} {kv : KeyValue K} {begin stop : Nat}
    (h : Scanning out (fun p => begin ≤ p ∧ p < stop) s buffer) (hget : out[begin]? = some kv) :
    Scanning out (fun p => begin + 1 ≤ p ∧ p < stop) s (buffer.set begin (some kv)) where
  length := List.length_set.trans h.length
  segment := h.segment
  written p hp := by
    by_cases heq : begin = p
    · subst heq
      rw [List.getElem?_set_self (h.lt_length hget), hget]
      exact .inl rfl
    · rw [List.getElem?_set_ne heq]
      obtain hwritten | ⟨hle, hlt⟩ | hsegment := h.written p hp
      · exact .inl hwritten
      · exact .inr (.inl ⟨Nat.lt_of_le_of_ne hle heq, hlt⟩)
      · exact .inr (.inr hsegment)

/-- The pairs of the items before the `i`-th. -/
def before (f : Nat → List (KeyValue K)) (i : Nat) : List (KeyValue K) := (List.range i).flatMap f

omit [LinearOrder K] in
theorem before_succ (f : Nat → List (KeyValue K)) (i : Nat) : before f (i + 1) = before f i ++ f i := by
  simp [before, List.range_succ]

omit [LinearOrder K] in
theorem before_mono (f : Nat → List (KeyValue K)) {i j : Nat} (h : i ≤ j) : before f i <+: before f j := by
  obtain ⟨d, rfl⟩ := Nat.exists_eq_add_of_le h
  rw [before, before, List.range_add, List.flatMap_append]
  exact List.prefix_append _ _

omit [LinearOrder K] in
/-- Where the pairs of an item go, if those of the node go to `begin`. -/
theorem item_place {begin i : Nat} (h : n.total f <+: out.drop begin) (hi : i < n.numItems) :
    f i <+: out.drop (begin + (before f i).length) := by
  have hprefix : before f i ++ f i <+: out.drop begin :=
    before_succ f i ▸ (before_mono f hi).trans h
  obtain ⟨rest, hrest⟩ := hprefix
  rw [← List.drop_drop, ← hrest, List.append_assoc, List.drop_left]
  exact List.prefix_append _ _

/-- The loop over the items of `n`, whose pairs go to `start`, has got to item `i`. -/
structure ScanningItems (n : Node K (Tree K)) (f : Nat → List (KeyValue K)) (out : List (KeyValue K))
    (start bound i : Nat) (scan : Scan K) : Prop where
  begin : scan.begin = start + (before f i).length
  scanning : Scanning out (fun p => scan.begin ≤ p ∧ p < start + n.size) scan.s scan.buffer
  bounded : countNodes (scan.s.map Prod.snd) + countItems (n.items.drop i) ≤ bound

theorem scanItem_yields {start bound i : Nat} {scan : Scan K} (hf : Filled n f)
    (hout : n.total f <+: out.drop start) (hi : i < n.numItems)
    (h : ScanningItems n f out start bound i scan) :
    (poolContract failure divergence).Yields (scanItem n scan i) (ScanningItems n f out start bound (i + 1)) := by
  have hbegin := h.begin
  have hitem := hf.item i hi
  have hplace : f i <+: out.drop scan.begin := hbegin ▸ item_place hout hi
  have hskip := (Nat.add_le_add_left (countItems_drop_le n.items i) _).trans h.bounded
  unfold scanItem
  cases hview : n.view i with
  | empty =>
    obtain ⟨hnone, -⟩ := Node.view_eq_empty.mp hview
    rw [hview] at hitem
    rw [if_pos hnone]
    refine .pure ⟨?_, h.scanning, hskip⟩
    rw [before_succ, show f i = [] from hitem, List.append_nil, hbegin]
  | data kv =>
    obtain ⟨hnone, hchild, hget⟩ := Node.view_eq_data.mp hview
    rw [hview] at hitem
    rw [hnone, hchild, hget]
    have hkv : out[scan.begin]? = some kv := by
      obtain ⟨rest, hrest⟩ := hplace
      rw [show f i = [kv] from hitem] at hrest
      rw [← Nat.add_zero scan.begin, ← List.getElem?_drop, ← hrest]
      rfl
    simp only [Bool.false_eq_true, if_false, Buffer.write]
    rw [if_pos (h.scanning.lt_length hkv), pure_bind]
    refine .pure ⟨?_, h.scanning.write hkv, hskip⟩
    rw [before_succ, show f i = [kv] from hitem, List.length_append, hbegin]
    rfl
  | child c =>
    obtain ⟨hnone, hchild, hget⟩ := Node.view_eq_child.mp hview
    cases c with
    | node m =>
      rw [hnone, hchild, hget]
      have hm := hf.children i hi _ hview
      apply Contract.Yields.pure
      constructor
      · simp only [before_succ, List.length_append, hbegin, hm.size]
        omega
      · apply h.scanning.mono (List.subset_cons_self _ _)
        · intro begin' n' hmem
          obtain heq | hmem := List.mem_cons.mp hmem
          · cases heq
            exact .inr ⟨f i, hm, hplace⟩
          · exact .inl hmem
        · intro p hp
          by_cases hlt : p < scan.begin + m.size
          · exact .inr ⟨scan.begin, m, List.mem_cons_self, hp.1, hlt⟩
          · exact .inl ⟨not_lt.mp hlt, hp.2⟩
      · have hbounded := h.bounded
        rw [countItems_drop hget, countItem, count_node] at hbounded
        simp only [List.map_cons]
        rw [countNodes_cons]
        omega
  | invalid =>
    rw [hview] at hitem
    exact hitem.elim

theorem Scanning.done {buffer : Buffer K} (h : Scanning out (fun _ => False) [] buffer) :
    buffer = out.map some := by
  apply List.ext_getElem?
  intro p
  rw [List.getElem?_map]
  by_cases hp : p < out.length
  · obtain hwritten | hpending | ⟨_, _, hmem, -⟩ := h.written p hp
    · rw [hwritten, List.getElem?_eq_getElem hp]
      rfl
    · exact hpending.elim
    · exact absurd hmem List.not_mem_nil
  · rw [List.getElem?_eq_none (not_lt.mp hp), List.getElem?_eq_none (h.length ▸ not_lt.mp hp)]
    rfl

theorem scanLoop_yields (fuel : Nat) (s : Segments K) (buffer : Buffer K)
    (h : Scanning out (fun _ => False) s buffer) (hfuel : countNodes (s.map Prod.snd) ≤ fuel) :
    (poolContract failure divergence).Yields (scanLoop fuel s buffer) fun buffer => buffer = out.map some := by
  induction fuel generalizing s buffer with
  | zero =>
    cases s with
    | nil =>
      unfold scanLoop
      exact .pure h.done
    | cons segment s =>
      rw [List.map_cons, countNodes_cons] at hfuel
      omega
  | succ fuel ih =>
    cases s with
    | nil =>
      unfold scanLoop
      exact .pure h.done
    | cons segment s =>
      obtain ⟨begin, n⟩ := segment
      obtain ⟨kvs, hn, hout⟩ := h.segment begin n List.mem_cons_self
      obtain ⟨f, hf, rfl⟩ := hn.filled
      rw [List.map_cons, countNodes_cons] at hfuel
      change countItems n.items + 1 + _ ≤ _ at hfuel
      unfold scanLoop
      have hstart : ScanningItems n f out begin fuel 0 ⟨s, begin, buffer⟩ := by
        refine ⟨rfl, ⟨h.length, fun b m hmem => h.segment b m (List.mem_cons_of_mem _ hmem), ?_⟩, ?_⟩
        · intro p hp
          obtain hwritten | hpending | ⟨b, m, hmem, hrange⟩ := h.written p hp
          · exact .inl hwritten
          · exact hpending.elim
          · obtain heq | hmem := List.mem_cons.mp hmem
            · cases heq
              exact .inr (.inl hrange)
            · exact .inr (.inr ⟨b, m, hmem, hrange⟩)
        · rw [List.drop_zero]
          change countNodes (s.map Prod.snd) + countItems n.items ≤ fuel
          omega
      apply Contract.Yields.bind (.range hstart fun i hi scan hscan => scanItem_yields hf hout hi hscan)
      intro scan hscan
      -- All the keys of the subtree have been counted: the assertion holds.
      have hend : begin + n.size = scan.begin := by
        rw [hscan.begin, hn.size]
        rfl
      apply Contract.Yields.bind (rtAssert_yields fun hne => absurd hend hne)
      rintro - -
      apply Contract.Yields.bind (recycle_yields hf)
      rintro - -
      apply ih
      · apply hscan.scanning.mono (List.Subset.refl _) (fun b m hmem => .inl hmem)
        rintro p ⟨hle, hlt⟩
        omega
      · exact (Nat.le_add_right _ _).trans hscan.bounded

omit [LinearOrder K] in
theorem mapM_some (kvs : List (KeyValue K)) : (kvs.map some).mapM id = some kvs := by
  induction kvs with
  | nil => rfl
  | cons kv kvs ih => simp [ih]

/-- The scan writes every pair of a subtree to its place. -/
theorem scanAndDestroyTree_yields (h : Holds (.node n) out) :
    (poolContract failure divergence).Yields (scanAndDestroyTree n) fun kvs => kvs = out := by
  unfold scanAndDestroyTree
  have hstart : Scanning out (fun _ => False) [(0, n)] (List.replicate n.size none) := by
    refine ⟨List.length_replicate.trans h.size, ?_, ?_⟩
    · intro begin m hmem
      cases List.mem_singleton.mp hmem
      exact ⟨out, h, List.prefix_rfl⟩
    · intro p hp
      rw [← h.size] at hp
      exact .inr (.inr ⟨0, n, List.mem_singleton_self _, Nat.zero_le p, by omega⟩)
  apply Contract.Yields.bind (scanLoop_yields _ _ _ hstart (by simp [countNodes]))
  intro buffer hbuffer
  rw [hbuffer, mapM_some]
  exact .returns rfl

end Scan

end LearnedIndex.Lipp
