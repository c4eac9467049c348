import LearnedIndex.Lipp.Iterator
import LearnedIndex.Lipp.Operations

/-! `lower_bound` and `RangeQuery`: what an iteration visits, and why the node of
`build_tree_none` derails it. -/

universe u

namespace LearnedIndex.Lipp

open Util

variable {K : Type u} [LinearOrder K] {n : Node K (Tree K)} {f : Nat → List (KeyValue K)} {t : Tree K}
  {key : K} {stack : Stack K} {out kvs : List (KeyValue K)}

/-- The pairs with keys from `key` on. -/
def upFrom (key : K) (kvs : List (KeyValue K)) : List (KeyValue K) := kvs.filter fun kv => key ≤ kv.key

theorem upFrom_append (key : K) (xs ys : List (KeyValue K)) :
    upFrom key (xs ++ ys) = upFrom key xs ++ upFrom key ys := List.filter_append xs ys

theorem upFrom_eq_self (h : ∀ kv ∈ kvs, key ≤ kv.key) : upFrom key kvs = kvs :=
  List.filter_eq_self.mpr fun kv hkv => decide_eq_true (h kv hkv)

theorem upFrom_eq_nil (h : ∀ kv ∈ kvs, kv.key < key) : upFrom key kvs = [] :=
  List.filter_eq_nil_iff.mpr fun kv hkv => by simpa using h kv hkv

/-- The pairs behind an item. -/
def Node.behind (n : Node K (Tree K)) (f : Nat → List (KeyValue K)) (pos : Nat) : List (KeyValue K) :=
  (List.range' (pos + 1) (n.numItems - (pos + 1))).flatMap f

/-- Before the predicted item the keys are smaller, and behind it they are larger. -/
theorem Fits.upFrom_total (h : Fits n f) (key : K) : upFrom key (n.total f) =
    upFrom key (f (n.predictPos key)) ++ n.behind f (n.predictPos key) := by
  have hpos := h.shape.predictPos_lt key
  have hsplit : List.range n.numItems = List.range' 0 (n.predictPos key) ++
      (n.predictPos key :: List.range' (n.predictPos key + 1) (n.numItems - (n.predictPos key + 1))) := by
    rw [← List.range'_succ, List.range_eq_range']
    have hsum : n.numItems = n.predictPos key + (n.numItems - (n.predictPos key + 1) + 1) := by omega
    conv_lhs => rw [hsum]
    rw [← List.range'_append, Nat.zero_add, Nat.one_mul]
  have hbefore : upFrom key ((List.range' 0 (n.predictPos key)).flatMap f) = [] := by
    apply upFrom_eq_nil
    intro x hx
    obtain ⟨i, hi, hx⟩ := List.mem_flatMap.mp hx
    have hlt : i < n.predictPos key := by
      have := List.mem_range'_1.mp hi
      omega
    apply h.shape.lt_of_predictPos_lt
    rwa [h.predicted i (hlt.trans hpos) x hx]
  have hbehind : upFrom key (n.behind f (n.predictPos key)) = n.behind f (n.predictPos key) := by
    apply upFrom_eq_self
    intro x hx
    obtain ⟨i, hi, hx⟩ := List.mem_flatMap.mp hx
    have hrange := List.mem_range'_1.mp hi
    apply le_of_lt
    apply h.shape.lt_of_predictPos_lt
    rw [h.predicted i (by omega) x hx]
    omega
  rw [Node.total, hsplit, List.flatMap_append, List.flatMap_cons, upFrom_append, upFrom_append, hbefore,
    List.nil_append]
  exact congrArg _ hbehind

omit [LinearOrder K] in
theorem descend_stop (h : n.isChild (n.predictPos key) = false) :
    (Tree.node n).descend key stack =
      some (descendTuple n (n.predictPos key) :: stack, ⟨n, n.predictPos key⟩) := by
  rw [Tree.descend]
  exact if_neg (by rw [h]; exact Bool.noConfusion)

omit [LinearOrder K] in
theorem descendItems_eq {items : List (Item K (Tree K))} {pos : Nat} {item : Item K (Tree K)}
    (h : items[pos]? = some item) : descendItems key stack pos items = descendItem key stack item := by
  induction items generalizing pos with
  | nil => simp at h
  | cons x items ih =>
    cases pos with
    | zero =>
      cases h
      simp only [descendItems]
    | succ pos =>
      simp only [descendItems]
      exact ih h

omit [LinearOrder K] in
theorem descend_child {c : Tree K} (h : n.view (n.predictPos key) = .child c) :
    (Tree.node n).descend key stack = c.descend key (descendTuple n (n.predictPos key) :: stack) := by
  obtain ⟨-, hchild, hget⟩ := Node.view_eq_child.mp h
  rw [Tree.descend]
  simp only [hchild, if_true]
  rw [descendItems_eq hget]
  simp only [descendItem]

/-- Where the descent ends, and the pairs of that item with keys from `key` on. -/
inductive Lands (key : K) (p : Position K) : List (KeyValue K) → Prop
  | empty (hnone : p.node.isNone p.item = true) : Lands key p []
  | data {kv} (hnone : p.node.isNone p.item = false) (hread : p.read = some kv) : Lands key p (upFrom key [kv])

/-- The descent for `key` in a tree with the pairs `kvs` pushes these tuples. -/
structure Descends (key : K) (t : Tree K) (kvs : List (KeyValue K)) (tuples : Stack K) (p : Position K) :
    Prop where
  descend : ∀ stack, t.descend key stack = some (tuples ++ stack, p)
  bottom : ∃ above n, t = .node n ∧ tuples = above ++ [descendTuple n (n.predictPos key)]
  visits : t.Padded → ∀ stack out, Ahead stack out → ∃ here rest,
    upFrom key kvs = here ++ rest ∧ Lands key p here ∧ Ahead (tuples ++ stack) (rest ++ out)

theorem Holds.descends (h : Holds t kvs) (key : K) : ∃ tuples p, Descends key t kvs tuples p := by
  induction h with
  | @node n f fits children size ih =>
    have hf : Filled n f := ⟨fits, children⟩
    have hpos := fits.shape.predictPos_lt key
    have hitem := fits.item _ hpos
    -- The tuple that the descent leaves for this node has the pairs behind the predicted item.
    have htuple : n.Padded → ∀ stack out, Ahead stack out →
        Ahead (descendTuple n (n.predictPos key) :: stack) (n.behind f (n.predictPos key) ++ out) := by
      intro hpadded stack out hahead
      have hslots := descendTuple_slots hpos
      have hbehind : (descendTuple n (n.predictPos key)).slots.flatMap f = n.behind f (n.predictPos key) := by
        rw [hslots, occupied_flatMap hf hpadded hpos]
        rfl
      rw [← hbehind]
      exact .cons hf (fun i hi => occupied_live hpadded (hslots ▸ hi)) hahead
    have hstop : n.isChild (n.predictPos key) = false → Lands key ⟨n, n.predictPos key⟩
        (upFrom key (f (n.predictPos key))) → ∃ tuples p, Descends key (.node n) (n.total f) tuples p := by
      intro hchild hlands
      refine ⟨[descendTuple n (n.predictPos key)], ⟨n, n.predictPos key⟩, fun stack => descend_stop hchild,
        ⟨[], n, rfl, rfl⟩, fun hpadded stack out hahead => ?_⟩
      exact ⟨_, _, fits.upFrom_total key, hlands, htuple hpadded.2 stack out hahead⟩
    cases hview : n.view (n.predictPos key) with
    | empty =>
      obtain ⟨hnone, hchild⟩ := Node.view_eq_empty.mp hview
      rw [hview] at hitem
      have hnil : f (n.predictPos key) = [] := hitem
      apply hstop hchild
      rw [hnil]
      exact .empty hnone
    | data kv =>
      obtain ⟨hnone, hchild, hget⟩ := Node.view_eq_data.mp hview
      rw [hview] at hitem
      have hsingle : f (n.predictPos key) = [kv] := hitem
      apply hstop hchild
      rw [hsingle]
      have hread : (⟨n, n.predictPos key⟩ : Position K).read = some kv := by
        simp only [Position.read, hget]
      exact .data hnone hread
    | child c =>
      rw [hview] at hitem
      obtain ⟨tuples, p, hdescend, -, hvisits⟩ := ih _ hpos c hview
      refine ⟨tuples ++ [descendTuple n (n.predictPos key)], p, fun stack => ?_, ⟨tuples, n, rfl, rfl⟩,
        fun hpadded stack out hahead => ?_⟩
      · rw [descend_child hview, hdescend, List.append_assoc]
        rfl
      · obtain ⟨here, rest, heq, hlands, hahead'⟩ :=
          hvisits hitem.1 _ _ (htuple hpadded.2 stack out hahead)
        refine ⟨here, rest ++ n.behind f (n.predictPos key), ?_, hlands, ?_⟩
        · rw [fits.upFrom_total key, heq, List.append_assoc]
        · rw [List.append_assoc, List.append_assoc]
          exact hahead'
    | invalid =>
      rw [hview] at hitem
      exact hitem.elim

/-- The iterator stands at the first of these pairs, with the others before it. -/
def Stands (iter : Iterator K) : List (KeyValue K) → Prop
  | [] => iter.it = none
  | kv :: out => ∃ p, iter.it = some p ∧ p.read = some kv ∧ Ahead iter.stack out

theorem Ahead.next (h : Ahead stack out) (it : Option (Position K)) :
    ∃ iter, Stands iter out ∧ ∃ rounds, ∀ fuel ≥ rounds, Iterator.next fuel ⟨stack, it⟩ = some iter := by
  have hfinds := h.finds
  cases out with
  | nil =>
    obtain ⟨rounds, hall⟩ := hfinds
    refine ⟨⟨[], none⟩, rfl, rounds, fun fuel hle => ?_⟩
    rw [Iterator.next, hall fuel hle]
    rfl
  | cons kv out =>
    obtain ⟨p, stack', hread, hahead, rounds, hall⟩ := hfinds
    refine ⟨⟨stack', some p⟩, ⟨p, rfl, hread, hahead⟩, rounds, fun fuel hle => ?_⟩
    rw [Iterator.next, hall fuel hle]
    rfl

theorem lowerBound_stands (h : Holds t kvs) (hpadded : t.Padded) (key : K) :
    ∃ iter, Stands iter (upFrom key kvs) ∧ ∃ rounds, ∀ fuel ≥ rounds, lowerBound fuel t key = some iter := by
  obtain ⟨tuples, p, hdescend, -, hvisits⟩ := h.descends key
  obtain ⟨here, rest, heq, hlands, hahead⟩ := hvisits hpadded [] [] .nil
  rw [List.append_nil, List.append_nil] at hahead
  have hdescend := hdescend []
  rw [List.append_nil] at hdescend
  rw [heq]
  cases hlands with
  | empty hnone =>
    obtain ⟨iter, hstands, rounds, hall⟩ := hahead.next none
    refine ⟨iter, hstands, rounds, fun fuel hle => ?_⟩
    simp only [lowerBound, hdescend, hnone, Option.bind_eq_bind, Option.bind_some]
    exact hall fuel hle
  | @data kv hnone hread =>
    by_cases hkey : key ≤ kv.key
    · refine ⟨⟨tuples, some p⟩, ?_, 0, fun fuel _ => ?_⟩
      · rw [upFrom_eq_self (by simpa using hkey)]
        exact ⟨p, rfl, hread, hahead⟩
      · simp [lowerBound, hdescend, hnone, hread, hkey]
    · obtain ⟨iter, hstands, rounds, hall⟩ := hahead.next none
      refine ⟨iter, ?_, rounds, fun fuel hle => ?_⟩
      · rwa [upFrom_eq_nil (by simpa using hkey)]
      · simp only [lowerBound, hdescend, hnone, hread, Option.bind_eq_bind, Option.bind_some, if_true,
          if_neg hkey]
        exact hall fuel hle

theorem Stands.collect {iter : Iterator K} (h : Stands iter out) :
    ∃ rounds, ∀ fuel ≥ rounds, Lipp.collect fuel iter = some out := by
  induction out generalizing iter with
  | nil =>
    obtain ⟨stack, it⟩ := iter
    obtain rfl : it = none := h
    refine ⟨0, fun fuel _ => ?_⟩
    cases fuel <;> rfl
  | cons kv out ih =>
    obtain ⟨stack, it⟩ := iter
    obtain ⟨p, rfl, hread, hahead⟩ := h
    obtain ⟨iter', hstands, rounds, hnext⟩ := hahead.next (some p)
    obtain ⟨rounds', hcollect⟩ := ih hstands
    refine ⟨max rounds rounds' + 1, fun fuel hle => ?_⟩
    obtain ⟨fuel, rfl⟩ := Nat.exists_eq_add_of_le' (Nat.le_of_add_left_le hle)
    have hle' : max rounds rounds' ≤ fuel := by omega
    simp only [Lipp.collect, hread, hnext fuel (le_of_max_le_left hle'),
      hcollect fuel (le_of_max_le_right hle'), Option.bind_eq_bind, Option.bind_some]
    rfl

/-- The loop adds up the values until the first larger key. -/
theorem Stands.rangeLoop {iter : Iterator K} (lo hi : K) (h : Stands iter out) (hasc : Ascending out)
    (hlo : ∀ kv ∈ out, lo ≤ kv.key) (result : UInt64) :
    ∃ rounds, ∀ fuel ≥ rounds, Lipp.rangeLoop hi fuel iter result = some (result + rangeSum out lo hi) := by
  induction out generalizing iter result with
  | nil =>
    obtain ⟨stack, it⟩ := iter
    obtain rfl : it = none := h
    refine ⟨0, fun fuel _ => ?_⟩
    have hzero : result + rangeSum (([] : List (KeyValue K)) : Multiset (KeyValue K)) lo hi = result :=
      add_zero result
    rw [hzero]
    cases fuel <;> rfl
  | cons kv out ih =>
    obtain ⟨stack, it⟩ := iter
    obtain ⟨p, rfl, hread, hahead⟩ := h
    obtain ⟨hlt, hasc⟩ := List.pairwise_cons.mp hasc
    obtain ⟨hkv, hlo⟩ := List.forall_mem_cons.mp hlo
    rw [← Multiset.cons_coe, rangeSum_cons]
    by_cases hkey : kv.key ≤ hi
    · obtain ⟨iter', hstands, rounds, hnext⟩ := hahead.next (some p)
      obtain ⟨rounds', hloop⟩ := ih hstands hasc hlo (result + kv.value)
      refine ⟨max rounds rounds' + 1, fun fuel hle => ?_⟩
      obtain ⟨fuel, rfl⟩ := Nat.exists_eq_add_of_le' (Nat.le_of_add_left_le hle)
      have hle' : max rounds rounds' ≤ fuel := by omega
      rw [Lipp.rangeLoop, hread, Option.bind_some, if_pos hkey, hnext fuel (le_of_max_le_left hle'),
        Option.bind_some, hloop fuel (le_of_max_le_right hle'), if_pos ⟨hkv, hkey⟩, add_assoc]
    · -- All keys behind are larger still.
      have hnone : rangeSum (out : Multiset (KeyValue K)) lo hi = 0 := by
        rw [rangeSum, Multiset.filter_eq_nil.mpr]
        · rfl
        · intro x hx hle
          exact hkey ((hlt x hx).le.trans hle.2)
      refine ⟨1, fun fuel hle => ?_⟩
      obtain ⟨fuel, rfl⟩ := Nat.exists_eq_add_of_le' hle
      rw [Lipp.rangeLoop, hread, Option.bind_some, if_neg hkey, hnone, if_neg fun h => hkey h.2, add_zero,
        add_zero]

section Derailed

/-- At the bottom is a tuple that has item 1 of a node with one item before it. -/
def Derailed (stack : Stack K) : Prop :=
  ∃ (above : Stack K) (n : Node K (Tree K)) (one : Byte), stack = above ++ [⟨n, 0, one⟩] ∧
    n.items[1]? = none ∧ Bitmap.next one = some 1

omit [LinearOrder K] in
/-- A round touches only what is on top. -/
theorem advanceTop_append {tuple : StackTuple K} {r : Option (Position K) × Stack K}
    (h : advanceTop tuple stack = some r) : ∃ above, r.2 = above ++ stack := by
  rw [advanceTop] at h
  simp only at h
  split at h
  · cases h
    exact ⟨[], rfl⟩
  · split at h
    · cases h
      exact ⟨[_], rfl⟩
    · split at h
      · cases h
        exact ⟨[_, _], rfl⟩
      · cases h

omit [LinearOrder K] in
theorem Derailed.bottom {one : Byte} (hitem : n.items[1]? = none) (hone : Bitmap.next one = some 1)
    {r : Option (Position K) × Stack K} (h : advanceTop ⟨n, 0, one⟩ [] = some r) :
    ∃ p, r.1 = some p ∧ p.read = none := by
  have hne : one ≠ 0 := by
    rintro rfl
    cases hone
  have hstay : ∀ fuel, bitmapNext1 n fuel 0 one = (0, one) := by
    intro fuel
    cases fuel with
    | zero => rfl
    | succ fuel => rw [bitmapNext1, if_neg hne]
  rw [advanceTop] at h
  simp only [hstay, hone, hitem] at h
  split at h
  · cases h
    refine ⟨⟨n, 1⟩, rfl, ?_⟩
    simp only [Position.read, hitem]
  · cases h

omit [LinearOrder K] in
/-- Advancing never ends the iteration. -/
theorem Derailed.advance (h : Derailed stack) (fuel : Nat) {r : Option (Position K) × Stack K}
    (hr : advanceStack fuel stack = some r) : ∃ p, r.1 = some p ∧ (p.read = none ∨ Derailed r.2) := by
  induction fuel generalizing stack with
  | zero =>
    obtain ⟨above, n, one, rfl, -⟩ := h
    cases above <;> cases hr
  | succ fuel ih =>
    obtain ⟨above, n, one, rfl, hitem, hone⟩ := h
    cases above with
    | nil =>
      rw [List.nil_append, advanceStack] at hr
      obtain ⟨r', htop, hr⟩ := Option.bind_eq_some_iff.mp hr
      obtain ⟨p, hp, hread⟩ := Derailed.bottom hitem hone htop
      obtain ⟨it, stack'⟩ := r'
      obtain rfl : it = some p := hp
      cases hr
      exact ⟨p, rfl, .inl hread⟩
    | cons tuple above =>
      rw [List.cons_append, advanceStack] at hr
      obtain ⟨r', htop, hr⟩ := Option.bind_eq_some_iff.mp hr
      obtain ⟨it, stack'⟩ := r'
      obtain ⟨above', habove⟩ := advanceTop_append htop
      have hderailed : Derailed stack' :=
        ⟨above' ++ above, n, one, habove.trans (List.append_assoc _ _ _).symm, hitem, hone⟩
      cases it with
      | some p =>
        cases hr
        exact ⟨p, rfl, .inr hderailed⟩
      | none => exact ih hderailed hr

omit [LinearOrder K] in
theorem Derailed.collect (h : Derailed stack) (fuel : Nat) (p : Position K) :
    Lipp.collect fuel ⟨stack, some p⟩ = none := by
  induction fuel generalizing stack p with
  | zero => rfl
  | succ fuel ih =>
    rw [Lipp.collect]
    apply Option.bind_eq_none_iff.mpr
    intro kv hkv
    apply Option.bind_eq_none_iff.mpr
    intro iter hnext
    obtain ⟨r, hr, hiter⟩ := Option.bind_eq_some_iff.mp hnext
    obtain ⟨p', hp', hend⟩ := h.advance fuel hr
    obtain ⟨it, stack'⟩ := r
    obtain rfl : it = some p' := hp'
    cases hiter
    apply Option.bind_eq_none_iff.mpr
    intro kvs hcollect
    obtain hread | hderailed := hend
    · cases fuel with
      | zero => cases hcollect
      | succ fuel =>
        rw [Lipp.collect, hread] at hcollect
        cases hcollect
    · rw [ih hderailed] at hcollect
      cases hcollect

theorem Derailed.lowerBound (h : Holds t kvs) (hsingle : t.Single) (key : K) (fuel : Nat) :
    (lowerBound fuel t key).bind (Lipp.collect fuel) = none := by
  obtain ⟨tuples, p, hdescend, ⟨above, n, rfl, rfl⟩, -⟩ := h.descends key
  obtain ⟨f, hf, rfl⟩ := h.filled
  have hderailed : Derailed (above ++ [descendTuple n (n.predictPos key)]) := by
    have hzero : n.predictPos key = 0 := by
      have := hf.shape.predictPos_lt key
      have := hsingle.1
      omega
    refine ⟨above, n, _, by rw [hzero]; rfl, ?_, ?_⟩
    · rw [List.getElem?_eq_none_iff, hf.shape.items, hsingle.1]
    · have hbit : (n.noneBitmap.byte 0).getLsbD 1 = false := hsingle.2
      have hone : ∀ b : Byte, b.getLsbD 1 = false → Bitmap.next (~~~(b ||| 1)) = some 1 := by decide +kernel
      exact hone _ hbit
  have hdescend := hdescend []
  rw [List.append_nil] at hdescend
  apply Option.bind_eq_none_iff.mpr
  intro iter hiter
  have hnext : ∀ it, Iterator.next fuel ⟨above ++ [descendTuple n (n.predictPos key)], it⟩ = some iter →
      Lipp.collect fuel iter = none := by
    intro it hit
    obtain ⟨r, hr, hiter⟩ := Option.bind_eq_some_iff.mp hit
    obtain ⟨p', hp', hend⟩ := hderailed.advance fuel hr
    obtain ⟨it', stack'⟩ := r
    obtain rfl : it' = some p' := hp'
    cases hiter
    obtain hread | hderailed' := hend
    · cases fuel with
      | zero => rfl
      | succ fuel =>
        rw [Lipp.collect, hread]
        rfl
    · exact hderailed'.collect fuel p'
  simp only [Lipp.lowerBound, hdescend, Option.bind_eq_bind, Option.bind_some] at hiter
  split at hiter
  · obtain ⟨kv, -, hiter⟩ := Option.bind_eq_some_iff.mp hiter
    split at hiter
    · cases hiter
      exact hderailed.collect fuel p
    · exact hnext _ hiter
  · exact hnext _ hiter

end Derailed

namespace LIPP

variable {fit : Fit K} {lipp : LIPP K}

/-- The invariant with what the builders leave behind the items of the root. -/
structure Rooted (lipp : LIPP K) (kvs : List (KeyValue K)) : Prop extends Inv lipp kvs where
  root : lipp.root.Padded ∨ lipp.root.Single

theorem rooted_new : Rooted (new : LIPP K) [] := ⟨inv_new, .inr buildTreeNone_single⟩

theorem Rooted.apply {op : Op K} (h : Rooted lipp kvs) (hop : op.Allowed kvs) :
    Ends fit (Rooted · (op.contents kvs)) (lipp.apply fit op) := by
  obtain ⟨⟨⟨pairs, hroot, hperm⟩, hpool⟩, hend⟩ := h
  cases op with
  | build data =>
    apply (Ends.of_root hpool (bulkLoad_yields hop hroot)).mono
    rintro lipp' ⟨⟨hroot', hend'⟩, hpool'⟩
    exact ⟨⟨⟨data, hroot', .refl _⟩, hpool'⟩, hend'⟩
  | insert kv =>
    have hkey : ∀ x ∈ pairs, x.key ≠ kv.key := fun x hx => hop x (hperm.subset hx)
    apply (Ends.of_root hpool (insertTree_yields hkey hroot)).mono
    rintro lipp' ⟨⟨⟨pairs', hroot', hperm'⟩, hend'⟩, hpool'⟩
    refine ⟨⟨⟨pairs', hroot', hperm'.trans (hperm.cons kv)⟩, hpool'⟩, ?_⟩
    obtain hframed | hpadded := hend'
    · exact hend.imp hframed.padded hframed.single
    · exact .inl hpadded

theorem Rooted.run {ops : List (Op K)} (h : Rooted lipp kvs) (hops : Lipp.Allowed kvs ops) :
    Ends fit (Rooted · (stored kvs ops)) (lipp.run fit ops) := by
  induction ops generalizing lipp kvs with
  | nil => exact h
  | cons op ops ih => exact Ends.bind (h.apply hops.1) fun lipp' h' => ih h' hops.2

end LIPP

/-- Iterating from `lower_bound(key)` to `end()` visits the pairs with keys from `key` on, each
once and in ascending order. -/
def Iterates (t : Tree K) (kvs : List (KeyValue K)) (key : K) : Prop :=
  ∃ pairs, Ascending pairs ∧ pairs.Perm (upFrom key kvs) ∧
    ∃ rounds, ∀ fuel ≥ rounds, (lowerBound fuel t key).bind (collect fuel) = some pairs

/-- `RangeQuery` returns the sum of the values between the two keys. -/
def Sums (t : Tree K) (kvs : List (KeyValue K)) (lo hi : K) : Prop :=
  ∃ rounds, ∀ fuel ≥ rounds, rangeQuery fuel t lo hi = some (rangeSum kvs lo hi)

theorem Holds.iterates {pairs : List (KeyValue K)} (h : Holds t pairs) (hperm : pairs.Perm kvs)
    (hpadded : t.Padded) (key : K) : Iterates t kvs key := by
  obtain ⟨iter, hstands, rounds, hbound⟩ := lowerBound_stands h hpadded key
  obtain ⟨rounds', hcollect⟩ := hstands.collect
  refine ⟨upFrom key pairs, h.ascending.filter _, hperm.filter _, max rounds rounds', fun fuel hle => ?_⟩
  rw [hbound fuel (le_of_max_le_left hle), Option.bind_some]
  exact hcollect fuel (le_of_max_le_right hle)

theorem Holds.sums {pairs : List (KeyValue K)} (h : Holds t pairs) (hperm : pairs.Perm kvs)
    (hpadded : t.Padded) (lo hi : K) : Sums t kvs lo hi := by
  obtain ⟨iter, hstands, rounds, hbound⟩ := lowerBound_stands h hpadded lo
  have hlo : ∀ kv ∈ upFrom lo pairs, lo ≤ kv.key := fun kv hkv =>
    of_decide_eq_true (List.mem_filter.mp hkv).2
  obtain ⟨rounds', hloop⟩ := hstands.rangeLoop lo hi (h.ascending.filter _) hlo 0
  refine ⟨max rounds rounds', fun fuel hle => ?_⟩
  have hsum : rangeSum (upFrom lo pairs : List (KeyValue K)) lo hi = rangeSum (kvs : Multiset (KeyValue K)) lo hi := by
    rw [← Multiset.coe_eq_coe.mpr hperm, rangeSum, rangeSum, upFrom, ← Multiset.filter_coe,
      Multiset.filter_filter]
    congr 2
    apply Multiset.filter_congr
    intro kv _
    exact and_iff_left_of_imp fun hle => hle.1
  rw [rangeQuery, hbound fuel (le_of_max_le_left hle), Option.bind_some,
    hloop fuel (le_of_max_le_right hle), hsum, zero_add]

section Rounds

variable {fuel rounds : Nat}

omit [LinearOrder K] in
theorem advanceStack_mono {r : Option (Position K) × Stack K} (hle : fuel ≤ rounds)
    (h : advanceStack fuel stack = some r) : advanceStack rounds stack = some r := by
  induction fuel generalizing stack rounds with
  | zero =>
    cases stack with
    | nil => simpa [advanceStack] using h
    | cons tuple stack => cases h
  | succ fuel ih =>
    obtain ⟨rounds, rfl⟩ := Nat.exists_eq_add_of_le' (Nat.le_of_add_left_le hle)
    cases stack with
    | nil => simpa [advanceStack] using h
    | cons tuple stack =>
      rw [advanceStack] at h ⊢
      cases htop : advanceTop tuple stack with
      | none =>
        rw [htop] at h
        cases h
      | some next =>
        obtain ⟨it, stack'⟩ := next
        rw [htop] at h
        cases it with
        | some p => exact h
        | none => exact ih (by omega) h

omit [LinearOrder K] in
theorem Iterator.next_mono {iter iter' : Iterator K} (hle : fuel ≤ rounds) (h : iter.next fuel = some iter') :
    iter.next rounds = some iter' := by
  obtain ⟨r, hr, h⟩ := Option.bind_eq_some_iff.mp h
  rw [Iterator.next, advanceStack_mono hle hr]
  exact h

theorem lowerBound_mono {iter : Iterator K} (hle : fuel ≤ rounds) (h : lowerBound fuel t key = some iter) :
    lowerBound rounds t key = some iter := by
  obtain ⟨⟨stack, p⟩, hdescend, h⟩ := Option.bind_eq_some_iff.mp h
  simp only [lowerBound, hdescend, Option.bind_eq_bind, Option.bind_some]
  dsimp only at h
  split_ifs at h ⊢ with hnone
  · obtain ⟨kv, hread, h⟩ := Option.bind_eq_some_iff.mp h
    rw [hread, Option.bind_some]
    split_ifs at h ⊢ with hkey
    · exact h
    · exact Iterator.next_mono hle h
  · exact Iterator.next_mono hle h

theorem rangeLoop_mono {iter : Iterator K} {hi : K} {result r : UInt64} (hle : fuel ≤ rounds)
    (h : rangeLoop hi fuel iter result = some r) : rangeLoop hi rounds iter result = some r := by
  induction fuel generalizing iter result rounds with
  | zero =>
    obtain ⟨stack, it⟩ := iter
    cases it with
    | none => simpa [rangeLoop] using h
    | some p => cases h
  | succ fuel ih =>
    obtain ⟨rounds, rfl⟩ := Nat.exists_eq_add_of_le' (Nat.le_of_add_left_le hle)
    obtain ⟨stack, it⟩ := iter
    cases it with
    | none => simpa [rangeLoop] using h
    | some p =>
      rw [rangeLoop] at h ⊢
      obtain ⟨kv, hread, h⟩ := Option.bind_eq_some_iff.mp h
      rw [hread, Option.bind_some]
      split_ifs at h ⊢ with hkey
      · obtain ⟨iter', hnext, h⟩ := Option.bind_eq_some_iff.mp h
        rw [Iterator.next_mono (by omega) hnext, Option.bind_some]
        exact ih (by omega) h
      · exact h

/-- More rounds do not change an answer. -/
theorem rangeQuery_mono {lo hi : K} {r : UInt64} (hle : fuel ≤ rounds) (h : rangeQuery fuel t lo hi = some r) :
    rangeQuery rounds t lo hi = some r := by
  obtain ⟨iter, hbound, h⟩ := Option.bind_eq_some_iff.mp h
  rw [rangeQuery, lowerBound_mono hle hbound, Option.bind_some]
  exact rangeLoop_mono hle h

theorem Sums.eq {lo hi : K} {r : UInt64} (h : Sums t kvs lo hi) (hr : rangeQuery fuel t lo hi = some r) :
    r = rangeSum kvs lo hi := by
  obtain ⟨rounds, hall⟩ := h
  have hmono := rangeQuery_mono (le_max_left fuel rounds) hr
  rw [hall _ (le_max_right fuel rounds)] at hmono
  exact (Option.some.inj hmono).symm

end Rounds

/-- The number of items of the root. -/
def Tree.numItems : Tree K → Nat
  | .node n => n.numItems

/-- The iterator is right exactly when the root is not the node of `build_tree_none`. -/
theorem iterates_iff (fit : Fit K) (ops : List (Op K)) (hops : Allowed [] ops) {lipp : LIPP K}
    (hrun : LIPP.run fit .new ops = .returns lipp) (key : K) :
    (Iterates lipp.root (stored [] ops) key ∧ ∀ hi, Sums lipp.root (stored [] ops) key hi) ↔
      lipp.root.numItems ≠ 1 := by
  have hrooted := (LIPP.rooted_new.run hops).of_returns hrun
  obtain ⟨⟨⟨pairs, hroot, hperm⟩, -⟩, hend⟩ := hrooted
  constructor
  · rintro ⟨⟨visited, -, -, rounds, hall⟩, -⟩ hone
    obtain hpadded | hsingle := hend
    · cases hn : lipp.root with
      | node n =>
        rw [hn] at hpadded hone
        exact absurd hone (ne_of_gt hpadded.1)
    · have hnone := Derailed.lowerBound hroot hsingle key rounds
      rw [hall rounds le_rfl] at hnone
      cases hnone
  · intro hne
    obtain hpadded | hsingle := hend
    · exact ⟨hroot.iterates hperm hpadded key, fun hi => hroot.sums hperm hpadded key hi⟩
    · cases hn : lipp.root with
      | node n =>
        rw [hn] at hsingle hne
        exact absurd hsingle.1 hne

/-- The number of items of the root after a call. -/
def rootItems : Run (LIPP K) → Option Nat
  | .returns lipp => some lipp.root.numItems
  | _ => none

theorem iterates_iff_crowded : ∃ lipp, LIPP.run plainFit .new crowded = .returns lipp ∧
    Iterates lipp.root (stored [] crowded) 2 ∧ ∀ hi, Sums lipp.root (stored [] crowded) 2 hi := by
  have hallowed : Allowed [] crowded := by
    simp [Allowed, crowded, Op.Allowed, Op.contents, Ascending]
  have hitems : (rootItems (LIPP.run plainFit .new crowded)).any (· ≠ 1) = true := by decide +kernel
  cases hrun : LIPP.run plainFit .new crowded with
  | returns lipp =>
    rw [hrun] at hitems
    refine ⟨lipp, rfl, (iterates_iff plainFit crowded hallowed hrun 2).mpr ?_⟩
    simpa [rootItems] using hitems
  | exits e => simp [hrun, rootItems] at hitems
  | diverges => simp [hrun, rootItems] at hitems

/-- After `Build` with no pairs the first `++` reads behind the only item. -/
theorem iterates_behind_items : ∃ lipp, LIPP.run plainFit .new [.build []] = .returns lipp ∧
    ¬Iterates lipp.root (stored [] [.build []]) 5 := by
  refine ⟨⟨.node buildTreeNone, []⟩, rfl, ?_⟩
  rintro ⟨visited, -, -, rounds, hall⟩
  have hnone := Derailed.lowerBound buildTreeNone_holds buildTreeNone_single 5 rounds
  rw [hall rounds le_rfl] at hnone
  cases hnone

end LearnedIndex.Lipp
