import LearnedIndex.Lipp.Stored

/-! The iterator: which items a stack tuple still has before it, and what an iteration from a
stack visits. -/

universe u

namespace LearnedIndex.Lipp

variable {K : Type u} {n : Node K (Tree K)}

section Slots

/-- The items that byte `index` of the bitmaps leaves with the bits of `one`. -/
def byteSlots (index : Nat) (one : Byte) : List Nat := (Bitmap.bits one).map (index * 8 + ·)

/-- The items with the bits of `one` in byte `index`, then the occupied ones of `count` bytes. -/
def slotsFrom (n : Node K (Tree K)) (index : Nat) (one : Byte) (count : Nat) : List Nat :=
  byteSlots index one ++
    (List.range' (index + 1) count).flatMap fun b => byteSlots b (~~~n.noneBitmap.byte b)

/-- The items that a tuple still has before it. -/
def StackTuple.slots (tuple : StackTuple K) : List Nat :=
  slotsFrom tuple.node tuple.index tuple.oneBitmap (Bitmap.size tuple.node.numItems - 1 - tuple.index)

/-- The tuple that `advance_stack` pushes for a child. -/
def pushTuple (n : Node K (Tree K)) : StackTuple K := ⟨n, 0, ~~~n.noneBitmap.byte 0⟩

/-- The items between two positions that are not marked as empty. -/
def occupied (n : Node K (Tree K)) (start stop : Nat) : List Nat :=
  (List.range' start (stop - start)).filter fun i => !n.isNone i

@[simp] theorem byteSlots_zero (index : Nat) : byteSlots index 0 = [] := by
  rw [byteSlots, Bitmap.bits_eq_nil.mpr rfl, List.map_nil]

theorem mem_byteSlots {index i : Nat} {one : Byte} :
    i ∈ byteSlots index one ↔ i / 8 = index ∧ one.getLsbD (i % 8) = true := by
  rw [byteSlots, List.mem_map]
  constructor
  · rintro ⟨j, hj, rfl⟩
    have hbit := Bitmap.mem_bits.mp hj
    have hlt := BitVec.lt_of_getLsbD hbit
    have hdiv : (index * 8 + j) / 8 = index := by omega
    have hmod : (index * 8 + j) % 8 = j := by omega
    exact ⟨hdiv, by rwa [hmod]⟩
  · rintro ⟨rfl, hbit⟩
    exact ⟨i % 8, Bitmap.mem_bits.mpr hbit, by omega⟩

theorem mem_occupied {start stop i : Nat} :
    i ∈ occupied n start stop ↔ (start ≤ i ∧ i < stop) ∧ n.isNone i = false := by
  rw [occupied, List.mem_filter, List.mem_range'_1, Bool.not_eq_true']
  apply and_congr_left
  intro _
  omega

theorem byteSlots_ascending (index : Nat) (one : Byte) : (byteSlots index one).Pairwise (· < ·) := by
  apply List.pairwise_map.mpr
  apply (List.pairwise_lt_range.filter _).imp
  intro i j hlt
  omega

theorem occupied_ascending (n : Node K (Tree K)) (start stop : Nat) :
    (occupied n start stop).Pairwise (· < ·) := List.Pairwise.filter _ List.pairwise_lt_range'

theorem byteSlots_not (n : Node K (Tree K)) (index : Nat) :
    byteSlots index (~~~n.noneBitmap.byte index) = occupied n (index * 8) ((index + 1) * 8) := by
  apply (byteSlots_ascending _ _).eq_of_mem_iff (occupied_ascending _ _ _)
  intro i
  have hmod : i % 8 < 8 := Nat.mod_lt _ (by decide)
  have hdiv : i / 8 = index ↔ index * 8 ≤ i ∧ i < (index + 1) * 8 := by omega
  rw [mem_byteSlots, mem_occupied, ← hdiv]
  apply and_congr_right
  rintro rfl
  rw [BitVec.getLsbD_not, Node.isNone, Bitmap.get]
  simp [hmod]

theorem occupied_append (n : Node K (Tree K)) {a b c : Nat} (hab : a ≤ b) (hbc : b ≤ c) :
    occupied n a b ++ occupied n b c = occupied n a c := by
  rw [occupied, occupied, occupied, ← List.filter_append]
  congr 1
  have hsplit : c - a = (b - a) + (c - b) := by omega
  rw [hsplit, ← List.range'_append]
  congr 2
  omega

theorem slotsFrom_occupied (n : Node K (Tree K)) (index : Nat) (one : Byte) (count : Nat) :
    slotsFrom n index one count =
      byteSlots index one ++ occupied n ((index + 1) * 8) ((index + 1 + count) * 8) := by
  rw [slotsFrom]
  congr 1
  induction count generalizing index with
  | zero => simp [occupied]
  | succ count ih =>
    rw [List.range'_succ, List.flatMap_cons, ih, byteSlots_not, occupied_append n (by omega) (by omega)]
    congr 2
    omega

theorem pushTuple_slots (hpos : 0 < n.numItems) :
    (pushTuple n).slots = occupied n 0 (8 * Bitmap.size n.numItems) := by
  have hsize : 0 < Bitmap.size n.numItems := by
    rw [Bitmap.size]
    omega
  change slotsFrom n 0 (~~~n.noneBitmap.byte 0) (Bitmap.size n.numItems - 1 - 0) = _
  rw [slotsFrom_occupied, byteSlots_not, occupied_append n (by omega) (by omega)]
  congr 1
  omega

theorem bit_below : ∀ m < 8, ∀ j < 8, (BitVec.ofNat 8 (2 ^ (m + 1) - 1)).getLsbD j = decide (j ≤ m) := by
  decide

/-- Behind the predicted item nothing is cut off. -/
theorem descendTuple_slots [LinearOrder K] {pos : Nat} (hpos : pos < n.numItems) :
    (descendTuple n pos).slots = occupied n (pos + 1) (8 * Bitmap.size n.numItems) := by
  have hlt : pos / 8 < Bitmap.size n.numItems := Bitmap.lt_size hpos
  have hbyte : byteSlots (pos / 8) (descendTuple n pos).oneBitmap =
      occupied n (pos + 1) ((pos / 8 + 1) * 8) := by
    apply (byteSlots_ascending _ _).eq_of_mem_iff (occupied_ascending _ _ _)
    intro i
    have hmod : i % 8 < 8 := Nat.mod_lt _ (by decide)
    have hrange : i / 8 = pos / 8 ∧ ¬i % 8 ≤ pos % 8 ↔ pos + 1 ≤ i ∧ i < (pos / 8 + 1) * 8 := by omega
    rw [mem_byteSlots, mem_occupied, ← hrange, and_assoc]
    apply and_congr_right
    intro hdiv
    rw [descendTuple, BitVec.getLsbD_not, BitVec.getLsbD_or,
      bit_below _ (Nat.mod_lt _ (by decide)) _ hmod, Node.isNone, Bitmap.get, hdiv]
    simp [hmod, and_comm]
  change slotsFrom n (pos / 8) _ (Bitmap.size n.numItems - 1 - pos / 8) = _
  rw [slotsFrom_occupied, hbyte, occupied_append n (by omega) (by omega)]
  congr 1
  omega

end Slots

section Advance

/-- The search for the next bit leaves the items as they are, and finds one if there is one. -/
theorem bitmapNext1_slots (n : Node K (Tree K)) (fuel index : Nat) (one : Byte)
    (hfuel : fuel = Bitmap.size n.numItems - 1 - index) :
    (StackTuple.mk n (bitmapNext1 n fuel index one).1 (bitmapNext1 n fuel index one).2).slots =
        slotsFrom n index one fuel ∧
      ((bitmapNext1 n fuel index one).2 = 0 → slotsFrom n index one fuel = []) := by
  induction fuel generalizing index one with
  | zero =>
    rw [bitmapNext1, StackTuple.slots, ← hfuel]
    refine ⟨rfl, ?_⟩
    rintro rfl
    rw [slotsFrom, byteSlots_zero]
    rfl
  | succ fuel ih =>
    rw [bitmapNext1]
    split
    · next hzero =>
      have hslots : slotsFrom n index one (fuel + 1) =
          slotsFrom n (index + 1) (~~~n.noneBitmap.byte (index + 1)) fuel := by
        rw [slotsFrom, hzero, byteSlots_zero, List.range'_succ, List.flatMap_cons]
        rfl
      rw [hslots]
      exact ih _ _ (by omega)
    · next hne =>
      rw [StackTuple.slots, ← hfuel]
      exact ⟨rfl, fun hzero => absurd hzero hne⟩

theorem advanceTop_nil {tuple : StackTuple K} (h : tuple.slots = []) (stack : Stack K) :
    advanceTop tuple stack = some (none, stack) := by
  obtain ⟨hslots, -⟩ := bitmapNext1_slots tuple.node _ tuple.index tuple.oneBitmap rfl
  have hnil := (List.append_eq_nil_iff.mp (hslots.trans h)).1
  have hbits := List.map_eq_nil_iff.mp hnil
  rw [advanceTop]
  simp only
  rw [Bitmap.next_eq_head, hbits]
  rfl

/-- One round at a tuple with items left. -/
theorem advanceTop_cons {tuple : StackTuple K} {i : Nat} {slots : List Nat} (h : tuple.slots = i :: slots)
    (stack : Stack K) : ∃ tuple' : StackTuple K, tuple'.node = tuple.node ∧ tuple'.slots = slots ∧
      advanceTop tuple stack =
        if tuple.node.isChild i = false then some (some ⟨tuple.node, i⟩, tuple' :: stack)
        else match tuple.node.items[i]? with
          | some (.child (.node c)) => some (none, pushTuple c :: tuple' :: stack)
          | _ => none := by
  obtain ⟨hslots, hzero⟩ := bitmapNext1_slots tuple.node _ tuple.index tuple.oneBitmap rfl
  have hcons : slotsFrom tuple.node tuple.index tuple.oneBitmap _ = i :: slots := h
  rw [hcons] at hslots hzero
  rw [advanceTop]
  simp only
  generalize bitmapNext1 tuple.node _ tuple.index tuple.oneBitmap = found at hslots hzero ⊢
  obtain ⟨index, one⟩ := found
  have hne : one ≠ 0 := fun heq => by cases hzero heq
  obtain ⟨next, tail, hbits⟩ := List.exists_cons_of_ne_nil (mt Bitmap.bits_eq_nil.mp hne)
  have hlt : next < 8 := BitVec.lt_of_getLsbD (Bitmap.mem_bits.mp (hbits ▸ List.mem_cons_self))
  have hsub := Bitmap.bits_sub one next hlt (by rw [hbits]; rfl)
  rw [hbits] at hsub
  simp only [StackTuple.slots, slotsFrom, byteSlots, hbits, List.map_cons, List.cons_append,
    List.cons.injEq] at hslots
  obtain ⟨rfl, hslots⟩ := hslots
  refine ⟨⟨tuple.node, index, one - Bitmap.bit next⟩, rfl, ?_, ?_⟩
  · rw [← hslots]
    simp only [StackTuple.slots, slotsFrom, byteSlots, hsub, List.tail_cons]
  · simp only [Bitmap.next_eq_head, hbits, List.head?_cons]
    rfl

end Advance

section Visits

variable [LinearOrder K] {f : Nat → List (KeyValue K)} {stack : Stack K} {out kvs : List (KeyValue K)}

/-- The items a tuple has before it are within the node and in use. -/
def StackTuple.Live (tuple : StackTuple K) : Prop :=
  ∀ i ∈ tuple.slots, i < tuple.node.numItems ∧ tuple.node.isNone i = false

/-- The pairs that a stack still has before it. -/
inductive Ahead : Stack K → List (KeyValue K) → Prop
  | nil : Ahead [] []
  | cons {tuple : StackTuple K} {stack f out} (filled : Filled tuple.node f) (live : tuple.Live)
      (behind : Ahead stack out) : Ahead (tuple :: stack) (tuple.slots.flatMap f ++ out)

/-- `advance_stack` stops at the first of these pairs, with the others still before it. -/
def Finds (stack : Stack K) : List (KeyValue K) → Prop
  | [] => ∃ rounds, ∀ fuel ≥ rounds, advanceStack fuel stack = some (none, [])
  | kv :: out => ∃ (p : Position K) (stack' : Stack K), p.read = some kv ∧ Ahead stack' out ∧
      ∃ rounds, ∀ fuel ≥ rounds, advanceStack fuel stack = some (some p, stack')

/-- A round that finds no item itself. -/
theorem Finds.round {tuple : StackTuple K} {stack' : Stack K}
    (h : advanceTop tuple stack = some (none, stack')) (hfinds : Finds stack' out) :
    Finds (tuple :: stack) out := by
  have hround : ∀ fuel, advanceStack (fuel + 1) (tuple :: stack) = advanceStack fuel stack' := by
    intro fuel
    rw [advanceStack, h]
    rfl
  have hlater : ∀ {rounds : Nat} {r : Option (Option (Position K) × Stack K)},
      (∀ fuel ≥ rounds, advanceStack fuel stack' = r) →
        ∀ fuel ≥ rounds + 1, advanceStack fuel (tuple :: stack) = r := by
    intro rounds r hall fuel hle
    obtain ⟨fuel, rfl⟩ := Nat.exists_eq_add_of_le' (Nat.le_of_add_left_le hle)
    rw [hround]
    exact hall fuel (by omega)
  cases out with
  | nil =>
    obtain ⟨rounds, hall⟩ := hfinds
    exact ⟨rounds + 1, hlater hall⟩
  | cons kv out =>
    obtain ⟨p, stack'', hread, hahead, rounds, hall⟩ := hfinds
    exact ⟨p, stack'', hread, hahead, rounds + 1, hlater hall⟩

/-- A tuple with items left, if pushing a child of its node finds the pairs of the child. -/
theorem Ahead.finds_tuple {tuple : StackTuple K} (hf : Filled tuple.node f) (hlive : tuple.Live)
    (hne : tuple.slots ≠ []) (hahead : Ahead stack out)
    (hchild : ∀ i < tuple.node.numItems, ∀ c, tuple.node.view i = .child (.node c) →
      ∀ stack out, Ahead stack out → Finds (pushTuple c :: stack) (f i ++ out)) :
    Finds (tuple :: stack) (tuple.slots.flatMap f ++ out) := by
  obtain ⟨i, slots, hslots⟩ := List.exists_cons_of_ne_nil hne
  obtain ⟨tuple', hnode, hslots', htop⟩ := advanceTop_cons hslots stack
  obtain ⟨hlt, hnone⟩ := hlive i (hslots ▸ List.mem_cons_self)
  have hahead' : Ahead (tuple' :: stack) (slots.flatMap f ++ out) := by
    rw [← hslots']
    apply Ahead.cons (hnode ▸ hf) _ hahead
    intro j hj
    rw [hnode]
    exact hlive j (hslots ▸ List.mem_cons_of_mem i (hslots' ▸ hj))
  have hitem := hf.item i hlt
  rw [hslots, List.flatMap_cons, List.append_assoc]
  cases hview : tuple.node.view i with
  | empty =>
    rw [(Node.view_eq_empty.mp hview).1] at hnone
    cases hnone
  | data kv =>
    obtain ⟨-, hdata, hget⟩ := Node.view_eq_data.mp hview
    rw [hview] at hitem
    have hsingle : f i = [kv] := hitem
    rw [if_pos hdata] at htop
    rw [hsingle]
    refine ⟨⟨tuple.node, i⟩, tuple' :: stack, ?_, hahead', 1, fun fuel hle => ?_⟩
    · simp only [Position.read, hget]
    · obtain ⟨fuel, rfl⟩ := Nat.exists_eq_add_of_le' hle
      rw [advanceStack, htop]
      rfl
  | child c =>
    obtain ⟨c⟩ := c
    obtain ⟨-, hchild', hget⟩ := Node.view_eq_child.mp hview
    rw [if_neg (by rw [hchild']; exact Bool.noConfusion), hget] at htop
    exact Finds.round htop (hchild i hlt c hview _ _ hahead')
  | invalid =>
    rw [hview] at hitem
    exact hitem.elim

omit [LinearOrder K] in
theorem flatMap_filter_eq {p : Nat → Bool} {is : List Nat} (h : ∀ i ∈ is, p i = false → f i = []) :
    (is.filter p).flatMap f = is.flatMap f := by
  induction is with
  | nil => rfl
  | cons i is ih =>
    obtain ⟨hi, his⟩ := List.forall_mem_cons.mp h
    rw [List.filter_cons]
    split
    · rw [List.flatMap_cons, List.flatMap_cons, ih his]
    · next hp => rw [List.flatMap_cons, hi (by simpa using hp), ih his, List.nil_append]

/-- The items a padded node has from a position on store the pairs from there on. -/
theorem occupied_flatMap (hf : Filled n f) (hpadded : n.Padded) {start : Nat} (hstart : start ≤ n.numItems) :
    (occupied n start (8 * Bitmap.size n.numItems)).flatMap f =
      (List.range' start (n.numItems - start)).flatMap f := by
  have hsize : n.numItems ≤ 8 * Bitmap.size n.numItems := by
    rw [Bitmap.size]
    omega
  have hpadding : occupied n n.numItems (8 * Bitmap.size n.numItems) = [] := by
    apply List.eq_nil_iff_forall_not_mem.mpr
    intro i hi
    obtain ⟨⟨hle, hlt⟩, hnone⟩ := mem_occupied.mp hi
    rw [hpadded i hle hlt] at hnone
    cases hnone
  rw [← occupied_append n hstart hsize, hpadding, List.append_nil, occupied]
  apply flatMap_filter_eq
  intro i hi hnone
  rw [List.mem_range'_1] at hi
  exact (hf.isChild_of_isNone (by omega) (by simpa using hnone)).2

omit [LinearOrder K] in
theorem occupied_live (hpadded : n.Padded) {start i : Nat}
    (hi : i ∈ occupied n start (8 * Bitmap.size n.numItems)) : i < n.numItems ∧ n.isNone i = false := by
  obtain ⟨⟨-, hlt⟩, hnone⟩ := mem_occupied.mp hi
  refine ⟨?_, hnone⟩
  by_contra hle
  rw [hpadded i (not_lt.mp hle) hlt] at hnone
  cases hnone

/-- A child that is pushed is visited from its first pair on. -/
theorem Holds.finds_push {t : Tree K} (h : Holds t kvs) (hpadded : t.Padded) (hne : kvs ≠ [])
    (hahead : Ahead stack out) (hn : t = .node n) : Finds (pushTuple n :: stack) (kvs ++ out) := by
  induction h generalizing n stack out with
  | @node n' f fits children size ih =>
    obtain rfl : n' = n := Tree.node.inj hn
    have hf : Filled n' f := ⟨fits, children⟩
    have hslots := pushTuple_slots hf.shape.pos
    have htotal : (pushTuple n').slots.flatMap f = n'.total f := by
      rw [hslots, occupied_flatMap hf hpadded.2 (Nat.zero_le _), Node.total, List.range_eq_range',
        Nat.sub_zero]
    rw [← htotal]
    apply Ahead.finds_tuple hf _ _ hahead
    · intro i hi c hview stack out hahead
      have hitem := hf.item i hi
      rw [show n'.view i = .child (.node c) from hview] at hitem
      exact ih i hi _ hview hitem.1 hitem.2 hahead rfl
    · exact fun i hi => occupied_live hpadded.2 (hslots ▸ hi)
    · intro hnil
      rw [hnil] at htotal
      exact hne htotal.symm

theorem Ahead.finds (h : Ahead stack out) : Finds stack out := by
  induction h with
  | nil =>
    refine ⟨0, fun fuel _ => ?_⟩
    cases fuel <;> rfl
  | @cons tuple stack f out filled live behind ih =>
    by_cases hnil : tuple.slots = []
    · rw [hnil]
      exact Finds.round (advanceTop_nil hnil stack) ih
    · apply Ahead.finds_tuple filled live hnil behind
      intro i hi c hview stack out hahead
      have hitem := filled.item i hi
      rw [hview] at hitem
      exact (filled.children i hi _ hview).finds_push hitem.1 hitem.2 hahead rfl

end Visits

end LearnedIndex.Lipp
