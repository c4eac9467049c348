import LearnedIndex.Alternation
import LearnedIndex.Workload.Generate
import Mathlib.Data.List.Perm.Basic

/-! `generate_permute_blockwise`: a permutation, and the order in which it visits the kinds. -/

namespace LearnedIndex.Workload

open Alternation

theorem sizeSub_eq {a b : Nat} (hba : b ≤ a) (ha : a < 2 ^ 64) : sizeSub a b = a - b := by
  rw [sizeSub, show a + 2 ^ 64 - b = a - b + 2 ^ 64 by omega, Nat.add_mod_right,
    Nat.mod_eq_of_lt (by omega)]

theorem fill_spec {pos count : Nat} {permute : List Nat} (cur : Nat)
    (h : pos + count ≤ permute.length) :
    ∃ permute', fill pos cur count permute = some permute' ∧ permute'.length = permute.length ∧
      (∀ t < count, permute'[pos + t]? = some (cur + t)) ∧
      ∀ j, j < pos ∨ pos + count ≤ j → permute'[j]? = permute[j]? := by
  induction count generalizing pos cur permute with
  | zero => exact ⟨permute, rfl, rfl, fun t ht => absurd ht (Nat.not_lt_zero t), fun _ _ => rfl⟩
  | succ count ih =>
    have hpos : pos < permute.length := by omega
    obtain ⟨permute', hfill, hlen, hnew, hold⟩ :=
      ih (cur + 1) (show pos + 1 + count ≤ (permute.set pos cur).length by
        rw [List.length_set]
        omega)
    refine ⟨permute', ?_, ?_, fun t ht => ?_, fun j hj => ?_⟩
    · rw [fill, if_pos hpos, hfill]
    · rw [hlen, List.length_set]
    · cases t with
      | zero => rw [Nat.add_zero, hold pos (by omega), List.getElem?_set_self hpos, Nat.add_zero]
      | succ t =>
        have ht' := hnew t (by omega)
        rwa [Nat.add_assoc, Nat.add_comm 1, Nat.add_assoc, Nat.add_comm 1] at ht'
    · rw [hold j (by omega), List.getElem?_set_ne (by omega)]

/-- One block of the permutation. -/
def fillBlock (c : BlockCursor) (inserts lookups ranges : Nat) : Option BlockCursor := do
  let permute ← fill c.insertCur c.cur inserts c.permute
  let permute ← fill c.lookupCur (c.cur + inserts) lookups permute
  let permute ← fill c.rangeQueryCur (c.cur + inserts + lookups) ranges permute
  return ⟨permute, c.cur + inserts + lookups + ranges, c.insertCur + inserts,
    c.lookupCur + lookups, c.rangeQueryCur + ranges⟩

/-- The indices that a block gives a place, in the order of their places. -/
def blockSlots (c : BlockCursor) (inserts lookups ranges : Nat) : List Nat :=
  List.range' c.insertCur inserts ++
    (List.range' c.lookupCur lookups ++ List.range' c.rangeQueryCur ranges)

/-- The cursors after `b` blocks; `slots` are the indices that have a place so far. -/
structure Placed (insertCnt lookupCnt rangeQueryCnt b : Nat) (c : BlockCursor) (slots : List Nat) :
    Prop where
  length : c.permute.length = insertCnt + lookupCnt + rangeQueryCnt
  cur : slots.length = c.cur
  filled : slots.map (fun j => c.permute[j]?) = (List.range c.cur).map some
  perm : slots.Perm (List.range c.insertCur ++
    (List.range' insertCnt (c.lookupCur - insertCnt) ++
      List.range' (insertCnt + lookupCnt) (c.rangeQueryCur - (insertCnt + lookupCnt))))
  insert_le : c.insertCur ≤ insertCnt
  le_lookup : insertCnt ≤ c.lookupCur
  lookup_le : c.lookupCur ≤ insertCnt + lookupCnt
  le_range : insertCnt + lookupCnt ≤ c.rangeQueryCur
  range_le : c.rangeQueryCur ≤ insertCnt + lookupCnt + rangeQueryCnt
  blocks : ∀ m ≤ insertCnt, Blocks (fun j => decide (j < m)) b slots

variable {insertCnt lookupCnt rangeQueryCnt b inserts lookups ranges : Nat} {c : BlockCursor}
  {slots : List Nat}

theorem range_add (n m : Nat) : List.range (n + m) = List.range n ++ List.range' n m := by
  rw [List.range_eq_range', List.range_eq_range', ← List.range'_append_1, Nat.zero_add]

theorem map_range' {f : Nat → Option Nat} {s cur n : Nat} (h : ∀ t < n, f (s + t) = some (cur + t)) :
    (List.range' s n).map f = (List.range' cur n).map some := by
  rw [List.range'_eq_map_range, List.range'_eq_map_range, List.map_map, List.map_map]
  apply List.map_congr_left
  intro t ht
  exact h t (List.mem_range.mp ht)

/-- The inserts of a block get the first places. -/
theorem leads_blockSlots {m : Nat} (hm : m ≤ insertCnt) (hlookup : insertCnt ≤ c.lookupCur)
    (hrange : insertCnt ≤ c.rangeQueryCur) :
    Leads (fun j => decide (j < m)) (blockSlots c inserts lookups ranges) := by
  have hqueries : ∀ j ∈ List.range' c.lookupCur lookups ++ List.range' c.rangeQueryCur ranges,
      ¬j < m := by
    intro j hj
    rw [List.mem_append, List.mem_range'_1, List.mem_range'_1] at hj
    omega
  apply List.pairwise_append.mpr
  refine ⟨?_, ?_, ?_⟩
  · apply List.Pairwise.imp _ List.pairwise_lt_range'
    intro i j hij hj
    rw [decide_eq_true_iff] at hj ⊢
    exact hij.trans hj
  · apply List.Pairwise.imp_of_mem (R := fun _ _ => True)
    · intro i j _ hj _ hlt
      exact absurd (of_decide_eq_true hlt) (hqueries j hj)
    · exact List.pairwise_of_forall fun _ _ => trivial
  · intro i _ j hj hlt
    exact absurd (of_decide_eq_true hlt) (hqueries j hj)

theorem Placed.mem_slots (h : Placed insertCnt lookupCnt rangeQueryCnt b c slots) {j : Nat}
    (hj : j ∈ slots) : j < c.insertCur ∨ (insertCnt ≤ j ∧ j < c.lookupCur) ∨
      (insertCnt + lookupCnt ≤ j ∧ j < c.rangeQueryCur) := by
  have hmem := h.perm.mem_iff.mp hj
  have hlookup := h.le_lookup
  have hrange := h.le_range
  rw [List.mem_append, List.mem_append, List.mem_range, List.mem_range'_1, List.mem_range'_1] at hmem
  omega

theorem Placed.fillBlock (h : Placed insertCnt lookupCnt rangeQueryCnt b c slots)
    (inserts lookups ranges : Nat) (hinserts : c.insertCur + inserts ≤ insertCnt)
    (hlookups : c.lookupCur + lookups ≤ insertCnt + lookupCnt)
    (hranges : c.rangeQueryCur + ranges ≤ insertCnt + lookupCnt + rangeQueryCnt) :
    ∃ c', Workload.fillBlock c inserts lookups ranges = some c' ∧
      c'.insertCur = c.insertCur + inserts ∧ c'.lookupCur = c.lookupCur + lookups ∧
      c'.rangeQueryCur = c.rangeQueryCur + ranges ∧
      Placed insertCnt lookupCnt rangeQueryCnt (b + 1) c'
        (slots ++ blockSlots c inserts lookups ranges) := by
  have hlen := h.length
  have hlelookup := h.le_lookup
  have hlerange := h.le_range
  obtain ⟨p₁, hfill₁, hlen₁, hnew₁, hold₁⟩ :=
    fill_spec c.cur (show c.insertCur + inserts ≤ c.permute.length by omega)
  obtain ⟨p₂, hfill₂, hlen₂, hnew₂, hold₂⟩ :=
    fill_spec (c.cur + inserts) (show c.lookupCur + lookups ≤ p₁.length by omega)
  obtain ⟨p₃, hfill₃, hlen₃, hnew₃, hold₃⟩ :=
    fill_spec (c.cur + inserts + lookups) (show c.rangeQueryCur + ranges ≤ p₂.length by omega)
  have hslots : slots.map (fun j => p₃[j]?) = slots.map fun j => c.permute[j]? := by
    apply List.map_congr_left
    intro j hj
    have hcases := h.mem_slots hj
    have hinsert := h.insert_le
    rw [hold₃ j (by omega), hold₂ j (by omega), hold₁ j (by omega)]
  have hnew : (blockSlots c inserts lookups ranges).map (fun j => p₃[j]?) =
      (List.range' c.cur (inserts + lookups + ranges)).map some := by
    have hi : (List.range' c.insertCur inserts).map (fun j => p₃[j]?) =
        (List.range' c.cur inserts).map some := map_range' fun t ht => by
      rw [hold₃ _ (by omega), hold₂ _ (by omega), hnew₁ t ht]
    have hl : (List.range' c.lookupCur lookups).map (fun j => p₃[j]?) =
        (List.range' (c.cur + inserts) lookups).map some := map_range' fun t ht => by
      rw [hold₃ _ (by omega), hnew₂ t ht]
    have hr : (List.range' c.rangeQueryCur ranges).map (fun j => p₃[j]?) =
        (List.range' (c.cur + inserts + lookups) ranges).map some := map_range' hnew₃
    rw [blockSlots, List.map_append, List.map_append, hi, hl, hr, ← List.map_append,
      ← List.map_append, ← List.append_assoc, List.range'_append_1, Nat.add_assoc c.cur,
      List.range'_append_1]
  refine ⟨⟨p₃, c.cur + inserts + lookups + ranges, c.insertCur + inserts, c.lookupCur + lookups,
    c.rangeQueryCur + ranges⟩, ?_, rfl, rfl, rfl, ?_⟩
  · simp only [Workload.fillBlock, hfill₁, hfill₂, hfill₃, Option.bind_eq_bind, Option.bind_some]
    rfl
  · refine ⟨?_, ?_, ?_, ?_, hinserts, ?_, hlookups, ?_, hranges, ?_⟩
    · exact (hlen₃.trans (hlen₂.trans hlen₁)).trans hlen
    · simp only [blockSlots, List.length_append, List.length_range', h.cur]
      omega
    · have hsum : c.cur + inserts + lookups + ranges = c.cur + (inserts + lookups + ranges) := by
        omega
      simp only [hsum, range_add, List.map_append, hslots, h.filled, hnew]
    · have hsplit : ∀ start lo n, start ≤ lo →
          List.range' start (lo + n - start) = List.range' start (lo - start) ++ List.range' lo n := by
        intro start lo n hle
        rw [show lo + n - start = lo - start + n by omega, ← List.range'_append_1,
          Nat.add_sub_cancel' hle]
      rw [range_add, hsplit _ _ _ hlelookup, hsplit _ _ _ hlerange, blockSlots]
      apply (h.perm.append_right _).trans
      rw [List.perm_iff_count]
      intro j
      simp only [List.count_append]
      omega
    · exact hlelookup.trans (Nat.le_add_right _ _)
    · exact hlerange.trans (Nat.le_add_right _ _)
    · intro m hm
      exact (h.blocks m hm).concat (leads_blockSlots hm hlelookup ((Nat.le_add_right _ _).trans hlerange))

/-- Block `i`; the last block takes what the others left. -/
def fillNext (insertCnt lookupCnt rangeQueryCnt blockNum : Nat) (c : BlockCursor) (i : Nat) :
    Option BlockCursor :=
  let last := i = blockNum - 1
  let inserts := if last then sizeSub insertCnt c.insertCur else insertCnt / blockNum
  let ranges := if last then sizeSub (insertCnt + lookupCnt + rangeQueryCnt) c.rangeQueryCur
    else rangeQueryCnt / blockNum
  let lookups := if last then sizeSub (insertCnt + lookupCnt) c.lookupCur else lookupCnt / blockNum
  fillBlock c inserts lookups ranges

/-- Nothing has a place yet. -/
def startCursor (insertCnt lookupCnt rangeQueryCnt : Nat) : BlockCursor :=
  ⟨List.replicate (insertCnt + lookupCnt + rangeQueryCnt) 0, 0, 0, insertCnt, insertCnt + lookupCnt⟩

theorem placed_start (insertCnt lookupCnt rangeQueryCnt : Nat) :
    Placed insertCnt lookupCnt rangeQueryCnt 0 (startCursor insertCnt lookupCnt rangeQueryCnt) [] where
  length := List.length_replicate
  cur := rfl
  filled := rfl
  perm := by simp [startCursor]
  insert_le := Nat.zero_le _
  le_lookup := le_rfl
  lookup_le := Nat.le_add_right _ _
  le_range := le_rfl
  range_le := Nat.le_add_right _ _
  blocks _ _ := .nil

theorem generatePermuteBlockwise_eq (insertCnt lookupCnt rangeQueryCnt blockNum : Nat) :
    generatePermuteBlockwise (insertCnt + lookupCnt + rangeQueryCnt) insertCnt rangeQueryCnt lookupCnt
        blockNum =
      ((List.range blockNum).foldlM (fillNext insertCnt lookupCnt rangeQueryCnt blockNum)
        (startCursor insertCnt lookupCnt rangeQueryCnt)).map BlockCursor.permute := by
  rw [Option.map_eq_bind]
  rfl

/-- Before the last block all blocks have the same sizes. -/
theorem fillNext_run (insertCnt lookupCnt rangeQueryCnt : Nat) {blockNum : Nat} (hb : b < blockNum) :
    ∃ c slots, (List.range b).foldlM (fillNext insertCnt lookupCnt rangeQueryCnt blockNum)
        (startCursor insertCnt lookupCnt rangeQueryCnt) = some c ∧
      c.insertCur = b * (insertCnt / blockNum) ∧
      c.lookupCur = insertCnt + b * (lookupCnt / blockNum) ∧
      c.rangeQueryCur = insertCnt + lookupCnt + b * (rangeQueryCnt / blockNum) ∧
      Placed insertCnt lookupCnt rangeQueryCnt b c slots := by
  induction b with
  | zero =>
    exact ⟨_, [], rfl, by simp [startCursor], by simp [startCursor], by simp [startCursor],
      placed_start _ _ _⟩
  | succ b ih =>
    obtain ⟨c, slots, hrun, hinsert, hlookup, hrange, hplaced⟩ := ih (by omega)
    have hle : ∀ n, b * (n / blockNum) + n / blockNum ≤ n := by
      intro n
      rw [← Nat.succ_mul]
      exact (Nat.mul_le_mul_right _ hb.le).trans (Nat.mul_div_le n blockNum)
    have hi := hle insertCnt
    have hl := hle lookupCnt
    have hr := hle rangeQueryCnt
    obtain ⟨c', hfill, hinsert', hlookup', hrange', hplaced'⟩ := hplaced.fillBlock
      (insertCnt / blockNum) (lookupCnt / blockNum) (rangeQueryCnt / blockNum) (by omega) (by omega)
      (by omega)
    refine ⟨c', _, ?_, ?_, ?_, ?_, hplaced'⟩
    · rw [List.range_succ, List.foldlM_append, hrun]
      have hne : ¬b = blockNum - 1 := by omega
      simp only [Option.bind_eq_bind, Option.bind_some, List.foldlM_cons, List.foldlM_nil, fillNext,
        if_neg hne, hfill]
      rfl
    · rw [hinsert', hinsert, Nat.succ_mul]
    · rw [hlookup', hlookup, Nat.succ_mul, Nat.add_assoc]
    · rw [hrange', hrange, Nat.succ_mul, Nat.add_assoc]

/-- All indices get a place, block by block. -/
theorem generatePermuteBlockwise_placed {blockNum : Nat} (hblock : 1 ≤ blockNum)
    (hsize : insertCnt + lookupCnt + rangeQueryCnt < 2 ^ 64) :
    ∃ permute slots, generatePermuteBlockwise (insertCnt + lookupCnt + rangeQueryCnt) insertCnt
        rangeQueryCnt lookupCnt blockNum = some permute ∧
      permute.length = insertCnt + lookupCnt + rangeQueryCnt ∧
      slots.Perm (List.range (insertCnt + lookupCnt + rangeQueryCnt)) ∧
      slots.map (fun j => permute[j]?) =
        (List.range (insertCnt + lookupCnt + rangeQueryCnt)).map some ∧
      ∀ m ≤ insertCnt, Blocks (fun j => decide (j < m)) blockNum slots := by
  obtain ⟨n, rfl⟩ := Nat.exists_eq_add_of_le' hblock
  obtain ⟨c, slots, hrun, hinsert, hlookup, hrange, hplaced⟩ :=
    fillNext_run insertCnt lookupCnt rangeQueryCnt (Nat.lt_succ_self n)
  have hi := hplaced.insert_le
  have hl := hplaced.lookup_le
  have hr := hplaced.range_le
  obtain ⟨c', hfill, hinsert', hlookup', hrange', hplaced'⟩ := hplaced.fillBlock
    (insertCnt - c.insertCur) (insertCnt + lookupCnt - c.lookupCur)
    (insertCnt + lookupCnt + rangeQueryCnt - c.rangeQueryCur) (by omega) (by omega) (by omega)
  have hperm := hplaced'.perm
  rw [hinsert', hlookup', hrange', Nat.add_sub_cancel' hi, Nat.add_sub_cancel' hl,
    Nat.add_sub_cancel' hr, Nat.add_sub_cancel_left, Nat.add_sub_cancel_left, ← List.append_assoc,
    ← range_add, ← range_add] at hperm
  have hcur : c'.cur = insertCnt + lookupCnt + rangeQueryCnt := by
    rw [← hplaced'.cur, hperm.length_eq, List.length_range]
  refine ⟨c'.permute, _, ?_, hplaced'.length, hperm, ?_, hplaced'.blocks⟩
  · have hi' : insertCnt < 2 ^ 64 := by omega
    have hl' : insertCnt + lookupCnt < 2 ^ 64 := by omega
    have hlast : fillNext insertCnt lookupCnt rangeQueryCnt (n + 1) c n = some c' := by
      have hn : n = n + 1 - 1 := rfl
      rw [← hfill, fillNext, if_pos hn, if_pos hn, if_pos hn, sizeSub_eq hi hi', sizeSub_eq hl hl',
        sizeSub_eq hr hsize]
    rw [generatePermuteBlockwise_eq, List.range_succ, List.foldlM_append, hrun, Option.bind_eq_bind,
      Option.bind_some, List.foldlM_cons, hlast]
    rfl
  · have hfilled := hplaced'.filled
    rwa [hcur] at hfilled

/-- The indices get the places `0, …, op_cnt - 1`, each once. -/
theorem generatePermuteBlockwise_perm {blockNum : Nat} (hblock : 1 ≤ blockNum)
    (hsize : insertCnt + lookupCnt + rangeQueryCnt < 2 ^ 64) :
    ∃ permute, generatePermuteBlockwise (insertCnt + lookupCnt + rangeQueryCnt) insertCnt
        rangeQueryCnt lookupCnt blockNum = some permute ∧
      permute.Perm (List.range (insertCnt + lookupCnt + rangeQueryCnt)) := by
  obtain ⟨permute, slots, hgen, hlen, hslots, hfilled, -⟩ := generatePermuteBlockwise_placed hblock hsize
  refine ⟨permute, hgen, ?_⟩
  have hall : (List.range (insertCnt + lookupCnt + rangeQueryCnt)).map (fun j => permute[j]?) =
      permute.map some := by
    rw [← hlen]
    apply List.ext_getElem?
    intro j
    rw [List.getElem?_map, List.getElem?_map]
    by_cases hj : j < permute.length
    · rw [List.getElem?_range hj, List.getElem?_eq_getElem hj]
      exact congrArg some (List.getElem?_eq_getElem hj)
    · have hrange : (List.range permute.length)[j]? = none := by
        rw [List.getElem?_eq_none_iff, List.length_range]
        exact not_lt.mp hj
      rw [hrange, List.getElem?_eq_none_iff.mpr (not_lt.mp hj)]
      rfl
  have hperm := hslots.symm.map fun j => permute[j]?
  rw [hall, hfilled] at hperm
  exact (List.map_perm_map_iff (Option.some_injective _)).mp hperm

end LearnedIndex.Workload
