import Mathlib.Data.UInt
import Mathlib.Data.List.Sort
import Mathlib.Data.Multiset.Filter
import Mathlib.Algebra.BigOperators.Group.Multiset.Basic

universe u

namespace LearnedIndex

/-- A dataset pair; the value is always a `uint64_t`. -/
structure KeyValue (K : Type u) where
  key : K
  value : UInt64
  deriving DecidableEq, Repr

namespace Util

/-- `std::numeric_limits<uint64_t>::max()`. -/
def notFound : UInt64 := 18446744073709551615

/-- `std::numeric_limits<size_t>::max()`. -/
def overflow : UInt64 := 18446744073709551615

/-- `std::vector::size`, as the `size_t` the callers compute with. -/
def size {α : Type u} (xs : List α) : UInt64 := UInt64.ofNat xs.length

/-- `util::is_unique`; the data has to be sorted. -/
def isUnique {K : Type u} [DecidableEq K] : List K → Bool
  | k :: k' :: ks => if k' = k then false else isUnique (k' :: ks)
  | _ => true

theorem isUnique_iff {K : Type u} [LinearOrder K] {ks : List K} (hks : ks.Pairwise (· ≤ ·)) :
    isUnique ks = true ↔ ks.Nodup := by
  fun_induction isUnique ks with
  | case1 k ks => simp
  | case2 k k' ks hne ih =>
    have hlt : k < k' := lt_of_le_of_ne (List.rel_of_pairwise_cons hks List.mem_cons_self) (Ne.symm hne)
    rw [ih hks.of_cons, List.nodup_cons (a := k), and_iff_right]
    intro hk
    obtain rfl | hk := List.mem_cons.mp hk
    · exact hne rfl
    · exact absurd (List.rel_of_pairwise_cons hks.of_cons hk) (not_le.mpr hlt)
  | case3 ks h =>
    match ks with
    | [] => simp
    | [k] => simp
    | k :: k' :: ks => exact absurd rfl (h k k' ks)

end Util

open Util

variable {K : Type u}

def keys (kvs : List (KeyValue K)) : List K := kvs.map KeyValue.key

@[simp] theorem keys_nil : keys ([] : List (KeyValue K)) = [] := rfl

@[simp] theorem keys_cons (kv : KeyValue K) (kvs : List (KeyValue K)) :
    keys (kv :: kvs) = kv.key :: keys kvs := rfl

@[simp] theorem keys_append (xs ys : List (KeyValue K)) : keys (xs ++ ys) = keys xs ++ keys ys :=
  List.map_append

theorem mem_keys {k : K} {kvs : List (KeyValue K)} : k ∈ keys kvs ↔ ∃ kv ∈ kvs, kv.key = k :=
  List.mem_map

theorem mem_keys_of_mem {kv : KeyValue K} {kvs : List (KeyValue K)} (h : kv ∈ kvs) :
    kv.key ∈ keys kvs := List.mem_map_of_mem h

/-- Two pairs of a list without repeated keys agree when their keys do. -/
theorem eq_of_key_eq {kvs : List (KeyValue K)} (h : (keys kvs).Nodup) {x y : KeyValue K}
    (hx : x ∈ kvs) (hy : y ∈ kvs) (hk : x.key = y.key) : x = y :=
  List.inj_on_of_nodup_map h hx hy hk

/-- The sum modulo 2^64 of the values of the pairs with `lo ≤ key ≤ hi`. -/
def rangeSum [LinearOrder K] (kvs : Multiset (KeyValue K)) (lo hi : K) : UInt64 :=
  ((kvs.filter fun kv => lo ≤ kv.key ∧ kv.key ≤ hi).map KeyValue.value).sum

theorem rangeSum_add [LinearOrder K] (xs ys : Multiset (KeyValue K)) (lo hi : K) :
    rangeSum (xs + ys) lo hi = rangeSum xs lo hi + rangeSum ys lo hi := by
  simp [rangeSum]

@[simp] theorem rangeSum_zero [LinearOrder K] (lo hi : K) :
    rangeSum (0 : Multiset (KeyValue K)) lo hi = 0 := rfl

theorem rangeSum_cons [LinearOrder K] (kv : KeyValue K) (kvs : Multiset (KeyValue K)) (lo hi : K) :
    rangeSum (kv ::ₘ kvs) lo hi =
      (if lo ≤ kv.key ∧ kv.key ≤ hi then kv.value else 0) + rangeSum kvs lo hi := by
  by_cases h : lo ≤ kv.key ∧ kv.key ≤ hi <;> simp [rangeSum, h]

@[simp, grind =] theorem size_nil {α : Type u} : size ([] : List α) = 0 := rfl

@[simp, grind =] theorem size_concat {α : Type u} (xs : List α) (x : α) :
    size (xs ++ [x]) = size xs + 1 := by
  simp [size, UInt64.ofNat_add]

/-- A prefix cut off a vector leaves the sizes adding up. -/
theorem size_drop {α : Type u} (xs : List α) (n : UInt64) (h : n ≤ size xs) :
    size (xs.drop n.toNat) + n = size xs := by
  have hn : n.toNat ≤ xs.length := by
    have h1 : n.toNat ≤ (size xs).toNat := UInt64.le_iff_toNat_le.mp h
    have h2 : (size xs).toNat ≤ xs.length := by
      simp only [size, UInt64.toNat_ofNat']
      exact Nat.mod_le _ _
    exact h1.trans h2
  calc
    size (xs.drop n.toNat) + n = UInt64.ofNat (xs.length - n.toNat) + UInt64.ofNat n.toNat := by
      simp [size]
    _ = size xs := by
      rw [← UInt64.ofNat_add, Nat.sub_add_cancel hn]
      rfl

end LearnedIndex
