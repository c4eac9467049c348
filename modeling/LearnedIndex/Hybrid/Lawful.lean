import LearnedIndex.Hybrid.Machine

/-! What the hybrid index relies on in its two parts, and the abstract map, which has it. -/

universe u v w x y

namespace LearnedIndex.Hybrid

open Util

variable {K : Type u} {P : Type v} {L : Type w} {E : Type x}

/-- A PGM behaves like the multiset of its pairs as long as every inserted key is fresh. -/
structure PgmOps.Lawful [LinearOrder K] (ops : PgmOps K P) (Inv : P → Prop)
    (contents : P → Multiset (KeyValue K)) : Prop where
  inv_empty : Inv ops.empty
  contents_empty : contents ops.empty = 0
  inv_insert {p kv} : Inv p → (∀ x ∈ contents p, x.key ≠ kv.key) → Inv (ops.insert p kv)
  contents_insert {p kv} : Inv p → (∀ x ∈ contents p, x.key ≠ kv.key) →
    contents (ops.insert p kv) = kv ::ₘ contents p
  lookup_mem {p kv} : Inv p → kv ∈ contents p → ops.equalityLookup p kv.key = kv.value
  lookup_absent {p k} : Inv p → (∀ x ∈ contents p, x.key ≠ k) →
    ops.equalityLookup p k = overflow
  rangeQuery_eq {p lo hi} : Inv p → lo ≤ hi → ops.rangeQuery p lo hi = rangeSum (contents p) lo hi

/-- The same for LIPP, whose calls may also exit or not return. -/
structure LippOps.Lawful [LinearOrder K] (ops : LippOps K L E) (Inv : L → Prop)
    (contents : L → Multiset (KeyValue K)) : Prop where
  build {data l} : (keys data).Pairwise (· < ·) → ops.build ops.empty data = .returns l →
    Inv l ∧ contents l = data
  insert {l kv l'} : Inv l → (∀ x ∈ contents l, x.key ≠ kv.key) →
    ops.insert l kv = .returns l' → Inv l' ∧ contents l' = kv ::ₘ contents l
  lookup_mem {l kv} : Inv l → kv ∈ contents l → ops.equalityLookup l kv.key = kv.value
  lookup_absent {l k} : Inv l → (∀ x ∈ contents l, x.key ≠ k) →
    ops.equalityLookup l k = notFound

/-- An insertion into a PGM decides what a lookup of its key finds, also when it is not new. -/
structure PgmOps.Upserts [DecidableEq K] (ops : PgmOps K P) (Inv : P → Prop) : Prop where
  inv_empty : Inv ops.empty
  lookup_empty k : ops.equalityLookup ops.empty k = overflow
  inv_insert {p} kv : Inv p → Inv (ops.insert p kv)
  lookup_insert {p} kv k : Inv p →
    ops.equalityLookup (ops.insert p kv) k = if kv.key = k then kv.value else ops.equalityLookup p k

/-- A LIPP that also asserts that an inserted key is new. -/
structure LippOps.Asserts [LinearOrder K] (ops : LippOps K L E) (Inv : L → Prop)
    (contents : L → Multiset (KeyValue K)) : Prop extends ops.Lawful Inv contents where
  insert_present {l x kv} : Inv l → x ∈ contents l → x.key = kv.key → ∃ e, ops.insert l kv = .exits e

namespace AbstractMap

/-- A map as its association list, one pair for each key. -/
def insert [DecidableEq K] (m : List (KeyValue K)) (kv : KeyValue K) : List (KeyValue K) :=
  kv :: m.filter fun x => x.key ≠ kv.key

def lookup [DecidableEq K] (m : List (KeyValue K)) (k : K) : Option UInt64 :=
  (m.find? fun x => x.key = k).map KeyValue.value

variable [LinearOrder K]

def pgmOps : PgmOps K (List (KeyValue K)) where
  empty := []
  insert := insert
  equalityLookup m k := (lookup m k).getD overflow
  rangeQuery m lo hi := rangeSum m lo hi

def lippOps : LippOps K (List (KeyValue K)) Empty where
  empty := []
  build _ data := .returns data
  insert m kv := .returns (insert m kv)
  equalityLookup m k := (lookup m k).getD notFound

/-- The same LIPP with the assertion. -/
def assertingLippOps : LippOps K (List (KeyValue K)) Unit where
  empty := []
  build _ data := .returns data
  insert m kv := if kv.key ∈ keys m then .exits () else .returns (kv :: m)
  equalityLookup m k := (lookup m k).getD notFound

theorem insert_fresh {m : List (KeyValue K)} {kv : KeyValue K} (h : ∀ x ∈ m, x.key ≠ kv.key) :
    insert m kv = kv :: m := by
  rw [insert, List.filter_eq_self.mpr fun x hx => by simpa using h x hx]

theorem keys_insert_nodup {m : List (KeyValue K)} {kv : KeyValue K} (hm : (keys m).Nodup)
    (h : ∀ x ∈ m, x.key ≠ kv.key) : (keys (insert m kv)).Nodup := by
  rw [insert_fresh h, keys_cons, List.nodup_cons]
  refine ⟨fun hk => ?_, hm⟩
  obtain ⟨x, hx, hxk⟩ := mem_keys.mp hk
  exact h x hx hxk

theorem lookup_mem {m : List (KeyValue K)} {kv : KeyValue K} (hm : (keys m).Nodup)
    (h : kv ∈ m) : lookup m kv.key = some kv.value := by
  obtain ⟨x, hx⟩ := Option.isSome_iff_exists.mp
    (List.find?_isSome (p := fun x => decide (x.key = kv.key)).mpr ⟨kv, h, by simp⟩)
  have hk : x.key = kv.key := by simpa using List.find?_some hx
  rw [lookup, hx, eq_of_key_eq hm (List.mem_of_find?_eq_some hx) h hk]
  rfl

theorem lookup_absent {m : List (KeyValue K)} {k : K} (h : ∀ x ∈ m, x.key ≠ k) :
    lookup m k = none := by
  rw [lookup, List.find?_eq_none.mpr fun x hx => by simpa using h x hx]
  rfl

theorem pgmOps_lawful :
    (pgmOps : PgmOps K _).Lawful (fun m => (keys m).Nodup) (fun m => (m : Multiset _)) where
  inv_empty := List.nodup_nil
  contents_empty := rfl
  inv_insert := keys_insert_nodup
  contents_insert _ h := congrArg _ (insert_fresh h)
  lookup_mem hm h := by simp [pgmOps, lookup_mem hm h]
  lookup_absent _ h := by simp [pgmOps, lookup_absent h]
  rangeQuery_eq _ _ := rfl

theorem lippOps_lawful :
    (lippOps : LippOps K _ _).Lawful (fun m => (keys m).Nodup) (fun m => (m : Multiset _)) where
  build hdata h := by
    cases h
    exact ⟨hdata.imp ne_of_lt, rfl⟩
  insert hm h hins := by
    cases hins
    exact ⟨keys_insert_nodup hm h, congrArg _ (insert_fresh h)⟩
  lookup_mem hm h := by simp [lippOps, lookup_mem hm h]
  lookup_absent _ h := by simp [lippOps, lookup_absent h]

omit [LinearOrder K] in
theorem lookup_insert [DecidableEq K] (m : List (KeyValue K)) (kv : KeyValue K) (k : K) :
    lookup (insert m kv) k = if kv.key = k then some kv.value else lookup m k := by
  rw [insert, lookup, List.find?_cons]
  split
  · next hk => rw [if_pos (by simpa using hk), Option.map_some]
  · next hk =>
    have hne : kv.key ≠ k := by simpa using hk
    rw [if_neg hne, List.find?_filter, lookup]
    congr 2
    funext x
    by_cases hx : x.key = k <;> simp [hx, Ne.symm hne]

theorem pgmOps_upserts : (pgmOps : PgmOps K _).Upserts fun _ => True where
  inv_empty := trivial
  lookup_empty _ := rfl
  inv_insert _ h := h
  lookup_insert kv k _ := by
    simp only [pgmOps, lookup_insert]
    split <;> rfl

theorem assertingLippOps_asserts :
    (assertingLippOps : LippOps K _ _).Asserts (fun m => (keys m).Nodup) (fun m => (m : Multiset _)) where
  build hdata h := by
    cases h
    exact ⟨hdata.imp ne_of_lt, rfl⟩
  insert {m kv m'} hm h hins := by
    have hnew : kv.key ∉ keys m := fun hk => by
      obtain ⟨x, hx, hxk⟩ := mem_keys.mp hk
      exact h x hx hxk
    rw [assertingLippOps] at hins
    simp only [if_neg hnew, Outcome.returns.injEq] at hins
    subst hins
    exact ⟨List.nodup_cons.mpr ⟨hnew, hm⟩, rfl⟩
  lookup_mem hm h := by simp [assertingLippOps, lookup_mem hm h]
  lookup_absent _ h := by simp [assertingLippOps, lookup_absent h]
  insert_present {m x kv} _ hx hk := by
    refine ⟨(), ?_⟩
    rw [assertingLippOps]
    exact if_pos (hk ▸ mem_keys_of_mem hx)

end AbstractMap

end LearnedIndex.Hybrid
