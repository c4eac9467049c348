import LearnedIndex.DoubleBuffer.Lookup
import LearnedIndex.Transition

/-! Runs of any number of clients and the flush thread: which pairs are inside, who is
swapping the pointers, and what every lookup returns. -/

universe u v w x y

namespace LearnedIndex.DoubleBuffer

open Util Hybrid Transition

variable {ι : Type y} {K : Type u} {P : Type v} {L : Type w} {E : Type x}

/-- Where a client is in the swap of the PGM pointers, if it is. -/
def ClientPc.swapping : ClientPc K → Option SwapPc
  | .insertSwap _ pc => some pc
  | _ => none

/-- The pair an `Insert` has not yet given to a PGM. -/
def ClientPc.pending : ClientPc K → List (KeyValue K)
  | .insertWait kv | .insertLoad kv | .insertPgm kv _ => [kv]
  | _ => []

/-- The pair an `Insert` has given to a PGM. -/
def ClientPc.carried : ClientPc K → List (KeyValue K)
  | .insertTest kv | .insertLock kv | .insertSwap kv _ | .finished (.insert kv) _ => [kv]
  | _ => []

def Action.inserted : Action ι K → List (KeyValue K)
  | .call _ (.insert kv) => [kv]
  | _ => []

def Action.returned : Action ι K → List (KeyValue K)
  | .ret _ (.insert kv) _ => [kv]
  | _ => []

/-- The pairs of the `Insert` calls made, in call order. -/
def inserted (acts : List (Action ι K)) : List (KeyValue K) := acts.flatMap Action.inserted

/-- The pairs of the `Insert` calls that have returned. -/
def returned (acts : List (Action ι K)) : List (KeyValue K) := acts.flatMap Action.returned

theorem inserted_concat (acts : List (Action ι K)) (a : Action ι K) :
    inserted (acts ++ [a]) = inserted acts ++ a.inserted := by
  simp [inserted]

theorem returned_concat (acts : List (Action ι K)) (a : Action ι K) :
    returned (acts ++ [a]) = returned acts ++ a.returned := by
  simp [returned]

theorem inserted_mono {as bs : List (Action ι K)} (h : as <+: bs) : inserted as <+: inserted bs := by
  obtain ⟨cs, rfl⟩ := h
  simp [inserted]

/-- The pair the client's next step gives to a PGM. -/
def ClientPc.stored : ClientPc K → Multiset (KeyValue K)
  | .insertPgm kv _ => {kv}
  | _ => 0

/-- The pair this step gives to a PGM. -/
def storedBy (s : State ι K P L) : Action ι K → Multiset (KeyValue K)
  | .client i => (s.clients i).stored
  | _ => 0

/-- A client's step either gives its pair to a PGM or neither takes one over nor gives one away. -/
theorem ClientStep.pairs {ops : Ops K P L E} {m m' : Shared K P L} {pc pc' : ClientPc K}
    (h : ClientStep ops m pc m' pc') :
    (∃ kv rw, pc = .insertPgm kv rw ∧ pc' = .insertTest kv) ∨
      (pc.stored = 0 ∧ pc'.pending ⊆ pc.pending ∧ pc'.carried ⊆ pc.carried) := by
  cases h with
  | insertPgm => exact .inl ⟨_, _, rfl, rfl⟩
  | @insertSwap kv pc =>
    right
    cases (swapStep m pc).2 <;> simp [ClientPc.stored, ClientPc.pending, ClientPc.carried]
  | _ => simp [ClientPc.stored, ClientPc.pending, ClientPc.carried]

/-- Which pairs the object holds after `Build` and the `Insert` calls made so far. -/
structure Ledger (data called replied : List (KeyValue K)) (S : Multiset (KeyValue K))
    (clients : ι → ClientPc K) : Prop where
  nodup : (S.map KeyValue.key).Nodup
  built : ∀ x ∈ data, x ∈ S
  returned : ∀ x ∈ replied, x ∈ S
  carried : ∀ i, ∀ x ∈ (clients i).carried, x ∈ S
  known : ∀ x ∈ S, x ∈ data ++ called
  pending : ∀ i, ∀ x ∈ (clients i).pending, x ∈ data ++ called ∧ ∀ y ∈ S, y.key ≠ x.key
  distinct : ∀ i j, i ≠ j → ∀ x ∈ (clients i).pending, ∀ y ∈ (clients j).pending, x.key ≠ y.key

/-- At most one client is swapping; `owner` says where it is. -/
inductive Owner (clients : ι → ClientPc K) : Option SwapPc → Prop
  | free (h : ∀ i, (clients i).swapping = none) : Owner clients none
  | client (i : ι) (h : ∀ j, j ≠ i → (clients j).swapping = none) : Owner clients (clients i).swapping

section Steps

variable {data called replied : List (KeyValue K)} {S : Multiset (KeyValue K)}
  {clients : ι → ClientPc K} {owner : Option SwapPc}

theorem Owner.eq_of_swapping (h : Owner clients owner) {i : ι} {pc : SwapPc}
    (hi : (clients i).swapping = some pc) : owner = some pc := by
  cases h with
  | free h => rw [h i] at hi; cases hi
  | client j h =>
    obtain rfl | hij := eq_or_ne i j
    · exact hi
    · rw [h i hij] at hi; cases hi

theorem Owner.others_of_swapping (h : Owner clients owner) {i : ι} {pc : SwapPc}
    (hi : (clients i).swapping = some pc) : ∀ j, j ≠ i → (clients j).swapping = none := by
  cases h with
  | free h => exact fun j _ => h j
  | client k h =>
    obtain rfl | hik := eq_or_ne i k
    · exact h
    · rw [h i hik] at hi; cases hi

theorem Owner.none_of_free (h : Owner clients none) (i : ι) : (clients i).swapping = none := by
  cases hi : (clients i).swapping with
  | none => rfl
  | some pc => cases h.eq_of_swapping hi

variable [DecidableEq ι]

/-- A client moves while no other is swapping. -/
theorem Owner.of_others {i : ι} (pc : ClientPc K) (h : ∀ j, j ≠ i → (clients j).swapping = none) :
    Owner (Function.update clients i pc) pc.swapping := by
  have hown : Owner (Function.update clients i pc) _ := Owner.client i fun j hj => by
    rw [Function.update_of_ne hj]
    exact h j hj
  rwa [Function.update_self] at hown

theorem Owner.of_same (h : Owner clients owner) {i : ι} {pc : ClientPc K}
    (hpc : pc.swapping = (clients i).swapping) : Owner (Function.update clients i pc) owner := by
  have hsame : ∀ j, (Function.update clients i pc j).swapping = (clients j).swapping := by
    intro j
    obtain rfl | hj := eq_or_ne j i
    · rw [Function.update_self, hpc]
    · rw [Function.update_of_ne hj]
  cases h with
  | free h => exact .free fun j => (hsame j).trans (h j)
  | client j h =>
    rw [← hsame j]
    exact .client j fun k hk => (hsame k).trans (h k hk)

/-- A client goes on to `pc` without taking over or giving away a pair. -/
theorem Ledger.move (hs : Ledger data called replied S clients) {i : ι} {pc : ClientPc K}
    (hpending : pc.pending ⊆ (clients i).pending) (hcarried : pc.carried ⊆ (clients i).carried) :
    Ledger data called replied S (Function.update clients i pc) := by
  have hpending' : ∀ j, (Function.update clients i pc j).pending ⊆ (clients j).pending := by
    intro j
    obtain rfl | hj := eq_or_ne j i
    · rwa [Function.update_self]
    · rw [Function.update_of_ne hj]
      exact List.Subset.refl _
  refine ⟨hs.nodup, hs.built, hs.returned, fun j x hx => ?_, hs.known, fun j x hx => ?_,
    fun j k hjk x hx y hy => ?_⟩
  · obtain rfl | hj := eq_or_ne j i
    · rw [Function.update_self] at hx
      exact hs.carried j x (hcarried hx)
    · rw [Function.update_of_ne hj] at hx
      exact hs.carried j x hx
  · exact hs.pending j x (hpending' j hx)
  · exact hs.distinct j k hjk x (hpending' j hx) y (hpending' k hy)

/-- An `Insert` is called with a fresh key. -/
theorem Ledger.call (hs : Ledger data called replied S clients) {i : ι} {kv : KeyValue K}
    (hfresh : (keys (data ++ (called ++ [kv]))).Nodup) :
    Ledger data (called ++ [kv]) replied S (Function.update clients i (.insertWait kv)) := by
  have hkv : ∀ x ∈ data ++ called, x.key ≠ kv.key := by
    rw [← List.append_assoc, keys_append, List.nodup_append] at hfresh
    intro x hx
    exact hfresh.2.2 x.key (mem_keys_of_mem hx) kv.key (by simp)
  have hmono : ∀ x ∈ data ++ called, x ∈ data ++ (called ++ [kv]) := by
    intro x hx
    rw [← List.append_assoc]
    exact List.mem_append_left _ hx
  -- Only client `i` has a new pair to store.
  have hpending : ∀ j, ∀ x ∈ (Function.update clients i (.insertWait kv) j).pending,
      j = i ∧ x = kv ∨ j ≠ i ∧ x ∈ (clients j).pending := by
    intro j x hx
    obtain rfl | hj := eq_or_ne j i
    · rw [Function.update_self] at hx
      exact .inl ⟨rfl, List.mem_singleton.mp hx⟩
    · rw [Function.update_of_ne hj] at hx
      exact .inr ⟨hj, hx⟩
  refine ⟨hs.nodup, hs.built, hs.returned, fun j x hx => ?_, fun x hx => hmono x (hs.known x hx),
    fun j x hx => ?_, fun j k hjk x hx y hy => ?_⟩
  · obtain rfl | hj := eq_or_ne j i
    · rw [Function.update_self] at hx
      cases hx
    · rw [Function.update_of_ne hj] at hx
      exact hs.carried j x hx
  · obtain ⟨-, rfl⟩ | ⟨-, hx⟩ := hpending j x hx
    · exact ⟨by simp, fun y hy => hkv y (hs.known y hy)⟩
    · obtain ⟨hmem, hne⟩ := hs.pending j x hx
      exact ⟨hmono x hmem, hne⟩
  · obtain ⟨hj, hx'⟩ | ⟨-, hx'⟩ := hpending j x hx
    · obtain ⟨hk, -⟩ | ⟨-, hy'⟩ := hpending k y hy
      · exact (hjk (hj.trans hk.symm)).elim
      · rw [hx']
        exact (hkv y (hs.pending k y hy').1).symm
    · obtain ⟨-, hy'⟩ | ⟨-, hy'⟩ := hpending k y hy
      · rw [hy']
        exact hkv x (hs.pending j x hx').1
      · exact hs.distinct j k hjk x hx' y hy'

/-- A PGM takes the pair of an `Insert` over. -/
theorem Ledger.store (hs : Ledger data called replied S clients) {i : ι} {kv : KeyValue K}
    {rw : Side} (hpc : clients i = .insertPgm kv rw) :
    Ledger data called replied (kv ::ₘ S) (Function.update clients i (.insertTest kv)) := by
  have hmem : kv ∈ (clients i).pending := by
    rw [hpc]
    exact List.mem_singleton_self kv
  obtain ⟨hcalled, hfresh⟩ := hs.pending i kv hmem
  have hpending : ∀ j, ∀ x ∈ (Function.update clients i (.insertTest kv) j).pending,
      j ≠ i ∧ x ∈ (clients j).pending := by
    intro j x hx
    obtain rfl | hj := eq_or_ne j i
    · rw [Function.update_self] at hx
      cases hx
    · rw [Function.update_of_ne hj] at hx
      exact ⟨hj, hx⟩
  refine ⟨?_, fun x hx => Multiset.mem_cons_of_mem (hs.built x hx),
    fun x hx => Multiset.mem_cons_of_mem (hs.returned x hx), fun j x hx => ?_, fun x hx => ?_,
    fun j x hx => ?_, fun j k hjk x hx y hy => ?_⟩
  · rw [Multiset.map_cons, Multiset.nodup_cons]
    refine ⟨fun hk => ?_, hs.nodup⟩
    obtain ⟨y, hy, hyk⟩ := Multiset.mem_map.mp hk
    exact hfresh y hy hyk
  · obtain rfl | hj := eq_or_ne j i
    · rw [Function.update_self] at hx
      rw [List.mem_singleton.mp hx]
      exact Multiset.mem_cons_self _ _
    · rw [Function.update_of_ne hj] at hx
      exact Multiset.mem_cons_of_mem (hs.carried j x hx)
  · obtain rfl | hx := Multiset.mem_cons.mp hx
    · exact hcalled
    · exact hs.known x hx
  · obtain ⟨hj, hx'⟩ := hpending j x hx
    obtain ⟨hxc, hxf⟩ := hs.pending j x hx'
    refine ⟨hxc, fun y hy => ?_⟩
    obtain hy | hy := Multiset.mem_cons.mp hy
    · rw [hy]
      exact hs.distinct i j hj.symm kv hmem x hx'
    · exact hxf y hy
  · exact hs.distinct j k hjk x (hpending j x hx).2 y (hpending k y hy).2

theorem Ledger.step {ops : Ops K P L E} {s t : State ι K P L} {a : Action ι K}
    {acts : List (Action ι K)}
    (hs : Ledger data (inserted acts) (DoubleBuffer.returned acts) S s.clients)
    (hfresh : (keys (data ++ inserted (acts ++ [a]))).Nodup) (h : Step ops s a t) :
    Ledger data (inserted (acts ++ [a])) (DoubleBuffer.returned (acts ++ [a])) (storedBy s a + S)
      t.clients := by
  rw [inserted_concat] at hfresh ⊢
  rw [returned_concat]
  cases h with
  | call i call hpc =>
    cases call with
    | insert kv =>
      simp only [storedBy, Action.returned, List.append_nil, zero_add]
      exact hs.call hfresh
    | lookup key =>
      simp only [storedBy, Action.returned, Action.inserted, List.append_nil, zero_add]
      exact hs.move (by simp [Call.entry, ClientPc.pending]) (by simp [Call.entry, ClientPc.carried])
  | client i h =>
    simp only [Action.returned, Action.inserted, List.append_nil]
    obtain ⟨kv, rw, hpc, rfl⟩ | ⟨hnone, hpending, hcarried⟩ := h.pairs
    · simp only [storedBy, hpc, ClientPc.stored, Multiset.singleton_add]
      exact hs.store hpc
    · rw [storedBy, hnone, zero_add]
      exact hs.move hpending hcarried
  | ret i call reply hpc =>
    have hret : ∀ x ∈ (Action.ret i call reply).returned, x ∈ S := by
      intro x hx
      apply hs.carried i
      rw [hpc]
      cases call <;> exact hx
    simp only [storedBy, Action.inserted, List.append_nil, zero_add]
    have hpending : (ClientPc.idle : ClientPc K).pending ⊆ (s.clients i).pending := by
      simp [ClientPc.pending]
    have hcarried : (ClientPc.idle : ClientPc K).carried ⊆ (s.clients i).carried := by
      simp [ClientPc.carried]
    have hmove := hs.move hpending hcarried
    refine { hmove with returned := fun x hx => ?_ }
    exact (List.mem_append.mp hx).elim (hs.returned x) (hret x)
  | flush h => simpa [storedBy, Action.returned, Action.inserted] using hs

end Steps

end LearnedIndex.DoubleBuffer
