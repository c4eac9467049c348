import LearnedIndex.Hybrid.Invariants
import Mathlib.Algebra.BigOperators.Group.Finset.Basic

/-! Where every inserted item is: called but not yet in the PGM, in the PGM but not yet
queued, in the buffer, in the batch being flushed, or passed to LIPP. -/

universe u v w x y

namespace LearnedIndex.Hybrid

open Util Transition

variable {ι : Type y} {K : Type u} {P : Type v} {L : Type w} {E : Type x}
  {pgmOps : PgmOps K P} {lippOps : LippOps K L E}

/-- The items the call has taken over but not yet given to `pgm.Insert`. -/
@[grind]
def ClientPc.unstored : ClientPc K → Multiset (KeyValue K)
  | .insertPgm kv => {kv}
  | _ => 0

/-- The items given to `pgm.Insert` but not yet queued in the buffer. -/
@[grind]
def ClientPc.unqueued : ClientPc K → Multiset (KeyValue K)
  | .insertLock kv | .insertPush kv => {kv}
  | _ => 0

/-- The rest of `items_to_flush`. -/
@[grind]
def FlushPc.batch : FlushPc K → List (KeyValue K)
  | .lock | .cut => []
  | .shrink items _ | .unlock items | .drain items => items

@[grind]
def WorkerPc.batch : WorkerPc K → List (KeyValue K)
  | .flush pc => pc.batch
  | _ => []

@[grind]
def Action.inserted : Action ι K → List (KeyValue K)
  | .call _ (.insert kv) => [kv]
  | _ => []

@[grind]
def Action.returned : Action ι K → List (KeyValue K)
  | .ret _ (.insert kv) _ => [kv]
  | _ => []

/-- The items of the `Insert` calls made, in call order. -/
def inserted (acts : List (Action ι K)) : List (KeyValue K) := acts.flatMap Action.inserted

/-- The items of the `Insert` calls that have returned. -/
def returned (acts : List (Action ι K)) : List (KeyValue K) := acts.flatMap Action.returned

/-- The item this step gives to `pgm.Insert`. -/
@[grind]
def storedBy (s : State ι K P L E) : Action ι K → List (KeyValue K)
  | .client i => match s.clients i with
    | .insertPgm kv => [kv]
    | _ => []
  | _ => []

/-- The item this step queues in the buffer. -/
@[grind]
def queuedBy (s : State ι K P L E) : Action ι K → List (KeyValue K)
  | .client i => match s.clients i with
    | .insertPush kv => [kv]
    | _ => []
  | _ => []

/-- The item this step passes to `lipp.Insert`. -/
@[grind]
def passedBy (s : State ι K P L E) : Action ι K → List (KeyValue K)
  | .worker => match s.worker with
    | .flush (.drain (item :: _)) => [item]
    | _ => []
  | _ => []

variable [Fintype ι]

structure Ledger (called stored queued passed : List (KeyValue K)) (s : State ι K P L E) :
    Prop where
  called_eq : (called : Multiset (KeyValue K)) = stored + ∑ i, (s.clients i).unstored
  stored_eq : (stored : Multiset (KeyValue K)) = queued + ∑ i, (s.clients i).unqueued
  queued_eq : queued = passed ++ s.worker.batch ++ s.buffer

theorem Ledger.worker_step {called stored queued passed : List (KeyValue K)}
    {s t : State ι K P L E} (hs : Ledger called stored queued passed s)
    (h : WorkerStep lippOps s t) :
    Ledger called stored queued (passed ++ passedBy s (.worker : Action ι K)) t := by
  obtain ⟨hc, hst, hq⟩ := hs
  cases h with
  | flush hpc h =>
    cases h with
    | _ =>
      refine ⟨hc, hst, ?_⟩
      simp [hq, hpc, passedBy, WorkerPc.batch, FlushPc.batch]
  | lockFlush hpc h =>
    refine ⟨hc, hst, ?_⟩
    obtain hpc | hpc := hpc <;> simp [hq, hpc, passedBy, WorkerPc.batch]
  | _ hpc =>
    refine ⟨hc, hst, ?_⟩
    simp [hq, hpc, passedBy, WorkerPc.batch, FlushPc.batch]

variable [DecidableEq ι]

theorem sum_clients {M : Type*} [AddCommMonoid M] (f : ClientPc K → M) (s : State ι K P L E)
    (i : ι) : ∑ j, f (s.clients j) = f (s.clients i) + ∑ j ∈ Finset.univ.erase i, f (s.clients j) :=
  (Finset.add_sum_erase _ (fun j => f (s.clients j)) (Finset.mem_univ i)).symm

/-- The same after client `i` has gone on to `pc`. -/
theorem sum_clients_move {M : Type*} [AddCommMonoid M] (f : ClientPc K → M)
    {s t : State ι K P L E} {i : ι} {pc : ClientPc K}
    (hclients : ∀ j, t.clients j = if j = i then pc else s.clients j) :
    ∑ j, f (t.clients j) = f pc + ∑ j ∈ Finset.univ.erase i, f (s.clients j) := by
  rw [sum_clients f t i, hclients, if_pos rfl]
  congr 1
  apply Finset.sum_congr rfl
  intro j hj
  rw [hclients, if_neg (Finset.ne_of_mem_erase hj)]

/-- Client `i` goes on to `pc`, which takes over `new`, stores `st` and queues `q`. -/
theorem Ledger.move {called stored queued passed new st q : List (KeyValue K)}
    {s t : State ι K P L E} {i : ι} (hs : Ledger called stored queued passed s) (pc : ClientPc K)
    (hclients : ∀ j, t.clients j = if j = i then pc else s.clients j)
    (hworker : t.worker = s.worker) (hbuffer : t.buffer = s.buffer ++ q)
    (hst : (new : Multiset (KeyValue K)) + (s.clients i).unstored = st + pc.unstored)
    (hq : (st : Multiset (KeyValue K)) + (s.clients i).unqueued = q + pc.unqueued) :
    Ledger (called ++ new) (stored ++ st) (queued ++ q) passed t := by
  constructor
  · calc
      ((called ++ new : List (KeyValue K)) : Multiset (KeyValue K))
          = stored + (new + (s.clients i).unstored)
            + ∑ j ∈ Finset.univ.erase i, (s.clients j).unstored := by
        rw [← Multiset.coe_add, hs.called_eq, sum_clients ClientPc.unstored s i]
        ac_rfl
      _ = (stored ++ st : List (KeyValue K)) + ∑ j, (t.clients j).unstored := by
        rw [hst, sum_clients_move ClientPc.unstored hclients, ← Multiset.coe_add]
        ac_rfl
  · calc
      ((stored ++ st : List (KeyValue K)) : Multiset (KeyValue K))
          = queued + (st + (s.clients i).unqueued)
            + ∑ j ∈ Finset.univ.erase i, (s.clients j).unqueued := by
        rw [← Multiset.coe_add, hs.stored_eq, sum_clients ClientPc.unqueued s i]
        ac_rfl
      _ = (queued ++ q : List (KeyValue K)) + ∑ j, (t.clients j).unqueued := by
        rw [hq, sum_clients_move ClientPc.unqueued hclients, ← Multiset.coe_add]
        ac_rfl
  · rw [hs.queued_eq, hworker, hbuffer]
    simp

theorem Ledger.client_step {called stored queued passed : List (KeyValue K)}
    {s t : State ι K P L E} {i : ι} (hs : Ledger called stored queued passed s) (h0 : Sound s)
    (h : ClientStep pgmOps lippOps s i t) :
    Ledger called (stored ++ storedBy s (.client i)) (queued ++ queuedBy s (.client i)) passed
      t := by
  have hb := h0.building i
  rw [← List.append_nil called]
  cases h with
  | insertFlush hpc h => exact (h0.not_inline hpc).elim
  | buildClear hpc | buildPgm hpc | built hpc | buildAborted hpc => rw [hpc] at hb; cases hb
  | _ hpc =>
    refine hs.move _ (fun j => setClient_clients _ i j _) rfl ?_ ?_ ?_ <;>
      simp [storedBy, queuedBy, hpc, ClientPc.unstored, ClientPc.unqueued]

theorem Ledger.step {called stored queued passed : List (KeyValue K)}
    {s t : State ι K P L E} {a : Action ι K} (hs : Ledger called stored queued passed s)
    (h0 : Sound s) (ha : a.isBuild = false) (h : Step pgmOps lippOps s a t) :
    Ledger (called ++ a.inserted) (stored ++ storedBy s a) (queued ++ queuedBy s a)
      (passed ++ passedBy s a) t := by
  cases h with
  | call i call hpc hd =>
    simp only [storedBy, queuedBy, passedBy]
    rw [List.append_nil passed]
    refine hs.move call.entry (fun j => setClient_clients _ i j _) rfl ?_ ?_ ?_ <;>
      cases call <;> simp_all [Action.inserted, Call.entry, ClientPc.unstored, ClientPc.unqueued]
  | client i h => simpa [Action.inserted, passedBy] using hs.client_step h0 h
  | ret i call reply hpc =>
    simp only [Action.inserted, storedBy, queuedBy, passedBy]
    rw [List.append_nil passed]
    refine hs.move .idle (fun j => setClient_clients _ i j _) rfl ?_ ?_ ?_ <;>
      simp [hpc, ClientPc.unstored, ClientPc.unqueued]
  | worker h => simpa [Action.inserted, storedBy, queuedBy] using hs.worker_step h
  | destructor h =>
    obtain ⟨hc, hst, hq⟩ := hs
    simp only [Action.inserted, storedBy, queuedBy, passedBy, List.append_nil]
    cases h <;> exact ⟨hc, hst, hq⟩

end LearnedIndex.Hybrid
