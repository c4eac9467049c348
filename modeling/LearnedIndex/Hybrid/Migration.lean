import LearnedIndex.Hybrid.Deadlock
import LearnedIndex.Hybrid.Lookup
import Mathlib.Algebra.Order.BigOperators.Group.Finset

/-! Where the inserted pairs are stored between two flushes, against `pgm_size`. -/

universe u v w x y

namespace LearnedIndex.Hybrid

open Util Transition

variable {ι : Type y} {K : Type u} {P : Type v} {L : Type w} {E : Type x}

/-- A batch has been cut off the buffer and is not in LIPP yet. -/
def WorkerPc.inFlight : WorkerPc K → Bool
  | .flush (.shrink _ _) | .flush (.unlock _) | .flush (.drain (_ :: _)) => true
  | _ => false

theorem WorkerPc.batch_of_inFlight {pc : WorkerPc K} (h : pc.inFlight = false) :
    pc.batch = [] ∧ pc.unshrunk = 0 := by
  cases pc with
  | flush pc =>
    cases pc with
    | shrink | unlock => cases h
    | drain items =>
      cases items with
      | nil => exact ⟨rfl, rfl⟩
      | cons => cases h
    | _ => exact ⟨rfl, rfl⟩
  | _ => exact ⟨rfl, rfl⟩

/-- The number of pairs given to `pgm.Insert` but not counted in `pgm_size` yet. -/
def ClientPc.unsettled : ClientPc K → Nat
  | .insertLock _ | .insertPush _ | .insertCount _ => 1
  | _ => 0

theorem ClientPc.unsettled_eq (pc : ClientPc K) :
    UInt64.ofNat pc.unsettled = UInt64.ofNat pc.unqueued.card + pc.uncounted := by
  cases pc <;> rfl

theorem ClientPc.unsettled_le_one (pc : ClientPc K) : pc.unsettled ≤ 1 := by
  cases pc <;> simp [unsettled]

theorem ClientPc.uncounted_of_not_holdsBuffer {pc : ClientPc K} (h : pc.holdsBuffer = false) :
    pc.uncounted = 0 := by
  cases pc with
  | insertCount => cases h
  | _ => rfl

variable [Fintype ι]

/-- `pgm_size` misses exactly the items that have been pushed but not counted. -/
theorem Sound.pgmSize_add {s : State ι K P L E} (hs : Sound s) (hlock : Locking s)
    (hshrunk : s.worker.unshrunk = 0) :
    s.pgmSize + ∑ i, (s.clients i).uncounted = size s.buffer := by
  have hnone : ∀ i, s.bufferMutex ≠ some (.client i) → (s.clients i).uncounted = 0 := by
    intro i hi
    apply ClientPc.uncounted_of_not_holdsBuffer
    exact Bool.eq_false_iff.mpr (hi ∘ (hs.clientOwns i).mp)
  cases hmutex : s.bufferMutex with
  | none =>
    rw [Finset.sum_eq_zero fun i _ => hnone i (by simp [hmutex]), add_zero]
    exact hs.free hmutex
  | some thread =>
    cases thread with
    | client i =>
      rw [Finset.sum_eq_single i]
      · exact hs.clientCounts i hmutex
      · intro j _ hj
        exact hnone j (by simp [hmutex, Ne.symm hj])
      · exact fun h => (h (Finset.mem_univ i)).elim
    | worker =>
      rw [Finset.sum_eq_zero fun i _ => hnone i (by simp [hmutex]), add_zero,
        hs.workerCounts hmutex, hshrunk, add_zero]
    | destructor => exact (hlock.destructor hmutex).elim

/-- `size_t` counts additively. -/
def countHom : ℕ →+ UInt64 where
  toFun := UInt64.ofNat
  map_zero' := rfl
  map_add' _ _ := UInt64.ofNat_add _ _

theorem sum_unsettled (s : State ι K P L E) :
    UInt64.ofNat (∑ i, (s.clients i).unsettled) =
      UInt64.ofNat (∑ i, (s.clients i).unqueued).card + ∑ i, (s.clients i).uncounted := by
  have hcard : (∑ i, (s.clients i).unqueued).card = ∑ i, (s.clients i).unqueued.card :=
    map_sum Multiset.cardHom _ _
  rw [hcard]
  calc UInt64.ofNat (∑ i, (s.clients i).unsettled)
      = ∑ i, UInt64.ofNat (s.clients i).unsettled := map_sum countHom _ _
    _ = ∑ i, UInt64.ofNat (s.clients i).unqueued.card + ∑ i, (s.clients i).uncounted := by
      rw [← Finset.sum_add_distrib]
      exact Finset.sum_congr rfl fun i _ => (s.clients i).unsettled_eq
    _ = UInt64.ofNat (∑ i, (s.clients i).unqueued.card) + ∑ i, (s.clients i).uncounted :=
      congrArg (· + _) (map_sum countHom _ _).symm

variable [DecidableEq ι] [LinearOrder K] {pgmOps : PgmOps K P} {lippOps : LippOps K L E}
  {PInv : P → Prop} {pairs : P → Multiset (KeyValue K)}
  {LInv : L → Prop} {stored : L → Multiset (KeyValue K)}
  {data : List (KeyValue K)} {s₀ s : State ι K P L E} {acts : List (Action ι K)}

theorem Built.locking {config : Config} (hasync : config.asyncFlush = true)
    (hbuilt : Built pgmOps lippOps config data s₀)
    (hrun : run (step pgmOps lippOps) s₀ acts = some s) : Locking s := by
  obtain ⟨boot, i, body, -, -, hboot⟩ := hbuilt
  exact (unthreatened_of_run (.inl hasync) (run_append_eq_some.mpr ⟨s₀, hboot, hrun⟩)).locking

omit [DecidableEq ι] [LinearOrder K] in
/-- The pairs in the PGM are those that wait for a flush, those already flushed, and those not
counted yet. -/
theorem card_stored {called stored queued passed : List (KeyValue K)}
    (hs : Sound s) (hlock : Locking s) (hledger : Ledger called stored queued passed s)
    (hflight : s.worker.inFlight = false) :
    UInt64.ofNat stored.length =
      UInt64.ofNat passed.length + s.pgmSize + UInt64.ofNat (∑ i, (s.clients i).unsettled) := by
  obtain ⟨hbatch, hshrunk⟩ := WorkerPc.batch_of_inFlight hflight
  have hqueued : queued.length = passed.length + s.buffer.length := by
    rw [hledger.queued_eq, hbatch, List.append_nil, List.length_append]
  have hstored : stored.length = queued.length + (∑ i, (s.clients i).unqueued).card := by
    rw [← Multiset.coe_card, hledger.stored_eq, Multiset.card_add, Multiset.coe_card]
  have hsize : UInt64.ofNat s.buffer.length = s.pgmSize + ∑ i, (s.clients i).uncounted :=
    (hs.pgmSize_add hlock hshrunk).symm
  rw [hstored, hqueued, UInt64.ofNat_add, UInt64.ofNat_add, hsize, sum_unsettled]
  ac_rfl

/-- Every inserted pair is in one of the two indexes, and `pgm_size` is the size of the PGM. -/
structure Migrated (pairs : P → Multiset (KeyValue K)) (stored : L → Multiset (KeyValue K))
    (acts : List (Action ι K)) (s : State ι K P L E) : Prop where
  once : ∀ kv ∈ inserted acts, ¬(kv ∈ pairs s.pgm ∧ kv ∈ stored s.lipp)
  somewhere : ∀ kv ∈ returned acts, kv ∈ pairs s.pgm ∨ kv ∈ stored s.lipp
  counted : UInt64.ofNat (pairs s.pgm).card = s.pgmSize

/-- Migration is a move only as long as no item has been flushed, since nothing is ever taken out
of the PGM. -/
theorem migration_moves_iff (hpl : pgmOps.Lawful PInv pairs) (hll : lippOps.Lawful LInv stored)
    {config : Config} (hasync : config.asyncFlush = true) (hthreads : Fintype.card ι ≤ 2 ^ 32)
    (hdata : (keys data).Pairwise (· < ·)) (hbuilt : Built pgmOps lippOps config data s₀)
    (hacts : ∀ a ∈ acts, a.isBuild = false) (hfresh : (keys (data ++ inserted acts)).Nodup)
    (hrun : run (step pgmOps lippOps) s₀ acts = some s) (hok : s.failed = none)
    (hflight : s.worker.inFlight = false) :
    Migrated pairs stored acts s ↔
      passedIn pgmOps lippOps s₀ acts = [] ∧ ∀ i, (s.clients i).unsettled = 0 := by
  have h₀ := hbuilt.fresh hasync
  obtain ⟨hsound, hledger⟩ := h₀.run_ledger hacts hrun
  obtain ⟨-, hpairs⟩ := h₀.pgm_contents hpl hacts hfresh hrun
  obtain ⟨-, hstored⟩ := h₀.lipp_contents hll hacts hdata hfresh hrun hok
  have hcard := card_stored hsound (hbuilt.locking hasync hrun) hledger hflight
  rw [← Multiset.coe_card, ← hpairs] at hcard
  constructor
  · rintro ⟨honce, -, hcounted⟩
    have hpassed : passedIn pgmOps lippOps s₀ acts = [] := by
      apply List.eq_nil_iff_forall_not_mem.mpr
      intro kv hkv
      apply honce kv (Multiset.mem_of_le hledger.passed_le_called hkv)
      rw [hpairs, hstored]
      exact ⟨Multiset.mem_of_le hledger.passed_le_stored hkv, List.mem_append_right _ hkv⟩
    refine ⟨hpassed, ?_⟩
    have hzero : UInt64.ofNat (∑ i, (s.clients i).unsettled) = 0 := by
      rw [hpassed, hcounted] at hcard
      simpa using hcard
    have hbound : ∑ i, (s.clients i).unsettled ≤ 2 ^ 32 := by
      refine le_trans (Finset.sum_le_card_nsmul _ _ 1 fun i _ => (s.clients i).unsettled_le_one) ?_
      simpa using hthreads
    have hsum : ∑ i, (s.clients i).unsettled = 0 := by
      rw [← UInt64.toNat_ofNat_of_lt' (hbound.trans_lt (by decide)), hzero]
      rfl
    exact fun i => Finset.sum_eq_zero_iff.mp hsum i (Finset.mem_univ i)
  · rintro ⟨hpassed, hsettled⟩
    constructor
    · rintro kv - ⟨hpgm, hlipp⟩
      rw [hpairs] at hpgm
      rw [hstored, hpassed, List.append_nil] at hlipp
      rw [keys_append, List.nodup_append] at hfresh
      exact hfresh.2.2 kv.key (mem_keys_of_mem hlipp) kv.key
        (mem_keys_of_mem (Multiset.mem_of_le hledger.stored_le_called hpgm)) rfl
    · intro kv hkv
      rw [hpairs]
      exact .inl (h₀.returned_stored hacts hrun kv hkv)
    · rw [hcard, hpassed, Finset.sum_eq_zero fun i _ => hsettled i]
      exact (add_zero _).trans (zero_add _)

/-- An `Insert` call without a flush. -/
theorem migration_moves_unflushed :
    ∃ s₀ s : State Unit Nat (List (KeyValue Nat)) (List (KeyValue Nat)) Empty,
      Built AbstractMap.pgmOps AbstractMap.lippOps {} [⟨1, 10⟩] s₀ ∧
        run (step AbstractMap.pgmOps AbstractMap.lippOps) s₀ insertTwo = some s ∧
        Migrated (Multiset.ofList ·) (Multiset.ofList ·) insertTwo s :=
  ⟨_, _, ⟨[], (), [.client (), .client (), .client ()], by simp, by simp [Action.isCall], rfl⟩, rfl,
    (migration_moves_iff AbstractMap.pgmOps_lawful AbstractMap.lippOps_lawful
    (show ({} : Config).asyncFlush = true from rfl) (by decide)
    (show (keys [(⟨1, 10⟩ : KeyValue Nat)]).Pairwise (· < ·) by decide)
    ⟨[], (), [.client (), .client (), .client ()], by simp, by simp [Action.isCall], rfl⟩
    (by decide) (by decide) rfl rfl rfl).mpr ⟨rfl, fun _ => rfl⟩⟩

/-- An inserted pair that the worker has flushed is still in the PGM. -/
theorem migration_keeps_flushed :
    ∃ s₀ s : State Unit Nat (List (KeyValue Nat)) (List (KeyValue Nat)) Empty,
      Built AbstractMap.pgmOps AbstractMap.lippOps { minFlushSize := 1 } [⟨1, 10⟩] s₀ ∧
        run (step AbstractMap.pgmOps AbstractMap.lippOps) s₀
          (insertTwo ++ List.replicate 11 .worker) = some s ∧
        s.worker.inFlight = false ∧
        ¬Migrated (Multiset.ofList ·) (Multiset.ofList ·)
          (insertTwo ++ List.replicate 11 .worker) s := by
  refine ⟨_, _,
    ⟨[], (), [.client (), .client (), .client ()], by simp, by simp [Action.isCall], rfl⟩, rfl, rfl,
    fun h => ?_⟩
  exact h.once ⟨2, 20⟩ (by decide) ⟨by decide, by decide⟩

end LearnedIndex.Hybrid
