import LearnedIndex.Handover
import LearnedIndex.Hybrid.Conservation

/-! Which thread locks which mutex, and when a thread locks one that it holds already. -/

universe u v w x y

namespace LearnedIndex.Hybrid

open Util Transition

variable {ι : Type y} {K : Type u} {P : Type v} {L : Type w} {E : Type x}
  {pgmOps : PgmOps K P} {lippOps : LippOps K L E}

inductive Mutex
  | buffer
  | flush
  deriving DecidableEq

def State.owner (s : State ι K P L E) : Mutex → Option (Thread ι)
  | .buffer => s.bufferMutex
  | .flush => s.flushMutex

def FlushPc.locks : FlushPc K → Option Mutex
  | .lock => some .buffer
  | _ => none

def ClientPc.locks : ClientPc K → Option Mutex
  | .insertLock _ => some .buffer
  | .insertFlush _ pc => pc.locks
  | _ => none

def WorkerPc.locks : WorkerPc K → Option Mutex
  | .lockFlush | .waiting => some .flush
  | .flush pc => pc.locks
  | _ => none

def DestructorPc.locks : DestructorPc → Option Mutex
  | .lock => some .flush
  | _ => none

/-- The mutex that the thread's next step locks. -/
def State.locks (s : State ι K P L E) : Thread ι → Option Mutex
  | .client i => (s.clients i).locks
  | .worker => s.worker.locks
  | .destructor => s.destructor.locks

/-- The thread's next step locks a mutex that the thread holds already. -/
def SelfLocks (s : State ι K P L E) (thread : Thread ι) : Prop :=
  ∃ mutex, s.locks thread = some mutex ∧ s.owner mutex = some thread

@[grind]
def WorkerPc.holdsFlush : WorkerPc K → Bool
  | .predStop | .predSize | .testStop | .testEmpty | .unlockFlush => true
  | _ => false

@[grind]
def DestructorPc.holdsFlush : DestructorPc → Bool
  | .stop | .unlock => true
  | _ => false

/-- Each mutex is owned exactly by the thread that is between its lock and unlock, as long as
no client flushes. -/
structure Locking (s : State ι K P L E) : Prop where
  inline : ∀ i, (s.clients i).isInline = false
  client : ∀ i, (s.clients i).holdsBuffer = true ↔ s.bufferMutex = some (.client i)
  worker : s.worker.holdsBuffer = true ↔ s.bufferMutex = some .worker
  destructor : s.bufferMutex ≠ some .destructor
  workerFlush : s.worker.holdsFlush = true ↔ s.flushMutex = some .worker
  destructorFlush : s.destructor.holdsFlush = true ↔ s.flushMutex = some .destructor

theorem Locking.not_selfLocks {s : State ι K P L E} (hs : Locking s) (thread : Thread ι) :
    ¬SelfLocks s thread := by
  rintro ⟨mutex, hlocks, howner⟩
  cases thread with
  | client i =>
    have hinline := hs.inline i
    have hbuffer := hs.client i
    cases hpc : s.clients i with
    | insertLock kv => 
      simp only [State.locks, hpc, ClientPc.locks, Option.some.injEq] at hlocks
      subst hlocks
      rw [hpc] at hbuffer
      cases hbuffer.mpr howner
    | insertFlush kv pc => rw [hpc] at hinline; cases hinline
    | _ => simp [State.locks, hpc, ClientPc.locks] at hlocks
  | worker =>
    have hbuffer := hs.worker
    have hflush := hs.workerFlush
    cases hpc : s.worker with
    | lockFlush | waiting =>
      simp only [State.locks, hpc, WorkerPc.locks, Option.some.injEq] at hlocks
      subst hlocks
      rw [hpc] at hflush
      cases hflush.mpr howner
    | flush pc =>
      cases pc with
      | lock =>
        simp only [State.locks, hpc, WorkerPc.locks, FlushPc.locks, Option.some.injEq] at hlocks
        subst hlocks
        rw [hpc] at hbuffer
        cases hbuffer.mpr howner
      | _ => simp [State.locks, hpc, WorkerPc.locks, FlushPc.locks] at hlocks
    | _ => simp [State.locks, hpc, WorkerPc.locks] at hlocks
  | destructor =>
    have hflush := hs.destructorFlush
    cases hpc : s.destructor with
    | lock =>
      simp only [State.locks, hpc, DestructorPc.locks, Option.some.injEq] at hlocks
      subst hlocks
      rw [hpc] at hflush
      cases hflush.mpr howner
    | _ => simp [State.locks, hpc, DestructorPc.locks] at hlocks

/-- No client is about to flush on its own. -/
def NoInlineFlush (s : State ι K P L E) : Prop :=
  ∀ i kv, s.clients i = .insertTest kv → s.config.asyncFlush = false →
    ¬s.config.minFlushSize ≤ s.pgmSize

theorem WorkerStep.handover {s t : State ι K P L E} (hs : Locking s) (h : WorkerStep lippOps s t) :
    (t.clients = s.clients ∧ t.destructor = s.destructor) ∧
      Handover .worker s.bufferMutex s.worker.holdsBuffer t.bufferMutex t.worker.holdsBuffer ∧
      Handover .worker s.flushMutex s.worker.holdsFlush t.flushMutex t.worker.holdsFlush := by
  have hbuffer := hs.worker
  have hflush := hs.workerFlush
  cases h with
  | flush hpc h =>
    rw [hpc] at hbuffer ⊢
    cases h with
    | lock hfree => exact ⟨⟨rfl, rfl⟩, hfree ▸ .acquire _, .keep _ _⟩
    | empty | unlock => exact ⟨⟨rfl, rfl⟩, (hbuffer.mp rfl) ▸ .release _, .keep _ _⟩
    | _ => exact ⟨⟨rfl, rfl⟩, .keep _ _, .keep _ _⟩
  | lockFlush hpc hfree =>
    refine ⟨⟨rfl, rfl⟩, ?_, hfree ▸ .acquire _⟩
    obtain hpc | hpc := hpc <;> exact hpc ▸ .keep _ _
  | block hpc | exit hpc | unlockFlush hpc =>
    rw [hpc] at hflush ⊢
    exact ⟨⟨rfl, rfl⟩, .keep _ _, (hflush.mp rfl) ▸ .release _⟩
  | _ hpc =>
    rw [hpc]
    exact ⟨⟨rfl, rfl⟩, .keep _ _, .keep _ _⟩

theorem Locking.worker_step {s t : State ι K P L E} (hs : Locking s) (h : WorkerStep lippOps s t) :
    Locking t := by
  obtain ⟨⟨hclients, hdestructor⟩, hbuffer, hflush⟩ := h.handover hs
  constructor
  · rw [hclients]
    exact hs.inline
  · intro i
    rw [hclients, hbuffer.other_iff (by simp)]
    exact hs.client i
  · exact hbuffer.self_iff hs.worker
  · rw [Ne, hbuffer.other_iff (by simp)]
    exact hs.destructor
  · exact hflush.self_iff hs.workerFlush
  · rw [hdestructor, hflush.other_iff (by simp)]
    exact hs.destructorFlush

theorem DestructorStep.handover {s t : State ι K P L E} (hs : Locking s) (h : DestructorStep s t) :
    (t.clients = s.clients ∧ t.worker = s.worker ∧ t.bufferMutex = s.bufferMutex) ∧
      Handover .destructor s.flushMutex s.destructor.holdsFlush t.flushMutex
        t.destructor.holdsFlush := by
  have hflush := hs.destructorFlush
  cases h with
  | start hpc hidle hnext =>
    rw [hpc]
    obtain rfl | rfl := hnext <;> exact ⟨⟨rfl, rfl, rfl⟩, .keep _ _⟩
  | lock hpc hfree => exact ⟨⟨rfl, rfl, rfl⟩, hfree ▸ .acquire _⟩
  | unlock hpc =>
    rw [hpc] at hflush ⊢
    exact ⟨⟨rfl, rfl, rfl⟩, (hflush.mp rfl) ▸ .release _⟩
  | _ hpc =>
    rw [hpc]
    exact ⟨⟨rfl, rfl, rfl⟩, .keep _ _⟩

theorem Locking.destructor_step {s t : State ι K P L E} (hs : Locking s) (h : DestructorStep s t) :
    Locking t := by
  obtain ⟨⟨hclients, hworker, hmutex⟩, hflush⟩ := h.handover hs
  constructor
  · rw [hclients]
    exact hs.inline
  · rw [hclients, hmutex]
    exact hs.client
  · rw [hworker, hmutex]
    exact hs.worker
  · rw [hmutex]
    exact hs.destructor
  · rw [hworker, hflush.other_iff (by simp)]
    exact hs.workerFlush
  · exact hflush.self_iff hs.destructorFlush

variable [DecidableEq ι]

/-- A client's step when it does not start to flush. -/
structure ClientHandover (s t : State ι K P L E) (i : ι) : Prop where
  worker : t.worker = s.worker
  destructor : t.destructor = s.destructor
  flush : t.flushMutex = s.flushMutex
  others : ∀ j, j ≠ i → t.clients j = s.clients j
  inline : (t.clients i).isInline = false
  buffer : Handover (.client i) s.bufferMutex (s.clients i).holdsBuffer t.bufferMutex
    (t.clients i).holdsBuffer

theorem ClientHandover.of_setClient {s t : State ι K P L E} {i : ι} {pc : ClientPc K}
    (hworker : t.worker = s.worker) (hdestructor : t.destructor = s.destructor)
    (hflush : t.flushMutex = s.flushMutex) (hclients : t.clients = s.clients)
    (hinline : pc.isInline = false)
    (hbuffer : Handover (.client i) s.bufferMutex (s.clients i).holdsBuffer t.bufferMutex
      pc.holdsBuffer) : ClientHandover s (t.setClient i pc) i where
  worker := hworker
  destructor := hdestructor
  flush := hflush
  others j hj := by rw [setClient_clients, if_neg hj, hclients]
  inline := by rwa [setClient_clients, if_pos rfl]
  buffer := by rwa [setClient_clients, if_pos rfl]

theorem ClientStep.handover {s t : State ι K P L E} {i : ι} (hs : Locking s)
    (hno : NoInlineFlush s) (h : ClientStep pgmOps lippOps s i t) : ClientHandover s t i := by
  have hinline := hs.inline i
  have hbuffer := hs.client i
  cases h with
  | insertFlush hpc h => rw [hpc] at hinline; cases hinline
  | flushInline hpc hmin hsync => exact (hno i _ hpc hsync hmin).elim
  | buildAborted hpc h => exact ⟨rfl, rfl, rfl, fun _ _ => rfl, hinline, .keep _ _⟩
  | insertLock hpc hfree =>
    exact .of_setClient rfl rfl rfl rfl rfl (hfree ▸ .acquire _)
  | insertUnlock hpc =>
    rw [hpc] at hbuffer
    exact .of_setClient rfl rfl rfl rfl rfl ((hbuffer.mp rfl) ▸ .release _)
  | _ hpc => exact .of_setClient rfl rfl rfl rfl rfl (hpc ▸ .keep _ _)

theorem ClientHandover.locking {s t : State ι K P L E} {i : ι} (h : ClientHandover s t i)
    (hs : Locking s) : Locking t := by
  constructor
  · intro j
    by_cases hj : j = i
    · exact hj ▸ h.inline
    · rw [h.others j hj]
      exact hs.inline j
  · intro j
    by_cases hj : j = i
    · subst hj
      exact h.buffer.self_iff (hs.client j)
    · rw [h.others j hj, h.buffer.other_iff (by simpa using hj)]
      exact hs.client j
  · rw [h.worker, h.buffer.other_iff (by simp)]
    exact hs.worker
  · rw [Ne, h.buffer.other_iff (by simp)]
    exact hs.destructor
  · rw [h.worker, h.flush]
    exact hs.workerFlush
  · rw [h.destructor, h.flush]
    exact hs.destructorFlush

theorem Locking.step [Fintype ι] {s t : State ι K P L E} {a : Action ι K} (hs : Locking s)
    (hno : NoInlineFlush s) (h : Step pgmOps lippOps s a t) : Locking t := by
  cases h with
  | call i call hpc hd =>
    obtain ⟨hinline, hholds, -⟩ := call.entry_flags
    apply ClientHandover.locking _ hs
    · exact i
    · exact .of_setClient rfl rfl rfl rfl hinline (by rw [hpc, hholds]; exact .keep _ _)
  | client i h => exact (h.handover hs hno).locking hs
  | ret i call reply hpc =>
    apply ClientHandover.locking _ hs
    · exact i
    · exact .of_setClient rfl rfl rfl rfl rfl (by rw [hpc]; exact .keep _ _)
  | worker h => exact hs.worker_step h
  | destructor h => exact hs.destructor_step h

omit [DecidableEq ι] in
theorem locking_construct (config : Config) :
    Locking (construct pgmOps lippOps config : State ι K P L E) := by
  refine ⟨fun _ => rfl, fun _ => ?_, ?_, by simp [construct], ?_, ?_⟩
  · simp [construct, ClientPc.holdsBuffer]
  · cases h : config.asyncFlush <;> simp [construct, h, WorkerPc.holdsBuffer]
  · cases h : config.asyncFlush <;> simp [construct, h, WorkerPc.holdsFlush]
  · simp [construct, DestructorPc.holdsFlush]

/-- Called but not counted in `pgm_size` yet. -/
def ClientPc.uncountedCall : ClientPc K → Nat
  | .insertPgm _ | .insertLock _ | .insertPush _ | .insertCount _ => 1
  | _ => 0

variable [Fintype ι]

/-- After `called` calls of `Insert`, as long as there is no flush. -/
structure Unflushed (called : Nat) (s : State ι K P L E) : Prop where
  worker : s.worker = .absent
  counted : s.pgmSize.toNat + ∑ i, (s.clients i).uncountedCall ≤ called
  inserting : ∀ i, (s.clients i).isInserting = true → 0 < called

theorem Unflushed.move {called new : Nat} {s t : State ι K P L E} {i : ι} {pc : ClientPc K}
    (hs : Unflushed called s) (hworker : t.worker = s.worker)
    (hclients : ∀ j, t.clients j = if j = i then pc else s.clients j)
    (hcounted : t.pgmSize.toNat + pc.uncountedCall ≤
      s.pgmSize.toNat + (s.clients i).uncountedCall + new)
    (hinserting : pc.isInserting = true → (s.clients i).isInserting = true ∨ 0 < new) :
    Unflushed (called + new) t := by
  obtain ⟨hw, hc, hi⟩ := hs
  refine ⟨hworker.trans hw, ?_, fun j hj => ?_⟩
  · rw [sum_clients ClientPc.uncountedCall s i] at hc
    rw [sum_clients_move ClientPc.uncountedCall hclients]
    omega
  · rw [hclients] at hj
    split at hj
    · obtain h | h := hinserting hj
      · exact Nat.add_pos_left (hi i h) new
      · exact Nat.add_pos_right called h
    · exact Nat.add_pos_left (hi j hj) new

theorem Unflushed.client_step {called : Nat} {s t : State ι K P L E} {i : ι}
    (hs : Unflushed called s) (hlock : Locking s) (hno : NoInlineFlush s)
    (hcalled : called < 2 ^ 64) (h : ClientStep pgmOps lippOps s i t) : Unflushed called t := by
  have hle : s.pgmSize.toNat + ∑ j, (s.clients j).uncountedCall < 2 ^ 64 :=
    hs.counted.trans_lt hcalled
  have hinline := hlock.inline i
  have hsum := hs.counted
  rw [sum_clients ClientPc.uncountedCall s i] at hsum
  cases h with
  | insertFlush hpc h => rw [hpc] at hinline; cases hinline
  | flushInline hpc hmin hsync => exact (hno i _ hpc hsync hmin).elim
  | buildAborted hpc h => exact ⟨hs.worker, hs.counted, hs.inserting⟩
  | insertCount hpc =>
    change Unflushed (called + 0) _
    refine hs.move rfl (fun j => setClient_clients _ i j _) ?_ (fun _ => .inl ?_)
    · rw [hpc] at hsum ⊢
      simp only [ClientPc.uncountedCall, setClient_pgmSize] at hsum ⊢
      rw [UInt64.toNat_add, UInt64.toNat_one]
      omega
    · rw [hpc]
      rfl
  | _ hpc =>
    change Unflushed (called + 0) _
    refine hs.move rfl (fun j => setClient_clients _ i j _) ?_ (fun h => ?_)
    · rw [hpc]
      exact le_rfl
    · first
      | exact .inl (hpc ▸ rfl)
      | cases h

theorem Unflushed.step {called : Nat} {s t : State ι K P L E} {a : Action ι K}
    (hs : Unflushed called s) (hlock : Locking s) (hno : NoInlineFlush s) (hcalled : called < 2 ^ 64)
    (h : Step pgmOps lippOps s a t) : Unflushed (called + a.inserted.length) t := by
  have hworker := hs.worker
  cases h with
  | call i call hpc hd =>
    refine hs.move rfl (fun j => setClient_clients _ i j _) ?_ (fun h => .inr ?_)
    · rw [hpc]
      cases call <;> exact Nat.le_refl _
    · cases call with
      | insert => exact Nat.one_pos
      | _ => cases h
  | client i h => exact hs.client_step hlock hno hcalled h
  | ret i call reply hpc =>
    change Unflushed (called + 0) _
    refine hs.move rfl (fun j => setClient_clients _ i j _) ?_ (fun h => ?_)
    · rw [hpc]
      exact le_rfl
    · cases h
  | worker h =>
    cases h with
    | lockFlush hpc h => obtain hpc | hpc := hpc <;> rw [hworker] at hpc <;> cases hpc
    | _ hpc => rw [hworker] at hpc; cases hpc
  | destructor h =>
    obtain ⟨hw, hc, hi⟩ := hs
    cases h <;> exact ⟨hw, hc, hi⟩

/-- The number of `Insert` calls that `pgm_size` needs to reach its threshold. -/
def Config.threshold (config : Config) : Nat := max 1 config.minFlushSize.toNat

omit [DecidableEq ι] in
theorem Unflushed.noInlineFlush {called : Nat} {s : State ι K P L E} (hs : Unflushed called s)
    (hcalled : called < s.config.threshold) : NoInlineFlush s := by
  intro i kv hpc hsync hmin
  have hpos : 0 < called := hs.inserting i (hpc ▸ rfl)
  have hcounted := hs.counted
  rw [UInt64.le_iff_toNat_le] at hmin
  rw [Config.threshold] at hcalled
  omega

theorem Config.threshold_lt (config : Config) : config.threshold < 2 ^ 64 := by
  have hlt := config.minFlushSize.toNat_lt
  rw [threshold]
  omega

variable [DecidableEq K]

/-- Nothing is flushed by a client: the worker does it, or there are too few calls. -/
structure Unthreatened (config : Config) (called : Nat) (s : State ι K P L E) : Prop where
  locking : Locking s
  config_eq : s.config = config
  unflushed : config.asyncFlush = true ∨ Unflushed called s

omit [DecidableEq ι] [DecidableEq K] in
theorem Unthreatened.noInlineFlush {config : Config} {called : Nat} {s : State ι K P L E}
    (hs : Unthreatened config called s)
    (h : config.asyncFlush = true ∨ called < config.threshold) : NoInlineFlush s := by
  obtain ⟨-, hconfig, hcases⟩ := hs
  subst hconfig
  cases hasync : s.config.asyncFlush with
  | true =>
    intro i kv hpc hsync
    rw [hasync] at hsync
    cases hsync
  | false =>
    simp only [hasync, Bool.false_eq_true, false_or] at h hcases
    exact hcases.noInlineFlush h

omit [DecidableEq K] in
theorem Unthreatened.step {config : Config} {called : Nat} {s t : State ι K P L E}
    {a : Action ι K} (hs : Unthreatened config called s)
    (h : config.asyncFlush = true ∨ called < config.threshold) (hstep : Step pgmOps lippOps s a t) :
    Unthreatened config (called + a.inserted.length) t := by
  have hno := hs.noInlineFlush h
  obtain ⟨hlock, hconfig, hcases⟩ := hs
  refine ⟨hlock.step hno hstep, (config_step hstep).trans hconfig, ?_⟩
  obtain hasync | hunflushed := hcases
  · exact .inl hasync
  · obtain hasync | hcalled := h
    · exact .inl hasync
    · exact .inr (hunflushed.step hlock hno (hcalled.trans config.threshold_lt) hstep)

omit [DecidableEq ι] [DecidableEq K] in
theorem unthreatened_construct (config : Config) :
    Unthreatened config 0 (construct pgmOps lippOps config : State ι K P L E) := by
  refine ⟨locking_construct config, rfl, ?_⟩
  cases hasync : config.asyncFlush with
  | true => exact .inl rfl
  | false =>
    refine .inr ⟨by simp [construct, hasync], ?_, fun _ h => by cases h⟩
    simp [construct, ClientPc.uncountedCall]

theorem unthreatened_of_run {config : Config} {acts : List (Action ι K)} {s : State ι K P L E}
    (h : config.asyncFlush = true ∨ (inserted acts).length < config.threshold)
    (hrun : run (step pgmOps lippOps) (construct pgmOps lippOps config) acts = some s) :
    Unthreatened config (inserted acts).length s := by
  refine run_induction (P := fun bs r => Unthreatened config (inserted bs).length r)
    (unthreatened_construct config) ?_ hrun
  intro bs r a r' hbs hr hP hstep
  have hle : (inserted bs).length ≤ (inserted acts).length :=
    (inserted_mono ((List.prefix_append bs [a]).trans hbs)).length_le
  rw [inserted_append, inserted_singleton, List.length_append]
  exact hP.step (h.imp_right hle.trans_lt) (.of_step hstep)

/-- Where a client is that has reached the threshold and is to flush. -/
def FlushDue (s : State ι K P L E) (i : ι) (kv : KeyValue K) : Prop :=
  s.clients i = .insertTest kv ∧ s.config.asyncFlush = false ∧ s.config.minFlushSize ≤ s.pgmSize

/-- The client flushes and returns, with `buffer_mutex` free and the items it cut in LIPP. -/
def FlushCompletes (pgmOps : PgmOps K P) (lippOps : LippOps K L E) (s : State ι K P L E) (i : ι)
    (kv : KeyValue K) : Prop :=
  ∃ n t, run (step pgmOps lippOps) s (List.replicate n (.client i)) = some t ∧
    t.clients i = .finished (.insert kv) .done ∧ t.bufferMutex = none ∧
    (s.buffer.take (min (size s.buffer) s.config.maxFlushSize).toNat).foldlM lippOps.insert
      s.lipp = .returns t.lipp

/-- In every run that makes these `Insert` calls, or some of them, no thread locks itself out
and every flush that is due completes. -/
def NeverLocksOut (ι : Type y) [DecidableEq ι] [Fintype ι] (pgmOps : PgmOps K P)
    (lippOps : LippOps K L E) (config : Config) (kvs : List (KeyValue K)) : Prop :=
  ∀ (acts : List (Action ι K)) (s : State ι K P L E), inserted acts <+: kvs →
    run (step pgmOps lippOps) (construct pgmOps lippOps config) acts = some s →
    (∀ thread, ¬SelfLocks s thread) ∧
      ∀ i kv, FlushDue s i kv → FlushCompletes pgmOps lippOps s i kv

/-- Between two calls in a run of one client without flushes. -/
structure Resting (config : Config) (called : Nat) (s : State ι K P L E) (i : ι) : Prop where
  config_eq : s.config = config
  idle : s.clients i = .idle
  alive : s.destructor = .alive
  running : s.failed = none
  free : s.bufferMutex = none
  pgmSize : s.pgmSize = UInt64.ofNat called

/-- One `Insert` call by the client up to the test of `pgm_size`. -/
def insertUpToTest (i : ι) (kv : KeyValue K) : List (Action ι K) :=
  [.call i (.insert kv), .client i, .client i, .client i, .client i]

variable (pgmOps lippOps) in
theorem Resting.run_insertUpToTest {config : Config} {called : Nat} {s : State ι K P L E} {i : ι}
    (hs : Resting config called s i) (kv : KeyValue K) :
    ∃ t, run (step pgmOps lippOps) s (insertUpToTest i kv) = some t ∧
      t.config = config ∧ t.clients i = .insertTest kv ∧ t.destructor = .alive ∧
      t.failed = none ∧ t.bufferMutex = some (.client i) ∧
      t.pgmSize = UInt64.ofNat (called + 1) := by
  obtain ⟨hconfig, hidle, halive, hrunning, hfree, hsize⟩ := hs
  simp [insertUpToTest, step, clientStep, hconfig, hidle, halive, hrunning, hfree, hsize,
    ClientPc.isIdle, Call.entry, UInt64.ofNat_add]

/-- From the test of `pgm_size` below the threshold to the return of the call. -/
def returnFromTest (i : ι) (kv : KeyValue K) : List (Action ι K) :=
  [.client i, .client i, .ret i (.insert kv) .done]

variable (pgmOps lippOps) in
theorem Resting.run_insert {config : Config} {called : Nat} {s : State ι K P L E} {i : ι}
    (hs : Resting config called s i) (hcalled : called + 1 < config.minFlushSize.toNat)
    (kv : KeyValue K) :
    ∃ t, run (step pgmOps lippOps) s (insertUpToTest i kv ++ returnFromTest i kv) = some t ∧
      Resting config (called + 1) t i := by
  obtain ⟨t, hrun, hconfig, hpc, halive, hrunning, hmutex, hsize⟩ :=
    hs.run_insertUpToTest pgmOps lippOps kv
  have hbelow : ¬t.config.minFlushSize ≤ t.pgmSize := by
    have hlt : called + 1 < 2 ^ 64 := hcalled.trans config.minFlushSize.toNat_lt
    rw [hconfig, hsize, UInt64.le_iff_toNat_le, UInt64.toNat_ofNat_of_lt' hlt]
    exact hcalled.not_ge
  obtain ⟨t', hreturn, hrest⟩ :
      ∃ t', run (step pgmOps lippOps) t (returnFromTest i kv) = some t' ∧ t'.config = t.config ∧
        t'.clients i = .idle ∧ t'.destructor = .alive ∧ t'.failed = none ∧ t'.bufferMutex = none ∧
        t'.pgmSize = t.pgmSize := by
    simp [returnFromTest, step, clientStep, hpc, halive, hrunning, hbelow]
  obtain ⟨hconfig', hidle, halive', hrunning', hfree, hsize'⟩ := hrest
  refine ⟨t', run_append_eq_some.mpr ⟨t, hrun, hreturn⟩, ?_⟩
  exact ⟨hconfig'.trans hconfig, hidle, halive', hrunning', hfree, hsize'.trans hsize⟩

variable (pgmOps lippOps) in
/-- Calls that stay below the threshold return one after the other. -/
theorem resting_of_inserts (config : Config) (i : ι) (kvs : List (KeyValue K))
    (hkvs : kvs.length < config.minFlushSize.toNat ∨ kvs = []) :
    ∃ (acts : List (Action ι K)) (t : State ι K P L E), inserted acts = kvs ∧
      run (step pgmOps lippOps) (construct pgmOps lippOps config) acts = some t ∧
      Resting config kvs.length t i := by
  induction kvs using List.reverseRecOn with
  | nil => exact ⟨[], _, rfl, rfl, rfl, rfl, rfl, rfl, rfl, rfl⟩
  | append_singleton kvs kv ih =>
    have hlt : kvs.length + 1 < config.minFlushSize.toNat := by simpa using hkvs
    obtain ⟨acts, t, hinserted, hrun, hrest⟩ := ih (.inl (by omega))
    obtain ⟨t', hrun', hrest'⟩ :=
      hrest.run_insert pgmOps lippOps hlt kv
    refine ⟨acts ++ (insertUpToTest i kv ++ returnFromTest i kv), t', ?_, ?_, ?_⟩
    · rw [inserted_append, hinserted]
      rfl
    · exact run_append_eq_some.mpr ⟨t, hrun, hrun'⟩
    · rwa [List.length_append]

variable (pgmOps lippOps) in
/-- The call that reaches the threshold locks `buffer_mutex` again inside `flush_buffer`. -/
theorem selfLocks_of_threshold {config : Config} (hsync : config.asyncFlush = false) (i : ι)
    {kvs : List (KeyValue K)} (hkvs : kvs.length = config.threshold) :
    ∃ (acts : List (Action ι K)) (t : State ι K P L E), inserted acts = kvs ∧
      run (step pgmOps lippOps) (construct pgmOps lippOps config) acts = some t ∧
      SelfLocks t (.client i) := by
  induction kvs using List.reverseRecOn with
  | nil =>
    rw [List.length_nil, Config.threshold] at hkvs
    omega
  | append_singleton kvs kv _ =>
    have hlength : kvs.length + 1 = config.threshold := by simpa using hkvs
    obtain ⟨acts, s, hinserted, hrun, hrest⟩ :=
      resting_of_inserts pgmOps lippOps config i kvs (by
        cases kvs with
        | nil => exact .inr rfl
        | cons =>
          rw [List.length_cons, Config.threshold] at hlength
          rw [List.length_cons]
          exact .inl (by omega))
    obtain ⟨t, hrun', hconfig, hpc, halive, hrunning, hmutex, hsize⟩ :=
      hrest.run_insertUpToTest pgmOps lippOps kv
    have hreached : t.config.minFlushSize ≤ t.pgmSize := by
      have hlt : kvs.length + 1 < 2 ^ 64 := hlength ▸ config.threshold_lt
      rw [hconfig, hsize, UInt64.le_iff_toNat_le, UInt64.toNat_ofNat_of_lt' hlt, hlength]
      exact le_max_right _ _
    refine ⟨acts ++ (insertUpToTest i kv ++ [.client i]), t.setClient i (.insertFlush kv .lock),
      ?_, ?_, .buffer, ?_, ?_⟩
    · rw [inserted_append, hinserted]
      rfl
    · refine run_append_eq_some.mpr ⟨s, hrun, run_append_eq_some.mpr ⟨t, hrun', ?_⟩⟩
      rw [hconfig] at hreached
      simp [step, clientStep, hpc, hrunning, hreached, hconfig, hsync]
    · simp [State.locks, ClientPc.locks, FlushPc.locks]
    · simp [State.owner, hmutex]

/-- No thread locks itself out if the worker flushes, or if there are too few calls for a
flush. -/
theorem insert_never_locks_itself_out_iff [Inhabited ι] (pgmOps : PgmOps K P)
    (lippOps : LippOps K L E) (params : List Int) (kvs : List (KeyValue K)) :
    NeverLocksOut ι pgmOps lippOps (.ofParams params) kvs ↔
      (Config.ofParams params).asyncFlush = true ∨
        kvs.length < max 1 (Config.ofParams params).minFlushSize.toNat := by
  constructor
  · intro h
    by_contra hcond
    obtain ⟨hasync, hlength⟩ := not_or.mp hcond
    have hsync : (Config.ofParams params).asyncFlush = false := Bool.eq_false_iff.mpr hasync
    have htake : (kvs.take (Config.ofParams params).threshold).length =
        (Config.ofParams params).threshold := by
      rw [List.length_take, Config.threshold]
      exact min_eq_left (not_lt.mp hlength)
    obtain ⟨acts, t, hinserted, hrun, hself⟩ :=
      selfLocks_of_threshold pgmOps lippOps hsync (default : ι) htake
    exact (h acts t (hinserted ▸ List.take_prefix _ _) hrun).1 _ hself
  · intro h acts s hacts hrun
    have hcond : (Config.ofParams params).asyncFlush = true ∨
        (inserted acts).length < (Config.ofParams params).threshold :=
      h.imp_right hacts.length_le.trans_lt
    have hs := unthreatened_of_run hcond hrun
    refine ⟨hs.locking.not_selfLocks, ?_⟩
    rintro i kv ⟨hpc, hsync, hmin⟩
    exact (hs.noInlineFlush hcond i kv hpc hsync hmin).elim

/-- One `Insert` without a flush thread and with `min_flush_size` 1. -/
theorem insert_locks_itself_out :
    ¬NeverLocksOut Unit AbstractMap.pgmOps AbstractMap.lippOps (.ofParams [128, 5, 1, 100, 0])
      [⟨(1 : Nat), 10⟩] := by
  intro h
  have hlocked := h [.call () (.insert ⟨1, 10⟩), .client (), .client (), .client (), .client (),
    .client ()] _ (List.prefix_refl _) rfl
  exact hlocked.1 (.client ()) ⟨.buffer, rfl, rfl⟩

end LearnedIndex.Hybrid
