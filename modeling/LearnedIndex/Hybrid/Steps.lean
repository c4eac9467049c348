import LearnedIndex.Hybrid.Machine

/-! What one step of the machine can do, branch by branch, with the guard of each. -/

universe u v w x y

namespace LearnedIndex.Hybrid

open Util

variable {ι : Type y} {K : Type u} {P : Type v} {L : Type w} {E : Type x}
  {pgmOps : PgmOps K P} {lippOps : LippOps K L E}

inductive Flush (lippOps : LippOps K L E) (self : Thread ι) (s : State ι K P L E) :
    FlushPc K → State ι K P L E → Option (FlushPc K) → Prop
  | lock (h : s.bufferMutex = none) :
      Flush lippOps self s .lock { s with bufferMutex := some self } (some .cut)
  | empty (h : s.buffer = []) : Flush lippOps self s .cut { s with bufferMutex := none } none
  | cut (h : s.buffer ≠ []) (flushSize : UInt64) (hle : flushSize ≤ size s.buffer) :
      Flush lippOps self s .cut { s with buffer := s.buffer.drop flushSize.toNat }
        (some (.shrink (s.buffer.take flushSize.toNat) flushSize))
  | shrink (items : List (KeyValue K)) (flushSize : UInt64) :
      Flush lippOps self s (.shrink items flushSize)
        { s with pgmSize := s.pgmSize - flushSize } (some (.unlock items))
  | unlock (items : List (KeyValue K)) :
      Flush lippOps self s (.unlock items) { s with bufferMutex := none } (some (.drain items))
  | returned : Flush lippOps self s (.drain []) s none
  | inserted (item : KeyValue K) (items : List (KeyValue K)) (lipp : L)
      (h : lippOps.insert s.lipp item = .returns lipp) :
      Flush lippOps self s (.drain (item :: items)) { s with lipp := lipp } (some (.drain items))
  | aborted (item : KeyValue K) (items : List (KeyValue K)) (e : E)
      (h : lippOps.insert s.lipp item = .exits e) :
      Flush lippOps self s (.drain (item :: items)) { s with failed := some e }
        (some (.drain items))

theorem min_le_size (s : State ι K P L E) :
    min (size s.buffer) s.config.maxFlushSize ≤ size s.buffer := by
  rw [UInt64.le_iff_toNat_le]
  simp only [min, UInt64.le_iff_toNat_le]
  split <;> omega

theorem Flush.of_flushBuffer {self : Thread ι} {s t : State ι K P L E} {pc : FlushPc K}
    {pc' : Option (FlushPc K)} (h : flushBuffer lippOps self s pc = some (t, pc')) :
    Flush lippOps self s pc t pc' := by
  cases pc with
  | lock =>
    simp only [flushBuffer] at h
    split at h
    · cases h; exact .lock ‹_›
    · cases h
  | cut =>
    simp only [flushBuffer] at h
    split at h
    · cases h; exact .empty (by simpa using ‹s.buffer.isEmpty = true›)
    · cases h; exact .cut (by simpa using ‹¬ s.buffer.isEmpty = true›) _ (min_le_size s)
  | shrink items n => cases h; exact .shrink items n
  | unlock items => cases h; exact .unlock items
  | drain items =>
    cases items with
    | nil => cases h; exact .returned
    | cons item items =>
      simp only [flushBuffer] at h
      split at h
      · cases h; exact .inserted item items _ ‹_›
      · cases h; exact .aborted item items _ ‹_›
      · cases h

inductive WorkerStep (lippOps : LippOps K L E) (s : State ι K P L E) : State ι K P L E → Prop
  | lockFlush (hpc : s.worker = .lockFlush ∨ s.worker = .waiting) (h : s.flushMutex = none) :
      WorkerStep lippOps s { s with flushMutex := some .worker, worker := .predStop }
  | stopSeen (hpc : s.worker = .predStop) (h : s.shouldStop = true) :
      WorkerStep lippOps s { s with worker := .testStop }
  | stopUnseen (hpc : s.worker = .predStop) (h : s.shouldStop = false) :
      WorkerStep lippOps s { s with worker := .predSize }
  | filled (hpc : s.worker = .predSize) (h : s.config.minFlushSize ≤ s.pgmSize) :
      WorkerStep lippOps s { s with worker := .testStop }
  | block (hpc : s.worker = .predSize) (h : ¬ s.config.minFlushSize ≤ s.pgmSize) :
      WorkerStep lippOps s { s with flushMutex := none, worker := .waiting }
  | stopping (hpc : s.worker = .testStop) (h : s.shouldStop = true) :
      WorkerStep lippOps s { s with worker := .testEmpty }
  | running (hpc : s.worker = .testStop) (h : s.shouldStop = false) :
      WorkerStep lippOps s { s with worker := .unlockFlush }
  | exit (hpc : s.worker = .testEmpty) (h : s.buffer = []) :
      WorkerStep lippOps s { s with flushMutex := none, worker := .exited }
  | drainFirst (hpc : s.worker = .testEmpty) (h : s.buffer ≠ []) :
      WorkerStep lippOps s { s with worker := .unlockFlush }
  | unlockFlush (hpc : s.worker = .unlockFlush) :
      WorkerStep lippOps s { s with flushMutex := none, worker := .flush .lock }
  | flush {pc : FlushPc K} {t : State ι K P L E} {pc' : Option (FlushPc K)}
      (hpc : s.worker = .flush pc) (h : Flush lippOps .worker s pc t pc') :
      WorkerStep lippOps s { t with worker := pc'.elim .lockFlush .flush }

theorem WorkerStep.of_workerStep {s t : State ι K P L E} (h : workerStep lippOps s = some t) :
    WorkerStep lippOps s t := by
  cases hpc : s.worker with
  | absent => simp [workerStep, hpc] at h
  | lockFlush =>
    simp only [workerStep, hpc] at h
    split at h
    · cases h; exact .lockFlush (.inl hpc) ‹_›
    · cases h
  | predStop =>
    simp only [workerStep, hpc] at h
    split at h
    · cases h; exact .stopSeen hpc ‹_›
    · cases h; exact .stopUnseen hpc (by simpa using ‹¬ s.shouldStop = true›)
  | predSize =>
    simp only [workerStep, hpc] at h
    split at h
    · cases h; exact .filled hpc ‹_›
    · cases h; exact .block hpc ‹_›
  | waiting =>
    simp only [workerStep, hpc] at h
    split at h
    · cases h; exact .lockFlush (.inr hpc) ‹_›
    · cases h
  | testStop =>
    simp only [workerStep, hpc] at h
    split at h
    · cases h; exact .stopping hpc ‹_›
    · cases h; exact .running hpc (by simpa using ‹¬ s.shouldStop = true›)
  | testEmpty =>
    simp only [workerStep, hpc] at h
    split at h
    · cases h; exact .exit hpc (by simpa using ‹s.buffer.isEmpty = true›)
    · cases h; exact .drainFirst hpc (by simpa using ‹¬ s.buffer.isEmpty = true›)
  | unlockFlush => simp only [workerStep, hpc] at h; cases h; exact .unlockFlush hpc
  | flush pc =>
    simp only [workerStep, hpc, Option.map_eq_some_iff] at h
    obtain ⟨⟨r, pc'⟩, hr, rfl⟩ := h
    exact .flush hpc (.of_flushBuffer hr)
  | exited => simp [workerStep, hpc] at h

inductive DestructorStep (s : State ι K P L E) : State ι K P L E → Prop
  | start (hpc : s.destructor = .alive) (h : ∀ i, s.clients i = .idle) {pc : DestructorPc}
      (hnext : pc = .lock ∨ pc = .done) : DestructorStep s { s with destructor := pc }
  | lock (hpc : s.destructor = .lock) (h : s.flushMutex = none) :
      DestructorStep s { s with flushMutex := some .destructor, destructor := .stop }
  | stop (hpc : s.destructor = .stop) :
      DestructorStep s { s with shouldStop := true, destructor := .unlock }
  | unlock (hpc : s.destructor = .unlock) :
      DestructorStep s { s with flushMutex := none, destructor := .join }
  | join (hpc : s.destructor = .join) (h : s.worker = .exited) :
      DestructorStep s { s with destructor := .done }

theorem DestructorStep.of_destructorStep [Fintype ι] {s t : State ι K P L E}
    (h : destructorStep s = some t) : DestructorStep s t := by
  cases hpc : s.destructor with
  | alive =>
    simp only [destructorStep, hpc] at h
    split at h
    · rename_i hidle
      cases h
      refine .start hpc (fun i => ClientPc.isIdle_iff.mp (hidle i)) ?_
      split
      · exact .inl rfl
      · exact .inr rfl
    · cases h
  | lock =>
    simp only [destructorStep, hpc] at h
    split at h
    · cases h; exact .lock hpc ‹_›
    · cases h
  | stop => simp only [destructorStep, hpc] at h; cases h; exact .stop hpc
  | unlock => simp only [destructorStep, hpc] at h; cases h; exact .unlock hpc
  | join =>
    simp only [destructorStep, hpc] at h
    split at h
    · cases h; exact .join hpc ‹_›
    · cases h
  | done => simp [destructorStep, hpc] at h

/-- A worker step leaves the PGM and the clients alone. -/
theorem WorkerStep.frame {s t : State ι K P L E} (h : WorkerStep lippOps s t) :
    t.pgm = s.pgm ∧ t.clients = s.clients := by
  cases h with
  | flush hpc h => cases h <;> exact ⟨rfl, rfl⟩
  | _ => exact ⟨rfl, rfl⟩

theorem DestructorStep.frame {s t : State ι K P L E} (h : DestructorStep s t) :
    t.pgm = s.pgm ∧ t.clients = s.clients := by
  cases h <;> exact ⟨rfl, rfl⟩

theorem Flush.frame {s t : State ι K P L E} {self : Thread ι} {pc : FlushPc K}
    {pc' : Option (FlushPc K)} (h : Flush lippOps self s pc t pc') : t.pgm = s.pgm ∧ t.clients = s.clients := by
  cases h <;> exact ⟨rfl, rfl⟩

variable [DecidableEq ι]

inductive ClientStep (pgmOps : PgmOps K P) (lippOps : LippOps K L E) (s : State ι K P L E)
    (i : ι) : State ι K P L E → Prop
  | buildClear {data} (hpc : s.clients i = .buildClear data) :
      ClientStep pgmOps lippOps s i ({ s with buffer := [] }.setClient i (.buildPgm data))
  | buildPgm {data} (hpc : s.clients i = .buildPgm data) :
      ClientStep pgmOps lippOps s i ({ s with pgm := pgmOps.empty }.setClient i (.buildLipp data))
  | built {data lipp} (hpc : s.clients i = .buildLipp data)
      (h : lippOps.build s.lipp data = .returns lipp) :
      ClientStep pgmOps lippOps s i
        ({ s with lipp := lipp }.setClient i (.finished (.build data) .done))
  | buildAborted {data e} (hpc : s.clients i = .buildLipp data)
      (h : lippOps.build s.lipp data = .exits e) :
      ClientStep pgmOps lippOps s i { s with failed := some e }
  | insertPgm {kv} (hpc : s.clients i = .insertPgm kv) :
      ClientStep pgmOps lippOps s i
        ({ s with pgm := pgmOps.insert s.pgm kv }.setClient i (.insertLock kv))
  | insertLock {kv} (hpc : s.clients i = .insertLock kv) (h : s.bufferMutex = none) :
      ClientStep pgmOps lippOps s i
        ({ s with bufferMutex := some (.client i) }.setClient i (.insertPush kv))
  | insertPush {kv} (hpc : s.clients i = .insertPush kv) :
      ClientStep pgmOps lippOps s i
        ({ s with buffer := s.buffer ++ [kv] }.setClient i (.insertCount kv))
  | insertCount {kv} (hpc : s.clients i = .insertCount kv) :
      ClientStep pgmOps lippOps s i
        ({ s with pgmSize := s.pgmSize + 1 }.setClient i (.insertTest kv))
  | flushInline {kv} (hpc : s.clients i = .insertTest kv)
      (hmin : s.config.minFlushSize ≤ s.pgmSize) (hsync : s.config.asyncFlush = false) :
      ClientStep pgmOps lippOps s i (s.setClient i (.insertFlush kv .lock))
  | insertTested {kv} (hpc : s.clients i = .insertTest kv) :
      ClientStep pgmOps lippOps s i (s.setClient i (.insertUnlock kv))
  | insertFlush {kv pc} {t : State ι K P L E} {pc' : Option (FlushPc K)}
      (hpc : s.clients i = .insertFlush kv pc) (h : Flush lippOps (.client i) s pc t pc') :
      ClientStep pgmOps lippOps s i (t.setClient i (pc'.elim (.insertUnlock kv) (.insertFlush kv)))
  | insertUnlock {kv} (hpc : s.clients i = .insertUnlock kv) :
      ClientStep pgmOps lippOps s i
        ({ s with bufferMutex := none }.setClient i (.finished (.insert kv) .done))
  | lippMiss {key} (hpc : s.clients i = .lookupLipp key)
      (h : lippOps.equalityLookup s.lipp key = notFound) :
      ClientStep pgmOps lippOps s i (s.setClient i (.lookupPgm key))
  | lippHit {key} (hpc : s.clients i = .lookupLipp key)
      (h : lippOps.equalityLookup s.lipp key ≠ notFound) :
      ClientStep pgmOps lippOps s i
        (s.setClient i (.finished (.lookup key) (.value (lippOps.equalityLookup s.lipp key))))
  | lookupPgm {key} (hpc : s.clients i = .lookupPgm key) :
      ClientStep pgmOps lippOps s i
        (s.setClient i (.finished (.lookup key) (.value (pgmOps.equalityLookup s.pgm key))))
  | rangePgm {lo hi} (hpc : s.clients i = .rangePgm lo hi) :
      ClientStep pgmOps lippOps s i
        (s.setClient i (.finished (.range lo hi) (.value (pgmOps.rangeQuery s.pgm lo hi))))

theorem ClientStep.of_clientStep {s t : State ι K P L E} {i : ι}
    (h : clientStep pgmOps lippOps s i = some t) : ClientStep pgmOps lippOps s i t := by
  cases hpc : s.clients i with
  | idle => simp [clientStep, hpc] at h
  | buildClear data => simp only [clientStep, hpc] at h; cases h; exact .buildClear hpc
  | buildPgm data => simp only [clientStep, hpc] at h; cases h; exact .buildPgm hpc
  | buildLipp data =>
    simp only [clientStep, hpc] at h
    split at h
    · cases h; exact .built hpc ‹_›
    · cases h; exact .buildAborted hpc ‹_›
    · cases h
  | insertPgm kv => simp only [clientStep, hpc] at h; cases h; exact .insertPgm hpc
  | insertLock kv =>
    simp only [clientStep, hpc] at h
    split at h
    · cases h; exact .insertLock hpc ‹_›
    · cases h
  | insertPush kv => simp only [clientStep, hpc] at h; cases h; exact .insertPush hpc
  | insertCount kv => simp only [clientStep, hpc] at h; cases h; exact .insertCount hpc
  | insertTest kv =>
    simp only [clientStep, hpc] at h
    split at h
    · rename_i hc; cases h; exact .flushInline hpc hc.1 hc.2
    · cases h; exact .insertTested hpc
  | insertFlush kv pc =>
    simp only [clientStep, hpc, Option.map_eq_some_iff] at h
    obtain ⟨⟨r, pc'⟩, hr, rfl⟩ := h
    exact .insertFlush hpc (.of_flushBuffer hr)
  | insertUnlock kv => simp only [clientStep, hpc] at h; cases h; exact .insertUnlock hpc
  | lookupLipp key =>
    simp only [clientStep, hpc] at h
    split at h
    · cases h; exact .lippMiss hpc ‹_›
    · cases h; exact .lippHit hpc ‹_›
  | lookupPgm key => simp only [clientStep, hpc] at h; cases h; exact .lookupPgm hpc
  | rangePgm lo hi => simp only [clientStep, hpc] at h; cases h; exact .rangePgm hpc
  | finished call reply => simp [clientStep, hpc] at h

theorem ClientStep.worker_eq {s t : State ι K P L E} {i : ι}
    (h : ClientStep pgmOps lippOps s i t) : t.worker = s.worker := by
  cases h with
  | insertFlush hpc h => cases h <;> rfl
  | _ => rfl

variable [Fintype ι]

inductive Step (pgmOps : PgmOps K P) (lippOps : LippOps K L E) (s : State ι K P L E) :
    Action ι K → State ι K P L E → Prop
  | call (i : ι) (call : Call K) (hpc : s.clients i = .idle) (h : s.destructor = .alive) :
      Step pgmOps lippOps s (.call i call) (s.setClient i call.entry)
  | client (i : ι) {t : State ι K P L E} (h : ClientStep pgmOps lippOps s i t) :
      Step pgmOps lippOps s (.client i) t
  | ret (i : ι) (call : Call K) (reply : Reply) (hpc : s.clients i = .finished call reply) :
      Step pgmOps lippOps s (.ret i call reply) (s.setClient i .idle)
  | worker {t : State ι K P L E} (h : WorkerStep lippOps s t) :
      Step pgmOps lippOps s .worker t
  | destructor {t : State ι K P L E} (h : DestructorStep s t) :
      Step pgmOps lippOps s .destructor t

theorem Step.of_step [DecidableEq K] {s t : State ι K P L E} {a : Action ι K}
    (h : step pgmOps lippOps s a = some t) : Step pgmOps lippOps s a t := by
  unfold step at h
  split at h
  · cases h
  · cases a with
    | call i call =>
      simp only at h
      split at h
      · rename_i hidle
        split at h
        · cases h; exact .call i call (ClientPc.isIdle_iff.mp hidle) ‹_›
        · cases h
      · cases h
    | client i => exact .client i (.of_clientStep h)
    | ret i call reply =>
      simp only at h
      split at h
      · rename_i call' reply' hpc
        split at h
        · rename_i heq
          obtain ⟨rfl, rfl⟩ := heq
          cases h
          exact .ret i call reply hpc
        · cases h
      · cases h
    | worker => exact .worker (.of_workerStep h)
    | destructor => exact .destructor (.of_destructorStep h)

omit [Fintype ι] in
theorem config_step {s t : State ι K P L E} {a : Action ι K}
    (h : Step pgmOps lippOps s a t) : t.config = s.config := by
  cases h with
  | client i h =>
    cases h with
    | insertFlush hpc h => cases h <;> rfl
    | _ => rfl
  | worker h =>
    cases h with
    | flush hpc h => cases h <;> rfl
    | _ => rfl
  | destructor h => cases h <;> rfl
  | _ => rfl

theorem not_failed_of_step [DecidableEq K] {s t : State ι K P L E} {a : Action ι K}
    (h : step pgmOps lippOps s a = some t) : s.failed = none := by
  unfold step at h
  split at h
  · cases h
  · simpa using ‹¬ s.failed.isSome = true›

theorem config_of_run [DecidableEq K] {s t : State ι K P L E} {acts : List (Action ι K)}
    (h : Transition.run (step pgmOps lippOps) s acts = some t) : t.config = s.config := by
  refine Transition.run_induction (P := fun _ r => r.config = s.config) rfl ?_ h
  exact fun _ r a r' _ _ hr hs => (config_step (.of_step hs)).trans hr

end LearnedIndex.Hybrid
