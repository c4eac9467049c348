import LearnedIndex.Hybrid.Steps

/-! Invariants of an asynchronous hybrid index: who owns `buffer_mutex`, what `pgm_size`
counts, and what the destructor's stop request implies. -/

universe u v w x y

namespace LearnedIndex.Hybrid

open Util

variable {ι : Type y} {K : Type u} {P : Type v} {L : Type w} {E : Type x}
  {pgmOps : PgmOps K P} {lippOps : LippOps K L E}

@[grind]
def ClientPc.holdsBuffer : ClientPc K → Bool
  | .insertPush _ | .insertCount _ | .insertTest _ | .insertUnlock _ => true
  | _ => false

@[grind]
def ClientPc.isInline : ClientPc K → Bool
  | .insertFlush _ _ => true
  | _ => false

@[grind]
def ClientPc.isBuilding : ClientPc K → Bool
  | .buildClear _ | .buildPgm _ | .buildLipp _ => true
  | _ => false

@[grind]
def Action.isBuild : Action ι K → Bool
  | .call _ (.build _) => true
  | _ => false

@[grind]
def WorkerPc.holdsBuffer : WorkerPc K → Bool
  | .flush .cut | .flush (.shrink _ _) | .flush (.unlock _) => true
  | _ => false

/-- `flush_buffer` is never run by a client, and `buffer_mutex` is owned exactly by the
thread that is between its lock and unlock. -/
structure Owned (s : State ι K P L E) : Prop where
  async : s.config.asyncFlush = true
  inline : ∀ i, (s.clients i).isInline = false
  clientOwns : ∀ i, (s.clients i).holdsBuffer = true ↔ s.bufferMutex = some (.client i)
  workerOwns : s.worker.holdsBuffer = true ↔ s.bufferMutex = some .worker

theorem Owned.not_inline {s : State ι K P L E} (hs : Owned s) {i : ι} {kv : KeyValue K}
    {pc : FlushPc K} (hpc : s.clients i = .insertFlush kv pc) : False := by
  have := hs.inline i
  rw [hpc] at this
  cases this

theorem Owned.congr {s t : State ι K P L E} (hs : Owned s)
    (hconfig : t.config = s.config) (hclients : t.clients = s.clients)
    (hworker : t.worker.holdsBuffer = s.worker.holdsBuffer)
    (hmutex : t.bufferMutex = s.bufferMutex) : Owned t := by
  obtain ⟨ha, hi, hc, hw⟩ := hs
  refine ⟨?_, ?_, ?_, ?_⟩
  · rwa [hconfig]
  · rwa [hclients]
  · rwa [hclients, hmutex]
  · rwa [hworker, hmutex]

/-- The worker takes the free `buffer_mutex`, or gives it back. -/
theorem Owned.worker_mutex {s t : State ι K P L E} {self : Option (Thread ι)} (hs : Owned s)
    (hconfig : t.config = s.config) (hclients : t.clients = s.clients)
    (hold : s.bufferMutex = none ∨ s.bufferMutex = some .worker)
    (hnew : self = none ∨ self = some .worker) (hmutex : t.bufferMutex = self)
    (hworker : t.worker.holdsBuffer = true ↔ self = some .worker) : Owned t := by
  obtain ⟨ha, hi, hc, hw⟩ := hs
  refine ⟨?_, ?_, fun i => ?_, ?_⟩
  · rwa [hconfig]
  · rwa [hclients]
  · rw [hclients, hmutex, hc i]
    obtain hold | hold := hold <;> obtain hnew | hnew := hnew <;> simp [hold, hnew]
  · rwa [hmutex]

theorem Owned.worker_step {s t : State ι K P L E} (hs : Owned s) (h : WorkerStep lippOps s t) :
    Owned t := by
  cases h with
  | flush hpc h =>
    have hown := hs.workerOwns
    rw [hpc] at hown
    cases h with
    | lock hfree =>
      exact hs.worker_mutex rfl rfl (.inl hfree) (.inr rfl) rfl (by simp [WorkerPc.holdsBuffer])
    | empty | unlock =>
      exact hs.worker_mutex rfl rfl (.inr (hown.mp rfl)) (.inl rfl) rfl
        (by simp [WorkerPc.holdsBuffer])
    | _ => exact hs.congr rfl rfl (by rw [hpc]; rfl) rfl
  | lockFlush hpc h =>
    refine hs.congr rfl rfl ?_ rfl
    obtain hpc | hpc := hpc <;> rw [hpc] <;> rfl
  | _ hpc => exact hs.congr rfl rfl (by rw [hpc]; rfl) rfl

/-- Pushed by this client but not counted in `pgm_size` yet. -/
@[grind]
def ClientPc.uncounted : ClientPc K → UInt64
  | .insertCount _ => 1
  | _ => 0

/-- Cut off the buffer by the worker but still counted in `pgm_size`. -/
@[grind]
def WorkerPc.unshrunk : WorkerPc K → UInt64
  | .flush (.shrink _ flushSize) => flushSize
  | _ => 0

@[grind →]
theorem WorkerPc.unshrunk_eq_zero {pc : WorkerPc K} (h : pc.holdsBuffer = false) :
    pc.unshrunk = 0 := by
  fun_cases WorkerPc.unshrunk pc with
  | case1 items n => cases h
  | case2 => rfl

/-- `pgm_size` is `buffer.size()`, up to what the owner of `buffer_mutex` still has to
add or subtract; the subtraction does not underflow. -/
structure Counted (s : State ι K P L E) : Prop where
  free : s.bufferMutex = none → s.pgmSize = size s.buffer
  clientCounts : ∀ i, s.bufferMutex = some (.client i) →
    s.pgmSize + (s.clients i).uncounted = size s.buffer
  workerCounts : s.bufferMutex = some .worker → s.pgmSize = size s.buffer + s.worker.unshrunk
  covered : s.worker.unshrunk ≤ s.pgmSize

/-- Nothing is inserted once the destructor has started, and the worker leaves its loop
only with an empty buffer. -/
structure Stopping (s : State ι K P L E) : Prop where
  quiet : s.destructor ≠ .alive → ∀ i, s.clients i = .idle
  stopped : s.shouldStop = true → s.destructor ≠ .alive
  testing : s.worker = .testEmpty → s.shouldStop = true
  exited : s.worker = .exited → s.shouldStop = true ∧ s.buffer = []

theorem Counted.congr {s t : State ι K P L E} (hs : Counted s)
    (hclients : t.clients = s.clients) (hbuffer : t.buffer = s.buffer)
    (hpgm : t.pgmSize = s.pgmSize) (hworker : t.worker.unshrunk = s.worker.unshrunk)
    (hmutex : t.bufferMutex = s.bufferMutex) : Counted t := by
  obtain ⟨hf, hcl, hwo, hcov⟩ := hs
  refine ⟨?_, ?_, ?_, ?_⟩
  · rwa [hmutex, hpgm, hbuffer]
  · rwa [hmutex, hpgm, hbuffer, hclients]
  · rwa [hmutex, hpgm, hbuffer, hworker]
  · rwa [hpgm, hworker]

/-- Nothing is outstanding while the worker takes or gives back `buffer_mutex`. -/
theorem Counted.worker_mutex {s t : State ι K P L E} (hs : Counted s)
    (hbuffer : t.buffer = s.buffer) (hpgm : t.pgmSize = s.pgmSize)
    (hold : s.bufferMutex = none ∨ s.bufferMutex = some .worker ∧ s.worker.unshrunk = 0)
    (hmutex : ∀ i, t.bufferMutex ≠ some (.client i)) (hworker : t.worker.unshrunk = 0) :
    Counted t := by
  have hsize : t.pgmSize = size t.buffer := by
    rw [hpgm, hbuffer]
    obtain hold | ⟨hold, hzero⟩ := hold
    · exact hs.free hold
    · simpa [hzero] using hs.workerCounts hold
  refine ⟨fun _ => hsize, fun i hi => (hmutex i hi).elim, fun _ => ?_, ?_⟩
  · simpa [hworker] using hsize
  · simp [hworker]

theorem Counted.worker_step {s t : State ι K P L E} (ho : Owned s) (hs : Counted s)
    (h : WorkerStep lippOps s t) : Counted t := by
  cases h with
  | flush hpc h =>
    have hown := ho.workerOwns
    have hcount := hs.workerCounts
    rw [hpc] at hown hcount
    cases h with
    | lock hfree => exact hs.worker_mutex rfl rfl (.inl hfree) (by simp) rfl
    | empty | unlock =>
      exact hs.worker_mutex rfl rfl (.inr ⟨hown.mp rfl, by rw [hpc]; rfl⟩) (by simp) rfl
    | cut hne n hle =>
      have hmutex := hown.mp rfl
      have hsize : s.pgmSize = size s.buffer := by simpa [WorkerPc.unshrunk] using hcount hmutex
      refine ⟨?_, ?_, fun _ => ?_, ?_⟩
      · simp [hmutex]
      · simp [hmutex]
      · simpa [WorkerPc.unshrunk, size_drop s.buffer n hle] using hsize
      · simpa [WorkerPc.unshrunk, hsize] using hle
    | shrink items n =>
      have hmutex := hown.mp rfl
      have hsize : s.pgmSize = size s.buffer + n := hcount hmutex
      refine ⟨?_, ?_, fun _ => ?_, ?_⟩
      · simp [hmutex]
      · simp [hmutex]
      · simp [WorkerPc.unshrunk, hsize]
      · simp [WorkerPc.unshrunk]
    | _ => exact hs.congr rfl rfl rfl (by rw [hpc]; rfl) rfl
  | lockFlush hpc h =>
    refine hs.congr rfl rfl rfl ?_ rfl
    obtain hpc | hpc := hpc <;> rw [hpc] <;> rfl
  | _ hpc => exact hs.congr rfl rfl rfl (by rw [hpc]; rfl) rfl

theorem Stopping.worker_step {s t : State ι K P L E} (hs : Stopping s)
    (h : WorkerStep lippOps s t) : Stopping t := by
  obtain ⟨hq, hst, ht, he⟩ := hs
  cases h with
  | flush hpc h => cases h <;> exact ⟨hq, hst, by simp, by simp⟩
  | stopping hpc h => exact ⟨hq, hst, fun _ => h, by simp⟩
  | exit hpc h => exact ⟨hq, hst, by simp, fun _ => ⟨ht hpc, h⟩⟩
  | _ => exact ⟨hq, hst, by simp, by simp⟩

theorem Owned.destructor_step {s t : State ι K P L E} (hs : Owned s) (h : DestructorStep s t) :
    Owned t := by
  obtain ⟨ha, hi, hc, hw⟩ := hs
  cases h <;> exact ⟨ha, hi, hc, hw⟩

theorem Counted.destructor_step {s t : State ι K P L E} (hs : Counted s)
    (h : DestructorStep s t) : Counted t := by
  obtain ⟨hf, hcl, hwo, hcov⟩ := hs
  cases h <;> exact ⟨hf, hcl, hwo, hcov⟩

theorem Stopping.destructor_step {s t : State ι K P L E} (hs : Stopping s)
    (h : DestructorStep s t) : Stopping t := by
  obtain ⟨hq, hst, ht, he⟩ := hs
  cases h with
  | start hpc hidle hnext =>
    refine ⟨fun _ => hidle, fun _ => ?_, ht, he⟩
    obtain rfl | rfl := hnext <;> simp
  | stop hpc =>
    refine ⟨fun _ => hq (by simp [hpc]), by simp, fun _ => rfl, fun h => ⟨rfl, (he h).2⟩⟩
  | _ hpc => exact ⟨fun _ => hq (by simp [hpc]), by simp, ht, he⟩

/-- Before the destructor starts, only the worker's own program counter matters. -/
theorem Stopping.of_alive {s t : State ι K P L E} (hs : Stopping s) (halive : s.destructor = .alive)
    (hdestructor : t.destructor = s.destructor) (hstop : t.shouldStop = s.shouldStop)
    (hworker : t.worker = s.worker) : Stopping t := by
  obtain ⟨hq, hst, ht, he⟩ := hs
  have hrun : s.shouldStop ≠ true := fun h => hst h halive
  refine ⟨fun h => ?_, fun h => ?_, ?_, fun h => ?_⟩
  · rw [hdestructor] at h
    exact (h halive).elim
  · rw [hstop] at h
    exact (hrun h).elim
  · rwa [hstop, hworker]
  · rw [hworker] at h
    exact (hrun (he h).1).elim

theorem Stopping.alive {s : State ι K P L E} (hs : Stopping s) {i : ι}
    (hi : s.clients i ≠ .idle) : s.destructor = .alive := by
  by_contra h
  exact hi (hs.quiet h i)

variable [DecidableEq ι]

/-- Client `i` goes on without touching `buffer_mutex`. -/
theorem Owned.move {s t : State ι K P L E} {i : ι} {pc : ClientPc K} (hs : Owned s)
    (hconfig : t.config = s.config) (hworker : t.worker = s.worker)
    (hmutex : t.bufferMutex = s.bufferMutex)
    (hclients : ∀ j, t.clients j = if j = i then pc else s.clients j)
    (hi : pc.isInline = false) (hb : pc.holdsBuffer = (s.clients i).holdsBuffer) : Owned t := by
  obtain ⟨ha, hin, hc, hw⟩ := hs
  refine ⟨?_, fun j => ?_, fun j => ?_, ?_⟩
  · rwa [hconfig]
  · rw [hclients]
    split
    · exact hi
    · exact hin j
  · rw [hclients, hmutex, ← hc j]
    split
    · next heq => rw [hb, heq]
    · exact Iff.rfl
  · rwa [hworker, hmutex]

theorem Counted.move {s t : State ι K P L E} {i : ι} {pc : ClientPc K} (hs : Counted s)
    (hbuffer : t.buffer = s.buffer) (hpgm : t.pgmSize = s.pgmSize) (hworker : t.worker = s.worker)
    (hmutex : t.bufferMutex = s.bufferMutex)
    (hclients : ∀ j, t.clients j = if j = i then pc else s.clients j)
    (hu : pc.uncounted = (s.clients i).uncounted) : Counted t := by
  obtain ⟨hf, hcl, hwo, hcov⟩ := hs
  refine ⟨?_, fun j hj => ?_, ?_, ?_⟩
  · rwa [hmutex, hpgm, hbuffer]
  · rw [hclients, hpgm, hbuffer]
    rw [hmutex] at hj
    split
    · next heq => rw [hu, ← heq]; exact hcl j hj
    · exact hcl j hj
  · rwa [hmutex, hpgm, hbuffer, hworker]
  · rwa [hpgm, hworker]

theorem Owned.client_step {s t : State ι K P L E} {i : ι} (hs : Owned s)
    (h : ClientStep pgmOps lippOps s i t) : Owned t := by
  cases h with
  | insertFlush hpc h => exact (hs.not_inline hpc).elim
  | buildAborted hpc h => exact hs.congr rfl rfl rfl rfl
  | flushInline hpc hmin hsync =>
    have := hs.async
    rw [hsync] at this
    cases this
  | insertLock hpc hfree =>
    obtain ⟨ha, hin, hc, hw⟩ := hs
    simp only [hfree, reduceCtorEq, iff_false, Bool.not_eq_true] at hc hw
    refine ⟨ha, fun j => ?_, fun j => ?_, by simp [hw]⟩
    · rw [setClient_clients]
      split
      · rfl
      · exact hin j
    · by_cases hj : j = i
      · simp [hj, ClientPc.holdsBuffer]
      · simp [hj, hc, Ne.symm hj]
  | insertUnlock hpc =>
    obtain ⟨ha, hin, hc, hw⟩ := hs
    have hmutex : s.bufferMutex = some (.client i) := (hc i).mp (by rw [hpc]; rfl)
    refine ⟨ha, fun j => ?_, fun j => ?_, ?_⟩
    · rw [setClient_clients]
      split
      · rfl
      · exact hin j
    · by_cases hj : j = i
      · simp [hj, ClientPc.holdsBuffer]
      · simpa [hj, hmutex, Ne.symm hj] using hc j
    · simpa [hmutex] using hw
  | _ hpc => exact hs.move rfl rfl rfl (fun j => setClient_clients _ i j _) rfl (by rw [hpc]; rfl)

theorem Counted.client_step {s t : State ι K P L E} {i : ι} (ho : Owned s) (hs : Counted s)
    (hb : ∀ data, s.clients i = .buildClear data → s.buffer = [])
    (h : ClientStep pgmOps lippOps s i t) : Counted t := by
  have hown := (ho.clientOwns i).mp
  -- While a client owns the mutex the worker has nothing outstanding.
  have hidle : s.bufferMutex = some (.client i) ∨ s.bufferMutex = none → s.worker.unshrunk = 0 := by
    intro hmutex
    refine WorkerPc.unshrunk_eq_zero (Bool.eq_false_iff.mpr fun h => ?_)
    rw [ho.workerOwns.mp h] at hmutex
    simp at hmutex
  cases h with
  | insertFlush hpc h => exact (ho.not_inline hpc).elim
  | buildAborted hpc h => exact hs.congr rfl rfl rfl rfl rfl
  | buildClear hpc =>
    exact hs.move (hb _ hpc).symm rfl rfl rfl (fun j => setClient_clients _ i j _) (by rw [hpc]; rfl)
  | insertLock hpc hfree =>
    have hsize := hs.free hfree
    refine ⟨by simp, fun j hj => ?_, by simp, by simp [hidle (.inr hfree)]⟩
    obtain rfl : i = j := by simpa using hj
    simp [ClientPc.uncounted, hsize]
  | insertPush hpc =>
    have hmutex := hown (by rw [hpc]; rfl)
    have hsize := hs.clientCounts i hmutex
    rw [hpc] at hsize
    refine ⟨by simp [hmutex], fun j hj => ?_, by simp [hmutex], by simp [hidle (.inl hmutex)]⟩
    obtain rfl : i = j := by simpa [hmutex] using hj
    simpa [ClientPc.uncounted] using hsize
  | insertCount hpc =>
    have hmutex := hown (by rw [hpc]; rfl)
    have hsize := hs.clientCounts i hmutex
    rw [hpc] at hsize
    refine ⟨by simp [hmutex], fun j hj => ?_, by simp [hmutex], by simp [hidle (.inl hmutex)]⟩
    obtain rfl : i = j := by simpa [hmutex] using hj
    simpa [ClientPc.uncounted] using hsize
  | insertUnlock hpc =>
    have hmutex := hown (by rw [hpc]; rfl)
    have hsize := hs.clientCounts i hmutex
    rw [hpc] at hsize
    refine ⟨fun _ => ?_, by simp, by simp, by simp [hidle (.inl hmutex)]⟩
    simpa [ClientPc.uncounted] using hsize
  | _ hpc =>
    exact hs.move rfl rfl rfl rfl (fun j => setClient_clients _ i j _) (by rw [hpc]; rfl)

theorem Stopping.client_step {s t : State ι K P L E} {i : ι} (ho : Owned s) (hs : Stopping s)
    (h : ClientStep pgmOps lippOps s i t) : Stopping t := by
  cases h with
  | insertFlush hpc h => exact (ho.not_inline hpc).elim
  | _ hpc => exact hs.of_alive (hs.alive (i := i) (by simp [hpc])) rfl rfl rfl

/-- What holds in every state after the constructor, as long as no client is in `Build`. -/
structure Sound (s : State ι K P L E) : Prop extends Owned s, Counted s, Stopping s where
  building : ∀ i, (s.clients i).isBuilding = false

theorem Call.entry_flags (call : Call K) :
    call.entry.isInline = false ∧ call.entry.holdsBuffer = false ∧ call.entry.uncounted = 0 := by
  cases call <;> exact ⟨rfl, rfl, rfl⟩

/-- The part of an invariant step that does not depend on what a `Build` call is doing. -/
theorem invariants_step {s t : State ι K P L E} {a : Action ι K} (ho : Owned s) (hc : Counted s)
    (hst : Stopping s) (hb : ∀ i data, s.clients i = .buildClear data → s.buffer = [])
    (h : Step pgmOps lippOps s a t) : Owned t ∧ Counted t ∧ Stopping t := by
  cases h with
  | call i call hpc hd =>
    obtain ⟨hi, hh, hu⟩ := call.entry_flags
    exact ⟨ho.move rfl rfl rfl (fun j => setClient_clients _ i j _) hi (by rw [hpc, hh]; rfl),
      hc.move rfl rfl rfl rfl (fun j => setClient_clients _ i j _) (by rw [hpc, hu]; rfl),
      hst.of_alive hd rfl rfl rfl⟩
  | client i h => exact ⟨ho.client_step h, hc.client_step ho (hb i) h, hst.client_step ho h⟩
  | ret i call reply hpc =>
    exact ⟨ho.move rfl rfl rfl (fun j => setClient_clients _ i j _) rfl (by rw [hpc]; rfl),
      hc.move rfl rfl rfl rfl (fun j => setClient_clients _ i j _) (by rw [hpc]; rfl),
      hst.of_alive (hst.alive (i := i) (by simp [hpc])) rfl rfl rfl⟩
  | worker h => exact ⟨ho.worker_step h, hc.worker_step ho h, hst.worker_step h⟩
  | destructor h => exact ⟨ho.destructor_step h, hc.destructor_step h, hst.destructor_step h⟩

theorem Sound.step {s t : State ι K P L E} {a : Action ι K} (hs : Sound s)
    (ha : a.isBuild = false) (h : Step pgmOps lippOps s a t) : Sound t := by
  obtain ⟨ho, hc, hst, hb⟩ := hs
  have hclear : ∀ i data, s.clients i = .buildClear data → s.buffer = [] := by
    intro i data hpc
    have := hb i
    rw [hpc] at this
    cases this
  obtain ⟨ho', hc', hst'⟩ := invariants_step ho hc hst hclear h
  refine ⟨ho', hc', hst', ?_⟩
  -- A client other than the one that moves is where it was.
  have hmove : ∀ {t : State ι K P L E} {i : ι} {pc : ClientPc K}, pc.isBuilding = false →
      ∀ j, ((t.setClient i pc).clients j).isBuilding = false ∨ (t.setClient i pc).clients j =
        t.clients j := by
    intro t i pc hpc j
    by_cases hj : j = i
    · simp [hj, hpc]
    · simp [hj]
  cases h with
  | call i call hpc hd =>
    intro j
    cases call with
    | build data => cases ha
    | _ => exact (hmove rfl j).elim id fun h => h ▸ hb j
  | client i h =>
    have hi := hb i
    cases h with
    | insertFlush hpc h => exact (ho.not_inline hpc).elim
    | buildClear hpc | buildPgm hpc | built hpc | buildAborted hpc => rw [hpc] at hi; cases hi
    | _ => exact fun j => (hmove rfl j).elim id fun h => h ▸ hb j
  | ret i call reply hpc => exact fun j => (hmove rfl j).elim id fun h => h ▸ hb j
  | worker h =>
    cases h with
    | flush hpc h => cases h <;> exact hb
    | _ => exact hb
  | destructor h => cases h <;> exact hb

end LearnedIndex.Hybrid
