import LearnedIndex.DoubleBuffer.Machine

/-! What one step of the flush thread and of a client can do, with the guard of each. -/

universe u v w x y

namespace LearnedIndex.DoubleBuffer

open Util Hybrid

variable {ι : Type y} {K : Type u} {P : Type v} {L : Type w} {E : Type x} {ops : Ops K P L E}

inductive FlushStep (ops : Ops K P L E) (m : Shared K P L) : Shared K P L → Prop
  | reopen (hpc : m.flushThread = .reopen) :
      FlushStep ops m { m with lookupInsertOk := true, flushThread := .loadR }
  | loadR (hpc : m.flushThread = .loadR) :
      FlushStep ops m { m with flushThread := .getData m.rPgmPtr }
  | getData {r} (hpc : m.flushThread = .getData r) :
      FlushStep ops m { m with flushThread := .firstTest [] (ops.getData (m.pgm r)) }
  | firstDone {data} (hpc : m.flushThread = .firstTest data []) :
      FlushStep ops m { m with flushThread := .close data }
  | stop {passed kv rest} (hpc : m.flushThread = .firstTest passed (kv :: rest)) (h : m.stopFlush = true) :
      FlushStep ops m { m with flushThread := .idle }
  | firstTest {passed kv rest} (hpc : m.flushThread = .firstTest passed (kv :: rest)) :
      FlushStep ops m { m with flushThread := .firstLoad passed kv rest }
  | firstLoad {passed kv rest} (hpc : m.flushThread = .firstLoad passed kv rest) :
      FlushStep ops m { m with flushThread := .firstCall passed kv rest m.wLippPtr }
  | firstCall {passed kv rest w lipp} (hpc : m.flushThread = .firstCall passed kv rest w) (h : ops.lipp.insert (m.lipp w) kv = .returns lipp) :
      FlushStep ops m { m.setLipp w lipp with flushThread := .firstTest (passed ++ [kv]) rest }
  | close {data} (hpc : m.flushThread = .close data) :
      FlushStep ops m { m with lookupInsertOk := false, flushThread := .loadW data }
  | loadW {data} (hpc : m.flushThread = .loadW data) :
      FlushStep ops m { m with flushThread := .loadRLipp data m.wLippPtr }
  | loadRLipp {data tmp} (hpc : m.flushThread = .loadRLipp data tmp) :
      FlushStep ops m { m with flushThread := .storeW data tmp m.rLippPtr }
  | storeW {data tmp r} (hpc : m.flushThread = .storeW data tmp r) :
      FlushStep ops m { m with wLippPtr := r, flushThread := .storeRLipp data tmp }
  | storeRLipp {data tmp} (hpc : m.flushThread = .storeRLipp data tmp) :
      FlushStep ops m { m with rLippPtr := tmp, flushThread := .reopenAgain data }
  | reopenAgain {data} (hpc : m.flushThread = .reopenAgain data) :
      FlushStep ops m { m with lookupInsertOk := true, flushThread := .secondLoad [] data }
  | secondDone {data} (hpc : m.flushThread = .secondLoad data []) :
      FlushStep ops m { m with flushThread := .clear data m.rPgmPtr }
  | secondLoad {passed kv rest} (hpc : m.flushThread = .secondLoad passed (kv :: rest)) :
      FlushStep ops m { m with flushThread := .secondCall passed kv rest m.wLippPtr }
  | secondCall {passed kv rest w lipp} (hpc : m.flushThread = .secondCall passed kv rest w) (h : ops.lipp.insert (m.lipp w) kv = .returns lipp) :
      FlushStep ops m { m.setLipp w lipp with flushThread := .secondLoad (passed ++ [kv]) rest }
  | clear {data r} (hpc : m.flushThread = .clear data r) :
      FlushStep ops m { m.setPgm r ops.pgm.empty with flushThread := .complete }
  | complete (hpc : m.flushThread = .complete) :
      FlushStep ops m { m with flushComplete := true, flushThread := .unlock }
  | unlock (hpc : m.flushThread = .unlock) :
      FlushStep ops m { m with flushMutex := false, flushThread := .idle }

theorem lippInsert_eq_some {m m' : Shared K P L} {w : Side} {kv : KeyValue K} :
    lippInsert ops m w kv = some m' ↔
      ∃ lipp, ops.lipp.insert (m.lipp w) kv = .returns lipp ∧ m' = m.setLipp w lipp := by
  unfold lippInsert
  split
  · rename_i lipp h
    simp [h, eq_comm]
  · rename_i hne
    simpa using fun lipp h => (hne lipp h).elim

theorem FlushStep.of_flushStep {m m' : Shared K P L} (h : flushStep ops m = some m') :
    FlushStep ops m m' := by
  cases hpc : m.flushThread with
  | idle => simp [flushStep, hpc] at h
  | reopen => simp only [flushStep, hpc] at h; cases h; exact .reopen hpc
  | loadR => simp only [flushStep, hpc] at h; cases h; exact .loadR hpc
  | getData r => simp only [flushStep, hpc] at h; cases h; exact .getData hpc
  | firstTest passed rest =>
    cases rest with
    | nil => simp only [flushStep, hpc] at h; cases h; exact .firstDone hpc
    | cons kv rest =>
      simp only [flushStep, hpc] at h
      split at h
      · cases h; exact .stop hpc ‹_›
      · cases h; exact .firstTest hpc
  | firstLoad passed kv rest => simp only [flushStep, hpc] at h; cases h; exact .firstLoad hpc
  | firstCall passed kv rest w =>
    simp only [flushStep, hpc, Option.map_eq_some_iff, lippInsert_eq_some] at h
    obtain ⟨_, ⟨lipp, hins, rfl⟩, rfl⟩ := h
    exact .firstCall hpc hins
  | close data => simp only [flushStep, hpc] at h; cases h; exact .close hpc
  | loadW data => simp only [flushStep, hpc] at h; cases h; exact .loadW hpc
  | loadRLipp data tmp => simp only [flushStep, hpc] at h; cases h; exact .loadRLipp hpc
  | storeW data tmp r => simp only [flushStep, hpc] at h; cases h; exact .storeW hpc
  | storeRLipp data tmp => simp only [flushStep, hpc] at h; cases h; exact .storeRLipp hpc
  | reopenAgain data => simp only [flushStep, hpc] at h; cases h; exact .reopenAgain hpc
  | secondLoad passed rest =>
    cases rest with
    | nil => simp only [flushStep, hpc] at h; cases h; exact .secondDone hpc
    | cons kv rest => simp only [flushStep, hpc] at h; cases h; exact .secondLoad hpc
  | secondCall passed kv rest w =>
    simp only [flushStep, hpc, Option.map_eq_some_iff, lippInsert_eq_some] at h
    obtain ⟨_, ⟨lipp, hins, rfl⟩, rfl⟩ := h
    exact .secondCall hpc hins
  | clear data r => simp only [flushStep, hpc] at h; cases h; exact .clear hpc
  | complete => simp only [flushStep, hpc] at h; cases h; exact .complete hpc
  | unlock => simp only [flushStep, hpc] at h; cases h; exact .unlock hpc

theorem FlushStep.not_idle {m m' : Shared K P L} (h : FlushStep ops m m') : m.flushThread ≠ .idle := by
  cases h with
  | _ hpc => simp [hpc]

/-- One step of a member function, seen from the client that runs it. -/
inductive ClientStep (ops : Ops K P L E) (m : Shared K P L) :
    ClientPc K → Shared K P L → ClientPc K → Prop
  | insertWait {kv} (h : m.lookupInsertOk = true) : ClientStep ops m (.insertWait kv) m (.insertLoad kv)
  | insertLoad {kv} : ClientStep ops m (.insertLoad kv) m (.insertPgm kv m.rwPgmPtr)
  | insertPgm {kv rw} : ClientStep ops m (.insertPgm kv rw)
      (m.setPgm rw (ops.pgm.insert (m.pgm rw) kv)) (.insertTest kv)
  | insertTest {kv} (h : m.flushComplete = true) : ClientStep ops m (.insertTest kv) m (.insertLock kv)
  | insertDone {kv} (h : m.flushComplete = false) :
      ClientStep ops m (.insertTest kv) m (.finished (.insert kv) .done)
  | insertLock {kv} (h : m.flushMutex = false) : ClientStep ops m (.insertLock kv)
      { m with flushMutex := true } (.insertSwap kv .uncomplete)
  | insertSwap {kv pc} : ClientStep ops m (.insertSwap kv pc) (swapStep m pc).1
      ((swapStep m pc).2.elim (.finished (.insert kv) .done) (.insertSwap kv))
  | lookupWait {key} (h : m.lookupInsertOk = true) :
      ClientStep ops m (.lookupWait key) m (.lookupLoadRw key)
  | lookupLoadRw {key} : ClientStep ops m (.lookupLoadRw key) m (.lookupRw key m.rwPgmPtr)
  | rwMiss {key rw} (h : ops.pgm.equalityLookup (m.pgm rw) key = overflow) :
      ClientStep ops m (.lookupRw key rw) m (.lookupLoadR key rw)
  | rwHit {key rw} (h : ops.pgm.equalityLookup (m.pgm rw) key ≠ overflow) :
      ClientStep ops m (.lookupRw key rw) m
        (.finished (.lookup key) (.value (ops.pgm.equalityLookup (m.pgm rw) key)))
  | lookupLoadR {key rw} : ClientStep ops m (.lookupLoadR key rw) m (.lookupR key m.rPgmPtr)
  | rMiss {key r} (h : ops.pgm.equalityLookup (m.pgm r) key = overflow) :
      ClientStep ops m (.lookupR key r) m (.lookupLoadLipp key)
  | rHit {key r} (h : ops.pgm.equalityLookup (m.pgm r) key ≠ overflow) :
      ClientStep ops m (.lookupR key r) m
        (.finished (.lookup key) (.value (ops.pgm.equalityLookup (m.pgm r) key)))
  | lookupLoadLipp {key} : ClientStep ops m (.lookupLoadLipp key) m (.lookupLipp key m.rLippPtr)
  | lookupLipp {key r} : ClientStep ops m (.lookupLipp key r) m
      (.finished (.lookup key) (.value (ops.lipp.equalityLookup (m.lipp r) key)))

theorem ClientStep.of_clientStep {m m' : Shared K P L} {pc pc' : ClientPc K}
    (h : clientStep ops m pc = some (m', pc')) : ClientStep ops m pc m' pc' := by
  cases pc with
  | idle | finished => cases h
  | insertWait kv =>
    simp only [clientStep] at h
    split at h
    · cases h; exact .insertWait ‹_›
    · cases h
  | insertTest kv =>
    simp only [clientStep] at h
    split at h
    · cases h; exact .insertTest ‹_›
    · cases h; exact .insertDone (by simpa using ‹¬ m.flushComplete = true›)
  | insertLock kv =>
    simp only [clientStep] at h
    split at h
    · cases h
    · cases h; exact .insertLock (by simpa using ‹¬ m.flushMutex = true›)
  | lookupWait key =>
    simp only [clientStep] at h
    split at h
    · cases h; exact .lookupWait ‹_›
    · cases h
  | lookupRw key rw =>
    simp only [clientStep] at h
    split at h
    · cases h; exact .rwMiss ‹_›
    · cases h; exact .rwHit ‹_›
  | lookupR key r =>
    simp only [clientStep] at h
    split at h
    · cases h; exact .rMiss ‹_›
    · cases h; exact .rHit ‹_›
  | insertLoad => cases h; exact .insertLoad
  | insertPgm => cases h; exact .insertPgm
  | insertSwap => cases h; exact .insertSwap
  | lookupLoadRw => cases h; exact .lookupLoadRw
  | lookupLoadR => cases h; exact .lookupLoadR
  | lookupLoadLipp => cases h; exact .lookupLoadLipp
  | lookupLipp => cases h; exact .lookupLipp

variable [DecidableEq ι]

@[simp] theorem setClient_shared (s : State ι K P L) (i : ι) (pc : ClientPc K) :
    (s.setClient i pc).shared = s.shared := rfl

theorem setClient_clients (s : State ι K P L) (i j : ι) (pc : ClientPc K) :
    (s.setClient i pc).clients j = if j = i then pc else s.clients j := by
  simp [State.setClient, Function.update_apply]

@[simp] theorem setClient_self (s : State ι K P L) (i : ι) (pc : ClientPc K) :
    (s.setClient i pc).clients i = pc := by
  simp [setClient_clients]

theorem setClient_of_ne (s : State ι K P L) {i j : ι} (h : j ≠ i) (pc : ClientPc K) :
    (s.setClient i pc).clients j = s.clients j := by
  simp [setClient_clients, h]

inductive Step (ops : Ops K P L E) (s : State ι K P L) : Action ι K → State ι K P L → Prop
  | call (i : ι) (call : Call K) (hpc : s.clients i = .idle) :
      Step ops s (.call i call) (s.setClient i call.entry)
  | client (i : ι) {m : Shared K P L} {pc : ClientPc K}
      (h : ClientStep ops s.shared (s.clients i) m pc) :
      Step ops s (.client i) ({ s with shared := m }.setClient i pc)
  | ret (i : ι) (call : Call K) (reply : Reply) (hpc : s.clients i = .finished call reply) :
      Step ops s (.ret i call reply) (s.setClient i .idle)
  | flush {m : Shared K P L} (h : FlushStep ops s.shared m) : Step ops s .flush { s with shared := m }

theorem Step.of_step [DecidableEq K] {s t : State ι K P L} {a : Action ι K}
    (h : step ops s a = some t) : Step ops s a t := by
  cases a with
  | call i call =>
    simp only [step] at h
    split at h
    · cases h; exact .call i call (ClientPc.isIdle_iff.mp ‹_›)
    · cases h
  | client i =>
    simp only [step, Option.map_eq_some_iff] at h
    obtain ⟨⟨m, pc⟩, hm, rfl⟩ := h
    exact .client i (.of_clientStep hm)
  | ret i call reply =>
    simp only [step] at h
    split at h
    · rename_i call' reply' hpc
      split at h
      · rename_i heq
        obtain ⟨rfl, rfl⟩ := heq
        cases h
        exact .ret i call reply hpc
      · cases h
    · cases h
  | flush =>
    simp only [step, Option.map_eq_some_iff] at h
    obtain ⟨m, hm, rfl⟩ := h
    exact .flush (.of_flushStep hm)

end LearnedIndex.DoubleBuffer
