import LearnedIndex.Hybrid.Parts
import LearnedIndex.Transition
import Mathlib.Data.Fintype.Basic
import Mathlib.Logic.Function.Basic

/-! `HybridPGMLipp` as a transition system.  The two indexes are parameters: a call
into either of them is one atomic step, and so is every lock operation and every
access to a shared field. -/

universe u v w x y

namespace LearnedIndex.Hybrid

open Util

structure Config where
  minFlushSize : UInt64 := 1000
  maxFlushSize : UInt64 := 10000
  asyncFlush : Bool := true
  deriving DecidableEq

/-- The constructor's reading of `params`; an `int` stored in a `size_t` is taken
modulo 2^64. -/
def Config.ofParams (params : List Int) : Config where
  minFlushSize := (params[2]?).elim 1000 UInt64.ofInt
  maxFlushSize := (params[3]?).elim 10000 UInt64.ofInt
  asyncFlush := (params[4]?).elim true (· != 0)

inductive Thread (ι : Type y)
  | client (i : ι)
  | worker
  | destructor
  deriving DecidableEq

inductive Call (K : Type u)
  | build (data : List (KeyValue K))
  | insert (kv : KeyValue K)
  | lookup (key : K)
  | range (lowerKey upperKey : K)
  deriving DecidableEq

inductive Reply
  | done
  | value (v : UInt64)
  deriving DecidableEq

/-- Where a thread is inside `flush_buffer`. -/
inductive FlushPc (K : Type u)
  | lock
  | cut
  | shrink (items : List (KeyValue K)) (flushSize : UInt64)
  | unlock (items : List (KeyValue K))
  | drain (items : List (KeyValue K))

/-- Where a client thread is inside a public member function. -/
inductive ClientPc (K : Type u)
  | idle
  | buildClear (data : List (KeyValue K))
  | buildPgm (data : List (KeyValue K))
  | buildLipp (data : List (KeyValue K))
  | insertPgm (kv : KeyValue K)
  | insertLock (kv : KeyValue K)
  | insertPush (kv : KeyValue K)
  | insertCount (kv : KeyValue K)
  | insertTest (kv : KeyValue K)
  | insertFlush (kv : KeyValue K) (pc : FlushPc K)
  | insertUnlock (kv : KeyValue K)
  | lookupLipp (key : K)
  | lookupPgm (key : K)
  | rangePgm (lowerKey upperKey : K)
  | finished (call : Call K) (reply : Reply)

def ClientPc.isIdle : ClientPc K → Bool
  | .idle => true
  | _ => false

@[simp] theorem ClientPc.isIdle_iff {pc : ClientPc K} : pc.isIdle = true ↔ pc = .idle := by
  cases pc <;> simp [isIdle]

/-- Where `flush_worker` is; `absent` when the constructor started no thread. -/
inductive WorkerPc (K : Type u)
  | absent
  | lockFlush
  | predStop
  | predSize
  | waiting
  | testStop
  | testEmpty
  | unlockFlush
  | flush (pc : FlushPc K)
  | exited

inductive DestructorPc
  | alive
  | lock
  | stop
  | unlock
  | join
  | done
  deriving DecidableEq

structure State (ι : Type y) (K : Type u) (P : Type v) (L : Type w) (E : Type x) where
  config : Config
  pgm : P
  lipp : L
  buffer : List (KeyValue K)
  pgmSize : UInt64
  shouldStop : Bool
  bufferMutex : Option (Thread ι)
  flushMutex : Option (Thread ι)
  clients : ι → ClientPc K
  worker : WorkerPc K
  destructor : DestructorPc
  failed : Option E

inductive Action (ι : Type y) (K : Type u)
  | call (i : ι) (call : Call K)
  | client (i : ι)
  | ret (i : ι) (call : Call K) (reply : Reply)
  | worker
  | destructor

variable {ι : Type y} {K : Type u} {P : Type v} {L : Type w} {E : Type x}

section Steps

variable (pgmOps : PgmOps K P) (lippOps : LippOps K L E)

/-- The object right after its constructor. -/
def construct (config : Config) : State ι K P L E where
  config := config
  pgm := pgmOps.empty
  lipp := lippOps.empty
  buffer := []
  pgmSize := 0
  shouldStop := false
  bufferMutex := none
  flushMutex := none
  clients := fun _ => .idle
  worker := if config.asyncFlush then .lockFlush else .absent
  destructor := .alive
  failed := none

/-- One step of `flush_buffer` by the thread `self`; `none` in the second component
when the function returns.  Locking blocks while any thread, `self` included, owns
the mutex. -/
def flushBuffer (self : Thread ι) (s : State ι K P L E) :
    FlushPc K → Option (State ι K P L E × Option (FlushPc K))
  | .lock =>
    match s.bufferMutex with
    | none => some ({ s with bufferMutex := some self }, some .cut)
    | some _ => none
  | .cut =>
    if s.buffer.isEmpty then some ({ s with bufferMutex := none }, none)
    else
      let flushSize := min (size s.buffer) s.config.maxFlushSize
      some ({ s with buffer := s.buffer.drop flushSize.toNat },
        some (.shrink (s.buffer.take flushSize.toNat) flushSize))
  | .shrink items flushSize =>
    some ({ s with pgmSize := s.pgmSize - flushSize }, some (.unlock items))
  | .unlock items => some ({ s with bufferMutex := none }, some (.drain items))
  | .drain [] => some (s, none)
  | .drain (item :: items) =>
    match lippOps.insert s.lipp item with
    | .returns lipp => some ({ s with lipp := lipp }, some (.drain items))
    | .exits e => some ({ s with failed := some e }, some (.drain items))
    | .diverges => none

/-- One step of `flush_worker`.  `flush_cv.wait` gives `flush_mutex` up while it blocks,
may wake at any time, and tests its predicate again once it has the mutex back. -/
def workerStep (s : State ι K P L E) : Option (State ι K P L E) :=
  match s.worker with
  | .absent => none
  | .lockFlush | .waiting =>
    match s.flushMutex with
    | none => some { s with flushMutex := some .worker, worker := .predStop }
    | some _ => none
  | .predStop =>
    if s.shouldStop then some { s with worker := .testStop }
    else some { s with worker := .predSize }
  | .predSize =>
    if s.config.minFlushSize ≤ s.pgmSize then some { s with worker := .testStop }
    else some { s with flushMutex := none, worker := .waiting }
  | .testStop =>
    if s.shouldStop then some { s with worker := .testEmpty }
    else some { s with worker := .unlockFlush }
  | .testEmpty =>
    if s.buffer.isEmpty then some { s with flushMutex := none, worker := .exited }
    else some { s with worker := .unlockFlush }
  | .unlockFlush => some { s with flushMutex := none, worker := .flush .lock }
  | .flush pc =>
    (flushBuffer lippOps .worker s pc).map fun (t, pc') =>
      { t with worker := pc'.elim .lockFlush .flush }
  | .exited => none

variable [DecidableEq ι]

def State.setClient (s : State ι K P L E) (i : ι) (pc : ClientPc K) : State ι K P L E :=
  { s with clients := Function.update s.clients i pc }

section SetClient

variable (s : State ι K P L E) (i j : ι) (pc : ClientPc K)

@[simp, grind =] theorem setClient_clients :
    (s.setClient i pc).clients j = if j = i then pc else s.clients j := by
  simp [State.setClient, Function.update_apply]

@[simp, grind =] theorem setClient_config : (s.setClient i pc).config = s.config := rfl
@[simp, grind =] theorem setClient_pgm : (s.setClient i pc).pgm = s.pgm := rfl
@[simp, grind =] theorem setClient_lipp : (s.setClient i pc).lipp = s.lipp := rfl
@[simp, grind =] theorem setClient_buffer : (s.setClient i pc).buffer = s.buffer := rfl
@[simp, grind =] theorem setClient_pgmSize : (s.setClient i pc).pgmSize = s.pgmSize := rfl
@[simp, grind =] theorem setClient_shouldStop : (s.setClient i pc).shouldStop = s.shouldStop := rfl
@[simp, grind =] theorem setClient_bufferMutex :
    (s.setClient i pc).bufferMutex = s.bufferMutex := rfl
@[simp, grind =] theorem setClient_worker : (s.setClient i pc).worker = s.worker := rfl
@[simp, grind =] theorem setClient_failed : (s.setClient i pc).failed = s.failed := rfl
@[simp, grind =] theorem setClient_destructor : (s.setClient i pc).destructor = s.destructor := rfl

end SetClient

/-- Entering a public member function. -/
def Call.entry : Call K → ClientPc K
  | .build data => .buildClear data
  | .insert kv => .insertPgm kv
  | .lookup key => .lookupLipp key
  | .range lowerKey upperKey => .rangePgm lowerKey upperKey

/-- One step of the member function that client `i` is running. -/
def clientStep (s : State ι K P L E) (i : ι) : Option (State ι K P L E) :=
  match s.clients i with
  | .idle | .finished _ _ => none
  | .buildClear data => some ({ s with buffer := [] }.setClient i (.buildPgm data))
  | .buildPgm data => some ({ s with pgm := pgmOps.empty }.setClient i (.buildLipp data))
  | .buildLipp data =>
    match lippOps.build s.lipp data with
    | .returns lipp => some ({ s with lipp := lipp }.setClient i (.finished (.build data) .done))
    | .exits e => some { s with failed := some e }
    | .diverges => none
  | .insertPgm kv => some ({ s with pgm := pgmOps.insert s.pgm kv }.setClient i (.insertLock kv))
  | .insertLock kv =>
    match s.bufferMutex with
    | none => some ({ s with bufferMutex := some (.client i) }.setClient i (.insertPush kv))
    | some _ => none
  | .insertPush kv => some ({ s with buffer := s.buffer ++ [kv] }.setClient i (.insertCount kv))
  | .insertCount kv => some ({ s with pgmSize := s.pgmSize + 1 }.setClient i (.insertTest kv))
  | .insertTest kv =>
    if s.config.minFlushSize ≤ s.pgmSize ∧ s.config.asyncFlush = false then
      some (s.setClient i (.insertFlush kv .lock))
    else some (s.setClient i (.insertUnlock kv))
  | .insertFlush kv pc =>
    (flushBuffer lippOps (.client i) s pc).map fun (t, pc') =>
      t.setClient i (pc'.elim (.insertUnlock kv) (.insertFlush kv))
  | .insertUnlock kv =>
    some ({ s with bufferMutex := none }.setClient i (.finished (.insert kv) .done))
  | .lookupLipp key =>
    let value := lippOps.equalityLookup s.lipp key
    if value = notFound then some (s.setClient i (.lookupPgm key))
    else some (s.setClient i (.finished (.lookup key) (.value value)))
  | .lookupPgm key =>
    some (s.setClient i (.finished (.lookup key) (.value (pgmOps.equalityLookup s.pgm key))))
  | .rangePgm lowerKey upperKey =>
    some (s.setClient i (.finished (.range lowerKey upperKey)
      (.value (pgmOps.rangeQuery s.pgm lowerKey upperKey))))

/-- One step of the destructor, which starts when no member function is running. -/
def destructorStep [Fintype ι] (s : State ι K P L E) : Option (State ι K P L E) :=
  match s.destructor with
  | .alive =>
    if ∀ i, (s.clients i).isIdle = true then
      some { s with destructor := if s.config.asyncFlush then .lock else .done }
    else none
  | .lock =>
    match s.flushMutex with
    | none => some { s with flushMutex := some .destructor, destructor := .stop }
    | some _ => none
  | .stop => some { s with shouldStop := true, destructor := .unlock }
  | .unlock => some { s with flushMutex := none, destructor := .join }
  | .join =>
    match s.worker with
    | .exited => some { s with destructor := .done }
    | _ => none
  | .done => none

/-- A member function is entered only while the object lives, and nothing runs after a
failing `RT_ASSERT`. -/
def step [Fintype ι] [DecidableEq K] (s : State ι K P L E) (a : Action ι K) :
    Option (State ι K P L E) :=
  if s.failed.isSome then none
  else match a with
    | .call i call =>
      if s.clients i |>.isIdle then
        if s.destructor = .alive then some (s.setClient i call.entry) else none
      else none
    | .client i => clientStep pgmOps lippOps s i
    | .ret i call reply =>
      match s.clients i with
      | .finished call' reply' =>
        if call = call' ∧ reply = reply' then some (s.setClient i .idle) else none
      | _ => none
    | .worker => workerStep lippOps s
    | .destructor => destructorStep s

end Steps

end LearnedIndex.Hybrid
