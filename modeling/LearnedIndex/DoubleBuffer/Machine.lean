import LearnedIndex.Hybrid.Lawful

/-! The double-buffered `HybridPGMLipp` as a transition system.  A call into one of its
four indexes is one atomic step, and so is every access to a pointer, a flag or a mutex. -/

universe u v w x y

namespace LearnedIndex.DoubleBuffer

open Util Hybrid

/-- Which of two indexes of a kind: `pgm1` and `lipp1`, or `pgm2` and `lipp2`. -/
inductive Side
  | one
  | two
  deriving DecidableEq

def Side.other : Side → Side
  | .one => .two
  | .two => .one

@[simp] theorem Side.other_other (p : Side) : p.other.other = p := by cases p <;> rfl

@[simp] theorem Side.other_ne (p : Side) : p.other ≠ p := by cases p <;> simp [other]

@[simp] theorem Side.ne_other (p : Side) : p ≠ p.other := by cases p <;> simp [other]

theorem Side.eq_or_eq_other (p q : Side) : q = p ∨ q = p.other := by
  cases p <;> cases q <;> simp [other]

theorem Side.eq_other_of_ne {p q : Side} (h : q ≠ p) : q = p.other :=
  (p.eq_or_eq_other q).resolve_left h

inductive Call (K : Type u)
  | insert (kv : KeyValue K)
  | lookup (key : K)
  deriving DecidableEq

/-- Where an `Insert` is once it has found `flush_complete` set and owns `flush_mutex`. -/
inductive SwapPc
  | uncomplete
  | close
  | loadRw
  | loadR (tmp : Side)
  | storeRw (tmp r : Side)
  | storeR (tmp : Side)
  | raiseStop
  | lowerStop
  | spawn
  deriving DecidableEq

/-- Where a client thread is inside a public member function.  A lookup between its first
two probes keeps the PGM of the first in `rw`, which the code itself has forgotten. -/
inductive ClientPc (K : Type u)
  | idle
  | insertWait (kv : KeyValue K)
  | insertLoad (kv : KeyValue K)
  | insertPgm (kv : KeyValue K) (rw : Side)
  | insertTest (kv : KeyValue K)
  | insertLock (kv : KeyValue K)
  | insertSwap (kv : KeyValue K) (pc : SwapPc)
  | lookupWait (key : K)
  | lookupLoadRw (key : K)
  | lookupRw (key : K) (rw : Side)
  | lookupLoadR (key : K) (rw : Side)
  | lookupR (key : K) (r : Side)
  | lookupLoadLipp (key : K)
  | lookupLipp (key : K) (r : Side)
  | finished (call : Call K) (reply : Reply)

def ClientPc.isIdle {K : Type u} : ClientPc K → Bool
  | .idle => true
  | _ => false

@[simp] theorem ClientPc.isIdle_iff {K : Type u} {pc : ClientPc K} : pc.isIdle = true ↔ pc = .idle := by
  cases pc <;> simp [isIdle]

/-- Where the flush thread is.  The two loops over `data` stand between the pairs in
`passed` and those in `rest`. -/
inductive FlushPc (K : Type u)
  | idle
  | reopen
  | loadR
  | getData (r : Side)
  | firstTest (passed rest : List (KeyValue K))
  | firstLoad (passed : List (KeyValue K)) (kv : KeyValue K) (rest : List (KeyValue K))
  | firstCall (passed : List (KeyValue K)) (kv : KeyValue K) (rest : List (KeyValue K)) (w : Side)
  | close (data : List (KeyValue K))
  | loadW (data : List (KeyValue K))
  | loadRLipp (data : List (KeyValue K)) (tmp : Side)
  | storeW (data : List (KeyValue K)) (tmp r : Side)
  | storeRLipp (data : List (KeyValue K)) (tmp : Side)
  | reopenAgain (data : List (KeyValue K))
  | secondLoad (passed rest : List (KeyValue K))
  | secondCall (passed : List (KeyValue K)) (kv : KeyValue K) (rest : List (KeyValue K)) (w : Side)
  | clear (data : List (KeyValue K)) (r : Side)
  | complete
  | unlock

/-- The members of the object.  No two flush threads ever run at once: `flush_mutex`, which
a client locks before it starts one, is unlocked by that thread's last step. -/
structure Shared (K : Type u) (P : Type v) (L : Type w) where
  pgm : Side → P
  lipp : Side → L
  rwPgmPtr : Side := .one
  rPgmPtr : Side := .two
  wLippPtr : Side := .one
  rLippPtr : Side := .two
  flushMutex : Bool := false
  lookupInsertOk : Bool := true
  flushComplete : Bool := true
  stopFlush : Bool := false
  flushThread : FlushPc K := .idle

structure State (ι : Type y) (K : Type u) (P : Type v) (L : Type w) where
  shared : Shared K P L
  clients : ι → ClientPc K

inductive Action (ι : Type y) (K : Type u)
  | call (i : ι) (call : Call K)
  | client (i : ι)
  | ret (i : ι) (call : Call K) (reply : Reply)
  | flush

variable {ι : Type y} {K : Type u} {P : Type v} {L : Type w} {E : Type x}

/-- The PGM wrapper of this variant can also list its pairs. -/
structure Ops (K : Type u) (P : Type v) (L : Type w) (E : Type x) where
  pgm : PgmOps K P
  getData : P → List (KeyValue K)
  lipp : LippOps K L E

section Steps

variable (ops : Ops K P L E)

def Shared.setPgm (m : Shared K P L) (p : Side) (pgm : P) : Shared K P L :=
  { m with pgm := Function.update m.pgm p pgm }

def Shared.setLipp (m : Shared K P L) (l : Side) (lipp : L) : Shared K P L :=
  { m with lipp := Function.update m.lipp l lipp }

/-- The object after its constructor and `Build`; nothing if a LIPP does not come back. -/
def built (data : List (KeyValue K)) : Option (State ι K P L) :=
  match ops.lipp.build ops.lipp.empty data with
  | .returns lipp => some ⟨{ pgm := fun _ => ops.pgm.empty, lipp := fun _ => lipp }, fun _ => .idle⟩
  | _ => none

/-- One step of `Insert` under `flush_mutex`, up to the start of the flush thread; `none`
when `Insert` returns.  A detached thread is not joinable, so none is ever joined. -/
def swapStep (m : Shared K P L) : SwapPc → Shared K P L × Option SwapPc
  | .uncomplete => ({ m with flushComplete := false }, some .close)
  | .close => ({ m with lookupInsertOk := false }, some .loadRw)
  | .loadRw => (m, some (.loadR m.rwPgmPtr))
  | .loadR tmp => (m, some (.storeRw tmp m.rPgmPtr))
  | .storeRw tmp r => ({ m with rwPgmPtr := r }, some (.storeR tmp))
  | .storeR tmp => ({ m with rPgmPtr := tmp }, some .raiseStop)
  | .raiseStop => ({ m with stopFlush := true }, some .lowerStop)
  | .lowerStop => ({ m with stopFlush := false }, some .spawn)
  | .spawn => ({ m with flushThread := .reopen }, none)

/-- One step of the member function a client is running.  Waiting on a flag or a mutex is
having no step. -/
def clientStep (m : Shared K P L) : ClientPc K → Option (Shared K P L × ClientPc K)
  | .idle | .finished _ _ => none
  | .insertWait kv => if m.lookupInsertOk then some (m, .insertLoad kv) else none
  | .insertLoad kv => some (m, .insertPgm kv m.rwPgmPtr)
  | .insertPgm kv rw => some (m.setPgm rw (ops.pgm.insert (m.pgm rw) kv), .insertTest kv)
  | .insertTest kv =>
    if m.flushComplete then some (m, .insertLock kv) else some (m, .finished (.insert kv) .done)
  | .insertLock kv =>
    if m.flushMutex then none else some ({ m with flushMutex := true }, .insertSwap kv .uncomplete)
  | .insertSwap kv pc =>
    some ((swapStep m pc).1, (swapStep m pc).2.elim (.finished (.insert kv) .done) (.insertSwap kv))
  | .lookupWait key => if m.lookupInsertOk then some (m, .lookupLoadRw key) else none
  | .lookupLoadRw key => some (m, .lookupRw key m.rwPgmPtr)
  | .lookupRw key rw =>
    let value := ops.pgm.equalityLookup (m.pgm rw) key
    if value = overflow then some (m, .lookupLoadR key rw)
    else some (m, .finished (.lookup key) (.value value))
  | .lookupLoadR key _ => some (m, .lookupR key m.rPgmPtr)
  | .lookupR key r =>
    let value := ops.pgm.equalityLookup (m.pgm r) key
    if value = overflow then some (m, .lookupLoadLipp key)
    else some (m, .finished (.lookup key) (.value value))
  | .lookupLoadLipp key => some (m, .lookupLipp key m.rLippPtr)
  | .lookupLipp key r =>
    some (m, .finished (.lookup key) (.value (ops.lipp.equalityLookup (m.lipp r) key)))

/-- `w_lipp_ptr->Insert`; there is no step from a call that does not come back. -/
def lippInsert (m : Shared K P L) (w : Side) (kv : KeyValue K) : Option (Shared K P L) :=
  match ops.lipp.insert (m.lipp w) kv with
  | .returns lipp => some (m.setLipp w lipp)
  | _ => none

/-- One step of `flush`. -/
def flushStep (m : Shared K P L) : Option (Shared K P L) :=
  match m.flushThread with
  | .idle => none
  | .reopen => some { m with lookupInsertOk := true, flushThread := .loadR }
  | .loadR => some { m with flushThread := .getData m.rPgmPtr }
  | .getData r => some { m with flushThread := .firstTest [] (ops.getData (m.pgm r)) }
  | .firstTest passed [] => some { m with flushThread := .close passed }
  | .firstTest passed (kv :: rest) =>
    -- The early return leaves `flush_mutex` locked.
    if m.stopFlush then some { m with flushThread := .idle }
    else some { m with flushThread := .firstLoad passed kv rest }
  | .firstLoad passed kv rest => some { m with flushThread := .firstCall passed kv rest m.wLippPtr }
  | .firstCall passed kv rest w =>
    (lippInsert ops m w kv).map ({ · with flushThread := .firstTest (passed ++ [kv]) rest })
  | .close data => some { m with lookupInsertOk := false, flushThread := .loadW data }
  | .loadW data => some { m with flushThread := .loadRLipp data m.wLippPtr }
  | .loadRLipp data tmp => some { m with flushThread := .storeW data tmp m.rLippPtr }
  | .storeW data tmp r => some { m with wLippPtr := r, flushThread := .storeRLipp data tmp }
  | .storeRLipp data tmp => some { m with rLippPtr := tmp, flushThread := .reopenAgain data }
  | .reopenAgain data => some { m with lookupInsertOk := true, flushThread := .secondLoad [] data }
  | .secondLoad passed [] => some { m with flushThread := .clear passed m.rPgmPtr }
  | .secondLoad passed (kv :: rest) =>
    some { m with flushThread := .secondCall passed kv rest m.wLippPtr }
  | .secondCall passed kv rest w =>
    (lippInsert ops m w kv).map ({ · with flushThread := .secondLoad (passed ++ [kv]) rest })
  | .clear _ r => some { m.setPgm r ops.pgm.empty with flushThread := .complete }
  | .complete => some { m with flushComplete := true, flushThread := .unlock }
  | .unlock => some { m with flushMutex := false, flushThread := .idle }

/-- Entering a public member function. -/
def Call.entry : Call K → ClientPc K
  | .insert kv => .insertWait kv
  | .lookup key => .lookupWait key

variable [DecidableEq ι] [DecidableEq K]

def State.setClient (s : State ι K P L) (i : ι) (pc : ClientPc K) : State ι K P L :=
  { s with clients := Function.update s.clients i pc }

def step (s : State ι K P L) : Action ι K → Option (State ι K P L)
  | .call i call => if (s.clients i).isIdle then some (s.setClient i call.entry) else none
  | .client i =>
    (clientStep ops s.shared (s.clients i)).map fun (m, pc) => { s with shared := m }.setClient i pc
  | .ret i call reply =>
    match s.clients i with
    | .finished call' reply' =>
      if call = call' ∧ reply = reply' then some (s.setClient i .idle) else none
    | _ => none
  | .flush => (flushStep ops s.shared).map fun m => { s with shared := m }

end Steps

end LearnedIndex.DoubleBuffer
