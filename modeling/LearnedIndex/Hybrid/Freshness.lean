import LearnedIndex.Hybrid.Lookup

/-! Which of several values of a key a lookup returns: LIPP, which is asked first, keeps the
oldest one that has reached it, and the PGM has the newest. -/

universe u v w x y

namespace LearnedIndex.Hybrid

open Util Transition

variable {ι : Type y} {K : Type u} {P : Type v} {L : Type w} {E : Type x}

section Values

variable [LinearOrder K] {kvs xs ys : List (KeyValue K)} {k : K}

/-- The value of the first pair with this key. -/
def oldest (kvs : List (KeyValue K)) (k : K) : UInt64 := (AbstractMap.lookup kvs k).getD notFound

/-- The value of the last pair with this key. -/
def newest (kvs : List (KeyValue K)) (k : K) : UInt64 := oldest kvs.reverse k

theorem oldest_absent (h : k ∉ keys kvs) : oldest kvs k = notFound := by
  rw [oldest, AbstractMap.lookup_absent]
  · rfl
  · exact fun x hx hxk => h (mem_keys.mpr ⟨x, hx, hxk⟩)

theorem oldest_append (xs ys : List (KeyValue K)) (k : K) :
    oldest (xs ++ ys) k = if k ∈ keys xs then oldest xs k else oldest ys k := by
  rw [oldest, oldest, oldest, AbstractMap.lookup, AbstractMap.lookup, AbstractMap.lookup,
    List.find?_append]
  split
  · next h =>
    obtain ⟨x, hx, hxk⟩ := mem_keys.mp h
    have hsome : (xs.find? fun x => decide (x.key = k)).isSome :=
      List.find?_isSome.mpr ⟨x, hx, decide_eq_true hxk⟩
    rw [Option.or_of_isSome hsome]
  · next h =>
    rw [List.find?_eq_none.mpr, Option.none_or]
    intro x hx hxk
    exact h (mem_keys.mpr ⟨x, hx, of_decide_eq_true hxk⟩)

omit [LinearOrder K] in
theorem keys_reverse (kvs : List (KeyValue K)) : keys kvs.reverse = (keys kvs).reverse :=
  List.map_reverse

theorem newest_append (xs ys : List (KeyValue K)) (k : K) :
    newest (xs ++ ys) k = if k ∈ keys ys then newest ys k else newest xs k := by
  rw [newest, List.reverse_append, oldest_append, keys_reverse]
  simp only [List.mem_reverse]
  rfl

theorem newest_absent (h : k ∉ keys kvs) : newest kvs k = notFound := by
  apply oldest_absent
  rwa [keys_reverse, List.mem_reverse]

/-- The only value of a key is its oldest and its newest. -/
theorem oldest_mem (h : (keys kvs).Nodup) {kv : KeyValue K} (hkv : kv ∈ kvs) :
    oldest kvs kv.key = kv.value := by
  rw [oldest, AbstractMap.lookup_mem h hkv]
  rfl

theorem newest_eq_oldest (h : (keys kvs).Nodup) (k : K) : newest kvs k = oldest kvs k := by
  by_cases hk : k ∈ keys kvs
  · obtain ⟨x, hx, rfl⟩ := mem_keys.mp hk
    rw [newest, oldest_mem h hx, oldest_mem _ (List.mem_reverse.mpr hx)]
    rw [keys_reverse]
    exact List.nodup_reverse.mpr h
  · rw [newest_absent hk, oldest_absent hk]

/-- A prefix of the insertions in LIPP: when its answer, or else the newest insertion, is the
newest value of all. -/
theorem first_probe_newest_iff {data passed ins : List (KeyValue K)} (hdata : (keys data).Nodup)
    (hpassed : passed <+: ins) (k : K) :
    (if oldest (data ++ passed) k = notFound then newest ins k else oldest (data ++ passed) k) =
        newest (data ++ ins) k ↔
      k ∉ keys (data ++ passed) ∨ oldest (data ++ ins) k = newest (data ++ ins) k ∨
        oldest (data ++ ins) k = notFound := by
  by_cases hk : k ∈ keys (data ++ passed)
  · -- LIPP has the first of all values of `k`.
    have hfirst : oldest (data ++ ins) k = oldest (data ++ passed) k := by
      obtain ⟨rest, rfl⟩ := hpassed
      rw [← List.append_assoc, oldest_append (data ++ passed), if_pos hk]
    rw [hfirst]
    by_cases hmiss : oldest (data ++ passed) k = notFound
    · rw [if_pos hmiss]
      refine iff_of_true ?_ (.inr (.inr hmiss))
      rw [newest_append]
      split
      · rfl
      · next hins =>
        have hdatak : k ∈ keys data := by
          rw [keys_append, List.mem_append] at hk
          exact hk.resolve_right fun h => hins (hpassed.sublist.map _ |>.subset h)
        rw [oldest_append, if_pos hdatak] at hmiss
        rw [newest_eq_oldest hdata, hmiss, newest_absent hins]
    · rw [if_neg hmiss]
      simp only [hk, hmiss, not_true_eq_false, false_or, or_false]
  · have hdatak : k ∉ keys data := fun h => hk (by rw [keys_append]; exact List.mem_append_left _ h)
    rw [if_pos (oldest_absent hk)]
    refine iff_of_true ?_ (.inl hk)
    rw [newest_append]
    split
    · rfl
    · next hins => rw [newest_absent hins, newest_absent hdatak]

/-- The other way round the newest insertion comes before what LIPP has. -/
theorem second_probe_newest {data ins : List (KeyValue K)} (passed : List (KeyValue K))
    (hdata : (keys data).Nodup) (hfound : newest (data ++ ins) k ≠ notFound) :
    (if newest ins k = notFound then oldest (data ++ passed) k else newest ins k) =
      newest (data ++ ins) k := by
  rw [newest_append] at hfound ⊢
  by_cases hins : k ∈ keys ins
  · rw [if_pos hins] at hfound ⊢
    exact if_neg hfound
  · rw [if_neg hins] at hfound ⊢
    have hdatak : k ∈ keys data := by
      by_contra h
      exact hfound (newest_absent h)
    rw [if_pos (newest_absent hins), oldest_append, if_pos hdatak, newest_eq_oldest hdata]

end Values

section Steps

variable {pgmOps : PgmOps K P} {lippOps : LippOps K L E} {s t : State ι K P L E} {i : ι}

/-- The item an `Insert` call has not yet given to `pgm.Insert`. -/
@[grind]
def ClientPc.toStore : ClientPc K → List (KeyValue K)
  | .insertPgm kv => [kv]
  | _ => []

/-- The item an `Insert` call has given to `pgm.Insert` but not yet queued in the buffer. -/
@[grind]
def ClientPc.toQueue : ClientPc K → List (KeyValue K)
  | .insertLock kv | .insertPush kv => [kv]
  | _ => []

/-- Between the lock and the unlock of `Insert`, a flush of its own included. -/
@[grind]
def ClientPc.inLock (pc : ClientPc K) : Bool := pc.holdsBuffer || pc.isInline

/-- Only client `i` is calling.  If it flushes on its own it waits for a mutex that it holds. -/
structure Serial (i : ι) (s : State ι K P L E) : Prop where
  others : ∀ j, j ≠ i → s.clients j = .idle
  building : (s.clients i).isBuilding = false
  inLock : (s.clients i).inLock = true → s.bufferMutex = some (.client i)
  workerHolds : s.worker.holdsBuffer = true → s.bufferMutex = some .worker
  inline : ∀ kv pc, s.clients i = .insertFlush kv pc → pc = .lock

/-- A call made by another client than `i`. -/
def Action.isForeign [DecidableEq ι] (i : ι) : Action ι K → Bool
  | .call j _ => decide (j ≠ i)
  | _ => false

theorem Opened.serial {data : List (KeyValue K)} (h : Opened pgmOps lippOps data s) (i : ι) :
    Serial i s where
  others j _ := h.idle j
  building := by rw [h.idle]; rfl
  inLock hlock := by rw [h.idle] at hlock; cases hlock
  workerHolds := h.workerHolds
  inline kv pc hpc := by rw [h.idle] at hpc; cases hpc

theorem Serial.not_building (hs : Serial i s) (j : ι) : (s.clients j).isBuilding = false := by
  by_cases hj : j = i
  · rw [hj, hs.building]
  · rw [hs.others j hj]
    rfl

theorem Serial.flush_locks (hs : Serial i s) (j : ι) (kv : KeyValue K) (pc : FlushPc K)
    (hpc : s.clients j = .insertFlush kv pc) : pc = .lock := by
  by_cases hj : j = i
  · exact hs.inline kv pc (hj ▸ hpc)
  · rw [hs.others j hj] at hpc
    cases hpc

variable [DecidableEq ι]

/-- Client `i` goes on, and the worker does not. -/
theorem Serial.move (hs : Serial i s) (pc : ClientPc K)
    (hclients : ∀ j, t.clients j = if j = i then pc else s.clients j) (hworker : t.worker = s.worker)
    (hbuilding : pc.isBuilding = false) (hlock : pc.inLock = true → t.bufferMutex = some (.client i))
    (hmutex : s.worker.holdsBuffer = true → t.bufferMutex = s.bufferMutex)
    (hinline : ∀ kv pc', pc = .insertFlush kv pc' → pc' = .lock) : Serial i t where
  others j hj := by rw [hclients, if_neg hj, hs.others j hj]
  building := by rw [hclients, if_pos rfl, hbuilding]
  inLock := by
    rw [hclients, if_pos rfl]
    exact hlock
  workerHolds h := by
    rw [hworker] at h
    rw [hmutex h, hs.workerHolds h]
  inline := by
    rw [hclients, if_pos rfl]
    exact hinline

omit [DecidableEq ι] in
/-- The worker neither takes the mutex from client `i` nor gives it back for it. -/
theorem WorkerStep.mutex_kept (hs : Serial i s) (h : WorkerStep lippOps s t)
    (hmutex : s.bufferMutex = some (.client i)) : t.bufferMutex = some (.client i) := by
  have hholds := hs.workerHolds
  cases h with
  | flush hpc h =>
    rw [hpc] at hholds
    cases h with
    | lock hfree => rw [hfree] at hmutex; cases hmutex
    | empty | unlock =>
      rw [hholds rfl] at hmutex
      cases hmutex
    | _ => exact hmutex
  | _ => exact hmutex

theorem Serial.client_step (hs : Serial i s) (h : ClientStep pgmOps lippOps s i t) : Serial i t := by
  have hbuilding := hs.building
  have hlock := hs.inLock
  -- While client `i` is in the lock the worker does not hold the mutex.
  have hworker : (s.clients i).inLock = true → ∀ mutex : Option (Thread ι),
      s.worker.holdsBuffer = true → mutex = s.bufferMutex := by
    intro hin mutex hholds
    have := (hs.workerHolds hholds).symm.trans (hlock hin)
    cases this
  cases h with
  | insertFlush hpc h =>
    obtain rfl := hs.inline _ _ hpc
    rw [hpc] at hlock
    cases h with
    | lock hfree =>
      rw [hlock rfl] at hfree
      cases hfree
  | buildClear hpc | buildPgm hpc | built hpc | buildAborted hpc => rw [hpc] at hbuilding; cases hbuilding
  | insertLock hpc hfree =>
    refine hs.move _ (fun j => setClient_clients _ i j _) rfl rfl (fun _ => rfl) ?_ ?_
    · intro hholds
      rw [hs.workerHolds hholds] at hfree
      cases hfree
    · simp
  | insertUnlock hpc =>
    rw [hpc] at hworker
    refine hs.move _ (fun j => setClient_clients _ i j _) rfl rfl ?_ ?_ ?_
    · intro hin
      cases hin
    · exact hworker rfl none
    · simp
  | flushInline hpc | insertPush hpc | insertCount hpc | insertTested hpc =>
    rw [hpc] at hlock
    exact hs.move _ (fun j => setClient_clients _ i j _) rfl rfl (fun _ => hlock rfl) (fun _ => rfl)
      (by simp)
  | _ hpc =>
    refine hs.move _ (fun j => setClient_clients _ i j _) rfl rfl ?_ ?_ ?_
    · intro hin
      cases hin
    · exact fun _ => rfl
    · simp

theorem Serial.step {a : Action ι K} (hs : Serial i s) (hbuild : a.isBuild = false)
    (hforeign : a.isForeign i = false) (h : Step pgmOps lippOps s a t) : Serial i t := by
  cases h with
  | call j call hpc hd =>
    obtain rfl : j = i := by simpa [Action.isForeign] using hforeign
    refine hs.move call.entry (fun k => setClient_clients _ j k _) rfl ?_ ?_ ?_ ?_
    · cases call with
      | build data => cases hbuild
      | _ => rfl
    · intro hin
      cases call <;> cases hin
    · exact fun _ => rfl
    · cases call <;> simp [Call.entry]
  | client j h =>
    obtain rfl : j = i := by
      by_contra hne
      have hidle := hs.others j hne
      cases h <;> simp_all
    exact hs.client_step h
  | ret j call reply hpc =>
    obtain rfl : j = i := by
      by_contra hne
      rw [hs.others j hne] at hpc
      cases hpc
    refine hs.move .idle (fun k => setClient_clients _ j k _) rfl rfl ?_ ?_ ?_
    · intro hin
      cases hin
    · exact fun _ => rfl
    · simp
  | worker h =>
    obtain ⟨-, hclients⟩ := h.frame
    constructor
    · rw [hclients]
      exact hs.others
    · rw [hclients]
      exact hs.building
    · rw [hclients]
      exact fun hin => h.mutex_kept hs (hs.inLock hin)
    · exact h.holds hs.workerHolds
    · rw [hclients]
      exact hs.inline
  | destructor h => cases h <;> exact ⟨hs.others, hs.building, hs.inLock, hs.workerHolds, hs.inline⟩

/-- What the client has still to store, what it has stored and not yet returned, and what waits
for LIPP, in order. -/
theorem Serial.items_step {a : Action ι K} (hs : Serial i s) (h : Step pgmOps lippOps s a t)
    (hforeign : a.isForeign i = false) :
    (s.clients i).toStore ++ a.inserted = storedBy s a ++ (t.clients i).toStore ∧
      (s.clients i).carried ++ storedBy s a = a.returned ++ (t.clients i).carried ∧
      s.worker.batch ++ s.buffer ++ (s.clients i).toQueue ++ storedBy s a =
        passedBy s a ++ (t.worker.batch ++ t.buffer ++ (t.clients i).toQueue) := by
  have hbuilding := hs.building
  cases h with
  | call j call hpc hd =>
    obtain rfl : j = i := by simpa [Action.isForeign] using hforeign
    cases call <;> simp [hpc, Call.entry, storedBy, passedBy, Action.inserted, Action.returned,
      ClientPc.toStore, ClientPc.carried, ClientPc.toQueue]
  | client j h =>
    obtain rfl : j = i := by
      by_contra hne
      have hidle := hs.others j hne
      cases h <;> simp_all
    cases h with
    | insertFlush hpc h =>
      obtain rfl := hs.inline _ _ hpc
      have hlock := hs.inLock
      rw [hpc] at hlock
      cases h with
      | lock hfree =>
        rw [hlock rfl] at hfree
        cases hfree
    | buildClear hpc | buildPgm hpc | built hpc | buildAborted hpc =>
      rw [hpc] at hbuilding
      cases hbuilding
    | _ hpc =>
      simp [hpc, storedBy, passedBy, Action.inserted, Action.returned, ClientPc.toStore, ClientPc.carried,
        ClientPc.toQueue]
  | ret j call reply hpc =>
    obtain rfl : j = i := by
      by_contra hne
      rw [hs.others j hne] at hpc
      cases hpc
    cases call <;> simp [hpc, storedBy, passedBy, Action.inserted, Action.returned, ClientPc.toStore,
      ClientPc.carried, ClientPc.toQueue]
  | worker h =>
    obtain ⟨-, hclients⟩ := h.frame
    rw [hclients]
    refine ⟨List.append_nil _, List.append_nil _, ?_⟩
    cases h with
    | flush hpc h =>
      cases h <;> simp [storedBy, passedBy, WorkerPc.batch, FlushPc.batch, *]
    | lockFlush hpc h => obtain hpc | hpc := hpc <;> simp [hpc, storedBy, passedBy, WorkerPc.batch]
    | _ hpc => simp [hpc, storedBy, passedBy, WorkerPc.batch, FlushPc.batch]
  | destructor h =>
    cases h <;> exact ⟨List.append_nil _, List.append_nil _, List.append_nil _⟩

/-- The lookup has asked LIPP and will return `w`. -/
def Settled (pgmOps : PgmOps K P) (i : ι) (k : K) (w : UInt64) (s : State ι K P L E) : Prop :=
  s.clients i = .lookupPgm k ∧ pgmOps.equalityLookup s.pgm k = w ∨
    s.clients i = .finished (.lookup k) (.value w)

theorem Settled.step {k : K} {w : UInt64} {a : Action ι K} (hw : Settled pgmOps i k w s) (hs : Serial i s)
    (ha : a.isCall = false) (hret : ∀ call reply, a ≠ .ret i call reply)
    (h : Step pgmOps lippOps s a t) : Settled pgmOps i k w t := by
  cases h with
  | call j call => cases ha
  | client j h =>
    obtain rfl : j = i := by
      by_contra hne
      have hidle := hs.others j hne
      cases h <;> simp_all
    obtain ⟨hw, hpgm⟩ | hw := hw
    · cases h with
      | lookupPgm hpc =>
        rw [hw] at hpc
        cases hpc
        exact .inr (by rw [setClient_clients, if_pos rfl, hpgm])
      | _ hpc => rw [hw] at hpc; cases hpc
    · cases h with
      | _ hpc => rw [hw] at hpc; cases hpc
  | ret j call reply hpc =>
    have hne : j ≠ i := fun heq => hret call reply (heq ▸ rfl)
    rw [hs.others j hne] at hpc
    cases hpc
  | worker h =>
    obtain ⟨hpgm, hclients⟩ := h.frame
    rwa [Settled, hclients, hpgm]
  | destructor h =>
    obtain ⟨hpgm, hclients⟩ := h.frame
    rwa [Settled, hclients, hpgm]

end Steps

section Runs

variable [Fintype ι] [DecidableEq ι] [LinearOrder K] {pgmOps : PgmOps K P} {lippOps : LippOps K L E}
  {PInv : P → Prop} {LInv : L → Prop} {contents : L → Multiset (KeyValue K)}
  {data : List (KeyValue K)} {s₀ s : State ι K P L E} {acts : List (Action ι K)} {i : ι} {k : K}

/-- What a run by client `i` after `Build` has done so far. -/
structure Followed (pgmOps : PgmOps K P) (lippOps : LippOps K L E) (i : ι) (s₀ : State ι K P L E)
    (acts : List (Action ι K)) (s : State ι K P L E) : Prop extends Serial i s where
  pgm : s.pgm = (storedIn pgmOps lippOps s₀ acts).foldl pgmOps.insert pgmOps.empty
  called_eq : inserted acts = storedIn pgmOps lippOps s₀ acts ++ (s.clients i).toStore
  returned_eq : storedIn pgmOps lippOps s₀ acts = returned acts ++ (s.clients i).carried
  passed_eq : storedIn pgmOps lippOps s₀ acts =
    passedIn pgmOps lippOps s₀ acts ++ (s.worker.batch ++ s.buffer ++ (s.clients i).toQueue)

theorem Opened.followed (h₀ : Opened pgmOps lippOps data s₀) (hacts : ∀ a ∈ acts, a.isBuild = false)
    (hcalls : ∀ a ∈ acts, a.isForeign i = false)
    (hrun : run (step pgmOps lippOps) s₀ acts = some s) : Followed pgmOps lippOps i s₀ acts s := by
  apply run_induction _ _ hrun
  · exact ⟨h₀.serial i, h₀.pgm, by simp [h₀.idle, inserted, ClientPc.toStore], by simp [h₀.idle, returned, ClientPc.carried],
      by simp [h₀.idle, h₀.batch, h₀.buffer, ClientPc.toQueue]⟩
  rintro bs r a r' hp hr hs hstep
  have hmem : a ∈ acts := hp.subset (by simp)
  have h := Step.of_step hstep
  obtain ⟨hstore, hcarried, hqueue⟩ := hs.items_step h (hcalls a hmem)
  have hstored : storedIn pgmOps lippOps s₀ (bs ++ [a]) = storedIn pgmOps lippOps s₀ bs ++ storedBy r a :=
    trace_concat hr hstep
  have hpassed : passedIn pgmOps lippOps s₀ (bs ++ [a]) = passedIn pgmOps lippOps s₀ bs ++ passedBy r a :=
    trace_concat hr hstep
  refine ⟨hs.step (hacts a hmem) (hcalls a hmem) h, ?_, ?_, ?_, ?_⟩
  · rw [pgm_step hs.not_building h, hs.pgm, hstored, List.foldl_append]
  · rw [inserted_append, inserted_singleton, hs.called_eq, hstored, List.append_assoc, hstore]
    exact (List.append_assoc _ _ _).symm
  · rw [hstored, hs.returned_eq, List.append_assoc, hcarried, returned, returned,
      List.flatMap_append, List.flatMap_singleton, List.append_assoc]
  · rw [hstored, hs.passed_eq, hpassed, List.append_assoc, hqueue]
    exact (List.append_assoc _ _ _).symm

theorem lookup_foldl (hlaw : pgmOps.Upserts PInv) (kvs : List (KeyValue K)) (k : K) :
    PInv (kvs.foldl pgmOps.insert pgmOps.empty) ∧
      pgmOps.equalityLookup (kvs.foldl pgmOps.insert pgmOps.empty) k = newest kvs k := by
  induction kvs using List.reverseRecOn with
  | nil => exact ⟨hlaw.inv_empty, hlaw.lookup_empty k⟩
  | append_singleton kvs kv ih =>
    obtain ⟨hinv, hlookup⟩ := ih
    rw [List.foldl_append, List.foldl_cons, List.foldl_nil, newest_append]
    refine ⟨hlaw.inv_insert kv hinv, ?_⟩
    rw [hlaw.lookup_insert kv k hinv, hlookup]
    by_cases hk : kv.key = k
    · subst hk
      rw [if_pos rfl, if_pos (by simp), newest]
      exact (oldest_mem (by simp) (List.mem_singleton_self kv)).symm
    · rw [if_neg hk, if_neg (by simpa using Ne.symm hk)]

/-- LIPP has one pair for each key that has reached it, as long as the process lives. -/
theorem Opened.lipp_contents (hlaw : lippOps.Asserts LInv contents)
    (h₀ : Opened pgmOps lippOps data s₀) (hdata : (keys data).Pairwise (· < ·))
    (hacts : ∀ a ∈ acts, a.isBuild = false) (hcalls : ∀ a ∈ acts, a.isForeign i = false)
    (hrun : run (step pgmOps lippOps) s₀ acts = some s) (hok : s.failed = none) :
    LInv s.lipp ∧ (keys (data ++ passedIn pgmOps lippOps s₀ acts)).Nodup ∧
      contents s.lipp = (data ++ passedIn pgmOps lippOps s₀ acts : List (KeyValue K)) := by
  refine run_induction (P := fun bs r => r.failed = none → LInv r.lipp ∧
    (keys (data ++ passedIn pgmOps lippOps s₀ bs)).Nodup ∧
    contents r.lipp = (data ++ passedIn pgmOps lippOps s₀ bs : List (KeyValue K))) ?_ ?_ hrun hok
  · intro _
    obtain ⟨hinv, hcontents⟩ := hlaw.build hdata h₀.lipp
    have hnone : passedIn pgmOps lippOps s₀ [] = [] := rfl
    rw [hnone, List.append_nil]
    exact ⟨hinv, hdata.imp ne_of_lt, hcontents⟩
  rintro bs r a r' hp hr hP hstep hok'
  obtain ⟨hinv, hnodup, hcontents⟩ := hP (not_failed_of_step hstep)
  have hserial := (h₀.followed (fun b hb => hacts b (hp.subset (by simp [hb])))
    (fun b hb => hcalls b (hp.subset (by simp [hb]))) hr).toSerial
  have hpassed : passedIn pgmOps lippOps s₀ (bs ++ [a]) = passedIn pgmOps lippOps s₀ bs ++ passedBy r a :=
    trace_concat hr hstep
  rw [hpassed]
  obtain ⟨hnone, hl⟩ | ⟨item, hone, hl | hl⟩ :=
    lipp_step hserial.not_building hserial.flush_locks (.of_step hstep)
  · rw [hnone, List.append_nil, hl]
    exact ⟨hinv, hnodup, hcontents⟩
  · rw [hone, ← List.append_assoc]
    have hnew : ∀ x ∈ contents r.lipp, x.key ≠ item.key := by
      intro x hx hk
      obtain ⟨e, he⟩ := hlaw.insert_present hinv hx hk
      rw [he] at hl
      cases hl
    obtain ⟨hinv', hcontents'⟩ := hlaw.insert hinv hnew hl
    rw [hcontents] at hnew
    refine ⟨hinv', ?_, ?_⟩
    · rw [keys_append, List.nodup_append]
      refine ⟨hnodup, by simp, ?_⟩
      intro key hkey key' hkey'
      obtain ⟨x, hx, rfl⟩ := mem_keys.mp hkey
      obtain rfl : key' = item.key := by simpa using hkey'
      exact hnew x hx
    · rw [hcontents', hcontents, ← Multiset.coe_add _ [item], add_comm]
      rfl
  · rw [hok'] at hl
    cases hl

/-- What the two indexes answer when a lookup begins. -/
theorem Opened.answers (hpl : pgmOps.Upserts PInv) (hll : lippOps.Asserts LInv contents)
    (h₀ : Opened pgmOps lippOps data s₀) (hdata : (keys data).Pairwise (· < ·))
    (hacts : ∀ a ∈ acts, a.isBuild = false) (hcalls : ∀ a ∈ acts, a.isForeign i = false)
    (hrun : run (step pgmOps lippOps) s₀ acts = some s) (hpc : s.clients i = .lookupLipp k)
    (hok : s.failed = none) :
    (keys data).Nodup ∧ passedIn pgmOps lippOps s₀ acts <+: returned acts ∧
      lippOps.equalityLookup s.lipp k = oldest (data ++ passedIn pgmOps lippOps s₀ acts) k ∧
      pgmOps.equalityLookup s.pgm k = newest (returned acts) k := by
  have hs := h₀.followed hacts hcalls hrun
  obtain ⟨hinv, hnodup, hcontents⟩ := h₀.lipp_contents hll hdata hacts hcalls hrun hok
  have hstored : storedIn pgmOps lippOps s₀ acts = returned acts := by
    rw [hs.returned_eq, hpc]
    exact List.append_nil _
  refine ⟨hdata.imp ne_of_lt, ?_, ?_, ?_⟩
  · rw [← hstored, hs.passed_eq]
    exact List.prefix_append _ _
  · by_cases hk : k ∈ keys (data ++ passedIn pgmOps lippOps s₀ acts)
    · obtain ⟨x, hx, rfl⟩ := mem_keys.mp hk
      rw [oldest_mem hnodup hx]
      exact hll.lookup_mem hinv (by rw [hcontents]; exact hx)
    · rw [oldest_absent hk]
      apply hll.lookup_absent hinv
      rw [hcontents]
      exact fun x hx hxk => hk (mem_keys.mpr ⟨x, hx, hxk⟩)
  · rw [hs.pgm, hstored]
    exact (lookup_foldl hpl _ k).2

/-- From `s`, where client `i` is about to ask LIPP for `k`, its lookup can return `v`. -/
def Answers (pgmOps : PgmOps K P) (lippOps : LippOps K L E) (s : State ι K P L E) (i : ι) (k : K)
    (v : UInt64) : Prop :=
  ∃ (rest : List (Action ι K)) (t : State ι K P L E),
    (∀ a ∈ rest, a.isCall = false) ∧ (∀ call reply, .ret i call reply ∉ rest) ∧
      run (step pgmOps lippOps) s (.client i :: (rest ++ [.ret i (.lookup k) (.value v)])) = some t

/-- What a lookup returns, given what its two probes find. -/
def probed (pgmOps : PgmOps K P) (lippOps : LippOps K L E) (s : State ι K P L E) (k : K) : UInt64 :=
  if lippOps.equalityLookup s.lipp k = notFound then pgmOps.equalityLookup s.pgm k
  else lippOps.equalityLookup s.lipp k

theorem ret_step {call : Call K} {reply : Reply} (hok : s.failed = none)
    (hpc : s.clients i = .finished call reply) :
    step pgmOps lippOps s (.ret i call reply) = some (s.setClient i .idle) := by
  simp [step, hok, hpc]

theorem answers_probed (hpc : s.clients i = .lookupLipp k) (hok : s.failed = none) :
    Answers pgmOps lippOps s i k (probed pgmOps lippOps s k) := by
  -- The client goes on alone.
  suffices h : ∃ (rest : List (Action ι K)) (t : State ι K P L E), (∀ a ∈ rest, a = .client i) ∧
      run (step pgmOps lippOps) s (.client i :: (rest ++
        [.ret i (.lookup k) (.value (probed pgmOps lippOps s k))])) = some t by
    obtain ⟨rest, t, hrest, hrun⟩ := h
    refine ⟨rest, t, fun a ha => by rw [hrest a ha]; rfl, fun call reply ha => ?_, hrun⟩
    cases hrest _ ha
  rw [probed]
  by_cases hmiss : lippOps.equalityLookup s.lipp k = notFound
  · have hlipp : step pgmOps lippOps s (.client i) = some (s.setClient i (.lookupPgm k)) := by
      simp [step, clientStep, hok, hpc, hmiss]
    have hpgm : step pgmOps lippOps (s.setClient i (.lookupPgm k)) (.client i) =
        some ((s.setClient i (.lookupPgm k)).setClient i
          (.finished (.lookup k) (.value (pgmOps.equalityLookup s.pgm k)))) := by
      simp [step, clientStep, hok]
    rw [if_pos hmiss]
    exact ⟨[.client i], _, fun a ha => List.mem_singleton.mp ha, run_cons_eq_some.mpr ⟨_, hlipp,
      run_cons_eq_some.mpr ⟨_, hpgm, run_cons_eq_some.mpr ⟨_, ret_step hok (by simp), rfl⟩⟩⟩⟩
  · have hlipp : step pgmOps lippOps s (.client i) = some (s.setClient i
        (.finished (.lookup k) (.value (lippOps.equalityLookup s.lipp k)))) := by
      simp [step, clientStep, hok, hpc, hmiss]
    rw [if_neg hmiss]
    exact ⟨[], _, fun a ha => absurd ha List.not_mem_nil,
      run_cons_eq_some.mpr ⟨_, hlipp, run_cons_eq_some.mpr ⟨_, ret_step hok (by simp), rfl⟩⟩⟩

/-- No interleaving changes the answer. -/
theorem Serial.eq_probed (hs : Serial i s) (hpc : s.clients i = .lookupLipp k) {v : UInt64}
    (h : Answers pgmOps lippOps s i k v) : v = probed pgmOps lippOps s k := by
  obtain ⟨rest, t, hcalls, hret, hrun⟩ := h
  obtain ⟨s₁, hfirst, hrun⟩ := run_cons_eq_some.mp hrun
  obtain ⟨s₂, hrest, hlast⟩ := run_concat_eq_some.mp hrun
  have hfirst := Step.of_step hfirst
  have hs₁ : Serial i s₁ := hs.step rfl rfl hfirst
  have hw₁ : Settled pgmOps i k (probed pgmOps lippOps s k) s₁ := by
    cases hfirst with
    | client _ h =>
      cases h with
      | lippMiss hpc' hmiss =>
        obtain rfl := ClientPc.lookupLipp.inj (hpc.symm.trans hpc')
        exact .inl ⟨by rw [setClient_clients, if_pos rfl], (if_pos hmiss).symm⟩
      | lippHit hpc' hhit =>
        obtain rfl := ClientPc.lookupLipp.inj (hpc.symm.trans hpc')
        exact .inr (by rw [setClient_clients, if_pos rfl, probed, if_neg hhit])
      | _ hpc' => rw [hpc] at hpc'; cases hpc'
  have hw₂ : Serial i s₂ ∧ Settled pgmOps i k (probed pgmOps lippOps s k) s₂ := by
    refine run_induction (P := fun _ r => Serial i r ∧ Settled pgmOps i k _ r) ⟨hs₁, hw₁⟩ ?_ hrest
    rintro bs r a r' hp hr ⟨hsr, hwr⟩ hstep
    have hmem : a ∈ rest := hp.subset (by simp)
    have hcall := hcalls a hmem
    refine ⟨hsr.step ?_ ?_ (.of_step hstep), hwr.step hsr hcall ?_ (.of_step hstep)⟩
    · cases a <;> first | rfl | cases hcall
    · cases a <;> first | rfl | cases hcall
    · exact fun call reply heq => hret call reply (heq ▸ hmem)
  cases Step.of_step hlast with
  | ret _ _ _ hpc₂ =>
    obtain ⟨-, ⟨hw, -⟩ | hw⟩ := hw₂ <;> rw [hw] at hpc₂ <;> cases hpc₂
    rfl

/-- The lookup of `k` returns `w`, in every run in which it returns, and it does return. -/
def Returns (pgmOps : PgmOps K P) (lippOps : LippOps K L E) (s : State ι K P L E) (i : ι) (k : K)
    (w : UInt64) : Prop :=
  (∃ v, Answers pgmOps lippOps s i k v) ∧ ∀ v, Answers pgmOps lippOps s i k v → v = w

theorem Serial.returns_iff (hs : Serial i s) (hpc : s.clients i = .lookupLipp k) (w : UInt64) :
    Returns pgmOps lippOps s i k w ↔ s.failed = none ∧ probed pgmOps lippOps s k = w := by
  constructor
  · rintro ⟨⟨v, hv⟩, hall⟩
    obtain ⟨rest, t, hcalls, hret, hrun⟩ := id hv
    obtain ⟨s₁, hfirst, -⟩ := run_cons_eq_some.mp hrun
    exact ⟨not_failed_of_step hfirst, (hs.eq_probed hpc hv).symm.trans (hall v hv)⟩
  · rintro ⟨hok, rfl⟩
    exact ⟨⟨_, answers_probed hpc hok⟩, fun v hv => hs.eq_probed hpc hv⟩

/-- One `Insert` call from its start to its return, without a step of the worker. -/
def insertAlone (kv : KeyValue Nat) : List (Action Unit Nat) :=
  [.call () (.insert kv), .client (), .client (), .client (), .client (), .client (), .client (),
    .ret () (.insert kv) .done]

/-- What a lookup would return that asked the PGM first, as the task describes it. -/
def probedInOrder (pgmOps : PgmOps K P) (lippOps : LippOps K L E) (s : State ι K P L E) (k : K) : UInt64 :=
  if pgmOps.equalityLookup s.pgm k = overflow then lippOps.equalityLookup s.lipp k
  else pgmOps.equalityLookup s.pgm k

theorem probedInOrder_newest (hpl : pgmOps.Upserts PInv) (hll : lippOps.Asserts LInv contents)
    (h₀ : Opened pgmOps lippOps data s₀) (hdata : (keys data).Pairwise (· < ·))
    (hacts : ∀ a ∈ acts, a.isBuild = false) (hcalls : ∀ a ∈ acts, a.isForeign i = false)
    (hrun : run (step pgmOps lippOps) s₀ acts = some s) (hpc : s.clients i = .lookupLipp k)
    (hok : s.failed = none) (hfound : newest (data ++ returned acts) k ≠ notFound) :
    probedInOrder pgmOps lippOps s k = newest (data ++ returned acts) k := by
  obtain ⟨hnodup, -, hlipp, hpgm⟩ := h₀.answers hpl hll hdata hacts hcalls hrun hpc hok
  rw [probedInOrder, hlipp, hpgm]
  exact second_probe_newest _ hnodup hfound

end Runs

end LearnedIndex.Hybrid
