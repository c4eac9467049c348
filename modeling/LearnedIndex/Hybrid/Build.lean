import LearnedIndex.Hybrid.Ledger

/-! The states right after the one `Build` call that starts a run. -/

universe u v w x y

namespace LearnedIndex.Hybrid

open Util Transition

variable {ι : Type y} {K : Type u} {P : Type v} {L : Type w} {E : Type x}

@[grind]
def Action.isCall : Action ι K → Bool
  | .call _ _ => true
  | _ => false

@[grind]
def ClientPc.isInserting : ClientPc K → Bool
  | .insertPgm _ | .insertLock _ | .insertPush _ | .insertCount _ | .insertTest _
  | .insertFlush _ _ | .insertUnlock _ => true
  | _ => false

/-- Nothing has been inserted and nothing is being flushed. -/
structure Vacant (s : State ι K P L E) : Prop where
  buffer : s.buffer = []
  pgmSize : s.pgmSize = 0
  batch : s.worker.batch = []
  unshrunk : s.worker.unshrunk = 0
  clients : ∀ i, (s.clients i).isInserting = false

variable {pgmOps : PgmOps K P} {lippOps : LippOps K L E}

theorem Vacant.worker_step {s t : State ι K P L E} (hs : Vacant s) (h : WorkerStep lippOps s t) :
    Vacant t ∧ t.lipp = s.lipp ∧ t.pgm = s.pgm ∧ t.clients = s.clients := by
  obtain ⟨hb, hp, hba, hu, hc⟩ := hs
  cases h with
  | flush hpc h =>
    rw [hpc] at hba hu
    cases h with
    | cut hne => exact (hne hb).elim
    | shrink items n =>
      obtain rfl : n = 0 := hu
      exact ⟨⟨hb, by simpa using hp, hba, rfl, hc⟩, rfl, rfl, rfl⟩
    | unlock items => exact ⟨⟨hb, hp, hba, rfl, hc⟩, rfl, rfl, rfl⟩
    | inserted | aborted => simp [WorkerPc.batch, FlushPc.batch] at hba
    | _ => exact ⟨⟨hb, hp, rfl, rfl, hc⟩, rfl, rfl, rfl⟩
  | _ => exact ⟨⟨hb, hp, rfl, rfl, hc⟩, rfl, rfl, rfl⟩

/-- A worker that holds the mutex owns it. -/
theorem WorkerStep.holds {s t : State ι K P L E} (h : WorkerStep lippOps s t)
    (hs : s.worker.holdsBuffer = true → s.bufferMutex = some .worker) :
    t.worker.holdsBuffer = true → t.bufferMutex = some .worker := by
  cases h with
  | flush hpc h =>
    rw [hpc] at hs
    cases h with
    | lock hfree => exact fun _ => rfl
    | cut | shrink => exact fun _ => hs rfl
    | _ =>
      intro ht
      cases ht
  | _ =>
    intro ht
    cases ht

/-- The machine before its first call. -/
structure Booting (pgmOps : PgmOps K P) (lippOps : LippOps K L E) (s : State ι K P L E) :
    Prop extends Sound s, Vacant s where
  idle : ∀ j, s.clients j = .idle
  pgm : s.pgm = pgmOps.empty
  lipp : s.lipp = lippOps.empty

theorem booting_construct {config : Config} (h : config.asyncFlush = true) :
    Booting pgmOps lippOps (construct pgmOps lippOps config : State ι K P L E) := by
  have hworker : (construct pgmOps lippOps config : State ι K P L E).worker = .lockFlush := by
    simp [construct, h]
  refine ⟨⟨⟨h, fun _ => rfl, ?_, ?_⟩, ⟨fun _ => rfl, ?_, ?_, ?_⟩, ⟨fun _ _ => rfl, ?_, ?_, ?_⟩,
    fun _ => rfl⟩, ⟨rfl, rfl, ?_, ?_, fun _ => rfl⟩, fun _ => rfl, rfl, rfl⟩
  · simp [construct, ClientPc.holdsBuffer]
  · rw [hworker]
    simp [WorkerPc.holdsBuffer, construct]
  · simp [construct]
  · simp [construct]
  · simp [hworker, WorkerPc.unshrunk]
  · simp [construct]
  · simp [hworker]
  · simp [hworker]
  · rw [hworker]
    rfl
  · rw [hworker]
    rfl

variable [DecidableEq ι]

/-- The machine before its first call, whatever the flush mode. -/
structure Blank (pgmOps : PgmOps K P) (lippOps : LippOps K L E) (s : State ι K P L E) : Prop
    extends Vacant s where
  workerHolds : s.worker.holdsBuffer = true → s.bufferMutex = some .worker
  idle : ∀ j, s.clients j = .idle
  pgm : s.pgm = pgmOps.empty
  lipp : s.lipp = lippOps.empty

omit [DecidableEq ι] in
theorem blank_construct (config : Config) :
    Blank pgmOps lippOps (construct pgmOps lippOps config : State ι K P L E) := by
  refine ⟨⟨rfl, rfl, ?_, ?_, fun _ => rfl⟩, ?_, fun _ => rfl, rfl, rfl⟩ <;>
    cases h : config.asyncFlush <;>
    simp [construct, h, WorkerPc.batch, WorkerPc.unshrunk, WorkerPc.holdsBuffer]

theorem Blank.step {s t : State ι K P L E} {a : Action ι K} (hs : Blank pgmOps lippOps s)
    (ha : a.isCall = false) (h : Step pgmOps lippOps s a t) : Blank pgmOps lippOps t := by
  have hidle := hs.idle
  cases h with
  | call i call => cases ha
  | client i h =>
    have := hidle i
    cases h <;> simp_all
  | ret i call reply hpc => rw [hidle i] at hpc; cases hpc
  | worker h =>
    obtain ⟨he, hl, hp, hc⟩ := hs.toVacant.worker_step h
    exact ⟨he, h.holds hs.workerHolds, by rwa [hc], by rw [hp, hs.pgm], by rw [hl, hs.lipp]⟩
  | destructor h =>
    cases h <;>
      exact ⟨⟨hs.buffer, hs.pgmSize, hs.batch, hs.unshrunk, hs.clients⟩, hs.workerHolds, hidle,
        hs.pgm, hs.lipp⟩

theorem Booting.step {s t : State ι K P L E} {a : Action ι K} (hs : Booting pgmOps lippOps s)
    (ha : a.isCall = false) (h : Step pgmOps lippOps s a t) : Booting pgmOps lippOps t := by
  obtain ⟨hsound, hempty, hidle, hpgm, hlipp⟩ := hs
  have hsound' : Sound t := by
    refine hsound.step ?_ h
    cases a with
    | call => cases ha
    | _ => rfl
  cases h with
  | call i call => cases ha
  | client i h =>
    have := hidle i
    cases h <;> simp_all
  | ret i call reply hpc => rw [hidle i] at hpc; cases hpc
  | worker h =>
    obtain ⟨he, hl, hp, hc⟩ := hempty.worker_step h
    exact ⟨hsound', he, by rwa [hc], by rw [hp, hpgm], by rw [hl, hlipp]⟩
  | destructor h =>
    obtain ⟨hb, hp, hba, hu, hc⟩ := hempty
    cases h <;> exact ⟨hsound', ⟨hb, hp, hba, hu, hc⟩, hidle, hpgm, hlipp⟩

/-- The progress of a `Build` call by client `i`, whatever the flush mode. -/
structure Opening (pgmOps : PgmOps K P) (lippOps : LippOps K L E) (data : List (KeyValue K))
    (i : ι) (s : State ι K P L E) : Prop extends Vacant s where
  workerHolds : s.worker.holdsBuffer = true → s.bufferMutex = some .worker
  others : ∀ j, j ≠ i → s.clients j = .idle
  phase : s.clients i = .buildClear data ∧ s.lipp = lippOps.empty ∨
    s.clients i = .buildPgm data ∧ s.lipp = lippOps.empty ∨
    s.clients i = .buildLipp data ∧ s.lipp = lippOps.empty ∧ s.pgm = pgmOps.empty ∨
    (s.clients i = .finished (.build data) .done ∨ s.clients i = .idle) ∧ s.pgm = pgmOps.empty ∧
      lippOps.build lippOps.empty data = .returns s.lipp

/-- Client `i` goes on within its call, and nothing else is touched but the PGM and LIPP. -/
theorem Opening.move {s t : State ι K P L E} {i : ι} {data : List (KeyValue K)} {pc : ClientPc K}
    (hs : Opening pgmOps lippOps data i s) (hworker : t.worker = s.worker)
    (hmutex : t.bufferMutex = s.bufferMutex) (hbuffer : t.buffer = []) (hsize : t.pgmSize = s.pgmSize)
    (hclients : ∀ j, t.clients j = if j = i then pc else s.clients j) (hpc : pc.isInserting = false)
    (hphase : pc = .buildPgm data ∧ t.lipp = lippOps.empty ∨
      pc = .buildLipp data ∧ t.lipp = lippOps.empty ∧ t.pgm = pgmOps.empty ∨
      (pc = .finished (.build data) .done ∨ pc = .idle) ∧ t.pgm = pgmOps.empty ∧
        lippOps.build lippOps.empty data = .returns t.lipp) : Opening pgmOps lippOps data i t where
  buffer := hbuffer
  pgmSize := hsize.trans hs.pgmSize
  batch := by rw [hworker, hs.batch]
  unshrunk := by rw [hworker, hs.unshrunk]
  clients j := by
    rw [hclients]
    split
    · exact hpc
    · exact hs.clients j
  workerHolds := by
    rw [hworker, hmutex]
    exact hs.workerHolds
  others j hj := by rw [hclients, if_neg hj, hs.others j hj]
  phase := by
    rw [hclients, if_pos rfl]
    exact .inr hphase

theorem Opening.step {s t : State ι K P L E} {a : Action ι K} {i : ι} {data : List (KeyValue K)}
    (hs : Opening pgmOps lippOps data i s) (ha : a.isCall = false) (h : Step pgmOps lippOps s a t) :
    Opening pgmOps lippOps data i t := by
  have hphase := hs.phase
  cases h with
  | call j call => cases ha
  | client j h =>
    obtain rfl : j = i := by
      by_contra hne
      have := hs.others j hne
      cases h <;> simp_all
    have hcase := hs.clients j
    cases h with
    | buildClear hpc =>
      simp only [hpc, reduceCtorEq, false_and, or_false, ClientPc.buildClear.injEq] at hphase
      exact hs.move rfl rfl rfl rfl (fun k => setClient_clients _ j k _) rfl
        (.inl (by simpa using hphase))
    | buildPgm hpc =>
      simp only [hpc, reduceCtorEq, false_and, false_or, or_false, ClientPc.buildPgm.injEq] at hphase
      exact hs.move rfl rfl hs.buffer rfl (fun k => setClient_clients _ j k _) rfl
        (.inr (.inl (by simpa using hphase)))
    | built hpc h =>
      simp only [hpc, reduceCtorEq, false_and, false_or, or_false, ClientPc.buildLipp.injEq] at hphase
      obtain ⟨rfl, hlipp, hpgm⟩ := hphase
      rw [hlipp] at h
      exact hs.move rfl rfl hs.buffer rfl (fun k => setClient_clients _ j k _) rfl
        (.inr (.inr ⟨.inl rfl, hpgm, h⟩))
    | buildAborted hpc h =>
      exact ⟨⟨hs.buffer, hs.pgmSize, hs.batch, hs.unshrunk, hs.clients⟩, hs.workerHolds, hs.others, hphase⟩
    | lippMiss hpc | lippHit hpc | lookupPgm hpc | rangePgm hpc => simp [hpc] at hphase
    | _ hpc => rw [hpc] at hcase; cases hcase
  | ret j call reply hpc =>
    obtain rfl : j = i := by
      by_contra hne
      rw [hs.others j hne] at hpc
      cases hpc
    simp only [hpc, reduceCtorEq, false_and, false_or, or_false] at hphase
    exact hs.move rfl rfl hs.buffer rfl (fun k => setClient_clients _ j k _) rfl
      (.inr (.inr ⟨.inr rfl, hphase.2⟩))
  | worker h =>
    obtain ⟨he, hl, hp, hc⟩ := hs.toVacant.worker_step h
    exact ⟨he, h.holds hs.workerHolds, by rw [hc]; exact hs.others, by rw [hc, hl, hp]; exact hphase⟩
  | destructor h =>
    cases h <;>
      exact ⟨⟨hs.buffer, hs.pgmSize, hs.batch, hs.unshrunk, hs.clients⟩, hs.workerHolds, hs.others, hphase⟩

theorem Opening.of_call {s t : State ι K P L E} {i : ι} {data : List (KeyValue K)}
    (hs : Blank pgmOps lippOps s) (h : Step pgmOps lippOps s (.call i (.build data)) t) :
    Opening pgmOps lippOps data i t := by
  cases h with
  | call _ _ hpc hd =>
    refine ⟨⟨hs.buffer, hs.pgmSize, hs.batch, hs.unshrunk, fun j => ?_⟩, hs.workerHolds,
      fun j hj => ?_, .inl ⟨?_, hs.lipp⟩⟩
    · rw [setClient_clients]
      split
      · rfl
      · exact hs.clients j
    · rw [setClient_clients, if_neg hj, hs.idle]
    · rw [setClient_clients, if_pos rfl]
      rfl

/-- The progress of a `Build` call by client `i`. -/
structure Building (pgmOps : PgmOps K P) (lippOps : LippOps K L E) (data : List (KeyValue K))
    (i : ι) (s : State ι K P L E) : Prop extends Owned s, Counted s, Stopping s, Vacant s where
  others : ∀ j, j ≠ i → s.clients j = .idle
  phase : s.clients i = .buildClear data ∧ s.lipp = lippOps.empty ∨
    s.clients i = .buildPgm data ∧ s.lipp = lippOps.empty ∨
    s.clients i = .buildLipp data ∧ s.lipp = lippOps.empty ∧ s.pgm = pgmOps.empty ∨
    (s.clients i = .finished (.build data) .done ∨ s.clients i = .idle) ∧ s.pgm = pgmOps.empty ∧
      lippOps.build lippOps.empty data = .returns s.lipp

theorem Building.of_call {s t : State ι K P L E} {i : ι} {data : List (KeyValue K)}
    (hs : Booting pgmOps lippOps s) (h : Step pgmOps lippOps s (.call i (.build data)) t) :
    Building pgmOps lippOps data i t := by
  obtain ⟨⟨ho, hc, hst, hbu⟩, ⟨hb, hp, hba, hu, hcl⟩, hidle, hpgm, hlipp⟩ := hs
  obtain ⟨ho', hc', hst'⟩ := invariants_step ho hc hst (fun _ _ _ => hb) h
  cases h with
  | call _ _ hpc hd =>
    refine ⟨ho', hc', hst', ⟨hb, hp, hba, hu, fun j => ?_⟩, fun j hj => ?_, .inl ⟨?_, hlipp⟩⟩
    · by_cases hj : j = i
      · simp [hj, Call.entry, ClientPc.isInserting]
      · simpa [hj] using hcl j
    · simp [hj, hidle]
    · simp [Call.entry]

omit [DecidableEq ι] in
theorem Building.opening {s : State ι K P L E} {i : ι} {data : List (KeyValue K)}
    (hs : Building pgmOps lippOps data i s) : Opening pgmOps lippOps data i s where
  toVacant := hs.toVacant
  workerHolds := hs.workerOwns.mp
  others := hs.others
  phase := hs.phase

theorem Building.step {s t : State ι K P L E} {a : Action ι K} {i : ι}
    {data : List (KeyValue K)} (hs : Building pgmOps lippOps data i s) (ha : a.isCall = false)
    (h : Step pgmOps lippOps s a t) : Building pgmOps lippOps data i t := by
  obtain ⟨ho, hc, hst⟩ :=
    invariants_step hs.toOwned hs.toCounted hs.toStopping (fun _ _ _ => hs.buffer) h
  have hopening := hs.opening.step ha h
  exact ⟨ho, hc, hst, hopening.toVacant, hopening.others, hopening.phase⟩

variable [Fintype ι] [DecidableEq K]

variable (pgmOps lippOps) in
/-- `s` is reached from the constructor by one `Build(data)` call that has returned,
interleaved with steps of the worker. -/
def Built (config : Config) (data : List (KeyValue K)) (s : State ι K P L E) : Prop :=
  ∃ (boot : List (Action ι K)) (i : ι) (body : List (Action ι K)),
    (∀ a ∈ boot, a.isCall = false) ∧ (∀ a ∈ body, a.isCall = false) ∧
    run (step pgmOps lippOps) (construct pgmOps lippOps config)
      (boot ++ .call i (.build data) :: (body ++ [.ret i (.build data) .done])) = some s

/-- What the first `Build` leaves behind: an empty PGM and LIPP's own build of the data. -/
structure Fresh (pgmOps : PgmOps K P) (lippOps : LippOps K L E) (data : List (KeyValue K))
    (s : State ι K P L E) : Prop extends Sound s, Vacant s where
  idle : ∀ i, s.clients i = .idle
  pgm : s.pgm = pgmOps.empty
  lipp : lippOps.build lippOps.empty data = .returns s.lipp

theorem Built.fresh {config : Config} {data : List (KeyValue K)} {s : State ι K P L E}
    (h : Built pgmOps lippOps config data s) (ha : config.asyncFlush = true) :
    Fresh pgmOps lippOps data s := by
  obtain ⟨boot, i, body, hboot, hbody, hrun⟩ := h
  obtain ⟨s₁, hs₁, hrun⟩ := run_append_eq_some.mp hrun
  obtain ⟨s₂, hs₂, hrun⟩ := run_cons_eq_some.mp hrun
  obtain ⟨s₃, hs₃, hret⟩ := run_concat_eq_some.mp hrun
  have h₁ : Booting pgmOps lippOps s₁ :=
    run_invariant (fun r a r' ha hI hs => hI.step ha (.of_step hs)) hboot
      (booting_construct ha) hs₁
  have h₃ : Building pgmOps lippOps data i s₃ :=
    run_invariant (fun r a r' ha hI hs => hI.step ha (.of_step hs)) hbody
      (.of_call h₁ (.of_step hs₂)) hs₃
  have hret := Step.of_step hret
  have h := h₃.step rfl hret
  obtain ⟨ho, hc, hst, he, hothers, hphase⟩ := h
  have hidle : ∀ j, s.clients j = .idle := by
    intro j
    by_cases hj : j = i
    · cases hret
      simp [hj]
    · exact hothers j hj
  have hb : ∀ j, (s.clients j).isBuilding = false := fun j => by rw [hidle j]; rfl
  simp only [hidle i, reduceCtorEq, false_and, false_or, true_and] at hphase
  exact ⟨⟨ho, hc, hst, hb⟩, he, hidle, hphase.1, hphase.2⟩

/-- What the first `Build` leaves behind, whatever the flush mode. -/
structure Opened (pgmOps : PgmOps K P) (lippOps : LippOps K L E) (data : List (KeyValue K))
    (s : State ι K P L E) : Prop extends Vacant s where
  workerHolds : s.worker.holdsBuffer = true → s.bufferMutex = some .worker
  idle : ∀ i, s.clients i = .idle
  pgm : s.pgm = pgmOps.empty
  lipp : lippOps.build lippOps.empty data = .returns s.lipp

omit [Fintype ι] [DecidableEq K] in
theorem Opening.opened {s t : State ι K P L E} {i : ι} {data : List (KeyValue K)} {call : Call K}
    {reply : Reply} (hs : Opening pgmOps lippOps data i s)
    (h : Step pgmOps lippOps s (.ret i call reply) t) : Opened pgmOps lippOps data t := by
  have ht := hs.step rfl h
  have hidle : ∀ j, t.clients j = .idle := by
    intro j
    by_cases hj : j = i
    · cases h
      rw [hj, setClient_clients, if_pos rfl]
    · exact ht.others j hj
  have hphase := ht.phase
  simp only [hidle i, reduceCtorEq, false_and, false_or, true_and, or_true] at hphase
  exact ⟨ht.toVacant, ht.workerHolds, hidle, hphase.1, hphase.2⟩

theorem Built.opened {config : Config} {data : List (KeyValue K)} {s : State ι K P L E}
    (h : Built pgmOps lippOps config data s) : Opened pgmOps lippOps data s := by
  obtain ⟨boot, i, body, hboot, hbody, hrun⟩ := h
  obtain ⟨s₁, hs₁, hrun⟩ := run_append_eq_some.mp hrun
  obtain ⟨s₂, hs₂, hrun⟩ := run_cons_eq_some.mp hrun
  obtain ⟨s₃, hs₃, hret⟩ := run_concat_eq_some.mp hrun
  have h₁ : Blank pgmOps lippOps s₁ :=
    run_invariant (fun r a r' ha hI hs => hI.step ha (.of_step hs)) hboot (blank_construct config) hs₁
  have h₃ : Opening pgmOps lippOps data i s₃ :=
    run_invariant (fun r a r' ha hI hs => hI.step ha (.of_step hs)) hbody
      (.of_call h₁ (.of_step hs₂)) hs₃
  exact h₃.opened (.of_step hret)

end LearnedIndex.Hybrid
