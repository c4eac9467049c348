import LearnedIndex.Hybrid.Lookup

/-! A `Build` on an index that has been in use: what it leaves behind when nothing was waiting
for a flush. -/

universe u v w x y

namespace LearnedIndex.Hybrid

open Util Transition

variable {ι : Type y} {K : Type u} {P : Type v} {L : Type w} {E : Type x}
  {pgmOps : PgmOps K P} {lippOps : LippOps K L E}

/-- The worker is in the loop of `flush_cv.wait`. -/
def WorkerPc.atWait : WorkerPc K → Bool
  | .predStop | .predSize | .waiting => true
  | _ => false

/-- Everything but a call of `Insert` or `Build` and the destructor. -/
def Action.isQuiet : Action ι K → Bool
  | .call _ (.build _) | .call _ (.insert _) | .destructor => false
  | _ => true

/-- What every quiet step keeps once nothing waits for a flush. -/
structure Quiescent (s : State ι K P L E) : Prop extends Vacant s where
  alive : s.destructor = .alive
  running : s.shouldStop = false

/-- The predicate of the worker's wait is false. -/
theorem Quiescent.pred_false {s : State ι K P L E} (hs : Quiescent s)
    (hmin : s.config.minFlushSize ≠ 0) :
    ¬(s.shouldStop = true ∨ s.config.minFlushSize ≤ s.pgmSize) := by
  rintro (hstop | hle)
  · rw [hs.running] at hstop
    cases hstop
  · rw [hs.pgmSize] at hle
    exact hmin (UInt64.le_zero_iff.mp hle)

theorem Quiescent.worker_step {s t : State ι K P L E} (hs : Quiescent s)
    (h : WorkerStep lippOps s t) : Quiescent t := by
  obtain ⟨hvacant, -⟩ := hs.toVacant.worker_step h
  refine ⟨hvacant, ?_, ?_⟩
  · cases h with
    | flush hpc h => cases h <;> exact hs.alive
    | _ => exact hs.alive
  · cases h with
    | flush hpc h => cases h <;> exact hs.running
    | _ => exact hs.running

/-- The worker stays in its wait once it is there. -/
theorem Quiescent.atWait {s t : State ι K P L E} (hs : Quiescent s)
    (hmin : s.config.minFlushSize ≠ 0) (hwait : s.worker.atWait = true)
    (h : WorkerStep lippOps s t) : t.worker.atWait = true := by
  have hpred := hs.pred_false hmin
  cases h with
  | lockFlush | stopUnseen | block => rfl
  | stopSeen hpc h => exact (hpred (.inl h)).elim
  | filled hpc h => exact (hpred (.inr h)).elim
  | _ hpc => rw [hpc] at hwait; cases hwait

variable [DecidableEq ι]

theorem Quiescent.move {s t : State ι K P L E} {i : ι} {pc : ClientPc K} (hs : Quiescent s)
    (hbuffer : t.buffer = s.buffer ∨ t.buffer = []) (hsize : t.pgmSize = s.pgmSize)
    (hworker : t.worker = s.worker) (hdestructor : t.destructor = s.destructor)
    (hstop : t.shouldStop = s.shouldStop) 
    (hclients : ∀ j, t.clients j = if j = i then pc else s.clients j)
    (hpc : pc.isInserting = false) : Quiescent t := by
  obtain ⟨⟨hb, hp, hba, hu, hc⟩, ha, hr⟩ := hs
  refine ⟨⟨?_, hsize.trans hp, hworker ▸ hba, hworker ▸ hu, fun j => ?_⟩, hdestructor.trans ha,
    hstop.trans hr⟩
  · obtain h | h := hbuffer
    · exact h.trans hb
    · exact h
  · rw [hclients]
    split
    · exact hpc
    · exact hc j

theorem Quiescent.client_step {s t : State ι K P L E} {i : ι} (hs : Quiescent s)
    (h : ClientStep pgmOps lippOps s i t) : Quiescent t := by
  have hinserting := hs.clients i
  cases h with
  | buildClear => exact hs.move (.inr rfl) rfl rfl rfl rfl (fun j => setClient_clients _ i j _) rfl
  | buildAborted =>
    obtain ⟨⟨hb, hp, hba, hu, hc⟩, ha, hr⟩ := hs
    exact ⟨⟨hb, hp, hba, hu, hc⟩, ha, hr⟩
  | buildPgm | built | lippMiss | lippHit | lookupPgm | rangePgm =>
    exact hs.move (.inl rfl) rfl rfl rfl rfl (fun j => setClient_clients _ i j _) rfl
  | _ hpc => rw [hpc] at hinserting; cases hinserting

theorem Quiescent.step {s t : State ι K P L E} {a : Action ι K} (hs : Quiescent s)
    (ha : a.isQuiet = true ∨ ∃ i data, a = .call i (.build data))
    (h : Step pgmOps lippOps s a t) : Quiescent t := by
  cases h with
  | call i call hpc hd =>
    refine hs.move (.inl rfl) rfl rfl rfl rfl (fun j => setClient_clients _ i j _) ?_
    cases call with
    | insert =>
      obtain ha | ⟨_, _, ha⟩ := ha <;> cases ha
    | _ => rfl
  | client i h => exact hs.client_step h
  | ret i call reply hpc =>
    exact hs.move (.inl rfl) rfl rfl rfl rfl (fun j => setClient_clients _ i j _) rfl
  | worker h => exact hs.worker_step h
  | destructor h => obtain ha | ⟨_, _, ha⟩ := ha <;> cases ha

/-- A quiet step that is not part of a `Build` leaves both indexes alone. -/
theorem Quiescent.parts_step {s t : State ι K P L E} {a : Action ι K} (hs : Quiescent s)
    (hb : ∀ j, a = .client j → (s.clients j).isBuilding = false)
    (h : Step pgmOps lippOps s a t) : t.pgm = s.pgm ∧ t.lipp = s.lipp := by
  cases h with
  | client j h =>
    have hinserting := hs.clients j
    have hbuilding := hb j rfl
    cases h with
    | lippMiss | lippHit | lookupPgm | rangePgm => exact ⟨rfl, rfl⟩
    | buildAborted hpc | buildClear hpc | buildPgm hpc | built hpc => rw [hpc] at hbuilding; cases hbuilding
    | _ hpc => rw [hpc] at hinserting; cases hinserting
  | worker h =>
    obtain ⟨-, hlipp, hpgm, -⟩ := hs.toVacant.worker_step h
    exact ⟨hpgm, hlipp⟩
  | destructor h => cases h <;> exact ⟨rfl, rfl⟩
  | _ => exact ⟨rfl, rfl⟩

/-- The progress of a `Build` call by client `i`, and what it leaves behind. -/
structure Rebuilding (pgmOps : PgmOps K P) (lippOps : LippOps K L E) (data : List (KeyValue K))
    (i : ι) (s : State ι K P L E) : Prop extends Quiescent s where
  others : ∀ j, j ≠ i → (s.clients j).isBuilding = false
  phase : s.clients i = .buildClear data ∨ s.clients i = .buildPgm data ∨
    s.clients i = .buildLipp data ∧ s.pgm = pgmOps.empty ∨
    (s.clients i).isBuilding = false ∧ s.pgm = pgmOps.empty ∧
      ∃ l, lippOps.build l data = .returns s.lipp

variable {data : List (KeyValue K)} {i : ι} {s t : State ι K P L E}

omit [DecidableEq ι] in
theorem Rebuilding.congr (hs : Rebuilding pgmOps lippOps data i s) (ht : Quiescent t)
    (hclients : t.clients = s.clients) (hpgm : t.pgm = s.pgm) (hlipp : t.lipp = s.lipp) :
    Rebuilding pgmOps lippOps data i t := by
  refine ⟨ht, ?_, ?_⟩
  · rw [hclients]
    exact hs.others
  · rw [hclients, hpgm, hlipp]
    exact hs.phase

/-- A client that is not in the `Build` call goes on, and does not start one. -/
theorem Rebuilding.move {j : ι} {pc : ClientPc K} (hs : Rebuilding pgmOps lippOps data i s)
    (ht : Quiescent t) (hclients : ∀ k, t.clients k = if k = j then pc else s.clients k)
    (hpgm : t.pgm = s.pgm) (hlipp : t.lipp = s.lipp) (hj : (s.clients j).isBuilding = false)
    (hpc : pc.isBuilding = false) : Rebuilding pgmOps lippOps data i t := by
  obtain ⟨-, hothers, hphase⟩ := hs
  refine ⟨ht, fun k hk => ?_, ?_⟩
  · rw [hclients]
    split
    · exact hpc
    · exact hothers k hk
  · rw [hclients, hpgm, hlipp]
    split
    · next heq =>
      subst heq
      obtain h | h | ⟨h, -⟩ | ⟨-, h⟩ := hphase
      · rw [h] at hj; cases hj
      · rw [h] at hj; cases hj
      · rw [h] at hj; cases hj
      · exact .inr (.inr (.inr ⟨hpc, h⟩))
    · exact hphase

/-- The client of the `Build` call goes on. -/
theorem Rebuilding.build_step (hs : Rebuilding pgmOps lippOps data i s)
    (hbuilding : (s.clients i).isBuilding = true) (h : ClientStep pgmOps lippOps s i t) :
    Rebuilding pgmOps lippOps data i t := by
  have ht := hs.toQuiescent.client_step h
  have hphase := hs.phase
  have hothers : ∀ (t : State ι K P L E) (pc : ClientPc K), t.clients = s.clients → ∀ j, j ≠ i →
      ((t.setClient i pc).clients j).isBuilding = false := by
    intro t pc hclients j hj
    rw [setClient_clients, if_neg hj, hclients]
    exact hs.others j hj
  cases h with
  | buildClear hpc =>
    rw [hpc] at hphase
    refine ⟨ht, hothers _ _ rfl, .inr (.inl ?_)⟩
    simpa [ClientPc.isBuilding] using hphase
  | buildPgm hpc =>
    rw [hpc] at hphase
    refine ⟨ht, hothers _ _ rfl, .inr (.inr (.inl ?_))⟩
    simpa [ClientPc.isBuilding] using hphase
  | @built _ lipp hpc h =>
    rw [hpc] at hphase
    refine ⟨ht, hothers _ _ rfl, .inr (.inr (.inr ?_))⟩
    obtain ⟨rfl, hpgm⟩ : data = _ ∧ s.pgm = pgmOps.empty := by
      simpa [ClientPc.isBuilding, eq_comm] using hphase
    exact ⟨by simp [ClientPc.isBuilding], hpgm, s.lipp, h⟩
  | buildAborted hpc h => exact hs.congr ht rfl rfl rfl
  | _ hpc => rw [hpc] at hbuilding; cases hbuilding

theorem Rebuilding.client_step {j : ι} (hs : Rebuilding pgmOps lippOps data i s)
    (hj : (s.clients j).isBuilding = false) (h : ClientStep pgmOps lippOps s j t) :
    Rebuilding pgmOps lippOps data i t := by
  have ht := hs.toQuiescent.client_step h
  have hinserting := hs.clients j
  cases h with
  | lippMiss | lippHit | lookupPgm | rangePgm =>
    exact hs.move ht (fun k => setClient_clients _ j k _) rfl rfl hj rfl
  | buildAborted hpc | buildClear hpc | buildPgm hpc | built hpc => rw [hpc] at hj; cases hj
  | _ hpc => rw [hpc] at hinserting; cases hinserting

theorem Rebuilding.step {a : Action ι K} (hs : Rebuilding pgmOps lippOps data i s)
    (ha : a.isQuiet = true) (h : Step pgmOps lippOps s a t) :
    Rebuilding pgmOps lippOps data i t := by
  have ht := hs.toQuiescent.step (.inl ha) h
  cases h with
  | call j call hpc hd =>
    refine hs.move ht (fun k => setClient_clients _ j k _) rfl rfl (by rw [hpc]; rfl) ?_
    cases call with
    | build | insert => cases ha
    | _ => rfl
  | client j h =>
    cases hj : (s.clients j).isBuilding with
    | false => exact hs.client_step hj h
    | true =>
      obtain rfl : j = i := by
        by_contra hne
        rw [hs.others j hne] at hj
        cases hj
      exact hs.build_step hj h
  | ret j call reply hpc =>
    exact hs.move ht (fun k => setClient_clients _ j k _) rfl rfl (by rw [hpc]; rfl) rfl
  | worker h =>
    obtain ⟨-, hlipp, hpgm, hclients⟩ := hs.toVacant.worker_step h
    exact hs.congr ht hclients hpgm hlipp
  | destructor h => cases ha

theorem Rebuilding.of_call (hs : Quiescent s) (hb : ∀ j, (s.clients j).isBuilding = false)
    (h : Step pgmOps lippOps s (.call i (.build data)) t) :
    Rebuilding pgmOps lippOps data i t := by
  have ht := hs.step (.inr ⟨i, data, rfl⟩) h
  cases h with
  | call _ _ hpc hd =>
    refine ⟨ht, fun j hj => ?_, .inl ?_⟩
    · rw [setClient_clients, if_neg hj]
      exact hb j
    · rw [setClient_clients, if_pos rfl]
      rfl

/-- What `Build` leaves behind: an empty PGM and LIPP's build of the data. -/
structure Reset (pgmOps : PgmOps K P) (lippOps : LippOps K L E) (data : List (KeyValue K))
    (s : State ι K P L E) : Prop extends Quiescent s where
  building : ∀ j, (s.clients j).isBuilding = false
  pgm : s.pgm = pgmOps.empty
  lipp : ∃ l, lippOps.build l data = .returns s.lipp

theorem Reset.clients_step {a : Action ι K} (hs : Reset pgmOps lippOps data s)
    (ha : a.isQuiet = true) (h : Step pgmOps lippOps s a t) (j : ι) :
    (t.clients j).isBuilding = false := by
  have hmove : ∀ (t : State ι K P L E) (k : ι) (pc : ClientPc K), t.clients = s.clients →
      pc.isBuilding = false → ((t.setClient k pc).clients j).isBuilding = false := by
    intro t k pc hclients hpc
    rw [setClient_clients, hclients]
    split
    · exact hpc
    · exact hs.building j
  cases h with
  | call k call hpc hd =>
    refine hmove _ _ _ rfl ?_
    cases call with
    | build | insert => cases ha
    | _ => rfl
  | client k h =>
    have hinserting := hs.clients k
    have hbuilding := hs.building k
    cases h with
    | lippMiss | lippHit | lookupPgm | rangePgm => exact hmove _ _ _ rfl rfl
    | buildAborted hpc | buildClear hpc | buildPgm hpc | built hpc =>
      rw [hpc] at hbuilding; cases hbuilding
    | _ hpc => rw [hpc] at hinserting; cases hinserting
  | ret k call reply hpc => exact hmove _ _ _ rfl rfl
  | worker h =>
    rw [h.frame.2]
    exact hs.building j
  | destructor h => cases ha

theorem Reset.step {a : Action ι K} (hs : Reset pgmOps lippOps data s) (ha : a.isQuiet = true)
    (h : Step pgmOps lippOps s a t) : Reset pgmOps lippOps data t := by
  obtain ⟨hpgm, hlipp⟩ := hs.toQuiescent.parts_step (fun j _ => hs.building j) h
  refine ⟨hs.toQuiescent.step (.inl ha) h, hs.clients_step ha h, hpgm.trans hs.pgm, ?_⟩
  rw [hlipp]
  exact hs.lipp

theorem Rebuilding.reset (hs : Rebuilding pgmOps lippOps data i s)
    (hi : (s.clients i).isBuilding = false) : Reset pgmOps lippOps data s := by
  obtain ⟨hquiet, hothers, hphase⟩ := hs
  obtain h | h | ⟨h, -⟩ | ⟨-, hpgm, hlipp⟩ := hphase
  · rw [h] at hi; cases hi
  · rw [h] at hi; cases hi
  · rw [h] at hi; cases hi
  · refine ⟨hquiet, fun j => ?_, hpgm, hlipp⟩
    by_cases hj : j = i
    · exact hj ▸ hi
    · exact hothers j hj

/-- As long as the destructor has not started nobody has asked the worker to stop. -/
theorem not_stopped_step {a : Action ι K} (hs : s.destructor = .alive → s.shouldStop = false)
    (h : Step pgmOps lippOps s a t) : t.destructor = .alive → t.shouldStop = false := by
  cases h with
  | client j h =>
    cases h with
    | insertFlush hpc h => cases h <;> exact hs
    | _ => exact hs
  | worker h =>
    cases h with
    | flush hpc h => cases h <;> exact hs
    | _ => exact hs
  | destructor h =>
    cases h with
    | start hpc hidle hnext => exact fun _ => hs hpc
    | stop => exact fun h => by cases h
    | lock => exact fun h => by cases h
    | unlock => exact fun h => by cases h
    | join => exact fun h => by cases h
  | _ => exact hs

section Claims

variable [Fintype ι] [LinearOrder K] {PInv : P → Prop} {pairs : P → Multiset (KeyValue K)}
  {LInv : L → Prop} {stored : L → Multiset (KeyValue K)}

theorem reset_of_run {acts : List (Action ι K)} (hs : Reset pgmOps lippOps data s)
    (hacts : ∀ a ∈ acts, a.isQuiet = true) (hrun : run (step pgmOps lippOps) s acts = some t) :
    Reset pgmOps lippOps data t :=
  run_invariant (fun _ _ _ ha hI hs => hI.step ha (.of_step hs)) hacts hs hrun

/-- A `Build` resets the index if nothing waits for a flush when it is called. -/
theorem reset_of_build {config : Config} {pre body : List (Action ι K)}
    (hpre : run (step pgmOps lippOps) (construct pgmOps lippOps config) pre = some s)
    (hvacant : Vacant s) (hbuilding : ∀ j, (s.clients j).isBuilding = false)
    (hbody : ∀ a ∈ body, a.isQuiet = true)
    (hrun : run (step pgmOps lippOps) s
      (.call i (.build data) :: (body ++ [.ret i (.build data) .done])) = some t) :
    Reset pgmOps lippOps data t := by
  obtain ⟨s₁, hcall, hrun⟩ := run_cons_eq_some.mp hrun
  obtain ⟨s₂, hrun, hret⟩ := run_concat_eq_some.mp hrun
  have halive : s.destructor = .alive := by
    cases Step.of_step hcall with
    | call _ _ hpc hd => exact hd
  have hstop : s.shouldStop = false := by
    refine run_induction (P := fun _ r => r.destructor = .alive → r.shouldStop = false)
      (fun _ => rfl) ?_ hpre halive
    exact fun _ r a r' _ _ hr hstep => not_stopped_step hr (.of_step hstep)
  have h₁ := Rebuilding.of_call ⟨hvacant, halive, hstop⟩ hbuilding (.of_step hcall)
  have h₂ : Rebuilding pgmOps lippOps data i s₂ :=
    run_invariant (fun _ _ _ ha hI hs => hI.step ha (.of_step hs)) hbody h₁ hrun
  refine (h₂.step rfl (.of_step hret)).reset ?_
  cases Step.of_step hret with
  | ret => simp [ClientPc.isBuilding]

omit [DecidableEq ι] [Fintype ι] in
/-- The pairs that lookups find after a `Build`. -/
theorem Reset.lookup (hpl : pgmOps.Lawful PInv pairs) (hll : lippOps.Lawful LInv stored)
    (hrebuild : ∀ {data l l'}, (keys data).Pairwise (· < ·) → lippOps.build l data = .returns l' →
      LInv l' ∧ stored l' = data) (hdata : (keys data).Pairwise (· < ·))
    (hs : Reset pgmOps lippOps data s) (k : K) :
    (∀ w, ⟨k, w⟩ ∈ data → lippOps.equalityLookup s.lipp k = w) ∧
      (k ∉ keys data → lippOps.equalityLookup s.lipp k = notFound) ∧
      pgmOps.equalityLookup s.pgm k = notFound := by
  obtain ⟨l, hl⟩ := hs.lipp
  obtain ⟨hinv, hstored⟩ := hrebuild hdata hl
  refine ⟨fun w hw => ?_, fun hk => ?_, ?_⟩
  · have hmem : (⟨k, w⟩ : KeyValue K) ∈ stored s.lipp := by rwa [hstored]
    exact hll.lookup_mem hinv hmem
  · refine hll.lookup_absent hinv fun x hx heq => hk ?_
    rw [hstored] at hx
    exact mem_keys.mpr ⟨x, hx, heq⟩
  · rw [hs.pgm]
    refine hpl.lookup_absent hpl.inv_empty fun x hx => ?_
    rw [hpl.contents_empty] at hx
    exact (Multiset.notMem_zero x hx).elim

variable (data i) in
/-- A `Build` resets the index, for good, if it is called when `pgm_size` is 0 and nothing waits
for a flush. -/
theorem build_resets (hpl : pgmOps.Lawful PInv pairs) (hll : lippOps.Lawful LInv stored)
    (hrebuild : ∀ {data l l'}, (keys data).Pairwise (· < ·) → lippOps.build l data = .returns l' →
      LInv l' ∧ stored l' = data)
    {config : Config} (hmin : config.minFlushSize ≠ 0) (pre body post : List (Action ι K))
    {s t u : State ι K P L E}
    (hpre : run (step pgmOps lippOps) (construct pgmOps lippOps config) pre = some s)
    (hvacant : Vacant s) (hbuilding : ∀ j, (s.clients j).isBuilding = false)
    (hdata : (keys data).Pairwise (· < ·)) (hbody : ∀ a ∈ body, a.isQuiet = true)
    (hbuild : run (step pgmOps lippOps) s
      (.call i (.build data) :: (body ++ [.ret i (.build data) .done])) = some t)
    (hpost : ∀ a ∈ post, a.isQuiet = true) (hrun : run (step pgmOps lippOps) t post = some u) :
    (u.buffer = [] ∧ u.pgmSize = 0) ∧
      (¬(u.shouldStop = true ∨ u.config.minFlushSize ≤ u.pgmSize)) ∧
      (∀ more r, (∀ a ∈ more, a.isQuiet = true) → u.worker.atWait = true →
        run (step pgmOps lippOps) u more = some r → r.worker.atWait = true) ∧
      ∀ (mid : List (Action ι K)) (j : ι) (k : K) (v : UInt64) (r : State ι K P L E),
        (∀ a ∈ mid, a.isQuiet = true) → (∀ call reply, .ret j call reply ∉ mid) →
        run (step pgmOps lippOps) u
          (.call j (.lookup k) :: (mid ++ [.ret j (.lookup k) (.value v)])) = some r →
        (∀ w, ⟨k, w⟩ ∈ data → v = w) ∧ (k ∉ keys data → v = notFound) := by
  have hreset : Reset pgmOps lippOps data u :=
    reset_of_run (reset_of_build hpre hvacant hbuilding hbody hbuild) hpost hrun
  have hconfig : u.config = config :=
    (config_of_run hrun).trans ((config_of_run hbuild).trans (config_of_run hpre))
  refine ⟨⟨hreset.buffer, hreset.pgmSize⟩, hreset.pred_false (hconfig ▸ hmin), ?_, ?_⟩
  · intro more r hmore hwait hr
    have hinv : Reset pgmOps lippOps data r ∧ r.config = config ∧ r.worker.atWait = true := by
      refine run_invariant (I := fun r => Reset pgmOps lippOps data r ∧ r.config = config ∧
        r.worker.atWait = true) ?_ hmore ⟨hreset, hconfig, hwait⟩ hr
      rintro r a r' ha ⟨hr, hcfg, hwait⟩ hstep
      have h := Step.of_step hstep
      refine ⟨hr.step ha h, (config_step h).trans hcfg, ?_⟩
      cases h with
      | client k h =>
        rw [h.worker_eq]
        exact hwait
      | worker h => exact hr.toQuiescent.atWait (hcfg ▸ hmin) hwait h
      | destructor => cases ha
      | _ => exact hwait
    exact hinv.2.2
  · intro mid j k v r hmid hret hr
    obtain ⟨s₁, hcall, hr⟩ := run_cons_eq_some.mp hr
    have hs₁ := hreset.step rfl (.of_step hcall)
    have hpc : s₁.clients j = .lookupLipp k := by
      cases Step.of_step hcall with
      | call => simp [Call.entry]
    -- Every state of the lookup finds the built pairs in LIPP and nothing in the PGM.
    have hprobe : ∀ bs r, bs <+: mid → run (step pgmOps lippOps) s₁ bs = some r → _ :=
      fun bs r hbs hr => (reset_of_run hs₁ (fun a ha => hmid a (hbs.subset ha)) hr).lookup hpl hll
        hrebuild hdata k
    constructor
    · intro w hw
      refine lookup_result (· = w) (notFound = w) ?_ hret hpc hr
      intro bs r hbs hr _
      obtain ⟨hmem, -, hpgm⟩ := hprobe bs r hbs hr
      exact ⟨fun _ => hmem w hw, fun hmiss => hmiss.symm.trans (hmem w hw), fun h => hpgm.trans h⟩
    · intro hk
      refine lookup_result (· = notFound) True ?_ hret hpc hr
      intro bs r hbs hr _
      obtain ⟨-, habsent, hpgm⟩ := hprobe bs r hbs hr
      exact ⟨fun hhit => (hhit (habsent hk)).elim, fun _ => trivial, fun _ => hpgm⟩

/-- A second `Build` right after the first. -/
theorem build_resets_again :
    ∃ u : State Unit Nat (List (KeyValue Nat)) (List (KeyValue Nat)) Empty,
      run (step AbstractMap.pgmOps AbstractMap.lippOps)
        (construct AbstractMap.pgmOps AbstractMap.lippOps {})
        ([.call () (.build [⟨1, 10⟩]), .client (), .client (), .client (),
          .ret () (.build [⟨1, 10⟩]) .done] ++ [.call () (.build [⟨2, 20⟩]), .client (), .client (),
          .client (), .ret () (.build [⟨2, 20⟩]) .done]) = some u ∧
      u.buffer = [] ∧ u.pgmSize = 0 := by
  refine ⟨_, rfl, ?_⟩
  exact (build_resets [⟨2, 20⟩] () AbstractMap.pgmOps_lawful AbstractMap.lippOps_lawful
    (fun hdata h => by cases h; exact ⟨hdata.imp ne_of_lt, rfl⟩)
    (show ({} : Config).minFlushSize ≠ 0 by decide)
    [.call () (.build [⟨1, 10⟩]), .client (), .client (), .client (),
      .ret () (.build [⟨1, 10⟩]) .done] [.client (), .client (), .client ()] [] rfl
    ⟨rfl, rfl, rfl, rfl, fun _ => rfl⟩ (fun _ => rfl) (by decide) (by decide) rfl (by decide) rfl).1

/-- A `Build` after an `Insert` that has not been flushed leaves `pgm_size` at 1. -/
theorem build_keeps_pgmSize :
    ∃ u : State Unit Nat (List (KeyValue Nat)) (List (KeyValue Nat)) Empty,
      run (step AbstractMap.pgmOps AbstractMap.lippOps)
        (construct AbstractMap.pgmOps AbstractMap.lippOps {})
        ([.call () (.build [⟨1, 10⟩]), .client (), .client (), .client (),
          .ret () (.build [⟨1, 10⟩]) .done] ++ insertTwo ++
          [.call () (.build [⟨1, 10⟩]), .client (), .client (), .client (),
            .ret () (.build [⟨1, 10⟩]) .done]) = some u ∧
      u.buffer = [] ∧ u.pgmSize = 1 :=
  ⟨_, rfl, rfl, rfl⟩

end Claims

end LearnedIndex.Hybrid
