import LearnedIndex.Hybrid.Freshness
import LearnedIndex.Lipp.Operations

/-! Which datasets `applicable` lets through to LIPP, and what LIPP's assertions on the order of
the keys say to them. -/

universe u v w x y

namespace LearnedIndex.Hybrid

open Util Transition

section Failing

variable {ι : Type y} {K : Type u} {P : Type v} {L : Type w} {E : Type x}
  {pgmOps : PgmOps K P} {lippOps : LippOps K L E} {s t : State ι K P L E} {data : List (KeyValue K)}
  {i : ι}

/-- The next step of some thread calls `lipp.Insert` with this item. -/
def Draining (s : State ι K P L E) (item : KeyValue K) : Prop :=
  (∃ items, s.worker = .flush (.drain (item :: items))) ∨
    ∃ i kv items, s.clients i = .insertFlush kv (.drain (item :: items))

variable [DecidableEq ι]

/-- Only a call into LIPP ends the process. -/
theorem Step.failed_eq {a : Action ι K} (h : Step pgmOps lippOps s a t) (hok : s.failed = none) {e : E}
    (he : t.failed = some e) :
    (∃ i data, s.clients i = .buildLipp data ∧ lippOps.build s.lipp data = .exits e) ∨
      ∃ item, Draining s item ∧ lippOps.insert s.lipp item = .exits e := by
  have hsame : t.failed ≠ s.failed := by
    rw [he, hok]
    exact Option.some_ne_none e
  cases h with
  | call i call hpc hd => exact absurd rfl hsame
  | client i h =>
    cases h with
    | buildAborted hpc h =>
      cases he
      exact .inl ⟨i, _, hpc, h⟩
    | @insertFlush kv pc t pc' hpc h =>
      cases h with
      | aborted item items e' h =>
        cases he
        exact .inr ⟨item, .inr ⟨i, kv, items, hpc⟩, h⟩
      | _ => exact absurd rfl hsame
    | _ => exact absurd rfl hsame
  | ret i call reply hpc => exact absurd rfl hsame
  | worker h =>
    cases h with
    | flush hpc h =>
      cases h with
      | aborted item items e' h =>
        cases he
        exact .inr ⟨item, .inl ⟨items, hpc⟩, h⟩
      | _ => exact absurd rfl hsame
    | _ => exact absurd rfl hsame
  | destructor h => cases h <;> exact absurd rfl hsame

omit [DecidableEq ι] in
theorem Opening.not_draining (hs : Opening pgmOps lippOps data i s) (item : KeyValue K) :
    ¬Draining s item := by
  rintro (⟨items, hpc⟩ | ⟨j, kv, items, hpc⟩)
  · have hbatch := hs.batch
    rw [hpc] at hbatch
    cases hbatch
  · have hinserting := hs.clients j
    rw [hpc] at hinserting
    cases hinserting

/-- A call goes on until it returns. -/
theorem Step.busy {a : Action ι K} (h : Step pgmOps lippOps s a t) (hs : s.clients i ≠ .idle)
    (hret : ∀ call reply, a ≠ .ret i call reply) : t.clients i ≠ .idle := by
  cases h with
  | call j call hpc hd => cases call <;> grind [Call.entry]
  | client j h =>
    cases h with
    | insertFlush hpc h => cases h <;> grind
    | _ => grind
  | ret j call reply hpc =>
    rw [setClient_clients, if_neg]
    · exact hs
    · rintro rfl
      exact hret call reply rfl
  | worker h => rwa [h.frame.2]
  | destructor h => rwa [h.frame.2]

/-- `Build` is still running, or has returned before the first other call. -/
theorem Opening.split [Fintype ι] [DecidableEq K] {acts : List (Action ι K)}
    (hs : Opening pgmOps lippOps data i s) (hbusy : s.clients i ≠ .idle)
    (hcalls : ∀ a ∈ acts, a.isForeign i = false)
    (hrun : run (Hybrid.step pgmOps lippOps) s acts = some t) :
    (∀ a ∈ acts, a.isCall = false) ∨
      ∃ body rest, acts = body ++ .ret i (.build data) .done :: rest ∧ ∀ a ∈ body, a.isCall = false := by
  induction acts generalizing s with
  | nil => exact .inl fun a ha => absurd ha List.not_mem_nil
  | cons a acts ih =>
    obtain ⟨s', hstep, hrun⟩ := run_cons_eq_some.mp hrun
    obtain ⟨hforeign, hcalls⟩ := List.forall_mem_cons.mp hcalls
    have h := Step.of_step hstep
    have hcall : a.isCall = false := by
      cases h with
      | call j call hpc hd =>
        obtain rfl : j = i := by simpa [Action.isForeign] using hforeign
        exact absurd hpc hbusy
      | _ => rfl
    have hs' := hs.step hcall h
    by_cases hret : ∃ call reply, a = .ret i call reply
    · obtain ⟨call, reply, rfl⟩ := hret
      cases h with
      | ret _ _ _ hpc =>
        have hphase := hs.phase
        simp only [hpc, reduceCtorEq, false_and, false_or, or_false, ClientPc.finished.injEq] at hphase
        obtain ⟨⟨rfl, rfl⟩, -⟩ := hphase
        exact .inr ⟨[], acts, rfl, fun a ha => absurd ha List.not_mem_nil⟩
    · have hbusy' := h.busy hbusy fun call reply heq => hret ⟨call, reply, heq⟩
      obtain hnone | ⟨body, rest, rfl, hbody⟩ := ih hs' hbusy' hcalls hrun
      · exact .inl (List.forall_mem_cons.mpr ⟨hcall, hnone⟩)
      · exact .inr ⟨a :: body, rest, rfl, List.forall_mem_cons.mpr ⟨hcall, hbody⟩⟩

end Failing

section Assertions

open Lipp (LIPP Fit Failure)

variable {K : Type u} [LinearOrder K] {P : Type v} {fit : Fit K} {pgmOps : PgmOps K P}
  {dataset bulk : List (KeyValue K)}

/-- `HybridPGMLipp::applicable`, for the name of its search class. -/
def applicable (name : String) (_unique _rangeQuery _insert multithread : Bool) (_opsFilename : String) :
    Bool :=
  name != "LinearAVX" && !multithread

/-- `Lipp::applicable` -/
def lippApplicable (unique _rangeQuery _insert multithread : Bool) (_opsFilename : String) : Bool :=
  unique && !multithread

/-- No run ends in an assertion on the order of the keys, whatever part of the data `Build` gets,
in whatever order the rest is inserted, and whenever it is flushed. -/
def NeverAsserts (fit : Fit K) (pgmOps : PgmOps K P) (dataset : List (KeyValue K)) : Prop :=
  ∀ (config : Config) (bulk inserts : List (KeyValue K)), bulk.Sublist dataset →
    (bulk ++ inserts).Perm dataset → ∀ (boot during : List (Action Unit K)) (s : State Unit K P (LIPP K) Failure),
      (∀ a ∈ boot, a.isCall = false) → (∀ a ∈ during, a.isBuild = false) →
      inserted during <+: inserts →
      run (step pgmOps (LIPP.lippOps fit)) (construct pgmOps (LIPP.lippOps fit) config)
        (boot ++ .call () (.build bulk) :: during) = some s →
      s.failed ≠ some .increasing ∧ s.failed ≠ some .ordered

omit [LinearOrder K] in
theorem Action.isForeign_unit (a : Action Unit K) : a.isForeign () = false := by
  cases a <;> rfl

theorem build_exits {e : Failure} (hbulk : (keys bulk).Pairwise (· < ·))
    (h : (LIPP.lippOps fit).build (LIPP.lippOps fit).empty bulk = .exits e) : e.OnModel := by
  have hends : LIPP.Ends fit (LIPP.Inv · bulk) (LIPP.build fit .new bulk) :=
    LIPP.inv_new.build (List.pairwise_map.mp hbulk)
  rw [show LIPP.build fit .new bulk = .exits e from h] at hends
  exact hends

theorem insert_exits {lipp : LIPP K} {kvs : List (KeyValue K)} {kv : KeyValue K} {e : Failure}
    (hinv : lipp.Inv kvs) (hkey : ∀ x ∈ kvs, x.key ≠ kv.key)
    (h : (LIPP.lippOps fit).insert lipp kv = .exits e) : e.OnModel := by
  have hends : LIPP.Ends fit (LIPP.Inv · (kv :: kvs)) (lipp.insert fit kv) := hinv.insert hkey
  rw [show lipp.insert fit kv = .exits e from h] at hends
  exact hends

/-- After `Build` every item that is flushed is new to LIPP. -/
theorem Opened.drain_exits {s₀ s : State Unit K P (LIPP K) Failure} {acts : List (Action Unit K)}
    {item : KeyValue K} {e : Failure} (h₀ : Opened pgmOps (LIPP.lippOps fit) bulk s₀)
    (hbulk : (keys bulk).Pairwise (· < ·)) (hnodup : (keys (bulk ++ inserted acts)).Nodup)
    (hacts : ∀ a ∈ acts, a.isBuild = false)
    (hrun : run (step pgmOps (LIPP.lippOps fit)) s₀ acts = some s) (hok : s.failed = none)
    (hdrain : Draining s item) (h : (LIPP.lippOps fit).insert s.lipp item = .exits e) : e.OnModel := by
  have hcalls : ∀ a ∈ acts, a.isForeign () = false := fun a _ => a.isForeign_unit
  have hs := h₀.followed hacts hcalls hrun
  obtain ⟨⟨kvs, hinv⟩, -, hcontents⟩ :=
    h₀.lipp_contents (LIPP.lippOps_asserts fit) hbulk hacts hcalls hrun hok
  rw [hinv.contents, Multiset.coe_eq_coe] at hcontents
  obtain ⟨items, hpc⟩ | ⟨i, kv, items, hpc⟩ := hdrain
  · have hflushed : inserted acts = passedIn pgmOps (LIPP.lippOps fit) s₀ acts ++ [item] ++
        (items ++ s.buffer ++ (s.clients ()).toQueue ++ (s.clients ()).toStore) := by
      rw [hs.called_eq, hs.passed_eq, hpc]
      simp [WorkerPc.batch, FlushPc.batch]
    have hsublist : (bulk ++ passedIn pgmOps (LIPP.lippOps fit) s₀ acts ++ [item]).Sublist
        (bulk ++ inserted acts) := by
      rw [hflushed, List.append_assoc]
      exact (List.sublist_append_left _ _).append_left bulk
    have hnew := fresh_of_nodup_concat (hnodup.sublist (hsublist.map _))
    exact insert_exits hinv (fun x hx => hnew x (hcontents.subset hx)) h
  · cases hs.flush_locks i _ _ hpc

/-- From `Build` on, a process that ends ends in an assertion on the models or the depth. -/
theorem Opening.exits {s₀ s : State Unit K P (LIPP K) Failure} {acts : List (Action Unit K)} {e : Failure}
    (h₀ : Opening pgmOps (LIPP.lippOps fit) bulk () s₀) (hbusy : s₀.clients () ≠ .idle)
    (hbulk : (keys bulk).Pairwise (· < ·)) (hnodup : (keys (bulk ++ inserted acts)).Nodup)
    (hacts : ∀ a ∈ acts, a.isBuild = false)
    (hrun : run (Hybrid.step pgmOps (LIPP.lippOps fit)) s₀ acts = some s) (hok : s₀.failed = none)
    (he : s.failed = some e) : e.OnModel := by
  induction acts using List.reverseRecOn with
  | nil =>
    cases hrun
    rw [hok] at he
    cases he
  | append_singleton acts a _ =>
    obtain ⟨r, hr, hstep⟩ := run_concat_eq_some.mp hrun
    have hcalls : ∀ a ∈ acts, a.isForeign () = false := fun a _ => a.isForeign_unit
    have hfailed := (Step.of_step hstep).failed_eq (not_failed_of_step hstep) he
    obtain hnone | ⟨body, rest, rfl, hbody⟩ := h₀.split hbusy hcalls hr
    · have hopening : Opening pgmOps (LIPP.lippOps fit) bulk () r :=
        run_invariant (fun r a r' ha hI hs => hI.step ha (.of_step hs)) hnone h₀ hr
      obtain ⟨i, data, hpc, hexits⟩ | ⟨item, hdrain, -⟩ := hfailed
      · have hphase := hopening.phase
        simp only [hpc, reduceCtorEq, false_and, false_or, or_false, ClientPc.buildLipp.injEq] at hphase
        obtain ⟨rfl, hlipp, -⟩ := hphase
        rw [hlipp] at hexits
        exact build_exits hbulk hexits
      · exact absurd hdrain (hopening.not_draining item)
    · obtain ⟨s₁, hs₁, hr⟩ := run_append_eq_some.mp hr
      obtain ⟨s₂, hret, hr⟩ := run_cons_eq_some.mp hr
      have hopening : Opening pgmOps (LIPP.lippOps fit) bulk () s₁ :=
        run_invariant (fun r a r' ha hI hs => hI.step ha (.of_step hs)) hbody h₀ hs₁
      have hopened := hopening.opened (.of_step hret)
      have hrest : ∀ a ∈ rest, a.isBuild = false := fun a ha => hacts a (by simp [ha])
      obtain ⟨i, data, hpc, -⟩ | ⟨item, hdrain, hexits⟩ := hfailed
      · have hnot := (hopened.followed hrest (fun a _ => a.isForeign_unit) hr).not_building i
        rw [hpc] at hnot
        cases hnot
      · refine hopened.drain_exits hbulk (hnodup.sublist ?_) hrest hr (not_failed_of_step hstep) hdrain hexits
        -- The calls made after `Build` has returned are some of all calls.
        have hsublist : rest.Sublist (body ++ .ret () (.build bulk) .done :: rest ++ [a]) := by
          have hrest : rest.Sublist (body ++ .ret () (.build bulk) .done :: rest) :=
            (List.sublist_cons_self _ rest).trans (List.sublist_append_right body _)
          exact hrest.trans (List.sublist_append_left _ [a])
        exact ((hsublist.flatMap Action.inserted).append_left bulk).map _

/-- Without repeated keys LIPP's assertions on the order of the keys hold. -/
theorem neverAsserts_of_nodup (hsorted : (keys dataset).Pairwise (· ≤ ·)) (hnodup : (keys dataset).Nodup) :
    NeverAsserts fit pgmOps dataset := by
  intro config bulk inserts hbulk hperm boot during s hboot hduring hinserts hrun
  have hlt : (keys bulk).Pairwise (· < ·) := by
    have hstrict : (keys dataset).Pairwise (· < ·) :=
      hsorted.imp₂ (fun _ _ hle hne => lt_of_le_of_ne hle hne) hnodup
    exact hstrict.sublist (hbulk.map _)
  obtain ⟨s₁, hs₁, hrun⟩ := run_append_eq_some.mp hrun
  obtain ⟨s₂, hcall, hrun⟩ := run_cons_eq_some.mp hrun
  have hblank : Blank pgmOps (LIPP.lippOps fit) s₁ :=
    run_invariant (fun r a r' ha hI hs => hI.step ha (.of_step hs)) hboot (blank_construct config) hs₁
  have hok := not_failed_of_step hcall
  have hcall := Step.of_step hcall
  have hopening : Opening pgmOps (LIPP.lippOps fit) bulk () s₂ := .of_call hblank hcall
  have hcalled : (keys (bulk ++ inserted during)).Nodup := by
    have hall : (keys (bulk ++ inserts)).Nodup := (hperm.map KeyValue.key).nodup_iff.mpr hnodup
    exact hall.sublist ((hinserts.sublist.append_left bulk).map _)
  have hexits : ∀ e, s.failed = some e → e.OnModel := by
    intro e he
    cases hcall with
    | call => exact hopening.exits (by simp [Call.entry]) hlt hcalled hduring hrun hok he
  constructor <;> intro he <;> simpa [Failure.OnModel] using hexits _ he

/-- Data with repeated keys has a pair followed by another one with its key. -/
theorem exists_repeated (h : isUnique (keys dataset) ≠ true) :
    ∃ before x y after, dataset = before ++ x :: y :: after ∧ x.key = y.key := by
  induction dataset with
  | nil => exact absurd rfl h
  | cons x kvs ih =>
    cases kvs with
    | nil => exact absurd rfl h
    | cons y kvs =>
      rw [keys_cons, keys_cons, isUnique] at h
      split at h
      · next heq => exact ⟨[], x, y, kvs, rfl, heq.symm⟩
      · obtain ⟨before, x', y', after, hsplit, heq⟩ := ih h
        exact ⟨x :: before, x', y', after, by rw [hsplit, List.cons_append], heq⟩

variable (fit pgmOps) in
/-- `Build` of one pair is about to return. -/
def built (x : KeyValue K) : State Unit K P (LIPP K) Failure :=
  { construct pgmOps (LIPP.lippOps fit) { minFlushSize := 1 } with
    lipp := LIPP.single x
    clients := fun _ => .finished (.build [x]) .done }

theorem run_built (x : KeyValue K) :
    run (step pgmOps (LIPP.lippOps fit)) (construct pgmOps (LIPP.lippOps fit) { minFlushSize := 1 })
      [.call () (.build [x]), .client (), .client (), .client ()] = some (built fit pgmOps x) := by
  with_unfolding_all rfl

/-- One `Insert` call up to its return, and the worker up to `lipp.Insert`. -/
def insertAndFlush (y : KeyValue K) : List (Action Unit K) :=
  .call () (.insert y) :: (List.replicate 6 (.client ()) ++ List.replicate 9 .worker)

variable (fit pgmOps) in
theorem run_insertAndFlush (x y : KeyValue K) : ∃ s : State Unit K P (LIPP K) Failure,
    run (step pgmOps (LIPP.lippOps fit)) ((built fit pgmOps x).setClient () .idle) (insertAndFlush y) =
        some s ∧
      s.failed = none ∧ s.lipp = LIPP.single x ∧ s.worker = .flush (.drain [y]) :=
  ⟨_, rfl, rfl, rfl, rfl⟩

/-- With a repeated key one of its pairs can be built and the other one flushed. -/
theorem not_neverAsserts (h : isUnique (keys dataset) ≠ true) : ¬NeverAsserts fit pgmOps dataset := by
  intro hnever
  obtain ⟨before, x, y, after, rfl, hkey⟩ := exists_repeated h
  obtain ⟨s, hrun, hok, hlipp, hworker⟩ := run_insertAndFlush fit pgmOps x y
  have hexits : (LIPP.lippOps fit).insert s.lipp y = .exits .ordered := by
    rw [hlipp]
    exact LIPP.insert_single hkey
  have hlast : step pgmOps (LIPP.lippOps fit) s .worker =
      some { s with failed := some .ordered, worker := .flush (.drain []) } := by
    simp [step, workerStep, flushBuffer, hok, hworker, hexits]
  have hperm : ([x] ++ y :: (before ++ after)).Perm (before ++ x :: y :: after) :=
    List.perm_append_comm_assoc [x, y] before after
  have hsublist : [x].Sublist (before ++ x :: y :: after) := by
    rw [List.singleton_sublist]
    simp
  have hall : run (step pgmOps (LIPP.lippOps fit)) (construct pgmOps (LIPP.lippOps fit) { minFlushSize := 1 })
      ([.call () (.build [x]), .client (), .client (), .client ()] ++
        .ret () (.build [x]) .done :: (insertAndFlush y ++ [.worker])) =
      some { s with failed := some .ordered, worker := .flush (.drain []) } :=
    run_append_eq_some.mpr ⟨_, run_built x, run_cons_eq_some.mpr
      ⟨_, ret_step rfl rfl, run_concat_eq_some.mpr ⟨s, hrun, hlast⟩⟩⟩
  refine (hnever { minFlushSize := 1 } [x] (y :: (before ++ after)) hsublist hperm [] _ _ ?_ ?_ ?_ hall).2 rfl
  · exact fun a ha => absurd ha List.not_mem_nil
  · simp [insertAndFlush, Action.isBuild]
  · exact List.prefix_append [y] _

theorem neverAsserts_iff (hsorted : (keys dataset).Pairwise (· ≤ ·)) :
    NeverAsserts fit pgmOps dataset ↔ isUnique (keys dataset) = true := by
  constructor
  · contrapose!
    exact not_neverAsserts
  · exact fun h => neverAsserts_of_nodup hsorted ((isUnique_iff hsorted).mp h)

/-- The check of `Lipp` itself would be enough. -/
theorem lippApplicable_sound (rangeQuery insert multithread : Bool) (opsFilename : String)
    (hsorted : (keys dataset).Pairwise (· ≤ ·))
    (h : lippApplicable (isUnique (keys dataset)) rangeQuery insert multithread opsFilename = true) :
    NeverAsserts fit pgmOps dataset := by
  rw [lippApplicable, Bool.and_eq_true] at h
  exact (neverAsserts_iff hsorted).mpr h.1

theorem applicable_sound_iff (fit : Fit K) (pgmOps : PgmOps K P) (name : String) (dataset : List (KeyValue K))
    (rangeQuery insert multithread : Bool) (opsFilename : String)
    (hsorted : (keys dataset).Pairwise (· ≤ ·)) :
    (applicable name (isUnique (keys dataset)) rangeQuery insert multithread opsFilename = true →
        NeverAsserts fit pgmOps dataset) ↔
      name = "LinearAVX" ∨ multithread = true ∨ isUnique (keys dataset) = true := by
  rw [neverAsserts_iff hsorted, applicable, Bool.and_eq_true, bne_iff_ne, Bool.not_eq_true']
  cases multithread <;> simp [Classical.or_iff_not_imp_left]

/-- Two keys that are told apart. -/
theorem applicable_sound_iff_unique :
    NeverAsserts Lipp.plainFit AbstractMap.pgmOps [⟨1, 10⟩, ⟨2, 20⟩] :=
  (applicable_sound_iff Lipp.plainFit AbstractMap.pgmOps "BinarySearch" [⟨1, 10⟩, ⟨2, 20⟩] false true false
    "" (by decide)).mpr (.inr (.inr (by decide))) (by decide)

/-- Two pairs with one key get through. -/
theorem applicable_repeated_key :
    (keys [(⟨1, 10⟩ : KeyValue Nat), ⟨1, 20⟩]).Pairwise (· ≤ ·) ∧
      applicable "BinarySearch" (isUnique (keys [(⟨1, 10⟩ : KeyValue Nat), ⟨1, 20⟩])) false true false "" =
        true ∧
      ¬NeverAsserts Lipp.plainFit AbstractMap.pgmOps [⟨1, 10⟩, ⟨1, 20⟩] :=
  ⟨by decide, by decide, not_neverAsserts (by decide)⟩

end Assertions

end LearnedIndex.Hybrid
