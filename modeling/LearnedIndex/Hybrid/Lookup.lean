import LearnedIndex.Hybrid.Conservation

/-! What the two indexes hold along a run that inserts fresh keys, and what the two
probes of a lookup find there. -/

universe u v w x y

namespace LearnedIndex.Hybrid

open Util Transition

variable {ι : Type y} {K : Type u} {P : Type v} {L : Type w} {E : Type x}

theorem keys_coe (kvs : List (KeyValue K)) :
    (keys kvs : Multiset K) = (kvs : Multiset (KeyValue K)).map KeyValue.key := rfl

theorem nodup_keys_of_le {xs : List (KeyValue K)} (ys : List (KeyValue K)) (h : (keys ys).Nodup)
    (hle : (xs : Multiset (KeyValue K)) ≤ ys) : (keys xs).Nodup := by
  rw [← Multiset.coe_nodup, keys_coe] at h ⊢
  exact Multiset.nodup_of_le (Multiset.map_le_map hle) h

theorem fresh_of_nodup_concat {kvs : List (KeyValue K)} {kv : KeyValue K}
    (h : (keys (kvs ++ [kv])).Nodup) : ∀ x ∈ kvs, x.key ≠ kv.key := by
  rw [keys_append, List.nodup_append] at h
  intro x hx
  exact h.2.2 x.key (mem_keys_of_mem hx) kv.key (by simp)

section Effects

variable {pgmOps : PgmOps K P} {lippOps : LippOps K L E} {s t : State ι K P L E}

variable [DecidableEq ι]

/-- A step that is not part of a `Build` changes the PGM by the item it stores. -/
theorem pgm_step {a : Action ι K} (hs : ∀ i, (s.clients i).isBuilding = false)
    (h : Step pgmOps lippOps s a t) : t.pgm = (storedBy s a).foldl pgmOps.insert s.pgm := by
  cases h with
  | client i h =>
    have hb := hs i
    cases h with
    | insertFlush hpc h => cases h <;> simp [storedBy, hpc]
    | _ hpc => simp_all [storedBy, ClientPc.isBuilding]
  | worker h =>
    cases h with
    | flush hpc h => cases h <;> rfl
    | _ => rfl
  | destructor h => cases h <;> rfl
  | _ => rfl

/-- Such a step changes LIPP only by the item it passes, unless it exits; no client gets
into a flush of its own. -/
theorem lipp_step {a : Action ι K} (hs : ∀ i, (s.clients i).isBuilding = false)
    (hlock : ∀ i kv pc, s.clients i = .insertFlush kv pc → pc = .lock)
    (h : Step pgmOps lippOps s a t) :
    passedBy s a = [] ∧ t.lipp = s.lipp ∨
      ∃ item, passedBy s a = [item] ∧
        (lippOps.insert s.lipp item = .returns t.lipp ∨ t.failed.isSome = true) := by
  cases h with
  | client i h =>
    have hb := hs i
    cases h with
    | insertFlush hpc h =>
      obtain rfl := hlock i _ _ hpc
      cases h
      exact .inl ⟨rfl, rfl⟩
    | _ hpc => simp_all [passedBy, ClientPc.isBuilding]
  | worker h =>
    cases h with
    | flush hpc h => cases h <;> simp [passedBy, *]
    | lockFlush hpc h => obtain hpc | hpc := hpc <;> simp [passedBy, hpc]
    | _ hpc => simp [passedBy, hpc]
  | destructor h => cases h <;> exact .inl ⟨rfl, rfl⟩
  | _ => exact .inl ⟨rfl, rfl⟩

/-- The pair an `Insert` call has already given to `pgm.Insert`. -/
@[grind]
def ClientPc.carried : ClientPc K → List (KeyValue K)
  | .insertLock kv | .insertPush kv | .insertCount kv | .insertTest kv | .insertFlush kv _
  | .insertUnlock kv | .finished (.insert kv) _ => [kv]
  | _ => []

theorem carried_step {a : Action ι K} (hs : Sound s) (h : Step pgmOps lippOps s a t) :
    (∀ kv ∈ a.returned, ∃ i, kv ∈ (s.clients i).carried) ∧
    ∀ i, ∀ kv ∈ (t.clients i).carried, kv ∈ (s.clients i).carried ∨ kv ∈ storedBy s a := by
  cases h with
  | call i call hpc hd =>
    refine ⟨by simp [Action.returned], ?_⟩
    cases call <;> grind [Call.entry]
  | client i h =>
    refine ⟨by simp [Action.returned], ?_⟩
    cases h with
    | insertFlush hpc h => exact (hs.not_inline hpc).elim
    | _ => grind
  | ret i call reply hpc =>
    refine ⟨?_, by grind⟩
    intro kv hkv
    refine ⟨i, ?_⟩
    cases call <;> grind
  | worker h =>
    refine ⟨by simp [Action.returned], ?_⟩
    cases h with
    | flush hpc h => cases h <;> grind
    | _ => grind
  | destructor h =>
    refine ⟨by simp [Action.returned], ?_⟩
    cases h <;> grind

/-- Where a lookup of `k` by client `i` stands, if every value it may return is `ok` and
every miss in LIPP establishes `Q`. -/
def LookupPhase (i : ι) (k : K) (ok : UInt64 → Prop) (Q : Prop) (s : State ι K P L E) : Prop :=
  s.clients i = .lookupLipp k ∨ (s.clients i = .lookupPgm k ∧ Q) ∨
    ∃ v, ok v ∧ s.clients i = .finished (.lookup k) (.value v)

theorem LookupPhase.step {i : ι} {k : K} {ok : UInt64 → Prop} {Q : Prop} {t : State ι K P L E}
    {a : Action ι K} (hs : LookupPhase i k ok Q s)
    (hhit : lippOps.equalityLookup s.lipp k ≠ notFound → ok (lippOps.equalityLookup s.lipp k))
    (hmiss : lippOps.equalityLookup s.lipp k = notFound → Q)
    (hpgm : Q → ok (pgmOps.equalityLookup s.pgm k))
    (hret : ∀ call reply, a ≠ .ret i call reply) (h : Step pgmOps lippOps s a t) :
    LookupPhase i k ok Q t := by
  unfold LookupPhase at hs ⊢
  cases h with
  | call j call hpc hd => grind
  | client j h =>
    by_cases hj : j = i
    · subst hj
      obtain hs | ⟨hs, hq⟩ | ⟨v, hv, hs⟩ := hs
      · cases h <;> simp_all
      · cases h <;> simp_all
      · cases h <;> simp_all
    · cases h with
      | insertFlush hpc h => cases h <;> grind
      | _ => grind
  | ret j call reply hpc => grind
  | worker h =>
    cases h with
    | flush hpc h => cases h <;> exact hs
    | _ => exact hs
  | destructor h => cases h <;> exact hs

end Effects

section Contents

variable [Fintype ι] [DecidableEq ι] [LinearOrder K] {pgmOps : PgmOps K P}
  {lippOps : LippOps K L E} {PInv : P → Prop} {pairs : P → Multiset (KeyValue K)}
  {LInv : L → Prop} {stored : L → Multiset (KeyValue K)}
  {data : List (KeyValue K)} {s₀ s : State ι K P L E} {acts : List (Action ι K)}

/-- The PGM holds exactly the pairs given to `pgm.Insert`. -/
theorem Fresh.pgm_contents (hlaw : pgmOps.Lawful PInv pairs)
    (h₀ : Fresh pgmOps lippOps data s₀) (hacts : ∀ a ∈ acts, a.isBuild = false)
    (hfresh : (keys (data ++ inserted acts)).Nodup)
    (hrun : run (step pgmOps lippOps) s₀ acts = some s) :
    PInv s.pgm ∧ pairs s.pgm = storedIn pgmOps lippOps s₀ acts := by
  refine run_induction (P := fun bs r => PInv r.pgm ∧ pairs r.pgm = storedIn pgmOps lippOps s₀ bs)
    ?_ ?_ hrun
  · rw [h₀.pgm]
    exact ⟨hlaw.inv_empty, hlaw.contents_empty⟩
  rintro bs r a r' hp hr ⟨hinv, hpairs⟩ hstep
  obtain ⟨hsound, -⟩ := h₀.run_ledger (fun b hb => hacts b (hp.subset (by simp [hb]))) hr
  obtain ⟨-, hledger⟩ := h₀.run_ledger (fun b hb => hacts b (hp.subset hb))
    (run_concat_eq_some.mpr ⟨r, hr, hstep⟩)
  have hnodup : (keys (storedIn pgmOps lippOps s₀ (bs ++ [a]))).Nodup := by
    refine nodup_keys_of_le (inserted (bs ++ [a])) ?_ hledger.stored_le_called
    rw [keys_append] at hfresh
    exact (hfresh.of_append_right).sublist ((inserted_mono hp).sublist.map _)
  rw [pgm_step hsound.building (.of_step hstep)]
  rw [storedIn, trace_concat hr hstep] at hnodup ⊢
  obtain hnone | ⟨kv, hone⟩ : storedBy r a = [] ∨ ∃ kv, storedBy r a = [kv] := by
    cases a <;> grind
  · simpa [hnone] using ⟨hinv, hpairs⟩
  · rw [hone] at hnodup ⊢
    have hkv : ∀ x ∈ pairs r.pgm, x.key ≠ kv.key := by
      rw [hpairs]
      exact fresh_of_nodup_concat hnodup
    refine ⟨hlaw.inv_insert hinv hkv, ?_⟩
    simp only [List.foldl_cons, List.foldl_nil, hlaw.contents_insert hinv hkv, hpairs]
    rw [← Multiset.coe_add, add_comm]
    rfl

/-- LIPP holds exactly the built pairs and the pairs passed to `lipp.Insert`. -/
theorem Fresh.lipp_contents (hlaw : lippOps.Lawful LInv stored)
    (h₀ : Fresh pgmOps lippOps data s₀) (hacts : ∀ a ∈ acts, a.isBuild = false)
    (hdata : (keys data).Pairwise (· < ·)) (hfresh : (keys (data ++ inserted acts)).Nodup)
    (hrun : run (step pgmOps lippOps) s₀ acts = some s) (hok : s.failed = none) :
    LInv s.lipp ∧ stored s.lipp = (data ++ passedIn pgmOps lippOps s₀ acts : List (KeyValue K)) := by
  refine run_induction (P := fun bs r => r.failed = none → LInv r.lipp ∧
    stored r.lipp = (data ++ passedIn pgmOps lippOps s₀ bs : List (KeyValue K))) ?_ ?_ hrun hok
  · intro _
    simpa using hlaw.build hdata h₀.lipp
  rintro bs r a r' hp hr hP hstep hok'
  obtain ⟨hinv, hstored⟩ := hP (not_failed_of_step hstep)
  obtain ⟨hsound, -⟩ := h₀.run_ledger (fun b hb => hacts b (hp.subset (by simp [hb]))) hr
  obtain ⟨-, hledger⟩ := h₀.run_ledger (fun b hb => hacts b (hp.subset hb))
    (run_concat_eq_some.mpr ⟨r, hr, hstep⟩)
  have hnodup : (keys (data ++ passedIn pgmOps lippOps s₀ (bs ++ [a]))).Nodup := by
    refine nodup_keys_of_le (data ++ inserted (bs ++ [a])) ?_ ?_
    · refine hfresh.sublist (List.Sublist.map _ ?_)
      exact (inserted_mono hp).sublist.append_left data
    · rw [← Multiset.coe_add, ← Multiset.coe_add]
      exact add_le_add_right hledger.passed_le_called _
  rw [passedIn, trace_concat hr hstep] at hnodup ⊢
  obtain ⟨hnone, hl⟩ | ⟨item, hone, hl | hl⟩ := lipp_step hsound.building
    (fun i kv pc hpc => (hsound.not_inline hpc).elim) (.of_step hstep)
  · simpa [hnone, hl] using ⟨hinv, hstored⟩
  · rw [hone, ← List.append_assoc] at hnodup ⊢
    have hitem : ∀ x ∈ stored r.lipp, x.key ≠ item.key := by
      rw [hstored]
      exact fresh_of_nodup_concat hnodup
    obtain ⟨hinv', hstored'⟩ := hlaw.insert hinv hitem hl
    refine ⟨hinv', ?_⟩
    rw [hstored', hstored, ← Multiset.coe_add _ [item], add_comm]
    rfl
  · rw [hok'] at hl
    cases hl

/-- Every `Insert` that has returned has put its pair into the PGM. -/
theorem Fresh.returned_stored (h₀ : Fresh pgmOps lippOps data s₀)
    (hacts : ∀ a ∈ acts, a.isBuild = false)
    (hrun : run (step pgmOps lippOps) s₀ acts = some s) :
    ∀ kv ∈ returned acts, kv ∈ storedIn pgmOps lippOps s₀ acts := by
  refine (run_induction (P := fun bs r =>
    (∀ kv ∈ returned bs, kv ∈ storedIn pgmOps lippOps s₀ bs) ∧
    ∀ i, ∀ kv ∈ (r.clients i).carried, kv ∈ storedIn pgmOps lippOps s₀ bs) ?_ ?_ hrun).1
  · exact ⟨by simp [returned], by simp [h₀.idle, ClientPc.carried]⟩
  rintro bs r a r' hp hr ⟨hret, hcar⟩ hstep
  obtain ⟨hsound, -⟩ := h₀.run_ledger (fun b hb => hacts b (hp.subset (by simp [hb]))) hr
  obtain ⟨hreturned, hcarried⟩ := carried_step hsound (.of_step hstep)
  rw [storedIn, trace_concat hr hstep]
  refine ⟨fun kv hkv => ?_, fun i kv hkv => ?_⟩
  · rw [returned, List.flatMap_append, List.mem_append] at hkv
    obtain hkv | hkv := hkv
    · exact List.mem_append_left _ (hret kv hkv)
    · obtain ⟨i, hi⟩ := hreturned kv (by simpa using hkv)
      exact List.mem_append_left _ (hcar i kv hi)
  · obtain hkv | hkv := hcarried i kv hkv
    · exact List.mem_append_left _ (hcar i kv hkv)
    · exact List.mem_append_right _ hkv

/-- A lookup returns an `ok` value if its two probes can only produce `ok` values in the
states it runs through. -/
theorem lookup_result {i : ι} {k : K} (ok : UInt64 → Prop) (Q : Prop) {v : UInt64}
    {s₁ : State ι K P L E} {mid : List (Action ι K)}
    (hprobe : ∀ bs r, bs <+: mid → run (step pgmOps lippOps) s₁ bs = some r → r.failed = none →
      (lippOps.equalityLookup r.lipp k ≠ notFound → ok (lippOps.equalityLookup r.lipp k)) ∧
      (lippOps.equalityLookup r.lipp k = notFound → Q) ∧
      (Q → ok (pgmOps.equalityLookup r.pgm k)))
    (hmid : ∀ call reply, .ret i call reply ∉ mid) (h₁ : s₁.clients i = .lookupLipp k)
    (hrun : run (step pgmOps lippOps) s₁ (mid ++ [.ret i (.lookup k) (.value v)]) = some s) :
    ok v := by
  obtain ⟨s₂, hs₂, hret⟩ := run_concat_eq_some.mp hrun
  have hphase : LookupPhase i k ok Q s₂ := by
    refine run_induction (P := fun _ r => LookupPhase i k ok Q r) (.inl h₁) ?_ hs₂
    rintro bs r a r' hp hr hphase hstep
    obtain ⟨hhit, hmiss, hpgm⟩ :=
      hprobe bs r ((List.prefix_append _ _).trans hp) hr (not_failed_of_step hstep)
    refine hphase.step hhit hmiss hpgm (fun call reply heq => ?_) (.of_step hstep)
    exact hmid call reply (hp.subset (by simp [heq]))
  cases Step.of_step hret with
  | ret _ _ _ hpc =>
    obtain h | ⟨h, -⟩ | ⟨v', hv', h⟩ := hphase
    · rw [hpc] at h; cases h
    · rw [hpc] at h; cases h
    · rw [hpc] at h; cases h; exact hv'

/-- What the two probes find in a state that a run of fresh inserts has reached. -/
structure Probes (pgmOps : PgmOps K P) (lippOps : LippOps K L E) (data ins st pa : List (KeyValue K))
    (s : State ι K P L E) : Prop where
  lipp_mem : ∀ kv ∈ data ++ pa, lippOps.equalityLookup s.lipp kv.key = kv.value
  lipp_absent : ∀ k, (∀ kv ∈ data ++ pa, kv.key ≠ k) → lippOps.equalityLookup s.lipp k = notFound
  pgm_mem : ∀ kv ∈ st, pgmOps.equalityLookup s.pgm kv.key = kv.value
  pgm_absent : ∀ k, (∀ kv ∈ st, kv.key ≠ k) → pgmOps.equalityLookup s.pgm k = overflow
  passed_called : ∀ kv ∈ pa, kv ∈ ins
  stored_called : ∀ kv ∈ st, kv ∈ ins

theorem Fresh.probes (hpl : pgmOps.Lawful PInv pairs) (hll : lippOps.Lawful LInv stored)
    (h₀ : Fresh pgmOps lippOps data s₀) (hacts : ∀ a ∈ acts, a.isBuild = false)
    (hdata : (keys data).Pairwise (· < ·)) (hfresh : (keys (data ++ inserted acts)).Nodup)
    (hrun : run (step pgmOps lippOps) s₀ acts = some s) (hok : s.failed = none) :
    Probes pgmOps lippOps data (inserted acts) (storedIn pgmOps lippOps s₀ acts)
      (passedIn pgmOps lippOps s₀ acts) s := by
  obtain ⟨-, hledger⟩ := h₀.run_ledger hacts hrun
  obtain ⟨hpinv, hpairs⟩ := h₀.pgm_contents hpl hacts hfresh hrun
  obtain ⟨hlinv, hstored⟩ := h₀.lipp_contents hll hacts hdata hfresh hrun hok
  constructor
  · exact fun kv hkv => hll.lookup_mem hlinv (by rw [hstored]; exact hkv)
  · exact fun k hk => hll.lookup_absent hlinv (by rw [hstored]; exact hk)
  · exact fun kv hkv => hpl.lookup_mem hpinv (by rw [hpairs]; exact hkv)
  · exact fun k hk => hpl.lookup_absent hpinv (by rw [hpairs]; exact hk)
  · exact fun kv hkv => Multiset.mem_of_le hledger.passed_le_called hkv
  · exact fun kv hkv => Multiset.mem_of_le hledger.stored_le_called hkv

/-- Lookups of an asynchronous hybrid index over any two lawful parts. -/
theorem lookup_correct (hpl : pgmOps.Lawful PInv pairs) (hll : lippOps.Lawful LInv stored)
    {config : Config} (hasync : config.asyncFlush = true)
    (hdata : (keys data).Pairwise (· < ·)) (hbuilt : Built pgmOps lippOps config data s₀)
    {pre mid : List (Action ι K)} {i : ι} {k : K} {v : UInt64}
    (hacts : ∀ a ∈ pre ++ .call i (.lookup k) :: mid, a.isBuild = false)
    (hfresh : (keys (data ++ inserted (pre ++ .call i (.lookup k) :: mid))).Nodup)
    (hval : ∀ kv ∈ data ++ inserted (pre ++ .call i (.lookup k) :: mid), kv.value ≠ notFound)
    (hmid : ∀ call reply, .ret i call reply ∉ mid)
    (hrun : run (step pgmOps lippOps) s₀
      (pre ++ .call i (.lookup k) :: (mid ++ [.ret i (.lookup k) (.value v)])) = some s) :
    (∀ w, ⟨k, w⟩ ∈ data ++ returned pre → v = w) ∧
      (k ∉ keys (data ++ inserted (pre ++ .call i (.lookup k) :: mid)) → v = notFound) := by
  have h₀ := hbuilt.fresh hasync
  obtain ⟨s₁, hpre, hrun⟩ := run_append_eq_some.mp hrun
  obtain ⟨s₂, hcall, hrun⟩ := run_cons_eq_some.mp hrun
  have h₂ : s₂.clients i = .lookupLipp k := by
    cases Step.of_step hcall with
    | call _ _ hpc hd => simp [Call.entry]
  -- Every state of the lookup is reached by a prefix of the whole run.
  have hprobes : ∀ bs r, bs <+: mid → run (step pgmOps lippOps) s₂ bs = some r →
      r.failed = none →
      inserted (pre ++ .call i (.lookup k) :: bs) <+:
        inserted (pre ++ .call i (.lookup k) :: mid) ∧
      Probes pgmOps lippOps data (inserted (pre ++ .call i (.lookup k) :: bs))
        (storedIn pgmOps lippOps s₀ (pre ++ .call i (.lookup k) :: bs))
        (passedIn pgmOps lippOps s₀ (pre ++ .call i (.lookup k) :: bs)) r := by
    intro bs r hbs hr hok
    have hp : pre ++ .call i (.lookup k) :: bs <+: pre ++ .call i (.lookup k) :: mid :=
      (List.prefix_append_right_inj pre).mpr ((List.prefix_cons_inj _).mpr hbs)
    have hins := inserted_mono hp
    refine ⟨hins, h₀.probes hpl hll (fun a ha => hacts a (hp.subset ha)) hdata ?_ ?_ hok⟩
    · exact hfresh.sublist (List.Sublist.map _ (hins.sublist.append_left data))
    · exact run_append_eq_some.mpr ⟨s₁, hpre, run_cons_eq_some.mpr ⟨s₂, hcall, hr⟩⟩
  constructor
  · intro w hw
    rw [List.mem_append] at hw
    obtain hw | hw := hw
    · refine lookup_result (· = w) False ?_ hmid h₂ hrun
      intro bs r hbs hr hok
      obtain ⟨-, hprobe⟩ := hprobes bs r hbs hr hok
      have hlipp : lippOps.equalityLookup r.lipp k = w :=
        hprobe.lipp_mem ⟨k, w⟩ (List.mem_append_left _ hw)
      refine ⟨fun _ => hlipp, fun hmiss => ?_, False.elim⟩
      exact hval ⟨k, w⟩ (List.mem_append_left _ hw) (hlipp.symm.trans hmiss)
    · refine lookup_result (· = w) True ?_ hmid h₂ hrun
      intro bs r hbs hr hok
      obtain ⟨hins, hprobe⟩ := hprobes bs r hbs hr hok
      have hstored : ⟨k, w⟩ ∈ storedIn pgmOps lippOps s₀ (pre ++ .call i (.lookup k) :: bs) := by
        rw [storedIn, trace_append hpre]
        exact List.mem_append_left _
          (h₀.returned_stored (fun a ha => hacts a (by simp [ha])) hpre _ hw)
      refine ⟨fun hhit => ?_, fun _ => trivial, fun _ => hprobe.pgm_mem _ hstored⟩
      -- A hit in LIPP comes from a pair with key `k`, and there is only one.
      by_contra hne
      refine hhit (hprobe.lipp_absent k fun kv hkv hk => hne ?_)
      have hkv' : kv ∈ data ++ inserted (pre ++ .call i (.lookup k) :: mid) := by
        rw [List.mem_append] at hkv ⊢
        exact hkv.imp_right fun h => hins.subset (hprobe.passed_called kv h)
      have hw' : ⟨k, w⟩ ∈ data ++ inserted (pre ++ .call i (.lookup k) :: mid) :=
        List.mem_append_right _ (hins.subset (hprobe.stored_called _ hstored))
      have heq := eq_of_key_eq hfresh hkv' hw' hk
      rw [← hk, hprobe.lipp_mem kv hkv, heq]
  · intro hk
    have hk' : ∀ kv ∈ data ++ inserted (pre ++ .call i (.lookup k) :: mid), kv.key ≠ k :=
      fun kv hkv heq => hk (mem_keys.mpr ⟨kv, hkv, heq⟩)
    refine lookup_result (· = notFound) True ?_ hmid h₂ hrun
    intro bs r hbs hr hok
    obtain ⟨hins, hprobe⟩ := hprobes bs r hbs hr hok
    refine ⟨fun hhit => (hhit ?_).elim, fun _ => trivial, fun _ => ?_⟩
    · refine hprobe.lipp_absent k fun kv hkv => hk' kv ?_
      rw [List.mem_append] at hkv ⊢
      exact hkv.imp_right fun h => hins.subset (hprobe.passed_called kv h)
    · exact hprobe.pgm_absent k fun kv hkv =>
        hk' kv (List.mem_append_right _ (hins.subset (hprobe.stored_called kv hkv)))

end Contents

section Claims

variable [Fintype ι] [DecidableEq ι] [LinearOrder K]

theorem equalityLookup_never_loses_keys {config : Config} (hasync : config.asyncFlush = true)
    (data : List (KeyValue K)) (hdata : (keys data).Pairwise (· < ·))
    {s₀ s : State ι K (List (KeyValue K)) (List (KeyValue K)) Empty}
    (hbuilt : Built AbstractMap.pgmOps AbstractMap.lippOps config data s₀)
    (pre mid : List (Action ι K)) {i : ι} {k : K} {v : UInt64}
    (hacts : ∀ a ∈ pre ++ .call i (.lookup k) :: mid, a.isBuild = false)
    (hfresh : (keys (data ++ inserted (pre ++ .call i (.lookup k) :: mid))).Nodup)
    (hval : ∀ kv ∈ data ++ inserted (pre ++ .call i (.lookup k) :: mid), kv.value ≠ notFound)
    (hmid : ∀ call reply, .ret i call reply ∉ mid)
    (hrun : run (step AbstractMap.pgmOps AbstractMap.lippOps) s₀
      (pre ++ .call i (.lookup k) :: (mid ++ [.ret i (.lookup k) (.value v)])) = some s) :
    (∀ w, ⟨k, w⟩ ∈ data ++ returned pre → v = w) ∧
      (k ∉ keys (data ++ inserted (pre ++ .call i (.lookup k) :: mid)) → v = notFound) :=
  lookup_correct AbstractMap.pgmOps_lawful AbstractMap.lippOps_lawful hasync hdata hbuilt hacts
    hfresh hval hmid hrun

/-- A lookup whose two probes are separated by the flush of its key. -/
theorem equalityLookup_never_loses_keys_split_probe :
    ∃ w, ⟨2, w⟩ ∈ [⟨1, 10⟩] ++ returned
        ([.call () (.insert ⟨2, 20⟩), .client (), .client (), .client (), .client (), .client (),
          .client (), .ret () (.insert ⟨2, 20⟩) .done, .worker, .worker, .worker, .worker,
          .worker, .worker, .worker, .worker, .worker] : List (Action Unit Nat)) ∧
      (20 : UInt64) = w :=
  ⟨20, by decide, (equalityLookup_never_loses_keys (K := Nat) (ι := Unit) (k := 2) (v := 20)
    (i := ()) (show ({ minFlushSize := 1 } : Config).asyncFlush = true from rfl) [⟨1, 10⟩] (by simp)
    ⟨[], (), [.client (), .client (), .client ()], by simp, by simp [Action.isCall], rfl⟩
    [.call () (.insert ⟨2, 20⟩), .client (), .client (), .client (), .client (),
      .client (), .client (), .ret () (.insert ⟨2, 20⟩) .done, .worker, .worker, .worker, .worker,
      .worker, .worker, .worker, .worker, .worker]
    [.client (), .worker, .client ()]
    (by simp [Action.isBuild]) (by decide) (by decide) (by simp) rfl).1 20 (by decide)⟩

end Claims

end LearnedIndex.Hybrid
