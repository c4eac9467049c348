import LearnedIndex.DoubleBuffer.Runs

/-! What every run of the double-buffered index keeps, and what its lookups return. -/

universe u v w x y

namespace LearnedIndex.DoubleBuffer

open Util Hybrid Transition

variable {ι : Type y} {K : Type u} {P : Type v} {L : Type w} {E : Type x}

/-- The PGM pointers have been swapped and `get_data` has not been called yet. -/
def SwapPc.swapped : SwapPc → Bool
  | .storeR _ | .raiseStop | .lowerStop | .spawn => true
  | _ => false

def FlushPc.uncopied : FlushPc K → Bool
  | .reopen | .loadR | .getData _ => true
  | _ => false

def State.CopyPending (s : State ι K P L) : Prop :=
  (∃ i pc, (s.clients i).swapping = some pc ∧ pc.swapped = true) ∨
    s.shared.flushThread.uncopied = true

/-- The step is not one of the two that the pointer swap can catch out. -/
def State.Timely (s : State ι K P L) : Action ι K → Prop
  | .client i => (s.clients i).Timely s.shared s.CopyPending
  | _ => True

/-- The same without counting on the flush. -/
def State.TimelyNow (s : State ι K P L) : Action ι K → Prop
  | .client i => (s.clients i).Timely s.shared False
  | _ => True

instance (s : State ι K P L) : ∀ a : Action ι K, Decidable (s.TimelyNow a)
  | .client i => inferInstanceAs (Decidable ((s.clients i).Timely s.shared False))
  | .call _ _ | .ret _ _ _ | .flush => .isTrue trivial

theorem State.TimelyNow.timely {s : State ι K P L} {a : Action ι K} (h : s.TimelyNow a) : s.Timely a := by
  cases a with
  | client i => exact h.mono False.elim
  | _ => trivial

structure Consistent (PInv : P → Prop) (pairs : P → Multiset (KeyValue K)) (LInv : L → Prop)
    (stored : L → Multiset (KeyValue K)) (S : Multiset (KeyValue K)) (s : State ι K P L)
    (owner : Option SwapPc) : Prop where
  owned : Owner s.clients owner
  guarded : Guarded s.shared owner
  aimed : Aimed s.shared owner
  kept : Kept PInv pairs LInv stored S s.shared (s.shared.phase owner)

variable {PInv : P → Prop} {pairs : P → Multiset (KeyValue K)} {LInv : L → Prop}
  {stored : L → Multiset (KeyValue K)} {S : Multiset (KeyValue K)} {s t : State ι K P L}
  {owner : Option SwapPc}

theorem Consistent.pending (hs : Consistent PInv pairs LInv stored S s owner) (h : s.CopyPending) :
    s.shared.phase owner = .pending := by
  obtain ⟨i, pc, hi, hpc⟩ | hflush := h
  · rw [hs.owned.eq_of_swapping hi]
    cases pc with
    | storeR | raiseStop | lowerStop | spawn => rfl
    | _ => cases hpc
  · have hnone : owner = none := by
      by_contra hne
      rw [hs.guarded.alone hne] at hflush
      cases hflush
    rw [hnone, Shared.phase, Option.elim]
    generalize s.shared.flushThread = pc at hflush
    cases pc with
    | reopen | loadR | getData => rfl
    | _ => cases hflush

section Step

variable [DecidableEq ι]

/-- A client's step that leaves the members alone. -/
theorem Consistent.move (hs : Consistent PInv pairs LInv stored S s owner) {i : ι} {pc : ClientPc K}
    (hpc : pc.swapping = (s.clients i).swapping) :
    Consistent PInv pairs LInv stored S (s.setClient i pc) owner :=
  ⟨hs.owned.of_same hpc, hs.guarded, hs.aimed, hs.kept⟩

variable [LinearOrder K] {ops : Ops K P L E}

theorem Consistent.client_step (hpl : ops.pgm.Lawful PInv pairs)
    (hs : Consistent PInv pairs LInv stored S s owner) {i : ι} {m : Shared K P L} {pc : ClientPc K}
    (hfresh : ∀ kv ∈ (s.clients i).stored, ∀ x ∈ S, x.key ≠ kv.key)
    (htimely : (s.clients i).Timely s.shared s.CopyPending)
    (h : ClientStep ops s.shared (s.clients i) m pc) :
    (∃ owner', Consistent PInv pairs LInv stored ((s.clients i).stored + S)
      ({ s with shared := m }.setClient i pc) owner') ∧ Evolves pairs stored s.shared m := by
  generalize hpc : s.clients i = pc₀ at *
  cases h with
  | @insertPgm kv rw =>
    obtain ⟨hkept, hevolves⟩ := hs.kept.insert hpl (hfresh kv (Multiset.mem_singleton_self kv))
      (htimely.imp_right hs.pending)
    refine ⟨⟨owner, hs.owned.of_same ?_, ?_, ?_, ?_⟩, hevolves⟩
    · rw [hpc]
      rfl
    · exact ⟨hs.guarded.locked, hs.guarded.alone, hs.guarded.complete, hs.guarded.stopping⟩
    · exact hs.aimed.congr rfl rfl rfl rfl rfl
    · rwa [ClientPc.stored, Multiset.singleton_add]
  | @insertLock kv hfree =>
    have hquiet : owner = none ∧ s.shared.flushThread = .idle := by
      by_contra hne
      rw [hs.guarded.locked.mpr (not_and_or.mp hne)] at hfree
      cases hfree
    obtain ⟨rfl, hidle⟩ := hquiet
    simp only [ClientPc.stored, zero_add]
    refine ⟨⟨some .uncomplete, ?_, ?_, ?_, ?_⟩, .of_eq rfl rfl rfl (.inl rfl)⟩
    · exact .of_others (.insertSwap kv .uncomplete) fun j _ => hs.owned.none_of_free j
    · refine ⟨by simp, fun _ => hidle, fun _ => ?_, fun hstop => ?_⟩
      · rw [setClient_shared, hidle]
        rfl
      · cases hs.guarded.stopping hstop
    · exact ⟨hs.aimed.pgm, hs.aimed.lipp⟩
    · refine hs.kept.of_eq rfl rfl rfl rfl fun base hf => ?_
      simpa [Shared.phase, hidle, FlushPc.phase, SwapPc.phase] using hf
  | @insertSwap kv pc =>
    have hi : (s.clients i).swapping = some pc := by
      rw [hpc]
      rfl
    cases hs.owned.eq_of_swapping hi
    obtain ⟨hkept, hevolves⟩ := hs.kept.swap hs.aimed
    simp only [ClientPc.stored, zero_add]
    refine ⟨⟨(swapStep s.shared pc).2, ?_, ?_, ?_, hkept⟩, hevolves⟩
    · have hown := Owner.of_others ((swapStep s.shared pc).2.elim (.finished (.insert kv) .done)
        (.insertSwap kv)) (hs.owned.others_of_swapping hi)
      cases hnext : (swapStep s.shared pc).2 <;> rw [hnext] at hown <;> exact hown
    · exact hs.guarded.swap
    · exact hs.aimed.swap (hs.guarded.alone (by simp))
  | _ =>
    simp only [ClientPc.stored, zero_add]
    refine ⟨⟨owner, hs.move ?_⟩, .of_eq rfl rfl rfl (.inl rfl)⟩
    rw [hpc]
    rfl

theorem Consistent.step (hpl : ops.pgm.Lawful PInv pairs) (hll : ops.lipp.Lawful LInv stored)
    (hget : ∀ p, PInv p → (ops.getData p : Multiset (KeyValue K)) = pairs p)
    (hs : Consistent PInv pairs LInv stored S s owner) {a : Action ι K}
    (hnodup : ((storedBy s a + S).map KeyValue.key).Nodup) (htimely : s.Timely a)
    (h : Step ops s a t) :
    (∃ owner', Consistent PInv pairs LInv stored (storedBy s a + S) t owner') ∧
      Evolves pairs stored s.shared t.shared := by
  cases h with
  | call i call hpc =>
    simp only [storedBy, zero_add]
    refine ⟨⟨owner, hs.move ?_⟩, .of_eq rfl rfl rfl (.inl rfl)⟩
    rw [hpc]
    cases call <;> rfl
  | client i h =>
    refine hs.client_step hpl (fun kv hkv => fresh_of_cons_le hnodup ?_) htimely h
    rw [← Multiset.singleton_add, Multiset.add_le_add_iff_right]
    exact Multiset.singleton_le.mpr hkv
  | ret i call reply hpc =>
    simp only [storedBy, zero_add]
    refine ⟨⟨owner, hs.move ?_⟩, .of_eq rfl rfl rfl (.inl rfl)⟩
    rw [hpc]
    rfl
  | flush h =>
    simp only [storedBy, zero_add] at hnodup ⊢
    have hnone : owner = none := by
      by_contra hne
      exact h.not_idle (hs.guarded.alone hne)
    subst hnone
    obtain ⟨hkept, hevolves⟩ := hs.kept.flush hpl hll hget hnodup hs.guarded hs.aimed h
    exact ⟨⟨none, hs.owned, hs.guarded.flush h, hs.aimed.flush h, hkept⟩, hevolves⟩

/-- A lookup that is on its way to `x` stays so, whoever takes the next step. -/
theorem Consistent.seen_step (hpl : ops.pgm.Lawful PInv pairs) (hll : ops.lipp.Lawful LInv stored)
    (hs : Consistent PInv pairs LInv stored S s owner) (hS : (S.map KeyValue.key).Nodup)
    {x : KeyValue K} (hx : x ∈ S) {i : ι} {a : Action ι K} (htimely : s.Timely a)
    (hret : ∀ call reply, a ≠ .ret i call reply) (h : Step ops s a t)
    (hevolves : Evolves pairs stored s.shared t.shared)
    (hseen : Seen pairs stored x s.shared (s.clients i)) :
    Seen pairs stored x t.shared (t.clients i) := by
  cases h with
  | call j call hpc =>
    obtain rfl | hij := eq_or_ne i j
    · rw [hpc] at hseen
      exact hseen.elim
    · rwa [setClient_of_ne _ hij]
  | client j h =>
    obtain rfl | hij := eq_or_ne i j
    · rw [setClient_self]
      exact hseen.step hpl hll hS hs.kept hx htimely h
    · rw [setClient_of_ne _ hij]
      exact hseen.evolves hevolves
  | ret j call reply hpc =>
    obtain rfl | hij := eq_or_ne i j
    · exact (hret call reply rfl).elim
    · rwa [setClient_of_ne _ hij]
  | flush h => exact hseen.evolves hevolves

end Step

section Run

variable [DecidableEq ι] [LinearOrder K] {ops : Ops K P L E} {data : List (KeyValue K)}
  {s₀ : State ι K P L} {acts : List (Action ι K)}

omit [DecidableEq ι] in
theorem built_consistent (hpl : ops.pgm.Lawful PInv pairs) (hll : ops.lipp.Lawful LInv stored)
    (hdata : (keys data).Pairwise (· < ·)) (hbuilt : built ops data = some s₀) :
    Ledger data [] [] (data : Multiset (KeyValue K)) s₀.clients ∧
      Consistent PInv pairs LInv stored data s₀ none := by
  unfold built at hbuilt
  split at hbuilt
  · rename_i lipp hlipp
    cases hbuilt
    obtain ⟨hinv, hstored⟩ := hll.build hdata hlipp
    constructor
    · refine ⟨?_, fun x hx => hx, by simp, by simp [ClientPc.carried], by simp,
        by simp [ClientPc.pending], by simp [ClientPc.pending]⟩
      exact Multiset.coe_nodup.mpr (hdata.imp ne_of_lt)
    · refine ⟨.free fun i => rfl, ?_, ⟨rfl, rfl⟩, ⟨fun p => hpl.inv_empty, fun l => hinv, data, ?_, ?_⟩⟩
      · exact ⟨by simp, fun _ => rfl, fun _ => rfl, by simp⟩
      · exact ⟨hpl.contents_empty, hstored, hstored⟩
      · simp [hpl.contents_empty]
  · cases hbuilt

/-- One more step of a run of fresh inserts. -/
theorem Consistent.concat (hpl : ops.pgm.Lawful PInv pairs) (hll : ops.lipp.Lawful LInv stored)
    (hget : ∀ p, PInv p → (ops.getData p : Multiset (KeyValue K)) = pairs p)
    (hledger : Ledger data (inserted acts) (returned acts) S s.clients)
    (hs : Consistent PInv pairs LInv stored S s owner) {a : Action ι K}
    (hfresh : (keys (data ++ inserted (acts ++ [a]))).Nodup) (htimely : s.Timely a)
    (h : Step ops s a t) :
    ∃ S' owner', S ≤ S' ∧ Ledger data (inserted (acts ++ [a])) (returned (acts ++ [a])) S' t.clients ∧
      Consistent PInv pairs LInv stored S' t owner' ∧ Evolves pairs stored s.shared t.shared := by
  have hledger' := hledger.step hfresh h
  obtain ⟨⟨owner', hs'⟩, hevolves⟩ := hs.step hpl hll hget hledger'.nodup htimely h
  exact ⟨_, owner', Multiset.le_add_left _ _, hledger', hs', hevolves⟩

omit [DecidableEq ι] [LinearOrder K] in
theorem fresh_mono {as bs : List (Action ι K)} (hp : as <+: bs)
    (h : (keys (data ++ inserted bs)).Nodup) : (keys (data ++ inserted as)).Nodup :=
  h.sublist (List.Sublist.map _ ((inserted_mono hp).sublist.append_left data))

theorem run_consistent (hpl : ops.pgm.Lawful PInv pairs) (hll : ops.lipp.Lawful LInv stored)
    (hget : ∀ p, PInv p → (ops.getData p : Multiset (KeyValue K)) = pairs p)
    (hdata : (keys data).Pairwise (· < ·)) (hbuilt : built ops data = some s₀)
    (hfresh : (keys (data ++ inserted acts)).Nodup) (htimely : Along (step ops) State.Timely s₀ acts)
    (hrun : run (step ops) s₀ acts = some s) :
    ∃ S owner, Ledger data (inserted acts) (returned acts) S s.clients ∧
      Consistent PInv pairs LInv stored S s owner := by
  refine run_induction (P := fun bs r => ∃ S owner, Ledger data (inserted bs) (returned bs) S r.clients ∧
    Consistent PInv pairs LInv stored S r owner) ?_ ?_ hrun
  · obtain ⟨hledger, hcons⟩ := built_consistent hpl hll hdata hbuilt
    exact ⟨data, none, hledger, hcons⟩
  rintro bs r a r' hp hr ⟨S, owner, hledger, hcons⟩ hstep
  obtain ⟨S', owner', -, hledger', hcons', -⟩ := hcons.concat hpl hll hget hledger
    (fresh_mono hp hfresh) ((htimely.of_prefix hp).allowed hr) (.of_step hstep)
  exact ⟨S', owner', hledger', hcons'⟩

/-- A lookup of a pair that is inside when it starts returns its value. -/
theorem lookup_correct (hpl : ops.pgm.Lawful PInv pairs) (hll : ops.lipp.Lawful LInv stored)
    (hget : ∀ p, PInv p → (ops.getData p : Multiset (KeyValue K)) = pairs p)
    (hdata : (keys data).Pairwise (· < ·)) (hbuilt : built ops data = some s₀)
    {pre mid : List (Action ι K)} {i : ι} {k : K} {v w : UInt64}
    (hfresh : (keys (data ++ inserted (pre ++ .call i (.lookup k) :: mid))).Nodup)
    (htimely : Along (step ops) State.Timely s₀ (pre ++ .call i (.lookup k) :: mid))
    (hmid : ∀ call reply, .ret i call reply ∉ mid)
    (hrun : run (step ops) s₀
      (pre ++ .call i (.lookup k) :: (mid ++ [.ret i (.lookup k) (.value v)])) = some s)
    (hw : ⟨k, w⟩ ∈ data ++ returned pre) : v = w := by
  obtain ⟨s₁, hpre, hrun⟩ := run_append_eq_some.mp hrun
  obtain ⟨s₂, hcall, hrun⟩ := run_cons_eq_some.mp hrun
  obtain ⟨s₃, hs₃, hret⟩ := run_concat_eq_some.mp hrun
  have hcalled : pre ++ [.call i (.lookup k)] <+: pre ++ .call i (.lookup k) :: mid :=
    (List.prefix_append_right_inj pre).mpr (List.prefix_append [_] mid)
  have hstart : ∃ S owner, Ledger data (inserted (pre ++ [.call i (.lookup k)]))
      (returned (pre ++ [.call i (.lookup k)])) S s₂.clients ∧
      Consistent PInv pairs LInv stored S s₂ owner ∧ ⟨k, w⟩ ∈ S ∧
      Seen pairs stored ⟨k, w⟩ s₂.shared (s₂.clients i) := by
    have hbefore := (List.prefix_append pre [.call i (.lookup k)]).trans hcalled
    obtain ⟨S, owner, hledger, hcons⟩ := run_consistent hpl hll hget hdata hbuilt
      (fresh_mono hbefore hfresh) (htimely.of_prefix hbefore) hpre
    have hmem : ⟨k, w⟩ ∈ S := (List.mem_append.mp hw).elim (hledger.built _) (hledger.returned _)
    obtain ⟨S', owner', hle, hledger', hcons', -⟩ := hcons.concat hpl hll hget hledger
      (fresh_mono hcalled hfresh) ((htimely.of_prefix hcalled).allowed hpre) (.of_step hcall)
    refine ⟨S', owner', hledger', hcons', Multiset.mem_of_le hle hmem, ?_⟩
    cases Step.of_step hcall with
    | call _ _ hpc =>
      rw [setClient_self]
      rfl
  have hseen : ∃ S owner, Ledger data (inserted (pre ++ .call i (.lookup k) :: mid))
      (returned (pre ++ .call i (.lookup k) :: mid)) S s₃.clients ∧
      Consistent PInv pairs LInv stored S s₃ owner ∧ ⟨k, w⟩ ∈ S ∧
      Seen pairs stored ⟨k, w⟩ s₃.shared (s₃.clients i) := by
    refine run_induction (P := fun bs r => ∃ S owner,
      Ledger data (inserted (pre ++ .call i (.lookup k) :: bs))
        (returned (pre ++ .call i (.lookup k) :: bs)) S r.clients ∧
      Consistent PInv pairs LInv stored S r owner ∧ ⟨k, w⟩ ∈ S ∧
      Seen pairs stored ⟨k, w⟩ r.shared (r.clients i)) hstart ?_ hs₃
    rintro bs r a r' hp hr ⟨S, owner, hledger, hcons, hmem, hseen⟩ hstep
    have hr₀ : run (step ops) s₀ (pre ++ .call i (.lookup k) :: bs) = some r :=
      run_append_eq_some.mpr ⟨s₁, hpre, run_cons_eq_some.mpr ⟨s₂, hcall, hr⟩⟩
    have hp₀ : (pre ++ .call i (.lookup k) :: bs) ++ [a] <+: pre ++ .call i (.lookup k) :: mid := by
      rw [List.append_assoc, List.cons_append]
      exact (List.prefix_append_right_inj pre).mpr ((List.prefix_cons_inj _).mpr hp)
    have hnow := (htimely.of_prefix hp₀).allowed hr₀
    obtain ⟨S', owner', hle, hledger', hcons', hevolves⟩ := hcons.concat hpl hll hget hledger
      (fresh_mono hp₀ hfresh) hnow (.of_step hstep)
    rw [List.append_assoc, List.cons_append] at hledger'
    refine ⟨S', owner', hledger', hcons', Multiset.mem_of_le hle hmem, ?_⟩
    refine hcons.seen_step hpl hll hledger.nodup hmem hnow (fun call reply heq => ?_)
      (.of_step hstep) hevolves hseen
    exact hmid call reply (hp.subset (by simp [heq]))
  obtain ⟨-, -, -, -, -, hseen⟩ := hseen
  cases Step.of_step hret with
  | ret _ _ _ hpc =>
    rw [hpc] at hseen
    exact Reply.value.inj hseen

omit [DecidableEq ι] [LinearOrder K] in
/-- While `flush_complete` is set both LIPPs hold the same and `r_pgm_ptr` nothing. -/
theorem Consistent.complete (hs : Consistent PInv pairs LInv stored S s owner)
    (h : s.shared.flushComplete = true) :
    stored (s.shared.lipp .one) = stored (s.shared.lipp .two) ∧
      pairs (s.shared.pgm s.shared.rPgmPtr) = 0 := by
  have hsettled := hs.guarded.complete h
  have hclean : s.shared.phase owner = .clean ∧ s.shared.rPgmPtr = s.shared.rwPgmPtr.other := by
    have haimed := hs.aimed.pgm
    unfold Shared.phase
    revert hsettled haimed
    generalize s.shared.flushThread = pc
    fun_cases settled owner pc with
    | case1 | case2 | case3 => exact fun _ haimed => ⟨rfl, haimed⟩
    | case4 => exact fun hfalse => nomatch hfalse
  obtain ⟨hphase, hr⟩ := hclean
  have hkept := hs.kept
  rw [hphase] at hkept
  obtain ⟨-, -, base, ⟨hback, hread, hwrite⟩, -⟩ := hkept
  refine ⟨?_, by rwa [hr]⟩
  cases hl : s.shared.rLippPtr with
  | one =>
    rw [hl] at hread hwrite
    exact hread.trans hwrite.symm
  | two =>
    rw [hl] at hread hwrite
    exact hwrite.trans hread.symm

/-- Every lookup of the run returns what was built or inserted before it started. -/
def Visible (data : List (KeyValue K)) (acts : List (Action ι K)) : Prop :=
  ∀ pre mid i k v w, acts = pre ++ .call i (.lookup k) :: (mid ++ [.ret i (.lookup k) (.value v)]) →
    (∀ call reply, .ret i call reply ∉ mid) → ⟨k, w⟩ ∈ data ++ returned pre → v = w

end Run

section Claims

variable [DecidableEq ι] [LinearOrder K]

/-- Maps for the indexes, and any order in which `get_data` lists the pairs of a PGM. -/
def mapOps (getData : List (KeyValue K) → List (KeyValue K)) :
    Ops K (List (KeyValue K)) (List (KeyValue K)) Empty where
  pgm := AbstractMap.pgmOps
  getData := getData
  lipp := AbstractMap.lippOps

theorem timely_runs_visible {getData : List (KeyValue K) → List (KeyValue K)}
    (hget : ∀ m, (getData m).Perm m) (data : List (KeyValue K)) (hdata : (keys data).Pairwise (· < ·))
    {s₀ s : State ι K (List (KeyValue K)) (List (KeyValue K))}
    (hbuilt : built (mapOps getData) data = some s₀) (acts : List (Action ι K))
    (hfresh : (keys (data ++ inserted acts)).Nodup) (htimely : Along (step (mapOps getData)) State.Timely s₀ acts)
    (hrun : run (step (mapOps getData)) s₀ acts = some s) :
    Visible data acts ∧
      (s.shared.flushComplete = true →
        (s.shared.lipp .one).Perm (s.shared.lipp .two) ∧ s.shared.pgm s.shared.rPgmPtr = []) := by
  have hget' : ∀ m : List (KeyValue K), (keys m).Nodup → ((getData m : List (KeyValue K)) :
      Multiset (KeyValue K)) = m := fun m _ => Multiset.coe_eq_coe.mpr (hget m)
  constructor
  · rintro pre mid i k v w rfl hmid hw
    have hlookup : pre ++ .call i (.lookup k) :: mid <+:
        pre ++ .call i (.lookup k) :: (mid ++ [.ret i (.lookup k) (.value v)]) :=
      (List.prefix_append_right_inj pre).mpr ((List.prefix_cons_inj _).mpr (List.prefix_append _ _))
    exact lookup_correct AbstractMap.pgmOps_lawful AbstractMap.lippOps_lawful hget' hdata hbuilt
      (fresh_mono hlookup hfresh) (htimely.of_prefix hlookup) hmid
      hrun hw
  · intro hcomplete
    obtain ⟨S, owner, -, hcons⟩ := run_consistent AbstractMap.pgmOps_lawful
      AbstractMap.lippOps_lawful hget' hdata hbuilt hfresh htimely hrun
    obtain ⟨hsame, hempty⟩ := hcons.complete hcomplete
    exact ⟨Multiset.coe_eq_coe.mp hsame, (Multiset.coe_eq_zero _).mp hempty⟩

/-- A lookup between the swap of the PGM pointers and the copy of `r_pgm_ptr`. -/
theorem timely_runs_visible_swapped :
    Visible (ι := Unit) [⟨1, 10⟩] (.call () (.insert ⟨2, 20⟩) :: List.replicate 14 (.client ()) ++
      .ret () (.insert ⟨2, 20⟩) .done :: .flush :: .call () (.lookup 2) ::
        (List.replicate 5 (.client ()) ++ [.ret () (.lookup (2 : Nat)) (.value 20)])) := by
  refine (timely_runs_visible (fun m => List.Perm.refl (id m)) [⟨1, 10⟩] (by simp) rfl _ (by decide)
    (Along.mono (fun s a h => ?_) (by decide : Along (step (mapOps id)) State.TimelyNow _ _)) rfl).1
  exact h.timely

/-- An `Insert` that has loaded `rw_pgm_ptr` stores into a PGM that another client's `Insert`
has swapped out and the flush thread has copied, and the flush thread clears it. -/
theorem stale_insert_lost :
    ∃ (data : List (KeyValue Nat)) (acts : List (Action Bool Nat)) (s₀ s : State Bool Nat _ _),
      (keys data).Pairwise (· < ·) ∧ built (mapOps id) data = some s₀ ∧
        (keys (data ++ inserted acts)).Nodup ∧ run (step (mapOps id)) s₀ acts = some s ∧
        ¬ Visible data acts := by
  refine ⟨[⟨1, 10⟩], [.call false (.insert ⟨2, 20⟩), .client false, .client false,
      .call true (.insert ⟨3, 30⟩)] ++ List.replicate 14 (.client true) ++
      [.flush, .flush, .flush, .client false, .client false, .ret false (.insert ⟨2, 20⟩) .done] ++
      List.replicate 14 .flush ++ .call false (.lookup 2) ::
        (List.replicate 7 (.client false) ++ [.ret false (.lookup 2) (.value notFound)]),
    _, _, by simp, rfl, by decide, rfl, fun h => ?_⟩
  exact absurd (h _ _ false 2 notFound 20 rfl (by simp) (by decide)) (by decide)

end Claims

end LearnedIndex.DoubleBuffer
