import LearnedIndex.DoubleBuffer.Invariants

/-! What a lookup stalled between any two of its probes can still rely on. -/

universe u v w x

namespace LearnedIndex.DoubleBuffer

open Util Hybrid

variable {K : Type u} {P : Type v} {L : Type w} {E : Type x}
  {pairs : P → Multiset (KeyValue K)} {stored : L → Multiset (KeyValue K)}
  {PInv : P → Prop} {LInv : L → Prop} {S : Multiset (KeyValue K)} {m m' : Shared K P L}
  {phase : Phase K}

section Probes

/-- No index holds a pair that was not built or inserted. -/
theorem Kept.mem_pgm (h : Kept PInv pairs LInv stored S m phase) {p : Side} {x : KeyValue K}
    (hx : x ∈ pairs (m.pgm p)) : x ∈ S := by
  obtain ⟨-, -, base, -, htotal⟩ := h
  rw [← htotal, Multiset.mem_add, Multiset.mem_add]
  obtain rfl | rfl := m.rwPgmPtr.eq_or_eq_other p
  · exact .inl (.inl hx)
  · exact .inl (.inr hx)

theorem Kept.mem_lipp (h : Kept PInv pairs LInv stored S m phase) {l : Side} {x : KeyValue K}
    (hx : x ∈ stored (m.lipp l)) : x ∈ S := by
  obtain ⟨-, -, base, hfilled, htotal⟩ := h
  -- Beyond `base` a LIPP holds only pairs copied from the PGM that is not written.
  have hmem : x ∈ base ∨ x ∈ pairs (m.pgm m.rwPgmPtr.other) := by
    obtain rfl | rfl := m.rLippPtr.eq_or_eq_other l
    · cases phase with
      | clean => exact .inl (hfilled.2.1 ▸ hx)
      | pending => exact .inl (hfilled.1 ▸ hx)
      | copying => exact .inl (hfilled.2.1 ▸ hx)
      | recopying passed rest =>
        rw [hfilled.2.1, Multiset.mem_add] at hx
        rwa [hfilled.1]
    · cases phase with
      | clean => exact .inl (hfilled.2.2 ▸ hx)
      | pending => exact .inl (hfilled.2 ▸ hx)
      | copying passed rest | recopying passed rest =>
        rw [hfilled.2.2, Multiset.mem_add] at hx
        rw [hfilled.1]
        exact hx.imp_right fun h => List.mem_append_left _ h
  rw [← htotal, Multiset.mem_add, Multiset.mem_add]
  obtain h | h := hmem
  · exact .inr h
  · exact .inl (.inr h)

/-- Every pair is in the LIPP that is read or in one of the PGMs. -/
theorem Kept.visible (h : Kept PInv pairs LInv stored S m phase) {x : KeyValue K} (hx : x ∈ S) :
    x ∈ stored (m.lipp m.rLippPtr) ∨ x ∈ pairs (m.pgm m.rwPgmPtr) ∨
      x ∈ pairs (m.pgm m.rwPgmPtr.other) := by
  obtain ⟨-, -, base, hfilled, htotal⟩ := h
  have hread : base ≤ stored (m.lipp m.rLippPtr) := by
    cases phase with
    | clean => exact hfilled.2.1.ge
    | pending => exact hfilled.1.ge
    | copying => exact hfilled.2.1.ge
    | recopying =>
      rw [hfilled.2.1]
      exact Multiset.le_add_right _ _
  rw [← htotal, Multiset.mem_add, Multiset.mem_add] at hx
  obtain (hx | hx) | hx := hx
  · exact .inr (.inl hx)
  · exact .inr (.inr hx)
  · exact .inl (Multiset.mem_of_le hread hx)

theorem eq_of_mem (hS : (S.map KeyValue.key).Nodup) {x y : KeyValue K} (hx : x ∈ S) (hy : y ∈ S)
    (hk : y.key = x.key) : y = x :=
  Multiset.inj_on_of_nodup_map hS y hy x hx hk

variable [LinearOrder K] {ops : Ops K P L E}

/-- A probe of a PGM for the key of a pair finds its value or misses. -/
theorem Kept.probe_pgm (hlaw : ops.pgm.Lawful PInv pairs) (hS : (S.map KeyValue.key).Nodup)
    (h : Kept PInv pairs LInv stored S m phase) {x : KeyValue K} (hx : x ∈ S) (p : Side) :
    x ∈ pairs (m.pgm p) ∧ ops.pgm.equalityLookup (m.pgm p) x.key = x.value ∨
      x ∉ pairs (m.pgm p) ∧ ops.pgm.equalityLookup (m.pgm p) x.key = overflow := by
  by_cases hp : x ∈ pairs (m.pgm p)
  · exact .inl ⟨hp, hlaw.lookup_mem (h.pgmInv p) hp⟩
  · refine .inr ⟨hp, hlaw.lookup_absent (h.pgmInv p) fun y hy hk => hp ?_⟩
    rwa [← eq_of_mem hS hx (h.mem_pgm hy) hk]

theorem Kept.probe_lipp (hlaw : ops.lipp.Lawful LInv stored) (hS : (S.map KeyValue.key).Nodup)
    (h : Kept PInv pairs LInv stored S m phase) {x : KeyValue K} (hx : x ∈ S) (l : Side) :
    x ∈ stored (m.lipp l) ∧ ops.lipp.equalityLookup (m.lipp l) x.key = x.value ∨
      x ∉ stored (m.lipp l) ∧ ops.lipp.equalityLookup (m.lipp l) x.key = notFound := by
  by_cases hl : x ∈ stored (m.lipp l)
  · exact .inl ⟨hl, hlaw.lookup_mem (h.lippInv l) hl⟩
  · refine .inr ⟨hl, hlaw.lookup_absent (h.lippInv l) fun y hy hk => hl ?_⟩
    rwa [← eq_of_mem hS hx (h.mem_lipp hy) hk]

end Probes

/-- The probes still ahead of a lookup of `x` find it.  A pair whose value is the one that
marks a miss is found by missing everywhere. -/
def Seen (pairs : P → Multiset (KeyValue K)) (stored : L → Multiset (KeyValue K))
    (x : KeyValue K) (m : Shared K P L) : ClientPc K → Prop
  | .lookupWait key | .lookupLoadRw key => key = x.key
  | .lookupRw key rw => key = x.key ∧ (x.value = overflow ∨ x ∈ stored (m.lipp m.rLippPtr) ∨
      x ∈ pairs (m.pgm rw) ∨ x ∈ pairs (m.pgm rw.other) ∧ m.rwPgmPtr = rw)
  | .lookupLoadR key rw => key = x.key ∧ (x.value = overflow ∨ x ∈ stored (m.lipp m.rLippPtr) ∨
      x ∈ pairs (m.pgm rw.other) ∧ m.rwPgmPtr = rw)
  | .lookupR key r => key = x.key ∧
      (x.value = overflow ∨ x ∈ stored (m.lipp m.rLippPtr) ∨ x ∈ pairs (m.pgm r))
  | .lookupLoadLipp key => key = x.key ∧ (x.value = overflow ∨ x ∈ stored (m.lipp m.rLippPtr))
  | .lookupLipp key r => key = x.key ∧ (x.value = overflow ∨ x ∈ stored (m.lipp r))
  | .finished (.lookup _) reply => reply = .value x.value
  | _ => False

/-- Steps of others do not take away what a lookup has ahead of it. -/
theorem Seen.evolves {x : KeyValue K} {pc : ClientPc K} (h : Seen pairs stored x m pc)
    (he : Evolves pairs stored m m') : Seen pairs stored x m' pc := by
  obtain ⟨hread, hlipp, hpgm, hfront⟩ := he
  have hother : ∀ rw : Side, x ∈ pairs (m.pgm rw.other) ∧ m.rwPgmPtr = rw →
      x ∈ stored (m'.lipp m'.rLippPtr) ∨ x ∈ pairs (m'.pgm rw.other) ∧ m'.rwPgmPtr = rw := by
    rintro rw ⟨hx, rfl⟩
    obtain hsame | hempty := hfront
    · obtain hx | hx := hpgm _ x hx
      · exact .inr ⟨hx, hsame⟩
      · exact .inl hx
    · rw [hempty] at hx
      cases Multiset.notMem_zero x hx
  cases pc with
  | lookupWait | lookupLoadRw => exact h
  | lookupRw key rw =>
    obtain ⟨hk, h | h | h | h⟩ := h
    · exact ⟨hk, .inl h⟩
    · exact ⟨hk, .inr (.inl (hread x h))⟩
    · obtain h | h := hpgm _ x h
      · exact ⟨hk, .inr (.inr (.inl h))⟩
      · exact ⟨hk, .inr (.inl h)⟩
    · obtain h | h := hother rw h
      · exact ⟨hk, .inr (.inl h)⟩
      · exact ⟨hk, .inr (.inr (.inr h))⟩
  | lookupLoadR key rw =>
    obtain ⟨hk, h | h | h⟩ := h
    · exact ⟨hk, .inl h⟩
    · exact ⟨hk, .inr (.inl (hread x h))⟩
    · exact ⟨hk, .inr (hother rw h)⟩
  | lookupR key r =>
    obtain ⟨hk, h | h | h⟩ := h
    · exact ⟨hk, .inl h⟩
    · exact ⟨hk, .inr (.inl (hread x h))⟩
    · exact ⟨hk, .inr (hpgm _ x h).symm⟩
  | lookupLoadLipp key => exact ⟨h.1, h.2.imp_right (hread x)⟩
  | lookupLipp key r => exact ⟨h.1, h.2.imp_right (hlipp r x)⟩
  | finished call reply => cases call <;> exact h
  | _ => exact h.elim

/-- The steps the guarantee rests on: `Insert` still holds the PGM that `rw_pgm_ptr` points
to, or one that the flush has yet to copy, and a lookup that has probed the written PGM does
not load `r_pgm_ptr` before a swap has moved it there. -/
def ClientPc.Timely (m : Shared K P L) (copyPending : Prop) : ClientPc K → Prop
  | .insertPgm _ rw => rw = m.rwPgmPtr ∨ copyPending
  | .lookupLoadR _ rw => ¬ (m.rwPgmPtr = rw ∧ m.rPgmPtr = rw)
  | _ => True

instance (m : Shared K P L) (copyPending : Prop) [Decidable copyPending] :
    ∀ pc : ClientPc K, Decidable (pc.Timely m copyPending)
  | .insertPgm _ rw => inferInstanceAs (Decidable (rw = m.rwPgmPtr ∨ copyPending))
  | .lookupLoadR _ rw => inferInstanceAs (Decidable (¬ (m.rwPgmPtr = rw ∧ m.rPgmPtr = rw)))
  | .idle | .insertWait _ | .insertLoad _ | .insertTest _ | .insertLock _ | .insertSwap _ _
  | .lookupWait _ | .lookupLoadRw _ | .lookupRw _ _ | .lookupR _ _ | .lookupLoadLipp _
  | .lookupLipp _ _ | .finished _ _ => .isTrue trivial

theorem ClientPc.Timely.mono {copyPending copyPending' : Prop} (hp : copyPending → copyPending')
    {pc : ClientPc K} (h : pc.Timely m copyPending) : pc.Timely m copyPending' := by
  cases pc with
  | insertPgm kv rw => exact Or.imp_right hp h
  | lookupLoadR key rw => exact h
  | _ => trivial

variable [LinearOrder K] {ops : Ops K P L E}

/-- A lookup's own step keeps the rest of its probes enough. -/
theorem Seen.step (hpl : ops.pgm.Lawful PInv pairs) (hll : ops.lipp.Lawful LInv stored)
    (hS : (S.map KeyValue.key).Nodup) (hkept : Kept PInv pairs LInv stored S m phase)
    {x : KeyValue K} (hx : x ∈ S) {pc pc' : ClientPc K} {copyPending : Prop}
    (htimely : pc.Timely m copyPending) (h : Seen pairs stored x m pc)
    (hstep : ClientStep ops m pc m' pc') : Seen pairs stored x m' pc' := by
  cases hstep with
  | lookupWait => exact h
  | lookupLoadRw =>
    obtain hv | hv | hv := hkept.visible hx
    · exact ⟨h, .inr (.inl hv)⟩
    · exact ⟨h, .inr (.inr (.inl hv))⟩
    · exact ⟨h, .inr (.inr (.inr ⟨hv, rfl⟩))⟩
  | @rwMiss key rw hmiss =>
    obtain ⟨rfl, h⟩ := h
    refine ⟨rfl, ?_⟩
    obtain ⟨-, hval⟩ | ⟨habs, -⟩ := hkept.probe_pgm hpl hS hx rw
    · exact .inl (hval.symm.trans hmiss)
    · exact h.imp_right fun h => h.imp_right fun h => h.resolve_left habs
  | @rwHit key rw hhit =>
    obtain ⟨rfl, -⟩ := h
    obtain ⟨-, hval⟩ | ⟨-, hmiss⟩ := hkept.probe_pgm hpl hS hx rw
    · exact congrArg Reply.value hval
    · exact (hhit hmiss).elim
  | @lookupLoadR key rw =>
    obtain ⟨rfl, h⟩ := h
    refine ⟨rfl, h.imp_right fun h => h.imp_right ?_⟩
    rintro ⟨hother, hrw⟩
    rwa [Side.eq_other_of_ne fun hr => htimely ⟨hrw, hr⟩]
  | @rMiss key r hmiss =>
    obtain ⟨rfl, h⟩ := h
    refine ⟨rfl, ?_⟩
    obtain ⟨-, hval⟩ | ⟨habs, -⟩ := hkept.probe_pgm hpl hS hx r
    · exact .inl (hval.symm.trans hmiss)
    · exact h.imp_right fun h => h.resolve_right habs
  | @rHit key r hhit =>
    obtain ⟨rfl, -⟩ := h
    obtain ⟨-, hval⟩ | ⟨-, hmiss⟩ := hkept.probe_pgm hpl hS hx r
    · exact congrArg Reply.value hval
    · exact (hhit hmiss).elim
  | lookupLoadLipp => exact h
  | @lookupLipp key r =>
    obtain ⟨rfl, h⟩ := h
    obtain ⟨-, hval⟩ | ⟨habs, hmiss⟩ := hkept.probe_lipp hll hS hx r
    · exact congrArg Reply.value hval
    · exact congrArg Reply.value (hmiss.trans (h.resolve_right habs).symm)
  | _ => exact h.elim

end LearnedIndex.DoubleBuffer
