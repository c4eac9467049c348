import LearnedIndex.DoubleBuffer.Steps

/-! What the four indexes hold while their pointers are swapped: the flags and the owner of
`flush_mutex`, where the pointers point, and which pairs have been copied so far. -/

universe u v w x

namespace LearnedIndex.DoubleBuffer

open Util Hybrid

variable {K : Type u} {P : Type v} {L : Type w} {E : Type x}

/-- How far the pairs of `r_pgm_ptr` have come. -/
inductive Phase (K : Type u)
  | clean
  | pending
  | copying (passed rest : List (KeyValue K))
  | recopying (passed rest : List (KeyValue K))

def SwapPc.phase : SwapPc → Phase K
  | .uncomplete | .close | .loadRw | .loadR _ | .storeRw _ _ => .clean
  | .storeR _ | .raiseStop | .lowerStop | .spawn => .pending

def FlushPc.phase : FlushPc K → Phase K
  | .idle | .complete | .unlock => .clean
  | .reopen | .loadR | .getData _ => .pending
  | .firstTest passed rest => .copying passed rest
  | .firstLoad passed kv rest | .firstCall passed kv rest _ => .copying passed (kv :: rest)
  | .close data | .loadW data | .loadRLipp data _ | .storeW data _ _ | .storeRLipp data _ =>
    .copying data []
  | .reopenAgain data => .recopying [] data
  | .secondLoad passed rest => .recopying passed rest
  | .secondCall passed kv rest _ => .recopying passed (kv :: rest)
  | .clear data _ => .recopying data []

/-- The phase, given where the client that is swapping the PGM pointers is. -/
def Shared.phase (m : Shared K P L) (owner : Option SwapPc) : Phase K :=
  owner.elim m.flushThread.phase SwapPc.phase

/-- No swap has got past `flush_complete.store(false)`, and no flush is left to complete. -/
def settled : Option SwapPc → FlushPc K → Bool
  | none, .idle | none, .unlock | some .uncomplete, .idle => true
  | _, _ => false

/-- One client or the flush thread owns `flush_mutex`; `owner` says where that client is. -/
structure Guarded (m : Shared K P L) (owner : Option SwapPc) : Prop where
  locked : m.flushMutex = true ↔ owner ≠ none ∨ m.flushThread ≠ .idle
  alone : owner ≠ none → m.flushThread = .idle
  complete : m.flushComplete = true → settled owner m.flushThread = true
  stopping : m.stopFlush = true → owner = some .lowerStop

def SwapPc.Aimed (m : Shared K P L) : SwapPc → Prop
  | .loadR tmp => m.rPgmPtr = m.rwPgmPtr.other ∧ tmp = m.rwPgmPtr
  | .storeRw tmp r => m.rPgmPtr = m.rwPgmPtr.other ∧ tmp = m.rwPgmPtr ∧ r = m.rwPgmPtr.other
  | .storeR tmp => m.rPgmPtr = m.rwPgmPtr ∧ tmp = m.rwPgmPtr.other
  | _ => m.rPgmPtr = m.rwPgmPtr.other

def FlushPc.Aimed (m : Shared K P L) : FlushPc K → Prop
  | .getData r | .clear _ r => m.wLippPtr = m.rLippPtr.other ∧ r = m.rPgmPtr
  | .firstCall _ _ _ w | .secondCall _ _ _ w =>
    m.wLippPtr = m.rLippPtr.other ∧ w = m.rLippPtr.other
  | .loadRLipp _ tmp => m.wLippPtr = m.rLippPtr.other ∧ tmp = m.rLippPtr.other
  | .storeW _ tmp r => m.wLippPtr = m.rLippPtr.other ∧ tmp = m.rLippPtr.other ∧ r = m.rLippPtr
  | .storeRLipp _ tmp => m.wLippPtr = m.rLippPtr ∧ tmp = m.rLippPtr.other
  | _ => m.wLippPtr = m.rLippPtr.other

/-- The pointers of a kind are apart, but in the middle of their swap. -/
structure Aimed (m : Shared K P L) (owner : Option SwapPc) : Prop where
  pgm : owner.elim (m.rPgmPtr = m.rwPgmPtr.other) (SwapPc.Aimed m)
  lipp : m.flushThread.Aimed m

theorem Aimed.congr {m m' : Shared K P L} {owner : Option SwapPc} (h : Aimed m owner)
    (hrw : m'.rwPgmPtr = m.rwPgmPtr) (hr : m'.rPgmPtr = m.rPgmPtr) (hw : m'.wLippPtr = m.wLippPtr)
    (hread : m'.rLippPtr = m.rLippPtr) (hflush : m'.flushThread = m.flushThread) : Aimed m' owner := by
  constructor
  · have hpgm := h.pgm
    cases owner with
    | none => rwa [Option.elim, hr, hrw]
    | some pc => cases pc <;> simpa [SwapPc.Aimed, hr, hrw] using hpgm
  · have hlipp := h.lipp
    rw [hflush]
    cases hpc : m.flushThread <;> rw [hpc] at hlipp <;>
      simpa [FlushPc.Aimed, hw, hread, hr] using hlipp

/-- What the flush has moved, over the pairs `base` that both LIPPs had before it. -/
def Filled (pairs : P → Multiset (KeyValue K)) (stored : L → Multiset (KeyValue K))
    (base : Multiset (KeyValue K)) (m : Shared K P L) : Phase K → Prop
  | .clean => pairs (m.pgm m.rwPgmPtr.other) = 0 ∧
      stored (m.lipp m.rLippPtr) = base ∧ stored (m.lipp m.rLippPtr.other) = base
  | .pending => stored (m.lipp m.rLippPtr) = base ∧ stored (m.lipp m.rLippPtr.other) = base
  | .copying passed rest => pairs (m.pgm m.rwPgmPtr.other) = (passed ++ rest : List _) ∧
      stored (m.lipp m.rLippPtr) = base ∧ stored (m.lipp m.rLippPtr.other) = base + passed
  | .recopying passed rest => pairs (m.pgm m.rwPgmPtr.other) = (passed ++ rest : List _) ∧
      stored (m.lipp m.rLippPtr) = base + (passed ++ rest : List _) ∧
      stored (m.lipp m.rLippPtr.other) = base + passed

theorem Guarded.swap {m : Shared K P L} {pc : SwapPc} (h : Guarded m (some pc)) :
    Guarded (swapStep m pc).1 (swapStep m pc).2 := by
  obtain ⟨hl, ha, hc, hs⟩ := h
  have hidle := ha (by simp)
  cases pc <;> constructor <;> simp_all [swapStep, settled]

theorem Aimed.swap {m : Shared K P L} {pc : SwapPc} (h : Aimed m (some pc)) (hidle : m.flushThread = .idle) :
    Aimed (swapStep m pc).1 (swapStep m pc).2 := by
  obtain ⟨hp, hl⟩ := h
  cases pc <;> constructor <;> simp_all [swapStep, SwapPc.Aimed, FlushPc.Aimed]

theorem Guarded.flush {ops : Ops K P L E} {m m' : Shared K P L} (h : Guarded m none)
    (hstep : FlushStep ops m m') : Guarded m' none := by
  obtain ⟨hl, ha, hc, hs⟩ := h
  cases hstep <;> constructor <;> simp_all [settled, Shared.setPgm, Shared.setLipp]

theorem Aimed.flush {ops : Ops K P L E} {m m' : Shared K P L} (h : Aimed m none)
    (hstep : FlushStep ops m m') : Aimed m' none := by
  obtain ⟨hp, hl⟩ := h
  cases hstep <;> constructor <;> simp_all [FlushPc.Aimed, Shared.setPgm, Shared.setLipp]

@[simp] theorem setPgm_pgm (m : Shared K P L) (p q : Side) (pgm : P) :
    (m.setPgm p pgm).pgm q = if q = p then pgm else m.pgm q := by
  simp [Shared.setPgm, Function.update_apply]

@[simp] theorem setLipp_lipp (m : Shared K P L) (l q : Side) (lipp : L) :
    (m.setLipp l lipp).lipp q = if q = l then lipp else m.lipp q := by
  simp [Shared.setLipp, Function.update_apply]

/-- What a step leaves to a lookup: pairs stay where they are until `r_lipp_ptr` has them,
and `rw_pgm_ptr` moves on only to an empty PGM. -/
structure Evolves (pairs : P → Multiset (KeyValue K)) (stored : L → Multiset (KeyValue K))
    (m m' : Shared K P L) : Prop where
  read : ∀ x ∈ stored (m.lipp m.rLippPtr), x ∈ stored (m'.lipp m'.rLippPtr)
  lipp : ∀ l, ∀ x ∈ stored (m.lipp l), x ∈ stored (m'.lipp l)
  pgm : ∀ p, ∀ x ∈ pairs (m.pgm p), x ∈ pairs (m'.pgm p) ∨ x ∈ stored (m'.lipp m'.rLippPtr)
  front : m'.rwPgmPtr = m.rwPgmPtr ∨ pairs (m.pgm m.rwPgmPtr.other) = 0

section Contents

variable {pairs : P → Multiset (KeyValue K)} {stored : L → Multiset (KeyValue K)}

theorem Evolves.of_eq {m m' : Shared K P L} (hpgm : m'.pgm = m.pgm) (hlipp : m'.lipp = m.lipp)
    (hread : m'.rLippPtr = m.rLippPtr)
    (hfront : m'.rwPgmPtr = m.rwPgmPtr ∨ pairs (m.pgm m.rwPgmPtr.other) = 0) :
    Evolves pairs stored m m' := by
  refine ⟨?_, ?_, ?_, hfront⟩
  · rw [hlipp, hread]
    exact fun x hx => hx
  · rw [hlipp]
    exact fun l x hx => hx
  · rw [hpgm]
    exact fun p x hx => .inl hx

theorem Evolves.setLipp {m : Shared K P L} {lipp : L} {pc : FlushPc K}
    (h : ∀ x ∈ stored (m.lipp m.rLippPtr.other), x ∈ stored lipp) :
    Evolves pairs stored m { m.setLipp m.rLippPtr.other lipp with flushThread := pc } := by
  have hlipp : ∀ l, ∀ x ∈ stored (m.lipp l), x ∈ stored ((m.setLipp m.rLippPtr.other lipp).lipp l) := by
    intro l x hx
    rw [setLipp_lipp]
    split
    · rename_i hl
      exact h x (hl ▸ hx)
    · exact hx
  exact ⟨hlipp m.rLippPtr, hlipp, fun p x hx => .inl hx, .inl rfl⟩

/-- The pairs of the four indexes, and that each of them is what its operations made it. -/
structure Kept (PInv : P → Prop) (pairs : P → Multiset (KeyValue K)) (LInv : L → Prop)
    (stored : L → Multiset (KeyValue K)) (S : Multiset (KeyValue K)) (m : Shared K P L)
    (phase : Phase K) : Prop where
  pgmInv : ∀ p, PInv (m.pgm p)
  lippInv : ∀ l, LInv (m.lipp l)
  filled : ∃ base, Filled pairs stored base m phase ∧
    pairs (m.pgm m.rwPgmPtr) + pairs (m.pgm m.rwPgmPtr.other) + base = S

variable {PInv : P → Prop} {LInv : L → Prop} {S : Multiset (KeyValue K)}

theorem Kept.of_eq {m m' : Shared K P L} {phase phase' : Phase K}
    (h : Kept PInv pairs LInv stored S m phase) (hpgm : m'.pgm = m.pgm) (hlipp : m'.lipp = m.lipp)
    (hread : m'.rLippPtr = m.rLippPtr) (hrw : m'.rwPgmPtr = m.rwPgmPtr)
    (hphase : ∀ base, Filled pairs stored base m phase → Filled pairs stored base m phase') :
    Kept PInv pairs LInv stored S m' phase' := by
  obtain ⟨hp, hl, base, hfilled, htotal⟩ := h
  refine ⟨?_, ?_, base, ?_, ?_⟩
  · rwa [hpgm]
  · rwa [hlipp]
  · have hnext := hphase base hfilled
    unfold Filled at hnext ⊢
    rwa [hpgm, hlipp, hread, hrw]
  · rwa [hpgm, hrw]

theorem fresh_of_cons_le {kv : KeyValue K} {X : Multiset (KeyValue K)}
    (hS : (S.map KeyValue.key).Nodup) (hle : kv ::ₘ X ≤ S) : ∀ x ∈ X, x.key ≠ kv.key := by
  have hnodup := Multiset.nodup_of_le (Multiset.map_le_map hle) hS
  rw [Multiset.map_cons, Multiset.nodup_cons] at hnodup
  intro x hx hk
  exact hnodup.1 (hk ▸ Multiset.mem_map_of_mem _ hx)

theorem Kept.swap {m : Shared K P L} {pc : SwapPc} (haim : Aimed m (some pc))
    (h : Kept PInv pairs LInv stored S m (m.phase (some pc))) :
    Kept PInv pairs LInv stored S (swapStep m pc).1 ((swapStep m pc).1.phase (swapStep m pc).2) ∧
      Evolves pairs stored m (swapStep m pc).1 := by
  cases pc with
  | storeRw tmp r =>
    obtain ⟨hp, hl, base, ⟨hback, hread, hwrite⟩, htotal⟩ := h
    obtain ⟨-, -, rfl⟩ := haim.pgm
    refine ⟨⟨hp, hl, base, ⟨hread, hwrite⟩, ?_⟩, .of_eq rfl rfl rfl (.inr hback)⟩
    rw [← htotal]
    simp [swapStep, add_comm]
  | _ => exact ⟨h.of_eq rfl rfl rfl rfl fun base hf => hf, .of_eq rfl rfl rfl (.inl rfl)⟩

variable [LinearOrder K] {ops : Ops K P L E}

/-- One more pair of `data` goes into the LIPP that is not read. -/
theorem insert_unread {m : Shared K P L} {base : Multiset (KeyValue K)}
    {passed rest : List (KeyValue K)} {kv : KeyValue K} {lipp : L}
    (hlaw : ops.lipp.Lawful LInv stored) (hS : (S.map KeyValue.key).Nodup)
    (hinv : ∀ l, LInv (m.lipp l))
    (hback : pairs (m.pgm m.rwPgmPtr.other) = (passed ++ kv :: rest : List _))
    (hwrite : stored (m.lipp m.rLippPtr.other) = base + passed)
    (htotal : pairs (m.pgm m.rwPgmPtr) + pairs (m.pgm m.rwPgmPtr.other) + base = S)
    (h : ops.lipp.insert (m.lipp m.rLippPtr.other) kv = .returns lipp) :
    (∀ l, LInv ((m.setLipp m.rLippPtr.other lipp).lipp l)) ∧
      stored lipp = base + (passed ++ [kv] : List _) ∧
      ∀ x ∈ stored (m.lipp m.rLippPtr.other), x ∈ stored lipp := by
  have hfresh : ∀ x ∈ stored (m.lipp m.rLippPtr.other), x.key ≠ kv.key := by
    apply fresh_of_cons_le hS
    calc
      kv ::ₘ stored (m.lipp m.rLippPtr.other)
          ≤ (kv ::ₘ (base + passed)) + (pairs (m.pgm m.rwPgmPtr) + rest) := by
        rw [hwrite]
        exact Multiset.le_add_right _ _
      _ = S := by
        rw [← htotal, hback, ← Multiset.coe_add, ← Multiset.cons_coe]
        simp only [← Multiset.singleton_add]
        ac_rfl
  obtain ⟨hinv', hcontents⟩ := hlaw.insert (hinv _) hfresh h
  refine ⟨fun l => ?_, ?_, fun x hx => ?_⟩
  · rw [setLipp_lipp]
    split
    · exact hinv'
    · exact hinv l
  · rw [hcontents, hwrite, ← Multiset.coe_add, ← Multiset.singleton_add, Multiset.coe_singleton]
    ac_rfl
  · rw [hcontents]
    exact Multiset.mem_cons_of_mem hx

theorem Kept.flush {m m' : Shared K P L} (hpgm : ops.pgm.Lawful PInv pairs)
    (hlipp : ops.lipp.Lawful LInv stored)
    (hget : ∀ p, PInv p → (ops.getData p : Multiset (KeyValue K)) = pairs p)
    (hS : (S.map KeyValue.key).Nodup) (hguard : Guarded m none) (haim : Aimed m none)
    (h : Kept PInv pairs LInv stored S m (m.phase none)) (hstep : FlushStep ops m m') :
    Kept PInv pairs LInv stored S m' (m'.phase none) ∧ Evolves pairs stored m m' := by
  have hr : m.rPgmPtr = m.rwPgmPtr.other := haim.pgm
  have haimed := haim.lipp
  cases hstep with
  | getData hpc =>
    simp only [hpc, FlushPc.Aimed, Shared.phase, Option.elim, FlushPc.phase] at haimed h
    obtain ⟨-, rfl⟩ := haimed
    obtain ⟨hp, hl, base, ⟨hread, hwrite⟩, htotal⟩ := h
    refine ⟨⟨hp, hl, base, ⟨?_, hread, ?_⟩, htotal⟩, .of_eq rfl rfl rfl (.inl rfl)⟩
    · rw [List.nil_append, hget _ (hp _), hr]
    · rw [hwrite, Multiset.coe_nil, add_zero]
  | stop hpc hstop => cases hguard.stopping hstop
  | @firstCall passed kv rest w lipp hpc hins =>
    simp only [hpc, FlushPc.Aimed, Shared.phase, Option.elim, FlushPc.phase] at haimed h
    obtain ⟨-, rfl⟩ := haimed
    obtain ⟨hp, hl, base, ⟨hback, hread, hwrite⟩, htotal⟩ := h
    obtain ⟨hinv, hcontents, hgrows⟩ := insert_unread hlipp hS hl hback hwrite htotal hins
    refine ⟨⟨hp, hinv, base, ⟨?_, ?_, ?_⟩, htotal⟩, ?_⟩
    · simpa [Shared.setLipp] using hback
    · simpa [Shared.setLipp] using hread
    · simpa [Shared.setLipp] using hcontents
    · exact .setLipp hgrows
  | @secondCall passed kv rest w lipp hpc hins =>
    simp only [hpc, FlushPc.Aimed, Shared.phase, Option.elim, FlushPc.phase] at haimed h
    obtain ⟨-, rfl⟩ := haimed
    obtain ⟨hp, hl, base, ⟨hback, hread, hwrite⟩, htotal⟩ := h
    obtain ⟨hinv, hcontents, hgrows⟩ := insert_unread hlipp hS hl hback hwrite htotal hins
    refine ⟨⟨hp, hinv, base, ⟨?_, ?_, ?_⟩, htotal⟩, ?_⟩
    · simpa [Shared.setLipp] using hback
    · simpa [Shared.setLipp] using hread
    · simpa [Shared.setLipp] using hcontents
    · exact .setLipp hgrows
  | storeRLipp hpc =>
    simp only [hpc, FlushPc.Aimed, Shared.phase, Option.elim, FlushPc.phase] at haimed h
    obtain ⟨-, rfl⟩ := haimed
    obtain ⟨hp, hl, base, ⟨hback, hread, hwrite⟩, htotal⟩ := h
    rw [List.append_nil] at hback
    refine ⟨⟨hp, hl, base, ⟨hback, hwrite, ?_⟩, htotal⟩, ?_⟩
    · simpa using hread
    · refine ⟨fun x hx => ?_, fun l x hx => hx, fun p x hx => .inl hx, .inl rfl⟩
      rw [hread] at hx
      rw [hwrite]
      exact Multiset.mem_add.mpr (.inl hx)
  | @clear data r hpc =>
    simp only [hpc, FlushPc.Aimed, Shared.phase, Option.elim, FlushPc.phase] at haimed h
    obtain ⟨-, rfl⟩ := haimed
    obtain ⟨hp, hl, base, ⟨hback, hread, hwrite⟩, htotal⟩ := h
    rw [List.append_nil] at hback hread
    rw [hr]
    refine ⟨⟨fun q => ?_, hl, base + data, ⟨?_, hread, hwrite⟩, ?_⟩, ?_⟩
    · rw [setPgm_pgm]
      split
      · exact hpgm.inv_empty
      · exact hp q
    · simp [Shared.setPgm, hpgm.contents_empty]
    · calc
        pairs ((m.setPgm m.rwPgmPtr.other ops.pgm.empty).pgm m.rwPgmPtr)
              + pairs ((m.setPgm m.rwPgmPtr.other ops.pgm.empty).pgm m.rwPgmPtr.other) + (base + data)
            = pairs (m.pgm m.rwPgmPtr) + data + base := by
          simp only [setPgm_pgm, Side.ne_other, ↓reduceIte, hpgm.contents_empty]
          ac_rfl
        _ = S := by rw [← htotal, hback]
    · refine ⟨fun x hx => hx, fun l x hx => hx, fun q x hx => ?_, .inl rfl⟩
      obtain rfl | hq := eq_or_ne q m.rwPgmPtr.other
      · right
        rw [hback] at hx
        have hcopied : x ∈ stored (m.lipp m.rLippPtr) := by
          rw [hread]
          exact Multiset.mem_add.mpr (.inr hx)
        exact hcopied
      · left
        simpa [Shared.setPgm, Function.update_of_ne hq] using hx
  | _ hpc =>
    simp only [hpc, Shared.phase, Option.elim, FlushPc.phase] at h
    refine ⟨h.of_eq rfl rfl rfl rfl fun base hf => ?_, .of_eq rfl rfl rfl (.inl rfl)⟩
    simpa [Shared.phase, FlushPc.phase, Filled] using hf

/-- A fresh pair goes to the PGM that is written, or to one that is yet to be copied. -/
theorem Kept.insert {m : Shared K P L} {phase : Phase K} {kv : KeyValue K} {p : Side}
    (hlaw : ops.pgm.Lawful PInv pairs) (hfresh : ∀ x ∈ S, x.key ≠ kv.key)
    (hp : p = m.rwPgmPtr ∨ phase = .pending) (h : Kept PInv pairs LInv stored S m phase) :
    Kept PInv pairs LInv stored (kv ::ₘ S) (m.setPgm p (ops.pgm.insert (m.pgm p) kv)) phase ∧
      Evolves pairs stored m (m.setPgm p (ops.pgm.insert (m.pgm p) kv)) := by
  obtain ⟨hpinv, hlinv, base, hfilled, htotal⟩ := h
  have hp' := m.rwPgmPtr.eq_or_eq_other p
  have hsub : ∀ x ∈ pairs (m.pgm p), x.key ≠ kv.key := by
    intro x hx
    apply hfresh
    rw [← htotal, Multiset.mem_add, Multiset.mem_add]
    obtain rfl | rfl := hp'
    · exact .inl (.inl hx)
    · exact .inl (.inr hx)
  have hcontents := hlaw.contents_insert (hpinv p) hsub
  refine ⟨⟨fun q => ?_, hlinv, base, ?_, ?_⟩, ?_⟩
  · rw [setPgm_pgm]
    split
    · exact hlaw.inv_insert (hpinv p) hsub
    · exact hpinv q
  · obtain rfl | rfl := hp
    · cases phase <;> simpa [Filled, Shared.setPgm] using hfilled
    · exact hfilled
  · rw [← htotal]
    obtain rfl | rfl := hp'
    · simp [Shared.setPgm, hcontents]
    · simp [Shared.setPgm, hcontents]
  · refine ⟨fun x hx => hx, fun l x hx => hx, fun q x hx => .inl ?_, .inl rfl⟩
    rw [setPgm_pgm]
    split
    · rename_i hq
      rw [hcontents, ← hq]
      exact Multiset.mem_cons_of_mem hx
    · exact hx

end Contents

end LearnedIndex.DoubleBuffer
