import LearnedIndex.Hybrid.Build
import LearnedIndex.Hybrid.Lawful

/-! Conservation of the inserted items across the buffer, the batch in flight and LIPP,
over whole runs. -/

universe u v w x y

namespace LearnedIndex.Hybrid

open Util Transition

variable {ι : Type y} {K : Type u} {P : Type v} {L : Type w} {E : Type x}
  {pgmOps : PgmOps K P} {lippOps : LippOps K L E}

@[simp] theorem inserted_append (as bs : List (Action ι K)) :
    inserted (as ++ bs) = inserted as ++ inserted bs := List.flatMap_append

@[simp] theorem inserted_singleton (a : Action ι K) : inserted [a] = a.inserted :=
  List.flatMap_singleton _ _

theorem inserted_mono {as bs : List (Action ι K)} (h : as <+: bs) :
    inserted as <+: inserted bs := by
  obtain ⟨cs, rfl⟩ := h
  exact ⟨inserted cs, (inserted_append as cs).symm⟩

variable [Fintype ι]

theorem Fresh.ledger {data : List (KeyValue K)} {s₀ : State ι K P L E}
    (h : Fresh pgmOps lippOps data s₀) : Ledger [] [] [] [] s₀ := by
  refine ⟨?_, ?_, ?_⟩
  · simp [h.idle, ClientPc.unstored]
  · simp [h.idle, ClientPc.unqueued]
  · simp [h.buffer, h.batch]

/-- Once no call is running, everything called has been queued. -/
theorem Ledger.called_perm_queued {called stored queued passed : List (KeyValue K)}
    {s : State ι K P L E} (h : Ledger called stored queued passed s)
    (hidle : ∀ i, s.clients i = .idle) : called.Perm queued := by
  have hc := h.called_eq
  have hs := h.stored_eq
  simp only [hidle, ClientPc.unstored, ClientPc.unqueued, Finset.sum_const_zero, add_zero] at hc hs
  exact Multiset.coe_eq_coe.mp (hc.trans hs)

theorem Ledger.stored_le_called {called stored queued passed : List (KeyValue K)}
    {s : State ι K P L E} (h : Ledger called stored queued passed s) :
    (stored : Multiset (KeyValue K)) ≤ called :=
  h.called_eq ▸ Multiset.le_add_right _ _

theorem Ledger.passed_le_stored {called stored queued passed : List (KeyValue K)}
    {s : State ι K P L E} (h : Ledger called stored queued passed s) :
    (passed : Multiset (KeyValue K)) ≤ stored := by
  rw [h.stored_eq, h.queued_eq, List.append_assoc, ← Multiset.coe_add, add_assoc]
  exact Multiset.le_add_right _ _

theorem Ledger.passed_le_called {called stored queued passed : List (KeyValue K)}
    {s : State ι K P L E} (h : Ledger called stored queued passed s) :
    (passed : Multiset (KeyValue K)) ≤ called :=
  h.passed_le_stored.trans h.stored_le_called

variable [DecidableEq ι] [DecidableEq K]

variable (pgmOps lippOps) in
abbrev storedIn (s₀ : State ι K P L E) (acts : List (Action ι K)) : List (KeyValue K) :=
  trace (step pgmOps lippOps) storedBy s₀ acts

variable (pgmOps lippOps) in
abbrev queuedIn (s₀ : State ι K P L E) (acts : List (Action ι K)) : List (KeyValue K) :=
  trace (step pgmOps lippOps) queuedBy s₀ acts

variable (pgmOps lippOps) in
abbrev passedIn (s₀ : State ι K P L E) (acts : List (Action ι K)) : List (KeyValue K) :=
  trace (step pgmOps lippOps) passedBy s₀ acts

/-- The ledger of a run is kept by every step that is not another `Build`. -/
theorem Fresh.run_ledger {data : List (KeyValue K)} {s₀ s : State ι K P L E}
    {acts : List (Action ι K)} (h₀ : Fresh pgmOps lippOps data s₀)
    (hacts : ∀ a ∈ acts, a.isBuild = false)
    (hrun : run (step pgmOps lippOps) s₀ acts = some s) :
    Sound s ∧ Ledger (inserted acts) (storedIn pgmOps lippOps s₀ acts)
      (queuedIn pgmOps lippOps s₀ acts) (passedIn pgmOps lippOps s₀ acts) s := by
  refine run_induction (P := fun bs r => Sound r ∧ Ledger (inserted bs)
    (storedIn pgmOps lippOps s₀ bs) (queuedIn pgmOps lippOps s₀ bs)
    (passedIn pgmOps lippOps s₀ bs) r) ⟨h₀.toSound, h₀.ledger⟩ ?_ hrun
  rintro bs r a r' hp hr ⟨hsound, hledger⟩ hstep
  have ha : a.isBuild = false := hacts a (hp.subset (by simp))
  refine ⟨hsound.step ha (.of_step hstep), ?_⟩
  rw [inserted_append, inserted_singleton, storedIn, queuedIn, passedIn, trace_concat hr hstep,
    trace_concat hr hstep, trace_concat hr hstep]
  exact hledger.step hsound ha (.of_step hstep)

/-- One `Insert` call from its start to its return. -/
def insertTwo : List (Action Unit Nat) :=
  [.call () (.insert ⟨2, 20⟩), .client (), .client (), .client (), .client (), .client (),
    .client (), .ret () (.insert ⟨2, 20⟩) .done]

end LearnedIndex.Hybrid
