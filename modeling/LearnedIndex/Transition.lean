import Mathlib.Data.List.Induction

/-! Deterministic partial transition systems: runs over a list of actions, what an
observer sees along a run, and the induction rules for both. -/

universe u v w

namespace LearnedIndex.Transition

variable {S : Type u} {A : Type v} {O : Type w} {step : S → A → Option S}

/-- The state after the actions, when each of them is enabled in its turn. -/
def run (step : S → A → Option S) (s : S) (as : List A) : Option S :=
  as.foldlM step s

@[simp] theorem run_nil (s : S) : run step s [] = some s := rfl

@[simp] theorem run_cons (s : S) (a : A) (as : List A) :
    run step s (a :: as) = (step s a).bind (fun t => run step t as) := rfl

theorem run_append (s : S) (as bs : List A) :
    run step s (as ++ bs) = (run step s as).bind (fun t => run step t bs) := by
  simp [run, List.foldlM_append]

theorem run_append_eq_some {s t : S} {as bs : List A} :
    run step s (as ++ bs) = some t ↔
      ∃ r, run step s as = some r ∧ run step r bs = some t := by
  rw [run_append, Option.bind_eq_some_iff]

theorem run_cons_eq_some {s t : S} {a : A} {as : List A} :
    run step s (a :: as) = some t ↔ ∃ r, step s a = some r ∧ run step r as = some t := by
  rw [run_cons, Option.bind_eq_some_iff]

theorem run_concat_eq_some {s t : S} {as : List A} {a : A} :
    run step s (as ++ [a]) = some t ↔ ∃ r, run step s as = some r ∧ step r a = some t := by
  rw [run_append_eq_some]
  simp

/-- A property of the history and the state that every enabled step of the run extends
holds after the run. -/
theorem run_induction {P : List A → S → Prop} {s t : S} {as : List A}
    (h0 : P [] s)
    (hstep : ∀ bs r a r', bs ++ [a] <+: as → run step s bs = some r → P bs r →
      step r a = some r' → P (bs ++ [a]) r')
    (h : run step s as = some t) : P as t := by
  induction as using List.reverseRecOn generalizing t with
  | nil => simp only [run_nil, Option.some.injEq] at h; exact h ▸ h0
  | append_singleton bs a ih =>
    obtain ⟨r, hr, ht⟩ := run_concat_eq_some.mp h
    apply hstep bs r a t (List.prefix_refl _) hr _ ht
    exact ih (fun cs r a r' hp => hstep cs r a r' (hp.trans (List.prefix_append _ _))) hr

/-- If every step of the run is enabled in its turn, the run gets to its end. -/
theorem run_total {P : List A → S → Prop} {s : S} {as : List A} (h0 : P [] s)
    (hstep : ∀ bs r a, bs ++ [a] <+: as → run step s bs = some r → P bs r →
      ∃ r', step r a = some r' ∧ P (bs ++ [a]) r') :
    ∃ t, run step s as = some t ∧ P as t := by
  induction as using List.reverseRecOn with
  | nil => exact ⟨s, rfl, h0⟩
  | append_singleton bs a ih =>
    obtain ⟨r, hr, hP⟩ :=
      ih fun cs r a hp => hstep cs r a (hp.trans (List.prefix_append _ _))
    obtain ⟨t, ht, hPt⟩ := hstep bs r a (List.prefix_refl _) hr hP
    exact ⟨t, run_concat_eq_some.mpr ⟨r, hr, ht⟩, hPt⟩

/-- An invariant of the steps whose actions are in `en` holds after a run of such actions. -/
theorem run_invariant {I : S → Prop} {en : A → Prop} {s t : S} {as : List A}
    (hstep : ∀ r a r', en a → I r → step r a = some r' → I r')
    (hen : ∀ a ∈ as, en a) (h0 : I s) (h : run step s as = some t) : I t :=
  run_induction (P := fun _ r => I r) h0
    (fun _ r a r' hp _ hI hs => hstep r a r' (hen a (hp.subset (by simp))) hI hs) h

/-- Every step of the run, as far as it gets, is one that `cond` allows. -/
def Along (step : S → A → Option S) (cond : S → A → Prop) : S → List A → Prop
  | _, [] => True
  | s, a :: as => cond s a ∧ ∀ t, step s a = some t → Along step cond t as

section Along

variable {cond : S → A → Prop}

instance Along.decidable [∀ s a, Decidable (cond s a)] :
    ∀ (s : S) (as : List A), Decidable (Along step cond s as)
  | _, [] => .isTrue trivial
  | s, a :: as =>
    match h : step s a with
    | none => decidable_of_iff (cond s a) (by simp [Along, h])
    | some t =>
      have := Along.decidable t as
      decidable_of_iff (cond s a ∧ Along step cond t as) (by simp [Along, h])

theorem Along.mono {cond' : S → A → Prop} (hcond : ∀ s a, cond s a → cond' s a) {s : S}
    {as : List A} (h : Along step cond s as) : Along step cond' s as := by
  induction as generalizing s with
  | nil => trivial
  | cons a as ih => exact ⟨hcond s a h.1, fun t ht => ih (h.2 t ht)⟩

theorem Along.of_append {s : S} {as bs : List A} (h : Along step cond s (as ++ bs)) :
    Along step cond s as := by
  induction as generalizing s with
  | nil => trivial
  | cons a as ih => exact ⟨h.1, fun t ht => ih (h.2 t ht)⟩

theorem Along.of_prefix {s : S} {as bs : List A} (h : Along step cond s bs) (hp : as <+: bs) :
    Along step cond s as := by
  obtain ⟨cs, rfl⟩ := hp
  exact h.of_append

/-- The step taken after some of the actions is allowed. -/
theorem Along.allowed {s t : S} {as : List A} {a : A} (h : Along step cond s (as ++ [a]))
    (hrun : run step s as = some t) : cond t a := by
  induction as generalizing s with
  | nil =>
    cases hrun
    exact h.1
  | cons b as ih =>
    obtain ⟨r, hr, hrun⟩ := run_cons_eq_some.mp hrun
    exact ih (h.2 r hr) hrun

end Along

/-- What an observer of single steps has seen along a run. -/
def trace (step : S → A → Option S) (obs : S → A → List O) : S → List A → List O
  | _, [] => []
  | s, a :: as =>
    match step s a with
    | some t => obs s a ++ trace step obs t as
    | none => []

variable {obs : S → A → List O}

@[simp] theorem trace_nil (s : S) : trace step obs s [] = [] := rfl

theorem trace_cons {s t : S} {a : A} (h : step s a = some t) (as : List A) :
    trace step obs s (a :: as) = obs s a ++ trace step obs t as := by
  simp [trace, h]

theorem trace_append {s t : S} {as : List A} (h : run step s as = some t) (bs : List A) :
    trace step obs s (as ++ bs) = trace step obs s as ++ trace step obs t bs := by
  induction as generalizing s with
  | nil => simp only [run_nil, Option.some.injEq] at h; subst h; rfl
  | cons a as ih =>
    obtain ⟨r, hr, ht⟩ := run_cons_eq_some.mp h
    rw [List.cons_append, trace_cons hr, trace_cons hr, ih ht, List.append_assoc]

theorem trace_concat {s r t : S} {as : List A} {a : A} (h : run step s as = some r)
    (ha : step r a = some t) :
    trace step obs s (as ++ [a]) = trace step obs s as ++ obs r a := by
  rw [trace_append h, trace_cons ha, trace_nil, List.append_nil]

end LearnedIndex.Transition
