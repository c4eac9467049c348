import LearnedIndex.Hybrid.Parts

/-! Computations that leave a trace: the state behind each of their writes, besides how they
end.  What holds in all of these states, and what in some of them, passes through sequences and
loops. -/

universe u v w

namespace LearnedIndex

open Hybrid

/-- The states behind the writes, the oldest first, and how the call ends. -/
def Traced (σ : Type u) (E : Type v) (α : Type u) : Type (max u v) :=
  σ → List σ × Outcome E (α × σ)

namespace Traced

variable {σ α β : Type u} {E : Type v}

protected def bind (x : Traced σ E α) (f : α → Traced σ E β) : Traced σ E β := fun s =>
  match x s with
  | (log, .returns (a, t)) =>
    match f a t with
    | (log', r) => (log ++ log', r)
  | (log, .exits e) => (log, .exits e)
  | (log, .diverges) => (log, .diverges)

instance : Monad (Traced σ E) where
  pure a := fun s => ([], .returns (a, s))
  bind := Traced.bind

def lift (o : Outcome E α) : Traced σ E α := fun s => ([], o >>= fun a => .returns (a, s))

def get : Traced σ E σ := fun s => ([], .returns (s, s))

def write (f : σ → σ) : Traced σ E PUnit := fun s => ([f s], .returns (⟨⟩, f s))

/-- The states that a call passes through, from the one where it starts. -/
def states (x : Traced σ E α) (s : σ) : List σ := s :: (x s).1

/-- The call only reads. -/
def Reads (x : Traced σ E α) (s : σ) (a : α) : Prop := x s = ([], .returns (a, s))

/-- The call writes once. -/
def Writes (x : Traced σ E α) (s : σ) (a : α) (t : σ) : Prop := x s = ([t], .returns (a, t))

/-- Every write leaves a state with `I`. -/
def Always (x : Traced σ E α) (s : σ) (I : σ → Prop) : Prop := ∀ t ∈ (x s).1, I t

/-- Some write leaves a state with `P`. -/
def Passes (x : Traced σ E α) (s : σ) (P : σ → Prop) : Prop := ∃ t ∈ (x s).1, P t

/-- The call returns, every write leaves a state with `I`, and the last one is as `Q` says. -/
def Ends (x : Traced σ E α) (s : σ) (I : σ → Prop) (Q : α → σ → Prop) : Prop :=
  ∃ log a t, x s = (log, .returns (a, t)) ∧ (∀ r ∈ log, I r) ∧ Q a t

/-- The call fails, and every write leaves a state with `I`. -/
def Exits (x : Traced σ E α) (s : σ) (I : σ → Prop) : Prop :=
  ∃ log e, x s = (log, .exits e) ∧ ∀ r ∈ log, I r

variable {x : Traced σ E α} {f : α → Traced σ E β} {s : σ} {I : σ → Prop} {P : σ → Prop}
  {Q : α → σ → Prop} {R : β → σ → Prop}

theorem bind_returns {log : List σ} {a : α} {t : σ} (h : x s = (log, .returns (a, t))) :
    (x >>= f) s = (log ++ (f a t).1, (f a t).2) := by
  change Traced.bind x f s = _
  rw [Traced.bind, h]

theorem bind_exits {log : List σ} {e : E} (h : x s = (log, .exits e)) :
    (x >>= f) s = (log, .exits e) := by
  change Traced.bind x f s = _
  rw [Traced.bind, h]

theorem bind_diverges {log : List σ} (h : x s = (log, .diverges)) :
    (x >>= f) s = (log, .diverges) := by
  change Traced.bind x f s = _
  rw [Traced.bind, h]

/-- What a call has written stays written, whatever follows. -/
theorem mem_bind {t : σ} (h : t ∈ (x s).1) : t ∈ ((x >>= f) s).1 := by
  cases hx : (x s).2 with
  | returns r =>
    rw [bind_returns (Prod.ext rfl hx)]
    exact List.mem_append_left _ h
  | exits e => rwa [bind_exits (Prod.ext rfl hx)]
  | diverges => rwa [bind_diverges (Prod.ext rfl hx)]

theorem Passes.mono {P' : σ → Prop} (h : x.Passes s P) (hmono : ∀ t, P t → P' t) : x.Passes s P' := by
  obtain ⟨t, ht, hP⟩ := h
  exact ⟨t, ht, hmono t hP⟩

theorem Passes.bind (h : x.Passes s P) : (x >>= f).Passes s P := by
  obtain ⟨t, ht, hP⟩ := h
  exact ⟨t, mem_bind ht, hP⟩

theorem Ends.always (h : x.Ends s I Q) : x.Always s I := by
  obtain ⟨log, a, t, hx, hlog, -⟩ := h
  rwa [Always, hx]

theorem Exits.always (h : x.Exits s I) : x.Always s I := by
  obtain ⟨log, e, hx, hlog⟩ := h
  rwa [Always, hx]

theorem Exits.mono {I' : σ → Prop} (h : x.Exits s I) (hI : ∀ t, I t → I' t) : x.Exits s I' := by
  obtain ⟨log, e, hx, hlog⟩ := h
  exact ⟨log, e, hx, fun r hr => hI r (hlog r hr)⟩

theorem Exits.bind (h : x.Exits s I) : (x >>= f).Exits s I := by
  obtain ⟨log, e, hx, hlog⟩ := h
  exact ⟨log, e, bind_exits hx, hlog⟩

theorem Exits.lift (e : E) : (Traced.lift (.exits e) : Traced σ E α).Exits s I :=
  ⟨[], e, rfl, fun _ hr => absurd hr List.not_mem_nil⟩

namespace Ends

theorem mono {I' : σ → Prop} {Q' : α → σ → Prop} (h : x.Ends s I Q) (hI : ∀ t, I t → I' t)
    (hQ : ∀ a t, Q a t → Q' a t) : x.Ends s I' Q' := by
  obtain ⟨log, a, t, hx, hlog, ha⟩ := h
  exact ⟨log, a, t, hx, fun r hr => hI r (hlog r hr), hQ a t ha⟩

theorem pure {a : α} (h : Q a s) : (Pure.pure a : Traced σ E α).Ends s I Q :=
  ⟨[], a, s, rfl, fun _ hr => absurd hr List.not_mem_nil, h⟩

theorem bind (h : x.Ends s I Q) (hf : ∀ a t, Q a t → (f a).Ends t I R) : (x >>= f).Ends s I R := by
  obtain ⟨log, a, t, hx, hlog, ha⟩ := h
  obtain ⟨log', b, r, hfa, hlog', hb⟩ := hf a t ha
  refine ⟨log ++ log', b, r, ?_, ?_, hb⟩
  · rw [bind_returns hx, hfa]
  · exact fun q hq => (List.mem_append.mp hq).elim (hlog q) (hlog' q)

theorem exits (h : x.Ends s I Q) (hf : ∀ a t, Q a t → (f a).Exits t I) : (x >>= f).Exits s I := by
  obtain ⟨log, a, t, hx, hlog, ha⟩ := h
  obtain ⟨log', e, hfa, hlog'⟩ := hf a t ha
  refine ⟨log ++ log', e, ?_, ?_⟩
  · rw [bind_returns hx, hfa]
  · exact fun q hq => (List.mem_append.mp hq).elim (hlog q) (hlog' q)

theorem passes (h : x.Ends s I Q) (hf : ∀ a t, Q a t → (f a).Passes t P) : (x >>= f).Passes s P := by
  obtain ⟨log, a, t, hx, -, ha⟩ := h
  obtain ⟨r, hr, hP⟩ := hf a t ha
  refine ⟨r, ?_, hP⟩
  rw [bind_returns hx]
  exact List.mem_append_right _ hr

/-- A loop over a list. -/
theorem forM {ι : Type w} {xs : List ι} {f : ι → Traced σ E PUnit} {J : σ → Prop} (hs : J s)
    (hstep : ∀ i ∈ xs, ∀ t, J t → (f i).Ends t I fun _ => J) : (xs.forM f).Ends s I fun _ => J := by
  induction xs generalizing s with
  | nil => exact .pure hs
  | cons i xs ih =>
    apply (hstep i List.mem_cons_self s hs).bind
    intro _ t ht
    exact ih ht fun j hj => hstep j (List.mem_cons_of_mem i hj)

end Ends

namespace Reads

variable {a : α} {b : β}

theorem pure (a : α) (s : σ) : (Pure.pure a : Traced σ E α).Reads s a := rfl

theorem lift (a : α) (s : σ) : (Traced.lift (.returns a) : Traced σ E α).Reads s a := rfl

theorem get (s : σ) : (Traced.get : Traced σ E σ).Reads s s := rfl

/-- What only reads can be left out. -/
theorem bind_eq (h : x.Reads s a) : (x >>= f) s = f a s := by
  rw [bind_returns h, List.nil_append]

theorem bind (h : x.Reads s a) (hf : (f a).Reads s b) : (x >>= f).Reads s b := h.bind_eq.trans hf

theorem writes {t : σ} (h : x.Reads s a) (hf : (f a).Writes s b t) : (x >>= f).Writes s b t :=
  h.bind_eq.trans hf

theorem ends (h : x.Reads s a) (hf : (f a).Ends s I R) : (x >>= f).Ends s I R := by
  rwa [Ends, h.bind_eq]

theorem exits (h : x.Reads s a) (hf : (f a).Exits s I) : (x >>= f).Exits s I := by
  rwa [Exits, h.bind_eq]

theorem passes (h : x.Reads s a) (hf : (f a).Passes s P) : (x >>= f).Passes s P := by
  rwa [Passes, h.bind_eq]

/-- A loop over positions that only reads, with an invariant of its variable. -/
theorem range' {f : β → Nat → Traced σ E β} {J : Nat → β → Prop} {n i : Nat} (hb : J i b)
    (hstep : ∀ j < i + n, ∀ b, J j b → ∃ b', (f b j).Reads s b' ∧ J (j + 1) b') :
    ∃ b', ((List.range' i n).foldlM f b).Reads s b' ∧ J (i + n) b' := by
  induction n generalizing i b with
  | zero => exact ⟨b, pure b s, hb⟩
  | succ n ih =>
    obtain ⟨b', hread, hb'⟩ := hstep i (by omega) b hb
    rw [show i + (n + 1) = i + 1 + n by omega] at hstep ⊢
    obtain ⟨r, hrest, hr⟩ := ih hb' hstep
    rw [List.range'_succ, List.foldlM_cons]
    exact ⟨r, hread.bind hrest, hr⟩

theorem range {f : β → Nat → Traced σ E β} {J : Nat → β → Prop} {n : Nat} (hb : J 0 b)
    (hstep : ∀ i < n, ∀ b, J i b → ∃ b', (f b i).Reads s b' ∧ J (i + 1) b') :
    ∃ b', ((List.range n).foldlM f b).Reads s b' ∧ J n b' := by
  have h := range' (i := 0) (n := n) hb (by simpa using hstep)
  rwa [← List.range_eq_range', Nat.zero_add] at h

end Reads

namespace Writes

variable {a : α} {t : σ}

theorem write (g : σ → σ) (s : σ) : (Traced.write g : Traced σ E PUnit).Writes s ⟨⟩ (g s) := rfl

theorem passes (h : x.Writes s a t) (hP : P t) : x.Passes s P := by
  rw [Passes, h]
  exact ⟨t, List.mem_singleton_self t, hP⟩

theorem toEnds (h : x.Writes s a t) (hI : I t) (hQ : Q a t) : x.Ends s I Q :=
  ⟨[t], a, t, h, fun _ hr => List.mem_singleton.mp hr ▸ hI, hQ⟩

theorem ends (h : x.Writes s a t) (hI : I t) (hf : (f a).Ends t I R) : (x >>= f).Ends s I R := by
  apply (h.toEnds (Q := fun b r => b = a ∧ r = t) hI ⟨rfl, rfl⟩).bind
  rintro _ _ ⟨rfl, rfl⟩
  exact hf

end Writes

end Traced

end LearnedIndex
