import LearnedIndex.Util

/-! What the hybrid index calls in its two parts. -/

universe u v w x

namespace LearnedIndex.Hybrid

/-- The part of the `DynamicPGM` wrapper that the hybrid index calls. -/
structure PgmOps (K : Type u) (P : Type v) where
  empty : P
  insert : P → KeyValue K → P
  equalityLookup : P → K → UInt64
  rangeQuery : P → K → K → UInt64

/-- How a call into LIPP ends: it returns, a failing `RT_ASSERT` exits the process, or
the call never comes back. -/
inductive Outcome (E : Type x) (L : Type w)
  | returns (lipp : L)
  | exits (assertion : E)
  | diverges

/-- The part of the `Lipp` wrapper that the hybrid index calls. -/
structure LippOps (K : Type u) (L : Type w) (E : Type x) where
  empty : L
  build : L → List (KeyValue K) → Outcome E L
  insert : L → KeyValue K → Outcome E L
  equalityLookup : L → K → UInt64

namespace Outcome

variable {E : Type x} {α β : Type w}

def bind : Outcome E α → (α → Outcome E β) → Outcome E β
  | returns a, f => f a
  | exits e, _ => exits e
  | diverges, _ => diverges

instance : Monad (Outcome E) where
  pure := returns
  bind := bind

/-- Passes only if the assertion holds. -/
def require (e : E) (p : Prop) [Decidable p] : Outcome E PUnit :=
  if p then returns ⟨⟩ else exits e

def ofOption (e : E) : Option α → Outcome E α
  | none => exits e
  | some a => returns a

@[simp] theorem pure_eq (a : α) : (pure a : Outcome E α) = returns a := rfl

@[simp] theorem returns_bind (a : α) (f : α → Outcome E β) : returns a >>= f = f a := rfl

@[simp] theorem exits_bind (e : E) (f : α → Outcome E β) : (exits e : Outcome E α) >>= f = exits e := rfl

@[simp] theorem diverges_bind (f : α → Outcome E β) : (diverges : Outcome E α) >>= f = diverges := rfl

instance : LawfulMonad (Outcome E) :=
  LawfulMonad.mk' _ (fun o => by cases o <;> rfl) (fun _ _ => rfl) (fun o _ _ => by cases o <;> rfl)

end Outcome

end LearnedIndex.Hybrid
