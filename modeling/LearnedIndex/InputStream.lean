import LearnedIndex.Binary

/-! Input streams that are read into memory without a look at their state, and the rules by which
such a program follows a reader that notices a stream that ends too early. -/

namespace LearnedIndex.Binary

structure InputStream where
  ahead : Bytes
  failed : Bool
  /-- What the memory holds that nothing has written yet. -/
  memory : Nat → UInt8

abbrev Load (α : Type) := StateM InputStream α

/-- The next `n` bytes of memory. -/
def uninit (n : Nat) : Load Bytes := fun s =>
  ((List.range n).map s.memory, { s with memory := fun i => s.memory (n + i) })

/-- `in.read` over bytes of memory: a failed stream writes none of them, and one that ends too early
writes what it has and fails. -/
def readInto (old : Bytes) : Load Bytes := fun s =>
  if s.failed then (old, s)
  else if old.length ≤ s.ahead.length then
    (s.ahead.take old.length, { s with ahead := s.ahead.drop old.length })
  else (s.ahead ++ old.drop s.ahead.length, { s with ahead := [], failed := true })

def loadOne {α : Type} (l : Layout α) (old : Bytes) : Load α := l.ofBytes <$> readInto old

def loadMany {α : Type} (x : Load α) : Nat → Load (List α)
  | 0 => pure []
  | n + 1 => do
    let a ← x
    let as ← loadMany x n
    return a :: as

variable {α β γ δ : Type}

/-- On a stream with enough bytes the program gets what the reader gets, and on any other one it gets
a value that takes more bytes than there are. -/
structure Follows (x : Load α) (r : Reader β) (view : α → β) (out : α → Bytes) : Prop where
  reads : ∀ (s : InputStream) b rest, s.failed = false → r s.ahead = some (b, rest) →
    ∃ a s', x s = (a, s') ∧ view a = b ∧ s'.ahead = rest ∧ s'.failed = false ∧
      s.ahead = out a ++ rest
  short : ∀ s : InputStream, s.failed = false → r s.ahead = none →
    s.ahead.length < (out (x s).1).length

@[simp] theorem uninit_length (n : Nat) (s : InputStream) : (uninit n s).1.length = n := by
  simp [uninit]

@[simp] theorem readInto_length (old : Bytes) (s : InputStream) :
    (readInto old s).1.length = old.length := by
  unfold readInto
  split
  · rfl
  · split
    · exact List.length_take_of_le ‹_›
    · rw [List.length_append, List.length_drop]
      omega

@[simp] theorem loadMany_length {x : Load α} (n : Nat) (s : InputStream) :
    (loadMany x n s).1.length = n := by
  induction n generalizing s with
  | zero => rfl
  | succ n ih => exact congrArg (· + 1) (ih (x s).2)

section Follows

variable {x : Load α} {r : Reader β} {view : α → β} {out : α → Bytes}

theorem Follows.pure {b : β} {a : α} (hview : view a = b) (hout : out a = []) :
    Follows (Pure.pure a) (Pure.pure b) view out where
  reads s b' rest hs h := by
    cases h
    exact ⟨a, s, rfl, hview, rfl, hs, by rw [hout, List.nil_append]⟩
  short s hs h := by cases h

theorem follows_readInto {old : Bytes} {n : Nat} (h : old.length = n) :
    Follows (readInto old) (read n) id id where
  reads s b rest hs hr := by
    unfold read at hr
    split at hr
    case isTrue hle =>
      cases hr
      refine ⟨s.ahead.take n, { s with ahead := s.ahead.drop n }, ?_, rfl, rfl, hs,
        (List.take_append_drop n s.ahead).symm⟩
      rw [readInto, hs, if_neg Bool.false_ne_true, h, if_pos hle]
    case isFalse => cases hr
  short s hs hr := by
    rw [id, readInto_length, h]
    unfold read at hr
    split at hr
    case isTrue => cases hr
    case isFalse hlt => exact Nat.lt_of_not_le hlt

/-- What memory held before is no matter. -/
theorem Follows.uninit {n : Nat} {f : Bytes → Load α}
    (h : ∀ old : Bytes, old.length = n → Follows (f old) r view out) :
    Follows (Binary.uninit n >>= f) r view out where
  reads s b rest hs hr := (h _ (uninit_length n s)).reads (Binary.uninit n s).2 b rest hs hr
  short s hs hr := (h _ (uninit_length n s)).short (Binary.uninit n s).2 hs hr

/-- The bytes of the results are those of both parts. -/
theorem Follows.bind {f : α → Load γ} {f' : β → Reader δ} {view' : γ → δ} {out' : γ → Bytes}
    (hx : Follows x r view out) (rest : α → γ → Bytes)
    (hf : ∀ s, Follows (f (x s).1) (f' (view (x s).1)) view' (rest (x s).1))
    (hout : ∀ s, out' (f (x s).1 (x s).2).1 = out (x s).1 ++ rest (x s).1 (f (x s).1 (x s).2).1) :
    Follows (x >>= f) (r >>= f') view' out' where
  reads s d tail hs h := by
    obtain ⟨⟨b, middle⟩, hr, hd⟩ := Option.bind_eq_some_iff.mp (show (r s.ahead).bind _ = _ from h)
    obtain ⟨a, s', ha, rfl, rfl, hs', hahead⟩ := hx.reads s b middle hs hr
    have hfa := hf s
    rw [ha] at hfa
    obtain ⟨c, s'', hc, hview, hrest, hs'', hmiddle⟩ := hfa.reads s' d tail hs' hd
    refine ⟨c, s'', ?_, hview, hrest, hs'', ?_⟩
    · change f (x s).1 (x s).2 = (c, s'')
      rw [ha]
      exact hc
    · have hsum := hout s
      rw [ha, hc] at hsum
      rw [hahead, hmiddle, ← List.append_assoc]
      exact congrArg (· ++ tail) hsum.symm
  short s hs h := by
    change s.ahead.length < (out' (f (x s).1 (x s).2).1).length
    rw [hout, List.length_append]
    cases hr : r s.ahead with
    | none => exact Nat.lt_add_right _ (hx.short s hs hr)
    | some p =>
      obtain ⟨b, middle⟩ := p
      obtain ⟨a, s', ha, rfl, rfl, hs', hahead⟩ := hx.reads s b middle hs hr
      have hd : (r s.ahead).bind (fun p => f' p.1 p.2) = none := h
      rw [hr, Option.bind_some] at hd
      have hfa := hf s
      rw [ha] at hfa ⊢
      rw [hahead, List.length_append]
      exact Nat.add_lt_add_left (hfa.short s' hs' hd) _

/-- The program alone goes on. -/
theorem Follows.map {view' : γ → β} {out' : γ → Bytes} (g : α → γ) (hx : Follows x r view out)
    (hview : ∀ a, view' (g a) = view a) (hout : ∀ s, out' (g (x s).1) = out (x s).1) :
    Follows (g <$> x) r view' out' where
  reads s b rest hs h := by
    obtain ⟨a, s', ha, hb, hrest, hs', hahead⟩ := hx.reads s b rest hs h
    refine ⟨g a, s', ?_, (hview a).trans hb, hrest, hs', ?_⟩
    · change (g (x s).1, (x s).2) = (g a, s')
      rw [ha]
    · have hbytes := hout s
      rw [ha] at hbytes
      rw [hahead, hbytes]
  short s hs h := by
    change s.ahead.length < (out' (g (x s).1)).length
    rw [hout]
    exact hx.short s hs h

/-- The reader alone goes on. -/
theorem Follows.comp (g : β → δ) (hx : Follows x r view out) : Follows x (g <$> r) (g ∘ view) out where
  reads s d rest hs h := by
    obtain ⟨⟨b, middle⟩, hr, hd⟩ := Option.bind_eq_some_iff.mp (show (r s.ahead).bind _ = _ from h)
    cases hd
    obtain ⟨a, s', ha, hview, hstate⟩ := hx.reads s b rest hs hr
    exact ⟨a, s', ha, congrArg g hview, hstate⟩
  short s hs h := by
    have hmap : (r s.ahead).bind (fun p => some (g p.1, p.2)) = none := h
    apply hx.short s hs
    cases hr : r s.ahead with
    | none => rfl
    | some p =>
      rw [hr] at hmap
      cases hmap

theorem Follows.loadMany (hx : Follows x r view out) (n : Nat) :
    Follows (loadMany x n) (readMany r n) (List.map view) (List.flatMap out) := by
  induction n with
  | zero => exact .pure rfl rfl
  | succ n ih =>
    apply hx.bind fun _ as => as.tail.flatMap out
    · exact fun s => (ih.comp fun bs => view (x s).1 :: bs).map (fun as => (x s).1 :: as) (fun _ => rfl)
        fun _ => rfl
    · exact fun s => rfl

theorem follows_loadOne {l : Layout α} (hl : l.Lossless) {old : Bytes} (h : old.length = l.size) :
    Follows (loadOne l old) (readOne l) id l.toBytes := by
  apply ((follows_readInto h).comp l.ofBytes).map l.ofBytes
  · exact fun _ => rfl
  · exact fun s => hl _ ((readInto_length old s).trans h)

/-- An array that is read at once. -/
theorem follows_loadArray {l : Layout α} (hl : l.Lossless) {old : Bytes} {n : Nat}
    (h : old.length = n * l.size) :
    Follows (l.elements n <$> readInto old) (l.elements n <$> read (n * l.size)) id
      (List.flatMap l.toBytes) := by
  apply ((follows_readInto h).comp (l.elements n)).map (l.elements n)
  · exact fun _ => rfl
  · exact fun s => hl.flatMap_elements ((readInto_length old s).trans h)

end Follows

section Skips

/-- What is behind the next `n` bytes. -/
def skip (n : Nat) (bs : Bytes) : Option Bytes := if n ≤ bs.length then some (bs.drop n) else none

def skipMany (k : Bytes → Option Bytes) : Nat → Bytes → Option Bytes
  | 0, bs => some bs
  | n + 1, bs => (k bs).bind (skipMany k n)

/-- What the reader leaves of a stream. -/
def Skips (r : Reader α) (k : Bytes → Option Bytes) : Prop := ∀ bs, (r bs).map Prod.snd = k bs

variable {r : Reader α} {k : Bytes → Option Bytes}

theorem skips_pure (a : α) : Skips (Pure.pure a) some := fun _ => rfl

theorem skips_read (n : Nat) : Skips (read n) (skip n) := by
  intro bs
  unfold read skip
  split <;> rfl

theorem Skips.bind {f : α → Reader β} {k' : Bytes → Option Bytes} (h : Skips r k)
    (h' : ∀ a, Skips (f a) k') : Skips (r >>= f) (k >=> k') := by
  intro bs
  change ((r bs).bind fun p => f p.1 p.2).map Prod.snd = (k bs).bind k'
  rw [← h bs]
  cases r bs with
  | none => rfl
  | some p => exact h' p.1 p.2

theorem Skips.map (f : α → β) (h : Skips r k) : Skips (f <$> r) k := by
  intro bs
  change ((r bs).bind fun p => some (f p.1, p.2)).map Prod.snd = k bs
  rw [← h bs]
  cases r bs with
  | none => rfl
  | some p => rfl

theorem skips_readMany (h : Skips r k) (n : Nat) : Skips (readMany r n) (skipMany k n) := by
  induction n with
  | zero => exact skips_pure []
  | succ n ih => exact h.bind fun x => ih.map fun xs => x :: xs

end Skips

end LearnedIndex.Binary
