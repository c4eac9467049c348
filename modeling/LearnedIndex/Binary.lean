import Mathlib.Data.List.Basic
import Mathlib.Data.UInt

/-! Binary streams: readers that take a value off the front, fixed-size layouts of values in
memory, and the rules by which a reader undoes a writer. -/

universe u v

namespace LearnedIndex.Binary

abbrev Bytes := List UInt8

variable {α : Type u} {β : Type v}

section LittleEndian

/-- The low `w` bytes of a number. -/
def littleEndian : Nat → Nat → Bytes
  | 0, _ => []
  | w + 1, n => UInt8.ofNat n :: littleEndian w (n / 256)

def ofLittleEndian : Bytes → Nat
  | [] => 0
  | b :: bs => b.toNat + 256 * ofLittleEndian bs

@[simp] theorem littleEndian_length (w n : Nat) : (littleEndian w n).length = w := by
  induction w generalizing n with
  | zero => rfl
  | succ w ih => rw [littleEndian, List.length_cons, ih]

theorem ofLittleEndian_littleEndian (w n : Nat) :
    ofLittleEndian (littleEndian w n) = n % 256 ^ w := by
  induction w generalizing n with
  | zero => rw [littleEndian, ofLittleEndian, Nat.pow_zero, Nat.mod_one]
  | succ w ih =>
    rw [littleEndian, ofLittleEndian, ih, Nat.pow_succ', Nat.mod_mul, UInt8.toNat_ofNat']

theorem ofLittleEndian_littleEndian_of_lt {w n : Nat} (h : n < 256 ^ w) :
    ofLittleEndian (littleEndian w n) = n := by
  rw [ofLittleEndian_littleEndian, Nat.mod_eq_of_lt h]

theorem littleEndian_ofLittleEndian {w : Nat} {bs : Bytes} (h : bs.length = w) :
    littleEndian w (ofLittleEndian bs) = bs := by
  subst h
  induction bs with
  | nil => rfl
  | cons b bs ih =>
    have hmod : UInt8.ofNat (b.toNat + 256 * ofLittleEndian bs) = b := by
      apply UInt8.toNat_inj.mp
      rw [UInt8.toNat_ofNat', Nat.add_mul_mod_self_left, Nat.mod_eq_of_lt b.toNat_lt]
    have hdiv : (b.toNat + 256 * ofLittleEndian bs) / 256 = ofLittleEndian bs := by
      rw [Nat.add_mul_div_left _ _ (by decide), Nat.div_eq_of_lt b.toNat_lt, Nat.zero_add]
    rw [List.length_cons, ofLittleEndian, littleEndian, hmod, hdiv, ih]

theorem ofLittleEndian_lt {w : Nat} {bs : Bytes} (h : bs.length = w) : ofLittleEndian bs < 256 ^ w := by
  subst h
  induction bs with
  | nil => exact Nat.one_pos
  | cons b bs ih =>
    have hb : b.toNat < 256 := b.toNat_lt
    rw [ofLittleEndian, List.length_cons, Nat.pow_succ]
    omega

/-- An integer that has the bytes modulo its range gives them back. -/
theorem littleEndian_of_mod {w n : Nat} {bs : Bytes} (h : bs.length = w) (hn : n = ofLittleEndian bs % 256 ^ w) :
    littleEndian w n = bs := by
  rw [hn, Nat.mod_eq_of_lt (ofLittleEndian_lt h)]
  exact littleEndian_ofLittleEndian h

theorem ofLittleEndian_append_zeros (bs : Bytes) (n : Nat) :
    ofLittleEndian (bs ++ List.replicate n 0) = ofLittleEndian bs := by
  induction bs with
  | nil =>
    induction n with
    | zero => rfl
    | succ n ih =>
      rw [List.nil_append] at ih ⊢
      rw [List.replicate_succ, ofLittleEndian.eq_2, ih]
      rfl
  | cons b bs ih => rw [List.cons_append, ofLittleEndian, ih, ofLittleEndian]

end LittleEndian

/-- How a type of fixed size lies in memory. -/
structure Layout (α : Type u) where
  size : Nat
  toBytes : α → Bytes
  ofBytes : Bytes → α
  length_toBytes : ∀ a, (toBytes a).length = size
  ofBytes_toBytes : ∀ a, ofBytes (toBytes a) = a

namespace Layout

def uint8 : Layout UInt8 where
  size := 1
  toBytes a := littleEndian 1 a.toNat
  ofBytes bs := UInt8.ofNat (ofLittleEndian bs)
  length_toBytes a := littleEndian_length 1 a.toNat
  ofBytes_toBytes a := by
    rw [ofLittleEndian_littleEndian_of_lt a.toNat_lt, UInt8.ofNat_toNat]

def uint32 : Layout UInt32 where
  size := 4
  toBytes a := littleEndian 4 a.toNat
  ofBytes bs := UInt32.ofNat (ofLittleEndian bs)
  length_toBytes a := littleEndian_length 4 a.toNat
  ofBytes_toBytes a := by
    rw [ofLittleEndian_littleEndian_of_lt a.toNat_lt, UInt32.ofNat_toNat]

def uint64 : Layout UInt64 where
  size := 8
  toBytes a := littleEndian 8 a.toNat
  ofBytes bs := UInt64.ofNat (ofLittleEndian bs)
  length_toBytes a := littleEndian_length 8 a.toNat
  ofBytes_toBytes a := by
    rw [ofLittleEndian_littleEndian_of_lt a.toNat_lt, UInt64.ofNat_toNat]

variable (l : Layout α) (r : Layout β)

/-- Two fields without padding between them. -/
def prod : Layout (α × β) where
  size := l.size + r.size
  toBytes p := l.toBytes p.1 ++ r.toBytes p.2
  ofBytes bs := (l.ofBytes (bs.take l.size), r.ofBytes (bs.drop l.size))
  length_toBytes p := by rw [List.length_append, l.length_toBytes, r.length_toBytes]
  ofBytes_toBytes p := by
    rw [List.take_left' (l.length_toBytes p.1), List.drop_left' (l.length_toBytes p.1),
      l.ofBytes_toBytes, r.ofBytes_toBytes]

/-- The same bytes, seen as another type. -/
def map (f : α → β) (g : β → α) (h : ∀ b, f (g b) = b) : Layout β where
  size := l.size
  toBytes b := l.toBytes (g b)
  ofBytes bs := f (l.ofBytes bs)
  length_toBytes b := l.length_toBytes (g b)
  ofBytes_toBytes b := by rw [l.ofBytes_toBytes, h]

/-- An array of `n` elements, back to back. -/
def elements : Nat → Bytes → List α
  | 0, _ => []
  | n + 1, bs => l.ofBytes (bs.take l.size) :: elements n (bs.drop l.size)

theorem length_flatMap_toBytes (xs : List α) :
    (xs.flatMap l.toBytes).length = xs.length * l.size := by
  induction xs with
  | nil => rw [List.flatMap_nil, List.length_nil, List.length_nil, Nat.zero_mul]
  | cons x xs ih =>
    rw [List.flatMap_cons, List.length_append, l.length_toBytes, ih, List.length_cons,
      Nat.succ_mul, Nat.add_comm]

theorem elements_flatMap (xs : List α) : l.elements xs.length (xs.flatMap l.toBytes) = xs := by
  induction xs with
  | nil => rfl
  | cons x xs ih =>
    rw [List.length_cons, elements, List.flatMap_cons, List.take_left' (l.length_toBytes x),
      List.drop_left' (l.length_toBytes x), l.ofBytes_toBytes, ih]

@[simp] theorem length_elements (n : Nat) (bs : Bytes) : (l.elements n bs).length = n := by
  induction n generalizing bs with
  | zero => rfl
  | succ n ih => rw [elements, List.length_cons, ih]

/-- Every memory of this size is that of a value. -/
def Lossless : Prop := ∀ bs : Bytes, bs.length = l.size → l.toBytes (l.ofBytes bs) = bs

theorem lossless_uint8 : uint8.Lossless := fun _ hlen => littleEndian_of_mod hlen UInt8.toNat_ofNat'

theorem lossless_uint32 : uint32.Lossless := fun _ hlen => littleEndian_of_mod hlen UInt32.toNat_ofNat'

theorem lossless_uint64 : uint64.Lossless := fun _ hlen => littleEndian_of_mod hlen UInt64.toNat_ofNat'

variable {l r}

theorem Lossless.prod (hl : l.Lossless) (hr : r.Lossless) : (l.prod r).Lossless := by
  intro bs hlen
  have hsize : bs.length = l.size + r.size := hlen
  change l.toBytes (l.ofBytes (bs.take l.size)) ++ r.toBytes (r.ofBytes (bs.drop l.size)) = bs
  rw [hl _ (by rw [List.length_take]; omega), hr _ (by rw [List.length_drop]; omega),
    List.take_append_drop]

theorem Lossless.map {f : α → β} {g : β → α} {h : ∀ b, f (g b) = b} (hl : l.Lossless)
    (hg : ∀ a, g (f a) = a) : (l.map f g h).Lossless := by
  intro bs hlen
  change l.toBytes (g (f (l.ofBytes bs))) = bs
  rw [hg]
  exact hl bs hlen

theorem Lossless.flatMap_elements (hl : l.Lossless) {n : Nat} {bs : Bytes}
    (hlen : bs.length = n * l.size) : (l.elements n bs).flatMap l.toBytes = bs := by
  induction n generalizing bs with
  | zero =>
    rw [Nat.zero_mul] at hlen
    rw [List.eq_nil_of_length_eq_zero hlen]
    rfl
  | succ n ih =>
    rw [Nat.succ_mul] at hlen
    rw [elements, List.flatMap_cons, hl _ (by rw [List.length_take]; omega),
      ih (by rw [List.length_drop]; omega), List.take_append_drop]

end Layout

/-- Takes a value off the front of a stream; `none` when the stream ends too early. -/
abbrev Reader (α : Type) := StateT Bytes Option α

/-- The next `n` bytes. -/
def read (n : Nat) : Reader Bytes := fun bs =>
  if n ≤ bs.length then some (bs.take n, bs.drop n) else none

def readOne {α : Type} (l : Layout α) : Reader α := l.ofBytes <$> read l.size

/-- One value after the other. -/
def readMany {α : Type} (r : Reader α) : Nat → Reader (List α)
  | 0 => pure []
  | n + 1 => do
    let x ← r
    let xs ← readMany r n
    return x :: xs

/-- In front of any further bytes the reader takes exactly these, and returns the value. -/
def Reads {α : Type} (r : Reader α) (bs : Bytes) (a : α) : Prop :=
  ∀ rest, r (bs ++ rest) = some (a, rest)

section Reads

variable {α β : Type} {r : Reader α} {bs bs' : Bytes} {a : α} {b : β}

theorem Reads.pure (a : α) : Reads (Pure.pure a) [] a := fun _ => rfl

theorem Reads.bind {f : α → Reader β} (h : Reads r bs a) (h' : Reads (f a) bs' b) :
    Reads (r >>= f) (bs ++ bs') b := by
  intro rest
  change (r (bs ++ bs' ++ rest)).bind (fun p => f p.1 p.2) = some (b, rest)
  rw [List.append_assoc, h (bs' ++ rest), Option.bind_some]
  exact h' rest

theorem Reads.map (f : α → β) (h : Reads r bs a) : Reads (f <$> r) bs (f a) := by
  intro rest
  change (r (bs ++ rest)).bind (fun p => some (f p.1, p.2)) = some (f a, rest)
  rw [h rest, Option.bind_some]

theorem reads_read (bs : Bytes) : Reads (read bs.length) bs bs := by
  intro rest
  rw [read, if_pos (by rw [List.length_append]; exact Nat.le_add_right _ _), List.take_left,
    List.drop_left]

theorem reads_readOne (l : Layout α) (a : α) : Reads (readOne l) (l.toBytes a) a := by
  have h := (reads_read (l.toBytes a)).map l.ofBytes
  rw [l.length_toBytes, l.ofBytes_toBytes] at h
  exact h

theorem reads_readMany {toBytes : α → Bytes} {xs : List α} (h : ∀ x ∈ xs, Reads r (toBytes x) x) :
    Reads (readMany r xs.length) (xs.flatMap toBytes) xs := by
  induction xs with
  | nil => exact .pure []
  | cons x xs ih =>
    have hx : Reads r (toBytes x) x := h x List.mem_cons_self
    have hxs : Reads (readMany r xs.length) (xs.flatMap toBytes) xs :=
      ih fun y hy => h y (List.mem_cons_of_mem x hy)
    exact hx.bind (hxs.map fun xs => x :: xs)

end Reads

end LearnedIndex.Binary
