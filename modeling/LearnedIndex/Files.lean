import LearnedIndex.Binary
import LearnedIndex.Util

/-! The binary files of keys, pairs and operations.  `none` stands for a stream that ends too
early or a vector that cannot be allocated. -/

namespace LearnedIndex.Files

open Binary

inductive DataType
  | uint32
  | uint64
  | string
  deriving DecidableEq, Repr

/-- The keys of a data type; a `std::string` may hold any bytes. -/
abbrev DataType.Key : DataType → Type
  | .uint32 => UInt32
  | .uint64 => UInt64
  | .string => Bytes

/-- An operation as it is stored, with any byte for its kind. -/
structure Operation (K : Type) where
  op : UInt8
  loKey : K
  hiKey : K
  result : UInt64
  deriving DecidableEq, Repr

/-- What a file holds. -/
inductive Record
  | key
  | keyValue
  | operation
  deriving DecidableEq, Repr

namespace Record

abbrev Of : Record → Type → Type
  | key, K => K
  | keyValue, K => KeyValue K
  | operation, K => Operation K

def keysOf {K : Type} : (r : Record) → r.Of K → List K
  | key, k => [k]
  | keyValue, kv => [kv.key]
  | operation, op => [op.loKey, op.hiKey]

/-- The packed structs over keys that have a layout. -/
def layout {K : Type} (l : Layout K) : (r : Record) → Layout (r.Of K)
  | key => l
  | keyValue => (l.prod .uint64).map (fun p => ⟨p.1, p.2⟩) (fun kv => (kv.key, kv.value)) fun _ => rfl
  | operation =>
    (Layout.uint8.prod (l.prod (l.prod .uint64))).map (fun p => ⟨p.1, p.2.1, p.2.2.1, p.2.2.2⟩)
      (fun op => (op.op, op.loKey, op.hiKey, op.result)) fun _ => rfl

end Record

def DataType.sizeof : DataType → Nat
  | .uint32 => 4
  | .uint64 => 8
  | .string => 32

def Record.sizeof : Record → Nat → Nat
  | .key, n => n
  | .keyValue, n => n + 8
  | .operation, n => 1 + (n + (n + 8))

/-- `std::vector::max_size` for elements of this size. -/
def maxSize (sizeof : Nat) : Nat := (2 ^ 63 - 1) / sizeof

section Out

def outString (s : Bytes) : Bytes :=
  let len := UInt32.ofNat s.length
  Layout.uint32.toBytes len ++ s.take len.toNat

/-- The four branches of `out_data`. -/
def outElems : (r : Record) → (t : DataType) → List (r.Of t.Key) → Bytes
  | .key, .string, data => data.flatMap outString
  | .operation, .string, data => data.flatMap fun op =>
    Layout.uint8.toBytes op.op ++ (Layout.uint64.toBytes op.result ++
      (outString op.loKey ++ outString op.hiKey))
  | .keyValue, .string, data => data.flatMap fun kv =>
    Layout.uint64.toBytes kv.value ++ outString kv.key
  | r, .uint32, data => data.flatMap (r.layout .uint32).toBytes
  | r, .uint64, data => data.flatMap (r.layout .uint64).toBytes

def outData (r : Record) (t : DataType) (data : List (r.Of t.Key)) : Bytes :=
  Layout.uint64.toBytes (Util.size data) ++ outElems r t data

/-- `write_data_multithread`: the thread count, then the vectors of all threads. -/
def writeDataMultithread (r : Record) (t : DataType) (data : List (List (r.Of t.Key))) : Bytes :=
  Layout.uint64.toBytes (Util.size data) ++ data.flatMap (outData r t)

end Out

section In

def inString : Reader Bytes := do
  let len ← readOne .uint32
  read len.toNat

/-- The branch for plain data reads the whole array at once. -/
def inPlain {α : Type} (l : Layout α) (sizeof size : Nat) : Reader (List α) :=
  l.elements size <$> read (size * sizeof)

/-- The four branches of `in_data`. -/
def inElems : (r : Record) → (t : DataType) → Nat → Reader (List (r.Of t.Key))
  | .key, .string, size => readMany inString size
  | .operation, .string, size => readMany (do
      let op ← readOne .uint8
      let result ← readOne .uint64
      let loKey ← inString
      let hiKey ← inString
      return ⟨op, loKey, hiKey, result⟩) size
  | .keyValue, .string, size => readMany (do
      let value ← readOne .uint64
      let key ← inString
      return ⟨key, value⟩) size
  | r, .uint32, size => inPlain (r.layout .uint32) (r.sizeof 4) size
  | r, .uint64, size => inPlain (r.layout .uint64) (r.sizeof 8) size

def inData (r : Record) (t : DataType) : Reader (List (r.Of t.Key)) := do
  let size ← readOne .uint64
  if size.toNat ≤ maxSize (r.sizeof t.sizeof) then inElems r t size.toNat else failure

/-- `sizeof(std::vector<T>)`. -/
def vectorSize : Nat := 24

def inThreads (r : Record) (t : DataType) : Reader (List (List (r.Of t.Key))) := do
  let len ← readOne .uint64
  if len.toNat ≤ maxSize vectorSize then readMany (inData r t) len.toNat else failure

def loadDataMultithread (r : Record) (t : DataType) (file : Bytes) :
    Option (List (List (r.Of t.Key))) :=
  (inThreads r t file).map Prod.fst

end In

/-- The structs are packed: their layouts leave no room between the fields. -/
theorem layout_size {K : Type} (l : Layout K) (r : Record) : (r.layout l).size = r.sizeof l.size := by
  cases r with
  | key => rfl
  | keyValue => rfl
  | operation => rfl

/-- Only the length of a string can be too large for a file. -/
def DataType.Fits : (t : DataType) → t.Key → Prop
  | .uint32, _ => True
  | .uint64, _ => True
  | .string, s => s.length < 2 ^ 32

/-- A vector whose strings are shorter than 2^32 bytes. -/
structure Storable (r : Record) (t : DataType) (data : List (r.Of t.Key)) : Prop where
  length_le : data.length ≤ maxSize (r.sizeof t.sizeof)
  fits : ∀ x ∈ data, ∀ k ∈ r.keysOf x, t.Fits k

theorem maxSize_lt (sizeof : Nat) : maxSize sizeof < 2 ^ 64 :=
  (Nat.div_le_self _ _).trans_lt (by decide)

/-- A size that a vector can have survives its way through the file. -/
theorem toNat_size {α : Type} {data : List α} {sizeof : Nat} (h : data.length ≤ maxSize sizeof) :
    (Util.size data).toNat = data.length := by
  rw [Util.size, UInt64.toNat_ofNat', Nat.mod_eq_of_lt (h.trans_lt (maxSize_lt sizeof))]

theorem reads_inString {s : Bytes} (h : s.length < 2 ^ 32) : Reads inString (outString s) s := by
  have hlen : (UInt32.ofNat s.length).toNat = s.length := by
    rw [UInt32.toNat_ofNat', Nat.mod_eq_of_lt h]
  apply (reads_readOne .uint32 (UInt32.ofNat s.length)).bind
  rw [hlen, List.take_length]
  exact reads_read s

theorem reads_inPlain {K : Type} (l : Layout K) (r : Record) (data : List (r.Of K)) :
    Reads (inPlain (r.layout l) (r.sizeof l.size) data.length)
      (data.flatMap (r.layout l).toBytes) data := by
  have h := (reads_read (data.flatMap (r.layout l).toBytes)).map ((r.layout l).elements data.length)
  rw [Layout.length_flatMap_toBytes, Layout.elements_flatMap, layout_size] at h
  exact h

theorem reads_inElems {r : Record} {t : DataType} {data : List (r.Of t.Key)}
    (h : ∀ x ∈ data, ∀ k ∈ r.keysOf x, t.Fits k) :
    Reads (inElems r t data.length) (outElems r t data) data := by
  cases t with
  | uint32 => cases r <;> exact reads_inPlain .uint32 _ data
  | uint64 => cases r <;> exact reads_inPlain .uint64 _ data
  | string =>
    cases r with
    | key => exact reads_readMany fun s hs => reads_inString (h s hs s List.mem_cons_self)
    | keyValue =>
      apply reads_readMany
      intro kv hkv
      apply (reads_readOne .uint64 kv.value).bind
      rw [← List.append_nil (outString kv.key)]
      apply (reads_inString (h kv hkv kv.key List.mem_cons_self)).bind
      exact .pure kv
    | operation =>
      apply reads_readMany
      intro op hop
      have hlo : op.loKey.length < 2 ^ 32 := h op hop op.loKey (by simp [Record.keysOf])
      have hhi : op.hiKey.length < 2 ^ 32 := h op hop op.hiKey (by simp [Record.keysOf])
      apply (reads_readOne .uint8 op.op).bind
      apply (reads_readOne .uint64 op.result).bind
      apply (reads_inString hlo).bind
      rw [← List.append_nil (outString op.hiKey)]
      apply (reads_inString hhi).bind
      exact .pure op

theorem reads_inData {r : Record} {t : DataType} {data : List (r.Of t.Key)} (h : Storable r t data) :
    Reads (inData r t) (outData r t data) data := by
  have hsize := toNat_size h.length_le
  apply (reads_readOne .uint64 (Util.size data)).bind
  rw [hsize, if_pos h.length_le]
  exact reads_inElems h.fits

theorem reads_inThreads {r : Record} {t : DataType} {threads : List (List (r.Of t.Key))}
    (hlen : threads.length ≤ maxSize vectorSize) (h : ∀ data ∈ threads, Storable r t data) :
    Reads (inThreads r t) (writeDataMultithread r t threads) threads := by
  apply (reads_readOne .uint64 (Util.size threads)).bind
  rw [toNat_size hlen, if_pos hlen]
  exact reads_readMany fun data hdata => reads_inData (h data hdata)

/-- What `out_data` wrote is read back, whatever follows it, and so are the vectors of all
threads. -/
theorem inData_undoes_outData (r : Record) (t : DataType) :
    (∀ data, Storable r t data → ∀ rest, inData r t (outData r t data ++ rest) = some (data, rest)) ∧
      ∀ threads, threads.length ≤ maxSize vectorSize → (∀ data ∈ threads, Storable r t data) →
        loadDataMultithread r t (writeDataMultithread r t threads) = some threads := by
  constructor
  · exact fun data h => reads_inData h
  · intro threads hlen hdata
    have hfile := reads_inThreads hlen hdata []
    rw [List.append_nil] at hfile
    rw [loadDataMultithread, hfile, Option.map_some]

theorem inData_undoes_outData_operations :
    (inData .operation .string (outData .operation .string [⟨2, [0, 255], [], 7⟩] ++ [1, 2]) =
        some ([⟨2, [0, 255], [], 7⟩], [1, 2])) ∧
      loadDataMultithread .key .uint32 (writeDataMultithread .key .uint32 [[1, 2], []]) =
        some [[1, 2], []] := by
  constructor
  · apply (inData_undoes_outData .operation .string).1
    exact ⟨by decide, by simp [Record.keysOf, DataType.Fits]⟩
  · apply (inData_undoes_outData .key .uint32).2
    · decide
    · intro data hdata
      refine ⟨?_, fun _ _ _ _ => trivial⟩
      revert data
      decide

end LearnedIndex.Files
