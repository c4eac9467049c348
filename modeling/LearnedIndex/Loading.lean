import LearnedIndex.Files
import LearnedIndex.InputStream

/-! `in_data` as it reads a stream whose state it never looks at. -/

namespace LearnedIndex.Files

open Binary

section Load

/-- Reads a length over `len`, and then as many bytes into an array of that length. -/
def loadString (len : Bytes) : Load (Bytes × Bytes) := do
  let len ← readInto len
  let str ← uninit (Layout.uint32.ofBytes len).toNat
  let str ← readInto str
  return (len, str)

/-- The branch for plain data reads over the elements of a new vector. -/
def loadPlain {α : Type} (l : Layout α) (sizeof size : Nat) : Load (List α) :=
  l.elements size <$> readInto (List.replicate (size * sizeof) 0)

/-- The four branches of `in_data`. -/
def loadElems : (r : Record) → (t : DataType) → Nat → Load (List (r.Of t.Key))
  | .key, .string, size => loadMany (do
      let len ← uninit 4
      let str ← loadString len
      return str.2) size
  | .operation, .string, size => loadMany (do
      let op ← loadOne .uint8 (Layout.uint8.toBytes 0)
      let result ← loadOne .uint64 (Layout.uint64.toBytes 0)
      let len ← uninit 4
      let lo ← loadString len
      let hi ← loadString lo.1
      return ⟨op, lo.2, hi.2, result⟩) size
  | .keyValue, .string, size => loadMany (do
      let value ← loadOne .uint64 (Layout.uint64.toBytes 0)
      let len ← uninit 4
      let str ← loadString len
      return ⟨str.2, value⟩) size
  | r, .uint32, size => loadPlain (r.layout .uint32) (r.sizeof 4) size
  | r, .uint64, size => loadPlain (r.layout .uint64) (r.sizeof 8) size

def loadSize : Load UInt64 := do
  let size ← uninit 8
  loadOne .uint64 size

/-- `in_data`; `none` when the vector cannot be allocated. -/
def loadData (r : Record) (t : DataType) (s : InputStream) :
    Option (List (r.Of t.Key) × InputStream) :=
  let (size, s) := loadSize s
  if size.toNat ≤ maxSize (r.sizeof t.sizeof) then some (loadElems r t size.toNat s) else none

end Load

section Complete

def skipString (bs : Bytes) : Option Bytes :=
  skip 4 bs >>= skip (Layout.uint32.ofBytes (bs.take 4)).toNat

/-- What is behind the records of a vector. -/
def skipElems : Record → DataType → Nat → Bytes → Option Bytes
  | .key, .string, size => skipMany skipString size
  | .operation, .string, size =>
    skipMany (skip 1 >=> skip 8 >=> skipString >=> skipString) size
  | .keyValue, .string, size => skipMany (skip 8 >=> skipString) size
  | r, .uint32, size => skip (size * r.sizeof 4)
  | r, .uint64, size => skip (size * r.sizeof 8)

/-- The file has a size, and all the records that a vector of this size needs. -/
def Complete (r : Record) (t : DataType) (file : Bytes) : Prop :=
  8 ≤ file.length ∧
    let size := (Layout.uint64.ofBytes (file.take 8)).toNat
    size ≤ maxSize (r.sizeof t.sizeof) → (skipElems r t size (file.drop 8)).isSome

instance (r : Record) (t : DataType) (file : Bytes) : Decidable (Complete r t file) :=
  inferInstanceAs (Decidable (_ ∧ _))

end Complete

@[simp] theorem loadString_length (len : Bytes) (s : InputStream) :
    (loadString len s).1.1.length = len.length := readInto_length len s

theorem loadString_length_str (len : Bytes) (s : InputStream) :
    (loadString len s).1.2.length = (Layout.uint32.ofBytes (loadString len s).1.1).toNat :=
  (readInto_length _ _).trans (uninit_length _ _)

theorem outString_eq {len str : Bytes} (hlen : len.length = 4)
    (hstr : str.length = (Layout.uint32.ofBytes len).toNat) : outString str = len ++ str := by
  have heq : UInt32.ofNat str.length = Layout.uint32.ofBytes len := by
    rw [hstr, UInt32.ofNat_toNat]
  dsimp only [outString]
  rw [heq, Layout.lossless_uint32 len hlen, ← hstr, List.take_length]

theorem follows_loadString {len : Bytes} (h : len.length = 4) :
    Follows (loadString len) inString Prod.snd fun p => outString p.2 := by
  apply ((follows_readInto h).comp Layout.uint32.ofBytes).bind fun _ p => p.2
  · intro s
    apply Follows.uninit
    intro old hold
    exact (follows_readInto hold).map (fun str => (_, str)) (fun _ => rfl) fun _ => rfl
  · intro s
    exact outString_eq ((loadString_length len s).trans h) (loadString_length_str len s)

theorem layout_lossless {K : Type} {l : Layout K} (h : l.Lossless) (r : Record) :
    (r.layout l).Lossless := by
  cases r with
  | key => exact h
  | keyValue => exact (h.prod Layout.lossless_uint64).map fun _ => rfl
  | operation =>
    exact (Layout.lossless_uint8.prod (h.prod (h.prod Layout.lossless_uint64))).map fun _ => rfl

theorem follows_loadPlain {K : Type} {l : Layout K} (h : l.Lossless) (r : Record) (size : Nat) :
    Follows (loadPlain (r.layout l) (r.sizeof l.size) size) (inPlain (r.layout l) (r.sizeof l.size) size)
      id (List.flatMap (r.layout l).toBytes) := by
  unfold loadPlain inPlain
  rw [← layout_size]
  exact follows_loadArray (layout_lossless h r) List.length_replicate

theorem follows_loadKeyValue : Follows (do
      let value ← loadOne .uint64 (Layout.uint64.toBytes 0)
      let len ← uninit 4
      let str ← loadString len
      return (⟨str.2, value⟩ : KeyValue Bytes)) (do
      let value ← readOne .uint64
      let key ← inString
      return ⟨key, value⟩) id fun kv => Layout.uint64.toBytes kv.value ++ outString kv.key := by
  apply (follows_loadOne Layout.lossless_uint64 rfl).bind fun _ kv => outString kv.key
  · intro s
    generalize loadOne .uint64 (Layout.uint64.toBytes 0) s = value
    apply Follows.uninit
    intro len hlen
    apply ((follows_loadString hlen).comp fun key => KeyValue.mk key value.1).map fun str =>
      KeyValue.mk str.2 value.1
    · exact fun _ => rfl
    · exact fun _ => rfl
  · exact fun s => rfl

theorem follows_loadOperation : Follows (do
      let op ← loadOne .uint8 (Layout.uint8.toBytes 0)
      let result ← loadOne .uint64 (Layout.uint64.toBytes 0)
      let len ← uninit 4
      let lo ← loadString len
      let hi ← loadString lo.1
      return (⟨op, lo.2, hi.2, result⟩ : Operation Bytes)) (do
      let op ← readOne .uint8
      let result ← readOne .uint64
      let loKey ← inString
      let hiKey ← inString
      return ⟨op, loKey, hiKey, result⟩) id fun op => Layout.uint8.toBytes op.op ++
        (Layout.uint64.toBytes op.result ++ (outString op.loKey ++ outString op.hiKey)) := by
  apply (follows_loadOne Layout.lossless_uint8 rfl).bind fun _ op =>
    Layout.uint64.toBytes op.result ++ (outString op.loKey ++ outString op.hiKey)
  · intro s
    generalize loadOne .uint8 (Layout.uint8.toBytes 0) s = op
    apply (follows_loadOne Layout.lossless_uint64 rfl).bind fun _ op =>
      outString op.loKey ++ outString op.hiKey
    · intro s
      generalize loadOne .uint64 (Layout.uint64.toBytes 0) s = result
      apply Follows.uninit
      intro len hlen
      apply (follows_loadString hlen).bind fun _ op => outString op.hiKey
      · intro s
        have hlen' : (loadString len s).1.1.length = 4 := (loadString_length len s).trans hlen
        generalize loadString len s = lo at hlen'
        apply ((follows_loadString hlen').comp fun hi => Operation.mk op.1 lo.1.2 hi result.1).map fun hi =>
          Operation.mk op.1 lo.1.2 hi.2 result.1
        · exact fun _ => rfl
        · exact fun _ => rfl
      · exact fun s => rfl
    · exact fun s => rfl
  · exact fun s => rfl

/-- Every branch of `in_data` follows the one that notices the end of the stream. -/
theorem follows_loadElems (r : Record) (t : DataType) (size : Nat) :
    Follows (loadElems r t size) (inElems r t size) id (outElems r t) := by
  cases t with
  | uint32 => cases r <;> exact follows_loadPlain Layout.lossless_uint32 _ size
  | uint64 => cases r <;> exact follows_loadPlain Layout.lossless_uint64 _ size
  | string =>
    rw [← List.map_id_fun]
    cases r with
    | key =>
      apply Follows.loadMany
      apply Follows.uninit
      intro len hlen
      exact (follows_loadString hlen).map Prod.snd (fun _ => rfl) fun _ => rfl
    | keyValue => exact follows_loadKeyValue.loadMany size
    | operation => exact follows_loadOperation.loadMany size

theorem loadElems_length (r : Record) (t : DataType) (size : Nat) (s : InputStream) :
    (loadElems r t size s).1.length = size := by
  cases t with
  | uint32 => cases r <;> exact Layout.length_elements _ size _
  | uint64 => cases r <;> exact Layout.length_elements _ size _
  | string => cases r <;> exact loadMany_length size s

theorem skips_inString : Skips inString skipString := by
  intro bs
  unfold skipString skip
  by_cases hlen : 4 ≤ bs.length
  · have hread : inString bs = Binary.read (Layout.uint32.ofBytes (bs.take 4)).toNat (bs.drop 4) := by
      change (Option.bind (Option.bind (Binary.read 4 bs) _) _ : Option (Bytes × Bytes)) = _
      rw [Binary.read, if_pos hlen]
      rfl
    rw [hread, if_pos hlen]
    exact skips_read _ _
  · have hread : inString bs = none := by
      change (Option.bind (Option.bind (Binary.read 4 bs) _) _ : Option (Bytes × Bytes)) = _
      rw [Binary.read, if_neg hlen]
      rfl
    rw [hread, if_neg hlen]
    rfl

theorem skips_readOne {α : Type} (l : Layout α) : Skips (readOne l) (skip l.size) :=
  (skips_read l.size).map l.ofBytes

theorem skips_inPlain {α : Type} (l : Layout α) (sizeof size : Nat) :
    Skips (inPlain l sizeof size) (skip (size * sizeof)) :=
  (skips_read _).map (l.elements size)

theorem skips_inElems (r : Record) (t : DataType) (size : Nat) :
    Skips (inElems r t size) (skipElems r t size) := by
  cases t with
  | uint32 => cases r <;> exact skips_inPlain _ _ size
  | uint64 => cases r <;> exact skips_inPlain _ _ size
  | string =>
    cases r with
    | key => exact skips_readMany skips_inString size
    | keyValue =>
      apply skips_readMany
      apply (skips_readOne .uint64).bind
      exact fun value => skips_inString.map fun key => KeyValue.mk key value
    | operation =>
      apply skips_readMany
      apply (skips_readOne .uint8).bind
      intro op
      apply (skips_readOne .uint64).bind
      intro result
      apply skips_inString.bind
      exact fun loKey => skips_inString.map fun hiKey => Operation.mk op loKey hiKey result

theorem follows_loadSize : Follows loadSize (readOne .uint64) id Layout.uint64.toBytes :=
  .uninit fun _ h => follows_loadOne Layout.lossless_uint64 h

variable {r : Record} {t : DataType} {file : Bytes}

theorem loadSize_eq (memory : Nat → UInt8) (h : 8 ≤ file.length) : ∃ size s, loadSize ⟨file, false, memory⟩ = (size, s) ∧
    size = Layout.uint64.ofBytes (file.take 8) ∧ s.ahead = file.drop 8 ∧ s.failed = false ∧
      file = Layout.uint64.toBytes size ++ file.drop 8 := by
  have hread : readOne .uint64 file = some (Layout.uint64.ofBytes (file.take 8), file.drop 8) := by
    change (Option.bind (Binary.read 8 file) _ : Option (UInt64 × Bytes)) = _
    rw [Binary.read, if_pos h]
    rfl
  exact follows_loadSize.reads ⟨file, false, memory⟩ _ _ rfl hread

/-- The bytes of a size that a file is too short for may be zeros. -/
theorem loadSize_short (h : file.length < 8) : (loadSize ⟨file, false, fun _ => 0⟩).1.toNat < 256 ^ 7 := by
  have hzeros : (List.range 8).map (fun _ => (0 : UInt8)) = List.replicate 8 0 := rfl
  have hmem : (readInto (List.replicate 8 0) ⟨file, false, fun _ => 0⟩).1 =
      file ++ List.replicate (8 - file.length) 0 := by
    rw [readInto, if_neg Bool.false_ne_true, List.length_replicate, if_neg (Nat.not_le_of_lt h),
      List.drop_replicate]
  have hlt : ofLittleEndian file < 256 ^ 7 :=
    (ofLittleEndian_lt rfl).trans_le (Nat.pow_le_pow_right (by decide) (Nat.le_of_lt_succ h))
  change (Layout.uint64.ofBytes (readInto ((List.range 8).map fun _ => 0) ⟨file, false, _⟩).1).toNat < _
  rw [hzeros, hmem]
  change (UInt64.ofNat (ofLittleEndian (file ++ List.replicate (8 - file.length) 0))).toNat < _
  rw [ofLittleEndian_append_zeros, UInt64.toNat_ofNat', Nat.mod_eq_of_lt (hlt.trans (by decide))]
  exact hlt

theorem le_maxSize (r : Record) (t : DataType) {n : Nat} (h : n < 256 ^ 7) :
    n ≤ maxSize (r.sizeof t.sizeof) := by
  have hle : 256 ^ 7 ≤ maxSize (r.sizeof t.sizeof) := by cases r <;> cases t <;> decide
  exact h.le.trans hle

theorem loadData_eq {s s' : InputStream} {size : UInt64} (h : loadSize s = (size, s'))
    (hmax : size.toNat ≤ maxSize (r.sizeof t.sizeof)) :
    loadData r t s = some ((loadElems r t size.toNat s').1, (loadElems r t size.toNat s').2) := by
  rw [loadData, h]
  exact if_pos hmax

/-- What is written for a vector takes the size in front of it, and then the elements. -/
theorem outData_loadElems {size : UInt64} (s : InputStream) :
    outData r t (loadElems r t size.toNat s).1 =
      Layout.uint64.toBytes size ++ outElems r t (loadElems r t size.toNat s).1 := by
  rw [outData, Util.size, loadElems_length, UInt64.ofNat_toNat]

theorem length_le_outData (data : List (r.Of t.Key)) : 8 ≤ (outData r t data).length := by
  rw [outData, List.length_append, Layout.length_toBytes]
  exact Nat.le_add_right 8 _

/-- The vectors that the program returns for a file are in the file. -/
def NeverInvents (r : Record) (t : DataType) (file : Bytes) : Prop :=
  ∀ memory data s, loadData r t ⟨file, false, memory⟩ = some (data, s) → outData r t data <+: file

theorem isSome_skipElems_iff {size : Nat} : (skipElems r t size file).isSome ↔ inElems r t size file ≠ none := by
  rw [← skips_inElems r t size file, Option.isSome_map, Option.isSome_iff_ne_none]

theorem loadData_never_invents_iff (r : Record) (t : DataType) (file : Bytes) :
    NeverInvents r t file ↔ Complete r t file := by
  constructor
  · intro h
    have hsize : 8 ≤ file.length := by
      by_contra hshort
      have hlt := loadSize_short (Nat.lt_of_not_le hshort)
      have hprefix := h _ _ _ (if_pos (le_maxSize r t hlt))
      exact hshort ((length_le_outData _).trans hprefix.length_le)
    refine ⟨hsize, fun hmax => ?_⟩
    obtain ⟨size, s, hload, heq, hahead, hs, hfile⟩ := loadSize_eq (fun _ => 0) hsize
    rw [← heq] at hmax ⊢
    rw [isSome_skipElems_iff, ← hahead]
    intro hnone
    -- The elements take more bytes than there are behind the size.
    have hshort := (follows_loadElems r t _).short s hs hnone
    have hprefix := h _ _ _ (loadData_eq hload hmax)
    rw [outData_loadElems, hfile, List.prefix_append_right_inj, ← hahead] at hprefix
    exact Nat.not_le_of_lt hshort hprefix.length_le
  · rintro ⟨hsize, hskip⟩ memory data s' h
    obtain ⟨size, s, hload, heq, hahead, hs, hfile⟩ := loadSize_eq memory hsize
    rw [← heq] at hskip
    by_cases hmax : size.toNat ≤ maxSize (r.sizeof t.sizeof)
    · have hsome := hskip hmax
      rw [isSome_skipElems_iff, ← hahead] at hsome
      obtain ⟨⟨data', rest⟩, hread⟩ := Option.ne_none_iff_exists'.mp hsome
      obtain ⟨a, s'', ha, -, -, -, hbytes⟩ := (follows_loadElems r t _).reads s data' rest hs hread
      have hout : outData r t (loadElems r t size.toNat s).1 = _ := outData_loadElems s
      rw [loadData_eq hload hmax, ha] at h
      rw [ha] at hout
      cases h
      rw [hout, hfile, List.prefix_append_right_inj, ← hahead, hbytes]
      exact List.prefix_append _ _
    · rw [loadData, hload] at h
      cases (if_neg hmax).symm.trans h

/-- Where `inData` reads a vector, the program loads it and the stream is as good as before. -/
theorem loadData_of_inData (memory : Nat → UInt8) {data : List (r.Of t.Key)} {rest : Bytes}
    (h : inData r t file = some (data, rest)) :
    ∃ s, loadData r t ⟨file, false, memory⟩ = some (data, s) ∧ s.ahead = rest ∧ s.failed = false := by
  obtain ⟨⟨size, tail⟩, hsize, helems⟩ :=
    Option.bind_eq_some_iff.mp (show (readOne .uint64 file).bind _ = _ from h)
  obtain ⟨size, s, hload, rfl, rfl, hs, -⟩ := follows_loadSize.reads ⟨file, false, memory⟩ _ _ rfl hsize
  dsimp only [id] at helems
  split at helems
  case isTrue hmax =>
    obtain ⟨a, s', ha, rfl, hrest, hs', -⟩ := (follows_loadElems r t _).reads s data rest hs helems
    refine ⟨s', ?_, hrest, hs'⟩
    rw [loadData_eq hload hmax, ha]
    rfl
  case isFalse => cases helems

/-- A file that promises one key and ends. -/
theorem loadData_invents_zero :
    ((loadData .key .uint32 ⟨[1, 0, 0, 0, 0, 0, 0, 0], false, fun _ => 0⟩).map Prod.fst = some [0]) ∧
      ¬outData .key .uint32 [0] <+: [1, 0, 0, 0, 0, 0, 0, 0] := by
  decide

end LearnedIndex.Files
