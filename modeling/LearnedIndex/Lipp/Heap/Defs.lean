import LearnedIndex.Lipp.Defs
import LearnedIndex.Traced
import Mathlib.Logic.Function.Basic

/-! `LIPP` with its nodes in memory: insertion write by write, in the order of the source, and a
lookup that may come between any two of the writes. -/

namespace LearnedIndex.Lipp.Heap

open Hybrid

/-- `Node*` -/
abbrev Pointer := Nat

variable {K : Type}

/-- The word of an item that its key and the pointer to its child share. -/
inductive Word (K : Type)
  | uninit
  | key (key : K)
  | child (p : Pointer)

/-- The union `comp`, word by word. -/
structure Comp (K : Type) where
  word : Word K
  value : Option UInt64

def Comp.uninit : Comp K := ⟨.uninit, none⟩

/-- A node in memory.  An array is `none` before it is allocated and once it is freed. -/
structure Cell (K : Type) where
  isTwo : Bool
  buildSize : Nat
  size : Nat
  fixed : Bool
  numInserts : Nat
  numInsertToData : Nat
  numItems : Nat
  model : K → Nat
  items : Option (List (Comp K))
  noneBitmap : Option Bitmap
  childBitmap : Option Bitmap

namespace Cell

/-- What `new_nodes` returns; none of it is read before it is written. -/
def uninit : Cell K where
  isTwo := false
  buildSize := 0
  size := 0
  fixed := false
  numInserts := 0
  numInsertToData := 0
  numItems := 0
  model := fun _ => 0
  items := none
  noneBitmap := none
  childBitmap := none

/-- `PREDICT_POS` -/
def predictPos (c : Cell K) (key : K) : Nat := min (c.numItems - 1) (c.model key)

def isNone (c : Cell K) (i : Nat) : Option Bool := c.noneBitmap.map fun bitmap => bitmap.get i
def isChild (c : Cell K) (i : Nat) : Option Bool := c.childBitmap.map fun bitmap => bitmap.get i

def item (c : Cell K) (i : Nat) : Option (Comp K) := c.items.bind fun items => items[i]?

/-- `items[i].comp.data` -/
def data (c : Cell K) (i : Nat) : Option (KeyValue K) :=
  match c.item i with
  | some ⟨.key key, some value⟩ => some ⟨key, value⟩
  | _ => none

/-- `items[i].comp.child` -/
def child (c : Cell K) (i : Nat) : Option Pointer :=
  match c.item i with
  | some ⟨.child p, _⟩ => some p
  | _ => none

/-- `need_rebuild` -/
def needRebuild (c : Cell K) : Bool :=
  !c.fixed && decide (c.buildSize * 4 ≤ c.size ∧ 64 ≤ c.size ∧ c.numInserts ≤ c.numInsertToData * 10)

section Writes

def incSize (c : Cell K) : Cell K := { c with size := c.size + 1 }
def incInserts (c : Cell K) : Cell K := { c with numInserts := c.numInserts + 1 }

def addInsertToData (insertToData : Bool) (c : Cell K) : Cell K :=
  { c with numInsertToData := c.numInsertToData + insertToData.toNat }

def setModel (model : K → Nat) (c : Cell K) : Cell K := { c with model := model }

def clearNone (pos : Nat) (c : Cell K) : Cell K :=
  { c with noneBitmap := c.noneBitmap.map fun bitmap => bitmap.clear pos }

def setChildBit (pos : Nat) (c : Cell K) : Cell K :=
  { c with childBitmap := c.childBitmap.map fun bitmap => bitmap.set pos }

def setWord (pos : Nat) (word : Word K) (c : Cell K) : Cell K :=
  { c with items := c.items.map fun items => items.modify pos fun comp => { comp with word := word } }

def setValue (pos : Nat) (value : UInt64) (c : Cell K) : Cell K :=
  { c with items := c.items.map fun items => items.modify pos fun comp => { comp with value := some value } }

/-- `build_tree_two` on a new node. -/
def twoWrites : List (Cell K → Cell K) :=
  [fun c => { c with isTwo := true },
    fun c => { c with buildSize := 2 },
    fun c => { c with size := 2 },
    fun c => { c with fixed := false },
    fun c => { c with numInsertToData := 0 },
    fun c => { c with numInserts := 0 },
    fun c => { c with numItems := 8 },
    fun c => { c with items := some (List.replicate 8 .uninit) },
    fun c => { c with noneBitmap := some [0xff] },
    fun c => { c with childBitmap := some [0] }]

/-- `build_tree_bulk` on a new node, before its model. -/
def sizeWrites (size : Nat) : List (Cell K → Cell K) :=
  [fun c => { c with isTwo := false },
    fun c => { c with buildSize := size },
    fun c => { c with size := size },
    fun c => { c with fixed := false },
    fun c => { c with numInsertToData := 0 },
    fun c => { c with numInserts := 0 }]

/-- `build_tree_bulk` on a new node, from its model up to its keys. -/
def bulkWrites (size : Nat) (model : K → Nat) : List (Cell K → Cell K) :=
  let numItems := size * (computeGapCount size + 1)
  [setModel model, fun c => { c with numItems := numItems }] ++
    (if 1000000 < size then [fun c => { c with fixed := true }] else []) ++
    [fun c => { c with items := some (List.replicate numItems .uninit) },
      fun c => { c with noneBitmap := some (List.replicate (Bitmap.size numItems) 0xff) },
      fun c => { c with childBitmap := some (List.replicate (Bitmap.size numItems) 0) }]

/-- `scan_and_destory_tree` on a node with two keys. -/
def resetWrites : List (Cell K → Cell K) :=
  [fun c => { c with size := 2 },
    fun c => { c with numInsertToData := 0 },
    fun c => { c with numInserts := 0 },
    fun c => { c with noneBitmap := c.noneBitmap.map fun bitmap => List.set bitmap 0 0xff },
    fun c => { c with childBitmap := c.childBitmap.map fun bitmap => List.set bitmap 0 0 }]

/-- `scan_and_destory_tree` on any other node, before the node itself is freed. -/
def freeWrites : List (Cell K → Cell K) :=
  [fun c => { c with items := none },
    fun c => { c with noneBitmap := none },
    fun c => { c with childBitmap := none }]

end Writes

end Cell

/-- The nodes that are allocated, and the members of `LIPP`; `pending_two` with its top first. -/
structure Memory (K : Type) where
  nodes : Pointer → Option (Cell K)
  root : Pointer
  pendingTwo : List Pointer

def Memory.set (mem : Memory K) (p : Pointer) (c : Option (Cell K)) : Memory K :=
  { mem with nodes := Function.update mem.nodes p c }

/-- `node_allocator`, with `none` for `std::bad_alloc`. -/
structure Allocator (K : Type) where
  allocate : Memory K → Option Pointer
  fresh : ∀ {mem p}, allocate mem = some p → mem.nodes p = none

/-- How a call ends early. -/
inductive Halt
  | failure (e : Failure)
  | badAlloc
  deriving DecidableEq

abbrev Exec (K : Type) := Traced (Memory K) Halt

def fail {α : Type} (e : Failure) : Exec K α := Traced.lift (.exits (.failure e))

def rtAssert (e : Failure) (p : Prop) [Decidable p] : Exec K PUnit := Traced.lift (Outcome.require (.failure e) p)

def ensure {α : Type} (e : Halt) (o : Option α) : Exec K α := Traced.lift (Outcome.ofOption e o)

/-- Reading what may have been freed, or never written. -/
def read {α : Type} (o : Option α) : Exec K α := ensure (.failure .access) o

def load (p : Pointer) : Exec K (Cell K) := do
  read ((← Traced.get).nodes p)

/-- One write to a node. -/
def store (p : Pointer) (f : Cell K → Cell K) : Exec K PUnit := do
  let c ← load p
  Traced.write fun mem => mem.set p (some (f c))

/-- Writes to a node, one after the other. -/
def stores (p : Pointer) (fs : List (Cell K → Cell K)) : Exec K PUnit := fs.forM (store p)

/-- `delete_nodes` -/
def deleteNode (p : Pointer) : Exec K PUnit := Traced.write fun mem => mem.set p none

def pushPending (p : Pointer) : Exec K PUnit :=
  Traced.write fun mem => { mem with pendingTwo := p :: mem.pendingTwo }

/-- A key goes to an item. -/
def place (p : Pointer) (pos : Nat) (kv : KeyValue K) : Exec K PUnit :=
  stores p [Cell.clearNone pos, Cell.setWord pos (.key kv.key), Cell.setValue pos kv.value]

section Build

variable [LinearOrder K] (fit : Fit K) (alloc : Allocator K)

/-- `new_nodes(1)` -/
def newNode : Exec K Pointer := do
  let p ← ensure .badAlloc (alloc.allocate (← Traced.get))
  Traced.write fun mem => mem.set p (some .uninit)
  return p

/-- A node for two keys, recycled if there is one. -/
def takeTwo : Exec K Pointer := do
  match (← Traced.get).pendingTwo with
  | [] =>
    let p ← newNode alloc
    stores p Cell.twoWrites
    return p
  | p :: pool =>
    Traced.write fun mem => { mem with pendingTwo := pool }
    return p

/-- One of the keys of `build_tree_two`. -/
def placeTwo (p : Pointer) (kv : KeyValue K) : Exec K PUnit := do
  let c ← load p
  let pos := c.predictPos kv.key
  rtAssert .slotEmpty ((← read (c.isNone pos)) = true)
  place p pos kv

/-- `build_tree_two`, once the smaller key comes first. -/
def buildOrdered (kv₁ kv₂ : KeyValue K) : Exec K Pointer := do
  rtAssert .ordered (kv₁.key < kv₂.key)
  let p ← takeTwo alloc
  let model ← ensure (.failure .modelFinite) (fit.two kv₁.key kv₂.key)
  store p (Cell.setModel model)
  placeTwo p kv₁
  placeTwo p kv₂
  return p

/-- `build_tree_two` -/
def buildTreeTwo (kv₁ kv₂ : KeyValue K) : Exec K Pointer :=
  if kv₂.key < kv₁.key then buildOrdered fit alloc kv₂ kv₁ else buildOrdered fit alloc kv₁ kv₂

/-- Keys, and the node that is to have them. -/
abbrev Segment (K : Type) := List (KeyValue K) × Pointer

/-- The keys with the same predicted position as the first, over and over. -/
def runs (c : Cell K) (kvs : List (KeyValue K)) : List (List (KeyValue K)) :=
  kvs.splitBy fun kv₁ kv₂ => c.predictPos kv₁.key == c.predictPos kv₂.key

/-- One round of the loop that inserts the keys into a new node. -/
def placeRun (p : Pointer) (s : List (Segment K)) : List (KeyValue K) → Exec K (List (Segment K))
  | [] => return s
  | [kv] => do
    place p ((← load p).predictPos kv.key) kv
    return s
  | kv :: kvs => do
    let pos := (← load p).predictPos kv.key
    stores p [Cell.clearNone pos, Cell.setChildBit pos]
    let q ← newNode alloc
    store p (Cell.setWord pos (.child q))
    return (kv :: kvs, q) :: s

/-- One round of the loop over the segments; it returns the new ones. -/
def buildSegment (p : Pointer) (s : List (Segment K)) : List (KeyValue K) → Exec K (List (Segment K))
  | [] | [_] => fail .several
  | [kv₁, kv₂] => do
    let q ← buildTreeTwo fit alloc kv₁ kv₂
    let c ← load q
    store p fun _ => c
    deleteNode q
    return s
  | kvs => do
    stores p (Cell.sizeWrites kvs.length)
    let model ← ensure (.failure .modelFinite) (fit.bulk (keys kvs))
    stores p (Cell.bulkWrites kvs.length model)
    (runs (← load p) kvs).foldlM (placeRun alloc p) s

/-- The loop of `build_tree_bulk`, for at most `fuel` segments. -/
def buildLoop : Nat → List (Segment K) → Exec K PUnit
  | _, [] => return ⟨⟩
  | 0, _ => Traced.lift .diverges
  | fuel + 1, (kvs, p) :: s => do
    buildLoop fuel (← buildSegment fit alloc p s kvs)

/-- `build_tree_bulk` -/
def buildTreeBulk (fuel : Nat) (kvs : List (KeyValue K)) : Exec K Pointer := do
  rtAssert .several (1 < kvs.length)
  let p ← newNode alloc
  buildLoop fit alloc fuel [(kvs, p)]
  return p

end Build

section Destroy

def writeBuffer (buffer : Buffer K) (pos : Nat) (kv : KeyValue K) : Exec K (Buffer K) :=
  if pos < buffer.length then return buffer.set pos (some kv) else fail .access

/-- The local variables of `scan_and_destory_tree`. -/
structure Scan (K : Type) where
  s : List (Nat × Pointer)
  begin : Nat
  buffer : Buffer K

/-- The loop over the items of a node in `scan_and_destory_tree`. -/
def scanItem (p : Pointer) (scan : Scan K) (i : Nat) : Exec K (Scan K) := do
  let c ← load p
  if ← read (c.isNone i) then return scan
  else if ← read (c.isChild i) then
    let q ← read (c.child i)
    let child ← load q
    return { scan with s := (scan.begin, q) :: scan.s, begin := scan.begin + child.size }
  else
    let kv ← read (c.data i)
    let buffer ← writeBuffer scan.buffer scan.begin kv
    return { scan with begin := scan.begin + 1, buffer := buffer }

/-- Freeing a node: one for two keys is kept. -/
def recycle (p : Pointer) : Exec K PUnit := do
  let c ← load p
  if c.isTwo then
    rtAssert .twoBuildSize (c.buildSize = 2)
    rtAssert .twoNumItems (c.numItems = 8)
    stores p Cell.resetWrites
    pushPending p
  else
    stores p Cell.freeWrites
    deleteNode p

/-- The loop of `scan_and_destory_tree`, for at most `fuel` nodes. -/
def scanLoop : Nat → List (Nat × Pointer) → Buffer K → Exec K (Buffer K)
  | _, [], buffer => return buffer
  | 0, _, _ => Traced.lift .diverges
  | fuel + 1, (begin, p) :: s, buffer => do
    let c ← load p
    let scan ← (List.range c.numItems).foldlM (scanItem p) ⟨s, begin, buffer⟩
    rtAssert .scanned (begin + c.size = scan.begin)
    recycle p
    scanLoop fuel scan.s scan.buffer

/-- `scan_and_destory_tree`, for arrays of `ESIZE` elements. -/
def scanAndDestroyTree (fuel : Nat) (p : Pointer) : Exec K (List (KeyValue K)) := do
  let c ← load p
  let buffer ← scanLoop fuel [(0, p)] (List.replicate c.size none)
  read (buffer.mapM id)

end Destroy

section Insert

variable [LinearOrder K] (fit : Fit K) (alloc : Allocator K)

/-- The item where a node predicts the key, once the node has counted it; `descend` is for a
child. -/
def insertItem (descend : Pointer → Exec K (List Pointer × Bool)) (kv : KeyValue K) (p : Pointer) :
    Exec K (List Pointer × Bool) := do
  let c ← load p
  let pos := c.predictPos kv.key
  if ← read (c.isNone pos) then
    place p pos kv
    return ([p], false)
  else if ← read (c.isChild pos) then
    let (path, insertToData) ← descend (← read (c.child pos))
    return (p :: path, insertToData)
  else
    store p (Cell.setChildBit pos)
    let kv' ← read ((← load p).data pos)
    let q ← buildTreeTwo fit alloc kv kv'
    store p (Cell.setWord pos (.child q))
    return ([p], true)

/-- The descent of `insert_tree`, for at most `depth` nodes: the path, and `insert_to_data`. -/
def insertDown (kv : KeyValue K) : Nat → Pointer → Exec K (List Pointer × Bool)
  | 0, _ => fail .depth
  | depth + 1, p => do
    stores p [Cell.incSize, Cell.incInserts]
    insertItem fit alloc (insertDown kv depth) kv p

/-- The first node on the path that needs a rebuild gets one; what it returns takes the place of
`path[0]`. -/
def rebuildPath (fuel : Nat) (key : K) : Option Pointer → List Pointer → Exec K (Option Pointer)
  | _, [] => return none
  | parent, p :: path => do
    if (← load p).needRebuild then
      let kvs ← scanAndDestroyTree fuel p
      let q ← buildTreeBulk fit alloc fuel kvs
      match parent with
      | none => return some q
      | some r =>
        store r (Cell.setWord ((← load r).predictPos key) (.child q))
        return none
    else rebuildPath fuel key (some p) path

/-- `insert_tree` -/
def insertTree (fuel : Nat) (root : Pointer) (kv : KeyValue K) : Exec K Pointer := do
  let (path, insertToData) ← insertDown fit alloc kv maxDepth root
  path.forM fun p => store p (Cell.addInsertToData insertToData)
  return (← rebuildPath fit alloc fuel kv.key none path).getD root

/-- `insert`, with `fuel` rounds for each loop of a rebuild. -/
def insert (fuel : Nat) (kv : KeyValue K) : Exec K PUnit := do
  let root ← insertTree fit alloc fuel (← Traced.get).root kv
  Traced.write fun mem => { mem with root := root }

end Insert

section Find

/-- How a lookup ends. -/
inductive Lookup
  | found (value : UInt64)
  | absent
  /-- The item that it follows is not a child node that is live. -/
  | strays
  /-- It reads what is freed, or was never written. -/
  | garbage
  | unfinished
  deriving DecidableEq

/-- A node that is allocated, and not waiting to be recycled. -/
def Memory.Live (mem : Memory K) (p : Pointer) : Prop := (mem.nodes p).isSome ∧ p ∉ mem.pendingTwo

instance Memory.decidableLive (mem : Memory K) (p : Pointer) : Decidable (mem.Live p) :=
  inferInstanceAs (Decidable (_ ∧ _))

variable [DecidableEq K]

/-- `find` at an item with data, or none. -/
def Cell.findData (c : Cell K) (pos : Nat) (key : K) : Lookup :=
  match c.isNone pos, c.item pos with
  | some true, _ => .absent
  | some false, some ⟨.key k, value⟩ =>
    if k = key then
      match value with
      | some value => .found value
      | none => .garbage
    else .absent
  | _, _ => .garbage

/-- The loop of `find`, for at most `fuel` nodes. -/
def find (mem : Memory K) (key : K) : Nat → Pointer → Lookup
  | 0, _ => .unfinished
  | fuel + 1, p =>
    match mem.nodes p with
    | none => .garbage
    | some c =>
      match c.isChild (c.predictPos key) with
      | none => .garbage
      | some false => c.findData (c.predictPos key) key
      | some true =>
        match c.child (c.predictPos key) with
        | none => .strays
        | some q => if mem.Live q then find mem key fuel q else .strays

end Find

end LearnedIndex.Lipp.Heap
