import LearnedIndex.Files
import LearnedIndex.Text
import LearnedIndex.Workload.Phases
import Mathlib.Data.Rat.Floor

/-! The name of a workload file: how `generate` writes the parameters into it, and what
`Benchmark` reads out of it.  Doubles are rational numbers here. -/

namespace LearnedIndex.Workload

open Text

section Generate

/-- How many millionths `std::to_string(double)` writes: the nearest, and the even one of two. -/
def micros (x : ℚ) : Nat :=
  let n := (x * 1000000).floor.toNat
  let rest := x * 1000000 - n
  if rest < 1 / 2 ∨ rest = 1 / 2 ∧ n % 2 = 0 then n else n + 1

def padded (width n : Nat) : List Char :=
  List.replicate (width - (Nat.toDigits 10 n).length) '0' ++ Nat.toDigits 10 n

/-- `std::to_string(double)`. -/
def toStringDouble (x : ℚ) : List Char :=
  Nat.toDigits 10 (micros x / 1000000) ++ '.' :: padded 6 (micros x % 1000000)

def toNiceNumber (num : Nat) : List Char :=
  if 1000000000 ≤ num ∧ num / 1000000000 * 1000000000 = num then
    Nat.toDigits 10 (num / 1000000000) ++ ['B']
  else if 1000000 ≤ num ∧ num / 1000000 * 1000000 = num then Nat.toDigits 10 (num / 1000000) ++ ['M']
  else if 1000 ≤ num ∧ num / 1000 * 1000 = num then Nat.toDigits 10 (num / 1000) ++ ['K']
  else Nat.toDigits 10 num

def InsertPat.toNat : InsertPat → Nat
  | .equality => 0
  | .delta => 1
  | .hotspot => 2

/-- `op_filename`. -/
def opFilename (filename : List Char) (p : Params ℚ) : List Char :=
  filename ++ "_ops_".toList ++ toNiceNumber p.opCnt ++ "_".toList
    ++ toStringDouble p.rangeQueryRatio ++ "rq_".toList
    ++ toStringDouble p.negativeLookupRatio ++ "nl_".toList
    ++ toStringDouble p.insertRatio ++ "i".toList
    ++ (if hasInserts p then "_".toList ++ Nat.toDigits 10 p.pat.toNat ++ "m".toList else [])
    ++ (if p.pat = .hotspot then "_".toList ++ toStringDouble p.hotspotRatio ++ "h".toList else [])
    ++ (if 1 < p.threadNum then "_".toList ++ Nat.toDigits 10 p.threadNum ++ "t".toList else [])
    ++ (if p.mix then "_mix".toList else [])
    ++ (if 1 < p.blockNum then "_".toList ++ Nat.toDigits 10 p.blockNum ++ "blk".toList else [])
    ++ (match p.bulkloadCnt with
      | some n => "_".toList ++ toNiceNumber n ++ "bulkload".toList
      | none => [])

/-- What `main` checks of the options before it calls `generate`. -/
structure Accepted (p : Params ℚ) : Prop where
  blocks : ¬(1 < p.blockNum ∧ (1 < p.threadNum ∨ p.mix = true))
  pat : ¬0 < p.insertRatio → p.pat = .equality
  negativeLookupRatio : 0 ≤ p.negativeLookupRatio ∧ p.negativeLookupRatio ≤ 1
  rangeQueryRatio : 0 ≤ p.rangeQueryRatio ∧ p.rangeQueryRatio ≤ 1
  insertRatio : 0 ≤ p.insertRatio ∧ p.insertRatio ≤ 1
  hotspotRatio : 0 < p.hotspotRatio ∧ p.hotspotRatio ≤ 1

/-- `get_suffix`. -/
def getSuffix (filename : List Char) : List Char :=
  if '_' ∈ filename then (filename.reverse.takeWhile (· ≠ '_')).reverse else []

/-- `resolve_type`; `none` exits. -/
def resolveType (filename : List Char) : Option Files.DataType :=
  let suffix := getSuffix filename
  if suffix = "uint32".toList then some .uint32
  else if suffix = "uint64".toList then some .uint64
  else if suffix = "string".toList then some .string
  else none

end Generate

section Benchmark

/-- `dataset_name_`: the name behind `data/`.  Without it `find` gives `npos`, and adding the
length of the prefix to that comes to 4. -/
def datasetName (opsFilename : List Char) : List Char :=
  match find "data/".toList opsFilename with
  | some n => opsFilename.drop (n + 5)
  | none => opsFilename.drop 4

/-- `(\d+\.\d*)` in front of `tail`; what it captures is split at the point.  A digit run has
to be taken whole, since what comes after it is not a digit. -/
def decimalPat (tail s : List Char) : Option (List Char × List Char) :=
  match s.dropWhile Char.isDigit with
  | '.' :: rest =>
    if s.takeWhile Char.isDigit ≠ [] ∧ tail <+: rest.dropWhile Char.isDigit then
      some (s.takeWhile Char.isDigit, rest.takeWhile Char.isDigit)
    else none
  | _ => none

/-- `(\d+)` in front of `tail`. -/
def countPat (tail s : List Char) : Option (List Char) :=
  if s.takeWhile Char.isDigit ≠ [] ∧ tail <+: s.dropWhile Char.isDigit then
    some (s.takeWhile Char.isDigit)
  else none

def digitsValue (ds : List Char) : Nat := Nat.ofDigitChars 10 ds 0

def stod (d : List Char × List Char) : ℚ :=
  digitsValue d.1 + digitsValue d.2 / 10 ^ d.2.length

/-- `std::stoi`; `none` when it throws because the number is no `int`. -/
def stoi (ds : List Char) : Option Nat :=
  if digitsValue ds ≤ 2147483647 then some (digitsValue ds) else none

/-- What the constructor of `Benchmark` takes from the name. -/
structure FileInfo where
  isMix : Bool
  numBlocks : Nat
  isRangeQuery : Bool
  insertRatio : ℚ
  /-- It loads the bulk-load file; otherwise it builds on the keys of the dataset. -/
  loadsBulkLoad : Bool
  deriving DecidableEq

/-- The constructor's reading of the name; `none` when it throws or fails. -/
def readFilename (opsFilename : List Char) (numThreads : Nat) : Option FileInfo := do
  let name := datasetName opsFilename
  let isMix := (find "mix".toList name).isSome
  let numBlocks ← (search (countPat "blk".toList) name).elim (some 1) stoi
  let isRangeQuery := (search (decimalPat "rq".toList) name).elim false fun d => decide (0 < stod d)
  let insertRatio := (search (decimalPat "i".toList) name).elim 0 stod
  if 1 < numBlocks ∧ (1 < numThreads ∨ benchmarkFlag isMix insertRatio) then none
  else some {
    isMix := isMix, numBlocks := numBlocks, isRangeQuery := isRangeQuery, insertRatio := insertRatio,
    loadsBulkLoad := decide (0 < insertRatio) || (find "bulkload".toList name).isSome }

end Benchmark

end LearnedIndex.Workload
