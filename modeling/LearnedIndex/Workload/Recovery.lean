import LearnedIndex.Workload.FileName
import Mathlib.Tactic.Linarith
import Mathlib.Tactic.Positivity

/-! When `Benchmark` reads the parameters of `generate` back out of the file name. -/

namespace LearnedIndex.Workload

open Text Oracle

section Numbers

theorem floor_toNat_le {y : ℚ} (hy : 0 ≤ y) : (y.floor.toNat : ℚ) ≤ y ∧ y < y.floor.toNat + 1 := by
  have hfloor : ((y.floor.toNat : ℤ) : ℚ) = (y.floor : ℚ) := by
    rw [Int.toNat_of_nonneg (Rat.le_floor_iff.mpr (by simpa using hy))]
  rw [Int.cast_natCast] at hfloor
  rw [hfloor]
  exact ⟨Rat.floor_le y, by exact_mod_cast Rat.lt_floor_add_one y⟩

theorem micros_pos {x : ℚ} (hx : 0 ≤ x) : 0 < micros x ↔ 1 / 2000000 < x := by
  obtain ⟨hle, hlt⟩ := floor_toNat_le (y := x * 1000000) (by linarith)
  unfold micros
  generalize (x * 1000000).floor.toNat = n at hle hlt ⊢
  obtain rfl | hn := Nat.eq_zero_or_pos n
  · simp only [Nat.cast_zero, sub_zero, Nat.zero_mod, and_true]
    split
    · rename_i h
      refine iff_of_false (lt_irrefl 0) fun hlarge => ?_
      obtain h | h := h <;> linarith
    · rename_i h
      refine iff_of_true Nat.one_pos ?_
      rw [not_or, not_lt] at h
      have := lt_of_le_of_ne h.1 (Ne.symm h.2)
      linarith
  · have hn' : (1 : ℚ) ≤ n := by exact_mod_cast hn
    refine iff_of_true ?_ (by linarith)
    dsimp only
    split <;> omega

theorem micros_eq_million {x : ℚ} (hx : 0 ≤ x) (hx1 : x ≤ 1) :
    micros x = 1000000 ↔ 1 - 1 / 2000000 ≤ x := by
  obtain ⟨hle, hlt⟩ := floor_toNat_le (y := x * 1000000) (by linarith)
  unfold micros
  generalize (x * 1000000).floor.toNat = n at hle hlt ⊢
  have hn : n ≤ 1000000 := by
    have : (n : ℚ) ≤ 1000000 := by linarith
    exact_mod_cast this
  obtain rfl | rfl | hn : n = 1000000 ∨ n = 999999 ∨ n < 999999 := by omega
  · push_cast at hle
    have hone : x = 1 := by linarith
    subst hone
    norm_num
  · push_cast at hle hlt ⊢
    split
    · rename_i h
      refine iff_of_false (by norm_num) fun hlarge => ?_
      obtain h | h := h
      · linarith
      · norm_num at h
    · rename_i h
      rw [not_or, not_lt] at h
      exact iff_of_true rfl (by linarith)
  · have hn' : (n : ℚ) + 1 ≤ 999999 := by exact_mod_cast hn
    refine iff_of_false ?_ (by linarith)
    dsimp only
    split <;> omega

theorem digitsValue_padded {n : Nat} (width : Nat) : digitsValue (padded width n) = n := by
  rw [digitsValue, padded, Nat.ofDigitChars_append, Nat.ofDigitChars_replicate_zero, mul_zero,
    Nat.ofDigitChars_ten_toDigits]

theorem length_padded {n : Nat} (h : n < 1000000) : (padded 6 n).length = 6 := by
  have hlen : (Nat.toDigits 10 n).length ≤ 6 := (Nat.length_toDigits_le_iff (by omega) (by omega)).mpr h
  rw [padded, List.length_append, List.length_replicate]
  omega

/-- Reading a printed double back gives the number of millionths that was printed. -/
theorem stod_toStringDouble (m : Nat) :
    stod (Nat.toDigits 10 (m / 1000000), padded 6 (m % 1000000)) = m / 1000000 := by
  rw [stod, length_padded (Nat.mod_lt m (by omega)), digitsValue_padded, digitsValue,
    Nat.ofDigitChars_ten_toDigits]
  have hm : ((1000000 * (m / 1000000) + m % 1000000 : Nat) : ℚ) = m := by rw [Nat.div_add_mod]
  push_cast at hm ⊢
  linarith

theorem stod_nonneg (d : List Char × List Char) : 0 ≤ stod d := by
  unfold stod
  positivity

end Numbers

section Letters

theorem isDigit_of_mem_padded {c : Char} (width n : Nat) (h : c ∈ padded width n) :
    c.isDigit = true := by
  rw [padded, List.mem_append] at h
  obtain h | h := h
  · rw [List.eq_of_mem_replicate h]
    rfl
  · exact Nat.isDigit_of_mem_toDigits (by omega) (by omega) h

theorem isDigit_of_mem_toDigits {c : Char} {n : Nat} (h : c ∈ Nat.toDigits 10 n) :
    c.isDigit = true := Nat.isDigit_of_mem_toDigits (by omega) (by omega) h

/-- The letters of printed numbers. -/
def Plain (c : Char) : Prop := c.isDigit = true ∨ c ∈ ['.', 'B', 'M', 'K']

instance (c : Char) : Decidable (Plain c) := inferInstanceAs (Decidable (_ ∨ _))

theorem plain_toDigits (n : Nat) : ∀ c ∈ Nat.toDigits 10 n, Plain c :=
  fun _ h => .inl (isDigit_of_mem_toDigits h)

theorem plain_toNiceNumber (n : Nat) : ∀ c ∈ toNiceNumber n, Plain c := by
  intro c h
  unfold toNiceNumber at h
  split_ifs at h
  · exact (List.mem_append.mp h).imp isDigit_of_mem_toDigits fun h => by simp_all
  · exact (List.mem_append.mp h).imp isDigit_of_mem_toDigits fun h => by simp_all
  · exact (List.mem_append.mp h).imp isDigit_of_mem_toDigits fun h => by simp_all
  · exact .inl (isDigit_of_mem_toDigits h)

theorem plain_toStringDouble (x : ℚ) : ∀ c ∈ toStringDouble x, Plain c := by
  intro c h
  rw [toStringDouble, List.mem_append, List.mem_cons] at h
  obtain h | h | h := h
  · exact .inl (isDigit_of_mem_toDigits h)
  · exact .inr (by simp [h])
  · exact .inl (isDigit_of_mem_padded _ _ h)

/-- A word that starts with no such letter is not to be found in a number. -/
theorem infix_plain_append {x : Char} (hx : ¬ Plain x) (sub : List Char) {head : List Char}
    (hhead : ∀ c ∈ head, Plain c) (tail : List Char) :
    x :: sub <:+: head ++ tail ↔ x :: sub <:+: tail :=
  ⟨infix_of_append fun h => hx (hhead x h), fun h => h.trans (List.suffix_append _ _).isInfix⟩

theorem not_infix_plain {x : Char} (hx : ¬ Plain x) (sub : List Char) {head : List Char}
    (hhead : ∀ c ∈ head, Plain c) : ¬ x :: sub <:+: head :=
  fun h => hx (hhead x (h.subset List.mem_cons_self))

/-- The parameters in front of the number of blocks. -/
def leadingBlocks (p : Params ℚ) : List (List Char) :=
  [['o', 'p', 's'], toNiceNumber p.opCnt, toStringDouble p.rangeQueryRatio ++ ['r', 'q'],
      toStringDouble p.negativeLookupRatio ++ ['n', 'l'], toStringDouble p.insertRatio ++ ['i']]
    ++ (if hasInserts p then [Nat.toDigits 10 p.pat.toNat ++ ['m']] else [])
    ++ (if p.pat = .hotspot then [toStringDouble p.hotspotRatio ++ ['h']] else [])
    ++ (if 1 < p.threadNum then [Nat.toDigits 10 p.threadNum ++ ['t']] else [])
    ++ (if p.mix then [['m', 'i', 'x']] else [])

/-- The parameters in the name, each behind its own underscore. -/
def nameBlocks (p : Params ℚ) : List (List Char) :=
  leadingBlocks p
    ++ (if 1 < p.blockNum then [Nat.toDigits 10 p.blockNum ++ ['b', 'l', 'k']] else [])
    ++ p.bulkloadCnt.toList.map fun n => toNiceNumber n ++ ['b', 'u', 'l', 'k', 'l', 'o', 'a', 'd']

theorem opFilename_eq (filename : List Char) (p : Params ℚ) :
    opFilename filename p = filename ++ (nameBlocks p).flatMap ('_' :: ·) := by
  have hoptional : ∀ (c : Prop) [Decidable c] (b : List Char),
      (if c then [b] else []).flatMap ('_' :: ·) = if c then '_' :: b else [] := by
    intro c _ b
    split <;> simp
  unfold opFilename nameBlocks leadingBlocks
  simp only [List.flatMap_append, hoptional]
  cases p.bulkloadCnt <;> simp

/-- A block is a number and a word that says what it is. -/
theorem leadingBlocks_split {p : Params ℚ} {b : List Char} (h : b ∈ leadingBlocks p) :
    ∃ head word, b = head ++ word ∧ (∀ c ∈ head, Plain c) ∧
      (word ∈ [['o', 'p', 's'], [], ['r', 'q'], ['n', 'l'], ['i'], ['m'], ['h'], ['t']] ∨
        p.mix = true ∧ word = ['m', 'i', 'x']) := by
  simp only [leadingBlocks, List.mem_append, List.mem_cons, List.not_mem_nil, or_false,
    List.mem_ite_nil_right] at h
  obtain ((((rfl | rfl | rfl | rfl | rfl) | ⟨-, rfl⟩) | ⟨-, rfl⟩) | ⟨-, rfl⟩) | ⟨hmix, rfl⟩ := h
  · exact ⟨[], _, rfl, by simp, .inl (by decide)⟩
  · exact ⟨_, [], (List.append_nil _).symm, plain_toNiceNumber _, .inl (by decide)⟩
  · exact ⟨_, _, rfl, plain_toStringDouble _, .inl (by decide)⟩
  · exact ⟨_, _, rfl, plain_toStringDouble _, .inl (by decide)⟩
  · exact ⟨_, _, rfl, plain_toStringDouble _, .inl (by decide)⟩
  · exact ⟨_, _, rfl, plain_toDigits _, .inl (by decide)⟩
  · exact ⟨_, _, rfl, plain_toStringDouble _, .inl (by decide)⟩
  · exact ⟨_, _, rfl, plain_toDigits _, .inl (by decide)⟩
  · exact ⟨[], _, rfl, by simp, .inr ⟨hmix, rfl⟩⟩

theorem nameBlocks_split {p : Params ℚ} {b : List Char} (h : b ∈ nameBlocks p) :
    ∃ head word, b = head ++ word ∧ (∀ c ∈ head, Plain c) ∧
      (word ∈ [['o', 'p', 's'], [], ['r', 'q'], ['n', 'l'], ['i'], ['m'], ['h'], ['t'], ['b', 'l', 'k']] ∨
        p.mix = true ∧ word = ['m', 'i', 'x'] ∨
        p.bulkloadCnt.isSome = true ∧ word = ['b', 'u', 'l', 'k', 'l', 'o', 'a', 'd']) := by
  simp only [nameBlocks, List.mem_append, List.mem_cons, List.not_mem_nil, or_false,
    List.mem_ite_nil_right, List.mem_map, Option.mem_toList] at h
  obtain (hlead | ⟨-, rfl⟩) | ⟨n, hn, rfl⟩ := h
  · obtain ⟨head, word, rfl, hhead, hword⟩ := leadingBlocks_split hlead
    refine ⟨head, word, rfl, hhead, hword.imp (fun h => ?_) .inl⟩
    exact List.mem_append_left [['b', 'l', 'k']] h
  · exact ⟨_, _, rfl, plain_toDigits _, .inl (by decide)⟩
  · exact ⟨_, _, rfl, plain_toNiceNumber n, .inr (.inr ⟨by rw [hn]; rfl, rfl⟩)⟩

/-- A word that no number contains is found in a block only in the word of the block. -/
theorem find_in_nameBlocks {p : Params ℚ} {x : Char} (hx : ¬ Plain x) {sub b : List Char}
    (hb : b ∈ nameBlocks p) (h : x :: sub <:+: b) :
    (∃ word ∈ [['o', 'p', 's'], [], ['r', 'q'], ['n', 'l'], ['i'], ['m'], ['h'], ['t'], ['b', 'l', 'k']],
        (find (x :: sub) word).isSome = true) ∨
      p.mix = true ∧ (find (x :: sub) ['m', 'i', 'x']).isSome = true ∨
      p.bulkloadCnt.isSome = true ∧
        (find (x :: sub) ['b', 'u', 'l', 'k', 'l', 'o', 'a', 'd']).isSome = true := by
  obtain ⟨head, word, rfl, hhead, hword⟩ := nameBlocks_split hb
  rw [infix_plain_append hx sub hhead, ← find_isSome] at h
  obtain hword | ⟨hmix, rfl⟩ | ⟨hbulk, rfl⟩ := hword
  · exact .inl ⟨word, hword, h⟩
  · exact .inr (.inl ⟨hmix, h⟩)
  · exact .inr (.inr ⟨hbulk, h⟩)

theorem mix_in_nameBlocks (p : Params ℚ) :
    (∃ b ∈ nameBlocks p, ['m', 'i', 'x'] <:+: b) ↔ p.mix = true := by
  constructor
  · rintro ⟨b, hb, h⟩
    obtain h | ⟨hmix, -⟩ | ⟨-, h⟩ := find_in_nameBlocks (by decide) hb h
    · exact absurd h (by decide)
    · exact hmix
    · exact absurd h (by decide)
  · intro h
    exact ⟨_, by simp [nameBlocks, leadingBlocks, h], List.infix_refl _⟩

theorem bulkload_in_nameBlocks (p : Params ℚ) :
    (∃ b ∈ nameBlocks p, ['b', 'u', 'l', 'k', 'l', 'o', 'a', 'd'] <:+: b) ↔
      p.bulkloadCnt.isSome = true := by
  constructor
  · rintro ⟨b, hb, h⟩
    obtain h | ⟨-, h⟩ | ⟨hbulk, -⟩ := find_in_nameBlocks (by decide) hb h
    · exact absurd h (by decide)
    · exact absurd h (by decide)
    · exact hbulk
  · intro h
    obtain ⟨n, hn⟩ := Option.isSome_iff_exists.mp h
    refine ⟨toNiceNumber n ++ _, ?_, (List.suffix_append _ _).isInfix⟩
    simp [nameBlocks, hn]

theorem slash_notMem (p : Params ℚ) : '/' ∉ (nameBlocks p).flatMap ('_' :: ·) := by
  intro h
  obtain ⟨b, hb, h⟩ := List.mem_flatMap.mp h
  have hmem : '/' ∈ b := (List.mem_cons.mp h).resolve_left (by decide)
  obtain h | ⟨-, h⟩ | ⟨-, h⟩ := find_in_nameBlocks (x := '/') (by decide) hb
    ((List.singleton_infix_iff '/' b).mpr hmem)
  · exact absurd h (by decide)
  · exact absurd h (by decide)
  · exact absurd h (by decide)

end Letters

section Patterns

theorem decimalPat_infix (tail : List Char) {s : List Char} (h : decimalPat tail s ≠ none) : tail <:+: s := by
  unfold decimalPat at h
  split at h
  · rename_i rest hrest
    split at h
    · rename_i hmatch
      calc
        tail <:+: rest.dropWhile Char.isDigit := hmatch.2.isInfix
        _ <:+: rest := (List.dropWhile_suffix _).isInfix
        _ <:+: '.' :: rest := (List.suffix_cons _ _).isInfix
        _ <:+: s := hrest ▸ (List.dropWhile_suffix _).isInfix
    · exact (h rfl).elim
  · exact (h rfl).elim

theorem countPat_infix (tail : List Char) {s : List Char} (h : countPat tail s ≠ none) : tail <:+: s := by
  unfold countPat at h
  split at h
  · rename_i hmatch
    exact hmatch.2.isInfix.trans (List.dropWhile_suffix _).isInfix
  · exact (h rfl).elim

theorem decimalPat_within {tail : List Char} (htail : '_' ∉ tail) :
    WithinBlock '_' (decimalPat tail) := by
  refine ⟨rfl, fun s t => ?_⟩
  obtain ⟨htake, hdrop⟩ := span_append_sep Char.isDigit '_' rfl s t
  unfold decimalPat
  rw [htake, hdrop]
  cases s.dropWhile Char.isDigit with
  | nil => rfl
  | cons c rest =>
    obtain ⟨htake', hdrop'⟩ := span_append_sep Char.isDigit '_' rfl rest t
    rw [List.cons_append]
    by_cases hc : c = '.'
    · subst hc
      simp only [htake', hdrop', prefix_append_sep htail]
    · split
      · rename_i hcons
        exact (hc (List.cons.inj hcons).1).elim
      · split
        · rename_i hcons
          exact (hc (List.cons.inj hcons).1).elim
        · rfl

theorem countPat_within {tail : List Char} (htail : '_' ∉ tail) : WithinBlock '_' (countPat tail) := by
  constructor
  · rfl
  · intro s t
    obtain ⟨htake, hdrop⟩ := span_append_sep Char.isDigit '_' rfl s t
    simp only [countPat, htake, hdrop, prefix_append_sep htail]

/-- The pattern finds a printed double that its word follows. -/
theorem decimalPat_toStringDouble (x : ℚ) {c : Char} (hc : c.isDigit = false) (tail : List Char) :
    decimalPat (c :: tail) (toStringDouble x ++ c :: tail) =
      some (Nat.toDigits 10 (micros x / 1000000), padded 6 (micros x % 1000000)) := by
  obtain ⟨htake, hdrop⟩ := span_append_of_all (p := Char.isDigit)
    (fun d => isDigit_of_mem_toDigits (n := micros x / 1000000)) (x := '.') rfl
    (padded 6 (micros x % 1000000) ++ c :: tail)
  obtain ⟨htake', hdrop'⟩ := span_append_of_all (p := Char.isDigit)
    (fun d => isDigit_of_mem_padded 6 (micros x % 1000000)) hc tail
  rw [toStringDouble, List.append_assoc, List.cons_append]
  unfold decimalPat
  rw [hdrop, htake]
  simp only [htake', hdrop']
  rw [if_pos ⟨Nat.toDigits_ne_nil, List.prefix_refl _⟩]

theorem countPat_toDigits (n : Nat) {c : Char} (hc : c.isDigit = false) (tail : List Char) :
    countPat (c :: tail) (Nat.toDigits 10 n ++ c :: tail) = some (Nat.toDigits 10 n) := by
  obtain ⟨htake, hdrop⟩ := span_append_of_all (p := Char.isDigit)
    (fun d => isDigit_of_mem_toDigits (n := n)) hc tail
  unfold countPat
  rw [htake, hdrop, if_pos ⟨Nat.toDigits_ne_nil, List.prefix_refl _⟩]

end Patterns

section Reading

variable {filename : List Char} {p : Params ℚ}

theorem length_of_resolveType {t : Files.DataType} (h : resolveType filename = some t) :
    4 ≤ filename.length := by
  have hsuffix : (getSuffix filename).length = 6 := by
    unfold resolveType at h
    dsimp only at h
    split_ifs at h with h₁ h₂ h₃
    · rw [h₁]; rfl
    · rw [h₂]; rfl
    · rw [h₃]; rfl
  have hle : (getSuffix filename).length ≤ filename.length := by
    unfold getSuffix
    split
    · rw [List.length_reverse, show filename.length = filename.reverse.length from List.length_reverse.symm]
      exact (List.takeWhile_sublist _).length_le
    · exact Nat.zero_le _
  omega

theorem datasetName_of_find {s : List Char} {n : Nat}
    (h : find ['d', 'a', 't', 'a', '/'] s = some n) : datasetName s = s.drop (n + 5) := by
  have hdata : find "data/".toList s = some n := h
  rw [datasetName, hdata]

theorem datasetName_of_find_none {s : List Char} (h : find ['d', 'a', 't', 'a', '/'] s = none) :
    datasetName s = s.drop 4 := by
  have hdata : find "data/".toList s = none := h
  rw [datasetName, hdata]

/-- The directory in front of `data/` is cut off the name of the data file. -/
theorem datasetName_opFilename (hlen : 4 ≤ filename.length) :
    datasetName (opFilename filename p) =
      datasetName filename ++ (nameBlocks p).flatMap ('_' :: ·) := by
  have hfind := find_append ['d', 'a', 't', 'a'] (slash_notMem p) filename
  rw [opFilename_eq]
  cases h : find ['d', 'a', 't', 'a', '/'] filename with
  | none =>
    rw [datasetName_of_find_none (hfind.trans h), datasetName_of_find_none h]
    exact List.drop_append_of_le_length hlen
  | some n =>
    rw [datasetName_of_find (hfind.trans h), datasetName_of_find h]
    exact List.drop_append_of_le_length (find_le h)

theorem mix_in_name (filename : List Char) (p : Params ℚ) : (find "mix".toList (datasetName filename ++
    (nameBlocks p).flatMap ('_' :: ·))).isSome = true ↔
      "mix".toList <:+: datasetName filename ∨ p.mix = true := by
  change (find ['m', 'i', 'x'] _).isSome = true ↔ ['m', 'i', 'x'] <:+: _ ∨ _
  rw [find_isSome, infix_blocks (by simp) (by decide), ← mix_in_nameBlocks p]
  simp

theorem bulkload_in_name (filename : List Char) (p : Params ℚ) : (find "bulkload".toList (datasetName filename ++
    (nameBlocks p).flatMap ('_' :: ·))).isSome = true ↔
      "bulkload".toList <:+: datasetName filename ∨ p.bulkloadCnt.isSome = true := by
  change (find ['b', 'u', 'l', 'k', 'l', 'o', 'a', 'd'] _).isSome = true ↔
    ['b', 'u', 'l', 'k', 'l', 'o', 'a', 'd'] <:+: _ ∨ _
  rw [find_isSome, infix_blocks (by simp) (by decide), ← bulkload_in_nameBlocks p]
  simp

theorem search_rq :
    search (decimalPat "rq".toList) (datasetName filename ++ (nameBlocks p).flatMap ('_' :: ·)) =
      (search (decimalPat "rq".toList) (datasetName filename)).or
        (some (Nat.toDigits 10 (micros p.rangeQueryRatio / 1000000),
          padded 6 (micros p.rangeQueryRatio % 1000000))) := by
  have hops : search (decimalPat ['r', 'q']) ['o', 'p', 's'] = none := by decide
  have hcnt := search_eq_none (fun s => decimalPat_infix ['r', 'q'])
    (not_infix_plain (by decide) ['q'] (plain_toNiceNumber p.opCnt))
  have hrq := search_of_match (decimalPat_toStringDouble p.rangeQueryRatio (c := 'r') rfl ['q'])
  change search (decimalPat ['r', 'q']) _ = (search (decimalPat ['r', 'q']) _).or _
  rw [(decimalPat_within (by decide)).search_blocks]
  simp only [nameBlocks, leadingBlocks, List.findSome?_append, List.findSome?_cons, hops, hcnt, hrq,
    Option.some_or]

theorem search_i :
    search (decimalPat "i".toList) (datasetName filename ++ (nameBlocks p).flatMap ('_' :: ·)) =
      (search (decimalPat "i".toList) (datasetName filename)).or
        (some (Nat.toDigits 10 (micros p.insertRatio / 1000000),
          padded 6 (micros p.insertRatio % 1000000))) := by
  have hops : search (decimalPat ['i']) ['o', 'p', 's'] = none := by decide
  have hcnt := search_eq_none (fun s => decimalPat_infix ['i'])
    (not_infix_plain (by decide) [] (plain_toNiceNumber p.opCnt))
  have hrq : search (decimalPat ['i']) (toStringDouble p.rangeQueryRatio ++ ['r', 'q']) = none := by
    refine search_eq_none (fun s => decimalPat_infix ['i']) ?_
    rw [infix_plain_append (by decide) [] (plain_toStringDouble _), ← find_isSome]
    decide
  have hnl : search (decimalPat ['i']) (toStringDouble p.negativeLookupRatio ++ ['n', 'l']) = none := by
    refine search_eq_none (fun s => decimalPat_infix ['i']) ?_
    rw [infix_plain_append (by decide) [] (plain_toStringDouble _), ← find_isSome]
    decide
  have hi := search_of_match (decimalPat_toStringDouble p.insertRatio (c := 'i') rfl [])
  change search (decimalPat ['i']) _ = (search (decimalPat ['i']) _).or _
  rw [(decimalPat_within (by decide)).search_blocks]
  simp only [nameBlocks, leadingBlocks, List.findSome?_append, List.findSome?_cons, hops, hcnt, hrq,
    hnl, hi, Option.some_or]

theorem search_blk :
    search (countPat "blk".toList) (datasetName filename ++ (nameBlocks p).flatMap ('_' :: ·)) =
      (search (countPat "blk".toList) (datasetName filename)).or
        (if 1 < p.blockNum then some (Nat.toDigits 10 p.blockNum) else none) := by
  have hlead : (leadingBlocks p).findSome? (search (countPat ['b', 'l', 'k'])) = none := by
    rw [List.findSome?_eq_none_iff]
    intro b hb
    obtain ⟨head, word, rfl, hhead, hword⟩ := leadingBlocks_split hb
    refine search_eq_none (fun s => countPat_infix ['b', 'l', 'k']) ?_
    rw [infix_plain_append (by decide) ['l', 'k'] hhead, ← find_isSome]
    obtain hword | ⟨-, rfl⟩ := hword
    · have hwords : ∀ word ∈ [['o', 'p', 's'], [], ['r', 'q'], ['n', 'l'], ['i'], ['m'], ['h'], ['t']],
          ¬(find ['b', 'l', 'k'] word).isSome = true := by decide
      exact hwords word hword
    · decide
  have hbulk : ∀ n, search (countPat ['b', 'l', 'k'])
      (toNiceNumber n ++ ['b', 'u', 'l', 'k', 'l', 'o', 'a', 'd']) = none := by
    intro n
    refine search_eq_none (fun s => countPat_infix ['b', 'l', 'k']) ?_
    rw [infix_plain_append (by decide) ['l', 'k'] (plain_toNiceNumber n), ← find_isSome]
    decide
  have hblk := search_of_match (countPat_toDigits p.blockNum (c := 'b') rfl ['l', 'k'])
  change search (countPat ['b', 'l', 'k']) _ = (search (countPat ['b', 'l', 'k']) _).or _
  rw [(countPat_within (by decide)).search_blocks]
  simp only [nameBlocks, List.findSome?_append, hlead, Option.none_or]
  congr 1
  split
  · simp only [List.findSome?_cons, hblk, Option.some_or]
  · cases p.bulkloadCnt <;> simp [hbulk]

end Reading

section Recovery

variable {filename : List Char} {p : Params ℚ}

/-- The blocks `Benchmark` should run the workload in. -/
def expectedBlocks (p : Params ℚ) : Nat := if 1 < p.blockNum then p.blockNum else 1

/-- `Benchmark` takes the parameters that matter to it from the name that `generate` wrote. -/
def Recovers (filename : List Char) (p : Params ℚ) : Prop :=
  ∃ info, readFilename (opFilename filename p) p.threadNum = some info ∧
    info.isMix = p.mix ∧ info.numBlocks = expectedBlocks p ∧
    (0 < info.insertRatio ↔ 0 < p.insertRatio) ∧ (info.insertRatio = 1 ↔ p.insertRatio = 1) ∧
    (info.isRangeQuery = true ↔ 0 < p.rangeQueryRatio) ∧
    (info.loadsBulkLoad = true ↔ hasInserts p = true ∨ p.bulkloadCnt.isSome = true)

/-- The name of the dataset holds nothing that reads like another parameter, six digits keep the
ratios apart from 0 and 1, and a workload in blocks has both inserts and queries. -/
structure Unambiguous (name : List Char) (p : Params ℚ) : Prop where
  mix : "mix".toList <:+: name → p.mix = true
  blocks : (search (countPat "blk".toList) name).elim (p.blockNum ≤ 2147483647)
    fun ds => stoi ds = some (expectedBlocks p)
  insertRatio : (search (decimalPat "i".toList) name).elim
    ((0 < p.insertRatio → 1 / 2000000 < p.insertRatio) ∧
      (1 - 1 / 2000000 ≤ p.insertRatio → p.insertRatio = 1))
    fun d => (0 < stod d ↔ 0 < p.insertRatio) ∧ (stod d = 1 ↔ p.insertRatio = 1)
  rangeQueryRatio : (search (decimalPat "rq".toList) name).elim
    (0 < p.rangeQueryRatio → 1 / 2000000 < p.rangeQueryRatio)
    fun d => 0 < stod d ↔ 0 < p.rangeQueryRatio
  bulkload : "bulkload".toList <:+: name → 0 < p.insertRatio ∨ p.bulkloadCnt.isSome = true
  phases : 1 < p.blockNum → 0 < p.insertRatio ∧ p.insertRatio < 1

theorem hasInserts_iff : hasInserts p = true ↔ 0 < p.insertRatio := by
  rw [hasInserts]
  change decide (((0 : Nat) : ℚ) < p.insertRatio) = true ↔ _
  rw [decide_eq_true_iff, Nat.cast_zero]

theorem benchmarkFlag_iff {isMix : Bool} {r : ℚ} :
    benchmarkFlag isMix r = true ↔ isMix = true ∨ r = 0 ∨ r = 1 := by
  have hequals : ∀ n : Nat, (Double.le r (n : ℚ) && Double.le (n : ℚ) r) = true ↔ r = n := by
    intro n
    change (decide (r ≤ n) && decide ((n : ℚ) ≤ r)) = true ↔ _
    rw [Bool.and_eq_true, decide_eq_true_iff, decide_eq_true_iff, le_antisymm_iff]
  change ((isMix || (Double.le r ((0 : Nat) : ℚ) && Double.le ((0 : Nat) : ℚ) r)) ||
    (Double.le r ((1 : Nat) : ℚ) && Double.le ((1 : Nat) : ℚ) r)) = true ↔ _
  rw [Bool.or_eq_true, Bool.or_eq_true, hequals, hequals, Nat.cast_zero, Nat.cast_one, or_assoc]

/-- A printed ratio keeps its sign unless it rounds to 0. -/
theorem printed_pos_iff {x : ℚ} (hx : 0 ≤ x) :
    (0 < (micros x : ℚ) / 1000000 ↔ 0 < x) ↔ (0 < x → 1 / 2000000 < x) := by
  have hpos : 0 < (micros x : ℚ) / 1000000 ↔ 1 / 2000000 < x := by
    rw [← micros_pos hx, div_pos_iff_of_pos_right (by norm_num), Nat.cast_pos]
  rw [hpos]
  refine ⟨fun h => h.mpr, fun h => ⟨fun hlt => ?_, h⟩⟩
  linarith

theorem printed_eq_one_iff {x : ℚ} (hx : 0 ≤ x) (hx1 : x ≤ 1) :
    ((micros x : ℚ) / 1000000 = 1 ↔ x = 1) ↔ (1 - 1 / 2000000 ≤ x → x = 1) := by
  have hone : (micros x : ℚ) / 1000000 = 1 ↔ 1 - 1 / 2000000 ≤ x := by
    rw [← micros_eq_million hx hx1, div_eq_one_iff_eq (by norm_num)]
    norm_cast
  rw [hone]
  refine ⟨fun h => h.mp, fun h => ⟨h, fun heq => ?_⟩⟩
  rw [heq]
  norm_num

theorem insertRatio_read (hp : Accepted p) (name : List Char) :
    let read := ((search (decimalPat "i".toList) name).or
      (some (Nat.toDigits 10 (micros p.insertRatio / 1000000),
        padded 6 (micros p.insertRatio % 1000000)))).elim 0 stod
    0 ≤ read ∧ (((0 < read ↔ 0 < p.insertRatio) ∧ (read = 1 ↔ p.insertRatio = 1)) ↔
      (search (decimalPat "i".toList) name).elim
        ((0 < p.insertRatio → 1 / 2000000 < p.insertRatio) ∧
          (1 - 1 / 2000000 ≤ p.insertRatio → p.insertRatio = 1))
        fun d => (0 < stod d ↔ 0 < p.insertRatio) ∧ (stod d = 1 ↔ p.insertRatio = 1)) := by
  obtain ⟨h0, h1⟩ := hp.insertRatio
  cases search (decimalPat "i".toList) name with
  | none =>
    simp only [Option.none_or, Option.elim, stod_toStringDouble]
    exact ⟨by positivity, and_congr (printed_pos_iff h0) (printed_eq_one_iff h0 h1)⟩
  | some d => exact ⟨stod_nonneg d, Iff.rfl⟩

theorem rangeQueryRatio_read (hp : Accepted p) (name : List Char) :
    (((search (decimalPat "rq".toList) name).or
      (some (Nat.toDigits 10 (micros p.rangeQueryRatio / 1000000),
        padded 6 (micros p.rangeQueryRatio % 1000000)))).elim false (fun d => decide (0 < stod d)) = true
        ↔ 0 < p.rangeQueryRatio) ↔
      (search (decimalPat "rq".toList) name).elim
        (0 < p.rangeQueryRatio → 1 / 2000000 < p.rangeQueryRatio)
        fun d => 0 < stod d ↔ 0 < p.rangeQueryRatio := by
  cases search (decimalPat "rq".toList) name with
  | none =>
    simp only [Option.none_or, Option.elim, stod_toStringDouble, decide_eq_true_iff]
    exact printed_pos_iff hp.rangeQueryRatio.1
  | some d => simp only [Option.some_or, Option.elim, decide_eq_true_iff]

theorem blocks_read (name : List Char) :
    ((search (countPat "blk".toList) name).or
      (if 1 < p.blockNum then some (Nat.toDigits 10 p.blockNum) else none)).elim (some 1) stoi =
        some (expectedBlocks p) ↔
      (search (countPat "blk".toList) name).elim (p.blockNum ≤ 2147483647)
        fun ds => stoi ds = some (expectedBlocks p) := by
  cases search (countPat "blk".toList) name with
  | none =>
    rw [Option.none_or, Option.elim, expectedBlocks]
    split
    · rw [Option.elim, stoi, digitsValue, Nat.ofDigitChars_ten_toDigits]
      split <;> simp [*]
    · simp only [Option.elim, true_iff]
      omega
  | some ds => simp only [Option.some_or, Option.elim]

theorem readFilename_isMix {name : List Char} {n : Nat} {info : FileInfo}
    (h : readFilename name n = some info) : info.isMix = (find "mix".toList (datasetName name)).isSome := by
  obtain ⟨_, -, h⟩ := Option.bind_eq_some_iff.mp h
  dsimp only at h
  split at h
  · cases h
  · cases h
    rfl

theorem recovers_iff {t : Files.DataType} (htype : resolveType filename = some t) (hp : Accepted p) :
    Recovers filename p ↔ Unambiguous (datasetName filename) p := by
  obtain ⟨hnonneg, hinsert⟩ := insertRatio_read hp (datasetName filename)
  have hrange := rangeQueryRatio_read hp (datasetName filename)
  have hblocks := blocks_read (p := p) (datasetName filename)
  have hmix := mix_in_name filename p
  have hbulk := bulkload_in_name filename p
  unfold Recovers readFilename
  rw [datasetName_opFilename (length_of_resolveType htype)]
  simp only [search_rq, search_i, search_blk]
  generalize (find "mix".toList _).isSome = isMix at hmix ⊢
  generalize (find "bulkload".toList _).isSome = isBulk at hbulk ⊢
  generalize Option.elim (Option.or _ (some (_, padded 6 (micros p.insertRatio % 1000000)))) 0 stod =
    insertRatio at hnonneg hinsert ⊢
  generalize Option.elim (Option.or _ (some (_, padded 6 (micros p.rangeQueryRatio % 1000000))))
    false _ = isRange at hrange ⊢
  generalize Option.elim (Option.or _ _) (some 1) stoi = numBlocks at hblocks ⊢
  constructor
  · rintro ⟨info, hread, hmix', hblk, hpos, hone, hrq, hload⟩
    obtain ⟨n, hn, hread⟩ := Option.bind_eq_some_iff.mp hread
    split at hread
    · cases hread
    rename_i hphase
    cases hread
    dsimp only at hmix' hblk hpos hone hrq hload
    subst hblk
    refine ⟨fun h => ?_, hblocks.mp hn, hinsert.mp ⟨hpos, hone⟩, hrange.mp hrq, fun h => ?_, fun h => ?_⟩
    · exact hmix' ▸ hmix.mpr (.inl h)
    · rw [← hasInserts_iff]
      exact hload.mp (Bool.or_eq_true_iff.mpr (.inr (hbulk.mpr (.inl h))))
    · rw [expectedBlocks, if_pos h, benchmarkFlag_iff] at hphase
      have hzero : insertRatio ≠ 0 := fun hz => hphase ⟨h, .inr (.inr (.inl hz))⟩
      have hne : p.insertRatio ≠ 1 := fun h1 => hphase ⟨h, .inr (.inr (.inr (hone.mpr h1)))⟩
      exact ⟨hpos.mp (lt_of_le_of_ne hnonneg hzero.symm), lt_of_le_of_ne hp.insertRatio.2 hne⟩
  · intro h
    obtain ⟨hpos, hone⟩ := hinsert.mpr h.insertRatio
    have hmixEq : isMix = p.mix := by
      rw [Bool.eq_iff_iff, hmix]
      exact ⟨fun hm => hm.elim h.mix id, .inr⟩
    -- A workload in blocks is neither mixed nor dealt out to threads, nor all of one kind.
    have hphase : ¬(1 < expectedBlocks p ∧
        (1 < p.threadNum ∨ benchmarkFlag isMix insertRatio = true)) := by
      rintro ⟨hblk, hflag⟩
      have hmany : 1 < p.blockNum := by
        unfold expectedBlocks at hblk
        split at hblk <;> omega
      obtain ⟨hlo, hhi⟩ := h.phases hmany
      rw [benchmarkFlag_iff, hmixEq] at hflag
      obtain hthread | hmix | hzero | hall := hflag
      · exact hp.blocks ⟨hmany, .inl hthread⟩
      · exact hp.blocks ⟨hmany, .inr hmix⟩
      · exact absurd (hpos.mpr hlo) (by rw [hzero]; exact lt_irrefl 0)
      · exact absurd (hone.mp hall) hhi.ne
    refine ⟨_, Option.bind_eq_some_iff.mpr ⟨_, hblocks.mpr h.blocks, if_neg hphase⟩, hmixEq, rfl, hpos,
      hone, hrange.mpr h.rangeQueryRatio, ?_⟩
    rw [hasInserts_iff, Bool.or_eq_true_iff, decide_eq_true_iff, hpos, hbulk]
    refine ⟨?_, fun hw => hw.imp_right .inr⟩
    rintro (hw | hw | hw)
    · exact .inl hw
    · exact h.bulkload hw
    · exact .inr hw

theorem recovers_iff_blocks :
    let p : Params ℚ :=
      { opCnt := 2000000, rangeQueryRatio := 0, negativeLookupRatio := 1 / 2, insertRatio := 1 / 2,
        pat := .equality, hotspotRatio := 1 / 10, threadNum := 1, mix := false, blockNum := 4,
        bulkloadCnt := none }
    Recovers "data/books_uint64".toList p ↔ Unambiguous (datasetName "data/books_uint64".toList) p :=
  recovers_iff (t := .uint64) rfl (by constructor <;> norm_num)

/-- The name of the dataset passes for the suffix of a mixed workload. -/
theorem mixed_dataset_not_recovered :
    ∃ (filename : List Char) (p : Params ℚ), resolveType filename = some .uint64 ∧ Accepted p ∧
      ¬ Recovers filename p := by
  refine ⟨"data/mixed_uint64".toList,
    { opCnt := 2000000, rangeQueryRatio := 0, negativeLookupRatio := 1 / 2, insertRatio := 1 / 2,
      pat := .equality, hotspotRatio := 1 / 10, threadNum := 1, mix := false, blockNum := 1,
      bulkloadCnt := none }, rfl, ?_, ?_⟩
  · constructor <;> norm_num
  · rintro ⟨info, hread, hmix, -⟩
    rw [readFilename_isMix hread, datasetName_opFilename (by decide)] at hmix
    have hname : "mix".toList <:+: datasetName "data/mixed_uint64".toList :=
      find_isSome.mp (by decide)
    rw [(mix_in_name _ _).mpr (.inl hname)] at hmix
    cases hmix

end Recovery

section Generator

variable {K : Type} [Inhabited K] [LinearOrder K] {keyType : KeyType K ℚ} {data : Dataset K}

theorem isRatio_iff {r : ℚ} : isRatio r = true ↔ 0 ≤ r ∧ r ≤ 1 := by
  change (!decide (r < ((0 : Nat) : ℚ)) && !decide (((1 : Nat) : ℚ) < r)) = true ↔ _
  simp

/-- `main` calls `generate` only with parameters it has accepted. -/
theorem main_accepted {o : Options ℚ} {out : Output K} {tape tape'}
    (h : main keyType o data tape = some (out, tape')) :
    ∃ p, Accepted p ∧ generate keyType p data tape = some (out, tape') ∧
      p.insertRatio = o.insertRatio ∧ p.rangeQueryRatio = o.scanRatio ∧ p.threadNum = o.thread ∧
      p.mix = o.mix ∧ p.blockNum = o.block ∧ p.bulkloadCnt = o.bulkloadCount := by
  simp only [main, bind_eq_some, require_eq_some, ofOption_eq_some, isRatio_iff] at h
  obtain ⟨_, _, ⟨hblocks, rfl⟩, pat, _, ⟨hpat, rfl⟩, _, _, ⟨⟨hneg, hscan, hins⟩, rfl⟩, _, _,
    ⟨hhot, rfl⟩, hgen⟩ := h
  refine ⟨_, ⟨hblocks, fun hnone => ?_, ?_, hscan, hins, ?_⟩, hgen, rfl, rfl, rfl, rfl, rfl, rfl⟩
  · have hlt : Double.lt ((0 : Nat) : ℚ) o.insertRatio = false := by
      change decide (((0 : Nat) : ℚ) < o.insertRatio) = false
      simpa using hnone
    rw [Options.insertPat, hlt] at hpat
    exact (Option.some.inj hpat).symm
  · dsimp only
    split
    · exact ⟨le_refl _, zero_le_one⟩
    · exact hneg
  · change ¬decide (o.hotspotRatio ≤ ((0 : Nat) : ℚ)) = true ∧
      ¬decide (((1 : Nat) : ℚ) < o.hotspotRatio) = true at hhot
    simpa using hhot

/-- The bulk-load file is written for the parameters that `Benchmark` should find it for. -/
theorem generate_writes_bulkload {p : Params ℚ} {out : Output K} {tape tape'}
    (h : generate keyType p data tape = some (out, tape')) :
    out.bulkload.isSome = true ↔ hasInserts p = true ∨ p.bulkloadCnt.isSome = true := by
  simp only [generate, bind_eq_some, require_eq_some, ofOption_eq_some, pure_eq_some] at h
  obtain ⟨_, _, -, _, _, -, _, _, -, _, _, -, _, _, -, _, _, -, _, _, -, _, _, -, _, _, -, _, _, -,
    rfl, -⟩ := h
  split <;> simp_all

end Generator

end LearnedIndex.Workload
