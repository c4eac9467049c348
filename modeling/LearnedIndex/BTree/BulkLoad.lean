import LearnedIndex.BTree.Tree
import Mathlib.Tactic.Ring

/-! `bulk_load`: the data are spread evenly over as few leaves as hold them, and so is every level
of nodes over the one above it. -/

namespace LearnedIndex.BTree

open Util SortedList

/-- As many shares, each of them within these bounds. -/
def Spreads (lo hi shares n : Nat) : Prop := shares * lo ≤ n ∧ n ≤ shares * hi

namespace Spreads

variable {lo hi shares n : Nat}

theorem share (h : Spreads lo hi (shares + 1) n) : lo ≤ n / (shares + 1) ∧ n / (shares + 1) ≤ hi :=
  ⟨(Nat.le_div_iff_mul_le (Nat.succ_pos shares)).mpr (by rw [Nat.mul_comm]; exact h.1),
    Nat.div_le_of_le_mul h.2⟩

/-- What the first share leaves. -/
theorem rest (h : Spreads lo hi (shares + 1) n) : Spreads lo hi shares (n - n / (shares + 1)) := by
  obtain ⟨hlo, hhi⟩ := h.share
  have hdiv := Nat.div_add_mod n (shares + 1)
  have hmod := Nat.mod_lt n (Nat.succ_pos shares)
  generalize n / (shares + 1) = share at hlo hhi hdiv
  generalize n % (shares + 1) = left at hdiv hmod
  have hrest : n - share = shares * share + left := by
    rw [Nat.add_mul, Nat.one_mul] at hdiv
    omega
  rw [hrest]
  refine ⟨Nat.le_add_right_of_le (Nat.mul_le_mul_left shares hlo), ?_⟩
  obtain rfl | hlt := hhi.eq_or_lt
  · have hmax := h.2
    rw [Nat.add_mul, Nat.one_mul] at hmax hdiv
    omega
  · calc shares * share + left ≤ shares * share + shares := by omega
      _ = shares * (share + 1) := by ring
      _ ≤ shares * hi := Nat.mul_le_mul_left shares hlt

/-- Shares that differ by one at most. -/
theorem even (hpos : 0 < shares) : Spreads (n / shares) ((n + shares - 1) / shares) shares n := by
  have hlo := Nat.div_mul_le_self n shares
  have hhi := Nat.div_add_mod (n + shares - 1) shares
  have hmod := Nat.mod_lt (n + shares - 1) hpos
  rw [Nat.mul_comm] at hlo
  exact ⟨hlo, by omega⟩

/-- Such shares keep to all bounds that there are shares for. -/
theorem even_le (h : Spreads lo hi shares n) (hpos : 0 < shares) : lo ≤ n / shares ∧ (n + shares - 1) / shares ≤ hi := by
  constructor
  · rw [Nat.le_div_iff_mul_le hpos, Nat.mul_comm]
    exact h.1
  · rw [← Nat.lt_succ_iff, Nat.div_lt_iff_lt_mul hpos, Nat.succ_mul, Nat.mul_comm]
    have hmax := h.2
    omega

/-- One share fewer would not do. -/
theorem of_ceil (hn : 0 < n) (hhi : 0 < hi) :
    0 < (n + hi - 1) / hi ∧ ((n + hi - 1) / hi - 1) * hi < n ∧ n ≤ (n + hi - 1) / hi * hi := by
  have hdiv := Nat.div_add_mod (n + hi - 1) hi
  have hmod := Nat.mod_lt (n + hi - 1) hhi
  have hpos : 0 < (n + hi - 1) / hi := Nat.div_pos (by omega) hhi
  generalize (n + hi - 1) / hi = shares at hdiv hpos
  obtain ⟨shares, rfl⟩ : ∃ k, shares = k + 1 := ⟨shares - 1, by omega⟩
  rw [Nat.mul_comm] at hdiv
  rw [Nat.add_mul, Nat.one_mul] at hdiv ⊢
  rw [Nat.add_sub_cancel]
  omega

end Spreads

variable {K : Type} {t : Traits}

/-- Leaves that are at least half full, unless there is just one. -/
theorem Traits.spreads_leaves (t : Traits) {n : Nat} (hn : 0 < n) :
    Spreads (if t.numLeaves n = 1 then 1 else t.minleafslots) t.leafslotmax (t.numLeaves n) n ∧ 0 < t.numLeaves n := by
  have hmax := t.leafslotmax_ge
  obtain ⟨hpos, hlo, hhi⟩ := Spreads.of_ceil hn (show 0 < t.leafslotmax by omega)
  change 0 < t.numLeaves n at hpos
  change (t.numLeaves n - 1) * t.leafslotmax < n at hlo
  refine ⟨⟨?_, hhi⟩, hpos⟩
  split_ifs with hone
  · rw [hone]
    omega
  · have hhalf : 2 * t.minleafslots ≤ t.leafslotmax := Nat.mul_div_le _ _
    generalize t.numLeaves n = leaves at hpos hlo hone
    obtain ⟨leaves, rfl⟩ : ∃ k, leaves = k + 2 := ⟨leaves - 2, by omega⟩
    calc (leaves + 2) * t.minleafslots ≤ (leaves + 1) * (2 * t.minleafslots) := by
          rw [← Nat.mul_assoc]
          exact Nat.mul_le_mul_right _ (by omega)
      _ ≤ (leaves + 1) * t.leafslotmax := Nat.mul_le_mul_left _ hhalf
      _ ≤ n := hlo.le

/-- Nodes that have enough children, as the root does that is the only one. -/
theorem Traits.spreads_parents (t : Traits) {n : Nat} (hn : 2 ≤ n) :
    Spreads ((if t.numParents n = 1 then 1 else t.mininnerslots) + 1) (t.innerslotmax + 1) (t.numParents n) n ∧
      0 < t.numParents n ∧ t.numParents n < n := by
  have hmax := t.innerslotmax_ge
  obtain ⟨hpos, hlo, hhi⟩ := Spreads.of_ceil (show 0 < n by omega) (Nat.succ_pos t.innerslotmax)
  change 0 < t.numParents n at hpos
  change (t.numParents n - 1) * (t.innerslotmax + 1) < n at hlo
  refine ⟨⟨?_, hhi⟩, hpos, ?_⟩
  · split_ifs with hone
    · rw [hone]
      omega
    · have hhalf : 2 * t.mininnerslots ≤ t.innerslotmax := Nat.mul_div_le _ _
      generalize t.numParents n = parents at hpos hlo hone
      obtain ⟨parents, rfl⟩ : ∃ k, parents = k + 2 := ⟨parents - 2, by omega⟩
      have hsmall : parents * t.mininnerslots ≤ parents * t.innerslotmax := Nat.mul_le_mul_left _ (by omega)
      calc (parents + 2) * (t.mininnerslots + 1)
          = parents * t.mininnerslots + parents + (2 * t.mininnerslots + 2) := by ring
        _ ≤ parents * t.innerslotmax + parents + (t.innerslotmax + 2) := by omega
        _ = (parents + 1) * (t.innerslotmax + 1) + 1 := by ring
        _ ≤ n := hlo
  · generalize t.numParents n = parents at hpos hlo
    obtain ⟨parents, rfl⟩ : ∃ k, parents = k + 1 := ⟨parents - 1, by omega⟩
    rw [Nat.add_sub_cancel] at hlo
    have hfew : parents * 2 ≤ parents * (t.innerslotmax + 1) := Nat.mul_le_mul_left _ (by omega)
    omega

/-- The loop over the leaves. -/
theorem loadLeaves_spec {lo hi numLeaves : Nat} {data : List (KeyValue K)} {m : Memory K} {ls : List (Leaf K)}
    (hchains : m.Chains ls) (hspreads : Spreads lo hi numLeaves data.length) :
    Returns (loadLeaves numLeaves data m) fun m' => ∃ new, m'.Chains (ls ++ new) ∧ items new = data ∧
      new.length = numLeaves ∧ (∀ l ∈ new, lo ≤ l.2.length ∧ l.2.length ≤ hi) ∧
      m'.stats = { m.stats with leaves := m.stats.leaves + numLeaves } := by
  induction numLeaves generalizing data m ls with
  | zero =>
    obtain rfl : data = [] := List.length_eq_zero_iff.mp (by have := hspreads.2; omega)
    exact Returns.some_iff.mpr ⟨[], by simpa using hchains, rfl, rfl, by simp, rfl⟩
  | succ numLeaves ih =>
    obtain ⟨hlo, hhi⟩ := hspreads.share
    have hrest := hspreads.rest
    have hle : data.length / (numLeaves + 1) ≤ data.length := Nat.div_le_self _ _
    rw [loadLeaves]
    dsimp only
    generalize data.length / (numLeaves + 1) = slotuse at hlo hhi hrest hle
    have happend := Memory.append_spec hchains (data.take slotuse)
    rw [← bind_assoc]
    apply happend.bind
    rintro m' ⟨hchains', hstats⟩
    have hlen : (data.drop slotuse).length = data.length - slotuse := List.length_drop
    rw [← hlen] at hrest
    apply (ih hchains' hrest).mono
    rintro m'' ⟨new, hchains'', hitems, hcount, hsizes, hstats'⟩
    refine ⟨(m.allocateLeaf.1, data.take slotuse) :: new, by simpa using hchains'', ?_, ?_, ?_, ?_⟩
    · rw [items_cons, hitems, List.take_append_drop]
    · rw [List.length_cons, hcount]
    · intro l hl
      obtain rfl | hl := List.mem_cons.mp hl
      · rw [List.length_take, min_eq_left hle]
        exact ⟨hlo, hhi⟩
      · exact hsizes l hl
    · rw [hstats', hstats, Nat.add_comm numLeaves 1, ← Nat.add_assoc]

/-- A node of a level with its largest key. -/
def Child (t : Traits) (root : Bool) (level : Nat) (c : Node K level × K) (ls : List (Leaf K)) : Prop :=
  Holds t root level c.1 ls ∧ maxKey ls = some c.2

section Levels

variable {root : Bool} {level : Nat} {cs : List (Node K level × K)} {lss : List (List (Leaf K))}

theorem divides_of_children (h : List.Forall₂ (Child t root level) cs lss) (hne : cs ≠ []) :
    Divides (cs.dropLast.map Prod.snd) lss := by
  induction h with
  | nil => exact absurd rfl hne
  | @cons c ls cs lss hc h ih =>
    cases h with
    | nil => exact .last ls
    | @cons c' ls' cs lss hc' h => exact .cons hc.2 (ih (List.cons_ne_nil _ _))

theorem maxKey_of_children (h : List.Forall₂ (Child t root level) cs lss) {c : Node K level × K}
    (hlast : cs.getLast? = some c) : maxKey lss.flatten = some c.2 := by
  induction h with
  | nil => cases hlast
  | @cons c' ls cs lss hc h ih =>
    rw [List.flatten_cons]
    cases h with
    | nil =>
      obtain rfl : c' = c := by simpa using hlast
      simpa using hc.2
    | @cons c'' ls' cs lss hc' h =>
      have hmax := ih (by simpa using hlast)
      rw [maxKey_append (items_ne_nil hmax), hmax]

theorem parentOf_spec (h : List.Forall₂ (Child t false level) cs lss)
    (hmin : (if root then 1 else t.mininnerslots) + 1 ≤ cs.length) (hmax : cs.length ≤ t.innerslotmax + 1) :
    Returns (parentOf cs) fun parent => Child t root (level + 1) parent lss.flatten ∧
      innernodes (level + 1) parent.1 = (cs.map fun c => innernodes level c.1).sum + 1 := by
  have hne : cs ≠ [] := List.ne_nil_of_length_pos (by omega)
  obtain ⟨last, hlast⟩ := Option.ne_none_iff_exists'.mp (mt List.getLast?_eq_none_iff.mp hne)
  have hlen : (cs.dropLast.map Prod.snd).length = cs.length - 1 := by simp
  rw [parentOf, hlast, Option.bind_eq_bind, Option.bind_some, Option.pure_def, Returns.some_iff]
  refine ⟨⟨⟨lss, rfl, divides_of_children h hne, ?_, ?_, ?_⟩, maxKey_of_children h hlast⟩, ?_⟩
  · exact List.forall₂_map_left_iff.mpr (h.imp fun c ls hc => hc.1)
  · rw [hlen]
    omega
  · rw [hlen]
    omega
  · simp [innernodes, Function.comp_def]

/-- A level of nodes over another one. -/
theorem loadLevel_spec (root : Bool) {numParents : Nat} (h : List.Forall₂ (Child t false level) cs lss)
    (hspreads : Spreads ((if root then 1 else t.mininnerslots) + 1) (t.innerslotmax + 1) numParents cs.length) :
    Returns (loadLevel numParents cs) fun parents => ∃ lss', List.Forall₂ (Child t root (level + 1)) parents lss' ∧
      lss'.flatten = lss.flatten ∧ parents.length = numParents ∧
      (parents.map fun c => innernodes (level + 1) c.1).sum =
        (cs.map fun c => innernodes level c.1).sum + numParents := by
  induction numParents generalizing cs lss with
  | zero =>
    obtain rfl : cs = [] := List.length_eq_zero_iff.mp (by have := hspreads.2; omega)
    obtain rfl := List.forall₂_nil_left_iff.mp h
    exact Returns.some_iff.mpr ⟨[], .nil, rfl, rfl, rfl⟩
  | succ numParents ih =>
    obtain ⟨hlo, hhi⟩ := hspreads.share
    have hrest := hspreads.rest
    have hle : cs.length / (numParents + 1) ≤ cs.length := Nat.div_le_self _ _
    rw [loadLevel]
    generalize cs.length / (numParents + 1) = children at hlo hhi hrest hle
    have htake : (cs.take children).length = children := List.length_take_of_le hle
    have hdrop : (cs.drop children).length = cs.length - children := List.length_drop
    have hfirst := parentOf_spec (List.forall₂_take children h) (by rw [htake]; exact hlo) (by rw [htake]; exact hhi)
    apply hfirst.bind
    rintro parent ⟨hparent, hinner⟩
    rw [← hdrop] at hrest
    apply (ih (List.forall₂_drop children h) hrest).bind
    rintro parents ⟨lss', hparents, hleaves, hcount, hinners⟩
    refine Returns.some_iff.mpr ⟨(lss.take children).flatten :: lss', .cons hparent hparents, ?_, ?_, ?_⟩
    · rw [List.flatten_cons, hleaves, ← List.flatten_append, List.take_append_drop]
    · rw [List.length_cons, hcount]
    · have hsum := congrArg List.sum (congrArg (List.map fun c => innernodes level c.1) (List.take_append_drop children cs))
      rw [List.map_append, List.sum_append] at hsum
      rw [List.map_cons, List.sum_cons, hinner, hinners]
      omega

/-- The levels up to the root: every one has fewer nodes than the one below it. -/
theorem loadLevels_spec {fuel : Nat} (hne : cs ≠ [])
    (h : List.Forall₂ (Child t (decide (cs.length = 1)) level) cs lss) (hfuel : cs.length ≤ fuel) :
    Returns (loadLevels t fuel level cs) fun (root, inner) => Holds t true root.1 root.2 lss.flatten ∧
      innernodes root.1 root.2 = (cs.map fun c => innernodes level c.1).sum + inner := by
  induction fuel generalizing level cs lss with
  | zero => exact absurd (List.length_eq_zero_iff.mp (Nat.le_zero.mp hfuel)) hne
  | succ fuel ih =>
    cases h with
    | nil => exact absurd rfl hne
    | @cons c ls cs lss hc h =>
      cases h with
      | nil =>
        refine Returns.some_iff.mpr ⟨?_, ?_⟩
        · rw [List.flatten_singleton]
          exact hc.1
        · simp
      | @cons c' ls' cs lss hc' h =>
        have hmany : ¬(c :: c' :: cs).length = 1 := by simp
        have hchildren : List.Forall₂ (Child t false level) (c :: c' :: cs) (ls :: ls' :: lss) := by
          rw [decide_eq_false hmany] at hc hc' h
          exact .cons hc (.cons hc' h)
        have htwo : 2 ≤ (c :: c' :: cs).length := by simp
        rw [loadLevels]
        · generalize c :: c' :: cs = cs at hchildren htwo hfuel
          obtain ⟨hspreads, hpos, hfewer⟩ := t.spreads_parents htwo
          generalize t.numParents cs.length = numParents at hspreads hpos hfewer
          have hspreads' : Spreads ((if decide (numParents = 1) then 1 else t.mininnerslots) + 1)
              (t.innerslotmax + 1) numParents cs.length := by simpa only [decide_eq_true_eq] using hspreads
          apply (loadLevel_spec _ hchildren hspreads').bind
          rintro parents ⟨lss', hparents, hleaves, hcount, hinner⟩
          subst hcount
          have hfuel' : parents.length ≤ fuel := Nat.le_of_lt_succ (hfewer.trans_le hfuel)
          apply (ih (List.ne_nil_of_length_pos hpos) hparents hfuel').bind
          rintro ⟨root, inner⟩ ⟨hroot, hinner'⟩
          refine Returns.some_iff.mpr ⟨hleaves ▸ hroot, ?_⟩
          calc innernodes root.1 root.2
              = _ := hinner'
            _ = (cs.map fun c => innernodes level c.1).sum + parents.length + inner := congrArg (· + inner) hinner
            _ = _ := by rw [Nat.add_assoc, Nat.add_comm parents.length]
        · rintro n k ⟨⟩

end Levels

section Parents

variable {m : Memory K} {before ls after : List (Leaf K)}

/-- The leaves as nodes with their largest keys. -/
theorem exists_children (hls : ∀ l ∈ ls, t.minleafslots ≤ l.2.length ∧ l.2.length ≤ t.leafslotmax) :
    ∃ cs : List (Pointer × K), List.Forall₂ (Child t false 0) cs (ls.map fun l => [l]) := by
  induction ls with
  | nil => exact ⟨[], .nil⟩
  | cons l ls ih =>
    obtain ⟨cs, hcs⟩ := ih fun l hl => hls l (List.mem_cons_of_mem _ hl)
    obtain ⟨hmin, hmax⟩ := hls l List.mem_cons_self
    have hne : l.2 ≠ [] := List.ne_nil_of_length_pos (t.minleafslots_pos.trans_le hmin)
    obtain ⟨last, hlast⟩ := Option.ne_none_iff_exists'.mp (mt List.getLast?_eq_none_iff.mp hne)
    exact ⟨(l.1, last.key) :: cs, .cons ⟨⟨l.2, rfl, hmin, hmax⟩, by simp [maxKey, hlast]⟩ hcs⟩

theorem takeLeaves_spec {cs : List (Pointer × K)} (hchains : m.Chains (before ++ ls))
    (h : List.Forall₂ (Child t false 0) cs (ls.map fun l => [l])) {n : Nat} (hn : n ≤ cs.length) :
    takeLeaves m n (ls.map Prod.fst).head? = some (cs.take n, ((ls.drop n).map Prod.fst).head?) := by
  induction n generalizing before ls cs with
  | zero => rfl
  | succ n ih =>
    cases h' : ls with
    | nil =>
      subst h'
      obtain rfl := List.forall₂_nil_right_iff.mp h
      cases hn
    | cons l ls' =>
      subst h'
      obtain ⟨c, cs, hc, hcs, rfl⟩ := List.forall₂_cons_right_iff.mp h
      obtain ⟨p, xs⟩ := l
      obtain ⟨q, k⟩ := c
      obtain ⟨⟨slots, hslots, -⟩, hmax⟩ := hc
      obtain ⟨rfl, rfl⟩ := Prod.mk.inj (List.cons.inj hslots).1
      obtain ⟨last, hlast, rfl⟩ := Option.map_eq_some_iff.mp hmax
      have hlast' : xs.getLast? = some last := by simpa using hlast
      have hrest : m.Chains ((before ++ [(p, xs)]) ++ ls') := by simpa using hchains
      have ih' := ih hrest hcs (Nat.le_of_succ_le_succ hn)
      rw [List.map_cons, List.head?_cons, takeLeaves]
      simp only [Option.bind_eq_bind, Option.bind_some, hchains.get, hlast', ih']
      rfl

theorem loadParents_eq {cs : List (Pointer × K)} (hchains : m.Chains (before ++ ls))
    (h : List.Forall₂ (Child t false 0) cs (ls.map fun l => [l])) (numParents : Nat) :
    loadParents m numParents cs.length (ls.map Prod.fst).head? = loadLevel numParents cs := by
  induction numParents generalizing before ls cs with
  | zero => rfl
  | succ numParents ih =>
    have hle : cs.length / (numParents + 1) ≤ cs.length := Nat.div_le_self _ _
    rw [loadParents, loadLevel]
    dsimp only
    generalize cs.length / (numParents + 1) = children at hle
    have hrest : m.Chains ((before ++ ls.take children) ++ ls.drop children) := by
      rwa [List.append_assoc, List.take_append_drop]
    have hcs := List.forall₂_drop children h
    rw [← List.map_drop] at hcs
    have ih' : loadParents m numParents (cs.length - children) ((ls.drop children).map Prod.fst).head? =
        loadLevel numParents (cs.drop children) := by
      rw [← List.length_drop]
      exact ih hrest hcs
    rw [takeLeaves_spec hchains h hle, Option.bind_eq_bind, Option.bind_some, ih']

/-- The nodes over two leaves or more. -/
theorem loadParents_spec (hchains : m.Chains ls) (htwo : 2 ≤ ls.length)
    (hls : ∀ l ∈ ls, t.minleafslots ≤ l.2.length ∧ l.2.length ≤ t.leafslotmax) :
    Returns (loadParents m (t.numParents ls.length) ls.length m.headleaf) fun parents =>
      Returns (loadLevels t parents.length 1 parents) fun (root, inner) =>
        Holds t true root.1 root.2 ls ∧ parents.length + inner = innernodes root.1 root.2 := by
  obtain ⟨cs, hcs⟩ := exists_children hls
  have hlen : cs.length = ls.length := hcs.length_eq.trans (List.length_map _)
  have hchains' : m.Chains ([] ++ ls) := hchains
  have hparents : loadParents m (t.numParents ls.length) ls.length m.headleaf =
      loadLevel (t.numParents ls.length) cs := by
    rw [hchains.headleaf, ← hlen]
    exact loadParents_eq hchains' hcs _
  rw [hparents]
  obtain ⟨hspreads, hpos, -⟩ := t.spreads_parents htwo
  generalize t.numParents ls.length = numParents at hspreads hpos
  have hspreads' : Spreads ((if decide (numParents = 1) then 1 else t.mininnerslots) + 1)
      (t.innerslotmax + 1) numParents cs.length := by simpa only [decide_eq_true_eq, hlen] using hspreads
  apply (loadLevel_spec _ hcs hspreads').mono
  rintro parents ⟨lss, hparents, hflat, hcount, hinner⟩
  subst hcount
  apply (loadLevels_spec (List.ne_nil_of_length_pos hpos) hparents le_rfl).mono
  rintro ⟨root, inner⟩ ⟨hroot, hinner'⟩
  have hall : lss.flatten = ls := by rw [hflat, ← List.flatMap_def, List.flatMap_singleton']
  have hleaf : (cs.map fun _ => 0).sum = 0 := by simp
  refine ⟨hall ▸ hroot, ?_⟩
  calc parents.length + inner
      = 0 + parents.length + inner := by rw [Nat.zero_add]
    _ = (cs.map fun _ => 0).sum + parents.length + inner := by rw [hleaf]
    _ = innernodes root.1 root.2 := (hinner'.trans (congrArg (· + inner) hinner)).symm

theorem eq_singleton_of_ends (hchains : m.Chains ls) (hne : ls ≠ []) (h : m.headleaf = m.tailleaf) : ∃ l, ls = [l] := by
  rw [hchains.headleaf, hchains.tailleaf] at h
  obtain ⟨l, ls, rfl⟩ := List.exists_cons_of_ne_nil hne
  obtain rfl | ⟨mid, l', rfl⟩ := ls.eq_nil_or_concat'
  · exact ⟨l, rfl⟩
  · have heq : l.1 = l'.1 := by simpa [List.getLast?_cons] using h
    exact absurd (by simp [heq]) (List.nodup_cons.mp hchains.nodup).1

end Parents

namespace Btree

variable [LinearOrder K] {data : List (KeyValue K)}

/-- As few leaves as possible, and no two of them differ by more than one pair. -/
structure Even (t : Traits) (ls : List (Leaf K)) (n : Nat) : Prop where
  fewest : ∀ leaves, n ≤ leaves * t.leafslotmax → ls.length ≤ leaves
  sizes : ∀ l ∈ ls, n / ls.length ≤ l.2.length ∧ l.2.length ≤ (n + ls.length - 1) / ls.length

theorem bulkLoad_spec (hsorted : Sorted KeyValue.key data) :
    Returns (bulkLoad t empty data) fun tree => ∃ ls, tree.Shaped t ls ∧ items ls = data ∧ Even t ls data.length := by
  have hstart : ({ (.empty : Memory K) with stats := { (.empty : Memory K).stats with itemcount := data.length } } :
      Memory K).Chains [] := Memory.Chains.nil.counted _
  have hfewest : ∀ leaves, data.length ≤ leaves * t.leafslotmax → t.numLeaves data.length ≤ leaves := by
    intro leaves h
    have hmax := t.leafslotmax_ge
    rw [Traits.numLeaves, ← Nat.lt_succ_iff, Nat.div_lt_iff_lt_mul (by omega), Nat.succ_mul]
    omega
  unfold bulkLoad
  obtain rfl | hne := eq_or_ne data []
  · have hnone : t.numLeaves 0 = 0 := Nat.le_zero.mp (hfewest 0 (Nat.zero_le _))
    simp only [List.length_nil, hnone]
    exact Returns.some_iff.mpr ⟨[], Shaped.empty, rfl, fun leaves _ => Nat.zero_le leaves, fun l hl => by cases hl⟩
  · obtain ⟨hspreads, hpos⟩ := t.spreads_leaves (List.length_pos_iff.mpr hne)
    obtain ⟨hlo, hhi⟩ := hspreads.even_le hpos
    dsimp only
    generalize t.numLeaves data.length = numLeaves at hfewest hpos hlo hhi
    apply (loadLeaves_spec hstart (Spreads.even hpos)).bind
    rintro m ⟨ls, hchains, hitems, rfl, hsizes, hstats⟩
    rw [List.nil_append] at hchains
    have hne' : ls ≠ [] := List.ne_nil_of_length_pos hpos
    have hitemcount : m.stats.itemcount = (items ls).length := by rw [hstats, hitems]
    have hleaves : m.stats.leaves = ls.length := by
      rw [hstats]
      exact Nat.zero_add _
    have hnone : m.stats.innernodes = 0 := by rw [hstats]; rfl
    have hsorted' : Sorted KeyValue.key (items ls) := hitems ▸ hsorted
    have hbounds : ∀ l ∈ ls, (if ls.length = 1 then 1 else t.minleafslots) ≤ l.2.length ∧ l.2.length ≤ t.leafslotmax :=
      fun l hl => ⟨hlo.trans (hsizes l hl).1, (hsizes l hl).2.trans hhi⟩
    split_ifs with hone
    · -- There is only one leaf.
      obtain ⟨l, rfl⟩ := eq_singleton_of_ends hchains hne' hone
      have hbound := hbounds l List.mem_cons_self
      rw [if_pos List.length_singleton] at hbound
      rw [hchains.headleaf]
      exact Returns.some_iff.mpr
        ⟨[l], ⟨hchains, hsorted', ⟨l.2, rfl, hbound⟩, hitemcount, hleaves, hnone⟩, hitems, hfewest, hsizes⟩
    · have hmany : ls.length ≠ 1 := by
        intro hlen
        obtain ⟨l, rfl⟩ := List.length_eq_one_iff.mp hlen
        exact hone (hchains.headleaf.trans hchains.tailleaf.symm)
      rw [if_neg hmany] at hbounds
      apply (loadParents_spec hchains (by omega) hbounds).bind
      intro parents hparents
      apply hparents.bind
      rintro ⟨root, inner⟩ ⟨hroot, hinner⟩
      refine Returns.some_iff.mpr
        ⟨ls, ⟨hchains.counted _, hsorted', hroot, hitemcount, hleaves, ?_⟩, hitems, hfewest, hsizes⟩
      calc m.stats.innernodes + parents.length + inner
          = parents.length + inner := by rw [hnone, Nat.zero_add]
        _ = innernodes root.1 root.2 := hinner

theorem bulkLoad_stores (hsorted : Sorted KeyValue.key data) :
    Returns (bulkLoad t empty data) fun tree => tree.Stores t data :=
  (bulkLoad_spec hsorted).mono fun _ ⟨ls, hshaped, hitems, _⟩ => ⟨ls, hshaped, hitems⟩

end Btree

end LearnedIndex.BTree
