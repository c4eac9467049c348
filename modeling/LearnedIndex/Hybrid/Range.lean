import LearnedIndex.DynamicPgm.Unique
import LearnedIndex.Hybrid.Lookup

/-! What a range query of the hybrid index returns, for any configuration and any LIPP. -/

universe u v w x y

namespace LearnedIndex.Hybrid

open Util Transition

section Pgm

variable {K : Type u} {G : Type v} [LinearOrder K]

/-- The `DynamicPGM` of the hybrid index, with this many levels allocated at the start. -/
def dynamicPgm (search : Search K) (ops : DynamicPgm.Pgm K G) (memory : DynamicPgm.Memory K)
    (allocated : Nat) : PgmOps K (Option (DynamicPgm.Index K G)) where
  empty := DynamicPgm.Index.empty allocated
  insert p kv := p.bind fun idx => DynamicPgm.insertPair ops memory idx kv
  equalityLookup p k := p.elim overflow fun idx => DynamicPgm.equalityLookup search ops idx k
  rangeQuery p lo hi := (p.bind fun idx => DynamicPgm.rangeQuery search ops idx lo hi).getD 0

variable {search : Search K} {ops : DynamicPgm.Pgm K G}

theorem dynamicPgm_lawful (hwindow : ops.Window) (memory : DynamicPgm.Memory K) {allocated : Nat}
    (hallocated : DynamicPgm.maxFullyAllocatedLevel < DynamicPgm.minLevel + allocated) :
    (dynamicPgm search ops memory allocated).Lawful
      (fun p => ∃ idx, p = some idx ∧ DynamicPgm.Counter ops idx)
      (fun p => p.elim 0 fun idx => ↑(idx.items.map DynamicPgm.Item.pair)) := by
  obtain ⟨start, hstart⟩ : ∃ start, DynamicPgm.Index.empty (K := K) (G := G) allocated = some start :=
    ⟨_, if_pos hallocated⟩
  have hfresh : ∀ {idx : DynamicPgm.Index K G} {kv : KeyValue K},
      (∀ x ∈ (↑(idx.items.map DynamicPgm.Item.pair) : Multiset (KeyValue K)), x.key ≠ kv.key) →
      ∀ y ∈ idx.items, y.key ≠ kv.key :=
    fun h y hy => h y.pair (Multiset.mem_coe.mpr (List.mem_map_of_mem hy))
  constructor
  · exact ⟨start, hstart, DynamicPgm.empty_counter hstart⟩
  · have hnil : start.items = [] := by
      rw [DynamicPgm.Index.items, DynamicPgm.empty_levels hstart]
      rfl
    simp [dynamicPgm, hstart, hnil]
  · rintro _ kv ⟨idx, rfl, hidx⟩ hkv
    obtain ⟨idx', hidx', hcounter, -⟩ := hidx.insert_fresh memory (hfresh hkv)
    exact ⟨idx', hidx', hcounter⟩
  · rintro _ kv ⟨idx, rfl, hidx⟩ hkv
    obtain ⟨idx', hidx', -, hitems⟩ := hidx.insert_fresh memory (hfresh hkv)
    simp only [dynamicPgm, Option.bind_some, hidx', Option.elim_some]
    exact Multiset.coe_eq_coe.mpr (hitems.map _)
  · rintro _ kv ⟨idx, rfl, hidx⟩ hkv
    obtain ⟨y, hy, rfl⟩ := List.mem_map.mp (Multiset.mem_coe.mp hkv)
    have hfind := DynamicPgm.find_eq_lookup search (hwindow.guided hidx.toWellFormed) hidx.toWellFormed y.key
    rw [hidx.lookup_mem hy] at hfind
    simp only [dynamicPgm, Option.elim_some, DynamicPgm.equalityLookup]
    exact congrArg (fun z => Option.elim z overflow DynamicPgm.Item.value) hfind
  · rintro _ k ⟨idx, rfl, hidx⟩ hk
    have hnone : idx.lookup k = none := by
      rw [DynamicPgm.lookup_eq_find, List.find?_eq_none]
      intro y hy
      rw [decide_eq_true_eq]
      exact hk y.pair (Multiset.mem_coe.mpr (List.mem_map_of_mem hy))
    simp only [dynamicPgm, Option.elim_some, DynamicPgm.equalityLookup,
      DynamicPgm.find_eq_lookup search (hwindow.guided hidx.toWellFormed) hidx.toWellFormed, hnone, Option.elim_none]
  · rintro _ lo hi ⟨idx, rfl, hidx⟩ -
    simp only [dynamicPgm, Option.bind_some, Option.elim_some,
      DynamicPgm.rangeQuery_eq search (hwindow.guided hidx.toWellFormed) hidx.toWellFormed, Option.getD_some]

end Pgm

variable {ι : Type y} {K : Type u} {P : Type v} {L : Type w} {E : Type x}
  {pgmOps : PgmOps K P} {lippOps : LippOps K L E} {data : List (KeyValue K)}
  {s₀ s t : State ι K P L E}

/-- Where the client of a `Build` call can be. -/
def ClientPc.isBuildCall : ClientPc K → Bool
  | .idle | .buildClear _ | .buildPgm _ | .buildLipp _ | .finished (.build _) _ => true
  | _ => false

/-- Only client `i` has made a call so far, and it was `Build`. -/
structure OnlyBuilds (pgmOps : PgmOps K P) (i : ι) (s : State ι K P L E) : Prop where
  pgm : s.pgm = pgmOps.empty
  others : ∀ j, j ≠ i → s.clients j = .idle
  building : (s.clients i).isBuildCall = true

theorem OnlyBuilds.congr {i : ι} (hs : OnlyBuilds pgmOps i s)
    (h : t.pgm = s.pgm ∧ t.clients = s.clients) : OnlyBuilds pgmOps i t := by
  obtain ⟨hpgm, hothers, hbuilding⟩ := hs
  exact ⟨h.1.trans hpgm, by rwa [h.2], by rwa [h.2]⟩

variable [DecidableEq ι]

theorem OnlyBuilds.move {i : ι} {pc : ClientPc K} (hs : OnlyBuilds pgmOps i s)
    (hpgm : t.pgm = s.pgm ∨ t.pgm = pgmOps.empty)
    (hclients : ∀ j, t.clients j = if j = i then pc else s.clients j)
    (hpc : pc.isBuildCall = true) : OnlyBuilds pgmOps i t := by
  obtain ⟨hempty, hothers, -⟩ := hs
  refine ⟨hpgm.elim (fun h => h.trans hempty) id, fun j hj => ?_, ?_⟩
  · rw [hclients, if_neg hj]
    exact hothers j hj
  · rwa [hclients, if_pos rfl]

theorem OnlyBuilds.client_step {i j : ι} (hs : OnlyBuilds pgmOps i s)
    (h : ClientStep pgmOps lippOps s j t) : OnlyBuilds pgmOps i t := by
  obtain rfl : j = i := by
    by_contra hne
    have hidle := hs.others j hne
    cases h <;> simp_all
  have hbuilding := hs.building
  cases h with
  | buildClear | built => exact hs.move (.inl rfl) (fun k => setClient_clients _ j k _) rfl
  | buildPgm => exact hs.move (.inr rfl) (fun k => setClient_clients _ j k _) rfl
  | buildAborted => exact hs.congr ⟨rfl, rfl⟩
  | _ hpc => rw [hpc] at hbuilding; cases hbuilding

theorem OnlyBuilds.step {i : ι} {a : Action ι K} (hs : OnlyBuilds pgmOps i s)
    (ha : a.isCall = false ∨ ∃ data, a = .call i (.build data)) (h : Step pgmOps lippOps s a t) :
    OnlyBuilds pgmOps i t := by
  cases h with
  | call j call hpc hd =>
    obtain ha | ⟨data, ha⟩ := ha
    · cases ha
    · cases ha
      exact hs.move (.inl rfl) (fun k => setClient_clients _ i k _) rfl
  | client j h => exact hs.client_step h
  | ret j call reply hpc =>
    obtain rfl : j = i := by
      by_contra hne
      rw [hs.others j hne] at hpc
      cases hpc
    exact hs.move (.inl rfl) (fun k => setClient_clients _ j k _) rfl
  | worker h => exact hs.congr h.frame
  | destructor h => exact hs.congr h.frame

variable [Fintype ι]

/-- After the first `Build` the PGM is empty, whatever the configuration. -/
theorem Built.pgm_empty [DecidableEq K] {config : Config}
    (h : Built pgmOps lippOps config data s₀) :
    s₀.pgm = pgmOps.empty ∧ ∀ i, s₀.clients i = .idle := by
  obtain ⟨boot, i, body, hboot, hbody, hrun⟩ := h
  rw [← List.cons_append, ← List.append_assoc] at hrun
  obtain ⟨s₁, hs₁, hret⟩ := run_concat_eq_some.mp hrun
  have hacts : ∀ a ∈ boot ++ .call i (.build data) :: body,
      a.isCall = false ∨ ∃ data, a = .call i (.build data) := by
    intro a ha
    obtain ha | ha := List.mem_append.mp ha
    · exact .inl (hboot a ha)
    · obtain rfl | ha := List.mem_cons.mp ha
      · exact .inr ⟨data, rfl⟩
      · exact .inl (hbody a ha)
  have hbuilds : OnlyBuilds pgmOps i s₁ := by
    apply run_invariant (I := OnlyBuilds pgmOps i) ?_ hacts ⟨rfl, fun _ _ => rfl, rfl⟩ hs₁
    exact fun r a r' ha hr hs => hr.step ha (.of_step hs)
  have hlast := hbuilds.step (.inl rfl) (.of_step hret)
  refine ⟨hlast.pgm, fun j => ?_⟩
  by_cases hj : j = i
  · cases Step.of_step hret with
    | ret => simp [hj]
  · exact hlast.others j hj

section Holds

variable {PInv : P → Prop} {pairs : P → Multiset (KeyValue K)}
  {called : List (KeyValue K)}

/-- The PGM holds all items of the `Insert` calls made, up to those still on their way. -/
structure PgmHolds (PInv : P → Prop) (pairs : P → Multiset (KeyValue K))
    (called : List (KeyValue K)) (s : State ι K P L E) : Prop where
  building : ∀ i, (s.clients i).isBuilding = false
  inv : PInv s.pgm
  called_eq : (called : Multiset (KeyValue K)) = pairs s.pgm + ∑ i, (s.clients i).unstored

omit [DecidableEq ι] in
theorem PgmHolds.congr (hs : PgmHolds PInv pairs called s)
    (h : t.pgm = s.pgm ∧ t.clients = s.clients) : PgmHolds PInv pairs called t := by
  obtain ⟨hbuilding, hinv, hcalled⟩ := hs
  refine ⟨by rwa [h.2], by rwa [h.1], ?_⟩
  rw [h.1, h.2]
  exact hcalled

/-- Client `i` goes on to `pc`, which takes over `new` and has left `st` in the PGM. -/
theorem PgmHolds.move {i : ι} {pc : ClientPc K} {new st : Multiset (KeyValue K)}
    (hs : PgmHolds PInv pairs called s)
    (hclients : ∀ j, t.clients j = if j = i then pc else s.clients j) (hinv : PInv t.pgm)
    (hpc : pc.isBuilding = false) (hpairs : pairs t.pgm = st + pairs s.pgm)
    (hst : new + (s.clients i).unstored = st + pc.unstored) {called' : List (KeyValue K)}
    (hcalled : (called' : Multiset (KeyValue K)) = called + new) :
    PgmHolds PInv pairs called' t := by
  refine ⟨fun j => ?_, hinv, ?_⟩
  · rw [hclients]
    split
    · exact hpc
    · exact hs.building j
  · calc (called' : Multiset (KeyValue K))
        = pairs s.pgm + (new + (s.clients i).unstored)
          + ∑ j ∈ Finset.univ.erase i, (s.clients j).unstored := by
          rw [hcalled, hs.called_eq, sum_clients ClientPc.unstored s i]
          ac_rfl
      _ = pairs t.pgm + ∑ j, (t.clients j).unstored := by
          rw [hst, sum_clients_move ClientPc.unstored hclients, hpairs]
          ac_rfl

variable [LinearOrder K]

theorem PgmHolds.client_step (hlaw : pgmOps.Lawful PInv pairs) {i : ι}
    (hs : PgmHolds PInv pairs called s) (hcalled : (keys called).Nodup)
    (h : ClientStep pgmOps lippOps s i t) : PgmHolds PInv pairs called t := by
  have hbuilding := hs.building i
  cases h with
  | buildClear hpc | buildPgm hpc | built hpc | buildAborted hpc => rw [hpc] at hbuilding; cases hbuilding
  | @insertPgm kv hpc =>
    have hle : kv ::ₘ pairs s.pgm ≤ (called : Multiset (KeyValue K)) := by
      rw [hs.called_eq, sum_clients ClientPc.unstored s i, hpc, ← Multiset.singleton_add, add_comm]
      exact add_le_add_right (Multiset.le_add_right _ _) _
    have hfresh : ∀ x ∈ pairs s.pgm, x.key ≠ kv.key := by
      rw [← Multiset.coe_nodup, keys_coe] at hcalled
      have hnodup := Multiset.nodup_of_le (Multiset.map_le_map hle) hcalled
      rw [Multiset.map_cons, Multiset.nodup_cons] at hnodup
      exact fun x hx heq => hnodup.1 (heq ▸ Multiset.mem_map_of_mem _ hx)
    apply hs.move
    · exact fun j => setClient_clients _ i j _
    · exact hlaw.inv_insert hs.inv hfresh
    · rfl
    · exact (hlaw.contents_insert hs.inv hfresh).trans (Multiset.singleton_add _ _).symm
    · rw [hpc]
      exact zero_add _
    · exact (add_zero _).symm
  | insertFlush hpc h =>
    obtain ⟨hpgm, hclients⟩ := h.frame
    refine hs.move (fun j => by rw [setClient_clients, hclients])
      (by rw [setClient_pgm, hpgm]; exact hs.inv) ?_
      (by rw [setClient_pgm, hpgm]; exact (zero_add _).symm) ?_ (add_zero _).symm
    · cases ‹Option (FlushPc K)› <;> rfl
    · rw [hpc]
      cases ‹Option (FlushPc K)› <;> rfl
  | _ hpc =>
    apply hs.move
    · exact fun j => setClient_clients _ i j _
    · exact hs.inv
    · rfl
    · exact (zero_add _).symm
    · rw [hpc]
      rfl
    · exact (add_zero _).symm

theorem PgmHolds.step (hlaw : pgmOps.Lawful PInv pairs) {a : Action ι K}
    (hs : PgmHolds PInv pairs called s) (ha : a.isBuild = false)
    (hcalled : (keys (called ++ a.inserted)).Nodup) (h : Step pgmOps lippOps s a t) :
    PgmHolds PInv pairs (called ++ a.inserted) t := by
  have hnone : a.inserted = [] → called ++ a.inserted = called := fun h => by
    rw [h, List.append_nil]
  cases h with
  | call i call hpc hd =>
    refine hs.move (fun j => setClient_clients _ i j _) hs.inv ?_ (zero_add _).symm ?_
      (Multiset.coe_add _ _).symm
    · cases call with
      | build => cases ha
      | _ => rfl
    · rw [hpc]
      cases call <;> rfl
  | client i h =>
    rw [hnone rfl] at hcalled ⊢
    exact hs.client_step hlaw hcalled h
  | ret i call reply hpc =>
    rw [hnone rfl]
    apply hs.move
    · exact fun j => setClient_clients _ i j _
    · exact hs.inv
    · rfl
    · exact (zero_add _).symm
    · rw [hpc]
      rfl
    · exact (add_zero _).symm
  | worker h =>
    rw [hnone rfl]
    exact hs.congr h.frame
  | destructor h =>
    rw [hnone rfl]
    exact hs.congr h.frame

theorem Built.pgmHolds (hlaw : pgmOps.Lawful PInv pairs) {config : Config}
    (hbuilt : Built pgmOps lippOps config data s₀) {acts : List (Action ι K)}
    (hacts : ∀ a ∈ acts, a.isBuild = false) (hfresh : (keys (inserted acts)).Nodup)
    (hrun : run (step pgmOps lippOps) s₀ acts = some s) :
    PgmHolds PInv pairs (inserted acts) s := by
  obtain ⟨hpgm, hidle⟩ := hbuilt.pgm_empty
  refine run_induction (P := fun bs r => PgmHolds PInv pairs (inserted bs) r) ?_ ?_ hrun
  · refine ⟨fun i => by rw [hidle]; rfl, by rw [hpgm]; exact hlaw.inv_empty, ?_⟩
    simp [hpgm, hlaw.contents_empty, hidle, ClientPc.unstored, inserted]
  · intro bs r a r' hbs hr hholds hstep
    have hnodup := hfresh.sublist ((inserted_mono hbs).sublist.map KeyValue.key)
    rw [inserted_append, inserted_singleton]
    rw [← keys, inserted_append, inserted_singleton] at hnodup
    exact hholds.step hlaw (hacts a (hbs.subset (by simp))) hnodup (.of_step hstep)

/-- A range query between calls misses exactly the pairs that were built. -/
theorem rangeQuery_value (hlaw : pgmOps.Lawful PInv pairs) {config : Config}
    (hbuilt : Built pgmOps lippOps config data s₀) {acts : List (Action ι K)}
    (hacts : ∀ a ∈ acts, a.isBuild = false) (hfresh : (keys (inserted acts)).Nodup)
    (hrun : run (step pgmOps lippOps) s₀ acts = some s) (hidle : ∀ i, s.clients i = .idle)
    {lo hi : K} (hle : lo ≤ hi) {i : ι} {v : UInt64}
    (hquery : run (step pgmOps lippOps) s
      [.call i (.range lo hi), .client i, .ret i (.range lo hi) (.value v)] = some t) :
    v = rangeSum (inserted acts) lo hi := by
  obtain ⟨-, hinv, hcalled⟩ := hbuilt.pgmHolds hlaw hacts hfresh hrun
  simp only [hidle, ClientPc.unstored, Finset.sum_const_zero, add_zero] at hcalled
  obtain ⟨s₁, hcall, hquery⟩ := run_cons_eq_some.mp hquery
  obtain ⟨s₂, hclient, hquery⟩ := run_cons_eq_some.mp hquery
  obtain ⟨s₃, hret, -⟩ := run_cons_eq_some.mp hquery
  cases Step.of_step hcall with
  | call _ _ hpc hd =>
    have hentry : (s.setClient i (Call.range lo hi).entry).clients i = .rangePgm lo hi := by
      simp [Call.entry]
    cases Step.of_step hclient with
    | client _ h =>
      cases h with
      | rangePgm hpc =>
        rw [hentry] at hpc
        cases hpc
        cases Step.of_step hret with
        | ret _ _ _ hpc =>
          simp only [setClient_clients, if_true, ClientPc.finished.injEq, Reply.value.injEq,
            true_and, setClient_pgm] at hpc
          rw [← hpc, hlaw.rangeQuery_eq hinv hle, hcalled]
      | _ hpc => rw [hentry] at hpc; cases hpc

end Holds

section Complete

variable [LinearOrder K] {G : Type v}

end Complete

end LearnedIndex.Hybrid
