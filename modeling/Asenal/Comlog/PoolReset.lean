import Asenal.Comlog.ListWalk
import Asenal.Comlog.PoolSafe

/-!
# Resetting the pool

A reset makes the chunks of every level empty again, and frees the large blocks by a walk over their list.

* `resetLevels_spec` — the levels; the links of the large blocks are left.
* `PoolState.Held.frees_iff` — when each large block is freed once.
* `dlist_walk_iff` — lists and pools in every state that is reached. `dlist_walk_one` — a node and a large
  block; `dlist_walk_two` — two nodes.
-/

namespace Asenal.Comlog

open Asenal.Lib.Text Asenal.Lib.Memory Asenal.Lib.Owned Asenal.Lib.Machine

/-! ## The reset -/

/-- Source: `mempool.cpp` `FixMem::reset`, the loop. -/
def resetChunks : ℕ → Mem UInt8 → ℕ → Option (Mem UInt8)
  | 0, _, _ => none
  | fuel + 1, m, ptr =>
      if ptr = 0 then some m
      else
        let m := store m (ptr + 8) 8 0
        resetChunks fuel m (load m ptr 8)

/-- Source: `mempool.cpp` `FixMem::reset`. -/
def FixMem.reset (fuel : ℕ) (m : Mem UInt8) (fx : FixMem) : Option (Mem UInt8 × FixMem) :=
  (resetChunks fuel m fx.mem).map fun m => (m, { fx with now := fx.mem, free := 0 })

/-- Source: `mempool.cpp` `MemPool::reset`, the loop. -/
def resetLevels (fuel : ℕ) : Mem UInt8 → List FixMem → Option (Mem UInt8 × List FixMem)
  | m, [] => some (m, [])
  | m, fx :: fixmem =>
      (fx.reset fuel m).bind fun r => (resetLevels fuel r.1 fixmem).map fun t => (t.1, r.2 :: t.2)

/-- What is passed to `free`, the heap and the pool. Source: `mempool.cpp` `MemPool::reset`. -/
def MemPool.reset (fuel : ℕ) (h : Heap) (p : MemPool) : Option (List ℕ × Heap × MemPool) :=
  (resetLevels fuel h.cells p.fixmem).bind fun r =>
    (Dlist.walk (fun x h => h.free x) fuel { h with cells := r.1 } p.biglist).map fun t =>
      (t.1, t.2, { p with fixmem := r.2, biglist := 0 })

/-! ## Levels -/

variable {m : Mem UInt8} {own : ℕ → Option Owner} {i ptr : ℕ} {chunks : List ℕ} {fixmem : List FixMem}
  {p q : MemPool} {s : PoolState}

/-- The chunks of one level become empty. -/
theorem resetChunks_spec (hnodup : chunks.Nodup) (hown : ∀ c ∈ chunks, Owns own (.header i c) c 16)
    (hlinked : Linked m chunks ptr) :
    ∃ m', (∀ fuel, chunks.length < fuel → resetChunks fuel m ptr = some m') ∧
      Frame (fun o => ∃ c, o = .header i c) m own m' own := by
  induction chunks generalizing m ptr with
  | nil =>
      refine ⟨m, fun fuel hfuel => ?_, .refl _ m own⟩
      obtain ⟨fuel, rfl⟩ := Nat.exists_eq_succ_of_ne_zero (show fuel ≠ 0 by omega)
      exact if_pos hlinked
  | cons c cs ih =>
      rw [List.forall_mem_cons] at hown
      obtain ⟨rfl, hptr, hnext⟩ := hlinked
      obtain ⟨hnot, hnodup'⟩ := List.nodup_cons.mp hnodup
      have hstore := frame_store (m := m) (hown.1.mono (Nat.le_add_right ptr 8) (Nat.le_refl _ : ptr + 8 + 8 ≤ _)) 0
      have hlink : load (store m (ptr + 8) 8 0) ptr 8 = load m ptr 8 :=
        load_store_of_disjoint m (Or.inr (Nat.le_refl _))
      have hkept : Linked (store m (ptr + 8) 8 0) cs (load m ptr 8) := by
        refine hnext.congr fun d hd => hstore.load _ _ _ (fun heq => ?_)
          ((hown.2 d hd).mono (Nat.le_refl d) (by omega))
        rw [(Owner.header.inj heq).2] at hd
        exact hnot hd
      obtain ⟨m', hreset, hframe⟩ := ih hnodup' hown.2 hkept
      refine ⟨m', fun fuel hfuel => ?_, ?_⟩
      · rw [List.length_cons] at hfuel
        obtain ⟨fuel, rfl⟩ := Nat.exists_eq_succ_of_ne_zero (show fuel ≠ 0 by omega)
        rw [resetChunks, if_neg hptr]
        dsimp only
        rw [hlink]
        exact hreset fuel (by omega)
      · refine (hstore.trans hframe).mono fun o hor => ?_
        rcases hor with heq | hother
        · exact ⟨ptr, heq⟩
        · exact hother

/-- **All levels**: what does not belong to a header of a chunk is left. -/
theorem resetLevels_spec {chunks : ℕ → List ℕ}
    (hlevel : ∀ k fx, fixmem[k]? = some fx → (chunks (i + k)).Nodup ∧ Linked m (chunks (i + k)) fx.mem ∧
      ∀ c ∈ chunks (i + k), Owns own (.header (i + k) c) c 16) :
    ∃ bound m' fixmem', (∀ fuel, bound ≤ fuel → resetLevels fuel m fixmem = some (m', fixmem')) ∧
      Frame (fun o => ∃ j c, o = .header j c) m own m' own := by
  induction fixmem generalizing m i with
  | nil => exact ⟨0, m, [], fun _ _ => rfl, .refl _ m own⟩
  | cons fx fixmem ih =>
      obtain ⟨hnodup, hlinked, hown⟩ := hlevel 0 fx rfl
      obtain ⟨m₁, hreset, hframe⟩ := resetChunks_spec hnodup hown hlinked
      obtain ⟨bound, m', fixmem', hrest, hframe'⟩ := ih (m := m₁) (i := i + 1) fun k fx' hfx' => by
        obtain ⟨hnodup', hlinked', hown'⟩ := hlevel (k + 1) fx' hfx'
        have hk : i + (k + 1) = i + 1 + k := by omega
        rw [hk] at hnodup' hlinked' hown'
        refine ⟨hnodup', hlinked'.congr fun c hc => ?_, hown'⟩
        refine hframe.load _ _ _ ?_ ((hown' c hc).mono (Nat.le_refl c) (by omega))
        rintro ⟨d, heq⟩
        have := (Owner.header.inj heq).1
        omega
      refine ⟨max bound ((chunks (i + 0)).length + 1), m', { fx with now := fx.mem, free := 0 } :: fixmem',
        fun fuel hfuel => ?_, ?_⟩
      · rw [resetLevels, FixMem.reset, hreset fuel (by omega), Option.map_some, Option.bind_some,
          hrest fuel (by omega), Option.map_some]
      · refine (hframe.trans hframe').mono fun o hor => ?_
        rcases hor with ⟨c, heq⟩ | hother
        · exact ⟨i + 0, c, heq⟩
        · exact hother

/-! ## Large blocks -/

/-- A reset frees each large block once. -/
def PoolState.ResetFrees (s : PoolState) : Prop :=
  ∃ bound, ∀ fuel, bound ≤ fuel → ∃ h p, s.pool.reset fuel s.heap = some (s.bigs, h, p)

/-- **When each large block is freed once**: where the pool has one at most. -/
theorem PoolState.Held.frees_iff (hheld : s.Held q) : s.ResetFrees ↔ s.bigs.length ≤ 1 := by
  obtain ⟨own, chunks, frees, hpool⟩ := hheld
  have hlevel : ∀ k fx, s.pool.fixmem[k]? = some fx → (chunks (0 + k)).Nodup ∧
      Linked s.heap.cells (chunks (0 + k)) fx.mem ∧
      ∀ c ∈ chunks (0 + k), Owns own (.header (0 + k) c) c 16 := by
    intro k fx hfx
    rw [Nat.zero_add]
    have hinv := hpool.level k fx hfx
    exact ⟨hinv.chunks_nodup, hinv.chunks_linked, hinv.header⟩
  obtain ⟨bound, m', fixmem', hlevels, hframe⟩ := resetLevels_spec hlevel
  have hlinked : Linked m' s.bigs s.pool.biglist :=
    hpool.bigs_linked.congr fun x hx => hframe.load _ _ _ (by rintro ⟨j, c, heq⟩; exact absurd heq nofun)
      (hpool.big x hx).link
  rw [← Dlist.visits_iff (h := { s.heap with cells := m' }) (spares_free s.bigs) hpool.bigs_nodup hlinked]
  -- with enough fuel for the levels, the reset is the walk
  have hreset : ∀ fuel, bound ≤ fuel → s.pool.reset fuel s.heap =
      (Dlist.walk (fun x h => h.free x) fuel { s.heap with cells := m' } s.pool.biglist).map fun t =>
        (t.1, t.2, { s.pool with fixmem := fixmem', biglist := 0 }) := by
    intro fuel hfuel
    rw [MemPool.reset, hlevels fuel hfuel]
    rfl
  constructor
  · rintro ⟨bound', hfrees⟩
    refine ⟨max bound bound', fun fuel hfuel => ?_⟩
    obtain ⟨h, p, hsome⟩ := hfrees fuel (by omega)
    rw [hreset fuel (by omega), Option.map_eq_some_iff] at hsome
    obtain ⟨⟨visited, h'⟩, hwalk, heq⟩ := hsome
    obtain rfl : visited = s.bigs := (Prod.mk.inj heq).1
    exact ⟨h', hwalk⟩
  · rintro ⟨bound', hvisits⟩
    refine ⟨max bound bound', fun fuel hfuel => ?_⟩
    obtain ⟨h', hwalk⟩ := hvisits fuel (by omega)
    rw [hreset fuel (by omega), hwalk]
    exact ⟨h', _, rfl⟩

/-- **When a walk visits every node once, and a reset frees every large block once**: where there is one at
most, in every list that is built by inserting and erasing, and in every state that a program reaches from
a new pool. -/
theorem dlist_walk_iff (grow : Int32 → Int32) (minmem maxmem : Int32) (cells : Mem UInt8) :
    (∀ s : ListState, s.Built → ∀ fn, Spares s.nodes fn →
      (Visits fn s.heap s.root s.nodes ↔ s.nodes.length ≤ 1)) ∧
    ∀ p : MemPool, (∀ x, 0 < x → x ≤ grow x) → MemPool.create grow minmem maxmem = some p →
      CreateFits grow defLevel (atLeast defMinMem minmem) (atLeast defMaxMem maxmem) →
      ∀ (ops : List PoolOp) (fuel : ℕ) (s : PoolState), (∀ op ∈ ops, op.Fits) →
        PoolState.run fuel ⟨p, ⟨cells, []⟩, []⟩ ops = some s → (s.ResetFrees ↔ s.bigs.length ≤ 1) := by
  refine ⟨fun s hbuilt fn hfn => Dlist.visits_iff hfn hbuilt.inv.nodup hbuilt.inv.linked, ?_⟩
  intro p hgrow hcreate hfits ops fuel s hops hrun
  exact ((create_held hcreate cells).run (create_created hgrow hcreate hfits) hops hrun).frees_iff

/-- Operations from the empty list, and the nodes behind them. -/
theorem built_nodes (ops : List ListOp) (nodes : List ℕ)
    (h : (ops.foldlM ListState.step ⟨⟨fun _ => 0, []⟩, 0, []⟩).map (·.nodes) = some nodes) :
    ∃ s : ListState, s.Built ∧ s.nodes = nodes := by
  obtain ⟨s, hrun, hnodes⟩ := Option.map_eq_some_iff.mp h
  have hstart : ListState.Start ⟨⟨fun _ => 0, []⟩, 0, []⟩ := ⟨rfl, rfl, rfl⟩
  exact ⟨s, Reached.run (.start _ hstart) ops (by simpa using hrun), hnodes⟩

/-- A list that had two nodes, and a pool with one large block. -/
theorem dlist_walk_one :
    (∃ s : ListState, s.Built ∧ s.nodes = [4096] ∧ Visits (fun x h => h.free x) s.heap s.root s.nodes) ∧
    ∃ p s, MemPool.create double 0 0 = some p ∧
      PoolState.run 11 ⟨p, ⟨fun _ => 0, []⟩, []⟩ [.alloc 10 [4096], .alloc 2000000 [4194304]] = some s ∧
      s.bigs = [4194304] ∧ s.ResetFrees := by
  constructor
  · obtain ⟨s, hbuilt, hnodes⟩ := built_nodes
      [.malloc 16 4096, .malloc 16 8192, .insert 4096, .insert 8192, .erase 8192, .free 8192] [4096]
      (by decide)
    refine ⟨s, hbuilt, hnodes, ((dlist_walk_iff double 0 0 fun _ => 0).1 s hbuilt _ (spares_free _)).mpr ?_⟩
    rw [hnodes]
    exact Nat.le_refl 1
  · have hrun : ((MemPool.create double 0 0).bind fun p =>
        (PoolState.run 11 ⟨p, ⟨fun _ => 0, []⟩, []⟩ [.alloc 10 [4096], .alloc 2000000 [4194304]]).map
          fun s => s.bigs) = some [4194304] := by decide
    obtain ⟨p, hcreate, hmap⟩ := Option.bind_eq_some_iff.mp hrun
    obtain ⟨s, hs, hbigs⟩ := Option.map_eq_some_iff.mp hmap
    refine ⟨p, s, hcreate, hs, hbigs, ((dlist_walk_iff double 0 0 _).2 p (fun x => le_double) hcreate double_fits
      _ 11 s ?_ hs).mpr ?_⟩
    · simp only [List.forall_mem_cons, PoolOp.Fits, List.not_mem_nil, false_implies, implies_true, and_true]
      decide
    · rw [hbigs]
      exact Nat.le_refl 1

/-- The newer one of two nodes is freed twice, and the other one is not. -/
theorem dlist_walk_two : ∃ s : ListState, s.Built ∧ s.nodes = [8192, 4096] ∧
    (∀ fuel, 2 < fuel → ∃ h, Dlist.walk (fun x h => h.free x) fuel s.heap s.root = some ([8192, 8192], h)) ∧
    ¬ Visits (fun x h => h.free x) s.heap s.root s.nodes := by
  obtain ⟨s, hbuilt, hnodes⟩ := built_nodes
    [.malloc 16 4096, .malloc 16 8192, .insert 4096, .insert 8192] [8192, 4096] (by decide)
  have hinv := hbuilt.inv
  have hlinked := hinv.linked
  have hnodup := hinv.nodup
  rw [hnodes] at hlinked hnodup
  refine ⟨s, hbuilt, hnodes, fun fuel hfuel => ?_, fun hvisits => ?_⟩
  · rw [Dlist.walk_spec (spares_free _) hnodup hlinked hfuel, hlinked.1]
    exact ⟨_, rfl⟩
  · rw [hnodes] at hvisits
    exact absurd ((Dlist.visits_iff (spares_free _) hnodup hlinked).mp hvisits) (by decide)

end Asenal.Comlog
