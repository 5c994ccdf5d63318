import Asenal.Comlog.PoolRuns
import Mathlib.Data.List.Basic

/-!
# The pool is safe

Every run of a program from a new pool keeps the invariant, as long as the sizes that are asked for can be
rounded up in the range of `int`.

* `PoolState.Held.step`, `PoolState.Held.run` — steps and runs.
* `create_held` — a new pool.
* `pool_safe` — live blocks do not overlap, every block goes back to where it is from, and every size has a
  level or is large. `pool_safe_two` — a run; `pool_overlap` — a size that wraps.
-/

namespace Asenal.Comlog

open Asenal.Lib.Text Asenal.Lib.Memory Asenal.Lib.Owned

variable {p p' q : MemPool} {s s' : PoolState} {h h' : Heap} {b : Live} {fuel ptr : ℕ} {size : Int32}
  {answers : List ℕ} {grow : Int32 → Int32} {minmem maxmem : Int32}

/-! ## Steps -/

/-- The large blocks that a program has, the newest one first. -/
def PoolState.bigs (s : PoolState) : List ℕ := (s.live.filter (·.place = .big)).map (·.ptr - 12)

/-- The invariant, where the large blocks are those of the program. -/
def PoolState.Held (q : MemPool) (s : PoolState) : Prop :=
  ∃ own chunks frees, PoolInv q s own chunks frees s.bigs

theorem PoolState.Held.inv (h : s.Held q) : s.Inv q := by
  obtain ⟨own, chunks, frees, hpool⟩ := h
  exact ⟨own, chunks, frees, s.bigs, hpool⟩

/-- What `alloc` did: a large block or one of a level. -/
theorem alloc_cases (halloc : p.alloc fuel h size answers = some (ptr, h', p')) :
    (∃ lst, p.place fuel (roundSize size) = some .big ∧
      h.Fresh (cutInt 8 ((roundSize size).toInt + 8)) lst ∧ ptr = lst + 12 ∧
      h' = ⟨store (storeInt h.cells (lst + 8) (roundSize size)) lst 8 p.biglist,
        (lst, cutInt 8 ((roundSize size).toInt + 8)) :: h.blocks⟩ ∧ p' = { p with biglist := lst }) ∨
    ∃ i fx x h₁ fx', p.place fuel (roundSize size) = some (.level i) ∧ p.fixmem[i]? = some fx ∧
      FixMem.alloc fuel h fx answers = some (x, h₁, fx') ∧ ptr = x + 4 ∧
      h' = { h₁ with cells := storeInt h₁.cells x (roundSize size) } ∧
      p' = { p with fixmem := p.fixmem.set i fx' } := by
  unfold MemPool.alloc at halloc
  dsimp only at halloc
  cases hplace : p.place fuel (roundSize size) with
  | none =>
      rw [hplace] at halloc
      exact absurd halloc nofun
  | some place =>
      rw [hplace] at halloc
      cases place with
      | big =>
          cases answers with
          | nil => exact absurd halloc nofun
          | cons lst answers =>
              dsimp only at halloc
              cases hmalloc : h.malloc (cutInt 8 ((roundSize size).toInt + 8)) lst with
              | none =>
                  rw [hmalloc] at halloc
                  exact absurd halloc nofun
              | some h₁ =>
                  rw [hmalloc] at halloc
                  obtain ⟨hfresh, rfl⟩ := malloc_eq_some hmalloc
                  obtain ⟨rfl, hpair⟩ := Prod.mk.inj (Option.some.inj halloc)
                  obtain ⟨rfl, rfl⟩ := Prod.mk.inj hpair
                  exact Or.inl ⟨lst, rfl, hfresh, rfl, rfl, rfl⟩
      | level i =>
          dsimp only at halloc
          cases hfx : p.fixmem[i]? with
          | none =>
              rw [hfx] at halloc
              exact absurd halloc nofun
          | some fx =>
              rw [hfx] at halloc
              dsimp only at halloc
              cases hfix : FixMem.alloc fuel h fx answers with
              | none =>
                  rw [hfix] at halloc
                  exact absurd halloc nofun
              | some r =>
                  obtain ⟨x, h₁, fx'⟩ := r
                  rw [hfix] at halloc
                  obtain ⟨rfl, hpair⟩ := Prod.mk.inj (Option.some.inj halloc)
                  obtain ⟨rfl, rfl⟩ := Prod.mk.inj hpair
                  exact Or.inr ⟨i, fx, x, h₁, fx', rfl, hfx, hfix, rfl, rfl, rfl⟩

/-- A block of a level that is returned leaves the large ones. -/
theorem PoolInv.bigs_level {own : ℕ → Option Owner} {chunks frees : ℕ → List ℕ} {bigs : List ℕ} {i : ℕ}
    (hinv : PoolInv q s own chunks frees bigs) (hb : b ∈ s.live) (hplace : b.place = .level i) :
    PoolState.bigs ⟨p, h, s.live.filter (·.ptr ≠ b.ptr)⟩ = s.bigs := by
  unfold PoolState.bigs
  dsimp only
  rw [List.filter_filter]
  congr 1
  refine List.filter_congr fun b' hb' => ?_
  have hne : b'.place = .big → b'.ptr ≠ b.ptr := by
    intro hbig heq
    -- the header would have two owners
    have hown := (hinv.live b hb).owns (b.ptr - 4) (Nat.le_refl _) (by omega)
    have hown' := (hinv.live b' hb').owns (b'.ptr - 4) (Nat.le_refl _) (by omega)
    rw [Live.owner_level hplace] at hown
    rw [heq, hown, Live.owner_big hbig] at hown'
    exact absurd hown' nofun
  by_cases hbig : b'.place = .big
  · rw [decide_eq_true hbig, decide_eq_true (hne hbig)]
    rfl
  · rw [decide_eq_false hbig]
    rfl

/-- A large block that is returned is none of them any more. -/
theorem PoolInv.bigs_erase {own : ℕ → Option Owner} {chunks frees : ℕ → List ℕ}
    (hinv : PoolInv q s own chunks frees s.bigs) (hb : b ∈ s.live) (hplace : b.place = .big) :
    PoolState.bigs ⟨p, h, s.live.filter (·.ptr ≠ b.ptr)⟩ = s.bigs.erase (b.ptr - 12) := by
  rw [hinv.bigs_nodup.erase_eq_filter]
  unfold PoolState.bigs
  dsimp only
  rw [List.filter_map, List.filter_filter, List.filter_filter]
  congr 1
  refine List.filter_congr fun b' hb' => ?_
  have hlt := ((hinv.live b hb).from_big hplace).1
  by_cases hbig : b'.place = .big
  · have hlt' := ((hinv.live b' hb').from_big hbig).1
    by_cases hptr : b'.ptr = b.ptr
    · simp [hptr]
    · have hne : b'.ptr - 12 ≠ b.ptr - 12 := by omega
      simp [hbig, hptr, hne]
  · simp [hbig]

/-- A block that goes back: to where it is from, and the invariant holds. -/
theorem PoolInv.dealloc {own : ℕ → Option Owner} {chunks frees : ℕ → List ℕ}
    (hinv : PoolInv q s own chunks frees s.bigs) (hb : b ∈ s.live) {r : Place × Heap × MemPool}
    (hdealloc : s.pool.dealloc fuel s.heap b.ptr = some r) :
    r.1 = b.place ∧ PoolState.Held q ⟨r.2.2, r.2.1, s.live.filter (·.ptr ≠ b.ptr)⟩ := by
  have hlive := hinv.live b hb
  unfold MemPool.dealloc at hdealloc
  dsimp only at hdealloc
  rw [hlive.header, hinv.place_eq] at hdealloc
  cases hplace : q.place fuel (roundSize b.size) with
  | none =>
      rw [hplace] at hdealloc
      exact absurd hdealloc nofun
  | some place =>
      -- the size that was stored gives the place again
      have hmono := place_mono hplace (Nat.le_max_left fuel q.fixmem.length)
      rw [hlive.place_eq _ (Nat.le_max_right _ _)] at hmono
      have hfrom := Option.some.inj hmono
      rw [hplace] at hdealloc
      cases place with
      | big =>
          dsimp only at hdealloc
          rw [Nat.sub_sub] at hdealloc
          cases herase : dlistErase fuel s.heap.cells s.pool.biglist (b.ptr - (4 + 8)) with
          | none =>
              rw [herase] at hdealloc
              exact absurd hdealloc nofun
          | some t =>
              rw [herase] at hdealloc
              obtain rfl := Option.some.inj hdealloc
              refine ⟨hfrom.symm, ?_⟩
              unfold PoolState.Held
              rw [hinv.bigs_erase hb hfrom]
              exact hinv.deallocBig hb hfrom herase
      | level i =>
          dsimp only at hdealloc
          cases hfx : s.pool.fixmem[i]? with
          | none =>
              rw [hfx] at hdealloc
              exact absurd hdealloc nofun
          | some fx =>
              rw [hfx] at hdealloc
              obtain rfl := Option.some.inj hdealloc
              refine ⟨hfrom.symm, ?_⟩
              unfold PoolState.Held
              rw [hinv.bigs_level hb hfrom]
              exact hinv.deallocLevel hb hfrom hfx

/-- A live block can be returned. -/
theorem PoolInv.dealloc_isSome {own : ℕ → Option Owner} {chunks frees : ℕ → List ℕ} {bigs : List ℕ}
    (hinv : PoolInv q s own chunks frees bigs) (hb : b ∈ s.live)
    (hfuel : q.fixmem.length + bigs.length ≤ fuel) : (s.pool.dealloc fuel s.heap b.ptr).isSome := by
  have hlive := hinv.live b hb
  unfold MemPool.dealloc
  dsimp only
  rw [hlive.header, hinv.place_eq, hlive.place_eq fuel (by omega)]
  cases hplace : b.place with
  | big =>
      obtain ⟨m', root', -, -, -, hex⟩ := dlistErase_spec hinv.bigs_nodup (fun y hy => (hinv.big y hy).link)
        hinv.bigs_linked (hlive.from_big hplace).2
      dsimp only
      rw [Nat.sub_sub, hex fuel (by omega)]
      rfl
  | level i =>
      obtain ⟨-, -, fx₀, hfx₀, -, -⟩ := hlive.from_level i hplace
      have hlt := (List.getElem?_eq_some_iff.mp hfx₀).1
      rw [← hinv.length_eq] at hlt
      dsimp only
      rw [List.getElem?_eq_getElem hlt]
      rfl

/-- The sizes that a program asks for can be rounded up. -/
def PoolOp.Fits : PoolOp → Prop
  | .alloc size _ => size ≤ 2147483640
  | .dealloc _ | .write .. => True

/-- **One operation** keeps the invariant. -/
theorem PoolState.Held.step (hheld : s.Held q) (hq : Created q) {op : PoolOp} (hop : op.Fits)
    (hstep : s.step fuel op = some s') : s'.Held q := by
  obtain ⟨own, chunks, frees, hpool⟩ := hheld
  cases op with
  | alloc size answers =>
      rw [PoolState.step] at hstep
      cases hplace : s.pool.place fuel (roundSize size) with
      | none =>
          rw [hplace] at hstep
          exact absurd hstep nofun
      | some place =>
          cases halloc : s.pool.alloc fuel s.heap size answers with
          | none =>
              rw [hplace, halloc] at hstep
              exact absurd hstep nofun
          | some r =>
              obtain ⟨ptr, h, p⟩ := r
              rw [hplace, halloc] at hstep
              obtain rfl := Option.some.inj hstep
              rcases alloc_cases halloc with ⟨lst, hbig, hfresh, rfl, rfl, rfl⟩ |
                ⟨i, fx, x, h₁, fx', hlevel, hfx, hfix, rfl, rfl, rfl⟩
              · obtain rfl := Option.some.inj (hplace.symm.trans hbig)
                exact hpool.allocBig hq hop hbig hfresh
              · obtain rfl := Option.some.inj (hplace.symm.trans hlevel)
                exact hpool.allocLevel hq hop hlevel hfx hfix
  | dealloc ptr =>
      rw [PoolState.step] at hstep
      split_ifs at hstep with hlive
      obtain ⟨b, hb, rfl⟩ := hlive
      obtain ⟨r, hdealloc, rfl⟩ := Option.map_eq_some_iff.mp hstep
      exact (hpool.dealloc hb hdealloc).2
  | write ptr off bs =>
      rw [PoolState.step] at hstep
      split_ifs at hstep with hlive
      obtain ⟨b, hb, rfl, hfit⟩ := hlive
      obtain rfl := Option.some.inj hstep
      exact ⟨own, chunks, frees, hpool.write hb hfit⟩

/-- **Every run** keeps the invariant. -/
theorem PoolState.Held.run (hheld : s.Held q) (hq : Created q) {ops : List PoolOp}
    (hops : ∀ op ∈ ops, op.Fits) (hrun : s.run fuel ops = some s') : s'.Held q := by
  induction ops generalizing s with
  | nil =>
      obtain rfl := Option.some.inj hrun
      exact hheld
  | cons op ops ih =>
      rw [List.forall_mem_cons] at hops
      obtain ⟨s₁, hstep, hrest⟩ := Option.bind_eq_some_iff.mp hrun
      exact ih (hheld.step hq hops.1 hstep) hops.2 hrest

/-! ## A new pool -/

/-- What `create` computes stays in the range of `int`. -/
theorem create_created (hgrow : ∀ x, 0 < x → x ≤ grow x)
    (hcreate : MemPool.create grow minmem maxmem = some p)
    (hfits : CreateFits grow defLevel (atLeast defMinMem minmem) (atLeast defMaxMem maxmem)) : Created p := by
  unfold MemPool.create at hcreate
  dsimp only at hcreate
  split_ifs at hcreate with hle
  obtain rfl := Option.some.inj hcreate
  have hmin : 1024 ≤ (atLeast defMinMem minmem).toInt := by
    unfold atLeast
    split_ifs with hlt
    · exact Int.le_refl _
    · exact Int32.le_iff_toInt_le.mp (Int32.not_lt.mp hlt)
  have hlt := Int32.lt_iff_toInt_lt.mp (Int32.not_le.mp hle)
  have hmax : (atLeast defMaxMem maxmem).toInt ≤ 2147483643 := Int32.le_iff_toInt_le.mp hfits.max_le
  have hmem : (atLeast defMinMem minmem).toInt ≤ 2147483643 := by omega
  have hne : (createLevels grow (atLeast defMaxMem maxmem) defLevel (atLeast defMinMem minmem)
      (atLeast defMaxMem maxmem)).1 ≠ [] := by
    rw [defLevel, createLevels]
    dsimp only
    rw [if_pos]
    · exact List.cons_ne_nil _ _
    · rw [Int32.le_iff_toInt_le, toInt_add_four hmem, toInt_add_four hmax]
      omega
  obtain ⟨hselect, hlarge⟩ := createLevels_select hgrow hmin hmem hfits hne
  exact ⟨hselect, hlarge⟩

/-- A new pool, with nothing handed out. -/
theorem create_held (hcreate : MemPool.create grow minmem maxmem = some p) (cells : Mem UInt8) :
    PoolState.Held p ⟨p, ⟨cells, []⟩, []⟩ := by
  have hnew : p.biglist = 0 ∧ ∀ fx ∈ p.fixmem, fx.mem = 0 ∧ fx.now = 0 ∧ fx.free = 0 := by
    unfold MemPool.create at hcreate
    dsimp only at hcreate
    split_ifs at hcreate
    obtain rfl := Option.some.inj hcreate
    exact ⟨rfl, createLevels_new⟩
  refine ⟨fun _ => none, fun _ => [], fun _ => [], ?_⟩
  exact
    { pool_eq := rfl
      backed := ⟨List.Pairwise.nil, nofun, nofun⟩
      level := fun i fx hfx => by
        obtain ⟨hmem, hnow, hfree⟩ := hnew.2 fx (List.mem_of_getElem? hfx)
        exact
          { chunks_linked := hmem
            now_eq := hnow.trans hmem.symm
            chunks_nodup := List.nodup_nil
            header := nofun
            used_tail := nofun
            used_head := nofun
            frees_linked := hfree
            frees_nodup := List.nodup_nil
            node := nofun }
      length_eq := rfl
      like := fun i fx fx' hfx hfx' => by
        obtain rfl := Option.some.inj (hfx.symm.trans hfx')
        exact .refl fx
      bigs_linked := hnew.1
      bigs_nodup := List.nodup_nil
      big := nofun
      ptr_ne := List.Pairwise.nil
      live := nofun }

/-! ## Runs -/

/-- The addresses of two blocks do not overlap. -/
def Live.Apart (b b' : Live) : Prop :=
  b.ptr + b.size.toInt.toNat ≤ b'.ptr ∨ b'.ptr + b'.size.toInt.toNat ≤ b.ptr

/-- Blocks of the program do not overlap. -/
theorem PoolState.Inv.apart (hinv : s.Inv q) : s.live.Pairwise Live.Apart := by
  obtain ⟨own, chunks, frees, bigs, hpool⟩ := hinv
  refine hpool.ptr_ne.imp_of_mem fun {b b'} hb hb' hne => ?_
  have hlive := hpool.live b hb
  have hlive' := hpool.live b' hb'
  have hdisjoint := hlive.owns.disjoint hlive'.owns (fun heq => hne (hlive.ptr_eq hlive' heq)) (by omega)
    (by omega)
  have hptr := hlive.four_lt
  have hptr' := hlive'.four_lt
  unfold Live.Apart
  omega

/-- **The pool is safe**: in every state that a program reaches from a new pool, asking only for sizes that
can be rounded up, live blocks do not overlap, every live block is returned to where it is from, and every
size selects a level of the pool or is large. -/
theorem pool_safe (hgrow : ∀ x, 0 < x → x ≤ grow x)
    (hcreate : MemPool.create grow minmem maxmem = some p)
    (hfits : CreateFits grow defLevel (atLeast defMinMem minmem) (atLeast defMaxMem maxmem))
    {cells : Mem UInt8} {ops : List PoolOp} (hops : ∀ op ∈ ops, op.Fits)
    (hrun : PoolState.run fuel ⟨p, ⟨cells, []⟩, []⟩ ops = some s) :
    s.live.Pairwise Live.Apart ∧
      (∀ b ∈ s.live, ∃ bound, ∀ fuel, bound ≤ fuel → ∃ h p',
        s.pool.dealloc fuel s.heap b.ptr = some (b.place, h, p')) ∧
      ∀ size, ∃ place, (∀ fuel, p.fixmem.length ≤ fuel → s.pool.place fuel (roundSize size) = some place) ∧
        ∀ i, place = .level i → i < s.pool.fixmem.length := by
  have hq := create_created hgrow hcreate hfits
  have hheld := (create_held hcreate cells).run hq hops hrun
  refine ⟨hheld.inv.apart, fun b hb => ?_, fun size => ?_⟩
  · obtain ⟨own, chunks, frees, hpool⟩ := hheld
    refine ⟨p.fixmem.length + s.bigs.length, fun fuel' hfuel => ?_⟩
    obtain ⟨r, hr⟩ := Option.isSome_iff_exists.mp (hpool.dealloc_isSome hb hfuel)
    obtain ⟨hplace, -⟩ := hpool.dealloc hb hr
    refine ⟨r.2.1, r.2.2, ?_⟩
    rw [hr, ← hplace]
  · obtain ⟨own, chunks, frees, hpool⟩ := hheld
    obtain ⟨place, hall, -, -, hlevel⟩ := hq.place_spec (roundSize size)
    refine ⟨place, fun fuel' hfuel => ?_, fun i hi => ?_⟩
    · rw [hpool.place_eq]
      exact hall fuel' hfuel
    · obtain ⟨fx, hfx, -, -⟩ := hlevel i hi
      rw [hpool.length_eq]
      exact (List.getElem?_eq_some_iff.mp hfx).1

/-- Sizes that are doubled, as long as that is possible. -/
def double (x : Int32) : Int32 := if x ≤ 1073741823 then 2 * x else x

theorem le_double {x : Int32} (hx : 0 < x) : x ≤ double x := by
  have hpos : 0 < x.toInt := Int32.lt_iff_toInt_lt.mp hx
  unfold double
  split_ifs with hle
  · have hle' : x.toInt ≤ 1073741823 := Int32.le_iff_toInt_le.mp hle
    have htwo : (2 : Int32).toInt = 2 := rfl
    rw [Int32.le_iff_toInt_le, Int32.toInt_mul, htwo, Int.bmod_eq_of_le (by omega) (by omega)]
    omega
  · exact Int32.le_refl x

/-- The default levels are in the range of `int`. -/
theorem double_fits : CreateFits double defLevel (atLeast defMinMem 0) (atLeast defMaxMem 0) := by
  have hnext : ∀ k < 10, double^[k] 1024 ≤ 1048576 → double^[k + 1] 1024 ≤ 2147483643 := by decide
  have hsize : ∀ k < 11, double^[k] 1024 ≤ 1048576 →
      ((double^[k] 1024).toInt + 4) * ((1048576 : Int32).toInt / (double^[k] 1024).toInt) < 2 ^ 31 := by
    decide
  exact ⟨by decide, fun k hk => hnext k (Nat.lt_of_succ_lt_succ hk), hsize⟩

/-- A small block, a large one, a write, and a block that is returned. -/
theorem pool_safe_two : ∃ p s, MemPool.create double 0 0 = some p ∧
    PoolState.run 11 ⟨p, ⟨fun _ => 0, []⟩, []⟩ [.alloc 10 [4096], .alloc 2000000 [4194304],
      .write 4116 0 [1, 2], .alloc 5 [], .dealloc 4116] = some s ∧
    s.live.map (·.ptr) = [5144, 4194316] ∧ s.live.Pairwise Live.Apart := by
  have hrun : ((MemPool.create double 0 0).bind fun p =>
      (PoolState.run 11 ⟨p, ⟨fun _ => 0, []⟩, []⟩ [.alloc 10 [4096], .alloc 2000000 [4194304],
        .write 4116 0 [1, 2], .alloc 5 [], .dealloc 4116]).map fun s => s.live.map (·.ptr)) =
      some [5144, 4194316] := by decide
  obtain ⟨p, hcreate, hmap⟩ := Option.bind_eq_some_iff.mp hrun
  obtain ⟨s, hs, hptrs⟩ := Option.map_eq_some_iff.mp hmap
  refine ⟨p, s, hcreate, hs, hptrs, (pool_safe (fun x => le_double) hcreate double_fits ?_ hs).1⟩
  simp only [List.forall_mem_cons, PoolOp.Fits, List.not_mem_nil, false_implies, implies_true, and_self,
    and_true]
  decide

/-- A size that cannot be rounded up gets a block of the first level, and the next block lies in it. -/
theorem pool_overlap : (∀ x, 0 < x → x ≤ double x) ∧ ∃ p s, MemPool.create double 0 0 = some p ∧
    PoolState.run 11 ⟨p, ⟨fun _ => 0, []⟩, []⟩ [.alloc 2147483647 [4096], .alloc 1 []] = some s ∧
    ¬ s.live.Pairwise Live.Apart := by
  have hrun : ((MemPool.create double 0 0).bind fun p =>
      (PoolState.run 11 ⟨p, ⟨fun _ => 0, []⟩, []⟩ [.alloc 2147483647 [4096], .alloc 1 []]).map fun s =>
        s.live.map fun b => (b.ptr, b.size)) = some [(5144, 1), (4116, 2147483647)] := by decide
  obtain ⟨p, hcreate, hmap⟩ := Option.bind_eq_some_iff.mp hrun
  obtain ⟨s, hs, hptrs⟩ := Option.map_eq_some_iff.mp hmap
  refine ⟨fun x => le_double, p, s, hcreate, hs, fun hapart => ?_⟩
  obtain ⟨b, b', hlive, hb, hb'⟩ : ∃ b b', s.live = [b, b'] ∧ (b.ptr, b.size) = (5144, 1) ∧
      (b'.ptr, b'.size) = (4116, 2147483647) := by
    obtain ⟨b, l, hl, hb, hrest⟩ := List.map_eq_cons_iff.mp hptrs
    obtain ⟨b', l', rfl, hb', hnil⟩ := List.map_eq_cons_iff.mp hrest
    rw [List.map_eq_nil_iff] at hnil
    subst hnil
    exact ⟨b, b', hl, hb, hb'⟩
  rw [hlive, List.pairwise_pair] at hapart
  unfold Live.Apart at hapart
  obtain ⟨hptr, hsize⟩ := Prod.mk.inj hb
  obtain ⟨hptr', hsize'⟩ := Prod.mk.inj hb'
  rw [hptr, hsize, hptr', hsize'] at hapart
  exact absurd hapart (by decide)

end Asenal.Comlog
