import Asenal.Comlog.PoolSafe

/-!
# What a block has room for

The size that a program asks for is rounded up and gets a header, in `size_t`, and the sum is stored as an
`int`. From 2147483641 on it does not fit, becomes negative, and selects the first level.

* `MemPool.Like.run` — a program does not change the sizes of the levels.
* `alloc_ample_iff` — when a block is as large as the program asked for.
-/

namespace Asenal.Comlog

open Asenal.Lib.Text Asenal.Lib.Memory Asenal.Lib.Owned

/-! ## Sizes -/

/-- The bytes behind the header of a block: what `malloc` was asked for, without the link and the header, or
a block of a level without its header. -/
def MemPool.usable (p : MemPool) (rsize : Int32) : Place → ℤ
  | .big => (cutInt 8 (rsize.toInt + 8) : ℤ) - 12
  | .level i => ((p.fixmem[i]?).map fun fx => fx.bsize.toInt - 4).getD 0

/-- A block is as large as it was asked for: the request is not smaller, and the block has room for it. -/
structure Ample (p : MemPool) (fuel : ℕ) (size : Int32) : Prop where
  request : size.toInt ≤ (roundSize size).toInt - 4
  block : ∃ place, p.place fuel (roundSize size) = some place ∧
    size.toInt ≤ p.usable (roundSize size) place

/-! ## The levels of a program -/

/-- A pool with levels of the same sizes. -/
structure MemPool.Like (p q : MemPool) : Prop where
  pool_eq : p = { q with fixmem := p.fixmem, biglist := p.biglist }
  fixmem : ∀ (i : ℕ) (fx : FixMem), q.fixmem[i]? = some fx → ∃ fx', p.fixmem[i]? = some fx' ∧ fx'.Like fx

variable {p p' q : MemPool} {s s' : PoolState} {h h' : Heap} {fuel ptr : ℕ} {size : Int32} {answers : List ℕ}

theorem MemPool.Like.refl (p : MemPool) : p.Like p := ⟨rfl, fun _ fx hfx => ⟨fx, hfx, .refl fx⟩⟩

theorem MemPool.Like.place_eq (hlike : p.Like q) (fuel : ℕ) (r : Int32) : p.place fuel r = q.place fuel r := by
  rw [hlike.pool_eq]
  rfl

/-- Another list of large blocks. -/
theorem MemPool.Like.biglist (hlike : p.Like q) (lst : ℕ) : MemPool.Like { p with biglist := lst } q where
  pool_eq := by rw [hlike.pool_eq]
  fixmem := hlike.fixmem

/-- A level of the same sizes in the place of another. -/
theorem MemPool.Like.set (hlike : p.Like q) {i : ℕ} {fx fx' : FixMem} (hfx : p.fixmem[i]? = some fx)
    (hsame : fx'.Like fx) : MemPool.Like { p with fixmem := p.fixmem.set i fx' } q where
  pool_eq := by rw [hlike.pool_eq]
  fixmem := by
    intro j gx hgx
    obtain ⟨gx', hgx', hlike'⟩ := hlike.fixmem j gx hgx
    by_cases hij : i = j
    · subst hij
      rw [hfx] at hgx'
      obtain rfl := Option.some.inj hgx'
      refine ⟨fx', ?_, hsame.trans hlike'⟩
      exact List.getElem?_set_self (List.getElem?_eq_some_iff.mp hfx).1
    · exact ⟨gx', (List.getElem?_set_ne hij).trans hgx', hlike'⟩

/-- A level keeps its sizes with a new chunk. -/
theorem FixMem.chunk_like {fx fx' : FixMem} {answers' : List ℕ}
    (hchunk : fx.chunk h answers = some (h', fx', answers')) : fx'.Like fx := by
  unfold FixMem.chunk at hchunk
  split_ifs at hchunk with hnow
  · obtain ⟨-, hpair⟩ := Prod.mk.inj (Option.some.inj hchunk)
    obtain ⟨rfl, -⟩ := Prod.mk.inj hpair
    exact .refl _
  · cases answers with
    | nil => exact absurd hchunk nofun
    | cons now answers =>
        dsimp only at hchunk
        cases hmalloc : h.malloc (cutInt 8 (16 + fx.size)) now with
        | none =>
            rw [hmalloc] at hchunk
            exact absurd hchunk nofun
        | some h₁ =>
            rw [hmalloc] at hchunk
            obtain ⟨-, hpair⟩ := Prod.mk.inj (Option.some.inj hchunk)
            obtain ⟨rfl, -⟩ := Prod.mk.inj hpair
            exact ⟨rfl, rfl, rfl⟩

/-- A level keeps its sizes when it hands out a block. -/
theorem FixMem.alloc_like {fx fx' : FixMem} {x : ℕ}
    (halloc : FixMem.alloc fuel h fx answers = some (x, h', fx')) : fx'.Like fx := by
  induction fuel generalizing h fx answers with
  | zero => cases halloc
  | succ fuel ih =>
      rw [FixMem.alloc] at halloc
      cases hchunk : fx.chunk h answers with
      | none =>
          rw [hchunk] at halloc
          cases halloc
      | some r =>
          obtain ⟨h₁, fx₁, answers₁⟩ := r
          have hlike := FixMem.chunk_like hchunk
          rw [hchunk] at halloc
          dsimp only at halloc
          split_ifs at halloc
          · obtain ⟨-, hpair⟩ := Prod.mk.inj (Option.some.inj halloc)
            obtain ⟨-, rfl⟩ := Prod.mk.inj hpair
            exact hlike
          · have hnew : ∀ now, FixMem.Like { fx₁ with now := now } fx :=
              fun now => ⟨hlike.1, hlike.2, hlike.3⟩
            exact (ih halloc).trans (hnew 0)
          · obtain ⟨-, hpair⟩ := Prod.mk.inj (Option.some.inj halloc)
            obtain ⟨-, rfl⟩ := Prod.mk.inj hpair
            exact ⟨hlike.1, hlike.2, hlike.3⟩
          · exact (ih halloc).trans ⟨hlike.1, hlike.2, hlike.3⟩

/-- The sizes of the levels after `alloc`. -/
theorem MemPool.Like.alloc (hlike : p.Like q) (halloc : p.alloc fuel h size answers = some (ptr, h', p')) :
    p'.Like q := by
  rcases alloc_cases halloc with ⟨lst, -, -, -, -, rfl⟩ | ⟨i, fx, x, h₁, fx', -, hfx, hfix, -, -, rfl⟩
  · exact hlike.biglist lst
  · exact hlike.set hfx (FixMem.alloc_like hfix)

/-- The sizes of the levels after `dealloc`. -/
theorem MemPool.Like.dealloc (hlike : p.Like q) {place : Place}
    (hdealloc : p.dealloc fuel h ptr = some (place, h', p')) : p'.Like q := by
  unfold MemPool.dealloc at hdealloc
  dsimp only at hdealloc
  split at hdealloc
  · exact absurd hdealloc nofun
  · split at hdealloc
    · exact absurd hdealloc nofun
    · obtain ⟨-, hpair⟩ := Prod.mk.inj (Option.some.inj hdealloc)
      obtain ⟨-, rfl⟩ := Prod.mk.inj hpair
      exact hlike.biglist _
  · split at hdealloc
    · exact absurd hdealloc nofun
    · next hfx =>
        obtain ⟨-, hpair⟩ := Prod.mk.inj (Option.some.inj hdealloc)
        obtain ⟨-, rfl⟩ := Prod.mk.inj hpair
        exact hlike.set hfx ⟨rfl, rfl, rfl⟩

/-- **One operation** of a program. -/
theorem MemPool.Like.step (hlike : s.pool.Like q) {op : PoolOp} (hstep : s.step fuel op = some s') :
    s'.pool.Like q := by
  cases op with
  | alloc size answers =>
      rw [PoolState.step] at hstep
      split at hstep
      · next halloc =>
          obtain rfl := Option.some.inj hstep
          exact hlike.alloc halloc
      · cases hstep
  | dealloc ptr =>
      rw [PoolState.step] at hstep
      split_ifs at hstep
      obtain ⟨⟨place, h', p'⟩, hdealloc, rfl⟩ := Option.map_eq_some_iff.mp hstep
      exact hlike.dealloc hdealloc
  | write ptr off bs =>
      rw [PoolState.step] at hstep
      split_ifs at hstep
      obtain rfl := Option.some.inj hstep
      exact hlike

/-- **A program** does not change the sizes of the levels. -/
theorem MemPool.Like.run (hlike : s.pool.Like q) {ops : List PoolOp} (hrun : s.run fuel ops = some s') :
    s'.pool.Like q := by
  induction ops generalizing s with
  | nil =>
      obtain rfl := Option.some.inj hrun
      exact hlike
  | cons op ops ih =>
      obtain ⟨s₁, hstep, hrest⟩ := Option.bind_eq_some_iff.mp hrun
      exact ih (hlike.step hstep) hrest

/-! ## Blocks -/

/-- The blocks of a size that can be rounded up have room for it. -/
theorem Created.ample (hq : Created q) (hlike : p.Like q) (hsize : size ≤ 2147483640)
    (halloc : p.alloc fuel h size answers = some (ptr, h', p')) : Ample p fuel size := by
  have hround := roundSize_toInt hsize
  have hlarge := hq.le_allocmem
  obtain ⟨place, -, huniq, hbig, hlevel⟩ := hq.place_spec (roundSize size)
  refine ⟨by omega, ?_⟩
  rcases alloc_cases halloc with ⟨lst, hplace, -⟩ | ⟨i, fx, x, h₁, fx', hplace, -⟩
  · refine ⟨.big, hplace, ?_⟩
    have hlt := Int32.lt_iff_toInt_lt.mp
      (hbig (huniq fuel .big (hlike.place_eq fuel (roundSize size) ▸ hplace)).symm)
    show size.toInt ≤ (cutInt 8 ((roundSize size).toInt + 8) : ℤ) - 12
    have hhi := (roundSize size).toInt_lt
    unfold cutInt
    omega
  · refine ⟨.level i, hplace, ?_⟩
    have hplace₀ := huniq fuel (.level i) (hlike.place_eq fuel (roundSize size) ▸ hplace)
    obtain ⟨gx, hgx, -, hle⟩ := hlevel i hplace₀.symm
    obtain ⟨gx', hgx', hsame⟩ := hlike.fixmem i gx hgx
    show size.toInt ≤ ((p.fixmem[i]?).map fun fx => fx.bsize.toInt - 4).getD 0
    rw [hgx', Option.map_some, Option.getD_some, hsame.bsize_eq]
    omega

/-- **When a block is as large as the program asked for**: its size can be rounded up. -/
theorem alloc_ample_iff {grow : Int32 → Int32} {minmem maxmem : Int32} (hgrow : ∀ x, 0 < x → x ≤ grow x)
    (hcreate : MemPool.create grow minmem maxmem = some p)
    (hfits : CreateFits grow defLevel (atLeast defMinMem minmem) (atLeast defMaxMem maxmem))
    {cells : Mem UInt8} {ops : List PoolOp} (hrun : PoolState.run fuel ⟨p, ⟨cells, []⟩, []⟩ ops = some s)
    (halloc : s.pool.alloc fuel s.heap size answers = some (ptr, h', p')) :
    Ample s.pool fuel size ↔ size ≤ 2147483640 := by
  have hlike : s.pool.Like p := MemPool.Like.run (.refl p) hrun
  refine ⟨fun hample => ?_, fun hsize => (create_created hgrow hcreate hfits).ample hlike hsize halloc⟩
  by_contra hnot
  have hlarge := Int32.lt_iff_toInt_lt.mp (Int32.not_le.mp hnot)
  have hbound : (2147483640 : Int32).toInt = 2147483640 := rfl
  have hneg := roundSize_overflow (Int32.not_le.mp hnot)
  have hrequest := hample.request
  omega

/-- A pool with the default levels. -/
theorem alloc_ample_ten : ∃ p s r, MemPool.create double 0 0 = some p ∧
    PoolState.run 11 ⟨p, ⟨fun _ => 0, []⟩, []⟩ [.alloc 2000000 [4194304]] = some s ∧
    s.pool.alloc 11 s.heap 10 [4096] = some r ∧ (Ample s.pool 11 10 ↔ (10 : Int32) ≤ 2147483640) := by
  have hrun : ((MemPool.create double 0 0).bind fun p =>
      (PoolState.run 11 ⟨p, ⟨fun _ => 0, []⟩, []⟩ [.alloc 2000000 [4194304]]).bind fun s =>
        (s.pool.alloc 11 s.heap 10 [4096]).map fun r => r.1) = some 4116 := by decide
  obtain ⟨p, hcreate, hbind⟩ := Option.bind_eq_some_iff.mp hrun
  obtain ⟨s, hs, hmap⟩ := Option.bind_eq_some_iff.mp hbind
  obtain ⟨r, hr, -⟩ := Option.map_eq_some_iff.mp hmap
  exact ⟨p, s, r, hcreate, hs, hr, alloc_ample_iff (fun x => le_double) hcreate double_fits hs hr⟩

/-- A size that is too large gets a block of 1024 bytes. -/
theorem alloc_too_large : ∃ p r, MemPool.create double 0 0 = some p ∧
    p.alloc 11 ⟨fun _ => 0, []⟩ 2147483647 [4096] = some r ∧ p.place 11 (roundSize 2147483647) = some (.level 0) ∧
    p.usable (roundSize 2147483647) (.level 0) = 1024 ∧ ¬ Ample p 11 2147483647 := by
  have halloc : ((MemPool.create double 0 0).bind fun p =>
      (p.alloc 11 ⟨fun _ => 0, []⟩ 2147483647 [4096]).map fun _ =>
        (p.place 11 (roundSize 2147483647), p.usable (roundSize 2147483647) (.level 0))) =
      some (some (.level 0), 1024) := by decide
  obtain ⟨p, hcreate, hmap⟩ := Option.bind_eq_some_iff.mp halloc
  obtain ⟨r, hr, hpair⟩ := Option.map_eq_some_iff.mp hmap
  obtain ⟨hplace, husable⟩ := Prod.mk.inj hpair
  refine ⟨p, r, hcreate, hr, hplace, husable, fun hample => ?_⟩
  exact absurd hample.request (by decide)

end Asenal.Comlog
