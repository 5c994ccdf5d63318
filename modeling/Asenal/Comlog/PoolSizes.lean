import Asenal.Comlog.PoolLevel

/-!
# Sizes, levels and large blocks

`create` and `getidx` derive the sizes of the levels by loops of their own; as long as no size leaves the
range of `int`, they agree.

* `createLevels_select` — every size that is not too large has a level.
* `Created.place_spec` — where a block is taken from does not depend on the time that is given.
* `dlistErase_spec` — the list of large blocks loses one.
-/

namespace Asenal.Comlog

open Asenal.Lib.Text Asenal.Lib.Memory Asenal.Lib.Owned

/-! ## Sizes -/

/-- A rounded size: the sum is taken in `size_t`, and cut to an `int`. -/
theorem roundSize_bmod (size : Int32) :
    (roundSize size).toInt = ((size.toInt + 3) % 2 ^ 64 / 4 * 4 + 4).bmod (2 ^ 32) := by
  have hlo := size.le_toInt
  have hhi := size.toInt_lt
  have hlong : ∀ v : Int64, v.toInt = (v.toUInt64.toNat : ℤ).bmod (2 ^ 64) :=
    fun v => BitVec.toInt_eq_toNat_bmod v.toBitVec
  have hint : ∀ w : UInt32, w.toInt32.toInt = (w.toNat : ℤ).bmod (2 ^ 32) :=
    fun w => BitVec.toInt_eq_toNat_bmod w.toBitVec
  have hwide := hlong size.toInt64
  have hlt := size.toInt64.toUInt64.toNat_lt
  rw [Int32.toInt_toInt64] at hwide
  unfold roundSize
  generalize size.toInt64.toUInt64 = u at *
  have hfour : (4 : UInt64).toNat = 4 := rfl
  have hone : (1 : UInt64).toNat = 1 := rfl
  rw [hint, UInt64.toNat_toUInt32, UInt64.toNat_add, UInt64.toNat_mul, UInt64.toNat_div,
    UInt64.toNat_sub, UInt64.toNat_add, hfour, hone]
  rw [Int.bmod_def] at hwide
  rw [Int.bmod_def, Int.bmod_def]
  split_ifs at hwide ⊢ <;> omega

/-- A rounded size, unless it leaves the range of `int`. -/
theorem roundSize_toInt {size : Int32} (h : size ≤ 2147483640) :
    (roundSize size).toInt = (size.toInt + 3) / 4 * 4 + 4 := by
  have hlo := size.le_toInt
  have hhi : size.toInt ≤ 2147483640 := Int32.le_iff_toInt_le.mp h
  rw [roundSize_bmod, Int.bmod_def]
  split_ifs <;> omega

/-- A size that cannot be rounded up. -/
theorem roundSize_overflow {size : Int32} (h : 2147483640 < size) : (roundSize size).toInt < 0 := by
  have hlo : 2147483640 < size.toInt := Int32.lt_iff_toInt_lt.mp h
  have hhi := size.toInt_lt
  rw [roundSize_bmod, Int.bmod_def]
  split_ifs <;> omega

/-- An addition in the range of `int`. -/
theorem toInt_add_four {x : Int32} (h : x.toInt ≤ 2147483643) : (x + 4).toInt = x.toInt + 4 := by
  have hlo := x.le_toInt
  have hfour : (4 : Int32).toInt = 4 := rfl
  rw [Int32.toInt_add, hfour]
  exact Int.bmod_eq_of_le (by omega) (by omega)

/-! ## Levels -/

/-- What `create` computes for `n` levels, from `mem` on, is in the range of `int`: the limit and the
sizes with their headers, and the sizes of the chunks. -/
structure CreateFits (grow : Int32 → Int32) (n : ℕ) (mem maxmem : Int32) : Prop where
  max_le : maxmem ≤ 2147483643
  next_le : ∀ k, k + 1 < n → grow^[k] mem ≤ maxmem → grow^[k + 1] mem ≤ 2147483643
  size_lt : ∀ k < n, grow^[k] mem ≤ maxmem →
    ((grow^[k] mem).toInt + 4) * (maxmem.toInt / (grow^[k] mem).toInt) < 2 ^ 31

/-- Every rounded size up to the largest one of the levels has a level whose blocks are large enough. -/
def Selects (grow : Int32 → Int32) (mem : Int32) (fixmem : List FixMem) (allocmem : Int32) : Prop :=
  ∀ r : Int32, r ≤ allocmem → ∃ i fx, fixmem[i]? = some fx ∧ fx.Sound ∧
    r.toInt ≤ fx.bsize.toInt ∧ ∀ fuel ptr, fixmem.length ≤ fuel → getidxLoop grow r fuel mem ptr = some (ptr + i)

variable {grow : Int32 → Int32} {mem maxmem allocmem : Int32} {n : ℕ}

theorem CreateFits.succ (h : CreateFits grow (n + 1) mem maxmem) :
    CreateFits grow n (grow mem) maxmem :=
  ⟨h.max_le, fun k hk => h.next_le (k + 1) (Nat.succ_lt_succ hk),
    fun k hk => h.size_lt (k + 1) (Nat.succ_lt_succ hk)⟩

/-- Without levels every block is large. -/
theorem createLevels_nil (h : (createLevels grow maxmem n mem allocmem).1 = []) :
    (createLevels grow maxmem n mem allocmem).2 = allocmem := by
  cases n with
  | zero => rfl
  | succ n =>
      rw [createLevels] at h ⊢
      dsimp only at h ⊢
      by_cases hle : mem + 4 ≤ maxmem + 4
      · rw [if_pos hle] at h
        exact absurd h (List.cons_ne_nil _ _)
      · rw [if_neg hle]

/-- The sizes of a level that is created. -/
theorem FixMem.create_sound (hmem : 1024 ≤ mem.toInt) (hle : mem ≤ maxmem) (hmax : maxmem ≤ 2147483643)
    (hsize : (mem.toInt + 4) * (maxmem.toInt / mem.toInt) < 2 ^ 31) :
    (FixMem.create (maxmem / mem) (mem + 4)).Sound ∧
      (FixMem.create (maxmem / mem) (mem + 4)).bsize.toInt = mem.toInt + 4 := by
  have hle' := Int32.le_iff_toInt_le.mp hle
  have hmax' : maxmem.toInt ≤ 2147483643 := Int32.le_iff_toInt_le.mp hmax
  have hbsize : (mem + 4).toInt = mem.toInt + 4 := toInt_add_four (by omega)
  have hone : 1 ≤ maxmem.toInt / mem.toInt := Int.le_ediv_of_mul_le (by omega) (by omega)
  have hquot : maxmem.toInt / mem.toInt ≤ maxmem.toInt := Int.ediv_le_self _ (by omega)
  have hbnum : (maxmem / mem).toInt = maxmem.toInt / mem.toInt := by
    rw [Int32.toInt_div, Int.tdiv_eq_ediv_of_nonneg (by omega)]
    exact Int.bmod_eq_of_le (by omega) (by omega)
  have hprod : ((mem + 4) * (maxmem / mem)).toInt = (mem.toInt + 4) * (maxmem.toInt / mem.toInt) := by
    have hpos : 0 ≤ (mem.toInt + 4) * (maxmem.toInt / mem.toInt) := Int.mul_nonneg (by omega) (by omega)
    rw [Int32.toInt_mul, hbsize, hbnum]
    exact Int.bmod_eq_of_le (by omega) (by omega)
  refine ⟨⟨?_, ?_, ?_, ?_⟩, hbsize⟩
  · unfold FixMem.blockSize FixMem.create
    dsimp only
    omega
  · unfold FixMem.blockNum FixMem.create
    dsimp only
    omega
  · unfold FixMem.blockSize FixMem.blockNum FixMem.create
    dsimp only
    rw [hprod, hbsize, hbnum, Nat.cast_mul, Int.toNat_of_nonneg (by omega),
      Int.toNat_of_nonneg (by omega), Int.mul_comm]
  · unfold FixMem.create
    dsimp only
    rw [hprod]
    exact hsize

/-- **The levels that are created** have a level for every size that is not too large. -/
theorem createLevels_select (hgrow : ∀ x, 0 < x → x ≤ grow x) (hmem : 1024 ≤ mem.toInt)
    (hmem' : mem.toInt ≤ 2147483643) (hfits : CreateFits grow n mem maxmem)
    (hne : (createLevels grow maxmem n mem allocmem).1 ≠ []) :
    Selects grow mem (createLevels grow maxmem n mem allocmem).1
        (createLevels grow maxmem n mem allocmem).2 ∧
      1028 ≤ (createLevels grow maxmem n mem allocmem).2.toInt := by
  have hmax := hfits.max_le
  have hmax' : maxmem.toInt ≤ 2147483643 := Int32.le_iff_toInt_le.mp hmax
  induction n generalizing mem allocmem with
  | zero => exact absurd rfl hne
  | succ n ih =>
      rw [createLevels] at hne ⊢
      dsimp only at hne ⊢
      by_cases hle : mem + 4 ≤ maxmem + 4
      swap
      · rw [if_neg hle] at hne
        exact absurd rfl hne
      rw [if_pos hle]
      dsimp only
      have hrsize := toInt_add_four hmem'
      have hmemmax : mem ≤ maxmem := by
        rw [Int32.le_iff_toInt_le, hrsize, toInt_add_four hmax'] at hle
        exact Int32.le_iff_toInt_le.mpr (by omega)
      obtain ⟨hsound, hbsize⟩ :=
        FixMem.create_sound hmem hmemmax hmax (hfits.size_lt 0 (Nat.succ_pos n) hmemmax)
      -- a block of the first level
      have hfirst : ∀ (rest : List FixMem) (r : Int32), r ≤ mem + 4 → ∃ i fx,
          (FixMem.create (maxmem / mem) (mem + 4) :: rest)[i]? = some fx ∧ fx.Sound ∧
          r.toInt ≤ fx.bsize.toInt ∧
          ∀ fuel ptr, (FixMem.create (maxmem / mem) (mem + 4) :: rest).length ≤ fuel →
            getidxLoop grow r fuel mem ptr = some (ptr + i) := by
        intro rest r hr
        refine ⟨0, _, rfl, hsound, ?_, fun fuel ptr hfuel => ?_⟩
        · rw [hbsize]
          rwa [Int32.le_iff_toInt_le, hrsize] at hr
        · rw [List.length_cons] at hfuel
          obtain ⟨fuel, rfl⟩ := Nat.exists_eq_succ_of_ne_zero (show fuel ≠ 0 by omega)
          rw [getidxLoop, if_neg (Int32.not_lt.mpr hr)]
          rfl
      by_cases hrest : (createLevels grow maxmem n (grow mem) (mem + 4)).1 = []
      · rw [createLevels_nil hrest]
        exact ⟨hfirst _, by omega⟩
      · have hpos : 0 < mem := Int32.lt_iff_toInt_lt.mpr (Int.lt_of_lt_of_le (by decide) hmem)
        have hnext := Int32.le_iff_toInt_le.mp (hgrow mem hpos)
        have hn : 0 + 1 < n + 1 := by
          refine Nat.succ_lt_succ (Nat.pos_of_ne_zero fun hzero => hrest ?_)
          rw [hzero]
          rfl
        have hnextle : (grow mem).toInt ≤ 2147483643 :=
          Int32.le_iff_toInt_le.mp (hfits.next_le 0 hn hmemmax)
        obtain ⟨hselect, hlarge⟩ := ih (by omega) hnextle hfits.succ hrest
        refine ⟨fun r hr => ?_, hlarge⟩
        by_cases hsmall : r ≤ mem + 4
        · exact hfirst _ r hsmall
        · obtain ⟨i, fx, hi, hsound', hrfx, hidx⟩ := hselect r hr
          refine ⟨i + 1, fx, hi, hsound', hrfx, fun fuel ptr hfuel => ?_⟩
          rw [List.length_cons] at hfuel
          obtain ⟨fuel, rfl⟩ := Nat.exists_eq_succ_of_ne_zero (show fuel ≠ 0 by omega)
          rw [getidxLoop, if_pos (Int32.not_le.mp hsmall),
            hidx fuel (ptr + 1) (Nat.le_of_succ_le_succ hfuel), Nat.add_assoc, Nat.add_comm 1]

/-- A level that is found is found with more time. -/
theorem getidxLoop_mono {r : Int32} {fuel fuel' ptr i : ℕ} (h : getidxLoop grow r fuel mem ptr = some i)
    (hle : fuel ≤ fuel') : getidxLoop grow r fuel' mem ptr = some i := by
  induction fuel generalizing mem ptr fuel' with
  | zero => exact absurd h nofun
  | succ fuel ih =>
      obtain ⟨fuel', rfl⟩ := Nat.exists_eq_succ_of_ne_zero (show fuel' ≠ 0 by omega)
      rw [getidxLoop] at h ⊢
      split_ifs at h ⊢
      · exact ih h (Nat.le_of_succ_le_succ hle)
      · exact h

theorem place_mono {p : MemPool} {r : Int32} {fuel fuel' : ℕ} {place : Place}
    (h : p.place fuel r = some place) (hle : fuel ≤ fuel') : p.place fuel' r = some place := by
  unfold MemPool.place at h ⊢
  split_ifs at h ⊢
  · exact h
  · obtain ⟨i, hi, rfl⟩ := Option.map_eq_some_iff.mp h
    rw [MemPool.getidx, getidxLoop_mono hi hle]
    rfl

/-- The levels of a pool after `create`. -/
structure Created (q : MemPool) : Prop where
  select : Selects q.grow q.minmem q.fixmem q.allocmem
  le_allocmem : 1028 ≤ q.allocmem.toInt

/-- A rounded size has one place; a level of the pool has blocks that are large enough. -/
theorem Created.place_spec {q : MemPool} (hq : Created q) (r : Int32) :
    ∃ place, (∀ fuel, q.fixmem.length ≤ fuel → q.place fuel r = some place) ∧
      (∀ fuel place', q.place fuel r = some place' → place' = place) ∧
      (place = .big → q.allocmem < r) ∧
      ∀ i, place = .level i → ∃ fx, q.fixmem[i]? = some fx ∧ fx.Sound ∧ r.toInt ≤ fx.bsize.toInt := by
  by_cases hlarge : q.allocmem < r
  · have hbig : ∀ fuel, q.place fuel r = some .big := fun fuel => if_pos hlarge
    exact ⟨.big, fun fuel _ => hbig fuel, fun fuel place' h => Option.some.inj (h.symm.trans (hbig fuel)),
      fun _ => hlarge, nofun⟩
  · obtain ⟨i, fx, hfx, hsound, hle, hidx⟩ := hq.select r (Int32.not_lt.mp hlarge)
    have hlevel : ∀ fuel, q.fixmem.length ≤ fuel → q.place fuel r = some (.level i) := by
      intro fuel hfuel
      rw [MemPool.place, if_neg hlarge, MemPool.getidx, hidx fuel 0 hfuel, Nat.zero_add]
      rfl
    refine ⟨.level i, hlevel, fun fuel place' h => ?_, nofun, fun j hj => ?_⟩
    · have hmono := place_mono h (Nat.le_max_left fuel q.fixmem.length)
      rw [hlevel _ (Nat.le_max_right _ _)] at hmono
      exact (Option.some.inj hmono).symm
    · obtain rfl := Place.level.inj hj
      exact ⟨fx, hfx, hsound, hle⟩

/-- The levels that are created have no chunks and no free blocks. -/
theorem createLevels_new : ∀ fx ∈ (createLevels grow maxmem n mem allocmem).1,
    fx.mem = 0 ∧ fx.now = 0 ∧ fx.free = 0 := by
  induction n generalizing mem allocmem with
  | zero => exact fun fx hfx => absurd hfx List.not_mem_nil
  | succ n ih =>
      rw [createLevels]
      dsimp only
      split_ifs
      · exact List.forall_mem_cons.mpr ⟨⟨rfl, rfl, rfl⟩, ih⟩
      · exact fun fx hfx => absurd hfx List.not_mem_nil

/-! ## Large blocks -/

variable {m : Mem UInt8} {own : ℕ → Option Owner} {node front root : ℕ} {bigs : List ℕ}

/-- The rest of the list loses the block. -/
theorem dlistWalk_spec {rest : List ℕ} (hnodup : (front :: rest).Nodup)
    (hown : ∀ y ∈ front :: rest, Owns own (.link y) y 8) (hlinked : Linked m rest (load m front 8))
    (hmem : node ∈ rest) :
    ∃ m', Linked m' (rest.erase node) (load m' front 8) ∧
      (∃ y ∈ front :: rest, ∃ v, m' = store m y 8 v) ∧
      (∀ fuel r, dlistWalk node fuel m front (load m front 8) = some r → r = m') ∧
      ∀ fuel, rest.length ≤ fuel → dlistWalk node fuel m front (load m front 8) = some m' := by
  induction rest generalizing front with
  | nil => exact absurd hmem List.not_mem_nil
  | cons x xs ih =>
      obtain ⟨hx, hx0, hrest⟩ := hlinked
      obtain ⟨hfront, hnodup'⟩ := List.nodup_cons.mp hnodup
      have hne : ∀ y ∈ x :: xs, Owner.link front ≠ .link y := by
        intro y hy heq
        rw [Owner.link.inj heq] at hfront
        exact hfront hy
      rw [hx]
      by_cases hnode : node = x
      · -- the element behind the first one
        subst hnode
        have hlink : load (store m front 8 (load m node 8)) front 8 = load m node 8 :=
          load_store_self m front (load_lt m node 8)
        refine ⟨store m front 8 (load m node 8), ?_, ⟨front, List.mem_cons_self, _, rfl⟩,
          fun fuel r hr => ?_, fun fuel hfuel => ?_⟩
        · rw [List.erase_cons_head, hlink]
          exact hrest.congr fun y hy => load_store_of_owns (hown front List.mem_cons_self)
            (hown y (List.mem_cons_of_mem _ (List.mem_cons_of_mem _ hy)))
            (hne y (List.mem_cons_of_mem _ hy))
        · cases fuel with
          | zero => exact absurd hr nofun
          | succ fuel =>
              rw [dlistWalk, if_neg hx0, if_pos rfl] at hr
              exact (Option.some.inj hr).symm
        · rw [List.length_cons] at hfuel
          obtain ⟨fuel, rfl⟩ := Nat.exists_eq_succ_of_ne_zero (show fuel ≠ 0 by omega)
          rw [dlistWalk, if_neg hx0, if_pos rfl]
      · have hmem' : node ∈ xs := (List.mem_cons.mp hmem).resolve_left hnode
        obtain ⟨m', hlinked', ⟨y, hy, v, hm'⟩, huniq, hex⟩ :=
          ih hnodup' (fun y hy => hown y (List.mem_cons_of_mem _ hy)) hrest hmem'
        have hkeep : load m' front 8 = x := by
          rw [hm', load_store_of_owns (hown y (List.mem_cons_of_mem _ hy))
            (hown front List.mem_cons_self) (hne y hy).symm, hx]
        refine ⟨m', ?_, ⟨y, List.mem_cons_of_mem _ hy, v, hm'⟩, fun fuel r hr => ?_,
          fun fuel hfuel => ?_⟩
        · rw [List.erase_cons_tail (by simpa using Ne.symm hnode), hkeep]
          exact ⟨rfl, hx0, hlinked'⟩
        · cases fuel with
          | zero => exact absurd hr nofun
          | succ fuel =>
              rw [dlistWalk, if_neg hx0, if_neg hnode, hx] at hr
              exact huniq fuel r hr
        · rw [List.length_cons] at hfuel
          obtain ⟨fuel, rfl⟩ := Nat.exists_eq_succ_of_ne_zero (show fuel ≠ 0 by omega)
          rw [dlistWalk, if_neg hx0, if_neg hnode, hx]
          exact hex fuel (Nat.le_of_succ_le_succ hfuel)

/-- The list loses the block. -/
theorem dlistErase_spec (hnodup : bigs.Nodup) (hown : ∀ y ∈ bigs, Owns own (.link y) y 8)
    (hlinked : Linked m bigs root) (hmem : node ∈ bigs) :
    ∃ m' root', Linked m' (bigs.erase node) root' ∧
      (m' = m ∨ ∃ y ∈ bigs, ∃ v, m' = store m y 8 v) ∧
      (∀ fuel r, dlistErase fuel m root node = some r → r = (m', root')) ∧
      ∀ fuel, bigs.length ≤ fuel → dlistErase fuel m root node = some (m', root') := by
  cases bigs with
  | nil => exact absurd hmem List.not_mem_nil
  | cons x xs =>
      obtain ⟨rfl, hx0, hrest⟩ := hlinked
      unfold dlistErase
      by_cases hroot : root = node
      · refine ⟨m, load m root 8, ?_, Or.inl rfl, fun fuel r hr => ?_, fun fuel _ => if_pos hroot⟩
        · rw [← hroot, List.erase_cons_head]
          exact hrest
        · rw [if_pos hroot] at hr
          exact (Option.some.inj hr).symm
      · have hmem' : node ∈ xs := (List.mem_cons.mp hmem).resolve_left (Ne.symm hroot)
        obtain ⟨m', hlinked', hstore, huniq, hex⟩ := dlistWalk_spec hnodup hown hrest hmem'
        refine ⟨m', root, ?_, Or.inr hstore, fun fuel r hr => ?_, fun fuel hfuel => ?_⟩
        · rw [List.erase_cons_tail (by simpa using hroot)]
          exact ⟨rfl, hx0, hlinked'⟩
        · rw [if_neg hroot] at hr
          obtain ⟨m'', hwalk, rfl⟩ := Option.map_eq_some_iff.mp hr
          rw [huniq fuel m'' hwalk]
        · rw [List.length_cons] at hfuel
          rw [if_neg hroot, hex fuel (by omega)]
          rfl

end Asenal.Comlog
