import Asenal.Comlog.PoolSizes

/-!
# Runs of the pool

What holds in every state a program can bring the pool to: every address has one owner, each block of the
program knows where it is from, and the lists hold what was returned.

* `PoolInv` — the invariant; `PoolInv.write`, `PoolInv.allocLevel`, `PoolInv.allocBig`,
  `PoolInv.deallocLevel`, `PoolInv.deallocBig` — what one operation preserves.
* `pool_safe` — blocks do not overlap, and go back to where they are from.
-/

namespace Asenal.Comlog

open Asenal.Lib.Text Asenal.Lib.Memory Asenal.Lib.Owned

/-! ## The invariant -/

/-- Who has the block. -/
def Live.owner (b : Live) : Owner :=
  match b.place with
  | .big => .big (b.ptr - 12)
  | .level i => .node i (b.ptr - 4)

theorem Live.owner_big {b : Live} (h : b.place = .big) : b.owner = .big (b.ptr - 12) := by
  rw [Live.owner, h]

theorem Live.owner_level {b : Live} {i : ℕ} (h : b.place = .level i) : b.owner = .node i (b.ptr - 4) := by
  rw [Live.owner, h]

/-- A block that a program has. -/
structure LiveInv (q : MemPool) (m : Mem UInt8) (own : ℕ → Option Owner) (frees : ℕ → List ℕ)
    (bigs : List ℕ) (b : Live) : Prop where
  owns : Owns own b.owner (b.ptr - 4) (b.size.toInt.toNat + 4)
  header : loadInt m (b.ptr - 4) = roundSize b.size
  place_eq : ∀ fuel, q.fixmem.length ≤ fuel → q.place fuel (roundSize b.size) = some b.place
  from_big : b.place = .big → 12 < b.ptr ∧ b.ptr - 12 ∈ bigs
  from_level : ∀ i, b.place = .level i → 4 < b.ptr ∧ b.ptr - 4 ∉ frees i ∧
    ∃ fx, q.fixmem[i]? = some fx ∧ fx.Sound ∧ Owns own b.owner (b.ptr - 4) fx.blockSize

/-- A large block: its link and the rest. -/
structure BigInv (blocks : List (ℕ × ℕ)) (own : ℕ → Option Owner) (x : ℕ) : Prop where
  link : Owns own (.link x) x 8
  block : ∃ n, (x, 8 + n) ∈ blocks ∧ Owns own (.big x) (x + 8) n

/-- The pool, with the owners, the chunks and the free blocks of the levels, and the large blocks. -/
structure PoolInv (q : MemPool) (s : PoolState) (own : ℕ → Option Owner) (chunks frees : ℕ → List ℕ)
    (bigs : List ℕ) : Prop where
  pool_eq : s.pool = { q with fixmem := s.pool.fixmem, biglist := s.pool.biglist }
  backed : Backed s.heap own
  level : ∀ i fx, s.pool.fixmem[i]? = some fx → LevelInv s.heap.cells own i fx (chunks i) (frees i)
  length_eq : s.pool.fixmem.length = q.fixmem.length
  like : ∀ (i : ℕ) (fx fx' : FixMem), s.pool.fixmem[i]? = some fx → q.fixmem[i]? = some fx' → fx.Like fx'
  bigs_linked : Linked s.heap.cells bigs s.pool.biglist
  bigs_nodup : bigs.Nodup
  big : ∀ x ∈ bigs, BigInv s.heap.blocks own x
  ptr_ne : s.live.Pairwise fun b b' => b.ptr ≠ b'.ptr
  live : ∀ b ∈ s.live, LiveInv q s.heap.cells own frees bigs b

/-- With some owners, chunks, free blocks and large blocks, the invariant holds. -/
def PoolState.Inv (q : MemPool) (s : PoolState) : Prop :=
  ∃ own chunks frees bigs, PoolInv q s own chunks frees bigs

/-- The level that an owner is of. -/
def Owner.level : Owner → Option ℕ
  | .header i _ | .area i | .node i _ => some i
  | .link _ | .big _ => none

variable {q : MemPool} {s s' : PoolState} {m m' : Mem UInt8} {own own' : ℕ → Option Owner}
  {chunks frees frees' : ℕ → List ℕ} {bigs bigs' : List ℕ} {b b' : Live} {S : Owner → Prop}

theorem InLevel.level_eq {i : ℕ} {xs : List ℕ} {o : Owner} (h : InLevel i xs o) : o.level = some i := by
  rcases h with rfl | ⟨c, rfl⟩ | ⟨x, -, rfl⟩ <;> rfl

/-! ## Blocks of a program -/

/-- A block does not belong to its level any more. -/
theorem LiveInv.not_inLevel (h : LiveInv q m own frees bigs b) (i : ℕ) : ¬ InLevel i (frees i) b.owner := by
  intro hin
  cases hplace : b.place with
  | big =>
      have hlevel := hin.level_eq
      rw [Live.owner_big hplace] at hlevel
      exact absurd hlevel nofun
  | level j =>
      rw [Live.owner_level hplace] at hin
      obtain rfl := Option.some.inj hin.level_eq
      rcases hin with heq | ⟨c, heq⟩ | ⟨x, hx, heq⟩
      · exact absurd heq nofun
      · exact absurd heq nofun
      · rw [← (Owner.node.inj heq).2] at hx
        exact (h.from_level _ hplace).2.1 hx

/-- The owner of a block does not have the link of a large one. -/
theorem Live.owner_ne_link (b : Live) (x : ℕ) : b.owner ≠ .link x := by
  unfold Live.owner
  cases b.place <;> nofun

/-- Different blocks have different owners. -/
theorem LiveInv.ptr_eq (h : LiveInv q m own frees bigs b) (h' : LiveInv q m own frees bigs b')
    (heq : b.owner = b'.owner) : b.ptr = b'.ptr := by
  cases hplace : b.place with
  | big =>
      cases hplace' : b'.place with
      | big =>
          rw [Live.owner_big hplace, Live.owner_big hplace'] at heq
          have hptr := Owner.big.inj heq
          have h₁ := (h.from_big hplace).1
          have h₂ := (h'.from_big hplace').1
          omega
      | level j =>
          rw [Live.owner_big hplace, Live.owner_level hplace'] at heq
          exact absurd heq nofun
  | level i =>
      cases hplace' : b'.place with
      | big =>
          rw [Live.owner_level hplace, Live.owner_big hplace'] at heq
          exact absurd heq nofun
      | level j =>
          rw [Live.owner_level hplace, Live.owner_level hplace'] at heq
          have hptr := (Owner.node.inj heq).2
          have h₁ := (h.from_level i hplace).1
          have h₂ := (h'.from_level j hplace').1
          omega

/-- The header of a block is in front of it. -/
theorem LiveInv.four_lt (h : LiveInv q m own frees bigs b) : 4 < b.ptr := by
  cases hplace : b.place with
  | big =>
      have h12 := (h.from_big hplace).1
      omega
  | level i => exact (h.from_level i hplace).1

/-- A block whose header is not written to. -/
theorem LiveInv.congr (h : LiveInv q m own frees bigs b)
    (hown : ∀ a n, Owns own b.owner a n → Owns own' b.owner a n)
    (hload : load m' (b.ptr - 4) 4 = load m (b.ptr - 4) 4)
    (hfrees : ∀ i, b.place = .level i → b.ptr - 4 ∉ frees i → b.ptr - 4 ∉ frees' i)
    (hbigs : b.place = .big → b.ptr - 12 ∈ bigs → b.ptr - 12 ∈ bigs') :
    LiveInv q m' own' frees' bigs' b where
  owns := hown _ _ h.owns
  header := by
    rw [loadInt, hload]
    exact h.header
  place_eq := h.place_eq
  from_big hplace := ⟨(h.from_big hplace).1, hbigs hplace (h.from_big hplace).2⟩
  from_level i hplace := by
    obtain ⟨hptr, hfree, fx, hfx, hsound, howns⟩ := h.from_level i hplace
    exact ⟨hptr, hfrees i hplace hfree, fx, hfx, hsound, hown _ _ howns⟩

/-- A block of somebody else. -/
theorem LiveInv.frame (h : LiveInv q m own frees bigs b) (hframe : Frame S m own m' own')
    (hout : ¬ S b.owner)
    (hfrees : ∀ i, b.place = .level i → b.ptr - 4 ∉ frees i → b.ptr - 4 ∉ frees' i)
    (hbigs : b.place = .big → b.ptr - 12 ∈ bigs → b.ptr - 12 ∈ bigs') :
    LiveInv q m' own' frees' bigs' b :=
  h.congr (fun _ _ => hframe.owns _ _ _ hout)
    (hframe.load _ _ _ hout (h.owns.mono (Nat.le_refl _) (by omega))) hfrees hbigs

/-- A large block of somebody else. -/
theorem BigInv.frame {blocks blocks' : List (ℕ × ℕ)} {x : ℕ} (h : BigInv blocks own x)
    (hframe : Frame S m own m' own') (hlink : ¬ S (.link x)) (hout : ¬ S (.big x))
    (hblocks : ∀ b ∈ blocks, b.1 = x → b ∈ blocks') : BigInv blocks' own' x := by
  obtain ⟨n, hmem, hown⟩ := h.block
  exact ⟨hframe.owns _ _ _ hlink h.link, n, hblocks _ hmem rfl, hframe.owns _ _ _ hout hown⟩

/-! ## Operations -/

theorem PoolInv.place_eq (h : PoolInv q s own chunks frees bigs) (fuel : ℕ) (r : Int32) :
    s.pool.place fuel r = q.place fuel r := by
  rw [h.pool_eq]
  rfl

/-- A program writes to a block that it has. -/
theorem PoolInv.write (h : PoolInv q s own chunks frees bigs) (hb : b ∈ s.live) {off : ℕ} {bs : Bytes}
    (hfit : off + bs.length ≤ b.size.toInt.toNat) :
    PoolInv q { s with heap := { s.heap with cells := poke s.heap.cells (b.ptr + off) bs } }
      own chunks frees bigs := by
  have hlive := h.live b hb
  have hframe := frame_poke (m := s.heap.cells)
    (hlive.owns.mono (b := b.ptr + off) (k := bs.length) (by omega) (by omega)) (Nat.le_refl bs.length)
  exact
    { pool_eq := h.pool_eq
      backed := h.backed.cells _
      level := fun i fx hfx => (h.level i fx hfx).frame hframe fun o hin heq =>
        hlive.not_inLevel i (heq ▸ hin)
      length_eq := h.length_eq
      like := h.like
      bigs_linked := h.bigs_linked.congr fun x hx =>
        hframe.load _ _ _ (b.owner_ne_link x).symm (h.big x hx).link
      bigs_nodup := h.bigs_nodup
      big := h.big
      ptr_ne := h.ptr_ne
      live := fun b' hb' => by
        have hlive' := h.live b' hb'
        by_cases heq : b'.owner = b.owner
        · -- the header of the block is in front of what is written
          have hptr := hlive'.ptr_eq hlive heq
          have h4 := hlive'.four_lt
          exact hlive'.congr (fun _ _ => id) (load_poke_of_disjoint _ (by omega)) (fun _ _ => id)
            fun _ => id
        · exact hlive'.frame hframe heq (fun _ _ => id) fun _ => id }

/-- An `int` that is stored is loaded. -/
theorem loadInt_storeInt (m : Mem UInt8) (a : ℕ) (z : Int32) : loadInt (storeInt m a z) a = z := by
  have hlo := z.le_toInt
  have hhi := z.toInt_lt
  rw [loadInt, storeInt, load_store_self _ _ (cutInt_lt 4 _), ← Int32.toInt_inj, Int32.toInt_ofInt, cutInt]
  have hnonneg : 0 ≤ z.toInt % 256 ^ 4 := Int.emod_nonneg _ (by decide)
  have hwidth : Int32.size = 4294967296 := rfl
  rw [Int.toNat_of_nonneg hnonneg, hwidth, Int.bmod_def]
  split_ifs <;> omega

/-- A rounded size has room for the block and its header. -/
theorem le_roundSize {size : Int32} {n : ℕ} (hsize : size ≤ 2147483640) (hn : 4 ≤ n)
    (hle : (roundSize size).toInt ≤ n) : size.toInt.toNat + 4 ≤ n := by
  rw [roundSize_toInt hsize] at hle
  omega

/-- A block of a level is handed out. -/
theorem PoolInv.allocLevel (h : PoolInv q s own chunks frees bigs) (hq : Created q) {size : Int32}
    (hsize : size ≤ 2147483640) {fuel i x : ℕ} (hplace : s.pool.place fuel (roundSize size) = some (.level i))
    {fx fx' : FixMem} (hfx : s.pool.fixmem[i]? = some fx) {h' : Heap} {answers : List ℕ}
    (halloc : fx.alloc fuel s.heap answers = some (x, h', fx')) :
    ∃ own chunks frees, PoolInv q ⟨{ s.pool with fixmem := s.pool.fixmem.set i fx' },
      { h' with cells := storeInt h'.cells x (roundSize size) }, ⟨x + 4, size, .level i⟩ :: s.live⟩
      own chunks frees bigs := by
  rw [h.place_eq] at hplace
  obtain ⟨place, hall, huniq, -, hlevel⟩ := hq.place_spec (roundSize size)
  obtain rfl := huniq fuel _ hplace
  obtain ⟨fx₀, hfx₀, hsound₀, hle⟩ := hlevel i rfl
  have hlike := h.like i fx fx₀ hfx hfx₀
  have hsound := hlike.sound hsound₀
  obtain ⟨own', chunks', frees', hlike', hblocks, hbacked, hinv, hhanded, hframe⟩ :=
    fixAlloc_spec (h.level i fx hfx) h.backed hsound halloc
  have hb := hsound.le_blockSize
  have hstore := frame_store (m := h'.cells) (hhanded.owns.mono (Nat.le_refl x) (by omega : x + 4 ≤ _))
    (cutInt 4 (roundSize size).toInt)
  have hframe' := hframe.trans hstore
  -- the blocks of the program are not concerned
  have hout : ∀ b ∈ s.live, ¬ (InLevel i (frees i) b.owner ∨ b.owner = .node i x) := by
    intro b hb'
    have hlive := h.live b hb'
    rintro (hin | heq)
    · exact hlive.not_inLevel i hin
    · cases hplace' : b.place with
      | big =>
          rw [Live.owner_big hplace'] at heq
          exact absurd heq nofun
      | level j =>
          have hown := hlive.owns (b.ptr - 4) (Nat.le_refl _) (by omega)
          have hx : b.ptr - 4 = x := by
            rw [Live.owner_level hplace'] at heq
            exact (Owner.node.inj heq).2
          rw [hx, heq] at hown
          refine hlive.not_inLevel i (Or.inr (Or.inr ⟨x, hhanded.mem_of_owns hown, heq⟩))
  have hlevel_eq : ∀ o, InLevel i (frees i) o ∨ o = .node i x → o.level = some i := by
    rintro o (hin | rfl)
    · exact hin.level_eq
    · rfl
  have hlink : ∀ y, ¬ (InLevel i (frees i) (.link y) ∨ Owner.link y = .node i x) := fun y hor =>
    absurd (hlevel_eq _ hor) nofun
  have hbig : ∀ y, ¬ (InLevel i (frees i) (.big y) ∨ Owner.big y = .node i x) := fun y hor =>
    absurd (hlevel_eq _ hor) nofun
  refine ⟨own', Function.update chunks i chunks', Function.update frees i frees', ?_⟩
  exact
    { pool_eq := by
        rw [h.pool_eq]
      backed := hbacked.cells _
      level := fun j fxj hfxj => by
        by_cases hj : j = i
        · subst hj
          rw [List.getElem?_set_self (List.getElem?_eq_some_iff.mp hfx).1] at hfxj
          obtain rfl := Option.some.inj hfxj
          rw [Function.update_self, Function.update_self]
          apply hinv.frame hstore
          intro o hin heq
          rcases hin with rfl | ⟨c, rfl⟩ | ⟨y, hy, rfl⟩
          · exact absurd heq nofun
          · exact absurd heq nofun
          · rw [(Owner.node.inj heq).2] at hy
            exact hhanded.not_mem hy
        · rw [List.getElem?_set_ne (Ne.symm hj)] at hfxj
          rw [Function.update_of_ne hj, Function.update_of_ne hj]
          refine (h.level j fxj hfxj).frame hframe' fun o hin hor => hj ?_
          exact Option.some.inj (hin.level_eq.symm.trans (hlevel_eq o hor))
      length_eq := (List.length_set ..).trans h.length_eq
      like := fun j fxj fxj' hfxj hfxj' => by
        by_cases hj : j = i
        · subst hj
          rw [List.getElem?_set_self (List.getElem?_eq_some_iff.mp hfx).1] at hfxj
          obtain rfl := Option.some.inj hfxj
          exact hlike'.trans (h.like j fx fxj' hfx hfxj')
        · rw [List.getElem?_set_ne (Ne.symm hj)] at hfxj
          exact h.like j fxj fxj' hfxj hfxj'
      bigs_linked := h.bigs_linked.congr fun y hy => hframe'.load _ _ _ (hlink y) (h.big y hy).link
      bigs_nodup := h.bigs_nodup
      big := fun y hy => (h.big y hy).frame hframe' (hlink y) (hbig y) fun b hmem _ => hblocks hmem
      ptr_ne := by
        refine List.pairwise_cons.mpr ⟨fun b hb' heq => ?_, h.ptr_ne⟩
        -- the block would have two owners
        have hown := hframe'.owns _ _ _ (hout b hb') (h.live b hb').owns (b.ptr - 4) (Nat.le_refl _)
          (by omega)
        have hx : b.ptr - 4 = x := by
          rw [← heq]
          exact Nat.add_sub_cancel x 4
        rw [hx, hhanded.owns x (Nat.le_refl x) (by omega)] at hown
        exact hout b hb' (Or.inr (Option.some.inj hown).symm)
      live := by
        refine List.forall_mem_cons.mpr ⟨?_, fun b hb' => ?_⟩
        · have hpos := hhanded.pos
          have hown : Live.owner ⟨x + 4, size, .level i⟩ = .node i x := rfl
          refine ⟨?_, ?_, hall, nofun, fun j hj => ?_⟩
          · rw [hown]
            apply hhanded.owns.mono (Nat.le_refl x)
            have hroom := le_roundSize (n := fx.blockSize) hsize (by omega)
              (by rw [← hsound.bsize_eq, hlike.bsize_eq]; exact hle)
            dsimp only
            omega
          · exact loadInt_storeInt _ _ _
          · obtain rfl := Place.level.inj hj
            refine ⟨by dsimp only; omega, ?_, fx₀, hfx₀, hsound₀, ?_⟩
            · rw [Function.update_self]
              exact hhanded.not_mem
            · rw [hown, ← hlike.blockSize_eq]
              exact hhanded.owns
        · refine (h.live b hb').frame hframe' (hout b hb') (fun j hj hfree => ?_) fun _ => id
          by_cases hji : j = i
          · subst hji
            rw [Function.update_self]
            exact fun hmem => hfree (hhanded.subset _ hmem)
          · rwa [Function.update_of_ne hji] }

/-- A large block is handed out. -/
theorem PoolInv.allocBig (h : PoolInv q s own chunks frees bigs) (hq : Created q) {size : Int32}
    (hsize : size ≤ 2147483640) {fuel lst : ℕ} (hplace : s.pool.place fuel (roundSize size) = some .big)
    (hfresh : s.heap.Fresh (cutInt 8 ((roundSize size).toInt + 8)) lst) :
    ∃ own chunks frees, PoolInv q ⟨{ s.pool with biglist := lst },
      ⟨store (storeInt s.heap.cells (lst + 8) (roundSize size)) lst 8 s.pool.biglist,
        (lst, cutInt 8 ((roundSize size).toInt + 8)) :: s.heap.blocks⟩,
      ⟨lst + 12, size, .big⟩ :: s.live⟩ own chunks frees (lst :: bigs) := by
  rw [h.place_eq] at hplace
  obtain ⟨place, hall, huniq, hbig, -⟩ := hq.place_spec (roundSize size)
  obtain rfl := huniq fuel _ hplace
  have hlarge : q.allocmem.toInt < (roundSize size).toInt := Int32.lt_iff_toInt_lt.mp (hbig rfl)
  have hleast := hq.le_allocmem
  have hhi := (roundSize size).toInt_lt
  obtain ⟨n, hn⟩ : ∃ n : ℕ, (roundSize size).toInt = n := ⟨_, (Int.toNat_of_nonneg (by omega)).symm⟩
  have hlen : cutInt 8 ((roundSize size).toInt + 8) = 8 + n := by
    unfold cutInt
    omega
  rw [hlen] at hfresh ⊢
  have hnone : ∀ j, lst ≤ j → j < lst + (8 + n) → own j = none := fun j => h.backed.own_eq_none hfresh
  generalize hown' : give (give own (some (.big lst)) (lst + 8) n) (some (.link lst)) lst 8 = own'
  generalize hm' : store (storeInt s.heap.cells (lst + 8) (roundSize size)) lst 8 s.pool.biglist = m'
  have houtside : ∀ j, j < lst ∨ lst + (8 + n) ≤ j → own' j = own j := by
    intro j hj
    rw [← hown', give, if_neg (by omega), give, if_neg (by omega)]
  have hcells : ∀ j, j < lst ∨ lst + (8 + n) ≤ j → m' j = s.heap.cells j := by
    intro j hj
    rw [← hm', store_of_outside _ (by omega), storeInt, store_of_outside _ (by omega)]
  have hframe := frame_of_none hnone houtside hcells
  have hlink : Owns own' (.link lst) lst 8 := by
    rw [← hown']
    exact owns_give _ _ _ _
  have hrest : Owns own' (.big lst) (lst + 8) n := by
    rw [← hown']
    exact (owns_give own _ (lst + 8) n).give_of_disjoint (Or.inr (Nat.le_refl _)) _
  have hbiglist : s.pool.biglist < 256 ^ 8 :=
    h.bigs_linked.lt (by decide) fun x hx => h.backed.lt_of_owns (h.big x hx).link (by decide)
  refine ⟨own', chunks, frees, ?_⟩
  exact
    { pool_eq := by
        rw [h.pool_eq]
      backed := h.backed.malloc hfresh m' houtside
      level := fun i fx hfx => (h.level i fx hfx).frame hframe fun _ _ => id
      length_eq := h.length_eq
      like := h.like
      bigs_linked := by
        refine ⟨rfl, Nat.ne_of_gt hfresh.1, ?_⟩
        dsimp only
        rw [← hm', load_store_self _ _ hbiglist, hm']
        exact h.bigs_linked.congr fun x hx => hframe.load _ _ _ not_false (h.big x hx).link
      bigs_nodup := by
        refine List.nodup_cons.mpr ⟨fun hmem => ?_, h.bigs_nodup⟩
        have hown := (h.big lst hmem).link lst (Nat.le_refl lst) (by omega)
        rw [hnone lst (Nat.le_refl lst) (by omega)] at hown
        exact absurd hown.symm (Option.some_ne_none _)
      big := List.forall_mem_cons.mpr ⟨⟨hlink, n, List.mem_cons_self, hrest⟩, fun x hx =>
        (h.big x hx).frame hframe not_false not_false fun b hmem _ => List.mem_cons_of_mem _ hmem⟩
      ptr_ne := by
        refine List.pairwise_cons.mpr ⟨fun b hb heq => ?_, h.ptr_ne⟩
        have hown := (h.live b hb).owns (b.ptr - 4) (Nat.le_refl _) (by omega)
        rw [← heq, hnone _ (by dsimp only; omega) (by dsimp only; omega)] at hown
        exact absurd hown.symm (Option.some_ne_none _)
      live := by
        refine List.forall_mem_cons.mpr ⟨?_, fun b hb => ?_⟩
        · have hpos := hfresh.1
          have hroom := le_roundSize hsize (by omega) (Int.le_of_eq hn)
          refine ⟨?_, ?_, hall, fun _ => ⟨?_, List.mem_cons_self⟩,
            fun i hi => absurd hi (by simp)⟩
          · exact hrest.mono (by dsimp only; omega) (by dsimp only; omega)
          · dsimp only
            rw [loadInt, ← hm', load_store_of_disjoint _ (Or.inl (by omega))]
            exact loadInt_storeInt _ _ _
          · dsimp only
            omega
        · exact (h.live b hb).frame hframe not_false (fun _ _ => id) fun _ => List.mem_cons_of_mem _ }

/-- A block that is returned to its level. -/
theorem PoolInv.deallocLevel (h : PoolInv q s own chunks frees bigs) (hb : b ∈ s.live) {i : ℕ}
    (hplace : b.place = .level i) {fx : FixMem} (hfx : s.pool.fixmem[i]? = some fx) :
    ∃ own chunks frees,
      PoolInv q ⟨{ s.pool with fixmem := s.pool.fixmem.set i (fx.dealloc s.heap (b.ptr - 4)).2 },
        (fx.dealloc s.heap (b.ptr - 4)).1, s.live.filter (·.ptr ≠ b.ptr)⟩ own chunks frees bigs := by
  have hlive := h.live b hb
  obtain ⟨hptr, hfree, fx₀, hfx₀, hsound₀, hnode⟩ := hlive.from_level i hplace
  have hlike := h.like i fx fx₀ hfx hfx₀
  have howner := Live.owner_level hplace
  have hb8 := hsound₀.le_blockSize
  have hstore := frame_store (m := s.heap.cells) (hnode.mono (Nat.le_refl _) (by omega : _ + 8 ≤ _)) fx.free
  rw [← hlike.blockSize_eq] at hnode hb8
  refine ⟨own, chunks, Function.update frees i ((b.ptr - 4) :: frees i), ?_⟩
  exact
    { pool_eq := by
        rw [h.pool_eq]
      backed := h.backed.cells _
      level := fun j fxj hfxj => by
        by_cases hj : j = i
        · subst hj
          rw [List.getElem?_set_self (List.getElem?_eq_some_iff.mp hfx).1] at hfxj
          obtain rfl := Option.some.inj hfxj
          rw [Function.update_self]
          exact (h.level j fx hfx).dealloc h.backed (by omega) (howner ▸ hnode) (by omega) hfree
        · rw [List.getElem?_set_ne (Ne.symm hj)] at hfxj
          rw [Function.update_of_ne hj]
          exact (h.level j fxj hfxj).frame hstore fun o hin heq => hlive.not_inLevel j (heq ▸ hin)
      length_eq := (List.length_set ..).trans h.length_eq
      like := fun j fxj fxj' hfxj hfxj' => by
        by_cases hj : j = i
        · subst hj
          rw [List.getElem?_set_self (List.getElem?_eq_some_iff.mp hfx).1] at hfxj
          obtain rfl := Option.some.inj hfxj
          have hlike' := h.like j fx fxj' hfx hfxj'
          exact ⟨hlike'.1, hlike'.2, hlike'.3⟩
        · rw [List.getElem?_set_ne (Ne.symm hj)] at hfxj
          exact h.like j fxj fxj' hfxj hfxj'
      bigs_linked := h.bigs_linked.congr fun x hx =>
        hstore.load _ _ _ (b.owner_ne_link x).symm (h.big x hx).link
      bigs_nodup := h.bigs_nodup
      big := h.big
      ptr_ne := h.ptr_ne.filter _
      live := fun b' hb' => by
        obtain ⟨hmem, hne⟩ := List.mem_filter.mp hb'
        have hne' : b'.ptr ≠ b.ptr := of_decide_eq_true hne
        have hlive' := h.live b' hmem
        refine hlive'.frame hstore (fun heq => hne' (hlive'.ptr_eq hlive heq)) (fun j hj hnot => ?_)
          fun _ => id
        by_cases hji : j = i
        · subst hji
          have hptr' := (hlive'.from_level j hj).1
          rw [Function.update_self]
          exact List.not_mem_cons_of_ne_of_not_mem (by omega) hnot
        · rwa [Function.update_of_ne hji] }

/-- A large block that is returned. -/
theorem PoolInv.deallocBig (h : PoolInv q s own chunks frees bigs) (hb : b ∈ s.live) (hplace : b.place = .big)
    {fuel root : ℕ} (herase : dlistErase fuel s.heap.cells s.pool.biglist (b.ptr - 12) = some (m, root)) :
    ∃ own chunks frees, PoolInv q ⟨{ s.pool with biglist := root },
      Heap.free { s.heap with cells := m } (b.ptr - 12), s.live.filter (·.ptr ≠ b.ptr)⟩
      own chunks frees (bigs.erase (b.ptr - 12)) := by
  have hlive := h.live b hb
  obtain ⟨hptr, hmem⟩ := hlive.from_big hplace
  have howner := Live.owner_big hplace
  generalize hx : b.ptr - 12 = x at *
  obtain ⟨m', root', hlinked, hstore, huniq, -⟩ :=
    dlistErase_spec h.bigs_nodup (fun y hy => (h.big y hy).link) h.bigs_linked hmem
  obtain ⟨rfl, rfl⟩ := Prod.mk.inj (huniq fuel _ herase)
  obtain ⟨hlink, n, hblock, hrest⟩ := h.big x hmem
  have hgive : ∀ o a k, o ≠ .link x → o ≠ .big x → Owns own o a k →
      Owns (give own none x (8 + n)) o a k := by
    intro o a k hne₁ hne₂ hown
    refine hown.give_of_ne (fun j h₁ h₂ heq => ?_) none
    by_cases hj : j < x + 8
    · rw [hlink j h₁ hj] at heq
      exact hne₁ (Option.some.inj heq).symm
    · rw [hrest j (by omega) (by omega)] at heq
      exact hne₂ (Option.some.inj heq).symm
  have hload : ∀ o a k, (∀ y ∈ bigs, o ≠ .link y) → Owns own o a k → load m a k = load s.heap.cells a k := by
    intro o a k hne hown
    rcases hstore with rfl | ⟨y, hy, v, rfl⟩
    · rfl
    · exact load_store_of_owns (h.big y hy).link hown (hne y hy).symm
  have hframe : Frame (fun o => o = .big x ∨ ∃ y ∈ bigs, o = .link y) s.heap.cells own m
      (give own none x (8 + n)) := by
    constructor
    · intro o a k hout
      exact hgive o a k (fun heq => hout (Or.inr ⟨x, hmem, heq⟩)) fun heq => hout (Or.inl heq)
    · intro o a k hout
      exact hload o a k fun y hy heq => hout (Or.inr ⟨y, hy, heq⟩)
  refine ⟨give own none x (8 + n), chunks, frees, ?_⟩
  exact
    { pool_eq := by
        rw [h.pool_eq]
      backed := h.backed.free hblock (by omega) m
      level := fun i fx hfx => (h.level i fx hfx).frame hframe fun o hin hor => by
        have hlevel := hin.level_eq
        rcases hor with rfl | ⟨y, -, rfl⟩
        · exact absurd hlevel nofun
        · exact absurd hlevel nofun
      length_eq := h.length_eq
      like := h.like
      bigs_linked := hlinked
      bigs_nodup := h.bigs_nodup.erase x
      big := fun y hy => by
        obtain ⟨hne, hy'⟩ := (h.bigs_nodup.mem_erase_iff).mp hy
        obtain ⟨hlink', n', hblock', hrest'⟩ := h.big y hy'
        have hother : ∀ {o : Owner} {a k : ℕ}, o = .link y ∨ o = .big y → Owns own o a k →
            Owns (give own none x (8 + n)) o a k := by
          rintro o a k (rfl | rfl) hown
          · exact hgive _ a k (fun heq => hne (Owner.link.inj heq)) nofun hown
          · exact hgive _ a k nofun (fun heq => hne (Owner.big.inj heq)) hown
        refine ⟨hother (Or.inl rfl) hlink', n', ?_, hother (Or.inr rfl) hrest'⟩
        exact List.mem_filter.mpr ⟨hblock', decide_eq_true hne⟩
      ptr_ne := h.ptr_ne.filter _
      live := fun b' hb' => by
        obtain ⟨hmem', hne⟩ := List.mem_filter.mp hb'
        have hne' : b'.ptr ≠ b.ptr := of_decide_eq_true hne
        have hlive' := h.live b' hmem'
        refine hlive'.frame hframe ?_ (fun _ _ => id) fun hbig hin => ?_
        · rintro (heq | ⟨y, -, heq⟩)
          · exact hne' (hlive'.ptr_eq hlive (heq.trans howner.symm))
          · exact b'.owner_ne_link y heq
        · have hptr' := (hlive'.from_big hbig).1
          exact (h.bigs_nodup.mem_erase_iff).mpr ⟨by omega, hin⟩ }

end Asenal.Comlog
