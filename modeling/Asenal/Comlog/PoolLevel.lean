import Asenal.Comlog.MemPool

/-!
# One level of the pool

The chunks of a level are linked, the newest one first; only that one may have blocks left to cut. Every
address of the level has an owner: the header of a chunk, the area that is left, or a block. A block is on
the free list of its level, or a program has it.

* `chunk_spec` — a new chunk.
* `fixAlloc_spec` — the block that is handed out belongs to nobody else.
* `LevelInv.dealloc` — a block that is returned.
-/

namespace Asenal.Comlog

open Asenal.Lib.Text Asenal.Lib.Memory Asenal.Lib.Owned

/-! ## Words -/

theorem toLong_cutInt {n : ℕ} (h : n < 2 ^ 63) : toLong (cutInt 8 n) = n := by
  unfold toLong cutInt
  have hmod : ((n : ℤ) % 256 ^ 8).toNat = n := by omega
  rw [hmod, if_pos h]

theorem cutInt_lt (k : ℕ) (z : ℤ) : cutInt k z < 256 ^ k := by
  have hpos : (0 : ℤ) < 256 ^ k := Int.pow_pos (by decide)
  have h₁ := Int.emod_nonneg z (Int.ne_of_gt hpos)
  have h₂ := Int.emod_lt_of_pos z hpos
  unfold cutInt
  zify
  rw [Int.toNat_of_nonneg h₁]
  exact h₂

/-! ## Owners -/

/-- Who has an address of the pool. -/
inductive Owner
  | header (i chunk : ℕ)
  | area (i : ℕ)
  | node (i x : ℕ)
  | link (lst : ℕ)
  | big (lst : ℕ)
  deriving DecidableEq

/-- The bytes of a block. -/
def FixMem.blockSize (fx : FixMem) : ℕ := fx.bsize.toInt.toNat

/-- The blocks of a chunk. -/
def FixMem.blockNum (fx : FixMem) : ℕ := fx.bnum.toInt.toNat

/-- The sizes of a level that is used. -/
structure FixMem.Sound (fx : FixMem) : Prop where
  le_blockSize : 1028 ≤ fx.blockSize
  blockNum_pos : 0 < fx.blockNum
  size_eq : fx.size = (fx.blockNum * fx.blockSize : ℕ)
  size_lt : fx.size < 2 ^ 31

/-- The chunks and free blocks of a level. -/
structure LevelInv (m : Mem UInt8) (own : ℕ → Option Owner) (i : ℕ) (fx : FixMem)
    (chunks frees : List ℕ) : Prop where
  chunks_linked : Linked m chunks fx.mem
  now_eq : fx.now = fx.mem
  chunks_nodup : chunks.Nodup
  header : ∀ c ∈ chunks, Owns own (.header i c) c 16
  used_tail : ∀ c ∈ chunks.tail, chunkUsed m c = fx.size
  used_head : ∀ c ∈ chunks.head?, ∃ k ≤ fx.blockNum, chunkUsed m c = (k * fx.blockSize : ℕ) ∧
    Owns own (.area i) (c + 16 + k * fx.blockSize) ((fx.blockNum - k) * fx.blockSize)
  frees_linked : Linked m frees fx.free
  frees_nodup : frees.Nodup
  node : ∀ x ∈ frees, 8 ≤ fx.blockSize ∧ Owns own (.node i x) x fx.blockSize

/-- The owner has something of the level. -/
def InLevel (i : ℕ) (frees : List ℕ) (o : Owner) : Prop :=
  o = .area i ∨ (∃ c, o = .header i c) ∨ ∃ x ∈ frees, o = .node i x

variable {m m' : Mem UInt8} {own own' : ℕ → Option Owner} {i : ℕ} {fx fx' : FixMem}
  {chunks frees : List ℕ} {o : Owner} {a n : ℕ}

/-! ## What does not concern a level -/

/-- The level depends on its links and counters, and on what it owns. -/
theorem LevelInv.frame (h : LevelInv m own i fx chunks frees) {S : Owner → Prop}
    (hframe : Frame S m own m' own') (hout : ∀ o, InLevel i frees o → ¬ S o) :
    LevelInv m' own' i fx chunks frees := by
  have hchunk : ∀ c, ¬ S (.header i c) := fun c => hout _ (Or.inr (Or.inl ⟨c, rfl⟩))
  have hfree : ∀ x ∈ frees, ¬ S (.node i x) := fun x hx => hout _ (Or.inr (Or.inr ⟨x, hx, rfl⟩))
  have hused : ∀ c ∈ chunks, chunkUsed m' c = chunkUsed m c := fun c hc =>
    congrArg toLong (hframe.load _ _ _ (hchunk c) ((h.header c hc).mono (by omega) (by omega)))
  exact
    { chunks_linked := h.chunks_linked.congr fun c hc =>
        hframe.load _ _ _ (hchunk c) ((h.header c hc).mono (Nat.le_refl c) (by omega))
      now_eq := h.now_eq
      chunks_nodup := h.chunks_nodup
      header := fun c hc => hframe.owns _ _ _ (hchunk c) (h.header c hc)
      used_tail := fun c hc => (hused c (List.mem_of_mem_tail hc)).trans (h.used_tail c hc)
      used_head := fun c hc => by
        obtain ⟨k, hk, hck, harea⟩ := h.used_head c hc
        exact ⟨k, hk, (hused c (List.mem_of_mem_head? hc)).trans hck,
          hframe.owns _ _ _ (hout _ (Or.inl rfl)) harea⟩
      frees_linked := h.frees_linked.congr fun x hx => by
        obtain ⟨height, hnode⟩ := h.node x hx
        exact hframe.load _ _ _ (hfree x hx) (hnode.mono (Nat.le_refl x) (by omega))
      frees_nodup := h.frees_nodup
      node := fun x hx => ⟨(h.node x hx).1, hframe.owns _ _ _ (hfree x hx) (h.node x hx).2⟩ }

/-! ## A block that is handed out -/

/-- A block of the level that a program may have: it was not one before, or it was free. -/
structure Handed (i : ℕ) (own : ℕ → Option Owner) (frees : List ℕ) (own' : ℕ → Option Owner)
    (frees' : List ℕ) (x size : ℕ) : Prop where
  owns : Owns own' (.node i x) x size
  not_mem : x ∉ frees'
  subset : ∀ y ∈ frees', y ∈ frees
  mem_of_owns : own x = some (.node i x) → x ∈ frees
  pos : 0 < x

/-- The size of a block, as an integer. -/
theorem FixMem.Sound.bsize_eq (h : fx.Sound) : fx.bsize.toInt = fx.blockSize := by
  have hb := h.le_blockSize
  unfold FixMem.blockSize at hb ⊢
  omega

/-- The next block of a chunk. -/
theorem cut_spec {c x : ℕ} (h : LevelInv m own i fx (c :: chunks) frees) (hsound : fx.Sound)
    (hroom : chunkUsed m c < fx.size) (hx : x = c + 16 + (chunkUsed m c).toNat)
    (hm' : m' = store m (c + 8) 8 (cutInt 8 (chunkUsed m c + fx.bsize.toInt)))
    (hown' : own' = give own (some (.node i x)) x fx.blockSize) :
    Handed i own frees own' frees x fx.blockSize ∧ LevelInv m' own' i fx (c :: chunks) frees ∧
      Frame (InLevel i frees) m own m' own' := by
  obtain ⟨k, hk, hused, harea⟩ := h.used_head c rfl
  have hb := hsound.le_blockSize
  have hlt := hsound.size_lt
  rw [hused, hsound.size_eq, Int.ofNat_lt] at hroom
  rw [hsound.size_eq] at hlt
  have hkn : k < fx.blockNum := Nat.lt_of_mul_lt_mul_right hroom
  have hfit : (k + 1) * fx.blockSize ≤ fx.blockNum * fx.blockSize := Nat.mul_le_mul_right _ hkn
  have hsucc : (k + 1) * fx.blockSize = k * fx.blockSize + fx.blockSize := Nat.succ_mul _ _
  have hsplit : (fx.blockNum - k) * fx.blockSize =
      fx.blockSize + (fx.blockNum - (k + 1)) * fx.blockSize := by
    have hsub : fx.blockNum - k = 1 + (fx.blockNum - (k + 1)) := by omega
    rw [hsub, Nat.add_mul, Nat.one_mul]
  have hnext : chunkUsed m c + fx.bsize.toInt = ((k + 1) * fx.blockSize : ℕ) := by
    rw [hused, hsound.bsize_eq]
    omega
  rw [hused, Int.toNat_natCast] at hx
  rw [hnext] at hm'
  have hnode : Owns own (.area i) x fx.blockSize := harea.mono (by omega) (by omega)
  have hfirst : own x = some (.area i) := hnode x (Nat.le_refl _) (by omega)
  have hheader := h.header c List.mem_cons_self
  have hc8 : Owns own (.header i c) (c + 8) 8 := hheader.mono (by omega) (by omega)
  -- the counter of the chunk is all that is written
  have hload : ∀ o a n, Owns own o a n → o ≠ .header i c → load m' a n = load m a n := by
    intro o a n hown hne
    rw [hm']
    exact load_store_of_owns hc8 hown hne.symm
  have howns : ∀ o a n, Owns own o a n → o ≠ .area i → Owns own' o a n := by
    intro o a n hown hne
    rw [hown']
    exact hown.give_of_owns hnode hne _
  have hother : ∀ c' ∈ chunks, Owner.header i c' ≠ .header i c := by
    intro c' hc' heq
    rw [(Owner.header.inj heq).2] at hc'
    exact (List.nodup_cons.mp h.chunks_nodup).1 hc'
  have hlink : ∀ c' ∈ c :: chunks, load m' c' 8 = load m c' 8 := by
    intro c' hc'
    rcases List.mem_cons.mp hc' with rfl | htail
    · rw [hm']
      exact load_store_of_disjoint m (Or.inr (Nat.le_refl _))
    · exact hload _ _ _ ((h.header c' hc').mono (Nat.le_refl _) (by omega)) (hother c' htail)
  refine ⟨⟨?_, fun hmem => ?_, fun _ hy => hy, fun hown => ?_, by omega⟩, ?_,
    fun o a n hout hown => ?_, fun o a n hout hown => ?_⟩
  · rw [hown']
    exact owns_give _ _ _ _
  · have hfree := (h.node x hmem).2 x (Nat.le_refl _) (by omega)
    rw [hfirst] at hfree
    exact absurd (Option.some.inj hfree) nofun
  · rw [hfirst] at hown
    exact absurd (Option.some.inj hown) nofun
  · exact
      { chunks_linked := h.chunks_linked.congr hlink
        now_eq := h.now_eq
        chunks_nodup := h.chunks_nodup
        header := fun c' hc' => howns _ _ _ (h.header c' hc') nofun
        used_tail := fun c' hc' => by
          have hread : load m' (c' + 8) 8 = load m (c' + 8) 8 :=
            hload _ _ _ ((h.header c' (List.mem_cons_of_mem c hc')).mono (by omega) (by omega))
              (hother c' hc')
          rw [chunkUsed, hread]
          exact h.used_tail c' hc'
        used_head := fun c' hc' => by
          obtain rfl := Option.some.inj hc'
          refine ⟨k + 1, hkn, ?_, ?_⟩
          · rw [chunkUsed, hm', load_store_self _ _ (cutInt_lt 8 _), toLong_cutInt (by omega)]
          · rw [hown']
            exact (harea.mono (by omega) (by omega)).give_of_disjoint (Or.inr (by omega)) _
        frees_linked := h.frees_linked.congr fun y hy =>
          hload _ _ _ ((h.node y hy).2.mono (Nat.le_refl _) (by omega)) nofun
        frees_nodup := h.frees_nodup
        node := fun y hy => ⟨(h.node y hy).1, howns _ _ _ (h.node y hy).2 nofun⟩ }
  · exact howns o a n hown fun heq => hout (Or.inl heq)
  · exact hload o a n hown fun heq => hout (Or.inr (Or.inl ⟨c, heq⟩))

/-- Another free list. -/
theorem LevelInv.setFree (h : LevelInv m own i fx chunks frees) {frees' : List ℕ} {p : ℕ}
    (hlinked : Linked m frees' p) (hnodup : frees'.Nodup)
    (hnode : ∀ x ∈ frees', 8 ≤ fx.blockSize ∧ Owns own (.node i x) x fx.blockSize) :
    LevelInv m own i { fx with free := p } chunks frees' :=
  { chunks_linked := h.chunks_linked
    now_eq := h.now_eq
    chunks_nodup := h.chunks_nodup
    header := h.header
    used_tail := h.used_tail
    used_head := h.used_head
    frees_linked := hlinked
    frees_nodup := hnodup
    node := hnode }

/-- The first free block. -/
theorem pop_spec {x : ℕ} (h : LevelInv m own i fx chunks (x :: frees)) :
    Handed i own (x :: frees) own frees x fx.blockSize ∧
      LevelInv m own i { fx with free := load m fx.free 8 } chunks frees := by
  obtain ⟨hx, hx0, hrest⟩ := h.frees_linked
  obtain ⟨hnot, hnodup⟩ := List.nodup_cons.mp h.frees_nodup
  refine ⟨⟨(h.node x List.mem_cons_self).2, hnot, fun y hy => List.mem_cons_of_mem x hy,
    fun _ => List.mem_cons_self, Nat.pos_of_ne_zero hx0⟩, ?_⟩
  refine h.setFree ?_ hnodup fun y hy => h.node y (List.mem_cons_of_mem x hy)
  rw [hx]
  exact hrest

/-- The newest chunk is an address. -/
theorem LevelInv.mem_lt {h : Heap} (hinv : LevelInv m own i fx chunks frees) (hbacked : Backed h own) :
    fx.mem < 256 ^ 8 :=
  hinv.chunks_linked.lt (by decide) fun c hc => hbacked.lt_of_owns (hinv.header c hc) (by decide)

/-- A new chunk, when all others are used up. -/
theorem chunk_spec {h h' : Heap} {answers answers' : List ℕ} (hinv : LevelInv h.cells own i fx chunks frees)
    (hbacked : Backed h own) (hsound : fx.Sound) (hfull : ∀ c ∈ chunks, chunkUsed h.cells c = fx.size)
    (hchunk : FixMem.chunk h { fx with now := 0 } answers = some (h', fx', answers')) :
    ∃ c own', fx' = { fx with now := c, mem := c } ∧ Backed h' own' ∧
      LevelInv h'.cells own' i fx' (c :: chunks) frees ∧ chunkUsed h'.cells c = 0 ∧
      h.blocks ⊆ h'.blocks ∧ Frame (fun _ => False) h.cells own h'.cells own' := by
  unfold FixMem.chunk at hchunk
  rw [if_neg (fun hne => hne rfl)] at hchunk
  cases answers with
  | nil => exact absurd hchunk nofun
  | cons c answers =>
      dsimp only at hchunk
      cases hmalloc : h.malloc (cutInt 8 (16 + fx.size)) c with
      | none =>
          rw [hmalloc] at hchunk
          exact absurd hchunk nofun
      | some h₁ =>
          rw [hmalloc] at hchunk
          obtain ⟨hfresh, rfl⟩ := malloc_eq_some hmalloc
          obtain ⟨rfl, hpair⟩ := Prod.mk.inj (Option.some.inj hchunk)
          obtain ⟨rfl, -⟩ := Prod.mk.inj hpair
          have hb := hsound.le_blockSize
          have hlt := hsound.size_lt
          have hlen : cutInt 8 (16 + fx.size) = 16 + fx.blockNum * fx.blockSize := by
            rw [hsound.size_eq] at hlt
            unfold cutInt
            rw [hsound.size_eq]
            omega
          rw [hlen] at hfresh ⊢
          have hnone : ∀ j, c ≤ j → j < c + (16 + fx.blockNum * fx.blockSize) → own j = none :=
            fun j => hbacked.own_eq_none hfresh
          generalize hown' : give (give own (some (.header i c)) c 16) (some (.area i)) (c + 16)
            (fx.blockNum * fx.blockSize) = own'
          generalize hm' : store (store (poke h.cells c (List.replicate 16 0)) c 8 fx.mem) (c + 8) 8 0 = m'
          have houtside : ∀ j, j < c ∨ c + (16 + fx.blockNum * fx.blockSize) ≤ j → own' j = own j := by
            intro j hj
            rw [← hown', give, if_neg (by omega), give, if_neg (by omega)]
          have hcells : ∀ j, j < c ∨ c + (16 + fx.blockNum * fx.blockSize) ≤ j → m' j = h.cells j := by
            intro j hj
            rw [← hm', store_of_outside _ (by omega), store_of_outside _ (by omega), poke_of_outside]
            rw [List.length_replicate]
            omega
          have hframe : Frame (fun _ => False) h.cells own m' own' := frame_of_none hnone houtside hcells
          have hload : ∀ {o a n}, Owns own o a n → load m' a n = load h.cells a n :=
            fun hown => hframe.load _ _ _ not_false hown
          have howns : ∀ {o a n}, Owns own o a n → Owns own' o a n :=
            fun hown => hframe.owns _ _ _ not_false hown
          have hused : chunkUsed m' c = 0 := by
            rw [chunkUsed, ← hm', load_store_self _ _ (by decide)]
            rfl
          have hlink : load m' c 8 = fx.mem := by
            rw [← hm', load_store_of_disjoint _ (Or.inr (Nat.le_refl _)),
              load_store_self _ _ (hinv.mem_lt hbacked)]
          have hheader : Owns own' (.header i c) c 16 := by
            rw [← hown']
            exact (owns_give own _ c 16).give_of_disjoint (Or.inl (Nat.le_refl _)) _
          have harea : Owns own' (.area i) (c + 16) (fx.blockNum * fx.blockSize) := by
            rw [← hown']
            exact owns_give _ _ _ _
          refine ⟨c, own', rfl, hbacked.malloc hfresh m' houtside, ?_, hused, List.subset_cons_self _ _, hframe⟩
          exact
            { chunks_linked := by
                refine ⟨rfl, Nat.ne_of_gt hfresh.1, ?_⟩
                rw [hlink]
                exact hinv.chunks_linked.congr fun c' hc' =>
                  hload ((hinv.header c' hc').mono (Nat.le_refl _) (by omega))
              now_eq := rfl
              chunks_nodup := by
                refine List.nodup_cons.mpr ⟨fun hmem => ?_, hinv.chunks_nodup⟩
                have hown := hinv.header c hmem c (Nat.le_refl c) (by omega)
                rw [hnone c (Nat.le_refl c) (by omega)] at hown
                exact absurd hown nofun
              header := List.forall_mem_cons.mpr
                ⟨hheader, fun c' hc' => howns (hinv.header c' hc')⟩
              used_tail := fun c' hc' => by
                have hread : load m' (c' + 8) 8 = load h.cells (c' + 8) 8 :=
                  hload ((hinv.header c' hc').mono (by omega) (by omega))
                rw [chunkUsed, hread]
                exact hfull c' hc'
              used_head := fun c' hc' => by
                obtain rfl := Option.some.inj hc'
                refine ⟨0, Nat.zero_le _, ?_, ?_⟩
                · rw [hused, Nat.zero_mul]
                  rfl
                · rw [Nat.zero_mul]
                  exact harea
              frees_linked := hinv.frees_linked.congr fun x hx =>
                hload ((hinv.node x hx).2.mono (Nat.le_refl _) (by omega))
              frees_nodup := hinv.frees_nodup
              node := fun x hx => ⟨(hinv.node x hx).1, howns (hinv.node x hx).2⟩ }

/-- Levels with blocks and chunks of the same sizes. -/
structure FixMem.Like (fx fx' : FixMem) : Prop where
  bsize_eq : fx.bsize = fx'.bsize
  bnum_eq : fx.bnum = fx'.bnum
  size_eq : fx.size = fx'.size

theorem FixMem.Like.refl (fx : FixMem) : fx.Like fx := ⟨rfl, rfl, rfl⟩

theorem FixMem.Like.trans {fx'' : FixMem} (h : fx.Like fx') (h' : fx'.Like fx'') : fx.Like fx'' :=
  ⟨h.1.trans h'.1, h.2.trans h'.2, h.3.trans h'.3⟩

theorem FixMem.Like.blockSize_eq (h : fx.Like fx') : fx.blockSize = fx'.blockSize := by
  rw [FixMem.blockSize, h.bsize_eq, FixMem.blockSize]

theorem FixMem.Like.sound (h : fx.Like fx') (hsound : fx'.Sound) : fx.Sound := by
  have hnum : fx.blockNum = fx'.blockNum := by rw [FixMem.blockNum, h.bnum_eq, FixMem.blockNum]
  refine ⟨?_, ?_, ?_, ?_⟩
  · rw [h.blockSize_eq]
    exact hsound.le_blockSize
  · rw [hnum]
    exact hsound.blockNum_pos
  · rw [h.size_eq, hnum, h.blockSize_eq]
    exact hsound.size_eq
  · rw [h.size_eq]
    exact hsound.size_lt

/-- What becomes of a level and its surroundings when a block is handed out. -/
def Allocated (i : ℕ) (h : Heap) (own : ℕ → Option Owner) (fx : FixMem) (frees : List ℕ) (x : ℕ)
    (h' : Heap) (fx' : FixMem) : Prop :=
  ∃ own' chunks' frees', fx'.Like fx ∧ h.blocks ⊆ h'.blocks ∧ Backed h' own' ∧ LevelInv h'.cells own' i fx' chunks' frees' ∧
    Handed i own frees own' frees' x fx.blockSize ∧ Frame (InLevel i frees) h.cells own h'.cells own'

/-- A block that is cut from the chunk. -/
theorem allocated_cut {h : Heap} {c : ℕ} (hinv : LevelInv h.cells own i fx (c :: chunks) frees)
    (hbacked : Backed h own) (hsound : fx.Sound) (hroom : chunkUsed h.cells c < fx.size) :
    Allocated i h own fx frees (c + 16 + (chunkUsed h.cells c).toNat)
      { h with cells := store h.cells (c + 8) 8 (cutInt 8 (chunkUsed h.cells c + fx.bsize.toInt)) } fx := by
  obtain ⟨hhanded, hlevel, hframe⟩ := cut_spec hinv hsound hroom rfl rfl rfl
  obtain ⟨k, hk, hused, harea⟩ := hinv.used_head c rfl
  have hsize : Owns own (.area i) (c + 16 + (chunkUsed h.cells c).toNat) fx.blockSize := by
    rw [hused, hsound.size_eq, Int.ofNat_lt] at hroom
    have hkn : k < fx.blockNum := Nat.lt_of_mul_lt_mul_right hroom
    have hone : 1 * fx.blockSize ≤ (fx.blockNum - k) * fx.blockSize :=
      Nat.mul_le_mul_right _ (by omega)
    rw [hused, Int.toNat_natCast]
    exact harea.mono (Nat.le_refl _) (by omega)
  exact ⟨_, c :: chunks, frees, .refl fx, List.Subset.refl _, (hbacked.give hsize _).cells _, hlevel, hhanded, hframe⟩

/-- A block of a new chunk. -/
theorem allocated_new {fuel : ℕ} {h h' : Heap} {answers : List ℕ} {x : ℕ}
    (hinv : LevelInv h.cells own i fx chunks frees) (hbacked : Backed h own) (hsound : fx.Sound)
    (hfull : ∀ c ∈ chunks, chunkUsed h.cells c = fx.size)
    (halloc : FixMem.alloc fuel h { fx with now := 0 } answers = some (x, h', fx')) :
    Allocated i h own fx frees x h' fx' := by
  cases fuel with
  | zero => exact absurd halloc nofun
  | succ fuel =>
      rw [FixMem.alloc] at halloc
      cases hchunk : FixMem.chunk h { fx with now := 0 } answers with
      | none =>
          rw [hchunk] at halloc
          exact absurd halloc nofun
      | some r =>
          obtain ⟨h₁, fx₁, answers₁⟩ := r
          rw [hchunk] at halloc
          obtain ⟨c, own₁, rfl, hbacked₁, hinv₁, hused, hblocks, hnew⟩ :=
            chunk_spec hinv hbacked hsound hfull hchunk
          have hsound₁ : FixMem.Sound { fx with now := c, mem := c } := ⟨hsound.1, hsound.2, hsound.3, hsound.4⟩
          have hroom : chunkUsed h₁.cells c < fx.size := by
            have hb := hsound.le_blockSize
            have hn := Nat.mul_pos hsound.blockNum_pos (show 0 < fx.blockSize by omega)
            rw [hused, hsound.size_eq]
            omega
          obtain ⟨own', chunks', frees', hlike, hblocks', hbacked', hlevel, hhanded, hframe⟩ :=
            allocated_cut hinv₁ hbacked₁ hsound₁ hroom
          dsimp only at halloc
          rw [if_pos hroom] at halloc
          obtain ⟨rfl, hpair⟩ := Prod.mk.inj (Option.some.inj halloc)
          obtain ⟨rfl, rfl⟩ := Prod.mk.inj hpair
          refine ⟨own', chunks', frees', ⟨hlike.1, hlike.2, hlike.3⟩,
            List.Subset.trans hblocks hblocks', hbacked', hlevel,
            ⟨hhanded.owns, hhanded.not_mem, hhanded.subset, fun hx => hhanded.mem_of_owns ?_,
              hhanded.pos⟩, ?_⟩
          · exact owns_one.mp (hnew.owns _ _ _ not_false (owns_one.mpr hx))
          · have htrans := hnew.trans hframe
            exact ⟨fun o a n hout => htrans.owns o a n (not_or.mpr ⟨not_false, hout⟩),
              fun o a n hout => htrans.load o a n (not_or.mpr ⟨not_false, hout⟩)⟩

/-- **The block that is handed out**: nobody has it, and nothing of others is given away or changed. -/
theorem fixAlloc_spec {fuel : ℕ} {h h' : Heap} {answers : List ℕ} {x : ℕ}
    (hinv : LevelInv h.cells own i fx chunks frees) (hbacked : Backed h own) (hsound : fx.Sound)
    (halloc : FixMem.alloc fuel h fx answers = some (x, h', fx')) :
    Allocated i h own fx frees x h' fx' := by
  cases chunks with
  | nil =>
      have hmem : fx.mem = 0 := hinv.chunks_linked
      have hnow : { fx with now := 0 } = fx := by rw [← hinv.now_eq.trans hmem]
      rw [← hnow] at halloc
      exact allocated_new hinv hbacked hsound (fun c hc => absurd hc List.not_mem_nil) halloc
  | cons c chunks =>
      obtain ⟨hmem, hc, hrest⟩ := hinv.chunks_linked
      have hnow : fx.now = c := hinv.now_eq.trans hmem
      have hchunk : FixMem.chunk h fx answers = some (h, fx, answers) := if_pos (by rwa [hnow])
      cases fuel with
      | zero => exact absurd halloc nofun
      | succ fuel =>
          rw [FixMem.alloc, hchunk] at halloc
          dsimp only at halloc
          rw [hnow] at halloc
          by_cases hroom : chunkUsed h.cells c < fx.size
          · rw [if_pos hroom] at halloc
            obtain ⟨rfl, hpair⟩ := Prod.mk.inj (Option.some.inj halloc)
            obtain ⟨rfl, rfl⟩ := Prod.mk.inj hpair
            exact allocated_cut hinv hbacked hsound hroom
          · -- all chunks are used up
            have hfull : ∀ c' ∈ c :: chunks, chunkUsed h.cells c' = fx.size := by
              refine List.forall_mem_cons.mpr ⟨?_, hinv.used_tail⟩
              obtain ⟨k, hk, hused, -⟩ := hinv.used_head c rfl
              rw [hused, hsound.size_eq, Int.ofNat_lt] at hroom
              have hle := Nat.mul_le_mul_right fx.blockSize hk
              rw [hused, hsound.size_eq, Int.ofNat_inj]
              exact Nat.le_antisymm hle (Nat.le_of_not_lt hroom)
            have hnext : load h.cells c 8 = 0 ∨ chunkUsed h.cells (load h.cells c 8) = fx.size := by
              cases chunks with
              | nil => exact Or.inl hrest
              | cons c' chunks =>
                  rw [hrest.1]
                  exact Or.inr (hfull c' (List.mem_cons_of_mem c List.mem_cons_self))
            rw [if_neg hroom, if_pos hnext] at halloc
            by_cases hfree : fx.free = 0
            · rw [if_pos hfree] at halloc
              exact allocated_new hinv hbacked hsound hfull halloc
            · rw [if_neg hfree] at halloc
              cases frees with
              | nil => exact absurd hinv.frees_linked hfree
              | cons y frees =>
                  have hy : fx.free = y := hinv.frees_linked.1
                  subst hy
                  obtain ⟨hhanded, hlevel⟩ := pop_spec hinv
                  rw [hnow] at hlevel
                  obtain ⟨rfl, hpair⟩ := Prod.mk.inj (Option.some.inj halloc)
                  obtain ⟨rfl, rfl⟩ := Prod.mk.inj hpair
                  exact ⟨own, c :: chunks, frees, ⟨rfl, rfl, rfl⟩, List.Subset.refl _, hbacked, hlevel, hhanded, .refl ..⟩

/-! ## A block that is returned -/

/-- The first free block is an address. -/
theorem LevelInv.free_lt {h : Heap} (hinv : LevelInv m own i fx chunks frees) (hbacked : Backed h own) :
    fx.free < 256 ^ 8 := by
  apply hinv.frees_linked.lt (by decide)
  intro x hx
  obtain ⟨height, hnode⟩ := hinv.node x hx
  exact hbacked.lt_of_owns hnode (by omega)

/-- A block of a program that becomes the first free one. -/
theorem LevelInv.dealloc {h : Heap} {x : ℕ} (hinv : LevelInv m own i fx chunks frees)
    (hbacked : Backed h own) (hsize : 8 ≤ fx.blockSize) (hx : Owns own (.node i x) x fx.blockSize)
    (hx0 : x ≠ 0) (hnot : x ∉ frees) :
    LevelInv (store m x 8 fx.free) own i { fx with free := x } chunks (x :: frees) := by
  have hout : ¬ InLevel i frees (.node i x) := by
    rintro (heq | ⟨c, heq⟩ | ⟨y, hy, heq⟩)
    · exact absurd heq nofun
    · exact absurd heq nofun
    · rw [(Owner.node.inj heq).2] at hnot
      exact hnot hy
  have hwritten : LevelInv (store m x 8 fx.free) own i fx chunks frees := by
    apply hinv.frame (frame_store (hx.mono (Nat.le_refl x) (by omega)) fx.free)
    intro o hin heq
    exact hout (heq ▸ hin)
  refine hwritten.setFree ⟨rfl, hx0, ?_⟩ (List.nodup_cons.mpr ⟨hnot, hinv.frees_nodup⟩)
    (List.forall_mem_cons.mpr ⟨⟨hsize, hx⟩, hinv.node⟩)
  rw [load_store_self _ _ (hinv.free_lt hbacked)]
  exact hwritten.frees_linked

end Asenal.Comlog
