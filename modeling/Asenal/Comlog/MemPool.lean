import Asenal.Lib.Owned

/-!
# The memory pool

Levels of blocks of one size each, cut from large chunks. The size of a block is stored in front of it and
tells, when the block is returned, which level it belongs to. Returned blocks are threaded on a list by
their first bytes; blocks that are too large for every level are allocated alone and threaded on another
list.

The growth of the levels is a parameter: what `(int)(x * _rate)` gives. `malloc` is answered from a list of
addresses; without a fitting answer the operation is not carried out, as a null address would be written
to.

* `MemPool.create`, `MemPool.alloc`, `MemPool.dealloc` — the operations.
* `PoolState.run` — the operations of a program, which also writes to its blocks.
-/

namespace Asenal.Comlog

open Asenal.Lib.Text Asenal.Lib.Memory Asenal.Lib.Owned

/-! ## Words in memory -/

/-- A `long` from its bytes. -/
def toLong (n : ℕ) : ℤ := if n < 2 ^ 63 then n else (n : ℤ) - 2 ^ 64

/-- The bytes of an integer, cut to `k` of them. -/
def cutInt (k : ℕ) (z : ℤ) : ℕ := (z % 256 ^ k).toNat

/-- `_now->used` of a chunk, behind the address of the next one. -/
def chunkUsed (m : Mem UInt8) (chunk : ℕ) : ℤ := toLong (load m (chunk + 8) 8)

/-- An `int` in memory. -/
def loadInt (m : Mem UInt8) (a : ℕ) : Int32 := Int32.ofInt (load m a 4)

/-- An `int` is written. -/
def storeInt (m : Mem UInt8) (a : ℕ) (z : Int32) : Mem UInt8 := store m a 4 (cutInt 4 z.toInt)

/-! ## Blocks of one size -/

/-- Source: `mempool.h` `FixMem`. -/
structure FixMem where
  mem : ℕ
  now : ℕ
  free : ℕ
  size : ℤ
  bsize : Int32
  bnum : Int32

/-- Source: `mempool.cpp` `FixMem::create`. -/
def FixMem.create (bnum bsize : Int32) : FixMem := ⟨0, 0, 0, (bsize * bnum).toInt, bsize, bnum⟩

/-- A chunk is there, or a new one is allocated: the part under `_now == NULL`. Source: `mempool.cpp`
`FixMem::alloc`. -/
def FixMem.chunk (h : Heap) (fx : FixMem) (answers : List ℕ) : Option (Heap × FixMem × List ℕ) :=
  if fx.now ≠ 0 then some (h, fx, answers)
  else
    match answers with
    | [] => none
    | now :: answers =>
        match h.malloc (cutInt 8 (16 + fx.size)) now with
        | none => none
        | some h =>
            let m := poke h.cells now (List.replicate 16 0)
            let m := store m now 8 fx.mem
            let m := store m (now + 8) 8 0
            some ({ h with cells := m }, { fx with now := now, mem := now }, answers)

/-- From the label `again` on. Source: `mempool.cpp` `FixMem::alloc`. -/
def FixMem.alloc : ℕ → Heap → FixMem → List ℕ → Option (ℕ × Heap × FixMem)
  | 0, _, _, _ => none
  | fuel + 1, h, fx, answers =>
      match fx.chunk h answers with
      | none => none
      | some (h, fx, answers) =>
          let used := chunkUsed h.cells fx.now
          if used < fx.size then
            -- the next block of the chunk
            some (fx.now + 16 + used.toNat,
              { h with cells := store h.cells (fx.now + 8) 8 (cutInt 8 (used + fx.bsize.toInt)) }, fx)
          else
            let next := load h.cells fx.now 8
            if next = 0 ∨ chunkUsed h.cells next = fx.size then
              if fx.free = 0 then FixMem.alloc fuel h { fx with now := 0 } answers
              else some (fx.free, h, { fx with free := load h.cells fx.free 8 })
            else FixMem.alloc fuel h { fx with now := next } answers

/-- Source: `mempool.cpp` `FixMem::dealloc`. -/
def FixMem.dealloc (h : Heap) (fx : FixMem) (ptr : ℕ) : Heap × FixMem :=
  ({ h with cells := store h.cells ptr 8 fx.free }, { fx with free := ptr })

/-! ## Large blocks -/

/-- The search behind the first element. Source: `dlist.cpp` `dlist_erase`, the loop. -/
def dlistWalk (node : ℕ) : ℕ → Mem UInt8 → ℕ → ℕ → Option (Mem UInt8)
  | 0, _, _, _ => none
  | fuel + 1, m, front, now =>
      if now = 0 then some m
      else if node = now then some (store m front 8 (load m now 8))
      else dlistWalk node fuel m (load m front 8) (load m now 8)

/-- Source: `dlist.cpp` `dlist_erase`. -/
def dlistErase (fuel : ℕ) (m : Mem UInt8) (root node : ℕ) : Option (Mem UInt8 × ℕ) :=
  if root = node then some (m, load m root 8)
  else (dlistWalk node fuel m root (load m root 8)).map fun m => (m, root)

/-! ## The pool -/

/-- Source: `mempool.h` `MemPool`. -/
structure MemPool where
  minmem : Int32
  allocmem : Int32
  /-- `(int)(x * _rate)`. -/
  grow : Int32 → Int32
  /-- The first `_level` of the levels. -/
  fixmem : List FixMem
  biglist : ℕ

/-- `MemPool::DEFLEVEL`. -/
def defLevel : ℕ := 11

/-- `MemPool::DEFMAXMEM`. -/
def defMaxMem : Int32 := 1048576

/-- `MemPool::DEFMINMEM`. -/
def defMinMem : Int32 := 1024

/-- The levels from `mem` on, `n` at most, and `_allocmem`. Source: `mempool.cpp` `MemPool::create`, the
loop. -/
def createLevels (grow : Int32 → Int32) (maxmem : Int32) : ℕ → Int32 → Int32 → List FixMem × Int32
  | 0, _, allocmem => ([], allocmem)
  | n + 1, mem, allocmem =>
      let rsize := mem + 4
      if rsize ≤ maxmem + 4 then
        let r := createLevels grow maxmem n (grow mem) rsize
        (FixMem.create (maxmem / mem) rsize :: r.1, r.2)
      else ([], allocmem)

/-- A parameter that is raised to its least value. -/
def atLeast (least x : Int32) : Int32 := if x < least then least else x

/-- The pool, or `none` for the result -1. Source: `mempool.cpp` `MemPool::create`. -/
def MemPool.create (grow : Int32 → Int32) (minmem maxmem : Int32) : Option MemPool :=
  let minmem := atLeast defMinMem minmem
  let maxmem := atLeast defMaxMem maxmem
  if maxmem ≤ minmem then none
  else
    let r := createLevels grow maxmem defLevel minmem maxmem
    some ⟨minmem, r.2, grow, r.1, 0⟩

/-- Source: `mempool.cpp` `MemPool::getidx`, the loop. -/
def getidxLoop (grow : Int32 → Int32) (size : Int32) : ℕ → Int32 → ℕ → Option ℕ
  | 0, _, _ => none
  | fuel + 1, base, ptr =>
      if base + 4 < size then getidxLoop grow size fuel (grow base) (ptr + 1) else some ptr

/-- Source: `mempool.cpp` `MemPool::getidx`. -/
def MemPool.getidx (p : MemPool) (fuel : ℕ) (size : Int32) : Option ℕ :=
  getidxLoop p.grow size fuel p.minmem 0

/-- The rounded size with the header: computed as a `size_t` and stored as an `int`. Source:
`mempool.cpp` `MemPool::alloc`. -/
def roundSize (size : Int32) : Int32 :=
  ((size.toInt64.toUInt64 + 4 - 1) / 4 * 4 + 4).toUInt32.toInt32

/-- Where a block is from. -/
inductive Place
  | big
  | level (i : ℕ)
  deriving DecidableEq

/-- Where a block of a rounded size is taken from, and returned to. -/
def MemPool.place (p : MemPool) (fuel : ℕ) (rsize : Int32) : Option Place :=
  if p.allocmem < rsize then some .big else (p.getidx fuel rsize).map .level

/-- Source: `mempool.cpp` `MemPool::alloc`. -/
def MemPool.alloc (p : MemPool) (fuel : ℕ) (h : Heap) (size : Int32) (answers : List ℕ) :
    Option (ℕ × Heap × MemPool) :=
  let rsize := roundSize size
  match p.place fuel rsize with
  | none => none
  | some .big =>
      match answers with
      | [] => none
      | lst :: _ =>
          match h.malloc (cutInt 8 (rsize.toInt + 8)) lst with
          | none => none
          | some h =>
              let m := storeInt h.cells (lst + 8) rsize
              some (lst + 12, { h with cells := store m lst 8 p.biglist }, { p with biglist := lst })
  | some (.level i) =>
      match p.fixmem[i]? with
      | none => none
      | some fx =>
          match fx.alloc fuel h answers with
          | none => none
          | some (ret, h, fx) =>
              some (ret + 4, { h with cells := storeInt h.cells ret rsize },
                { p with fixmem := p.fixmem.set i fx })

/-- The result is where the block was returned to. Source: `mempool.cpp` `MemPool::dealloc`. -/
def MemPool.dealloc (p : MemPool) (fuel : ℕ) (h : Heap) (ptr : ℕ) : Option (Place × Heap × MemPool) :=
  let node := ptr - 4
  match p.place fuel (loadInt h.cells node) with
  | none => none
  | some .big =>
      let lst := node - 8
      match dlistErase fuel h.cells p.biglist lst with
      | none => none
      | some (m, root) => some (.big, Heap.free { h with cells := m } lst, { p with biglist := root })
  | some (.level i) =>
      match p.fixmem[i]? with
      | none => none
      | some fx =>
          let r := fx.dealloc h node
          some (.level i, r.1, { p with fixmem := p.fixmem.set i r.2 })

/-! ## Programs -/

/-- A block that a program has: its address, the size it asked for, and where it is from. -/
structure Live where
  ptr : ℕ
  size : Int32
  place : Place

structure PoolState where
  pool : MemPool
  heap : Heap
  live : List Live

/-- What a program does; `alloc` comes with the answers of `malloc`. -/
inductive PoolOp
  | alloc (size : Int32) (answers : List ℕ)
  | dealloc (ptr : ℕ)
  | write (ptr off : ℕ) (bs : Bytes)

/-- One operation. Only live blocks are returned and written to. -/
def PoolState.step (fuel : ℕ) (s : PoolState) : PoolOp → Option PoolState
  | .alloc size answers =>
      match s.pool.place fuel (roundSize size), s.pool.alloc fuel s.heap size answers with
      | some place, some (ptr, h, p) => some ⟨p, h, ⟨ptr, size, place⟩ :: s.live⟩
      | _, _ => none
  | .dealloc ptr =>
      if ∃ b ∈ s.live, b.ptr = ptr then
        (s.pool.dealloc fuel s.heap ptr).map fun r => ⟨r.2.2, r.2.1, s.live.filter (·.ptr ≠ ptr)⟩
      else none
  | .write ptr off bs =>
      if ∃ b ∈ s.live, b.ptr = ptr ∧ off + bs.length ≤ b.size.toInt.toNat then
        some { s with heap := { s.heap with cells := poke s.heap.cells (ptr + off) bs } }
      else none

/-- Operations one after the other. -/
def PoolState.run (fuel : ℕ) (s : PoolState) : List PoolOp → Option PoolState
  | [] => some s
  | op :: ops => (s.step fuel op).bind fun s => s.run fuel ops

end Asenal.Comlog
