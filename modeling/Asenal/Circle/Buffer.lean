import Asenal.Lib.Ring
import Asenal.Lib.Text

/-!
# The ring buffer `ul_circle`

A buffer of `sBufLen` bytes, one of which always stays free, so that equal positions of head and tail
mean that it is empty. Writes and reads that go past the end of the buffer are copied in two pieces.

* `nCBput_spec`, `nCBget_spec` — what one call does to the contents.
* `circle_refines` — the buffer is a bounded queue of bytes over every run of calls.

The sizes and positions of the source are of type `int`; as they are far below `INT_MAX`, they are
integers here, and `%` truncates as it does in C.
-/

namespace Asenal.Circle

open Asenal.Lib.Text Asenal.Lib.Memory Asenal.Lib.Ring

/-! ## The functions -/

/-- Source: `ul_circle.h` `circleB_t`. -/
structure CircleB where
  pbyBuf : Mem UInt8
  sBufLen : ℤ
  sHead : ℤ
  sTail : ℤ

/-- `DEF_ERR_CQFULL`. -/
def defErrCqfull : ℤ := -2

/-- `DEF_ERR_CQEMPTY`. -/
def defErrCqempty : ℤ := -4

/-- `DEF_ERR_INVALID_PARAM`. -/
def defErrInvalidParam : ℤ := -8

/-- A new buffer, in memory that holds `junk`. Source: `ul_circle.cpp` `pstCBinit`. -/
def pstCBinit (junk : Mem UInt8) (npmBufSize : ℤ) : Option CircleB :=
  if npmBufSize < 2 then none else some ⟨junk, npmBufSize + 1, 0, 0⟩

/-- Put `nSize` bytes from `pbyPut` into the buffer. Source: `ul_circle.cpp` `nCBput`. -/
def nCBput (cb : CircleB) (pbyPut : Mem UInt8) (nSize : ℤ) : ℤ × CircleB :=
  if nSize ≤ 0 then (defErrInvalidParam, cb)
  else if (cb.sHead - 1 - cb.sTail + cb.sBufLen).tmod cb.sBufLen < nSize then (defErrCqfull, cb)
  else
    let sTmpLen := cb.sBufLen - cb.sTail
    if cb.sTail < cb.sHead ∨ nSize ≤ sTmpLen then
      (0, { cb with
        pbyBuf := poke cb.pbyBuf cb.sTail.toNat (peek pbyPut 0 nSize.toNat)
        sTail := (cb.sTail + nSize).tmod cb.sBufLen })
    else
      let buf := poke cb.pbyBuf cb.sTail.toNat (peek pbyPut 0 sTmpLen.toNat)
      (0, { cb with
        pbyBuf := poke buf 0 (peek pbyPut sTmpLen.toNat (nSize - sTmpLen).toNat)
        sTail := nSize - sTmpLen })

/-- Take `nSize` bytes from the buffer to the memory at `pbyGet`. Source: `ul_circle.cpp` `nCBget`. -/
def nCBget (cb : CircleB) (pbyGet : Mem UInt8) (nSize : ℤ) : (ℤ × Mem UInt8) × CircleB :=
  if nSize ≤ 0 then ((defErrInvalidParam, pbyGet), cb)
  else if (cb.sTail - cb.sHead + cb.sBufLen).tmod cb.sBufLen < nSize then
    ((defErrCqempty, pbyGet), cb)
  else
    let sTmpLen := cb.sBufLen - cb.sHead
    if cb.sHead < cb.sTail ∨ nSize ≤ sTmpLen then
      ((0, poke pbyGet 0 (peek cb.pbyBuf cb.sHead.toNat nSize.toNat)),
        { cb with sHead := (cb.sHead + nSize).tmod cb.sBufLen })
    else
      let get := poke pbyGet 0 (peek cb.pbyBuf cb.sHead.toNat sTmpLen.toNat)
      ((0, poke get sTmpLen.toNat (peek cb.pbyBuf 0 (nSize - sTmpLen).toNat)),
        { cb with sHead := nSize - sTmpLen })

/-- Copy `nSize` bytes from the buffer to the memory at `pbyGet`; the head is moved, and put back.
Source: `ul_circle.cpp` `nCBlookup`. -/
def nCBlookup (cb : CircleB) (pbyGet : Mem UInt8) (nSize : ℤ) : (ℤ × Mem UInt8) × CircleB :=
  if nSize ≤ 0 then ((defErrInvalidParam, pbyGet), cb)
  else if (cb.sTail - cb.sHead + cb.sBufLen).tmod cb.sBufLen < nSize then
    ((defErrCqempty, pbyGet), cb)
  else
    let sSaveHead := cb.sHead
    let sTmpLen := cb.sBufLen - cb.sHead
    if cb.sHead < cb.sTail ∨ nSize ≤ sTmpLen then
      let moved := { cb with sHead := (cb.sHead + nSize).tmod cb.sBufLen }
      ((0, poke pbyGet 0 (peek cb.pbyBuf cb.sHead.toNat nSize.toNat)),
        { moved with sHead := sSaveHead })
    else
      let get := poke pbyGet 0 (peek cb.pbyBuf cb.sHead.toNat sTmpLen.toNat)
      let moved := { cb with sHead := nSize - sTmpLen }
      ((0, poke get sTmpLen.toNat (peek cb.pbyBuf 0 (nSize - sTmpLen).toNat)),
        { moved with sHead := sSaveHead })

/-- How many bytes are stored. Source: `ul_circle.cpp` `nCBgetdatalen`. -/
def nCBgetdatalen (cb : CircleB) : ℤ :=
  if cb.sTail = cb.sHead then 0 else (cb.sTail - cb.sHead + cb.sBufLen).tmod cb.sBufLen

/-- How many bytes are free, less a reserve. Source: `ul_circle.cpp` `nCBgetbufreelen`. -/
def nCBgetbufreelen (cb : CircleB) : ℤ :=
  let freelen := cb.sBufLen - nCBgetdatalen cb - 10
  if freelen < 0 then 0 else freelen

/-! ## One call -/

section

variable {buf : Mem UInt8} {len head tail n : ℕ}

/-- The bytes between two positions. -/
theorem tmod_used (hhead : head < len) (htail : tail < len) :
    ((tail : ℤ) - head + len).tmod len = if head ≤ tail then (tail : ℤ) - head else tail - head + len := by
  rw [Int.tmod_eq_emod_of_nonneg (by omega)]
  split_ifs with h
  · rw [Int.add_emod_right, Int.emod_eq_of_lt (by omega) (by omega)]
  · rw [Int.emod_eq_of_lt (by omega) (by omega)]

/-- The bytes that may be put between two positions. -/
theorem tmod_free (hhead : head < len) (htail : tail < len) :
    ((head : ℤ) - 1 - tail + len).tmod len =
      if head ≤ tail then (head : ℤ) - 1 - tail + len else head - 1 - tail := by
  rw [Int.tmod_eq_emod_of_nonneg (by omega)]
  split_ifs with h
  · rw [Int.emod_eq_of_lt (by omega) (by omega)]
  · rw [Int.add_emod_right, Int.emod_eq_of_lt (by omega) (by omega)]

/-- A position that is moved on. -/
theorem tmod_position (pos : ℕ) : ((pos : ℤ) + n).tmod len = ((pos + n) % len : ℕ) := by
  rw [Int.tmod_eq_emod_of_nonneg (by omega), Int.natCast_mod, Int.natCast_add]

/-- **A put with enough room** writes into the ring. -/
theorem nCBput_of_fits (hhead : head < len) (htail : tail < len) (hn : 0 < n)
    (hfits : (n : ℤ) ≤ ((head : ℤ) - 1 - tail + len).tmod len) (pbyPut : Mem UInt8) :
    nCBput ⟨buf, len, head, tail⟩ pbyPut n =
      (0, ⟨pokeRing buf len tail (peek pbyPut 0 n), len, head, ((tail + n) % len : ℕ)⟩) := by
  unfold nCBput
  dsimp only
  rw [if_neg (by omega), if_neg (not_lt.mpr hfits), tmod_position]
  rw [tmod_free hhead htail] at hfits
  unfold pokeRing
  rw [length_peek]
  by_cases hone : (tail : ℤ) < head ∨ (n : ℤ) ≤ len - tail
  · have hfit : tail + n ≤ len := by
      rcases hone with h | h
      · rw [if_neg (by omega)] at hfits
        omega
      · omega
    rw [if_pos hone, if_pos hfit]
    simp only [Int.toNat_natCast]
  · rw [not_or, not_lt, not_le] at hone
    obtain ⟨k, rfl⟩ : ∃ k, n = len - tail + k := ⟨n - (len - tail), by omega⟩
    have htmp : ((len : ℤ) - tail).toNat = len - tail := by omega
    have hrest : (((len - tail + k : ℕ) : ℤ) - (len - tail)).toNat = k := by omega
    have hend : (((tail + (len - tail + k)) % len : ℕ) : ℤ) =
        ((len - tail + k : ℕ) : ℤ) - (len - tail) := by
      have hround : tail + (len - tail + k) = k + len := by omega
      rw [if_pos (by omega)] at hfits
      rw [hround, Nat.add_mod_right, Nat.mod_eq_of_lt (by omega)]
      omega
    have hlen : len - tail = (peek pbyPut 0 (len - tail)).length := (length_peek _ _ _).symm
    rw [if_neg (by omega), if_neg (by omega), hend, htmp, hrest, Int.toNat_natCast, peek_add,
      List.take_left' (length_peek _ _ _), List.drop_left' (length_peek _ _ _), Nat.zero_add]

/-- **A get with enough bytes** reads from the ring. -/
theorem nCBget_of_stored (hhead : head < len) (htail : tail < len) (hn : 0 < n)
    (hstored : (n : ℤ) ≤ ((tail : ℤ) - head + len).tmod len) (pbyGet : Mem UInt8) :
    nCBget ⟨buf, len, head, tail⟩ pbyGet n =
      ((0, poke pbyGet 0 (ring buf len head n)), ⟨buf, len, ((head + n) % len : ℕ), tail⟩) := by
  unfold nCBget
  dsimp only
  rw [if_neg (by omega), if_neg (not_lt.mpr hstored), tmod_position]
  rw [tmod_used hhead htail] at hstored
  by_cases hone : (head : ℤ) < tail ∨ (n : ℤ) ≤ len - head
  · have hfit : head + n ≤ len := by
      rcases hone with h | h
      · rw [if_pos (by omega)] at hstored
        omega
      · omega
    rw [if_pos hone, ring_eq_peek buf hfit]
    simp only [Int.toNat_natCast]
  · rw [not_or, not_lt, not_le] at hone
    obtain ⟨k, rfl⟩ : ∃ k, n = len - head + k := ⟨n - (len - head), by omega⟩
    have htmp : ((len : ℤ) - head).toNat = len - head := by omega
    have hrest : (((len - head + k : ℕ) : ℤ) - (len - head)).toNat = k := by omega
    have hk : k < len := by
      split_ifs at hstored with h
      · omega
      · omega
    have hend : (((head + (len - head + k)) % len : ℕ) : ℤ) =
        ((len - head + k : ℕ) : ℤ) - (len - head) := by
      have hround : head + (len - head + k) = k + len := by omega
      rw [hround, Nat.add_mod_right, Nat.mod_eq_of_lt hk]
      omega
    rw [if_neg (by omega), hend, htmp, hrest, Int.toNat_natCast,
      ring_eq_peek_append buf hhead.le hk.le, poke_append, length_peek, Nat.zero_add]

end

/-- A lookup is a get that puts the head back. -/
theorem nCBlookup_eq (cb : CircleB) (pbyGet : Mem UInt8) (nSize : ℤ) :
    nCBlookup cb pbyGet nSize = ((nCBget cb pbyGet nSize).1, cb) := by
  unfold nCBlookup nCBget
  dsimp only
  split_ifs <;> rfl

/-! ## The contents -/

/-- The buffer holds the bytes `q`, the oldest first; behind its end stands what stood there at the
beginning. -/
structure Holds (junk : Mem UInt8) (cb : CircleB) (q : Bytes) : Prop where
  head_nonneg : 0 ≤ cb.sHead
  head_lt : cb.sHead < cb.sBufLen
  tail : cb.sTail = ((cb.sHead.toNat + q.length) % cb.sBufLen.toNat : ℕ)
  room : (q.length : ℤ) < cb.sBufLen
  content : ring cb.pbyBuf cb.sBufLen.toNat cb.sHead.toNat q.length = q
  behind : ∀ i, cb.sBufLen.toNat ≤ i → cb.pbyBuf i = junk i

/-- The sizes and positions of a buffer that holds bytes are no negative numbers. -/
theorem Holds.eq {junk : Mem UInt8} {cb : CircleB} {q : Bytes} (h : Holds junk cb q) :
    ∃ (buf : Mem UInt8) (len head : ℕ), cb = ⟨buf, len, head, ((head + q.length) % len : ℕ)⟩ ∧
      head < len ∧ q.length < len ∧ ring buf len head q.length = q ∧
      ∀ i, len ≤ i → buf i = junk i := by
  obtain ⟨hnonneg, hlt, htail, hroom, hcontent, hbehind⟩ := h
  obtain ⟨buf, len, head, tail⟩ := cb
  dsimp only at *
  obtain ⟨head, rfl⟩ := Int.eq_ofNat_of_zero_le hnonneg
  obtain ⟨len, rfl⟩ := Int.eq_ofNat_of_zero_le (hnonneg.trans hlt.le)
  simp only [Int.toNat_natCast] at *
  exact ⟨buf, len, head, by rw [htail], by omega, by omega, hcontent, hbehind⟩

theorem holds_mk {junk buf : Mem UInt8} {len head : ℕ} {q : Bytes} (hhead : head < len)
    (hroom : q.length < len) (hcontent : ring buf len head q.length = q)
    (hbehind : ∀ i, len ≤ i → buf i = junk i) :
    Holds junk ⟨buf, len, head, ((head + q.length) % len : ℕ)⟩ q :=
  ⟨Int.natCast_nonneg head, Int.ofNat_lt.mpr hhead, rfl, Int.ofNat_lt.mpr hroom, hcontent, hbehind⟩

/-- A new buffer holds nothing. -/
theorem holds_init (junk : Mem UInt8) {npmBufSize : ℤ} (h : 2 ≤ npmBufSize) :
    ∃ cb, pstCBinit junk npmBufSize = some cb ∧ cb.sBufLen = npmBufSize + 1 ∧ Holds junk cb [] := by
  obtain ⟨size, rfl⟩ := Int.eq_ofNat_of_zero_le (show 0 ≤ npmBufSize by omega)
  have hnew : Holds junk ⟨junk, (size + 1 : ℕ), (0 : ℕ),
      ((0 + ([] : Bytes).length) % (size + 1) : ℕ)⟩ [] :=
    holds_mk (Nat.succ_pos size) (Nat.succ_pos size) rfl fun _ _ => rfl
  exact ⟨_, if_neg (not_lt.mpr h), rfl, hnew⟩

/-- The two lengths that the calls compare sizes with. -/
theorem stored_free {len head n : ℕ} (hhead : head < len) (hn : n < len) :
    ((((head + n) % len : ℕ) : ℤ) - head + len).tmod len = n ∧
      ((head : ℤ) - 1 - ((head + n) % len : ℕ) + len).tmod len = len - 1 - n := by
  have htail : (head + n) % len < len := Nat.mod_lt _ (by omega)
  rw [tmod_used hhead htail, tmod_free hhead htail]
  rcases mod_cases hhead hn with ⟨hlt, hmod⟩ | ⟨hge, hmod⟩
  · rw [hmod, if_pos (by omega), if_pos (by omega)]
    omega
  · rw [hmod, if_neg (by omega), if_neg (by omega)]
    omega

/-- **What a put does**: the bytes are appended if they fit. -/
theorem nCBput_spec {junk : Mem UInt8} {cb : CircleB} {q : Bytes} (h : Holds junk cb q)
    (pbyPut : Mem UInt8) {n : ℕ} (hn : 0 < n) :
    if (n : ℤ) ≤ cb.sBufLen - 1 - q.length then
      (nCBput cb pbyPut n).1 = 0 ∧ Holds junk (nCBput cb pbyPut n).2 (q ++ peek pbyPut 0 n) ∧
        (nCBput cb pbyPut n).2.sBufLen = cb.sBufLen
    else nCBput cb pbyPut n = (defErrCqfull, cb) := by
  obtain ⟨buf, len, head, rfl, hhead, hroom, hcontent, hbehind⟩ := h.eq
  have hfree := (stored_free hhead hroom).2
  have htail : (head + q.length) % len < len := Nat.mod_lt _ (by omega)
  split_ifs with hfits
  · dsimp only at hfits
    rw [nCBput_of_fits hhead htail hn (by rw [hfree]; exact hfits), Nat.mod_add_mod, Nat.add_assoc]
    refine ⟨rfl, ?_, rfl⟩
    have hlen : q.length + n = (q ++ peek pbyPut 0 n).length := by simp
    have hput := ring_pokeRing buf (show 0 < len by omega) head q.length (peek pbyPut 0 n)
      (by rw [length_peek]; omega)
    rw [length_peek, hcontent, hlen] at hput
    rw [hlen]
    apply holds_mk hhead (by rw [← hlen]; omega) hput
    intro i hi
    rw [pokeRing_of_le buf htail.le (by rw [length_peek]; omega) hi, hbehind i hi]
  · unfold nCBput
    dsimp only at hfits ⊢
    rw [if_neg (by omega), if_pos (by rw [hfree]; omega)]

/-- **What a get does**: the oldest bytes are removed if there are enough. -/
theorem nCBget_spec {junk : Mem UInt8} {cb : CircleB} {q : Bytes} (h : Holds junk cb q)
    (pbyGet : Mem UInt8) {n : ℕ} (hn : 0 < n) :
    if n ≤ q.length then
      (nCBget cb pbyGet n).1 = (0, poke pbyGet 0 (q.take n)) ∧
        Holds junk (nCBget cb pbyGet n).2 (q.drop n) ∧
        (nCBget cb pbyGet n).2.sBufLen = cb.sBufLen
    else nCBget cb pbyGet n = ((defErrCqempty, pbyGet), cb) := by
  obtain ⟨buf, len, head, rfl, hhead, hroom, hcontent, hbehind⟩ := h.eq
  have hstored := (stored_free hhead hroom).1
  have htail : (head + q.length) % len < len := Nat.mod_lt _ (by omega)
  split_ifs with hfits
  · rw [nCBget_of_stored hhead htail hn (by rw [hstored]; omega)]
    obtain ⟨k, hk⟩ := Nat.exists_eq_add_of_le hfits
    rw [hk, ring_add] at hcontent
    have hparts : ring buf len head n = q.take n ∧ ring buf len (head + n) k = q.drop n := by
      rw [← hcontent, List.take_left' (length_ring _ _ _ _), List.drop_left' (length_ring _ _ _ _)]
      exact ⟨rfl, rfl⟩
    refine ⟨by rw [hparts.1], ?_, rfl⟩
    have hdrop : (q.drop n).length = k := by
      rw [List.length_drop]
      omega
    have hend : (head + q.length) % len = ((head + n) % len + (q.drop n).length) % len := by
      rw [hdrop, Nat.mod_add_mod, hk, Nat.add_assoc]
    rw [hend]
    refine holds_mk (Nat.mod_lt _ (by omega)) (by omega) ?_ hbehind
    rw [ring_mod, hdrop, hparts.2]
  · unfold nCBget
    dsimp only
    rw [if_neg (by omega), if_pos (by rw [hstored]; omega)]

/-- The number of stored bytes, and a length that always fits. -/
theorem nCBgetdatalen_spec {junk : Mem UInt8} {cb : CircleB} {q : Bytes} (h : Holds junk cb q) :
    nCBgetdatalen cb = q.length := by
  obtain ⟨buf, len, head, rfl, hhead, hroom, -, -⟩ := h.eq
  have hstored := (stored_free hhead hroom).1
  unfold nCBgetdatalen
  dsimp only
  split_ifs with hempty
  · rw [hempty, sub_self, zero_add, Int.tmod_self] at hstored
    exact hstored
  · exact hstored

/-! ## Runs -/

/-- A call, with the memory that it reads or writes. -/
inductive Op
  | put (pbyPut : Mem UInt8) (nSize : ℤ)
  | get (pbyGet : Mem UInt8) (nSize : ℤ)
  | lookup (pbyGet : Mem UInt8) (nSize : ℤ)

/-- What a call returns, and the memory of the caller behind it. -/
abbrev Answer := ℤ × Mem UInt8

/-- One call on a buffer. -/
def exec (cb : CircleB) : Op → Answer × CircleB
  | .put pbyPut nSize =>
      let r := nCBput cb pbyPut nSize
      ((r.1, pbyPut), r.2)
  | .get pbyGet nSize => nCBget cb pbyGet nSize
  | .lookup pbyGet nSize => nCBlookup cb pbyGet nSize

/-- One call on a queue of at most `cap` bytes. -/
def spec (cap : ℤ) (q : Bytes) : Op → Answer × Bytes
  | .put pbyPut nSize =>
      if nSize ≤ 0 then ((defErrInvalidParam, pbyPut), q)
      else if nSize ≤ cap - q.length then ((0, pbyPut), q ++ peek pbyPut 0 nSize.toNat)
      else ((defErrCqfull, pbyPut), q)
  | .get pbyGet nSize =>
      if nSize ≤ 0 then ((defErrInvalidParam, pbyGet), q)
      else if nSize ≤ q.length then ((0, poke pbyGet 0 (q.take nSize.toNat)), q.drop nSize.toNat)
      else ((defErrCqempty, pbyGet), q)
  | .lookup pbyGet nSize =>
      if nSize ≤ 0 then ((defErrInvalidParam, pbyGet), q)
      else if nSize ≤ q.length then ((0, poke pbyGet 0 (q.take nSize.toNat)), q)
      else ((defErrCqempty, pbyGet), q)

/-- The calls of a run on a buffer, one after the other. -/
def execAll (cb : CircleB) : List Op → List Answer × CircleB
  | [] => ([], cb)
  | op :: ops =>
      let r := exec cb op
      let rs := execAll r.2 ops
      (r.1 :: rs.1, rs.2)

/-- The calls of a run on a queue, one after the other. -/
def specAll (cap : ℤ) (q : Bytes) : List Op → List Answer × Bytes
  | [] => ([], q)
  | op :: ops =>
      let r := spec cap q op
      let rs := specAll cap r.2 ops
      (r.1 :: rs.1, rs.2)

/-- A call on the buffer is the call on the queue. -/
theorem exec_refines {junk : Mem UInt8} {cb : CircleB} {q : Bytes} {cap : ℤ}
    (h : Holds junk cb q) (hcap : cb.sBufLen = cap + 1) (op : Op) :
    (exec cb op).1 = (spec cap q op).1 ∧ Holds junk (exec cb op).2 (spec cap q op).2 ∧
      (exec cb op).2.sBufLen = cap + 1 := by
  have hget : ∀ (pbyGet : Mem UInt8) (n : ℕ), 0 < n →
      (nCBget cb pbyGet n).1 = (spec cap q (.get pbyGet n)).1 ∧
        Holds junk (nCBget cb pbyGet n).2 (spec cap q (.get pbyGet n)).2 ∧
        (nCBget cb pbyGet n).2.sBufLen = cap + 1 := by
    intro pbyGet n hn
    have hspec := nCBget_spec h pbyGet hn
    simp only [spec, if_neg (show ¬ (n : ℤ) ≤ 0 by omega), Nat.cast_le, Int.toNat_natCast]
    split_ifs at hspec ⊢ with hfits
    · exact ⟨hspec.1, hspec.2.1, hspec.2.2.trans hcap⟩
    · rw [hspec]
      exact ⟨rfl, h, hcap⟩
  cases op with
  | put pbyPut nSize =>
      by_cases hpos : nSize ≤ 0
      · simp only [exec, nCBput, spec, if_pos hpos]
        exact ⟨trivial, h, hcap⟩
      obtain ⟨n, rfl⟩ := Int.eq_ofNat_of_zero_le (not_le.mp hpos).le
      have hspec := nCBput_spec h pbyPut (n := n) (by omega)
      rw [hcap, Int.add_sub_cancel] at hspec
      simp only [exec, spec, if_neg hpos, Int.toNat_natCast]
      split_ifs at hspec ⊢ with hfits
      · exact ⟨by rw [hspec.1], hspec.2.1, hspec.2.2⟩
      · rw [hspec]
        exact ⟨rfl, h, hcap⟩
  | get pbyGet nSize =>
      by_cases hpos : nSize ≤ 0
      · simp only [exec, nCBget, spec, if_pos hpos]
        exact ⟨trivial, h, hcap⟩
      obtain ⟨n, rfl⟩ := Int.eq_ofNat_of_zero_le (not_le.mp hpos).le
      exact hget pbyGet n (by omega)
  | lookup pbyGet nSize =>
      rw [exec, nCBlookup_eq]
      by_cases hpos : nSize ≤ 0
      · simp only [nCBget, spec, if_pos hpos]
        exact ⟨trivial, h, hcap⟩
      obtain ⟨n, rfl⟩ := Int.eq_ofNat_of_zero_le (not_le.mp hpos).le
      refine ⟨(hget pbyGet n (by omega)).1.trans ?_, ?_, hcap⟩
      · simp only [spec, if_neg hpos]
        split_ifs <;> rfl
      · simp only [spec, if_neg hpos]
        split_ifs <;> exact h

/-- A run on the buffer is the run on the queue. -/
theorem execAll_refines {junk : Mem UInt8} {cb : CircleB} {q : Bytes} {cap : ℤ}
    (h : Holds junk cb q) (hcap : cb.sBufLen = cap + 1) (ops : List Op) :
    (execAll cb ops).1 = (specAll cap q ops).1 ∧
      Holds junk (execAll cb ops).2 (specAll cap q ops).2 ∧
      (execAll cb ops).2.sBufLen = cap + 1 := by
  induction ops generalizing cb q with
  | nil => exact ⟨rfl, h, hcap⟩
  | cons op ops ih =>
      obtain ⟨hanswer, hholds, hlen⟩ := exec_refines h hcap op
      obtain ⟨hanswers, hrest⟩ := ih hholds hlen
      simp only [execAll, specAll]
      exact ⟨by rw [hanswer, hanswers], hrest⟩

/-- **The buffer is a bounded queue of bytes** over every run from a new buffer: the answers are those
of the queue, head and tail stay inside the buffer and no byte behind it is written, the data length is
the number of stored bytes, and what is at most as long as the free length can be put. -/
theorem circle_refines (junk : Mem UInt8) (npmBufSize : ℤ) (hsize : 2 ≤ npmBufSize) (ops : List Op) :
    ∃ cb, pstCBinit junk npmBufSize = some cb ∧
      (execAll cb ops).1 = (specAll npmBufSize [] ops).1 ∧
      Holds junk (execAll cb ops).2 (specAll npmBufSize [] ops).2 ∧
      (0 ≤ (execAll cb ops).2.sTail ∧ (execAll cb ops).2.sTail < (execAll cb ops).2.sBufLen) ∧
      (execAll cb ops).2.sBufLen = npmBufSize + 1 ∧
      nCBgetdatalen (execAll cb ops).2 = (specAll npmBufSize [] ops).2.length ∧
      ∀ pbyPut nSize, 0 < nSize → nSize ≤ nCBgetbufreelen (execAll cb ops).2 →
        (nCBput (execAll cb ops).2 pbyPut nSize).1 = 0 := by
  obtain ⟨cb, hinit, hcap, hnew⟩ := holds_init junk hsize
  obtain ⟨hanswers, hholds, hlen⟩ := execAll_refines hnew hcap ops
  have hdata := nCBgetdatalen_spec hholds
  refine ⟨cb, hinit, hanswers, hholds, ?_, hlen, hdata, ?_⟩
  · obtain ⟨buf, len, head, heq, hhead, -, -, -⟩ := hholds.eq
    rw [heq]
    exact ⟨Int.natCast_nonneg _, Int.ofNat_lt.mpr (Nat.mod_lt _ (by omega))⟩
  · intro pbyPut nSize hpos hle
    obtain ⟨n, rfl⟩ := Int.eq_ofNat_of_zero_le hpos.le
    have hspec := nCBput_spec hholds pbyPut (Int.ofNat_lt.mp hpos)
    have hroom := hholds.room
    unfold nCBgetbufreelen at hle
    dsimp only at hle
    rw [hdata, hlen] at hle
    rw [hlen] at hspec hroom
    rw [if_pos] at hspec
    · exact hspec.1
    · split_ifs at hle
      · omega
      · omega

/-- A buffer of four bytes that goes past its end. -/
theorem circle_refines_four : ∃ cb, pstCBinit (fun _ => 0) 4 = some cb ∧
    (execAll cb [.put (ofList [1, 2, 3] fun _ => 0) 3, .get (fun _ => 0) 2,
      .put (ofList [4, 5, 6] fun _ => 0) 3, .lookup (fun _ => 0) 4]).1 =
    (specAll 4 [] [.put (ofList [1, 2, 3] fun _ => 0) 3, .get (fun _ => 0) 2,
      .put (ofList [4, 5, 6] fun _ => 0) 3, .lookup (fun _ => 0) 4]).1 := by
  obtain ⟨cb, hinit, hanswers, -⟩ := circle_refines (fun _ => 0) 4 (by decide)
    [.put (ofList [1, 2, 3] fun _ => 0) 3, .get (fun _ => 0) 2,
      .put (ofList [4, 5, 6] fun _ => 0) 3, .lookup (fun _ => 0) 4]
  exact ⟨cb, hinit, hanswers⟩

end Asenal.Circle
