import Mathlib.Algebra.BigOperators.Ring.List
import Mathlib.Algebra.Group.Nat.Defs
import Mathlib.Algebra.Order.Ring.Nat
import Asenal.Lib.Machine
import Asenal.Lib.Memory

/-!
# A file that is written through mappings

`PosixMmapFile` of `tmp/writable.cc` maps one region of its file after the other, and copies what is appended
to the region that is mapped; `Close` cuts off what is left of the last one.

* `appendRound`, `append` — the loop of `Append`, round by round.
* `Writer.Sound` — where the pointers are, and what is in the file.
* `append_returns` — each loop comes to an end.
* `append_run`, `append_spec` — `Append` is a run of its rounds, and what it leaves in the file.
* `writer_contents` — after `Close` the file has what was appended.
-/

namespace Asenal.Tmp

open Asenal.Lib.Machine Asenal.Lib.Memory

/-! ## The system -/

/-- The bytes of a file, and how many there are. -/
structure File where
  bytes : Mem UInt8
  size : ℕ

/-- The bytes of a file. -/
def File.contents (f : File) : List UInt8 := peek f.bytes 0 f.size

/-- A file that becomes longer has zeros behind what it had. -/
def File.truncate (f : File) (len : ℕ) : File := ⟨fun i => if i < f.size then f.bytes i else 0, len⟩

/-- What the system does: which calls succeed, and where it puts the mappings. The calls are numbered. -/
structure System where
  ok : ℕ → Bool
  place : ℕ → ℕ
  place_pos : ∀ n, 0 < place n

/-! ## The class -/

/-- A `PosixMmapFile` and its file. The pointers are addresses, of which 0 is `NULL`; the region that is mapped
is the part of the file from `file_offset_` on. -/
structure MmapFile where
  /-- `fd_ >= 0`. -/
  isOpen : Bool
  page_size_ : ℕ
  map_size_ : ℕ
  base_ : ℕ
  limit_ : ℕ
  dst_ : ℕ
  last_sync_ : ℕ
  file_offset_ : ℕ
  pending_sync_ : Bool
  file : File
  /-- The calls of the system up to now. -/
  calls : ℕ
  /-- One of them has failed. -/
  failed : Bool
  /-- The sizes of the regions that were unmapped. -/
  unmapped : List ℕ

/-- `Roundup`: the next multiple of `y`. -/
def roundup (x y : ℕ) : ℕ := (x + y - 1) / y * y

/-- `NewWritableFile` opens an empty file. Source: `writable.cc` `PosixMmapFile::PosixMmapFile`. -/
def MmapFile.new (pageSize : ℕ) : MmapFile where
  isOpen := true
  page_size_ := pageSize
  map_size_ := roundup 65536 pageSize
  base_ := 0
  limit_ := 0
  dst_ := 0
  last_sync_ := 0
  file_offset_ := 0
  pending_sync_ := false
  file := ⟨fun _ => 0, 0⟩
  calls := 0
  failed := false
  unmapped := []

variable (sys : System) (s : MmapFile)

/-- A call of the system that succeeds or fails. -/
def MmapFile.call (ok : Bool) : Bool × MmapFile :=
  (ok, { s with calls := s.calls + 1, failed := s.failed || !ok })

/-- `ftruncate`. A length is an `off_t`. -/
def MmapFile.ftruncate (len : ℕ) : Bool × MmapFile :=
  let r := s.call (sys.ok s.calls && len < 2 ^ 63)
  if r.1 then (true, { r.2 with file := s.file.truncate len }) else r

/-- Source: `writable.cc` `PosixMmapFile::UnmapCurrentRegion`. -/
def MmapFile.unmapCurrentRegion : Bool × MmapFile :=
  if s.base_ ≠ 0 then
    let r := s.call (sys.ok s.calls)
    (r.1, { r.2 with
      pending_sync_ := s.pending_sync_ || s.last_sync_ < s.limit_
      file_offset_ := s.file_offset_ + (s.limit_ - s.base_)
      base_ := 0
      limit_ := 0
      last_sync_ := 0
      dst_ := 0
      map_size_ := if s.map_size_ < 2 ^ 20 then s.map_size_ * 2 else s.map_size_
      unmapped := s.unmapped ++ [s.limit_ - s.base_] })
  else (true, s)

/-- A region at `ptr`, in which nothing is written yet. -/
def MmapFile.setRegion (s : MmapFile) (ptr size : ℕ) : MmapFile :=
  { s with base_ := ptr, limit_ := ptr + size, dst_ := ptr, last_sync_ := ptr }

/-- `assert(base_ == NULL)`. Source: `writable.cc` `PosixMmapFile::MapNewRegion`. -/
def MmapFile.mapNewRegion : Option (Bool × MmapFile) :=
  if s.base_ = 0 then
    let r := s.ftruncate sys (s.file_offset_ + s.map_size_)
    if r.1 then
      let m := r.2.call (sys.ok r.2.calls)
      if m.1 then some (true, m.2.setRegion (sys.place r.2.calls) s.map_size_) else some m
    else some r
  else none

/-- `memcpy(dst_, src, n)` and `dst_ += n`: the bytes are in the file. -/
def MmapFile.copy (bs : List UInt8) : MmapFile :=
  { s with
    file := { s.file with bytes := poke s.file.bytes (s.file_offset_ + (s.dst_ - s.base_)) bs }
    dst_ := s.dst_ + bs.length }

/-- A region with room in it. -/
def MmapFile.makeRoom : Option (Bool × MmapFile) :=
  if s.limit_ - s.dst_ = 0 then
    let u := s.unmapCurrentRegion sys
    if u.1 then u.2.mapNewRegion sys else some u
  else some (true, s)

/-- A round of the loop of `Append`, in which `avail` is what it was at the beginning: whether the function
goes on, and what is left to be copied. -/
def MmapFile.appendRound (src : List UInt8) : Option (Bool × MmapFile × List UInt8) :=
  if s.base_ ≤ s.dst_ ∧ s.dst_ ≤ s.limit_ then
    let avail := s.limit_ - s.dst_
    match s.makeRoom sys with
    | none => none
    | some (false, s) => some (false, s, src)
    | some (true, s) =>
        let n := if src.length ≤ avail then src.length else avail
        some (true, s.copy (src.take n), src.drop n)
  else none

/-- The loop, round by round, for the characters of a string; `none` when the rounds do not suffice or an
assertion fails. Source: `writable.cc` `PosixMmapFile::Append`. -/
def MmapFile.append (s : MmapFile) : ℕ → List UInt8 → Option (Bool × MmapFile)
  | _, [] => some (true, s)
  | 0, _ :: _ => none
  | rounds + 1, b :: src =>
      match s.appendRound sys (b :: src) with
      | none => none
      | some (false, s, _) => some (false, s)
      | some (true, s, src) => s.append rounds src

/-- `assert((s % page_size_) == 0)`. Source: `writable.cc` `PosixMmapFile::TruncateToPageBoundary`. -/
def MmapFile.truncateToPageBoundary (s : MmapFile) (x : ℕ) : Option ℕ :=
  let x := x - (x &&& (s.page_size_ - 1))
  if x % s.page_size_ = 0 then some x else none

/-- Source: `writable.cc` `PosixMmapFile::Sync`. -/
def MmapFile.sync : Option (Bool × MmapFile) :=
  let r := if s.pending_sync_ then { s with pending_sync_ := false }.call (sys.ok s.calls) else (true, s)
  if r.2.last_sync_ < r.2.dst_ then do
    let _ ← s.truncateToPageBoundary (s.last_sync_ - s.base_)
    let _ ← s.truncateToPageBoundary (s.dst_ - s.base_ - 1)
    let m := { r.2 with last_sync_ := s.dst_ }.call (sys.ok r.2.calls)
    return (r.1 && m.1, m.2)
  else some r

/-- The region is unmapped, and what is unused of it is cut off. -/
def MmapFile.trim : MmapFile :=
  let unused := s.limit_ - s.dst_
  let u := s.unmapCurrentRegion sys
  if u.1 ∧ 0 < unused then (u.2.ftruncate sys (u.2.file_offset_ - unused)).2 else u.2

/-- Source: `writable.cc` `PosixMmapFile::Close`. -/
def MmapFile.close : MmapFile :=
  let t := s.trim sys
  { (t.call (sys.ok t.calls)).2 with isOpen := false, base_ := 0, limit_ := 0 }

/-! ## Runs -/

/-- A file that is written, what is left of the string that is being appended, and all that was to be
appended up to now. -/
structure Writer where
  file : MmapFile
  src : List UInt8
  appended : List UInt8

/-- What may happen to a file that is written. -/
inductive Action
  /-- `Append` is called. -/
  | append (data : List UInt8)
  /-- A round of its loop. -/
  | round
  | sync
  | close

/-- A step. -/
def Writer.step (w : Writer) : Action → Option Writer
  | .append data =>
      if w.src = [] ∧ w.file.isOpen then some { w with src := data, appended := w.appended ++ data } else none
  | .round =>
      if w.src ≠ [] then
        match w.file.appendRound sys w.src with
        | none => none
        | some (false, s, _) => some { w with file := s, src := [] }
        | some (true, s, src) => some { w with file := s, src := src }
      else none
  | .sync =>
      if w.src = [] ∧ w.file.isOpen then (w.file.sync sys).map fun r => { w with file := r.2 } else none
  | .close => if w.src = [] ∧ w.file.isOpen then some { w with file := w.file.close sys } else none

/-- All points of all runs with a file, between the calls and within their loops. -/
def Writer.Reached (pageSize : ℕ) : Writer → Prop :=
  Lib.Machine.Reached (· = ⟨.new pageSize, [], []⟩) (Writer.step sys) fun _ _ => True

/-! ## The pointers -/

/-- The pointers are in order, and regions are made of whole pages. -/
structure MmapFile.Sound (k : ℕ) (s : MmapFile) : Prop where
  page : s.page_size_ = 2 ^ k
  map_pos : 0 < s.map_size_
  map_dvd : 2 ^ k ∣ s.map_size_
  null : s.base_ = 0 → s.limit_ = 0
  base_le : s.base_ ≤ s.dst_
  dst_le : s.dst_ ≤ s.limit_
  region_dvd : 2 ^ k ∣ s.limit_ - s.base_
  offset : s.file_offset_ = s.unmapped.sum
  unmapped_dvd : ∀ n ∈ s.unmapped, 2 ^ k ∣ n

variable {sys : System} {s s' : MmapFile} {k : ℕ}

/-- A region begins at a page. -/
theorem MmapFile.Sound.offset_dvd (h : s.Sound k) : 2 ^ k ∣ s.file_offset_ := by
  rw [h.offset]
  exact List.dvd_sum h.unmapped_dvd

/-- Rounding up gives whole pages. -/
theorem roundup_pos (k : ℕ) : 0 < roundup 65536 (2 ^ k) := by
  have hpos : 0 < 2 ^ k := Nat.two_pow_pos k
  refine Nat.mul_pos (Nat.div_pos ?_ hpos) hpos
  omega

/-- A new file is sound. -/
theorem new_sound (k : ℕ) : (MmapFile.new (2 ^ k)).Sound k where
  page := rfl
  map_pos := roundup_pos k
  map_dvd := Nat.dvd_mul_left _ _
  null _ := rfl
  base_le := Nat.le_refl _
  dst_le := Nat.le_refl _
  region_dvd := Nat.dvd_zero _
  offset := rfl
  unmapped_dvd := by simp [MmapFile.new]

/-- Unmapping a region, and unmapping none. -/
theorem unmapCurrentRegion_eq (hbase : s.base_ ≠ 0) : s.unmapCurrentRegion sys = (sys.ok s.calls,
    { s with
      calls := s.calls + 1
      failed := s.failed || !sys.ok s.calls
      pending_sync_ := s.pending_sync_ || s.last_sync_ < s.limit_
      file_offset_ := s.file_offset_ + (s.limit_ - s.base_)
      base_ := 0
      limit_ := 0
      last_sync_ := 0
      dst_ := 0
      map_size_ := if s.map_size_ < 2 ^ 20 then s.map_size_ * 2 else s.map_size_
      unmapped := s.unmapped ++ [s.limit_ - s.base_] }) :=
  if_pos hbase

/-- Without a region there is nothing to unmap. -/
theorem unmapCurrentRegion_null (hbase : s.base_ = 0) : s.unmapCurrentRegion sys = (true, s) :=
  if_neg (not_not.mpr hbase)

/-- Nothing is mapped afterwards. -/
theorem unmapCurrentRegion_base (sys : System) (s : MmapFile) : (s.unmapCurrentRegion sys).2.base_ = 0 := by
  by_cases hbase : s.base_ = 0
  · rw [unmapCurrentRegion_null hbase, hbase]
  · rw [unmapCurrentRegion_eq hbase]

/-- To unmap the region keeps the pointers sound. -/
theorem MmapFile.Sound.unmap (h : s.Sound k) : (s.unmapCurrentRegion sys).2.Sound k := by
  by_cases hbase : s.base_ = 0
  · rw [unmapCurrentRegion_null hbase]
    exact h
  · rw [unmapCurrentRegion_eq hbase]
    constructor
    · exact h.page
    · have hpos := h.map_pos
      simp only
      split_ifs <;> omega
    · simp only
      split_ifs
      · exact h.map_dvd.mul_right 2
      · exact h.map_dvd
    · exact fun _ => rfl
    · exact Nat.le_refl 0
    · exact Nat.le_refl 0
    · exact Nat.dvd_zero _
    · simp only
      rw [List.sum_append, List.sum_singleton, h.offset]
    · intro n hn
      rcases List.mem_append.mp hn with hn | hn
      · exact h.unmapped_dvd n hn
      · rw [List.mem_singleton.mp hn]
        exact h.region_dvd

/-- What a call of the system leaves as it is. -/
theorem MmapFile.Sound.call (h : s.Sound k) (ok : Bool) : (s.call ok).2.Sound k :=
  ⟨h.page, h.map_pos, h.map_dvd, h.null, h.base_le, h.dst_le, h.region_dvd, h.offset, h.unmapped_dvd⟩

/-- So does a change of the size of the file. -/
theorem MmapFile.Sound.ftruncate (h : s.Sound k) (sys : System) (len : ℕ) : (s.ftruncate sys len).2.Sound k := by
  unfold MmapFile.ftruncate
  simp only
  split_ifs
  · exact ⟨h.page, h.map_pos, h.map_dvd, h.null, h.base_le, h.dst_le, h.region_dvd, h.offset, h.unmapped_dvd⟩
  · exact h.call _

/-- So does a new region of whole pages. -/
theorem MmapFile.Sound.setRegion (h : s.Sound k) {ptr size : ℕ} (hptr : 0 < ptr) (hsize : 2 ^ k ∣ size) :
    (s.setRegion ptr size).Sound k := by
  refine ⟨h.page, h.map_pos, h.map_dvd, ?_, Nat.le_refl _, Nat.le_add_right _ _, ?_, h.offset, h.unmapped_dvd⟩
  · intro hnull
    exact absurd hnull (Nat.pos_iff_ne_zero.mp hptr)
  · simp only [MmapFile.setRegion, Nat.add_sub_cancel_left]
    exact hsize

/-- A new region, or a call that failed. -/
theorem MmapFile.Sound.mapNew (h : s.Sound k) (hbase : s.base_ = 0) :
    ∃ r, s.mapNewRegion sys = some r ∧ r.2.Sound k ∧ (r.1 = true → 0 < r.2.limit_ - r.2.dst_) := by
  unfold MmapFile.mapNewRegion
  rw [if_pos hbase]
  have hftruncate := h.ftruncate sys (s.file_offset_ + s.map_size_)
  generalize s.ftruncate sys (s.file_offset_ + s.map_size_) = r at hftruncate
  obtain ⟨ok, t⟩ := r
  have hpos := h.map_pos
  simp only at hftruncate ⊢
  split_ifs with hok hmap
  · refine ⟨_, rfl, (hftruncate.call _).setRegion (sys.place_pos _) h.map_dvd, fun _ => ?_⟩
    show 0 < sys.place t.calls + s.map_size_ - sys.place t.calls
    omega
  · exact ⟨_, rfl, hftruncate.call _, fun h => absurd h hmap⟩
  · exact ⟨_, rfl, hftruncate, fun h => absurd h hok⟩

/-- There is room behind the check for it, if no call fails. -/
theorem MmapFile.Sound.makeRoom (h : s.Sound k) (sys : System) :
    ∃ r, s.makeRoom sys = some r ∧ r.2.Sound k ∧ (r.1 = true → 0 < r.2.limit_ - r.2.dst_) := by
  unfold MmapFile.makeRoom
  split_ifs with havail
  · simp only
    split_ifs with hunmap
    · exact h.unmap.mapNew (unmapCurrentRegion_base sys s)
    · exact ⟨_, rfl, h.unmap, fun hok => absurd hok hunmap⟩
  · exact ⟨_, rfl, h, fun _ => Nat.pos_of_ne_zero havail⟩

/-- Nothing is mapped while there is room. -/
theorem makeRoom_of_pos (h : 0 < s.limit_ - s.dst_) : s.makeRoom sys = some (true, s) :=
  if_neg (Nat.pos_iff_ne_zero.mp h)

/-- So does a copy that fits the region. -/
theorem MmapFile.Sound.copy (h : s.Sound k) {bs : List UInt8} (hlen : bs.length ≤ s.limit_ - s.dst_) :
    (s.copy bs).Sound k := by
  have hdst := h.dst_le
  refine ⟨h.page, h.map_pos, h.map_dvd, h.null, ?_, ?_, h.region_dvd, h.offset, h.unmapped_dvd⟩
  · exact h.base_le.trans (Nat.le_add_right _ _)
  · show s.dst_ + bs.length ≤ s.limit_
    omega

/-- A copy of nothing. -/
theorem copy_nil : s.copy [] = s := by
  simp [MmapFile.copy]

/-- A round without room: a region is mapped, and nothing is copied yet. -/
theorem appendRound_full (h : s.Sound k) (havail : s.limit_ - s.dst_ = 0) (src : List UInt8) :
    s.appendRound sys src = (s.makeRoom sys).map fun r => (r.1, r.2, src) := by
  unfold MmapFile.appendRound
  rw [if_pos ⟨h.base_le, h.dst_le⟩, havail]
  rcases s.makeRoom sys with _ | ⟨ok, t⟩
  · rfl
  · cases ok with
    | false => rfl
    | true =>
        have hn : (if src.length ≤ 0 then src.length else 0) = 0 := by
          split_ifs <;> omega
        simp only [hn, Option.map_some, List.take_zero, List.drop_zero, copy_nil]

/-- A round with room: as much as there is room for is copied. -/
theorem appendRound_room (h : s.Sound k) (havail : 0 < s.limit_ - s.dst_) (src : List UInt8) :
    s.appendRound sys src =
      some (true, s.copy (src.take (s.limit_ - s.dst_)), src.drop (s.limit_ - s.dst_)) := by
  unfold MmapFile.appendRound
  rw [if_pos ⟨h.base_le, h.dst_le⟩, makeRoom_of_pos havail]
  simp only
  split_ifs with hlen
  · rw [List.take_of_length_le hlen, List.drop_of_length_le hlen, List.take_length, List.drop_length]
  · rfl

/-- **A round**: no assertion fails, and there is room then or something is copied. -/
theorem MmapFile.Sound.round (h : s.Sound k) (sys : System) (src : List UInt8) :
    ∃ ok t src', s.appendRound sys src = some (ok, t, src') ∧ t.Sound k ∧
      (ok = true → (s.limit_ - s.dst_ = 0 ∧ src' = src ∧ 0 < t.limit_ - t.dst_) ∨
        (0 < s.limit_ - s.dst_ ∧ src' = src.drop (s.limit_ - s.dst_))) := by
  rcases Nat.eq_zero_or_pos (s.limit_ - s.dst_) with havail | havail
  · obtain ⟨⟨ok, t⟩, hroom, ht, hpos⟩ := h.makeRoom sys
    refine ⟨ok, t, src, ?_, ht, fun hok => Or.inl ⟨havail, rfl, hpos hok⟩⟩
    rw [appendRound_full h havail, hroom, Option.map_some]
  · refine ⟨_, _, _, appendRound_room h havail src, ?_, fun _ => Or.inr ⟨havail, rfl⟩⟩
    exact h.copy (List.length_take_le _ _)

/-- The rounds that are still to come: one byte at least in each, but for the first one if there is no room. -/
def MmapFile.roundsLeft (s : MmapFile) (src : List UInt8) : ℕ :=
  2 * src.length - if 0 < s.limit_ - s.dst_ then 1 else 0

/-- **The loop comes to an end**, and no assertion fails. -/
theorem append_returns (h : s.Sound k) {rounds : ℕ} {src : List UInt8} (hrounds : s.roundsLeft src ≤ rounds) :
    ∃ r, s.append sys rounds src = some r := by
  induction rounds generalizing s src with
  | zero =>
      cases src with
      | nil => exact ⟨_, rfl⟩
      | cons b src =>
          unfold MmapFile.roundsLeft at hrounds
          rw [List.length_cons] at hrounds
          split_ifs at hrounds <;> omega
  | succ rounds ih =>
      cases src with
      | nil => exact ⟨_, rfl⟩
      | cons b src =>
          obtain ⟨ok, t, src', hround, ht, hleft⟩ := h.round sys (b :: src)
          rw [MmapFile.append, hround]
          cases ok with
          | false => exact ⟨_, rfl⟩
          | true =>
              apply ih ht
              unfold MmapFile.roundsLeft at hrounds ⊢
              rcases hleft rfl with ⟨havail, rfl, hpos⟩ | ⟨havail, rfl⟩
              · rw [if_neg (by omega)] at hrounds
                rw [if_pos hpos]
                omega
              · rw [if_pos havail, List.length_cons] at hrounds
                rw [List.length_drop, List.length_cons]
                omega

/-! ## The contents -/

/-- The file reaches to the end of the region, and has what was copied in front of `dst_`. -/
structure MmapFile.Holds (s : MmapFile) (bs : List UInt8) : Prop where
  size : s.file.size = s.file_offset_ + (s.limit_ - s.base_)
  contents : peek s.file.bytes 0 (s.file_offset_ + (s.dst_ - s.base_)) = bs

variable {bs : List UInt8}

/-- A new file is empty. -/
theorem new_holds (pageSize : ℕ) : (MmapFile.new pageSize).Holds [] := ⟨rfl, rfl⟩

/-- What a file has at the front stays when it is cut behind it, or made longer. -/
theorem peek_truncate {f : File} {n len : ℕ} (hn : n ≤ f.size) :
    peek (f.truncate len).bytes 0 n = peek f.bytes 0 n := by
  apply peek_congr
  intro i hi
  exact if_pos (by omega)

/-- A step of the system that fails is seen later on. -/
structure MmapFile.Goes (s t : MmapFile) (ok : Bool) : Prop where
  isOpen : t.isOpen = s.isOpen
  failed : t.failed = false → s.failed = false ∧ ok = true

/-- A call goes on if it is a success. -/
theorem goes_call (ok : Bool) : s.Goes (s.call ok).2 ok where
  isOpen := rfl
  failed h := by simpa [MmapFile.call] using h

/-- No call at all. -/
theorem MmapFile.Goes.refl (s : MmapFile) : s.Goes s true := ⟨rfl, fun h => ⟨h, rfl⟩⟩

/-- One call behind the other. -/
theorem MmapFile.Goes.trans {t u : MmapFile} {ok ok' : Bool} (h : s.Goes t ok) (h' : t.Goes u ok') : s.Goes u ok' :=
  ⟨h'.isOpen.trans h.isOpen, fun hu => ⟨(h.failed (h'.failed hu).1).1, (h'.failed hu).2⟩⟩

/-- To unmap the region is one call at most. -/
theorem goes_unmap (sys : System) (s : MmapFile) : s.Goes (s.unmapCurrentRegion sys).2 (s.unmapCurrentRegion sys).1 := by
  by_cases hbase : s.base_ = 0
  · rw [unmapCurrentRegion_null hbase]
    exact .refl s
  · rw [unmapCurrentRegion_eq hbase]
    exact ⟨rfl, fun h => by simpa using h⟩

/-- A change of the size is one call. -/
theorem goes_ftruncate (sys : System) (s : MmapFile) (len : ℕ) :
    s.Goes (s.ftruncate sys len).2 (s.ftruncate sys len).1 := by
  unfold MmapFile.ftruncate
  simp only
  split_ifs with hok
  · refine ⟨rfl, fun h => ⟨?_, rfl⟩⟩
    exact ((goes_call _).failed h).1
  · exact goes_call _

/-- A change of the size that is a success. -/
theorem ftruncate_eq {len : ℕ} (h : (s.ftruncate sys len).1 = true) : s.ftruncate sys len = (true,
    { s with calls := s.calls + 1, file := s.file.truncate len }) := by
  unfold MmapFile.ftruncate at h ⊢
  generalize (sys.ok s.calls && decide (len < 2 ^ 63)) = ok at h ⊢
  cases ok with
  | false => cases h
  | true => simp [MmapFile.call]

/-- The region is written back, and its end is where the next one begins. -/
theorem MmapFile.Holds.unmap (h : s.Holds bs) (hs : s.Sound k) (hfull : s.limit_ - s.dst_ = 0) :
    (s.unmapCurrentRegion sys).2.Holds bs := by
  by_cases hbase : s.base_ = 0
  · rw [unmapCurrentRegion_null hbase]
    exact h
  · rw [unmapCurrentRegion_eq hbase]
    have hlimit : s.limit_ = s.dst_ := Nat.le_antisymm (Nat.sub_eq_zero_iff_le.mp hfull) hs.dst_le
    refine ⟨h.size, ?_⟩
    simp only
    rw [hlimit, Nat.sub_self, Nat.add_zero]
    exact h.contents

/-- The three ways in which a region is mapped. -/
theorem mapNewRegion_cases (hbase : s.base_ = 0) {ok : Bool} {t : MmapFile}
    (hmap : s.mapNewRegion sys = some (ok, t)) :
    (ok = false ∧ t.isOpen = s.isOpen ∧ t.failed = true) ∨
      (ok = true ∧ ∃ ptr, t = { s with
        calls := s.calls + 2
        file := s.file.truncate (s.file_offset_ + s.map_size_) }.setRegion ptr s.map_size_) := by
  unfold MmapFile.mapNewRegion at hmap
  rw [if_pos hbase] at hmap
  simp only at hmap
  by_cases htruncate : (s.ftruncate sys (s.file_offset_ + s.map_size_)).1 = true
  · rw [if_pos htruncate, ftruncate_eq htruncate] at hmap
    simp only at hmap
    split at hmap
    next hok =>
      obtain ⟨rfl, rfl⟩ := Prod.mk.inj (Option.some.inj hmap)
      have hok : sys.ok (s.calls + 1) = true := hok
      refine Or.inr ⟨rfl, sys.place (s.calls + 1), ?_⟩
      simp [MmapFile.call, MmapFile.setRegion, hok]
    next hok =>
      obtain ⟨rfl, rfl⟩ := Prod.mk.inj (Option.some.inj hmap)
      have hok : sys.ok (s.calls + 1) = false := by simpa [MmapFile.call] using hok
      exact Or.inl ⟨hok, rfl, by simp [hok]⟩
  · have hgoes := goes_ftruncate sys s (s.file_offset_ + s.map_size_)
    rw [if_neg htruncate] at hmap
    rw [Option.some.inj hmap] at htruncate hgoes
    refine Or.inl ⟨by simpa using htruncate, hgoes.isOpen, ?_⟩
    by_contra hfailed
    exact htruncate (hgoes.failed (by simpa using hfailed)).2

/-- The next region stands behind what is held. -/
theorem MmapFile.Holds.mapNew (h : s.Holds bs) (hs : s.Sound k) (hbase : s.base_ = 0) (calls ptr : ℕ) :
    ({ s with calls := calls, file := s.file.truncate (s.file_offset_ + s.map_size_) }.setRegion ptr
      s.map_size_).Holds bs := by
  have hlimit : s.limit_ = 0 := hs.null hbase
  have hdst : s.dst_ = 0 := Nat.eq_zero_of_le_zero (hlimit ▸ hs.dst_le)
  have hsize := h.size
  have hcontents := h.contents
  rw [hlimit, Nat.zero_sub, Nat.add_zero] at hsize
  rw [hdst, Nat.zero_sub, Nat.add_zero] at hcontents
  constructor
  · simp only [MmapFile.setRegion, File.truncate]
    omega
  · simp only [MmapFile.setRegion]
    rw [Nat.sub_self, Nat.add_zero, peek_truncate hsize.ge]
    exact hcontents

/-- Room is made, and what is in the file stays. -/
theorem MmapFile.Holds.makeRoom (h : s.failed = false → s.Holds bs) (hs : s.Sound k) {ok : Bool} {t : MmapFile}
    (hroom : s.makeRoom sys = some (ok, t)) : s.Goes t ok ∧ (t.failed = false → t.Holds bs) := by
  unfold MmapFile.makeRoom at hroom
  by_cases hfull : s.limit_ - s.dst_ = 0
  · have hgoes := goes_unmap sys s
    rw [if_pos hfull] at hroom
    simp only at hroom
    by_cases hunmap : (s.unmapCurrentRegion sys).1 = true
    · rw [if_pos hunmap] at hroom
      rw [hunmap] at hgoes
      rcases mapNewRegion_cases (unmapCurrentRegion_base sys s) hroom with ⟨rfl, hopen, hfailed⟩ | ⟨rfl, ptr, rfl⟩
      · refine ⟨⟨hopen.trans hgoes.isOpen, ?_⟩, ?_⟩
        · intro hok
          rw [hfailed] at hok
          cases hok
        · intro hok
          rw [hfailed] at hok
          cases hok
      · refine ⟨⟨hgoes.isOpen, hgoes.failed⟩, ?_⟩
        intro hok
        exact ((h (hgoes.failed hok).1).unmap hs hfull).mapNew hs.unmap (unmapCurrentRegion_base sys s) _ ptr
    · rw [if_neg hunmap] at hroom
      rw [Option.some.inj hroom] at hgoes hunmap
      refine ⟨hgoes, ?_⟩
      intro hok
      exact absurd (hgoes.failed hok).2 hunmap
  · rw [if_neg hfull] at hroom
    obtain ⟨rfl, rfl⟩ := Prod.mk.inj (Option.some.inj hroom)
    exact ⟨.refl s, h⟩

/-- What is copied stands behind what was there. -/
theorem MmapFile.Holds.copy (h : s.Holds bs) (hs : s.Sound k) (src : List UInt8) : (s.copy src).Holds (bs ++ src) := by
  have hbase := hs.base_le
  refine ⟨h.size, ?_⟩
  have hpos : s.file_offset_ + (s.dst_ + src.length - s.base_) =
      s.file_offset_ + (s.dst_ - s.base_) + src.length := by omega
  have hextend := peek_poke_extend s.file.bytes src (Nat.zero_add (s.file_offset_ + (s.dst_ - s.base_))).symm
  simp only [MmapFile.copy]
  rw [hpos, hextend, h.contents]

/-- **A round** moves some of the string to the file. -/
theorem MmapFile.Holds.round (h : s.failed = false → s.Holds bs) (hs : s.Sound k) {src src' : List UInt8} {ok : Bool}
    {t : MmapFile} (hround : s.appendRound sys src = some (ok, t, src')) :
    s.Goes t ok ∧ (t.failed = false → ∃ bs', t.Holds bs' ∧ bs' ++ src' = bs ++ src) := by
  rcases Nat.eq_zero_or_pos (s.limit_ - s.dst_) with havail | havail
  · rw [appendRound_full hs havail] at hround
    obtain ⟨⟨ok, t⟩, hroom, heq⟩ := Option.map_eq_some_iff.mp hround
    obtain ⟨rfl, rfl, rfl⟩ : _ ∧ _ ∧ _ := by simpa using heq
    obtain ⟨hgoes, hholds⟩ := MmapFile.Holds.makeRoom h hs hroom
    exact ⟨hgoes, fun hok => ⟨bs, hholds hok, rfl⟩⟩
  · rw [appendRound_room hs havail] at hround
    obtain ⟨rfl, rfl, rfl⟩ : _ ∧ _ ∧ _ := by simpa using hround
    refine ⟨⟨rfl, fun hok => ⟨hok, rfl⟩⟩, fun hok => ⟨_, (h hok).copy hs _, ?_⟩⟩
    rw [List.append_assoc, List.take_append_drop]

/-- **`Append`** leaves the string behind what was in the file; it fails only if a call of the system
does. -/
theorem append_spec (hs : s.Sound k) (h : s.failed = false → s.Holds bs) {rounds : ℕ} {src : List UInt8} {ok : Bool}
    {t : MmapFile} (happend : s.append sys rounds src = some (ok, t)) :
    s.Goes t ok ∧ (t.failed = false → t.Holds (bs ++ src)) := by
  induction rounds generalizing s src bs with
  | zero =>
      cases src with
      | nil =>
          obtain ⟨rfl, rfl⟩ := Prod.mk.inj (Option.some.inj happend)
          exact ⟨.refl s, by rwa [List.append_nil]⟩
      | cons b src => cases happend
  | succ rounds ih =>
      cases src with
      | nil =>
          obtain ⟨rfl, rfl⟩ := Prod.mk.inj (Option.some.inj happend)
          exact ⟨.refl s, by rwa [List.append_nil]⟩
      | cons b src =>
          obtain ⟨ok', s', src', hround, hs', -⟩ := hs.round sys (b :: src)
          obtain ⟨hgoes, hholds⟩ := MmapFile.Holds.round h hs hround
          rw [MmapFile.append, hround] at happend
          cases ok' with
          | false =>
              obtain ⟨rfl, rfl⟩ := Prod.mk.inj (Option.some.inj happend)
              exact ⟨hgoes, fun hok => absurd (hgoes.failed hok).2 Bool.false_ne_true⟩
          | true =>
              by_cases hfailed : s'.failed = false
              · obtain ⟨bs', hbs', heq⟩ := hholds hfailed
                obtain ⟨hrest, hcontents⟩ := ih hs' (fun _ => hbs') happend
                exact ⟨hgoes.trans hrest, fun hok => heq ▸ hcontents hok⟩
              · have hnone : s'.failed = false → s'.Holds [] := fun hok => absurd hok hfailed
                obtain ⟨hrest, -⟩ := ih hs' hnone happend
                exact ⟨hgoes.trans hrest, fun hok => absurd (hrest.failed hok).1 hfailed⟩

/-! ## The other calls -/

/-- There is a page boundary. -/
theorem truncateToPageBoundary_isSome (h : s.page_size_ = 2 ^ k) (x : ℕ) :
    ∃ y, s.truncateToPageBoundary x = some y := by
  have hmask : x &&& (s.page_size_ - 1) = x % 2 ^ k := by
    rw [h, Nat.and_two_pow_sub_one_eq_mod]
  refine ⟨x - x % 2 ^ k, ?_⟩
  unfold MmapFile.truncateToPageBoundary
  simp only
  rw [hmask, h, if_pos (Nat.mod_eq_zero_of_dvd (Nat.dvd_sub_mod x))]

/-- `Sync` only moves `last_sync_`. -/
theorem sync_eq (sys : System) (h : s.Sound k) : ∃ ok p l c f, s.sync sys = some (ok,
    { s with pending_sync_ := p, last_sync_ := l, calls := c, failed := f }) ∧ (f = false → s.failed = false) := by
  obtain ⟨p₁, hp₁⟩ := truncateToPageBoundary_isSome h.page (s.last_sync_ - s.base_)
  obtain ⟨p₂, hp₂⟩ := truncateToPageBoundary_isSome h.page (s.dst_ - s.base_ - 1)
  have hfirst : ∃ ok p c f, (if s.pending_sync_ then { s with pending_sync_ := false }.call (sys.ok s.calls)
      else (true, s)) = (ok, { s with pending_sync_ := p, calls := c, failed := f }) ∧
      (f = false → s.failed = false) := by
    split_ifs
    · refine ⟨_, _, _, _, rfl, ?_⟩
      intro hfailed
      exact (Bool.or_eq_false_iff.mp hfailed).1
    · exact ⟨_, _, _, _, rfl, id⟩
  obtain ⟨ok, p, c, f, heq, hf⟩ := hfirst
  unfold MmapFile.sync
  rw [heq]
  simp only
  split_ifs
  · rw [hp₁, hp₂]
    refine ⟨_, _, _, _, _, rfl, ?_⟩
    intro hfailed
    exact hf (Bool.or_eq_false_iff.mp hfailed).1
  · exact ⟨_, _, _, _, _, rfl, hf⟩

/-- To unmap and to cut the file keeps the pointers sound. -/
theorem MmapFile.Sound.trim (h : s.Sound k) (sys : System) : (s.trim sys).Sound k ∧ (s.trim sys).base_ = 0 := by
  have hbase := unmapCurrentRegion_base sys s
  unfold MmapFile.trim
  simp only
  split_ifs
  · refine ⟨h.unmap.ftruncate sys _, ?_⟩
    unfold MmapFile.ftruncate
    simp only
    split_ifs <;> exact hbase
  · exact ⟨h.unmap, hbase⟩

/-- So does `Close`. -/
theorem MmapFile.Sound.close (h : s.Sound k) : (s.close sys).Sound k := by
  obtain ⟨htrim, hbase⟩ := h.trim sys
  have hdst : (s.trim sys).dst_ = 0 := Nat.eq_zero_of_le_zero (htrim.null hbase ▸ htrim.dst_le)
  exact ⟨htrim.page, htrim.map_pos, htrim.map_dvd, fun _ => rfl, Nat.zero_le _, hdst.le, Nat.dvd_zero _,
    htrim.offset, htrim.unmapped_dvd⟩

/-- What has not failed behind the cut had not failed before. -/
theorem trim_failed (hok : (s.trim sys).failed = false) : s.failed = false := by
  unfold MmapFile.trim at hok
  simp only at hok
  split_ifs at hok
  · exact ((goes_unmap sys _).failed ((goes_ftruncate sys _ _).failed hok).1).1
  · exact ((goes_unmap sys _).failed hok).1

/-- What has not failed behind `Close` had not failed before. -/
theorem close_failed (hok : (s.close sys).failed = false) : s.failed = false :=
  trim_failed ((goes_call (sys.ok (s.trim sys).calls)).failed hok).1

/-- What is left is what was copied. -/
theorem MmapFile.Holds.trim (h : s.Holds bs) (hs : s.Sound k) (hok : (s.trim sys).failed = false) :
    (s.trim sys).file.contents = bs := by
  have hcontents := h.contents
  have hsize := h.size
  by_cases hbase : s.base_ = 0
  · have hlimit : s.limit_ = 0 := hs.null hbase
    have hdst : s.dst_ = 0 := Nat.eq_zero_of_le_zero (hlimit ▸ hs.dst_le)
    have htrim : s.trim sys = s := by
      rw [MmapFile.trim, unmapCurrentRegion_null hbase]
      exact if_neg (by omega)
    rw [htrim]
    rw [hdst, Nat.zero_sub, Nat.add_zero] at hcontents
    rw [hlimit, Nat.zero_sub, Nat.add_zero] at hsize
    rw [File.contents, hsize, hcontents]
  · have hbase_le := hs.base_le
    have hdst_le := hs.dst_le
    have hgoes := goes_unmap sys s
    have hfile : (s.unmapCurrentRegion sys).2.file = s.file := by rw [unmapCurrentRegion_eq hbase]
    have hoffset : (s.unmapCurrentRegion sys).2.file_offset_ = s.file_offset_ + (s.limit_ - s.base_) := by
      rw [unmapCurrentRegion_eq hbase]
    unfold MmapFile.trim at hok ⊢
    simp only at hok ⊢
    by_cases hcut : (s.unmapCurrentRegion sys).1 = true ∧ 0 < s.limit_ - s.dst_
    · rw [if_pos hcut] at hok ⊢
      have hlen := ((goes_ftruncate sys _ _).failed hok).2
      have hcopied : s.file_offset_ + (s.limit_ - s.base_) - (s.limit_ - s.dst_) =
          s.file_offset_ + (s.dst_ - s.base_) := by omega
      have hcut : Lib.Memory.peek (s.file.truncate (s.file_offset_ + (s.dst_ - s.base_))).bytes 0
          (s.file_offset_ + (s.dst_ - s.base_)) =
          Lib.Memory.peek s.file.bytes 0 (s.file_offset_ + (s.dst_ - s.base_)) :=
        peek_truncate (by omega)
      rw [ftruncate_eq hlen, hfile, hoffset, hcopied]
      exact hcut.trans hcontents
    · rw [if_neg hcut] at hok ⊢
      have hfull : s.limit_ - s.dst_ = 0 := by
        by_contra hne
        exact hcut ⟨(hgoes.failed hok).2, Nat.pos_of_ne_zero hne⟩
      have hcopied : s.file_offset_ + (s.limit_ - s.base_) = s.file_offset_ + (s.dst_ - s.base_) := by omega
      rw [hfile, File.contents, hsize, hcopied, hcontents]

/-- **`Close`** leaves the bytes that were copied, and no others. -/
theorem MmapFile.Holds.close (h : s.Holds bs) (hs : s.Sound k) (hok : (s.close sys).failed = false) :
    (s.close sys).file.contents = bs :=
  h.trim hs ((goes_call (sys.ok (s.trim sys).calls)).failed hok).1

/-! ## Runs -/

/-- The pointers, and what of the strings is in the file as long as no call fails. -/
structure Writer.Sound (k : ℕ) (w : Writer) : Prop where
  file : w.file.Sound k
  idle : w.file.isOpen = false → w.src = []
  holds : w.file.failed = false → w.file.isOpen = true → ∃ bs, w.file.Holds bs ∧ bs ++ w.src = w.appended
  closed : w.file.failed = false → w.file.isOpen = false → w.file.file.contents = w.appended

variable {w w' : Writer}

/-- The bytes that are in the file, when no call has failed. -/
theorem Writer.Sound.exists_holds (h : w.Sound k) (hopen : w.file.isOpen = true) :
    ∃ bs, w.file.failed = false → w.file.Holds bs ∧ bs ++ w.src = w.appended := by
  by_cases hfailed : w.file.failed = false
  · obtain ⟨bs, hbs⟩ := h.holds hfailed hopen
    exact ⟨bs, fun _ => hbs⟩
  · exact ⟨[], fun hok => absurd hok hfailed⟩

/-- A round keeps the writer sound. -/
theorem Writer.Sound.round (h : w.Sound k) (hstep : w.step sys .round = some w') : w'.Sound k := by
  obtain ⟨hsrc, hstep⟩ := Option.ite_none_right_eq_some.mp hstep
  have hopen : w.file.isOpen = true := by
    by_contra hclosed
    exact hsrc (h.idle (by simpa using hclosed))
  obtain ⟨bs, hbs⟩ := h.exists_holds hopen
  obtain ⟨ok, t, src, hround, ht, -⟩ := h.file.round sys w.src
  obtain ⟨hgoes, hholds⟩ := MmapFile.Holds.round (fun hok => (hbs hok).1) h.file hround
  have hopen' : t.isOpen = true := hgoes.isOpen.trans hopen
  have hclosed : ∀ {p : Prop}, t.isOpen = false → p := fun hc => absurd (hopen'.symm.trans hc) Bool.noConfusion
  rw [hround] at hstep
  cases ok with
  | false =>
      obtain rfl := Option.some.inj hstep
      exact ⟨ht, fun hc => hclosed hc, fun hok => (by cases (hgoes.failed hok).2), fun _ hc => hclosed hc⟩
  | true =>
      obtain rfl := Option.some.inj hstep
      refine ⟨ht, fun hc => hclosed hc, ?_, fun _ hc => hclosed hc⟩
      intro hok _
      obtain ⟨bs', hbs', heq⟩ := hholds hok
      exact ⟨bs', hbs', heq.trans (hbs (hgoes.failed hok).1).2⟩

/-- So does a call of `Append`. -/
theorem Writer.Sound.append (h : w.Sound k) {data : List UInt8} (hstep : w.step sys (.append data) = some w') :
    w'.Sound k := by
  obtain ⟨⟨hsrc, hopen⟩, hstep⟩ := Option.ite_none_right_eq_some.mp hstep
  obtain rfl := Option.some.inj hstep
  have hclosed : ∀ {p : Prop}, w.file.isOpen = false → p := fun hc => absurd (hopen.symm.trans hc) Bool.noConfusion
  refine ⟨h.file, fun hc => hclosed hc, ?_, fun _ hc => hclosed hc⟩
  intro hok _
  obtain ⟨bs, hbs, heq⟩ := h.holds hok hopen
  rw [hsrc, List.append_nil] at heq
  exact ⟨bs, hbs, by rw [heq]⟩

/-- So does `Sync`. -/
theorem Writer.Sound.sync (h : w.Sound k) (hstep : w.step sys .sync = some w') : w'.Sound k := by
  obtain ⟨⟨hsrc, hopen⟩, hstep⟩ := Option.ite_none_right_eq_some.mp hstep
  obtain ⟨ok, p, l, c, f, hsync, hf⟩ := sync_eq sys h.file
  rw [hsync] at hstep
  obtain rfl := Option.some.inj hstep
  have hfile := h.file
  refine ⟨⟨hfile.page, hfile.map_pos, hfile.map_dvd, hfile.null, hfile.base_le, hfile.dst_le, hfile.region_dvd,
    hfile.offset, hfile.unmapped_dvd⟩, h.idle, ?_, ?_⟩
  · intro hok hc
    obtain ⟨bs, hbs, heq⟩ := h.holds (hf hok) hc
    exact ⟨bs, ⟨hbs.size, hbs.contents⟩, heq⟩
  · intro hok hc
    exact h.closed (hf hok) hc

/-- So does `Close`. -/
theorem Writer.Sound.close (h : w.Sound k) (hstep : w.step sys .close = some w') : w'.Sound k := by
  obtain ⟨⟨hsrc, hopen⟩, hstep⟩ := Option.ite_none_right_eq_some.mp hstep
  obtain rfl := Option.some.inj hstep
  refine ⟨h.file.close, fun _ => hsrc, fun _ hc => absurd hc Bool.noConfusion, ?_⟩
  intro hok _
  obtain ⟨bs, hbs, heq⟩ := h.holds (close_failed hok) hopen
  rw [hsrc, List.append_nil] at heq
  exact (hbs.close h.file hok).trans heq

/-- **All writers that are reached are sound.** -/
theorem Writer.Reached.sound (h : w.Reached sys (2 ^ k)) : w.Sound k := by
  apply Lib.Machine.Reached.invariant ?_ ?_ h
  · rintro w rfl
    exact ⟨new_sound k, fun _ => rfl, fun _ _ => ⟨[], new_holds _, rfl⟩, fun _ hc => absurd hc Bool.noConfusion⟩
  · intro w act w' hw _ hstep
    cases act with
    | append data => exact hw.append hstep
    | round => exact hw.round hstep
    | sync => exact hw.sync hstep
    | close => exact hw.close hstep

/-- **`Append` is a run of its rounds**, at the end of which nothing is left of the string. -/
theorem append_run {rounds : ℕ} {src : List UInt8} {ok : Bool} {t : MmapFile}
    (happend : s.append sys rounds src = some (ok, t)) (appended : List UInt8) :
    ∃ n ≤ rounds, (List.replicate n Action.round).foldlM (Writer.step sys) ⟨s, src, appended⟩ =
      some ⟨t, [], appended⟩ := by
  induction rounds generalizing s src with
  | zero =>
      cases src with
      | nil =>
          obtain ⟨-, rfl⟩ := Prod.mk.inj (Option.some.inj happend)
          exact ⟨0, Nat.le_refl 0, rfl⟩
      | cons b src => cases happend
  | succ rounds ih =>
      cases src with
      | nil =>
          obtain ⟨-, rfl⟩ := Prod.mk.inj (Option.some.inj happend)
          exact ⟨0, Nat.zero_le _, rfl⟩
      | cons b src =>
          rw [MmapFile.append] at happend
          cases hround : s.appendRound sys (b :: src) with
          | none =>
              rw [hround] at happend
              cases happend
          | some r =>
              obtain ⟨ok', s', src'⟩ := r
              rw [hround] at happend
              cases ok' with
              | false =>
                  obtain ⟨-, rfl⟩ := Prod.mk.inj (Option.some.inj happend)
                  refine ⟨1, by omega, ?_⟩
                  simp [Writer.step, hround]
              | true =>
                  obtain ⟨n, hn, hrun⟩ := ih happend
                  refine ⟨n + 1, by omega, ?_⟩
                  rw [List.replicate_succ, List.foldlM_cons, ← hrun]
                  simp [Writer.step, hround]

/-- **What is appended is in the file** after `Close`, if no call of the system has failed; and at all points
the pointers are in order, the offset is that of the regions in front, and `Append` returns. Where it is
called it is a run of its rounds, and leaves the string behind what was appended before. -/
theorem writer_contents (h : w.Reached sys (2 ^ k)) (hok : w.file.failed = false) :
    (w.file.base_ ≤ w.file.dst_ ∧ w.file.dst_ ≤ w.file.limit_) ∧
    (w.file.file_offset_ = w.file.unmapped.sum ∧ 2 ^ k ∣ w.file.file_offset_) ∧
    (∀ data : List UInt8, ∀ rounds, 2 * data.length ≤ rounds →
      ∃ ok t, w.file.append sys rounds data = some (ok, t) ∧
        (w.src = [] → w.file.isOpen = true →
          (∃ n ≤ rounds, (.append data :: List.replicate n .round).foldlM (Writer.step sys) w =
            some ⟨t, [], w.appended ++ data⟩) ∧
          (t.failed = false → ok = true ∧ t.isOpen = true ∧ t.Holds (w.appended ++ data)))) ∧
    (w.file.isOpen = false → w.file.file.contents = w.appended) := by
  have hsound := h.sound
  refine ⟨⟨hsound.file.base_le, hsound.file.dst_le⟩, ⟨hsound.file.offset, hsound.file.offset_dvd⟩, ?_,
    hsound.closed hok⟩
  intro data rounds hrounds
  have hreturns : ∃ r, w.file.append sys rounds data = some r :=
    append_returns hsound.file ((Nat.sub_le _ _).trans hrounds)
  obtain ⟨⟨ok, t⟩, happend⟩ := hreturns
  refine ⟨ok, t, happend, fun hsrc hopen => ⟨?_, fun hfailed => ?_⟩⟩
  · obtain ⟨n, hn, hrun⟩ := append_run happend (w.appended ++ data)
    refine ⟨n, hn, ?_⟩
    have hstep : w.step sys (.append data) = some ⟨w.file, data, w.appended ++ data⟩ :=
      if_pos ⟨hsrc, hopen⟩
    rw [List.foldlM_cons, hstep]
    exact hrun
  · obtain ⟨bs, hbs, heq⟩ := hsound.holds hok hopen
    rw [hsrc, List.append_nil] at heq
    obtain ⟨hgoes, hholds⟩ := append_spec hsound.file (fun _ => hbs) happend
    exact ⟨(hgoes.failed hfailed).2, hgoes.isOpen.trans hopen, heq ▸ hholds hfailed⟩

/-- Two strings, with pages of 4096 bytes. -/
theorem writer_contents_two : ∃ (sys : System) (w : Writer), w.Reached sys (2 ^ 12) ∧
    w.file.isOpen = false ∧ w.file.file.contents = [97, 98, 99] := by
  let sys : System := ⟨fun _ => true, fun _ => 1, fun _ => Nat.one_pos⟩
  let acts : List Action := [.append [97, 98], .round, .round, .sync, .append [99], .round, .close]
  have hrun : (acts.foldlM (fun w act => if True then Writer.step sys w act else none)
      ⟨.new (2 ^ 12), [], []⟩).map (fun w => (w.file.failed, w.file.isOpen, w.appended)) =
      some (false, false, [97, 98, 99]) := by decide +kernel
  obtain ⟨w, hw, hstate⟩ := Option.map_eq_some_iff.mp hrun
  obtain ⟨hfailed, hopen, happended⟩ : w.file.failed = false ∧ w.file.isOpen = false ∧
      w.appended = [97, 98, 99] := by simpa using hstate
  have hreached : w.Reached sys (2 ^ 12) := Reached.run (.start _ rfl) acts hw
  exact ⟨sys, w, hreached, hopen, ((writer_contents hreached hfailed).2.2.2 hopen).trans happended⟩

end Asenal.Tmp
