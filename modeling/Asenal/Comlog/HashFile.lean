import Asenal.Comlog.FiniteMap
import Asenal.Lib.Records
import Asenal.Lib.Words

/-!
# The file of a hash table

`savedata` writes the entries of a table to a file, in batches of 4096, behind the sizes of a key and of a
value; `loaddata` reads batches of this size and sets what it read. The number of bytes that `read`
returned is divided by the size of a record as a `size_t` is, also if it is -1.

* `HashMap.savedata`, `HashMap.loaddata` — the two functions.
* `loaddata_reads_iff` — when exactly the records that are set are those that were read, and a read that
  fails makes the function fail; `loaddata_readFails` — a read that fails.
-/

namespace Asenal.Comlog

open Asenal.Lib.Memory Asenal.Lib.Records Asenal.Lib.Words

/-! ## Records -/

/-- How a key and a value stand in memory, in the record of both.
Source: `xhash.h` `buffer_node`. -/
structure NodeLayout (K V : Type) where
  sizeKey : UInt32
  sizeVal : UInt32
  size : ℕ
  bytes : K × V → List UInt8
  ofBytes : List UInt8 → K × V
  size_pos : 0 < size
  length_bytes : ∀ e, (bytes e).length = size
  ofBytes_bytes : ∀ e, ofBytes (bytes e) = e

/-- `BUFFER_SIZE`. -/
def bufferSize : ℕ := 4096

/-- A number in an `int`. -/
def intOf (n : ℤ) : ℤ := n.bmod (2 ^ 32)

variable {K V : Type}

/-! ## Writing -/

/-- The nodes of a chain. -/
def chainFrom (node : NodeAddr → HashNode K V) : ℕ → Option NodeAddr → Option (List NodeAddr)
  | _, none => some []
  | 0, some _ => none
  | fuel + 1, some ptr => (chainFrom node fuel (node ptr).next).map (ptr :: ·)

/-- The nodes of the buckets, one chain behind the other. -/
def HashMap.nodes (t : HashMap K V) (fuel : ℕ) : Option (List NodeAddr) :=
  ((List.range t.bucketNum.toInt.toNat).mapM fun i => chainFrom t.node fuel (t.bucket (UInt32.ofNat i))).map
    List.flatten

/-- Write the buffer; `none` if what `write` returns, all the bytes, is not their number as an `int`.
Source: `xhash.h` `hash_map::savedata`, the calls of `write` for the buffer. -/
def NodeLayout.write (L : NodeLayout K V) (file : List UInt8) (buffer : List (K × V)) : Option (List UInt8) :=
  if ((L.size * buffer.length : ℕ) : ℤ) = intOf (L.size * buffer.length : ℕ) then
    some (file ++ buffer.flatMap L.bytes)
  else none

/-- One entry is put into the buffer, and a full buffer is written. -/
def NodeLayout.put (L : NodeLayout K V) (s : List UInt8 × List (K × V)) (e : K × V) :
    Option (List UInt8 × List (K × V)) :=
  let buffer := s.2 ++ [e]
  if buffer.length = bufferSize then (L.write s.1 buffer).map fun file => (file, []) else some (s.1, buffer)

/-- What is written of some entries, behind what is in the buffer. -/
def NodeLayout.putAll (L : NodeLayout K V) (s : List UInt8 × List (K × V)) (es : List (K × V)) :
    Option (List UInt8) :=
  (es.foldlM L.put s).bind fun s => if s.2 = [] then some s.1 else L.write s.1 s.2

/-- The file, if it is written; the inner `none` stands for -1.
Source: `xhash.h` `hash_map::savedata`. -/
def HashMap.savedata (L : NodeLayout K V) (t : HashMap K V) (fuel : ℕ) : Option (Option (List UInt8)) :=
  (t.nodes fuel).map fun ps =>
    L.putAll (wordBytes L.sizeKey ++ wordBytes L.sizeVal, []) (ps.map fun p => (t.key p, t.value p))

/-! ## Reading -/

/-- What `read` answers when `n` bytes are asked for: some bytes, or a failure. -/
inductive ReadAnswer (n : ℕ)
  | bytes (bs : List UInt8) (le : bs.length ≤ n)
  | fail

/-- What `read` returns. -/
def ReadAnswer.count {n : ℕ} : ReadAnswer n → ℤ
  | .bytes bs _ => bs.length
  | .fail => -1

/-- The answers to the calls of `loaddata`, which asks for `n` bytes of data each time; behind the data the
file is at its end. -/
structure Reads (n : ℕ) where
  sizekey : ReadAnswer 4
  sizeval : ReadAnswer 4
  data : List (ReadAnswer n)

/-- The number of bytes of a batch. -/
def NodeLayout.batch (L : NodeLayout K V) : ℕ := L.size * bufferSize

/-- `bufcount = read(...); bufcount /= sizeof(buffer_node);`, where the second line divides as `size_t`. -/
def bufcount (size : ℕ) (count : ℤ) : ℤ := intOf ((intOf count % 2 ^ 64).toNat / size : ℕ)

/-- The bytes that were read stand in the buffer. -/
def fillBuffer {n : ℕ} (buffer : Mem UInt8) : ReadAnswer n → Mem UInt8
  | .bytes bs _ => poke buffer 0 bs
  | .fail => buffer

/-- What one call of `read` answered, and the number of records that are set then. -/
structure Batch (n : ℕ) where
  answer : ReadAnswer n
  bufcount : ℤ

variable [DecidableEq K]

/-- Entries are set, with memory left. -/
def HashMap.setAll (t : HashMap K V) (fuel : ℕ) (flag : ℤ) (es : List (K × V)) : Option (HashMap K V) :=
  es.foldlM (fun t e => (t.set fuel true e.1 e.2 flag).map (·.2)) t

/-- The batches that are read, and the table behind them. The buffer goes on behind its last record.
Source: `xhash.h` `hash_map::loaddata`, the loop. -/
def HashMap.loadBatches (L : NodeLayout K V) (fuel : ℕ) (flag : ℤ) :
    List (ReadAnswer L.batch) → Mem UInt8 → HashMap K V →
      Option (HashMap K V × List (Batch L.batch))
  | [], _, t => some (t, [])
  | answer :: answers, buffer, t =>
      let n := bufcount L.size answer.count
      let buffer := fillBuffer buffer answer
      if n ≤ 0 then some (t, [⟨answer, n⟩])
      else
        (t.setAll fuel flag (records L.ofBytes L.size buffer 0 n.toNat)).bind fun t =>
          if n < bufferSize then some (t, [⟨answer, n⟩])
          else
            (loadBatches L fuel flag answers buffer t).map fun r => (r.1, ⟨answer, n⟩ :: r.2)

/-- What `loaddata` returns, the table behind it, and the batches it read. -/
structure Loaded (K V : Type) (n : ℕ) where
  ret : ℤ
  table : HashMap K V
  batches : List (Batch n)

/-- Four bytes were read, and they are the size. -/
def sizeRead (size : UInt32) : ReadAnswer 4 → Bool
  | .bytes bs _ => bs = wordBytes size
  | .fail => false

/-- Source: `xhash.h` `hash_map::loaddata`. -/
def HashMap.loaddata (L : NodeLayout K V) (t : HashMap K V) (fuel : ℕ) (reads : Reads L.batch)
    (buffer : Mem UInt8) (flag : ℤ) : Option (Loaded K V L.batch) :=
  if sizeRead L.sizeKey reads.sizekey && sizeRead L.sizeVal reads.sizeval then
    (t.loadBatches L fuel flag reads.data buffer).map fun r => ⟨0, r.1, r.2⟩
  else some ⟨-1, t, []⟩

/-- The records of `size` bytes that are set lie within the bytes that were read, and -1 is returned when a
read fails. -/
structure Loaded.Right {n : ℕ} (r : Loaded K V n) (size : ℕ) (reads : Reads n) : Prop where
  within : ∀ b ∈ r.batches, ∀ i : ℕ, (i : ℤ) < b.bufcount → ((i + 1) * size : ℕ) ≤ b.answer.count
  failed : (reads.sizekey = .fail ∨ reads.sizeval = .fail ∨ ∃ b ∈ r.batches, b.answer = .fail) → r.ret = -1

/-! ## Tables that a program made -/

/-- A table that some calls made of a new one, and the map it is meant to be. -/
def HashMap.Made (t : HashMap K V) (m : Finmap fun _ : K => V) : Prop :=
  ∃ threadSafe junk blockNext hn fcn ops t₀ bound,
    HashMap.create threadSafe junk blockNext hn fcn = some t₀ ∧ (mapRun ∅ ops).2 = m ∧
      ∀ fuel, bound ≤ fuel → ∃ answers, t₀.run fuel ops = some (answers, t)

variable {t s : HashMap K V} {m : Finmap fun _ : K => V} {L : NodeLayout K V} {flag : ℤ}

theorem HashMap.Made.holds (h : t.Made m) : Holds t m := by
  obtain ⟨threadSafe, junk, blockNext, hn, fcn, ops, t₀, bound, hcreate, rfl, hrun⟩ := h
  have hpos : 0 < hn := by
    rw [HashMap.create] at hcreate
    split_ifs at hcreate with hle
    exact Int32.not_le.mp hle
  obtain ⟨t₁, hcreate₁, ht₁⟩ := create_spec threadSafe junk blockNext hpos fcn
  obtain rfl := Option.some.inj (hcreate.symm.trans hcreate₁)
  obtain ⟨s, hs, bound', hrun'⟩ := run_spec ht₁ ops
  obtain ⟨answers, hanswers⟩ := hrun (max bound bound') (le_max_left _ _)
  rw [hrun' _ (le_max_right _ _)] at hanswers
  obtain ⟨-, rfl⟩ := Prod.mk.inj (Option.some.inj hanswers)
  exact hs

/-- What setting entries is meant to do to the map. -/
def mapSetAll (m : Finmap fun _ : K => V) (flag : ℤ) (es : List (K × V)) : Finmap fun _ : K => V :=
  es.foldl (fun m e => (mapSet m e.1 e.2 flag).2) m

/-- **Entries are set**, if it may take enough steps. -/
theorem setAll_spec (h : Holds t m) (flag : ℤ) (es : List (K × V)) :
    ∃ s, Holds s (mapSetAll m flag es) ∧ ∃ bound, ∀ fuel, bound ≤ fuel →
      t.setAll fuel flag es = some s := by
  induction es generalizing t m with
  | nil => exact ⟨t, h, 0, fun _ _ => rfl⟩
  | cons e es ih =>
      obtain ⟨u, hu, boundSet, hset⟩ := set_spec h e.1 e.2 flag
      obtain ⟨s, hs, boundRest, hrest⟩ := ih hu
      refine ⟨s, hs, max boundSet boundRest, fun fuel hfuel => ?_⟩
      rw [HashMap.setAll, List.foldlM_cons, hset fuel (le_of_max_le_left hfuel)]
      exact hrest fuel (le_of_max_le_right hfuel)

/-! ## Records and bytes -/

/-- The batch of a read that does not fail holds all its records: the quotient, which is cut to an `int`, is
not too large. For fewer than `2 ^ 31` bytes it never is. -/
def ReadAnswer.Counts {n : ℕ} (size : ℕ) : ReadAnswer n → Prop
  | .fail => False
  | .bytes bs _ =>
      bs.length % 2 ^ 32 < 2 ^ 31 ∨
        (2 ^ 64 - 2 ^ 32 + bs.length % 2 ^ 32) / size % 2 ^ 32 ≤ bs.length / size ∨
          2 ^ 31 ≤ (2 ^ 64 - 2 ^ 32 + bs.length % 2 ^ 32) / size % 2 ^ 32

theorem intOf_of_lt {n : ℕ} (h : n % 2 ^ 32 < 2 ^ 31) : intOf n = (n % 2 ^ 32 : ℕ) := by
  rw [intOf, Int.bmod_def]
  omega

theorem intOf_of_ge {n : ℕ} (h : 2 ^ 31 ≤ n % 2 ^ 32) : intOf n = (n % 2 ^ 32 : ℕ) - 2 ^ 32 := by
  rw [intOf, Int.bmod_def]
  omega

/-- The number of records, if the number of bytes is not negative as an `int`. -/
theorem bufcount_of_lt (size : ℕ) {n : ℕ} (h : n % 2 ^ 32 < 2 ^ 31) :
    bufcount size n = (n % 2 ^ 32 / size : ℕ) := by
  have hquot : n % 2 ^ 32 / size < 2 ^ 31 := Nat.lt_of_le_of_lt (Nat.div_le_self _ _) h
  rw [bufcount, intOf_of_lt h, Int.emod_eq_of_lt (by omega) (by omega), Int.toNat_natCast]
  generalize n % 2 ^ 32 / size = q at hquot
  rw [intOf_of_lt (by omega), Nat.mod_eq_of_lt (by omega)]

/-- The number of records, if the number of bytes is negative as an `int`. -/
theorem bufcount_of_ge (size : ℕ) {n : ℕ} (h : 2 ^ 31 ≤ n % 2 ^ 32) :
    bufcount size n = intOf ((2 ^ 64 - 2 ^ 32 + n % 2 ^ 32) / size : ℕ) := by
  have hnat : (intOf n % 2 ^ 64).toNat = 2 ^ 64 - 2 ^ 32 + n % 2 ^ 32 := by
    rw [intOf_of_ge h]
    omega
  rw [bufcount, hnat]

/-- The records lie within `n` bytes exactly when there are no more than fit. -/
theorem within_iff {size : ℕ} (hsize : 0 < size) (c n : ℕ) :
    (∀ i < c, (i + 1) * size ≤ n) ↔ c ≤ n / size := by
  constructor
  · intro h
    cases c with
    | zero => exact Nat.zero_le _
    | succ c => exact (Nat.le_div_iff_mul_le hsize).mpr (h c (Nat.lt_succ_self c))
  · intro h i hi
    exact (Nat.le_div_iff_mul_le hsize).mp (Nat.le_trans hi h)

/-- **One read**: it does not fail, and the records that are set lie within its bytes. -/
theorem counts_iff {size n : ℕ} (hsize : 0 < size) (a : ReadAnswer n) :
    ((∀ i : ℕ, (i : ℤ) < bufcount size a.count → ((i + 1) * size : ℕ) ≤ a.count) ∧ a ≠ .fail) ↔
      a.Counts size := by
  cases a with
  | fail => exact iff_of_false (fun h => h.2 rfl) id
  | bytes bs le =>
      rw [and_iff_left (by simp)]
      unfold ReadAnswer.Counts ReadAnswer.count
      dsimp only
      simp only [Int.ofNat_le]
      generalize bs.length = len
      rcases Nat.lt_or_ge (len % 2 ^ 32) (2 ^ 31) with hlt | hge
      · refine iff_of_true ?_ (Or.inl hlt)
        rw [bufcount_of_lt size hlt]
        intro i hi
        have hfits := (within_iff hsize (len % 2 ^ 32 / size) (len % 2 ^ 32)).mpr (Nat.le_refl _) i
          (by exact_mod_cast hi)
        exact Nat.le_trans hfits (Nat.mod_le _ _)
      · rw [bufcount_of_ge size hge]
        generalize (2 ^ 64 - 2 ^ 32 + len % 2 ^ 32) / size = q
        rw [or_iff_right (by omega), ← within_iff hsize]
        rcases Nat.lt_or_ge (q % 2 ^ 32) (2 ^ 31) with hq | hq
        · rw [intOf_of_lt hq, or_iff_left (by omega)]
          simp only [Int.ofNat_lt]
        · refine iff_of_true (fun i hi => ?_) (Or.inr hq)
          rw [intOf_of_ge hq] at hi
          omega

/-! ## The batches -/

/-- The reads of the data that are made: up to the first one with fewer than `bufferSize` records. -/
def readsMade (size : ℕ) {n : ℕ} : List (ReadAnswer n) → List (ReadAnswer n)
  | [] => []
  | answer :: answers =>
      answer :: if bufcount size answer.count < bufferSize then [] else readsMade size answers

/-- **The loop** comes to its end, and each batch has the number of records that its read says. -/
theorem loadBatches_spec (L : NodeLayout K V) (h : Holds t m) (flag : ℤ) (answers : List (ReadAnswer L.batch))
    (buffer : Mem UInt8) :
    ∃ s bound, ∀ fuel, bound ≤ fuel → t.loadBatches L fuel flag answers buffer =
      some (s, (readsMade L.size answers).map fun a => ⟨a, bufcount L.size a.count⟩) := by
  induction answers generalizing t m buffer with
  | nil => exact ⟨t, 0, fun _ _ => rfl⟩
  | cons answer answers ih =>
      rw [readsMade]
      by_cases hnone : bufcount L.size answer.count ≤ 0
      · have hbuffer : (0 : ℤ) < bufferSize := by decide
        refine ⟨t, 0, fun fuel _ => ?_⟩
        rw [HashMap.loadBatches, if_pos hnone, if_pos (Int.lt_of_le_of_lt hnone hbuffer)]
        rfl
      · obtain ⟨s, hs, boundSet, hset⟩ := setAll_spec h flag
          (records L.ofBytes L.size (fillBuffer buffer answer) 0 (bufcount L.size answer.count).toNat)
        by_cases hshort : bufcount L.size answer.count < bufferSize
        · refine ⟨s, boundSet, fun fuel hfuel => ?_⟩
          rw [HashMap.loadBatches, if_neg hnone, hset fuel hfuel, Option.bind_some, if_pos hshort, if_pos hshort]
          rfl
        · obtain ⟨u, boundRest, hrest⟩ := ih hs (fillBuffer buffer answer)
          refine ⟨u, max boundSet boundRest, fun fuel hfuel => ?_⟩
          rw [HashMap.loadBatches, if_neg hnone, hset fuel (le_of_max_le_left hfuel), Option.bind_some,
            if_neg hshort, hrest fuel (le_of_max_le_right hfuel), if_neg hshort]
          rfl

/-- A size that was read was read without a failure. -/
theorem sizeRead_ne_fail {size : UInt32} {a : ReadAnswer 4} (h : sizeRead size a = true) : a ≠ .fail := by
  rintro rfl
  exact Bool.false_ne_true h

omit [DecidableEq K] in
/-- What 0 says about the reads of the data, when the sizes were read. -/
theorem right_iff {n size : ℕ} {reads : Reads n} (hsize : 0 < size) (hkey : reads.sizekey ≠ .fail)
    (hval : reads.sizeval ≠ .fail) (t : HashMap K V) (answers : List (ReadAnswer n)) :
    Loaded.Right ⟨0, t, answers.map fun a => ⟨a, bufcount size a.count⟩⟩ size reads ↔
      ∀ a ∈ answers, a.Counts size := by
  refine ⟨fun hright a ha => (counts_iff hsize a).mp ⟨?_, ?_⟩, fun hall => ⟨?_, ?_⟩⟩
  · have hwithin := hright.within ⟨a, bufcount size a.count⟩ (List.mem_map.mpr ⟨a, ha, rfl⟩)
    dsimp only at hwithin
    exact hwithin
  · intro hfail
    have hne : (0 : ℤ) ≠ -1 := by decide
    exact hne (hright.failed (Or.inr (Or.inr
      ⟨⟨a, bufcount size a.count⟩, List.mem_map.mpr ⟨a, ha, rfl⟩, hfail⟩)))
  · intro b hb
    obtain ⟨a, ha, rfl⟩ := List.mem_map.mp hb
    have hwithin := ((counts_iff hsize a).mpr (hall a ha)).1
    dsimp only
    exact hwithin
  · rintro (hfail | hfail | ⟨b, hb, hfail⟩)
    · exact absurd hfail hkey
    · exact absurd hfail hval
    · obtain ⟨a, ha, rfl⟩ := List.mem_map.mp hb
      exact absurd hfail ((counts_iff hsize a).mpr (hall a ha)).2

/-- **Reads of every kind**: the records that are set are those that were read, and -1 is returned when a
read fails, exactly when the sizes do not match, or no read of the data that is made fails and none returns so
many bytes that their number is wrapped to too many records. -/
theorem loaddata_reads_iff (L : NodeLayout K V) (h : t.Made m) (reads : Reads L.batch) (buffer : Mem UInt8)
    (flag : ℤ) :
    ∃ r, (∃ bound, ∀ fuel, bound ≤ fuel → t.loaddata L fuel reads buffer flag = some r) ∧
      (r.Right L.size reads ↔
        ((sizeRead L.sizeKey reads.sizekey && sizeRead L.sizeVal reads.sizeval) = true →
          ∀ a ∈ readsMade L.size reads.data, a.Counts L.size)) := by
  by_cases hheader : (sizeRead L.sizeKey reads.sizekey && sizeRead L.sizeVal reads.sizeval) = true
  · obtain ⟨s, bound, hload⟩ := loadBatches_spec L h.holds flag reads.data buffer
    refine ⟨⟨0, s, (readsMade L.size reads.data).map fun a => ⟨a, bufcount L.size a.count⟩⟩,
      ⟨bound, fun fuel hfuel => ?_⟩, ?_⟩
    · rw [HashMap.loaddata, if_pos hheader, hload fuel hfuel]
      rfl
    · rw [forall_prop_of_true hheader]
      rw [Bool.and_eq_true] at hheader
      exact right_iff L.size_pos (sizeRead_ne_fail hheader.1) (sizeRead_ne_fail hheader.2) s _
  · refine ⟨⟨-1, t, []⟩, ⟨0, fun fuel _ => ?_⟩, ?_⟩
    · rw [HashMap.loaddata, if_neg hheader]
    · refine iff_of_true ⟨?_, fun _ => rfl⟩ fun hpos => absurd hpos hheader
      exact fun b hb => absurd hb List.not_mem_nil

/-- Keys and values of four bytes. -/
def wordLayout : NodeLayout UInt32 UInt32 where
  sizeKey := 4
  sizeVal := 4
  size := 8
  bytes e := wordBytes e.1 ++ wordBytes e.2
  ofBytes bs :=
    match readWord bs with
    | some (key, rest) => (key, ((readWord rest).map Prod.fst).getD 0)
    | none => (0, 0)
  size_pos := by decide
  length_bytes e := rfl
  ofBytes_bytes e := by
    have hval := readWord_wordBytes e.2 []
    rw [List.append_nil] at hval
    rw [readWord_wordBytes]
    dsimp only
    rw [hval]
    rfl

/-- The sizes are those of `wordLayout`. -/
def wordReads (data : List (ReadAnswer wordLayout.batch)) : Reads wordLayout.batch :=
  ⟨.bytes (wordBytes 4) (by decide), .bytes (wordBytes 4) (by decide), data⟩

theorem loaddata_wordReads (t : HashMap UInt32 UInt32) (fuel : ℕ)
    (data : List (ReadAnswer wordLayout.batch)) (buffer : Mem UInt8) (flag : ℤ) :
    t.loaddata wordLayout fuel (wordReads data) buffer flag =
      (t.loadBatches wordLayout fuel flag data buffer).map fun r => ⟨0, r.1, r.2⟩ :=
  if_pos rfl

/-- One record is read and set. -/
theorem loaddata_reads_one : ∃ (t : HashMap UInt32 UInt32) (r : Loaded UInt32 UInt32 wordLayout.batch)
    (bound : ℕ) (h : (wordLayout.bytes (7, 9)).length ≤ wordLayout.batch),
    HashMap.create false (fun _ => ⟨0, 0, none⟩) (fun _ => none) 2 id = some t ∧
      (∀ fuel, bound ≤ fuel → t.loaddata wordLayout fuel
        (wordReads [.bytes (wordLayout.bytes (7, 9)) h]) (fun _ => 0) 0 = some r) ∧
      r.Right 8 (wordReads [.bytes (wordLayout.bytes (7, 9)) h]) := by
  have hle : (wordLayout.bytes (7, 9)).length ≤ wordLayout.batch := by decide
  have hmade : ∀ t : HashMap UInt32 UInt32,
      HashMap.create false (fun _ => ⟨0, 0, none⟩) (fun _ => none) 2 id = some t → t.Made ∅ := by
    intro t ht
    exact ⟨_, _, _, _, _, [], t, 0, ht, rfl, fun fuel _ => ⟨[], rfl⟩⟩
  obtain ⟨r, ⟨bound, hload⟩, hright⟩ := loaddata_reads_iff wordLayout (hmade _ rfl)
    (wordReads [.bytes (wordLayout.bytes (7, 9)) hle]) (fun _ => 0) 0
  have hone : bufcount wordLayout.size (ReadAnswer.bytes (wordLayout.bytes (7, 9)) hle).count = 1 := by
    show bufcount 8 8 = 1
    decide
  refine ⟨_, r, bound, hle, rfl, hload, hright.mpr fun _ a ha => ?_⟩
  have hmade : readsMade wordLayout.size [ReadAnswer.bytes (wordLayout.bytes (7, 9)) hle] =
      [ReadAnswer.bytes (wordLayout.bytes (7, 9)) hle] := by
    rw [readsMade, hone, if_pos (by decide)]
  have hmem : a ∈ readsMade wordLayout.size [ReadAnswer.bytes (wordLayout.bytes (7, 9)) hle] := ha
  rw [hmade] at hmem
  rw [List.mem_singleton.mp hmem]
  exact Or.inl (by decide)

/-- A read of the data fails, and 0 is returned. If a record has 12 bytes, records that were never read are
set, too. -/
theorem loaddata_readFails :
    (∀ (t : HashMap UInt32 UInt32) (fuel : ℕ) (buffer : Mem UInt8) (flag : ℤ),
      ∃ r, t.loaddata wordLayout fuel (wordReads [.fail]) buffer flag = some r ∧ r.ret = 0 ∧
        ¬ r.Right 8 (wordReads [.fail])) ∧
      bufcount 12 (-1) = 1431655765 := by
  refine ⟨fun t fuel buffer flag => ⟨⟨0, t, [⟨.fail, bufcount 8 (-1)⟩]⟩, ?_, rfl, fun hright => ?_⟩,
    by decide⟩
  · rw [loaddata_wordReads, HashMap.loadBatches, if_pos (by decide)]
    rfl
  · have hne : (0 : ℤ) ≠ -1 := by decide
    exact hne (hright.failed (Or.inr (Or.inr ⟨_, List.mem_singleton_self _, rfl⟩)))

end Asenal.Comlog
