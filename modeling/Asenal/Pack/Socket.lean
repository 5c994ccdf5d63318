import Asenal.Pack.Package

/-!
# The two ends of a connection

What the package functions do with a socket. The receiving end delivers its bytes in segments of
arbitrary sizes and then ends, or breaks (an error or a time-out of the calls that follow); the
sending end takes bytes in portions of arbitrary sizes. Interrupted calls are repeated by the
source and do not show.

* `readall_spec` — `ul_pack_readallo_ms` depends on the stream only, not on its segments: it
  reads as much as is asked for and available.
* `writeall_spec` — on an error-free socket `ul_pack_writeallo_ms` sends everything.
-/

namespace Asenal.Pack

open Asenal.Lib.Text Asenal.Lib.Memory Asenal.Lib.CString

/-- `BUF_START`: what a size line begins with. Source: `ul_pack.cpp`. -/
abbrev bufStart : Bytes := [126, 66, 85, 70, 33, 32]

/-- `BUF_EOF`: what stands behind the body. Source: `ul_pack.cpp`. -/
abbrev bufEof : Bytes := [126, 69, 79, 70, 33]

/-! ## The receiving end -/

/-- The receiving end of a connection: the segments still to come, none of them empty, and
whether the connection breaks behind them. -/
structure Sock where
  segs : List Bytes
  segs_ne : [] ∉ segs
  broken : Bool

/-- The bytes still to come. -/
def Sock.stream (s : Sock) : Bytes := s.segs.flatten

/-- Put unread bytes back in front. -/
def Sock.unread (bs : Bytes) (s : Sock) : Sock :=
  if h : bs = [] then s
  else ⟨bs :: s.segs, by simpa using ⟨h, s.segs_ne⟩, s.broken⟩

/-- Read at most `nbytes` bytes: `none` is an error, and no bytes are the end of the file.
Source: `ul_net1.cpp` `ul_reado_ms`. -/
def Sock.read (nbytes : ℕ) : Sock → Option (Bytes × Sock)
  | ⟨[], _, true⟩ => none
  | ⟨[], h, false⟩ => some ([], ⟨[], h, false⟩)
  | ⟨seg :: segs, h, b⟩ =>
      some (seg.take nbytes,
        Sock.unread (seg.drop nbytes) ⟨segs, fun hm => h (List.mem_cons_of_mem _ hm), b⟩)

/-- A socket that delivers a text at once, and then ends. -/
def Sock.ofBytes (bs : Bytes) : Sock := Sock.unread bs ⟨[], List.not_mem_nil, false⟩

/-- Bytes that were put back come first. -/
@[simp] theorem Sock.stream_unread (bs : Bytes) (s : Sock) :
    (Sock.unread bs s).stream = bs ++ s.stream := by
  unfold Sock.unread
  split_ifs with h
  · rw [h, List.nil_append]
  · rfl

/-- Putting bytes back does not mend the connection. -/
@[simp] theorem Sock.broken_unread (bs : Bytes) (s : Sock) :
    (Sock.unread bs s).broken = s.broken := by
  unfold Sock.unread
  split_ifs <;> rfl

/-- The stream of a text. -/
@[simp] theorem Sock.stream_ofBytes (bs : Bytes) : (Sock.ofBytes bs).stream = bs := by
  rw [Sock.ofBytes, Sock.stream_unread]
  exact List.append_nil bs

/-- What one read does: it fails or finds the end on an empty stream, and else takes some bytes
off the stream. -/
theorem Sock.read_cases (s : Sock) {n : ℕ} (hn : 0 < n) :
    (s.stream = [] ∧ s.broken = true ∧ s.read n = none) ∨
      (s.stream = [] ∧ s.broken = false ∧ s.read n = some ([], s)) ∨
      ∃ b bs s', s.read n = some (b :: bs, s') ∧ s.stream = b :: bs ++ s'.stream ∧
        s'.broken = s.broken ∧ bs.length < n := by
  obtain ⟨segs, hne, broken⟩ := s
  cases segs with
  | nil =>
      cases broken with
      | true => exact Or.inl ⟨rfl, rfl, rfl⟩
      | false => exact Or.inr (Or.inl ⟨rfl, rfl, rfl⟩)
  | cons seg segs =>
      refine Or.inr (Or.inr ?_)
      have hseg : seg ≠ [] := by
        intro h
        apply hne
        simp [h]
      obtain ⟨b, t, rfl⟩ := List.exists_cons_of_ne_nil hseg
      obtain ⟨k, rfl⟩ : ∃ k, n = k + 1 := ⟨n - 1, by omega⟩
      refine ⟨b, t.take k, _, rfl, ?_, by simp, ?_⟩
      · rw [Sock.stream_unread, List.cons_append, ← List.append_assoc, List.drop_succ_cons,
          List.take_append_drop]
        rfl
      · rw [List.length_take]
        omega

/-- A read that takes bytes makes the stream shorter. -/
theorem Sock.length_stream_lt {s s' : Sock} {n : ℕ} {b : UInt8} {bs : Bytes} (hn : 0 < n)
    (h : s.read n = some (b :: bs, s')) : s'.stream.length < s.stream.length := by
  rcases s.read_cases hn with ⟨-, -, h'⟩ | ⟨-, -, h'⟩ | ⟨c, cs, s'', h', hs, -⟩
  · simp [h'] at h
  · simp [h'] at h
  · rw [h'] at h
    cases h
    rw [hs, List.length_append, List.length_cons]
    omega

/-! ## Reading a number of bytes -/

/-- The loop of `ul_pack_readallo_ms`: whether no error occurred, and the bytes that were
stored. -/
def readall (s : Sock) (nleft : ℕ) : Bool × Bytes × Sock :=
  if nleft = 0 then (true, [], s)
  else
    match s.read nleft with
    | none => (false, [], s)
    | some ([], s) => (true, [], s)
    | some (b :: bs, s) =>
        let r := readall s (nleft - (bs.length + 1))
        (r.1, b :: bs ++ r.2.1, r.2.2)
termination_by nleft

/-- Read `nbytes` bytes: how many were read or `-1`, the bytes that were stored, and what is left
of the socket. Source: `dep/dep_pack.cpp` `ul_pack_readallo_ms`. -/
def ulPackReadalloMs (s : Sock) (nbytes : ℕ) : ℤ × Bytes × Sock :=
  let r := readall s nbytes
  (if r.1 then r.2.1.length else -1, r.2)

/-- **Reading depends on the stream only**: as much as is asked for and available is read, and
only a broken connection that is too short is an error. -/
theorem readall_spec (s : Sock) (n : ℕ) :
    (readall s n).1 = !(s.broken && decide (s.stream.length < n)) ∧
      (readall s n).2.1 = s.stream.take n ∧
      (readall s n).2.2.stream = s.stream.drop n ∧
      (readall s n).2.2.broken = s.broken := by
  induction n using Nat.strongRecOn generalizing s with
  | _ n ih =>
      rw [readall]
      by_cases hn : n = 0
      · simp [hn]
      rw [if_neg hn]
      rcases s.read_cases (Nat.pos_of_ne_zero hn) with
        ⟨hs, hb, hr⟩ | ⟨hs, hb, hr⟩ | ⟨b, bs, s', hr, hs, hb, hlen⟩
      · simp [hr, hs, hb, Nat.pos_of_ne_zero hn]
      · simp [hr, hs, hb]
      · obtain ⟨h₁, h₂, h₃, h₄⟩ := ih (n - (bs.length + 1)) (by omega) s'
        have hn' : n = (b :: bs).length + (n - (bs.length + 1)) := by
          rw [List.length_cons]
          omega
        rw [hr]
        simp only
        refine ⟨?_, ?_, ?_, by rw [h₄, hb]⟩
        · rw [h₁, hb, hs]
          congr 2
          rw [List.length_append, List.length_cons, decide_eq_decide]
          omega
        · rw [h₂, hs, hn', List.take_length_add_append, ← hn']
        · rw [h₃, hs, hn', List.drop_length_add_append, ← hn']

/-- The value of `ul_pack_readallo_ms`, with what it stores and leaves. -/
theorem ulPackReadalloMs_spec (s : Sock) (n : ℕ) :
    (ulPackReadalloMs s n).1 =
        (if s.broken = true ∧ s.stream.length < n then -1 else (min n s.stream.length : ℤ)) ∧
      (ulPackReadalloMs s n).2.1 = s.stream.take n ∧
      (ulPackReadalloMs s n).2.2.stream = s.stream.drop n ∧
      (ulPackReadalloMs s n).2.2.broken = s.broken := by
  obtain ⟨h₁, h₂, h₃, h₄⟩ := readall_spec s n
  refine ⟨?_, h₂, h₃, h₄⟩
  simp only [ulPackReadalloMs, h₁, h₂]
  by_cases hb : s.broken = true ∧ s.stream.length < n
  · simp [hb]
  · have hok : (!(s.broken && decide (s.stream.length < n))) = true := by
      rw [Bool.not_eq_true', Bool.and_eq_false_iff, decide_eq_false_iff_not, ← Bool.not_eq_true]
      exact not_and_or.mp hb
    rw [if_neg hb, if_pos hok, List.length_take, Nat.cast_min]

/-! ## Scanning for the end marker -/

/-- The state of `ul_pack_readendo_ms`: the array `tmp` with its position `pend`, whether a `~`
was seen, and how many bytes of the marker were collected. -/
structure EndScan where
  tmp : Mem UInt8
  pend : ℕ
  flag : Bool
  count : ℕ

/-- What `ul_pack_readendo_ms` does with a byte that was read to `pend`; `none` is the end
marker. Source: `dep/dep_pack.cpp` `ul_pack_readendo_ms`. -/
def EndScan.step (st : EndScan) (c : UInt8) : Option EndScan :=
  let tmp := poke st.tmp st.pend [c]
  if st.flag then
    if c = 126 then some ⟨poke tmp 0 [c], 1, true, 1⟩
    else if st.count + 1 = bufEof.length then
      let tmp := poke tmp (st.count + 1) [0]
      if peek tmp 0 bufEof.length = bufEof then none else some ⟨tmp, 0, false, 0⟩
    else some ⟨tmp, st.pend + 1, true, st.count + 1⟩
  else if c = 126 then some ⟨tmp, st.pend + 1, true, 1⟩
  else some ⟨tmp, st.pend, false, st.count⟩

/-- The loop of `ul_pack_readendo_ms`. -/
def readend (s : Sock) (st : EndScan) : ℤ × Sock :=
  match _h : s.read 1 with
  | none => (-1, s)
  | some ([], s) => (-1, s)
  | some (c :: _, s') =>
      match st.step c with
      | none => (0, s')
      | some st => readend s' st
termination_by s.stream.length
decreasing_by exact Sock.length_stream_lt Nat.one_pos _h

/-- Skip to the end marker: `0` if it was found and `-1` if the stream ended or broke; `junk` is
what the array `tmp` holds at first. Source: `dep/dep_pack.cpp` `ul_pack_readendo_ms`. -/
def ulPackReadendoMs (junk : Mem UInt8) (s : Sock) : ℤ × Sock := readend s ⟨junk, 0, false, 0⟩

/-! ## The sending end -/

/-- The sending end of a connection: what was sent, how many bytes the next calls take (none is
an error), and whether calls behind them fail or take everything. -/
structure OutSock where
  sent : Bytes
  takes : List ℕ
  fails : Bool

/-- No call fails. -/
def OutSock.ErrorFree (s : OutSock) : Prop := 0 ∉ s.takes ∧ s.fails = false

/-- The loop of `ul_swriteo_ms_ex`: whether everything was sent, and what was sent. -/
def writeall (fails : Bool) : List ℕ → Bytes → Bool × Bytes × List ℕ
  | takes, [] => (true, [], takes)
  | [], b :: bs => if fails then (false, [], []) else (true, b :: bs, [])
  | 0 :: takes, _ :: _ => (false, [], takes)
  | (t + 1) :: takes, b :: bs =>
      let r := writeall fails takes (bs.drop t)
      (r.1, b :: bs.take t ++ r.2.1, r.2.2)

/-- Send bytes: how many were sent, or `-1`. Source: `dep/dep_pack.cpp` `ul_pack_writeallo_ms`,
`ul_net1.cpp` `ul_swriteo_ms_ex`. -/
def ulPackWritealloMs (s : OutSock) (buf : Bytes) : ℤ × OutSock :=
  let r := writeall s.fails s.takes buf
  (if r.1 then buf.length else -1, ⟨s.sent ++ r.2.1, r.2.2, s.fails⟩)

/-- Without errors everything is sent. -/
theorem writeall_spec {takes : List ℕ} (h : 0 ∉ takes) (bs : Bytes) :
    ∃ takes', writeall false takes bs = (true, bs, takes') ∧ 0 ∉ takes' := by
  induction takes generalizing bs with
  | nil =>
      cases bs with
      | nil => exact ⟨[], rfl, h⟩
      | cons b bs => exact ⟨[], rfl, h⟩
  | cons t takes ih =>
      cases bs with
      | nil => exact ⟨t :: takes, rfl, h⟩
      | cons b bs =>
          cases t with
          | zero => exact absurd List.mem_cons_self h
          | succ t =>
              obtain ⟨takes', hw, h'⟩ := ih (fun hm => h (List.mem_cons_of_mem _ hm)) (bs.drop t)
              refine ⟨takes', ?_, h'⟩
              simp [writeall, hw]

/-- **An error-free socket sends everything.** -/
theorem OutSock.ErrorFree.write {s : OutSock} (h : s.ErrorFree) (bs : Bytes) :
    ∃ s' : OutSock, ulPackWritealloMs s bs = ((bs.length : ℤ), s') ∧ s'.sent = s.sent ++ bs ∧
      s'.ErrorFree := by
  obtain ⟨takes', hw, h'⟩ := writeall_spec h.1 bs
  rw [← h.2] at hw
  exact ⟨⟨s.sent ++ bs, takes', s.fails⟩, by simp [ulPackWritealloMs, hw], rfl, h', h.2⟩

end Asenal.Pack
