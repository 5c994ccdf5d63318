import Asenal.Lib.Machine
import Asenal.Pack.Resync

/-!
# The end marker of a stream

What `ul_pack_readendo_ms` returns and leaves of a stream, whatever false starts of the marker stand in front of it,
and which cells of its array the scan writes.

* `reached_cells` — the scan stays inside the array, whatever is read.
* `ulPackReadendoMs_iff` — the marker is found iff the stream has one, and it is the first.
-/

namespace Asenal.Pack

open Asenal.Lib.Text Asenal.Lib.Memory Asenal.Lib.CString Asenal.Lib.Machine

/-- The size of the array `tmp`. Source: `dep/dep_pack.cpp` `ul_pack_readendo_ms`. -/
def tmpSize : ℕ := 10

/-- The cells of `tmp` that are written when `c` is read. -/
def EndScan.cells (st : EndScan) (c : UInt8) : List ℕ :=
  st.pend :: if st.flag then
    if c = 126 then [0] else if st.count + 1 = bufEof.length then [st.count + 1] else []
  else []

/-- The states of the scan, whatever bytes are read. -/
abbrev EndScan.Reached (junk : Mem UInt8) (st : EndScan) : Prop :=
  Lib.Machine.Reached (· = ⟨junk, 0, false, 0⟩) EndScan.step (fun _ _ => True) st

/-- The scan has collected something in every state. -/
theorem holds_of_reached {junk : Mem UInt8} {st : EndScan} (h : st.Reached junk) : ∃ w, st.Holds w := by
  refine h.invariant (I := fun st => ∃ w, st.Holds w) (fun st hst => ⟨[], Or.inl ?_⟩)
    fun st c st' hw _ hstep => ?_
  · subst hst
    exact ⟨rfl, rfl, rfl⟩
  · obtain ⟨w, hw⟩ := hw
    rcases EndScan.step_cases hw c with ⟨hnone, -⟩ | ⟨st'', w', hsome, hw', -⟩
    · rw [hnone] at hstep
      cases hstep
    · rw [hsome] at hstep
      obtain rfl := Option.some.inj hstep
      exact ⟨w', hw'⟩

/-- **The scan stays inside the array.** -/
theorem reached_cells {junk : Mem UInt8} {st : EndScan} (h : st.Reached junk) (c : UInt8) :
    ∀ i ∈ st.cells c, i < tmpSize := by
  have hpos : st.pend < 5 := by
    obtain ⟨w, ⟨-, -, hpend⟩ | ⟨-, hpend, -, -, t, rfl, -, hlen⟩⟩ := holds_of_reached h
    · rw [hpend]
      decide
    · rw [hpend, List.length_cons]
      omega
  unfold EndScan.cells tmpSize
  rw [List.forall_mem_cons]
  refine ⟨by omega, fun i hi => ?_⟩
  split_ifs at hi with hflag hc hfull
  · rw [List.mem_singleton.mp hi]
    decide
  · rw [List.mem_singleton.mp hi, hfull]
    decide
  · cases hi
  · cases hi

/-- What `strstr` finds is the first occurrence. -/
theorem strstr_le {needle a b : Bytes} (hne : needle ≠ []) :
    ∃ k, strstr needle (a ++ (needle ++ b)) = some k ∧ k ≤ a.length := by
  induction a with
  | nil => exact ⟨0, strstr_append_self hne b, Nat.le_refl 0⟩
  | cons c a ih =>
      obtain ⟨k, hk, hle⟩ := ih
      rw [List.cons_append, strstr]
      split_ifs
      · exact ⟨0, rfl, Nat.zero_le _⟩
      · rw [hk]
        exact ⟨k + 1, rfl, Nat.succ_le_succ hle⟩

/-- What stands behind the first marker. -/
theorem afterEof_eq_some {s r : Bytes} (h : afterEof s = some r) :
    ∃ a, s = a ++ (bufEof ++ r) ∧ ∀ a' r', s = a' ++ (bufEof ++ r') → a.length ≤ a'.length := by
  obtain ⟨k, hk, rfl⟩ := Option.map_eq_some_iff.mp h
  obtain ⟨a, b, rfl, rfl⟩ := strstr_eq_some hk
  refine ⟨a, ?_, fun a' r' hsame => ?_⟩
  · rw [← List.drop_drop, List.drop_left, List.drop_left]
  · obtain ⟨k', hk', hle⟩ := @strstr_le bufEof a' r' (List.cons_ne_nil _ _)
    rw [← hsame, hk] at hk'
    exact (Option.some.inj hk').trans_le hle

/-- **`ul_pack_readendo_ms` finds the marker iff the stream has one**, and has then read up to the end of the first
one; otherwise it fails. Whatever is read, the scan stays inside its array. -/
theorem ulPackReadendoMs_iff (junk : Mem UInt8) (s : Sock) :
    ((ulPackReadendoMs junk s).1 = 0 ↔ bufEof <:+: s.stream) ∧
      (bufEof <:+: s.stream → ∃ a, s.stream = a ++ (bufEof ++ (ulPackReadendoMs junk s).2.stream) ∧
        ∀ a' r', s.stream = a' ++ (bufEof ++ r') → a.length ≤ a'.length) ∧
      (¬ bufEof <:+: s.stream → (ulPackReadendoMs junk s).1 = -1) ∧
      ∀ st : EndScan, st.Reached junk → ∀ c, ∀ i ∈ st.cells c, i < tmpSize := by
  have hcells : ∀ st : EndScan, st.Reached junk → ∀ c, ∀ i ∈ st.cells c, i < tmpSize :=
    fun st h c => reached_cells h c
  have hend := readend_spec junk s
  have hnone := afterEof_eq_none_iff s.stream
  cases hafter : afterEof s.stream with
  | none =>
      rw [hafter] at hend hnone
      have hfree := hnone.mp rfl
      have hret : (ulPackReadendoMs junk s).1 = -1 := hend
      refine ⟨iff_of_false ?_ hfree, fun h => absurd h hfree, fun _ => hret, hcells⟩
      rw [hret]
      decide
  | some r =>
      rw [hafter] at hend hnone
      obtain ⟨hret, hrest⟩ := hend
      have hmark : bufEof <:+: s.stream := by
        by_contra hfree
        cases hnone.mpr hfree
      refine ⟨iff_of_true hret hmark, fun _ => ?_, fun hfree => absurd hmark hfree, hcells⟩
      rw [hrest]
      exact afterEof_eq_some hafter

end Asenal.Pack
