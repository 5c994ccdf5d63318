import Asenal.Comlog.Send

/-!
# When sending fails: `NetAppenderSvr::run`

If a batch cannot be sent, each of its records is handed to the backup appender of its own appender. By
then `senddata` may have let the size of a record grow.

* `fallback_settled_iff` — what `senddata` leaves is handed on as it was pushed iff no record grew.
* `run_fallback_iff` — so is a batch whose sending fails iff no server was found or no record grew.
-/

namespace Asenal.Comlog

open Asenal.Lib.Memory Asenal.Lib.Runs Asenal.Lib.Text Asenal.Lib.Words

variable {α β : Type}

/-- A call `binprint(buf, len)`, with the bytes that stand at `buf`. -/
structure Call (β : Type) where
  appender : β
  buf : Bytes
  len : UInt32
  deriving DecidableEq

/-- The loop that writes records to the backup appenders. Source: `netappendersvr.cpp` `run`. -/
def fallback (bkappender : α → Option β) (batch : List (Netdata α)) : List (Call β) :=
  batch.filterMap fun ndt =>
    (bkappender ndt.appender).map fun bk => ⟨bk, ndt.item.message, ndt.item.size⟩

/-- What the sending of a batch meets: `synchandle` finds no server, or `writev` returns `ret`. -/
inductive Outcome
  | unreachable
  | written (ret : ℤ)

variable [DecidableEq α]

/-- The calls of `binprint` for a batch that is sorted. Source: `netappendersvr.cpp` `run`. -/
def run (id : α → Int32) (bkappender : α → Option β) (sendbuf : Mem UInt8)
    (batch : List (Netdata α)) (outcome : Outcome) : List (Call β) :=
  if batch.length > 0 then
    match outcome with
    | .unreachable => fallback bkappender batch
    | .written ret =>
        let r := senddata id sendbuf batch ret
        if r.1 ≠ 0 then fallback bkappender r.2.batch else []
  else []

/-- Sending a batch fails. -/
def Outcome.Fails (id : α → Int32) (sendbuf : Mem UInt8) (batch : List (Netdata α)) :
    Outcome → Prop
  | .unreachable => True
  | .written ret => (senddata id sendbuf batch ret).1 ≠ 0

/-- No record that is to be handed on grows, behind a record of the appender `now`: the first record of
each appender that has a backup is followed by no bytes of the same appender (counted as a word). -/
def Ungrown (bkappender : α → Option β) : Option α → List (Netdata α) → Prop
  | _, [] => True
  | now, ndt :: rest =>
      (now ≠ some ndt.appender → bkappender ndt.appender ≠ none →
        sizes (runOf ndt.appender rest) = 0) ∧
      Ungrown bkappender (some ndt.appender) rest

/-- A record is left as it was pushed iff it is not the first of its appender, or does not grow. -/
theorem settle_handed_iff (id : α → Int32) (now : Option α) (ndt : Netdata α)
    (rest : List (Netdata α)) :
    ((settle id now ndt rest).item.message = ndt.item.message ∧
      (settle id now ndt rest).item.size = ndt.item.size) ↔
        (now ≠ some ndt.appender → sizes (runOf ndt.appender rest) = 0) := by
  unfold settle
  split_ifs with hnow
  · constructor
    · rintro ⟨-, hsize⟩ -
      have hadd : ndt.item.size + sizes (runOf ndt.appender rest) = ndt.item.size + 0 :=
        hsize.trans (UInt32.add_zero _).symm
      exact UInt32.add_right_inj _ |>.mp hadd
    · intro hzero
      rw [hzero hnow, grow_zero]
      exact ⟨rfl, rfl⟩
  · exact ⟨fun _ hne => absurd hne hnow, fun _ => ⟨rfl, rfl⟩⟩

/-- **What `senddata` leaves is handed on as it was pushed** iff no record grew. -/
theorem fallback_settled_iff (id : α → Int32) (bkappender : α → Option β) (now : Option α)
    (batch : List (Netdata α)) :
    fallback bkappender (settled id now batch) = fallback bkappender batch ↔
      Ungrown bkappender now batch := by
  induction batch generalizing now with
  | nil => exact ⟨fun _ => trivial, fun _ => rfl⟩
  | cons ndt rest ih =>
      have hih := ih (some ndt.appender)
      have happ : (settle id now ndt rest).appender = ndt.appender := by
        unfold settle
        split_ifs <;> rfl
      unfold fallback at hih ⊢
      rw [settled, List.filterMap_cons, List.filterMap_cons, happ, Ungrown, ← hih]
      cases hbk : bkappender ndt.appender with
      | none => exact ⟨fun h => ⟨fun _ hne => absurd rfl hne, h⟩, fun h => h.2⟩
      | some bk =>
          have hhanded := settle_handed_iff id now ndt rest
          dsimp only [Option.map_some]
          rw [List.cons.injEq, Call.mk.injEq]
          constructor
          · rintro ⟨⟨-, hcall⟩, hrest⟩
            exact ⟨fun hnow _ => hhanded.mp hcall hnow, hrest⟩
          · rintro ⟨hzero, hrest⟩
            exact ⟨⟨rfl, hhanded.mpr fun hnow => hzero hnow (Option.some_ne_none bk)⟩, hrest⟩

/-- **A batch whose sending fails** is handed on record by record, each with its own message and length,
iff no server was found, or no record grew while the batch was gathered. -/
theorem run_fallback_iff (id : α → Int32) (bkappender : α → Option β) (sendbuf : Mem UInt8)
    (batch : List (Netdata α)) (outcome : Outcome) (hfails : outcome.Fails id sendbuf batch) :
    run id bkappender sendbuf batch outcome = fallback bkappender batch ↔
      outcome = .unreachable ∨ Ungrown bkappender none batch := by
  unfold run
  split_ifs with hitems
  · cases outcome with
    | unreachable => exact ⟨fun _ => Or.inl rfl, fun _ => rfl⟩
    | written ret =>
        have hret : (senddata id sendbuf batch ret).1 ≠ 0 := hfails
        have hleft : (senddata id sendbuf batch ret).2.batch = settled id none batch :=
          (gathers_gather id sendbuf batch).2.1
        dsimp only
        rw [if_pos hret, hleft, fallback_settled_iff]
        exact ⟨Or.inr, fun h => h.resolve_left (by rintro ⟨⟩)⟩
  · obtain rfl : batch = [] := List.eq_nil_of_length_eq_zero (by omega)
    exact ⟨fun _ => Or.inr trivial, fun _ => rfl⟩

/-- One record whose sending fails. -/
theorem run_fallback_iff_single :
    run (fun _ : Unit => 7) some (fun _ => 0) [⟨(), ⟨0, 5, 2, ofList [1, 2] fun _ => 0⟩⟩]
      (.written (-1)) = [⟨(), [1, 2], 2⟩] := by
  refine ((run_fallback_iff _ some _ _ _ ?_).mpr (Or.inr ?_)).trans ?_
  · show (senddata _ _ _ _).1 ≠ 0
    decide
  · exact ⟨fun _ _ => rfl, trivial⟩
  · rfl

/-- Two records of one appender, whose sending fails: the first is handed on with the length of both. -/
theorem run_grows : ¬ ∀ (batch : List (Netdata Unit)) (outcome : Outcome),
    outcome.Fails (fun _ => 7) (fun _ => 0) batch →
      run (fun _ => 7) some (fun _ => 0) batch outcome = fallback some batch := by
  intro h
  have hrun := h [⟨(), ⟨0, 5, 2, ofList [1, 2] fun _ => 0⟩⟩, ⟨(), ⟨0, 5, 1, ofList [3] fun _ => 0⟩⟩]
    (.written (-1)) (by show (senddata _ _ _ _).1 ≠ 0; decide)
  exact absurd hrun (by decide)

end Asenal.Comlog
