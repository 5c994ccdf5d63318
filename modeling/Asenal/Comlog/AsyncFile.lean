import Asenal.Comlog.Queue
import Asenal.Comlog.Record
import Asenal.Lib.Machine

/-!
# The asynchronous file appender: `AsyncFileAppender`

`print` puts records into a queue, and a writer thread writes them to the file. The destructor asks the
thread to leave and waits for it, and then drops what is left in the queue.

The state machine takes the statements of the three parties one by one, in any order. No write fails.

* `inv_step` — what each step does to the records: they are in the file, on their way, or in the queue.
* `reached_delivered` — every accepted record is written, once and in the order of acceptance, in every
  run in which the thread does not leave while a record is in the queue.
-/

namespace Asenal.Comlog

open Asenal.Lib Asenal.Lib.Memory Asenal.Lib.Text

/-! ## The parties -/

/-- Where the writer thread stands. Source: `AsyncFileAppender::writeData`. -/
inductive Writer
  | entry
  | running
  | popping
  | waiting
  | popped (readbuf : List (Netdata Unit))
  | syncing (readbuf : List (Netdata Unit))
  | writing (readbuf : List (Netdata Unit))
  | left

/-- Where the destructor stands. Source: `AsyncFileAppender::~AsyncFileAppender`. -/
inductive Destructor
  | none
  | begun
  | halted
  | stopped
  | joining
  | erasing
  | finished
  deriving DecidableEq

/-- The appender, the threads that use it, and the history: the records that `print` accepted, and the
vectors that were written. Source: `asyncfileappender.h` `AsyncFileAppender`. -/
structure Afile where
  queue : XQueue (Netdata Unit)
  isWorking : Bool
  run : ℤ
  stop : ℤ
  writer : Writer
  destructor : Destructor
  accepted : List (Netdata Unit)
  file : List Bytes

/-- `AFILE_MAXREADITEMS`. -/
def afileMaxReadItems : ℕ := 1024

/-- `AFILE_QUEUESIZE`. -/
def afileQueueSize : ℤ := 20 * 1024

/-- Source: `appender.cpp` `Appender::unInMask`. -/
def unInMask (mask : UInt64) (id : UInt32) : Bool := mask &&& (1 <<< id.toUInt64) = 0

/-- What a call of `print` is given: the mask and the id of the appender, the level of the event, the
event as the layout leaves it (none: there is no event, or no text), and the memory for the record. -/
structure Print where
  mask : UInt64
  id : Int32
  logLevel : UInt32
  dat : Option (LogEvent Unit)
  mem : Option (Mem UInt8)

/-- It holds the mutex of the queue all the time. Source: `AsyncFileAppender::print`. -/
def Afile.print (s : Afile) (p : Print) : ℤ × Afile :=
  match p.dat with
  | none => (-1, s)
  | some evt =>
      if unInMask p.mask p.logLevel then (0, s)
      else
        match p.mem with
        | none => (-1, s)
        | some junk =>
            let val := record (fun _ => p.id) junk evt
            let r := s.queue.pushFront val
            (r.1, { s with
              queue := r.2
              accepted := if r.1 = 0 then s.accepted ++ [val] else s.accepted })

/-- The pop of a batch, which holds the mutex of the queue. -/
def Afile.popBacks (s : Afile) : Afile :=
  let r := s.queue.popBacks afileMaxReadItems
  { s with queue := r.2, writer := .popped r.1 }

/-- The next statement of the writer thread; a file that is opened again (`reopen`) sets `_run`.
Source: `AsyncFileAppender::writeData`, `_asyncfile_callback`. -/
def Afile.writeData (s : Afile) (reopen : Bool) : Option Afile :=
  match s.writer with
  | .entry => some { s with writer := if s.run = 0 then .entry else .running }
  | .running => some { s with writer := if s.stop = 1 then .left else .popping }
  | .popping =>
      some (if s.queue.size = 0 ∧ s.isWorking then { s with writer := .waiting } else s.popBacks)
  | .waiting => some s.popBacks -- woken by a signal, by the time-out, or for no reason
  | .popped readbuf =>
      some { s with
        writer :=
          if readbuf.length = 0 ∧ s.run = -1 then .left
          else if readbuf.length > 0 then .syncing readbuf
          else .entry }
  | .syncing readbuf =>
      some { s with run := if reopen then 1 else s.run, writer := .writing readbuf }
  | .writing readbuf =>
      some { s with
        file := s.file ++ messages readbuf
        writer := .entry }
  | .left => none

/-- The next statement of the destructor. Source: `AsyncFileAppender::~AsyncFileAppender`. -/
def Afile.destroy (s : Afile) : Option Afile :=
  match s.destructor with
  | .none => some { s with destructor := if s.run ≠ 0 then .begun else .erasing }
  | .begun => some { s with run := -1, destructor := .halted }
  | .halted => some { s with stop := 1, destructor := .stopped }
  | .stopped => some { s with isWorking := false, destructor := .joining }
  | .joining =>
      match s.writer with
      | .left => some { s with destructor := .erasing }
      | _ => none
  | .erasing =>
      some (if s.queue.size = 0 then { s with destructor := .finished }
        else { s with queue := (s.queue.popBacks afileMaxReadItems).2 })
  | .finished => none

/-- What may happen next. -/
inductive Afile.Action
  | print (p : Print)
  | writeData (reopen : Bool)
  | destroy

/-- A step of the machine; an appender is printed to until its destruction begins. -/
def Afile.step (s : Afile) : Afile.Action → Option Afile
  | .print p => if s.destructor = .none then some (s.print p).2 else none
  | .writeData reopen => s.writeData reopen
  | .destroy => s.destroy

/-- An appender as its thread is created. Source: `AsyncFileAppender::getAppender`. -/
def Afile.Created (s : Afile) : Prop :=
  ∃ junk q, XQueue.create junk afileQueueSize = some q ∧ s = ⟨q, true, 1, 0, .entry, .none, [], []⟩

/-- The next statement of the writer thread is its last one. -/
def Afile.leaves (s : Afile) : Bool :=
  match s.writer with
  | .running => s.stop = 1
  | .popped readbuf => readbuf.length = 0 ∧ s.run = -1
  | _ => false

/-- The writer thread does not leave while a record is in the queue. -/
def Afile.Drained (s : Afile) : Afile.Action → Prop
  | .writeData _ => s.leaves → s.queue.size = 0
  | _ => True

instance (s : Afile) (act : Afile.Action) : Decidable (s.Drained act) :=
  match act with
  | .writeData _ => inferInstanceAs (Decidable (s.leaves → s.queue.size = 0))
  | .print _ => isTrue trivial
  | .destroy => isTrue trivial

/-- The states of the runs whose steps satisfy `P`. -/
def Afile.Reached (P : Afile → Afile.Action → Prop) : Afile → Prop :=
  Machine.Reached Afile.Created Afile.step P

/-- Once the appender is destroyed, the file has got the accepted records, each once and in their order. -/
def Afile.Delivered (s : Afile) : Prop :=
  s.destructor = .finished → s.file = messages s.accepted

/-! ## The steps -/

/-- The records that the writer thread has taken from the queue. -/
def Writer.readbuf : Writer → List (Netdata Unit)
  | .popped readbuf | .syncing readbuf | .writing readbuf => readbuf
  | _ => []

/-- The destructor has waited for the thread. -/
def Destructor.Joined : Destructor → Prop
  | .erasing | .finished => True
  | _ => False

/-- What a call of `print` does: nothing, or it accepts a record. -/
theorem print_cases (s : Afile) (p : Print) :
    (s.print p).2 = s ∨ ∃ val, (s.queue.pushFront val).1 = 0 ∧
      (s.print p).2 =
        { s with queue := (s.queue.pushFront val).2, accepted := s.accepted ++ [val] } := by
  unfold Afile.print
  cases hdat : p.dat with
  | none => exact Or.inl rfl
  | some evt =>
      dsimp only
      split_ifs with hmask
      · exact Or.inl rfl
      · cases hmem : p.mem with
        | none => exact Or.inl rfl
        | some junk =>
            dsimp only
            by_cases hret : (s.queue.pushFront (record (fun _ => p.id) junk evt)).1 = 0
            · refine Or.inr ⟨_, hret, ?_⟩
              rw [if_pos hret]
            · left
              have hfull : s.queue.pushFront (record (fun _ => p.id) junk evt) = (-1, s.queue) := by
                unfold XQueue.pushFront at hret ⊢
                split_ifs at hret ⊢ with hsize
                · rfl
                · exact absurd rfl hret
              rw [if_neg hret, hfull]

/-- What a statement of the writer thread does: it goes on with the records it has, takes a batch, opens
the file again, or writes the batch. -/
theorem writeData_cases {s s' : Afile} {reopen : Bool} (h : s.writeData reopen = some s') :
    s.writer ≠ .left ∧
      ((∃ w, w.readbuf = s.writer.readbuf ∧ (w = .left → s.leaves) ∧ s' = { s with writer := w }) ∨
        (s.writer.readbuf = [] ∧ s' = s.popBacks) ∨
        (∃ run, (run = s.run ∨ run = 1) ∧
          s' = { s with run := run, writer := .writing s.writer.readbuf }) ∨
        s' = { s with
          file := s.file ++ messages s.writer.readbuf
          writer := .entry }) := by
  obtain ⟨queue, isWorking, run, stop, writer, destructor, accepted, file⟩ := s
  cases writer with
  | entry =>
      obtain rfl := Option.some.inj h
      refine ⟨Writer.noConfusion, Or.inl ⟨_, ?_, ?_, rfl⟩⟩
      · dsimp only
        split_ifs <;> rfl
      · intro hleft
        split_ifs at hleft
  | running =>
      obtain rfl := Option.some.inj h
      refine ⟨Writer.noConfusion, Or.inl ⟨_, ?_, ?_, rfl⟩⟩
      · dsimp only
        split_ifs <;> rfl
      · intro hleft
        split_ifs at hleft with hstop
        exact decide_eq_true hstop
  | popping =>
      obtain rfl := Option.some.inj h
      refine ⟨Writer.noConfusion, ?_⟩
      split_ifs with hempty
      · exact Or.inl ⟨.waiting, rfl, Writer.noConfusion, rfl⟩
      · exact Or.inr (Or.inl ⟨rfl, rfl⟩)
  | waiting =>
      obtain rfl := Option.some.inj h
      exact ⟨Writer.noConfusion, Or.inr (Or.inl ⟨rfl, rfl⟩)⟩
  | popped readbuf =>
      obtain rfl := Option.some.inj h
      refine ⟨Writer.noConfusion, Or.inl ⟨_, ?_, ?_, rfl⟩⟩
      · dsimp only
        split_ifs with hleave hitems
        · exact (List.eq_nil_of_length_eq_zero hleave.1).symm
        · rfl
        · exact (List.eq_nil_of_length_eq_zero (Nat.le_zero.mp (not_lt.mp hitems))).symm
      · intro hleft
        split_ifs at hleft with hleave
        exact decide_eq_true hleave
  | syncing readbuf =>
      obtain rfl := Option.some.inj h
      refine ⟨Writer.noConfusion, Or.inr (Or.inr (Or.inl ⟨_, ?_, rfl⟩))⟩
      cases reopen with
      | false => exact Or.inl rfl
      | true => exact Or.inr rfl
  | writing readbuf =>
      obtain rfl := Option.some.inj h
      exact ⟨Writer.noConfusion, Or.inr (Or.inr (Or.inr rfl))⟩
  | left => exact absurd h (by rintro ⟨⟩)

/-- Where the records are: in the file, with the writer thread, dropped by the destructor, or in the
queue, in the order of acceptance. -/
structure Afile.Inv (s : Afile) : Prop where
  records : ∃ erased l, Queued s.queue l ∧ (erased = [] ∨ s.destructor.Joined) ∧
    s.file ++ messages (s.writer.readbuf ++ erased ++ l) = messages s.accepted
  run : s.run ≠ 0
  unasked : s.destructor = .none → s.stop ≠ 1 ∧ s.run ≠ -1 ∧ s.writer ≠ .left
  joined : s.destructor.Joined → s.writer = .left

theorem inv_created {s : Afile} (h : s.Created) : s.Inv := by
  obtain ⟨junk, q, hcreate, rfl⟩ := h
  obtain ⟨q', hq', hqueued⟩ := queued_create junk (show 2 ≤ afileQueueSize by decide)
  obtain rfl := Option.some.inj (hcreate.symm.trans hq')
  exact ⟨⟨[], [], hqueued, Or.inl rfl, rfl⟩, one_ne_zero,
    fun _ => ⟨zero_ne_one, show (1 : ℤ) ≠ -1 by decide, Writer.noConfusion⟩, False.elim⟩

theorem inv_print {s : Afile} (h : s.Inv) (p : Print) : (s.print p).2.Inv := by
  rcases print_cases s p with heq | ⟨val, hret, heq⟩
  · rw [heq]
    exact h
  · obtain ⟨⟨erased, l, hqueued, herased, hrecords⟩, hrun, hunasked, hjoined⟩ := h
    have hspec := pushFront_spec hqueued val
    split_ifs at hspec with hroom
    · rw [heq]
      refine ⟨⟨erased, l ++ [val], hspec.2, herased, ?_⟩, hrun, hunasked, hjoined⟩
      dsimp only
      rw [← List.append_assoc, messages_append, ← List.append_assoc, hrecords, messages_append]
    · rw [hspec] at hret
      exact absurd hret (show (-1 : ℤ) ≠ 0 by decide)

theorem inv_writeData {s s' : Afile} (h : s.Inv) {reopen : Bool}
    (hstep : s.writeData reopen = some s') : s'.Inv := by
  obtain ⟨⟨erased, l, hqueued, herased, hrecords⟩, hrun, hunasked, hjoined⟩ := h
  obtain ⟨hnotLeft, hcases⟩ := writeData_cases hstep
  have hjoin : ¬ s.destructor.Joined := fun hj => hnotLeft (hjoined hj)
  obtain rfl : erased = [] := herased.resolve_right hjoin
  rw [List.append_nil] at hrecords
  rcases hcases with ⟨w, hreadbuf, hleft, rfl⟩ | ⟨hreadbuf, rfl⟩ | ⟨run, hreopen, rfl⟩ | rfl
  · refine ⟨⟨[], l, hqueued, Or.inl rfl, ?_⟩, hrun, fun hnone => ?_, fun hj => absurd hj hjoin⟩
    · dsimp only
      rw [List.append_nil, hreadbuf]
      exact hrecords
    · obtain ⟨hstop, hhalt, -⟩ := hunasked hnone
      refine ⟨hstop, hhalt, fun hw => ?_⟩
      have hleaves := hleft hw
      unfold Afile.leaves at hleaves
      split at hleaves
      · exact hstop (of_decide_eq_true hleaves)
      · exact hhalt (of_decide_eq_true hleaves).2
      · exact Bool.noConfusion hleaves
  · obtain ⟨hbatch, hleft⟩ := popBacks_spec hqueued afileMaxReadItems
    refine ⟨⟨[], l.drop afileMaxReadItems, hleft, Or.inl rfl, ?_⟩, hrun, fun hnone => ?_,
      fun hj => absurd hj hjoin⟩
    · show s.file ++ messages ((s.queue.popBacks afileMaxReadItems).1 ++ [] ++ _) = messages s.accepted
      rw [hbatch, List.append_nil, List.take_append_drop, ← hrecords, hreadbuf, List.nil_append]
    · obtain ⟨hstop, hhalt, -⟩ := hunasked hnone
      exact ⟨hstop, hhalt, Writer.noConfusion⟩
  · refine ⟨⟨[], l, hqueued, Or.inl rfl, ?_⟩, ?_, fun hnone => ?_, fun hj => absurd hj hjoin⟩
    · show s.file ++ messages (s.writer.readbuf ++ [] ++ l) = _
      rw [List.append_nil]
      exact hrecords
    · rcases hreopen with rfl | rfl
      · exact hrun
      · exact one_ne_zero
    · obtain ⟨hstop, hhalt, -⟩ := hunasked hnone
      refine ⟨hstop, ?_, Writer.noConfusion⟩
      rcases hreopen with rfl | rfl
      · exact hhalt
      · exact show (1 : ℤ) ≠ -1 by decide
  · refine ⟨⟨[], l, hqueued, Or.inl rfl, ?_⟩, hrun, fun hnone => ?_, fun hj => absurd hj hjoin⟩
    · show s.file ++ messages s.writer.readbuf ++ messages ([] ++ [] ++ l) = _
      rw [List.append_assoc, ← messages_append]
      exact hrecords
    · obtain ⟨hstop, hhalt, -⟩ := hunasked hnone
      exact ⟨hstop, hhalt, Writer.noConfusion⟩

theorem inv_destroy {s s' : Afile} (h : s.Inv) (hstep : s.destroy = some s') : s'.Inv := by
  obtain ⟨⟨erased, l, hqueued, herased, hrecords⟩, hrun, hunasked, hjoined⟩ := h
  obtain ⟨queue, isWorking, run, stop, writer, destructor, accepted, file⟩ := s
  cases destructor with
  | none =>
      obtain rfl := Option.some.inj hstep
      rw [if_pos hrun]
      exact ⟨⟨erased, l, hqueued, Or.inl (herased.resolve_right id), hrecords⟩, hrun,
        Destructor.noConfusion, False.elim⟩
  | begun =>
      obtain rfl := Option.some.inj hstep
      exact ⟨⟨erased, l, hqueued, Or.inl (herased.resolve_right id), hrecords⟩,
        show (-1 : ℤ) ≠ 0 by decide, Destructor.noConfusion, False.elim⟩
  | halted =>
      obtain rfl := Option.some.inj hstep
      exact ⟨⟨erased, l, hqueued, Or.inl (herased.resolve_right id), hrecords⟩, hrun,
        Destructor.noConfusion, False.elim⟩
  | stopped =>
      obtain rfl := Option.some.inj hstep
      exact ⟨⟨erased, l, hqueued, Or.inl (herased.resolve_right id), hrecords⟩, hrun,
        Destructor.noConfusion, False.elim⟩
  | joining =>
      cases writer with
      | left =>
          obtain rfl := Option.some.inj hstep
          exact ⟨⟨erased, l, hqueued, Or.inr trivial, hrecords⟩, hrun,
            Destructor.noConfusion, fun _ => rfl⟩
      | _ => exact absurd hstep (by rintro ⟨⟩)
  | erasing =>
      obtain rfl := Option.some.inj hstep
      have hleft : writer = .left := hjoined trivial
      split_ifs with hempty
      · exact ⟨⟨erased, l, hqueued, Or.inr trivial, hrecords⟩, hrun,
          Destructor.noConfusion, fun _ => hleft⟩
      · have hdropped := (popBacks_spec hqueued afileMaxReadItems).2
        refine ⟨⟨erased ++ l.take afileMaxReadItems, _, hdropped, Or.inr trivial, ?_⟩, hrun,
          Destructor.noConfusion, fun _ => hleft⟩
        rw [← hrecords]
        simp only [List.append_assoc, List.take_append_drop]
  | finished => exact absurd hstep (by rintro ⟨⟩)

/-- **Each step** keeps the records where they are, or moves them on. -/
theorem inv_step {s s' : Afile} (h : s.Inv) (act : Afile.Action) (hstep : s.step act = some s') :
    s'.Inv := by
  cases act with
  | print p =>
      unfold Afile.step at hstep
      split_ifs at hstep
      obtain rfl := Option.some.inj hstep
      exact inv_print h p
  | writeData reopen => exact inv_writeData h hstep
  | destroy => exact inv_destroy h hstep

/-! ## Runs -/

theorem reached_inv {P : Afile → Afile.Action → Prop} {s : Afile} (h : Afile.Reached P s) : s.Inv := by
  apply h.invariant
  · exact fun s hcreated => inv_created hcreated
  · exact fun s act s' ih _ hstep => inv_step ih act hstep

/-- **No record is written twice or out of order**, in any run. -/
theorem reached_prefix {P : Afile → Afile.Action → Prop} {s : Afile} (h : Afile.Reached P s) :
    s.file <+: messages s.accepted := by
  obtain ⟨erased, l, -, -, hrecords⟩ := (reached_inv h).records
  exact ⟨_, hrecords⟩

/-- The destructor moves no record. -/
theorem destroy_frame {s s' : Afile} (h : s.destroy = some s') :
    s'.writer = s.writer ∧ s'.file = s.file ∧ s'.accepted = s.accepted := by
  obtain ⟨queue, isWorking, run, stop, writer, destructor, accepted, file⟩ := s
  cases destructor with
  | joining =>
      cases writer with
      | left =>
          obtain rfl := Option.some.inj h
          exact ⟨rfl, rfl, rfl⟩
      | _ => exact absurd h (by rintro ⟨⟩)
  | erasing =>
      obtain rfl := Option.some.inj h
      split_ifs <;> exact ⟨rfl, rfl, rfl⟩
  | finished => exact absurd h (by rintro ⟨⟩)
  | _ =>
      obtain rfl := Option.some.inj h
      exact ⟨rfl, rfl, rfl⟩

/-- A thread that has left with an empty queue has written all records, and stays so. -/
theorem left_step {s s' : Afile} (hinv : s.Inv)
    (h : s.writer = .left → s.file = messages s.accepted) (act : Afile.Action)
    (hdrained : s.Drained act) (hstep : s.step act = some s') :
    s'.writer = .left → s'.file = messages s'.accepted := by
  intro hleft
  cases act with
  | print p =>
      unfold Afile.step at hstep
      split_ifs at hstep with hnone
      obtain rfl := Option.some.inj hstep
      have hwriter : (s.print p).2.writer = s.writer := by
        rcases print_cases s p with heq | ⟨val, -, heq⟩ <;> rw [heq]
      exact absurd (hwriter.symm.trans hleft) (hinv.unasked hnone).2.2
  | writeData reopen =>
      obtain ⟨hnotLeft, ⟨w, hreadbuf, hleaves, rfl⟩ | ⟨-, rfl⟩ | ⟨run, -, rfl⟩ | rfl⟩ :=
        writeData_cases hstep
      · obtain ⟨erased, l, hqueued, herased, hrecords⟩ := hinv.records
        have hjoin : ¬ s.destructor.Joined := fun hj => hnotLeft (hinv.joined hj)
        obtain rfl : erased = [] := herased.resolve_right hjoin
        obtain rfl : w = .left := hleft
        have hempty : (l.length : ℤ) = 0 := hqueued.size.symm.trans (hdrained (hleaves rfl))
        obtain rfl : l = [] := List.eq_nil_of_length_eq_zero (Int.natCast_eq_zero.mp hempty)
        rw [← hreadbuf] at hrecords
        exact (List.append_nil _).symm.trans hrecords
      · exact Writer.noConfusion hleft
      · exact Writer.noConfusion hleft
      · exact Writer.noConfusion hleft
  | destroy =>
      obtain ⟨hwriter, hfile, haccepted⟩ := destroy_frame hstep
      rw [hfile, haccepted]
      exact h (hwriter.symm.trans hleft)

/-- **Every accepted record is written**, once and in the order of acceptance, when the appender is
destroyed, in every run in which the writer thread does not leave while a record is in the queue. -/
theorem reached_delivered (s : Afile) (h : Afile.Reached Afile.Drained s) : s.Delivered := by
  have hleft : s.Inv ∧ (s.writer = .left → s.file = messages s.accepted) := by
    apply h.invariant
    · intro s hcreated
      refine ⟨inv_created hcreated, ?_⟩
      obtain ⟨junk, q, -, rfl⟩ := hcreated
      exact fun _ => rfl
    · rintro s act s' ⟨hinv, hwritten⟩ hdrained hstep
      exact ⟨inv_step hinv act hstep, left_step hinv hwritten act hdrained hstep⟩
  intro hfinished
  apply hleft.2
  apply hleft.1.joined
  rw [hfinished]
  trivial

/-- An appender before anything is printed. -/
def Afile.fresh : Afile :=
  ⟨⟨afileQueueSize, 0, 0, 1, fun _ => record (fun _ => 3) (fun _ => 0) ⟨(), 0, [], by decide⟩⟩,
    true, 1, 0, .entry, .none, [], []⟩

theorem reached_fresh_afile (P : Afile → Afile.Action → Prop) : Afile.Reached P Afile.fresh :=
  Machine.Reached.start _ ⟨_, _, rfl, rfl⟩

/-- A call of `print` with a text of one byte. -/
def Print.oneByte : Print := ⟨1, 3, 0, some ⟨(), 5, [1], by decide⟩, some fun _ => 0⟩

/-- One record is printed and written, and the appender is destroyed. -/
theorem reached_delivered_written : ∃ s : Afile, s.Delivered ∧ s.destructor = .finished ∧
    s.file = [[1]] := by
  have hrun := (reached_fresh_afile Afile.Drained).run
    (.print Print.oneByte :: List.replicate 6 (.writeData false) ++ List.replicate 4 .destroy ++
      List.replicate 2 (.writeData false) ++ List.replicate 2 .destroy) rfl
  exact ⟨_, reached_delivered _ hrun, rfl, rfl⟩

/-- One record is printed, and the appender is destroyed before the thread looks at the queue. -/
theorem reached_lost : ¬ ∀ s : Afile, Afile.Reached (fun _ _ => True) s → s.Delivered := by
  intro h
  have hrun := (reached_fresh_afile fun _ _ => True).run
    (.print Print.oneByte :: List.replicate 4 .destroy ++ List.replicate 2 (.writeData false) ++
      List.replicate 3 .destroy) rfl
  have hfile := h _ hrun rfl
  exact absurd hfile (by decide)

end Asenal.Comlog
