import Asenal.Comlog.Queue
import Asenal.Comlog.Send
import Asenal.Lib.Machine
import Mathlib.Data.List.Forall2

/-!
# The order of the messages on the wire

The server of the net appenders as a state machine: records are pushed, and batches are taken from the
queue, sorted and sent. The comparison of the sort knows the appender and the second of a record only,
and `std::sort` keeps no order between records that it finds equal.

* `pushedOf_sorted` — a sort keeps the order of an appender's messages if no two of one second differ.
* `messages_gather` — the messages of a packet, in the order of the sorted batch.
* `reached_inOrder` — the order on the wire is that of the pushes in every run without such a batch.
-/

namespace Asenal.Comlog

open Asenal.Lib Asenal.Lib.Memory Asenal.Lib.Runs Asenal.Lib.Text

variable {α : Type} [LinearOrder α]

/-! ## Sorting -/

/-- Source: `netappendersvr.cpp` `_netapender_sort_cmp_`; pointers are compared by their order. -/
def netapenderSortCmp (v₁ v₂ : Netdata α) : Bool :=
  if v₁.appender = v₂.appender then v₁.item.time < v₂.item.time else v₁.appender < v₂.appender

/-- What `std::sort` may make of a batch. -/
structure SortsTo (batch sorted : List (Netdata α)) : Prop where
  perm : sorted.Perm batch
  sorted : sorted.Pairwise fun v₁ v₂ => netapenderSortCmp v₂ v₁ = false

/-- The messages of an appender, in the order of the records. -/
def pushedOf (a : α) (batch : List (Netdata α)) : List Bytes :=
  (batch.filter fun ndt => ndt.appender = a).map fun ndt => ndt.item.message

/-- The print times of an appender do not decrease. -/
def Timely (a : α) (batch : List (Netdata α)) : Prop :=
  batch.Pairwise fun v₁ v₂ => v₁.appender = a → v₂.appender = a → v₁.item.time ≤ v₂.item.time

/-- Two records of an appender and of one second have the same message. -/
def NoTies (a : α) (batch : List (Netdata α)) : Prop :=
  ∀ v₁ ∈ batch, ∀ v₂ ∈ batch, v₁.appender = a → v₂.appender = a → v₁.item.time = v₂.item.time →
    v₁.item.message = v₂.item.message

/-- A sorted batch, as `senddata` needs it: the records of one appender stand next to each other. -/
theorem SortsTo.adjacent {batch sorted : List (Netdata α)} (h : SortsTo batch sorted) :
    Adjacent Netdata.appender sorted := by
  apply adjacent_of_sorted
  refine h.sorted.imp fun {v₁ v₂} hcmp => ?_
  unfold netapenderSortCmp at hcmp
  split_ifs at hcmp with heq
  · exact heq.ge
  · exact not_lt.mp (of_decide_eq_false hcmp)

/-- **A sort keeps the order of an appender's messages** if no two of one second differ. -/
theorem pushedOf_sorted {batch sorted : List (Netdata α)} (h : SortsTo batch sorted) {a : α}
    (htimely : Timely a batch) (hties : NoTies a batch) : pushedOf a sorted = pushedOf a batch := by
  have hmem : ∀ {l : List (Netdata α)} {v}, v ∈ l.filter (fun ndt => ndt.appender = a) →
      v ∈ l ∧ v.appender = a := by
    intro l v hv
    rw [List.mem_filter, decide_eq_true_eq] at hv
    exact hv
  unfold pushedOf
  apply map_eq_of_perm_sorted (fun ndt => ndt.item.time.toNat) (h.perm.filter _)
  · refine (h.sorted.filter _).imp_of_mem fun {v₁ v₂} h₁ h₂ hcmp => ?_
    have heq : v₂.appender = v₁.appender := (hmem h₂).2.trans (hmem h₁).2.symm
    rw [netapenderSortCmp, if_pos heq] at hcmp
    exact UInt32.le_iff_toNat_le.mp (UInt32.not_lt.mp (of_decide_eq_false hcmp))
  · refine (htimely.filter _).imp_of_mem fun {v₁ v₂} h₁ h₂ hle => ?_
    exact UInt32.le_iff_toNat_le.mp (hle (hmem h₁).2 (hmem h₂).2)
  · intro v₁ h₁ v₂ h₂ htime
    have hin : ∀ {v}, v ∈ sorted.filter (fun ndt => ndt.appender = a) → v ∈ batch :=
      fun hv => h.perm.mem_iff.mp (hmem hv).1
    exact hties v₁ (hin h₁) v₂ (hin h₂) (hmem h₁).2 (hmem h₂).2 (UInt32.toNat_inj.mp htime)

/-! ## Packets -/

/-- The messages that the vectors point at, each with its appender. -/
def Gathered.messages (g : Gathered α) : List (α × Bytes) :=
  g.iovecs.filterMap fun v =>
    match v.base with
    | .head => none
    | .item i =>
        g.batch[i]?.map fun ndt => (ndt.appender, (v.bytes g.sendbuf g.batch).drop logitemSize)
    | .log i => g.batch[i]?.map fun ndt => (ndt.appender, v.bytes g.sendbuf g.batch)

theorem messages_vectors (id : α → Int32) (sendbuf : Mem UInt8) (bodyLen : UInt32) (now : Option α)
    (pre rest : List (Netdata α)) :
    (Gathered.mk sendbuf (vectors now pre.length rest) (pre ++ settled id now rest) bodyLen).messages =
      rest.map fun ndt => (ndt.appender, ndt.item.message) := by
  induction rest generalizing now pre with
  | nil => rfl
  | cons ndt rest ih =>
      have hih := ih (some ndt.appender) (pre ++ [settle id now ndt rest])
      rw [List.length_append, List.append_assoc] at hih
      have hat : (pre ++ settle id now ndt rest :: settled id (some ndt.appender) rest)[pre.length]? =
          some (settle id now ndt rest) := by simp
      have happ : (settle id now ndt rest).appender = ndt.appender := by
        unfold settle
        split_ifs <;> rfl
      have hbytes := bytes_vector id now sendbuf pre ndt rest (settled id (some ndt.appender) rest)
      unfold Gathered.messages at hih ⊢
      rw [vectors, settled, List.map_cons, List.filterMap_cons]
      dsimp only at hih ⊢
      rw [hbytes]
      unfold vector
      split_ifs with hnow
      · dsimp only
        rw [hat]
        show (_, ((settle id now ndt rest).item.header ++ ndt.item.message).drop logitemSize) :: _ = _
        rw [List.drop_left' (length_header _), happ]
        exact congrArg (_ :: ·) hih
      · dsimp only
        rw [hat]
        show (_, [] ++ ndt.item.message) :: _ = _
        rw [List.nil_append, happ]
        exact congrArg (_ :: ·) hih

/-- **The messages of a packet** are those of the batch, in its order. -/
theorem messages_gather (id : α → Int32) (sendbuf : Mem UInt8) (batch : List (Netdata α)) :
    (gather id sendbuf batch).messages = batch.map fun ndt => (ndt.appender, ndt.item.message) := by
  obtain ⟨hiovecs, hbatch, -⟩ := gathers_gather id sendbuf batch
  have hvectors := messages_vectors id (gather id sendbuf batch).sendbuf 0 none [] batch
  unfold Gathered.messages at hvectors ⊢
  rw [hiovecs, hbatch]
  exact hvectors

/-- The messages of an appender on the wire. -/
def messagesOf (a : α) (wire : List (α × Bytes)) : List Bytes :=
  (wire.filter fun m => m.1 = a).map Prod.snd

theorem messagesOf_gather (id : α → Int32) (sendbuf : Mem UInt8) (batch : List (Netdata α)) (a : α) :
    messagesOf a (gather id sendbuf batch).messages = pushedOf a batch := by
  rw [messages_gather, messagesOf, List.filter_map, List.map_map]
  rfl

/-! ## Runs -/

/-- `DEFQUEUESIZE`. -/
def defQueueSize : ℤ := 20 * 1024

/-- The server: its queue, and the history of the records that were pushed, of the batches that were
taken, and of what went out of each of them. -/
structure Svr (α : Type) where
  queue : XQueue (Netdata α)
  pushed : List (Netdata α)
  popped : List (List (Netdata α))
  sent : List (List (α × Bytes))

/-- What the server does: a push, and a round of `run`, in which the batch is sorted and its first `out`
messages go out: all if it is sent, fewer if `writev` comes short, none if there is no server. -/
inductive Action (α : Type)
  | push (id : α → Int32) (junk : Mem UInt8) (evt : LogEvent α)
  | run (id : α → Int32) (sendbuf : Mem UInt8) (sorted : List (Netdata α)) (out : ℕ)

/-- Source: `NetAppenderSvr::push`, `NetAppenderSvr::run`. -/
def Svr.step (s : Svr α) : Action α → Svr α
  | .push id junk evt =>
      let val := record id junk evt
      let r := s.queue.pushFront val
      { s with queue := r.2, pushed := if r.1 = 0 then s.pushed ++ [val] else s.pushed }
  | .run id sendbuf sorted out =>
      let r := s.queue.popBacks maxReadItems
      { s with
        queue := r.2
        popped := s.popped ++ [r.1]
        sent := s.sent ++ [(gather id sendbuf sorted).messages.take out] }

/-- The print times of the appender `a` do not decrease, and a sort does what it may. -/
def Svr.Allows (a : α) (s : Svr α) : Action α → Prop
  | .push _ _ evt =>
      evt.nowapp = a → ∀ ndt ∈ s.pushed, ndt.appender = a → ndt.item.time ≤ evt.printTime
  | .run _ _ sorted _ => SortsTo (s.queue.popBacks maxReadItems).1 sorted

/-- The batch that is taken has no two different messages of the appender `a` and one second. -/
def Svr.Untied (a : α) (s : Svr α) : Action α → Prop
  | .push _ _ _ => True
  | .run _ _ _ _ => NoTies a (s.queue.popBacks maxReadItems).1

/-- A server at its beginning. -/
def Svr.Created (s : Svr α) : Prop :=
  ∃ junk, XQueue.create junk defQueueSize = some s.queue ∧
    s.pushed = [] ∧ s.popped = [] ∧ s.sent = []

/-- The states of the runs whose steps satisfy `P`. -/
def Svr.Reached (P : Svr α → Action α → Prop) : Svr α → Prop :=
  Machine.Reached Svr.Created (fun s act => some (s.step act)) P

/-- Of each packet, the messages of the appender `a` are those of its records in the order of the
pushes, up to a point, and all of them if the whole packet went out. -/
def InOrder (a : α) (s : Svr α) : Prop :=
  (∃ queued, s.pushed = s.popped.flatten ++ queued) ∧
    List.Forall₂ (fun packet batch => messagesOf a packet <+: pushedOf a batch ∧
      (packet.length = batch.length → messagesOf a packet = pushedOf a batch)) s.sent s.popped

/-- What holds of every state that is reached. -/
structure Inv (a : α) (s : Svr α) : Prop where
  queued : ∃ l, Queued s.queue l ∧ s.pushed = s.popped.flatten ++ l
  timely : Timely a s.pushed
  packets : List.Forall₂ (fun packet batch => messagesOf a packet <+: pushedOf a batch ∧
    (packet.length = batch.length → messagesOf a packet = pushedOf a batch)) s.sent s.popped

variable {a : α}

theorem inv_push {s : Svr α} (h : Inv a s) (id : α → Int32) (junk : Mem UInt8) (evt : LogEvent α)
    (hallows : s.Allows a (.push id junk evt)) : Inv a (s.step (.push id junk evt)) := by
  obtain ⟨⟨l, hqueued, hpushed⟩, htimely, hpackets⟩ := h
  have hspec := pushFront_spec hqueued (record id junk evt)
  split_ifs at hspec with hroom
  · have hstep : s.step (.push id junk evt) = { s with
        queue := (s.queue.pushFront (record id junk evt)).2
        pushed := s.pushed ++ [record id junk evt] } := by
      simp only [Svr.step, hspec.1, if_true]
    rw [hstep]
    refine ⟨⟨l ++ [record id junk evt], hspec.2, ?_⟩, ?_, hpackets⟩
    · rw [hpushed, List.append_assoc]
    · refine List.pairwise_append.mpr ⟨htimely, List.pairwise_singleton _ _, ?_⟩
      intro v₁ h₁ v₂ h₂ ha₁ ha₂
      rw [List.mem_singleton.mp h₂] at ha₂ ⊢
      exact hallows ha₂ v₁ h₁ ha₁
  · have hstep : s.step (.push id junk evt) = s := by
      simp only [Svr.step, hspec]
      rfl
    rw [hstep]
    exact ⟨⟨l, hqueued, hpushed⟩, htimely, hpackets⟩

theorem inv_run {s : Svr α} (h : Inv a s) (id : α → Int32) (sendbuf : Mem UInt8)
    (sorted : List (Netdata α)) (out : ℕ) (hallows : s.Allows a (.run id sendbuf sorted out))
    (hties : s.Untied a (.run id sendbuf sorted out)) :
    Inv a (s.step (.run id sendbuf sorted out)) := by
  obtain ⟨⟨l, hqueued, hpushed⟩, htimely, hpackets⟩ := h
  obtain ⟨hbatch, hleft⟩ := popBacks_spec hqueued maxReadItems
  have hsorts : SortsTo (s.queue.popBacks maxReadItems).1 sorted := hallows
  have hbatchTimely : Timely a (s.queue.popBacks maxReadItems).1 := by
    rw [hbatch]
    rw [hpushed] at htimely
    exact (htimely.sublist (List.sublist_append_right _ _)).sublist (List.take_sublist _ _)
  refine ⟨⟨l.drop maxReadItems, hleft, ?_⟩, htimely, ?_⟩
  · show s.pushed = (s.popped ++ [(s.queue.popBacks maxReadItems).1]).flatten ++ _
    rw [List.flatten_append, hbatch, hpushed, List.flatten_singleton, List.append_assoc,
      List.take_append_drop]
  · refine List.rel_append hpackets (List.Forall₂.cons ?_ List.Forall₂.nil)
    have hwhole : messagesOf a (gather id sendbuf sorted).messages =
        pushedOf a (s.queue.popBacks maxReadItems).1 := by
      rw [messagesOf_gather, pushedOf_sorted hsorts hbatchTimely hties]
    constructor
    · rw [← hwhole]
      exact ((List.take_prefix _ _).filter _).map _
    · intro hlen
      have hall : (gather id sendbuf sorted).messages.length =
          (s.queue.popBacks maxReadItems).1.length := by
        rw [messages_gather, List.length_map, hsorts.perm.length_eq]
      rw [← hall, List.length_take] at hlen
      rw [List.take_of_length_le (by omega), hwhole]

/-- **The messages of an appender are on the wire in the order of the pushes**, in every run in which
no batch holds two different messages of this appender and one second. -/
theorem reached_inOrder (a : α) (s : Svr α)
    (h : Svr.Reached (fun s act => s.Allows a act ∧ s.Untied a act) s) : InOrder a s := by
  have hinv : Inv a s := by
    apply h.invariant
    · rintro s ⟨junk, hcreate, hpushed, hpopped, hsent⟩
      obtain ⟨q, hq, hqueued⟩ := queued_create junk (show 2 ≤ defQueueSize by decide)
      obtain rfl := Option.some.inj (hcreate.symm.trans hq)
      refine ⟨⟨[], hqueued, ?_⟩, ?_, ?_⟩
      · rw [hpushed, hpopped]
        rfl
      · rw [hpushed]
        exact List.Pairwise.nil
      · rw [hpopped, hsent]
        exact List.Forall₂.nil
    · intro s act s' ih hact hstep
      obtain rfl := Option.some.inj hstep
      cases act with
      | push id junk evt => exact inv_push ih id junk evt hact.1
      | run id sendbuf sorted out => exact inv_run ih id sendbuf sorted out hact.1 hact.2
  obtain ⟨⟨l, -, hpushed⟩, -, hpackets⟩ := hinv
  exact ⟨⟨l, hpushed⟩, hpackets⟩

/-- A new server. -/
def fresh (junk : Mem (Netdata α)) : Svr α := ⟨⟨defQueueSize, 0, 0, 1, junk⟩, [], [], []⟩

theorem reached_fresh (P : Svr α → Action α → Prop) (junk : Mem (Netdata α)) :
    Svr.Reached P (fresh junk) :=
  Machine.Reached.start _ ⟨junk, rfl, rfl, rfl, rfl⟩

theorem reached_step {P : Svr α → Action α → Prop} {s : Svr α} (hs : Svr.Reached P s)
    {act : Action α} (hact : P s act) : Svr.Reached P (s.step act) :=
  Machine.Reached.next s _ act hs hact rfl

/-- An event of one byte. -/
def oneByte (time : UInt32) (c : UInt8) : LogEvent Unit :=
  ⟨(), time, [c], show 1 < 2 ^ 31 by decide⟩

/-- Its record. -/
def printed (time : UInt32) (c : UInt8) : Netdata Unit :=
  record (fun _ => 7) (fun _ => 0) (oneByte time c)

/-- A server to which two such events were pushed. -/
def twice (time₁ time₂ : UInt32) : Svr Unit :=
  ((fresh fun _ => printed 0 0).step (.push (fun _ => 7) (fun _ => 0) (oneByte time₁ 1))).step
    (.push (fun _ => 7) (fun _ => 0) (oneByte time₂ 2))

theorem reached_twice {P : Svr Unit → Action Unit → Prop} {time₁ time₂ : UInt32}
    (hpush : ∀ s id junk evt, s.Allows () (.push id junk evt) → P s (.push id junk evt))
    (h : time₁ ≤ time₂) : Svr.Reached P (twice time₁ time₂) := by
  apply reached_step
  · apply reached_step (reached_fresh _ _)
    apply hpush
    rintro - ndt (⟨⟩)
  · apply hpush
    intro _ ndt hndt _
    obtain rfl := List.mem_singleton.mp hndt
    exact h

/-- Two records of one appender in one batch, of the seconds 5 and 6. -/
theorem reached_inOrder_twice :
    InOrder () ((twice 5 6).step
      (.run (fun _ => 7) (fun _ => 0) [printed 5 1, printed 6 2] 2)) := by
  apply reached_inOrder
  apply reached_step
  · exact reached_twice (fun s id junk evt hallows => ⟨hallows, trivial⟩) (by decide)
  · refine ⟨⟨List.Perm.refl [printed 5 1, printed 6 2], by decide⟩, ?_⟩
    show NoTies () [printed 5 1, printed 6 2]
    unfold NoTies
    decide

/-- Two records of one appender and one second: the sort may swap them. -/
theorem reached_swapped : ¬ ∀ s : Svr Unit, Svr.Reached (Svr.Allows ()) s → InOrder () s := by
  intro h
  have hswap : Svr.Reached (Svr.Allows ()) ((twice 5 5).step
      (.run (fun _ => 7) (fun _ => 0) [printed 5 2, printed 5 1] 2)) := by
    apply reached_step
    · exact reached_twice (fun s id junk evt hallows => hallows) (by decide)
    · exact ⟨List.Perm.swap (printed 5 1) (printed 5 2) [], by decide⟩
  obtain ⟨hpacket, -⟩ := List.forall₂_cons.mp (h _ hswap).2
  exact absurd (hpacket.2 rfl) (by decide)

end Asenal.Comlog
