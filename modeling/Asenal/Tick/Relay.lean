import Mathlib.Logic.Function.Basic
import Mathlib.Logic.Relation
import Asenal.Lib.Machine
import Asenal.Lib.Notified

/-!
# The relay

`TickServer::RunProcess` of `tick_server.cc` hands the messages of its peers to sixteen threads in turn, each
of which runs `TickThread::RunProcess` of `tick_thread.cc`.

* `Relay.step` — one step of the receiver or of a worker.
* `Relay.Sound.channel_step` — what a step is for the queue of one worker.
* `relay_inStep` — what holds after any steps in any order.
* `relay_delivers` — when nothing is under way, everything was sent.
-/

namespace Asenal.Tick

open Asenal.Lib.Machine Asenal.Lib.Notified

/-- The threads. -/
def tickThreadNum : ℕ := 16

/-- A `TickItem`: which one of those that were made it is, and its bytes. -/
structure TickItem where
  id : ℕ
  msg_ : List UInt8
deriving DecidableEq

/-- Where a worker is in its loop. -/
inductive WorkerAt
  | polling
  /-- The byte is read, and nothing is taken out of the queue yet. -/
  | woken
  | popped (ti : TickItem)
  /-- After `front` and `pop` of an empty queue. -/
  | undefined
deriving DecidableEq

/-- A worker: its queue, the bytes in its pipe, and where it is. -/
structure TickThread where
  conn_queue_ : List TickItem
  notify : ℕ
  place : WorkerAt

/-- Where the receiver is in its loop. -/
inductive ReceiverAt
  | receiving
  | pushed
  | notified
deriving DecidableEq

/-- The server and its threads, and what was pushed and sent up to now. -/
structure Relay where
  last_thread_ : Fin tickThreadNum
  place : ReceiverAt
  tickThread_ : Fin tickThreadNum → TickThread
  pushes : List (Fin tickThreadNum × TickItem)
  sends : List (Fin tickThreadNum × TickItem)

inductive Action
  /-- The receiver makes an item of a message and pushes it, under the mutex of the worker. -/
  | push (msg : List UInt8)
  /-- The receiver writes a byte to the pipe of the worker. -/
  | write
  /-- The receiver moves on to the next worker. -/
  | next
  /-- A worker whose pipe is readable reads a byte. -/
  | read (i : Fin tickThreadNum)
  /-- A worker takes the front of its queue out, under its mutex. -/
  | pop (i : Fin tickThreadNum)
  /-- `SendMessage`, and the end of the item. -/
  | send (i : Fin tickThreadNum)

/-- The server of `TickServer::TickServer`. -/
def Relay.init : Relay where
  last_thread_ := ⟨0, by decide⟩
  place := .receiving
  tickThread_ := fun _ => ⟨[], 0, .polling⟩
  pushes := []
  sends := []

/-- `++last_thread_`, modulo the number of the threads. -/
def nextThread (i : Fin tickThreadNum) : Fin tickThreadNum :=
  ⟨(i.val + 1) % tickThreadNum, Nat.mod_lt _ (by decide)⟩

/-- `conn_queue_.front()` and `conn_queue_.pop()`. -/
def TickThread.pop (t : TickThread) : TickThread :=
  match t.conn_queue_ with
  | [] => { t with place := .undefined }
  | ti :: q => { t with conn_queue_ := q, place := .popped ti }

/-- A worker with something new in its queue, in its pipe or in its loop. -/
def Relay.setThread (s : Relay) (i : Fin tickThreadNum) (t : TickThread) : Relay :=
  { s with tickThread_ := Function.update s.tickThread_ i t }

/-- `new TickItem` and `q->push(ti)`. -/
def Relay.push (s : Relay) (msg : List UInt8) : Relay :=
  let t := s.tickThread_ s.last_thread_
  let ti : TickItem := ⟨s.pushes.length, msg⟩
  { s.setThread s.last_thread_ { t with conn_queue_ := t.conn_queue_ ++ [ti] } with
    place := .pushed
    pushes := s.pushes ++ [(s.last_thread_, ti)] }

/-- `write(notify_send_fd(), "", 1)`. -/
def Relay.write (s : Relay) : Relay :=
  let t := s.tickThread_ s.last_thread_
  { s.setThread s.last_thread_ { t with notify := t.notify + 1 } with place := .notified }

/-- `last_thread_++` and `last_thread_ %= TICK_THREAD_NUM`. -/
def Relay.next (s : Relay) : Relay :=
  { s with place := .receiving, last_thread_ := nextThread s.last_thread_ }

/-- `read(notify_receive_fd_, bb, 1)`. -/
def Relay.read (s : Relay) (i : Fin tickThreadNum) : Relay :=
  let t := s.tickThread_ i
  s.setThread i { t with notify := t.notify - 1, place := .woken }

def Relay.pop (s : Relay) (i : Fin tickThreadNum) : Relay :=
  s.setThread i (s.tickThread_ i).pop

/-- `SendMessage(ti->msg(), ti->len())` and `delete(ti)`. -/
def Relay.send (s : Relay) (i : Fin tickThreadNum) (ti : TickItem) : Relay :=
  { s.setThread i { s.tickThread_ i with place := .polling } with sends := s.sends ++ [(i, ti)] }

/-- One step, where it can be taken. -/
def Relay.step (s : Relay) : Action → Option Relay
  | .push msg => if s.place = .receiving then some (s.push msg) else none
  | .write => if s.place = .pushed then some s.write else none
  | .next => if s.place = .notified then some s.next else none
  | .read i =>
      if (s.tickThread_ i).place = .polling ∧ 0 < (s.tickThread_ i).notify then some (s.read i) else none
  | .pop i => if (s.tickThread_ i).place = .woken then some (s.pop i) else none
  | .send i =>
      match (s.tickThread_ i).place with
      | .popped ti => some (s.send i ti)
      | _ => none

/-- The states that the receiver and the workers get to, their steps in any order. -/
def Relay.Reached : Relay → Prop := Lib.Machine.Reached (· = Relay.init) Relay.step fun _ _ => True

/-! ## The queue of one worker -/

/-- The pushes to a worker that it was not notified of. -/
def Relay.unnotified (s : Relay) (i : Fin tickThreadNum) : ℕ :=
  match s.place with
  | .pushed => if i = s.last_thread_ then 1 else 0
  | _ => 0

/-- The bytes that a worker read and whose item it did not take out. -/
def TickThread.unpopped (t : TickThread) : ℕ := if t.place = .woken then 1 else 0

/-- The item that a worker is about to send. -/
def TickThread.held (t : TickThread) : List TickItem :=
  match t.place with
  | .popped ti => [ti]
  | _ => []

/-- The queue of a worker and its pipe. -/
def Relay.channel (s : Relay) (i : Fin tickThreadNum) : Channel TickItem where
  put := on i s.pushes
  queue := (s.tickThread_ i).conn_queue_
  owed := s.unnotified i
  notices := (s.tickThread_ i).notify
  awake := (s.tickThread_ i).unpopped
  held := (s.tickThread_ i).held
  delivered := on i s.sends

variable {s s' : Relay} {act : Action} {i : Fin tickThreadNum}

theorem Relay.unnotified_of_ne (h : i ≠ s.last_thread_) : s.unnotified i = 0 := by
  unfold Relay.unnotified
  rw [if_neg h]
  cases s.place <;> rfl

/-- What a step can be. -/
theorem Relay.step_cases (h : s.step act = some s') :
    (∃ msg, s.place = .receiving ∧ s' = s.push msg) ∨ (s.place = .pushed ∧ s' = s.write) ∨
    (s.place = .notified ∧ s' = s.next) ∨
    (∃ j, (s.tickThread_ j).place = .polling ∧ 0 < (s.tickThread_ j).notify ∧ s' = s.read j) ∨
    (∃ j, (s.tickThread_ j).place = .woken ∧ s' = s.pop j) ∨
    ∃ j ti, (s.tickThread_ j).place = .popped ti ∧ s' = s.send j ti := by
  unfold Relay.step at h
  cases act with
  | push msg =>
      obtain ⟨hplace, h⟩ := Option.ite_none_right_eq_some.mp h
      exact .inl ⟨msg, hplace, (Option.some.inj h).symm⟩
  | write =>
      obtain ⟨hplace, h⟩ := Option.ite_none_right_eq_some.mp h
      exact .inr (.inl ⟨hplace, (Option.some.inj h).symm⟩)
  | next =>
      obtain ⟨hplace, h⟩ := Option.ite_none_right_eq_some.mp h
      exact .inr (.inr (.inl ⟨hplace, (Option.some.inj h).symm⟩))
  | read j =>
      obtain ⟨hplace, h⟩ := Option.ite_none_right_eq_some.mp h
      exact .inr (.inr (.inr (.inl ⟨j, hplace.1, hplace.2, (Option.some.inj h).symm⟩)))
  | pop j =>
      obtain ⟨hplace, h⟩ := Option.ite_none_right_eq_some.mp h
      exact .inr (.inr (.inr (.inr (.inl ⟨j, hplace, (Option.some.inj h).symm⟩))))
  | send j =>
      simp only at h
      split at h
      next ti hplace => exact .inr (.inr (.inr (.inr (.inr ⟨j, ti, hplace, (Option.some.inj h).symm⟩))))
      next => exact absurd h (by simp)

/-- A worker whose thread, notices and items are untouched. -/
theorem channel_other (hthread : s'.tickThread_ i = s.tickThread_ i) (hown : s'.unnotified i = s.unnotified i)
    (hpushes : on i s'.pushes = on i s.pushes) (hsends : on i s'.sends = on i s.sends) :
    Relation.ReflGen Channel.Step (s.channel i) (s'.channel i) := by
  unfold Relay.channel
  rw [hthread, hown, hpushes, hsends]

/-- A worker that takes a step by itself. -/
theorem Relay.channel_eq (s s' : Relay) {t : TickThread} {log : List (Fin tickThreadNum × TickItem)}
    (hthread : s'.tickThread_ i = t) (hsends : s'.sends = log) (howed : s'.unnotified i = s.unnotified i)
    (hpushes : s'.pushes = s.pushes) :
    s'.channel i = { s.channel i with
      queue := t.conn_queue_
      notices := t.notify
      awake := t.unpopped
      held := t.held
      delivered := on i log } := by
  unfold Relay.channel
  rw [hthread, hsends, howed, hpushes]

/-- No worker is past an empty queue, and every queue is in step with its pipe. -/
structure Relay.Sound (s : Relay) : Prop where
  defined : ∀ i, (s.tickThread_ i).place ≠ .undefined
  channel : ∀ i, (s.channel i).Sound
  ids : s.pushes.map (fun p => p.2.id) = List.range s.pushes.length

/-- A worker that has read a byte finds an item. -/
theorem Relay.Sound.queue_ne_nil (h : s.Sound) (hplace : (s.tickThread_ i).place = .woken) :
    (s.tickThread_ i).conn_queue_ ≠ [] := by
  apply (h.channel i).queue_ne_nil
  show 0 < (s.tickThread_ i).unpopped
  rw [TickThread.unpopped, if_pos hplace]
  exact Nat.one_pos

/-- **Each step** is one step of the queue of a worker, and none of the others. -/
theorem Relay.Sound.channel_step (h : s.Sound) (hstep : s.step act = some s') (i : Fin tickThreadNum) :
    Relation.ReflGen Channel.Step (s.channel i) (s'.channel i) := by
  rcases Relay.step_cases hstep with ⟨msg, hplace, rfl⟩ | ⟨hplace, rfl⟩ | ⟨hplace, rfl⟩ | ⟨j, hplace, hpos, rfl⟩ |
    ⟨j, hplace, rfl⟩ | ⟨j, ti, hplace, rfl⟩
  · by_cases hi : i = s.last_thread_
    · subst hi
      have henter := Channel.Step.enter (s.channel s.last_thread_) ⟨s.pushes.length, msg⟩
      refine .single ?_
      simpa [Relay.channel, Relay.push, Relay.setThread, Relay.unnotified, hplace, TickThread.unpopped,
        TickThread.held] using henter
    · refine channel_other (Function.update_of_ne hi _ _) ?_ (on_concat_of_ne (Ne.symm hi) _ _) rfl
      rw [Relay.unnotified_of_ne hi, Relay.unnotified_of_ne (s := s.push msg) hi]
  · by_cases hi : i = s.last_thread_
    · subst hi
      have hnotify := Channel.Step.notify (s.channel s.last_thread_) (by
        simp [Relay.channel, Relay.unnotified, hplace])
      refine .single ?_
      simpa [Relay.channel, Relay.write, Relay.setThread, Relay.unnotified, hplace, TickThread.unpopped,
        TickThread.held] using hnotify
    · refine channel_other (Function.update_of_ne hi _ _) ?_ rfl rfl
      rw [Relay.unnotified_of_ne hi, Relay.unnotified_of_ne (s := s.write) hi]
  · refine channel_other rfl ?_ rfl rfl
    simp [Relay.next, Relay.unnotified, hplace]
  · by_cases hi : i = j
    · subst hi
      have hwake := Channel.Step.wake (s.channel i) hpos
      rw [Relay.channel_eq s (s.read i) (Function.update_self _ _ _) (show _ = s.sends from rfl) rfl rfl]
      refine .single ?_
      simpa [Relay.channel, hplace, TickThread.unpopped, TickThread.held] using hwake
    · exact channel_other (Function.update_of_ne hi _ _) rfl rfl rfl
  · by_cases hi : i = j
    · subst hi
      obtain ⟨ti, q, hqueue⟩ := List.exists_cons_of_ne_nil (h.queue_ne_nil hplace)
      have htake := Channel.Step.take (s.channel i) ti q (by
        simp [Relay.channel, TickThread.unpopped, hplace]) hqueue
      rw [Relay.channel_eq s (s.pop i) (Function.update_self _ _ _) (show _ = s.sends from rfl) rfl rfl]
      refine .single ?_
      simpa [Relay.channel, Relay.pop, hplace, TickThread.pop, hqueue, TickThread.unpopped,
        TickThread.held] using htake
    · exact channel_other (Function.update_of_ne hi _ _) rfl rfl rfl
  · by_cases hi : i = j
    · subst hi
      have hdeliver := Channel.Step.deliver (s.channel i) ti [] (by
        simp [Relay.channel, TickThread.held, hplace])
      rw [Relay.channel_eq s (s.send i ti) (Function.update_self _ _ _) (show _ = s.sends ++ [(i, ti)] from rfl) rfl
        rfl]
      refine .single ?_
      simpa [Relay.channel, Relay.send, hplace, TickThread.unpopped, TickThread.held] using hdeliver
    · exact channel_other (Function.update_of_ne hi _ _) rfl rfl (on_concat_of_ne (Ne.symm hi) _ _)

/-! ## Runs -/

/-- A worker whose place is defined leaves the places of all workers so. -/
theorem defined_update {threads : Fin tickThreadNum → TickThread} (h : ∀ i, (threads i).place ≠ .undefined)
    (j : Fin tickThreadNum) {t : TickThread} (ht : t.place ≠ .undefined) (i : Fin tickThreadNum) :
    (Function.update threads j t i).place ≠ .undefined := by
  rw [Function.update_apply]
  split_ifs
  · exact ht
  · exact h i

/-- No step leads past an empty queue. -/
theorem Relay.Sound.defined_step (h : s.Sound) (hstep : s.step act = some s') (i : Fin tickThreadNum) :
    (s'.tickThread_ i).place ≠ .undefined := by
  rcases Relay.step_cases hstep with ⟨msg, -, rfl⟩ | ⟨-, rfl⟩ | ⟨-, rfl⟩ | ⟨j, -, -, rfl⟩ | ⟨j, hplace, rfl⟩ |
    ⟨j, ti, -, rfl⟩
  · refine defined_update h.defined _ ?_ i
    exact h.defined s.last_thread_
  · refine defined_update h.defined _ ?_ i
    exact h.defined s.last_thread_
  · exact h.defined i
  · exact defined_update h.defined j WorkerAt.noConfusion i
  · obtain ⟨ti, q, hqueue⟩ := List.exists_cons_of_ne_nil (h.queue_ne_nil hplace)
    refine defined_update h.defined j ?_ i
    rw [TickThread.pop, hqueue]
    exact WorkerAt.noConfusion
  · exact defined_update h.defined j WorkerAt.noConfusion i

/-- The items are numbered. -/
theorem Relay.Sound.ids_step (h : s.Sound) (hstep : s.step act = some s') :
    s'.pushes.map (fun p => p.2.id) = List.range s'.pushes.length := by
  rcases Relay.step_cases hstep with ⟨msg, -, rfl⟩ | ⟨-, rfl⟩ | ⟨-, rfl⟩ | ⟨j, -, -, rfl⟩ | ⟨j, -, rfl⟩ |
    ⟨j, ti, -, rfl⟩
  · rw [Relay.push, List.map_append, h.ids, List.length_append, List.length_singleton, List.range_succ]
    rfl
  all_goals exact h.ids

theorem Relay.Sound.step (h : s.Sound) (hstep : s.step act = some s') : s'.Sound where
  defined := h.defined_step hstep
  channel i := by
    obtain heq | hone := Relation.reflGen_iff _ _ _ |>.mp (h.channel_step hstep i)
    · rw [heq]
      exact h.channel i
    · exact (h.channel i).step hone
  ids := h.ids_step hstep

theorem Relay.init_sound : Relay.init.Sound where
  defined _ := WorkerAt.noConfusion
  channel _ := ⟨rfl, rfl⟩
  ids := rfl

theorem Relay.Reached.sound (h : s.Reached) : s.Sound := by
  refine Lib.Machine.Reached.invariant ?_ (fun s act s' hs _ hstep => hs.step hstep) h
  rintro s rfl
  exact Relay.init_sound

/-- Items with different numbers are different. -/
theorem Relay.Sound.nodup_pushes (h : s.Sound) : (s.pushes.map Prod.snd).Nodup := by
  have hnodup : ((s.pushes.map Prod.snd).map TickItem.id).Nodup := by
    rw [List.map_map]
    exact h.ids ▸ List.nodup_range
  exact List.Nodup.of_map TickItem.id hnodup

/-- **The relay**, after any steps in any order: a worker that has read a byte finds an item in its queue;
items are sent by the worker to whom they were pushed, once at most and in their order; and a queue has as
many items as the pipe has bytes, together with the push without its byte and the byte without its pop. -/
theorem relay_inStep (h : s.Reached) :
    (∀ i, (s.tickThread_ i).place ≠ .undefined ∧
      ((s.tickThread_ i).place = .woken → (s.tickThread_ i).conn_queue_ ≠ [])) ∧
    (s.pushes.map Prod.snd).Nodup ∧ (s.sends.map Prod.snd).Nodup ∧ (∀ p ∈ s.sends, p ∈ s.pushes) ∧
    (∀ i, on i s.sends <+: on i s.pushes) ∧
    ∀ i, (s.tickThread_ i).conn_queue_.length =
      (s.tickThread_ i).notify + s.unnotified i + (s.tickThread_ i).unpopped := by
  have hsound := h.sound
  have horder : ∀ i, on i s.sends <+: on i s.pushes := fun i => (hsound.channel i).delivered_isPrefixOf
  refine ⟨fun i => ⟨hsound.defined i, hsound.queue_ne_nil⟩, hsound.nodup_pushes,
    nodup_of_on horder hsound.nodup_pushes, fun p hp => mem_of_on horder hp, horder, fun i => ?_⟩
  exact (hsound.channel i).length_eq

/-- Two messages, the second one pushed before the first one is sent. -/
theorem relay_inStep_two : ∃ s : Relay, s.Reached ∧
    s.sends = [(⟨0, by decide⟩, ⟨0, [65]⟩), (⟨1, by decide⟩, ⟨1, [66]⟩)] ∧ (s.sends.map Prod.snd).Nodup := by
  let first : Fin tickThreadNum := ⟨0, by decide⟩
  let second : Fin tickThreadNum := ⟨1, by decide⟩
  let acts : List Action := [.push [65], .write, .next, .read first, .push [66], .pop first, .write,
    .send first, .next, .read second, .pop second, .send second]
  have hrun : (acts.foldlM (fun s act => if True then Relay.step s act else none) Relay.init).map
      (fun s => s.sends) = some [(first, ⟨0, [65]⟩), (second, ⟨1, [66]⟩)] := by decide
  obtain ⟨s, hs, hsends⟩ := Option.map_eq_some_iff.mp hrun
  have hreached : s.Reached := Reached.run (.start Relay.init rfl) acts hs
  exact ⟨s, hreached, hsends, (relay_inStep hreached).2.2.1⟩

/-- **Nothing is lost**: when the receiver and the workers wait for something to do, all that was pushed is
sent. -/
theorem relay_delivers (h : s.Reached) (hplace : s.place ≠ .pushed) (i : Fin tickThreadNum)
    (hpoll : (s.tickThread_ i).place = .polling) (hpipe : (s.tickThread_ i).notify = 0) :
    on i s.sends = on i s.pushes := by
  refine (h.sound.channel i).delivered_eq hpipe ?_ ?_ ?_
  · show s.unnotified i = 0
    unfold Relay.unnotified
    cases hp : s.place with
    | pushed => exact absurd hp hplace
    | receiving => rfl
    | notified => rfl
  · show (s.tickThread_ i).unpopped = 0
    simp [TickThread.unpopped, hpoll]
  · show (s.tickThread_ i).held = []
    simp [TickThread.held, hpoll]

end Asenal.Tick
