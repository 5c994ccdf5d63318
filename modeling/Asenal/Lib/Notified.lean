import Mathlib.Data.List.Nodup
import Mathlib.Tactic.TypeStar

/-!
# Queues with notices

One side puts entries into a queue and then writes a notice for each of them; the other side reads a notice
and then takes an entry out. Nothing keeps the two sides in step but the number of the notices.

* `Channel.Step` — what the sides do, one step at a time, in any order.
* `Channel.Sound.step` — as many entries as notices, written and still to be written, read and not yet used;
  and the entries come out as they were put in.
* `Channel.Sound.queue_ne_nil` — whoever has read a notice finds an entry.
* `nodup_of_on` — where several channels share a log, what is delivered in order on each of them is delivered
  once in all.
-/

namespace Asenal.Lib.Notified

variable {α ι : Type*}

/-- A queue with its notices, and what went through it. -/
structure Channel (α : Type*) where
  /-- All entries that were put in. -/
  put : List α
  queue : List α
  /-- Entries that were put in, without their notice yet. -/
  owed : ℕ
  notices : ℕ
  /-- Notices that were read, without an entry taken out yet. -/
  awake : ℕ
  /-- Entries that were taken out, and are not delivered yet. -/
  held : List α
  delivered : List α

namespace Channel

/-- The steps of both sides. -/
inductive Step : Channel α → Channel α → Prop
  | enter (c : Channel α) (x : α) :
      Step c { c with put := c.put ++ [x], queue := c.queue ++ [x], owed := c.owed + 1 }
  | notify (c : Channel α) (h : 0 < c.owed) :
      Step c { c with owed := c.owed - 1, notices := c.notices + 1 }
  | wake (c : Channel α) (h : 0 < c.notices) :
      Step c { c with notices := c.notices - 1, awake := c.awake + 1 }
  | take (c : Channel α) (x : α) (l : List α) (h : 0 < c.awake) (hqueue : c.queue = x :: l) :
      Step c { c with queue := l, awake := c.awake - 1, held := c.held ++ [x] }
  | deliver (c : Channel α) (x : α) (l : List α) (hheld : c.held = x :: l) :
      Step c { c with held := l, delivered := c.delivered ++ [x] }

/-- The queue is as long as its notices say, and no entry is lost, doubled or overtaken. -/
structure Sound (c : Channel α) : Prop where
  length_eq : c.queue.length = c.notices + c.owed + c.awake
  put_eq : c.delivered ++ (c.held ++ c.queue) = c.put

variable {c c' : Channel α}

/-- A step keeps the books. -/
theorem Sound.step (h : c.Sound) (hstep : Step c c') : c'.Sound := by
  have hlength := h.length_eq
  have hput := h.put_eq
  cases hstep with
  | enter x =>
      constructor
      · simp only [List.length_append, List.length_singleton]
        omega
      · simp only [← List.append_assoc] at hput ⊢
        rw [hput]
  | notify hpos =>
      refine ⟨?_, hput⟩
      simp only
      omega
  | wake hpos =>
      refine ⟨?_, hput⟩
      simp only
      omega
  | take x l hpos hqueue =>
      rw [hqueue] at hlength hput
      constructor
      · rw [List.length_cons] at hlength
        simp only
        omega
      · simp only [List.append_assoc, List.singleton_append]
        exact hput
  | deliver x l hheld =>
      rw [hheld] at hput
      refine ⟨hlength, ?_⟩
      simp only [List.append_assoc, List.singleton_append]
      exact hput

/-- Whoever is awake finds something in the queue. -/
theorem Sound.queue_ne_nil (h : c.Sound) (hawake : 0 < c.awake) : c.queue ≠ [] := by
  intro hnil
  have hlength := h.length_eq
  rw [hnil, List.length_nil] at hlength
  omega

/-- What was delivered was put first. -/
theorem Sound.delivered_isPrefixOf (h : c.Sound) : c.delivered <+: c.put :=
  ⟨_, h.put_eq⟩

/-- When there is nothing under way, everything is delivered. -/
theorem Sound.delivered_eq (h : c.Sound) (hnotices : c.notices = 0) (howed : c.owed = 0)
    (hawake : c.awake = 0) (hheld : c.held = []) : c.delivered = c.put := by
  have hqueue : c.queue = [] := List.eq_nil_of_length_eq_zero (by have := h.length_eq; omega)
  have hput := h.put_eq
  rwa [hheld, hqueue, List.append_nil, List.append_nil] at hput

end Channel

/-! ## Logs of several channels -/

variable [DecidableEq ι]

/-- The entries of one channel. -/
def on (i : ι) (log : List (ι × α)) : List α := (log.filter fun p => p.1 = i).map Prod.snd

/-- What one has of two logs, one behind the other. -/
theorem on_append (i : ι) (log log' : List (ι × α)) : on i (log ++ log') = on i log ++ on i log' := by
  rw [on, List.filter_append, List.map_append, on, on]

/-- One more entry of its own. -/
@[simp] theorem on_concat_self (i : ι) (log : List (ι × α)) (x : α) :
    on i (log ++ [(i, x)]) = on i log ++ [x] := by
  rw [on_append]
  congr 1
  simp [on]

/-- One more entry of another. -/
theorem on_concat_of_ne {i j : ι} (h : j ≠ i) (log : List (ι × α)) (x : α) :
    on i (log ++ [(j, x)]) = on i log := by
  rw [on_append]
  simp [on, h]

/-- What one has stands in the log under its name. -/
theorem mem_on {i : ι} {log : List (ι × α)} {x : α} : x ∈ on i log ↔ (i, x) ∈ log := by
  simp [on]

/-- Entries that differ differ on each channel. -/
theorem nodup_on {log : List (ι × α)} (h : (log.map Prod.snd).Nodup) (i : ι) : (on i log).Nodup :=
  h.sublist (List.filter_sublist.map Prod.snd)

variable {puts deliveries : List (ι × α)}

/-- What is delivered to anyone was put. -/
theorem mem_of_on (h : ∀ i, on i deliveries <+: on i puts) {p : ι × α} (hp : p ∈ deliveries) : p ∈ puts :=
  mem_on.mp ((h p.1).subset (mem_on.mpr hp))

/-- **Once in all**: what each channel delivers in the order of its entries has no entry twice. -/
theorem nodup_of_on (h : ∀ i, on i deliveries <+: on i puts) (hputs : (puts.map Prod.snd).Nodup) :
    (deliveries.map Prod.snd).Nodup := by
  classical
  have hinj := List.inj_on_of_nodup_map hputs
  refine List.Nodup.map_on (fun p hp q hq heq => hinj (mem_of_on h hp) (mem_of_on h hq) heq) ?_
  rw [List.nodup_iff_count_le_one]
  intro p
  have hnodup : (deliveries.filter fun q => q.1 = p.1).Nodup :=
    List.Nodup.of_map Prod.snd ((nodup_on hputs p.1).sublist (h p.1).sublist)
  rw [← List.count_filter (p := fun q => q.1 = p.1) (by simp)]
  exact List.nodup_iff_count_le_one.mp hnodup p

end Asenal.Lib.Notified
