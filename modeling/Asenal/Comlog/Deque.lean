import Asenal.Comlog.Queue

/-!
# The queue from both ends

The queue has the other two operations too: the back takes values in, and the front gives them out. The
cursors then run both ways, and meet when the array is full: there is no spare cell between them.

* `pushBack_spec`, `popFront_spec` — what the operations at the other ends do to the contents.
* `step_deque` — an operation does to the queue what it does to a bounded list.
* `xqueue_deque` — so do any operations after `create`, and all cells they use are in the array.
-/

namespace Asenal.Comlog

open Asenal.Lib.Memory Asenal.Lib.Ring

variable {T : Type}

/-! ## The other operations -/

/-- `if (++pos == _capacity) { pos = 0; }`. -/
def after (capacity pos : ℤ) : ℤ := if pos + 1 = capacity then 0 else pos + 1

/-- Source: `XQueue::push_back`. -/
def XQueue.pushBack (q : XQueue T) (val : T) : ℤ × XQueue T :=
  if q.size = q.capacity then (-1, q)
  else
    (0, { q with
      array := Function.update q.array q.rear.toNat val
      size := q.size + 1
      rear := after q.capacity q.rear })

/-- Source: `XQueue::pop_front`; no value is its error. -/
def XQueue.popFront (q : XQueue T) : Option T × XQueue T :=
  if q.size = 0 then (none, q)
  else
    let front := after q.capacity q.front
    (some (q.array front.toNat), { q with front := front, size := q.size - 1 })

/-- Source: `XQueue::clear`. -/
def XQueue.clear (q : XQueue T) : XQueue T := { q with size := 0, front := 0, rear := 1 }

theorem after_eq {cap pos : ℕ} (h : pos < cap) : after cap pos = ((pos + 1) % cap : ℕ) := by
  unfold after
  rcases Nat.lt_or_ge (pos + 1) cap with hlt | hge
  · rw [Nat.mod_eq_of_lt hlt, if_neg (by omega)]
    omega
  · have hend : pos + 1 = cap := by omega
    rw [hend, Nat.mod_self, if_pos (by omega)]
    rfl

/-- **A push at the back** puts a value in front of the oldest one, if there is room. -/
theorem pushBack_spec {q : XQueue T} {l : List T} (h : Queued q l) (val : T) :
    if (l.length : ℤ) < q.capacity then
      (q.pushBack val).1 = 0 ∧ Queued (q.pushBack val).2 (val :: l)
    else q.pushBack val = (-1, q) := by
  obtain ⟨cap, front, array, rfl, hfront, hroom, hcontent⟩ := h.eq
  dsimp only
  unfold XQueue.pushBack
  dsimp only
  split_ifs with hlt hfull hfull
  · omega
  · refine ⟨rfl, ?_⟩
    have hcap : 0 < cap := by omega
    have hring : ring (Function.update array ((front + 1 + l.length) % cap) val) cap (front + 1)
        (val :: l).length = (val :: l).reverse := by
      rw [List.length_cons, ring_update_back array (front + 1) (show l.length < cap by omega) val,
        hcontent, List.reverse_cons]
    have hq := queued_mk hfront (show (val :: l).length ≤ cap by simp only [List.length_cons]; omega)
      hring
    rw [after_eq (Nat.mod_lt _ hcap), Nat.mod_add_mod, Nat.add_assoc (front + 1), Int.toNat_natCast]
    exact hq
  · rfl
  · omega

/-- **A pop at the front** takes the youngest value. -/
theorem popFront_spec {q : XQueue T} {val : T} {l : List T} (h : Queued q (l ++ [val])) :
    q.popFront.1 = some val ∧ Queued q.popFront.2 l := by
  obtain ⟨cap, front, array, rfl, hfront, hroom, hcontent⟩ := h.eq
  have hcap : 0 < cap := by omega
  have hlen : (l ++ [val]).length = l.length + 1 := List.length_append
  rw [hlen, ring_succ, List.reverse_append] at hcontent
  obtain ⟨hval, hrest⟩ := List.cons.inj hcontent
  unfold XQueue.popFront
  dsimp only
  rw [if_neg (by omega), after_eq hfront, Int.toNat_natCast]
  refine ⟨congrArg some hval, ?_⟩
  have hsize : ((l ++ [val]).length : ℤ) - 1 = l.length := by omega
  have hrear : (front + 1 + (l ++ [val]).length) % cap =
      ((front + 1) % cap + 1 + l.length) % cap := by
    rw [hlen, Nat.add_assoc (_ % cap), Nat.mod_add_mod, Nat.add_comm 1]
  rw [hsize, hrear]
  apply queued_mk (Nat.mod_lt _ hcap) (by omega)
  rw [← ring_mod, Nat.mod_add_mod, ring_mod]
  exact hrest

/-- A pop at the front of an empty queue. -/
theorem popFront_nil {q : XQueue T} (h : Queued q []) : q.popFront = (none, q) := by
  unfold XQueue.popFront
  rw [if_pos]
  exact h.size

/-- A queue that is cleared holds nothing. -/
theorem clear_spec {q : XQueue T} (h : 2 ≤ q.capacity) : Queued q.clear [] := by
  obtain ⟨q', hq', hempty⟩ := queued_create q.array h
  obtain rfl : q.clear = q' := Option.some.inj ((if_neg (not_lt.mpr h)).symm.trans hq')
  exact hempty

/-! ## Calls -/

/-- A call; `pop_backs` is asked for at most `nums` values. -/
inductive QueueOp (T : Type)
  | pushFront (val : T)
  | pushBack (val : T)
  | popFront
  | popBack
  | popBacks (nums : ℤ)
  | clear

/-- What a call returns: a push its return value, a pop the value if there is one, and `pop_backs` the
values it has stored. -/
inductive QueueAnswer (T : Type)
  | pushed (ret : ℤ)
  | popped (val : Option T)
  | batch (vals : List T)
  | cleared
  deriving DecidableEq

/-- A push or a pop that fails. -/
def QueueAnswer.isError : QueueAnswer T → Bool
  | .pushed ret => ret != 0
  | .popped val => val.isNone
  | .batch _ => false
  | .cleared => false

/-- A call on a queue. -/
def XQueue.step (q : XQueue T) : QueueOp T → QueueAnswer T × XQueue T
  | .pushFront val => (.pushed (q.pushFront val).1, (q.pushFront val).2)
  | .pushBack val => (.pushed (q.pushBack val).1, (q.pushBack val).2)
  | .popFront => (.popped q.popFront.1, q.popFront.2)
  | .popBack => (.popped q.popBack.1, q.popBack.2)
  | .popBacks nums => (.batch (q.popBacks nums.toNat).1, (q.popBacks nums.toNat).2)
  | .clear => (.cleared, q.clear)

/-- The index at which `pop_back` reads `_array`, if it does. -/
def XQueue.popBackCells (q : XQueue T) : List ℤ :=
  if q.size = 0 then [] else [before q.capacity q.rear]

/-- The indices at which `pop_backs` reads `_array`. -/
def XQueue.popBacksCells (q : XQueue T) : ℕ → List ℤ
  | 0 => []
  | nums + 1 => q.popBackCells ++ q.popBack.2.popBacksCells nums

/-- The indices at which a call reads or writes `_array`. -/
def XQueue.cells (q : XQueue T) : QueueOp T → List ℤ
  | .pushFront _ => if q.size = q.capacity then [] else [q.front]
  | .pushBack _ => if q.size = q.capacity then [] else [q.rear]
  | .popFront => if q.size = 0 then [] else [after q.capacity q.front]
  | .popBack => q.popBackCells
  | .popBacks nums => q.popBacksCells nums.toNat
  | .clear => []

/-- Calls one after the other, with the answers to them. -/
def XQueue.run : XQueue T → List (QueueOp T) → List (QueueAnswer T) × XQueue T
  | q, [] => ([], q)
  | q, op :: ops =>
      let r := q.step op
      let s := r.2.run ops
      (r.1 :: s.1, s.2)

/-! ## What they are meant to do -/

/-- What a call is meant to do to a list of at most `cap` values, which begins at the front. -/
def dequeStep (cap : ℤ) (c : List T) : QueueOp T → QueueAnswer T × List T
  | .pushFront val => if (c.length : ℤ) < cap then (.pushed 0, val :: c) else (.pushed (-1), c)
  | .pushBack val => if (c.length : ℤ) < cap then (.pushed 0, c ++ [val]) else (.pushed (-1), c)
  | .popFront => (.popped c.head?, c.tail)
  | .popBack => (.popped c.getLast?, c.dropLast)
  | .popBacks nums => (.batch (c.reverse.take nums.toNat), c.take (c.length - nums.toNat))
  | .clear => (.cleared, [])

/-- What calls one after the other are meant to do. -/
def dequeRun (cap : ℤ) (c : List T) : List (QueueOp T) → List (QueueAnswer T) × List T
  | [] => ([], c)
  | op :: ops =>
      let r := dequeStep cap c op
      let s := dequeRun cap r.2 ops
      (r.1 :: s.1, s.2)

/-- The queue holds the values `c`, from its front to its back. -/
def Stores (q : XQueue T) (c : List T) : Prop := 2 ≤ q.capacity ∧ Queued q c.reverse

variable {q : XQueue T} {c : List T}

/-! ## The queue is one -/

/-- No call changes the capacity. -/
theorem capacity_popBacks (q : XQueue T) (nums : ℕ) :
    (q.popBacks nums).2.capacity = q.capacity := by
  induction nums generalizing q with
  | zero => rfl
  | succ nums ih =>
      unfold XQueue.popBacks XQueue.popBack
      split_ifs
      · rfl
      · exact ih _

theorem capacity_step (q : XQueue T) (op : QueueOp T) : (q.step op).2.capacity = q.capacity := by
  cases op with
  | pushFront val => unfold XQueue.step XQueue.pushFront; dsimp only; split_ifs <;> rfl
  | pushBack val => unfold XQueue.step XQueue.pushBack; dsimp only; split_ifs <;> rfl
  | popFront => unfold XQueue.step XQueue.popFront; dsimp only; split_ifs <;> rfl
  | popBack => unfold XQueue.step XQueue.popBack; dsimp only; split_ifs <;> rfl
  | popBacks nums => exact capacity_popBacks q nums.toNat
  | clear => rfl

/-- What is left of a list when as many values as there are asked for are taken from its end. -/
theorem reverse_drop (l : List T) (n : ℕ) : (l.drop n).reverse = l.reverse.take (l.length - n) := by
  rw [List.take_reverse]
  rcases Nat.le_total n l.length with h | h
  · rw [Nat.sub_sub_self h]
  · rw [List.drop_eq_nil_of_le h, Nat.sub_eq_zero_of_le h, Nat.sub_zero, List.drop_length]

/-- **A call** answers as it is meant to, and the queue then holds what it is meant to hold. -/
theorem step_deque (h : Stores q c) (op : QueueOp T) :
    (q.step op).1 = (dequeStep q.capacity c op).1 ∧
      Stores (q.step op).2 (dequeStep q.capacity c op).2 := by
  obtain ⟨hcap, hq⟩ := h
  unfold Stores
  rw [capacity_step]
  cases op with
  | pushFront val =>
      have hpush := pushFront_spec hq val
      rw [List.length_reverse] at hpush
      unfold XQueue.step dequeStep
      dsimp only
      split_ifs at hpush ⊢
      · rw [List.reverse_cons, hpush.1]
        exact ⟨rfl, hcap, hpush.2⟩
      · rw [hpush]
        exact ⟨rfl, hcap, hq⟩
  | pushBack val =>
      have hpush := pushBack_spec hq val
      rw [List.length_reverse] at hpush
      unfold XQueue.step dequeStep
      dsimp only
      split_ifs at hpush ⊢
      · rw [List.reverse_append, hpush.1]
        exact ⟨rfl, hcap, hpush.2⟩
      · rw [hpush]
        exact ⟨rfl, hcap, hq⟩
  | popFront =>
      unfold XQueue.step dequeStep
      dsimp only
      cases c with
      | nil =>
          rw [popFront_nil hq]
          exact ⟨rfl, hcap, hq⟩
      | cons val c =>
          rw [List.reverse_cons] at hq
          obtain ⟨hval, hrest⟩ := popFront_spec hq
          rw [hval]
          exact ⟨rfl, hcap, hrest⟩
  | popBack =>
      unfold XQueue.step dequeStep
      dsimp only
      rcases List.eq_nil_or_concat c with rfl | ⟨c, val, rfl⟩
      · rw [popBack_nil hq]
        exact ⟨rfl, hcap, hq⟩
      · rw [List.concat_eq_append, List.reverse_append] at hq
        obtain ⟨hval, hrest⟩ := popBack_spec hq
        rw [hval, List.concat_eq_append, List.getLast?_concat, List.dropLast_concat]
        exact ⟨rfl, hcap, hrest⟩
  | popBacks nums =>
      obtain ⟨hvals, hrest⟩ := popBacks_spec hq nums.toNat
      unfold XQueue.step dequeStep
      dsimp only
      have hleft : (c.take (c.length - nums.toNat)).reverse = c.reverse.drop nums.toNat := by
        have hdrop := reverse_drop c.reverse nums.toNat
        rw [List.reverse_reverse, List.length_reverse] at hdrop
        rw [← hdrop, List.reverse_reverse]
      rw [hvals, hleft]
      exact ⟨rfl, hcap, hrest⟩
  | clear => exact ⟨rfl, hcap, clear_spec hcap⟩

/-- The cell that `pop_back` reads is in the array. -/
theorem popBackCells_lt {l : List T} (h : Queued q l) :
    ∀ i ∈ q.popBackCells, 0 ≤ i ∧ i < q.capacity := by
  obtain ⟨cap, front, array, rfl, hfront, -, -⟩ := h.eq
  have hcap : 0 < cap := by omega
  intro i hi
  unfold XQueue.popBackCells at hi
  split_ifs at hi
  · exact absurd hi List.not_mem_nil
  · rw [before_eq (Nat.mod_lt _ hcap), List.mem_singleton] at hi
    rw [hi]
    exact ⟨Int.natCast_nonneg _, Int.ofNat_lt.mpr (Nat.mod_lt _ hcap)⟩

theorem popBacksCells_lt {l : List T} (h : Queued q l) (nums : ℕ) :
    ∀ i ∈ q.popBacksCells nums, 0 ≤ i ∧ i < q.capacity := by
  induction nums generalizing q l with
  | zero => exact fun i hi => absurd hi List.not_mem_nil
  | succ nums ih =>
      intro i hi
      rcases List.mem_append.mp hi with hfirst | hlater
      · exact popBackCells_lt h i hfirst
      · have hpop : ∃ l', Queued q.popBack.2 l' := by
          cases l with
          | nil =>
              rw [popBack_nil h]
              exact ⟨[], h⟩
          | cons val l => exact ⟨l, (popBack_spec h).2⟩
        obtain ⟨l', hl'⟩ := hpop
        rw [← capacity_step q .popBack]
        exact ih hl' i hlater

/-- **The cells** that a call uses are in the array. -/
theorem cells_lt (h : Stores q c) (op : QueueOp T) :
    ∀ i ∈ q.cells op, 0 ≤ i ∧ i < q.capacity := by
  obtain ⟨-, hq⟩ := h
  have hpos := hq.front_nonneg.trans_lt hq.front_lt
  have hrear : 0 ≤ q.rear ∧ q.rear < q.capacity := by
    obtain ⟨cap, front, array, rfl, hfront, -, -⟩ := hq.eq
    exact ⟨Int.natCast_nonneg _, Int.ofNat_lt.mpr (Nat.mod_lt _ (by omega))⟩
  intro i hi
  cases op with
  | pushFront val =>
      unfold XQueue.cells at hi
      dsimp only at hi
      split_ifs at hi
      · exact absurd hi List.not_mem_nil
      · rw [List.mem_singleton.mp hi]
        exact ⟨hq.front_nonneg, hq.front_lt⟩
  | pushBack val =>
      unfold XQueue.cells at hi
      dsimp only at hi
      split_ifs at hi
      · exact absurd hi List.not_mem_nil
      · rw [List.mem_singleton.mp hi]
        exact hrear
  | popFront =>
      unfold XQueue.cells after at hi
      dsimp only at hi
      have hfront := hq.front_lt
      have hnonneg := hq.front_nonneg
      split_ifs at hi
      · exact absurd hi List.not_mem_nil
      · rw [List.mem_singleton.mp hi]
        exact ⟨le_rfl, hpos⟩
      · rw [List.mem_singleton.mp hi]
        omega
  | popBack => exact popBackCells_lt hq i hi
  | popBacks nums => exact popBacksCells_lt hq nums.toNat i hi
  | clear => exact absurd hi List.not_mem_nil

/-- A call that fails changes nothing. -/
theorem step_error (q : XQueue T) {op : QueueOp T} (h : (q.step op).1.isError = true) :
    (q.step op).2 = q := by
  cases op with
  | pushFront val =>
      unfold XQueue.step XQueue.pushFront at h ⊢
      split_ifs at h ⊢
      · rfl
      · exact absurd h Bool.false_ne_true
  | pushBack val =>
      unfold XQueue.step XQueue.pushBack at h ⊢
      split_ifs at h ⊢
      · rfl
      · exact absurd h Bool.false_ne_true
  | popFront =>
      unfold XQueue.step XQueue.popFront at h ⊢
      split_ifs at h ⊢
      · rfl
      · exact absurd h Bool.false_ne_true
  | popBack =>
      unfold XQueue.step XQueue.popBack at h ⊢
      split_ifs at h ⊢
      · rfl
      · exact absurd h Bool.false_ne_true
  | popBacks nums => exact absurd h Bool.false_ne_true
  | clear => exact absurd h Bool.false_ne_true

/-- **Calls one after the other** answer as they are meant to. -/
theorem run_deque (h : Stores q c) (ops : List (QueueOp T)) :
    (q.run ops).1 = (dequeRun q.capacity c ops).1 ∧
      Stores (q.run ops).2 (dequeRun q.capacity c ops).2 ∧ (q.run ops).2.capacity = q.capacity := by
  induction ops generalizing q c with
  | nil => exact ⟨rfl, h, rfl⟩
  | cons op ops ih =>
      obtain ⟨hanswer, hstores⟩ := step_deque h op
      obtain ⟨hanswers, hend, hcap⟩ := ih hstores
      rw [capacity_step] at hanswers hend hcap
      exact ⟨List.cons_eq_cons.mpr ⟨hanswer, hanswers⟩, hend, hcap⟩

/-- **The queue is a bounded deque**: after `create` any calls answer as they do on a list of at most
`qcap` values, what the queue then holds is that list, and the next call uses cells of the array only
and changes nothing if it fails. -/
theorem xqueue_deque (junk : Mem T) {qcap : ℤ} (h : 2 ≤ qcap) (ops : List (QueueOp T)) :
    ∃ q, XQueue.create junk qcap = some q ∧
      (q.run ops).1 = (dequeRun qcap [] ops).1 ∧
      Stores (q.run ops).2 (dequeRun qcap [] ops).2 ∧
      ∀ op, (∀ i ∈ (q.run ops).2.cells op, 0 ≤ i ∧ i < qcap) ∧
        (((q.run ops).2.step op).1.isError = true → ((q.run ops).2.step op).2 = (q.run ops).2) := by
  obtain ⟨q, hq, hempty⟩ := queued_create junk h
  obtain rfl : (⟨qcap, 0, 0, 1, junk⟩ : XQueue T) = q :=
    Option.some.inj ((if_neg (not_lt.mpr h)).symm.trans hq)
  obtain ⟨hanswers, hstores, hcap⟩ := run_deque (c := []) ⟨h, hempty⟩ ops
  refine ⟨_, hq, hanswers, hstores, fun op => ⟨?_, step_error _⟩⟩
  have hcells := cells_lt hstores op
  rw [hcap] at hcells
  exact hcells

/-- A queue of two values, full and used from both ends. -/
theorem xqueue_deque_two : ∃ q, XQueue.create (fun _ => 0) 2 = some q ∧
    (q.run [.pushFront 1, .pushBack 2, .pushBack 3, .popFront, .popFront, .popFront]).1 =
      [.pushed 0, .pushed 0, .pushed (-1), .popped (some 1), .popped (some 2), .popped none] := by
  obtain ⟨q, hq, hanswers, -⟩ := xqueue_deque (fun _ => 0) (show (2 : ℤ) ≤ 2 by decide)
    [.pushFront 1, .pushBack 2, .pushBack 3, .popFront, .popFront, .popFront]
  exact ⟨q, hq, hanswers.trans (by decide)⟩

end Asenal.Comlog
