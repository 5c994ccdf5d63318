import Mathlib.Algebra.Order.Ring.Int
import Asenal.Lib.Ring

/-!
# The queue of the log appenders: `XQueue`

A bounded queue in an array that is used as a ring. Records are put in front of the contents and are
taken from their back; both positions count down, and jump to the end of the array behind its beginning.

* `pushFront_spec`, `popBack_spec`, `popBacks_spec` — what the operations do to the contents.
-/

namespace Asenal.Comlog

open Asenal.Lib.Memory Asenal.Lib.Ring

variable {T : Type}

/-- Source: `xqueue.h` `XQueue`. -/
structure XQueue (T : Type) where
  capacity : ℤ
  size : ℤ
  front : ℤ
  rear : ℤ
  array : Mem T

/-- A new queue, in an array that holds `junk`. Source: `XQueue::create`. -/
def XQueue.create (junk : Mem T) (qcap : ℤ) : Option (XQueue T) :=
  if qcap < 2 then none else some ⟨qcap, 0, 0, 1, junk⟩

/-- `if (--pos < 0) { pos = _capacity - 1; }`. -/
def before (capacity pos : ℤ) : ℤ := if pos - 1 < 0 then capacity - 1 else pos - 1

/-- Source: `XQueue::push_front`. -/
def XQueue.pushFront (q : XQueue T) (val : T) : ℤ × XQueue T :=
  if q.size = q.capacity then (-1, q)
  else
    (0, { q with
      array := Function.update q.array q.front.toNat val
      size := q.size + 1
      front := before q.capacity q.front })

/-- Source: `XQueue::pop_back`; no value is its error. -/
def XQueue.popBack (q : XQueue T) : Option T × XQueue T :=
  if q.size = 0 then (none, q)
  else
    let rear := before q.capacity q.rear
    (some (q.array rear.toNat), { q with rear := rear, size := q.size - 1 })

/-- Source: `XQueue::pop_backs`. -/
def XQueue.popBacks (q : XQueue T) : ℕ → List T × XQueue T
  | 0 => ([], q)
  | nums + 1 =>
      match q.popBack with
      | (none, q) => ([], q)
      | (some val, q) =>
          let r := q.popBacks nums
          (val :: r.1, r.2)

/-- The queue holds the values `l`, the oldest first. -/
structure Queued (q : XQueue T) (l : List T) : Prop where
  front_nonneg : 0 ≤ q.front
  front_lt : q.front < q.capacity
  size : q.size = l.length
  room : q.size ≤ q.capacity
  rear : q.rear = ((q.front.toNat + 1 + l.length) % q.capacity.toNat : ℕ)
  content : ring q.array q.capacity.toNat (q.front.toNat + 1) l.length = l.reverse

/-- The positions and sizes of a queue are no negative numbers. -/
theorem Queued.eq {q : XQueue T} {l : List T} (h : Queued q l) :
    ∃ (cap front : ℕ) (array : Mem T),
      q = ⟨cap, l.length, front, ((front + 1 + l.length) % cap : ℕ), array⟩ ∧ front < cap ∧
        l.length ≤ cap ∧ ring array cap (front + 1) l.length = l.reverse := by
  obtain ⟨hnonneg, hlt, hsize, hroom, hrear, hcontent⟩ := h
  obtain ⟨cap, size, front, rear, array⟩ := q
  dsimp only at *
  obtain ⟨front, rfl⟩ := Int.eq_ofNat_of_zero_le hnonneg
  obtain ⟨cap, rfl⟩ := Int.eq_ofNat_of_zero_le (hnonneg.trans hlt.le)
  simp only [Int.toNat_natCast] at *
  exact ⟨cap, front, array, by rw [hsize, hrear], by omega, by omega, hcontent⟩

theorem queued_mk {cap front : ℕ} {array : Mem T} {l : List T} (hfront : front < cap)
    (hroom : l.length ≤ cap) (hcontent : ring array cap (front + 1) l.length = l.reverse) :
    Queued ⟨cap, l.length, front, ((front + 1 + l.length) % cap : ℕ), array⟩ l :=
  ⟨Int.natCast_nonneg front, Int.ofNat_lt.mpr hfront, rfl, Int.ofNat_le.mpr hroom, rfl, hcontent⟩

/-- A new queue holds nothing. -/
theorem queued_create (junk : Mem T) {qcap : ℤ} (h : 2 ≤ qcap) :
    ∃ q, XQueue.create junk qcap = some q ∧ Queued q [] := by
  obtain ⟨cap, rfl⟩ := Int.eq_ofNat_of_zero_le (show 0 ≤ qcap by omega)
  refine ⟨_, if_neg (not_lt.mpr h), ?_⟩
  have hnew : Queued ⟨cap, ([] : List T).length, (0 : ℕ),
      ((0 + 1 + ([] : List T).length) % cap : ℕ), junk⟩ [] :=
    queued_mk (by omega) (Nat.zero_le _) rfl
  have hrear : (0 + 1 + ([] : List T).length) % cap = 1 := Nat.mod_eq_of_lt (by simp; omega)
  rw [hrear] at hnew
  exact hnew

theorem before_eq {cap pos : ℕ} (h : pos < cap) :
    before cap pos = ((pos + (cap - 1)) % cap : ℕ) := by
  unfold before
  rcases mod_cases h (show cap - 1 < cap by omega) with ⟨hlt, hmod⟩ | ⟨hge, hmod⟩
  · rw [hmod, if_pos (by omega)]
    omega
  · rw [hmod, if_neg (by omega)]
    omega

/-- The position behind the one in front of `pos` is `pos`. -/
theorem before_add_mod {cap : ℕ} (h : 0 < cap) (pos n : ℕ) :
    ((pos + (cap - 1)) % cap + 1 + n) % cap = (pos + n) % cap := by
  rw [Nat.add_assoc, Nat.mod_add_mod, show pos + (cap - 1) + (1 + n) = pos + n + cap by omega,
    Nat.add_mod_right]

/-- **A push** puts a value behind the youngest one, if there is room. -/
theorem pushFront_spec {q : XQueue T} {l : List T} (h : Queued q l) (val : T) :
    if (l.length : ℤ) < q.capacity then
      (q.pushFront val).1 = 0 ∧ Queued (q.pushFront val).2 (l ++ [val])
    else q.pushFront val = (-1, q) := by
  obtain ⟨cap, front, array, rfl, hfront, hroom, hcontent⟩ := h.eq
  dsimp only
  unfold XQueue.pushFront
  dsimp only
  split_ifs with hlt hfull hfull
  · omega
  · refine ⟨rfl, ?_⟩
    have hcap : 0 < cap := by omega
    have hlen : (l ++ [val]).length = l.length + 1 := List.length_append
    have hring : ring (Function.update array front val) cap ((front + (cap - 1)) % cap + 1)
        (l ++ [val]).length = (l ++ [val]).reverse := by
      have hupdate := ring_update_front array hcap front (n := l.length) (by omega) val
      have hstart := before_add_mod hcap front 0
      rw [Nat.mod_eq_of_lt hfront, hcontent] at hupdate
      rw [Nat.add_zero] at hstart
      rw [← ring_mod, hstart, ring_mod, hlen, Nat.add_zero, hupdate, List.reverse_append]
      rfl
    have hq := queued_mk (Nat.mod_lt _ hcap) (by omega) hring
    rw [before_add_mod hcap, hlen] at hq
    rw [before_eq hfront, Int.toNat_natCast, Nat.add_right_comm]
    exact hq
  · rfl
  · omega

/-- **A pop** takes the oldest value. -/
theorem popBack_spec {q : XQueue T} {val : T} {l : List T} (h : Queued q (val :: l)) :
    q.popBack.1 = some val ∧ Queued q.popBack.2 l := by
  obtain ⟨cap, front, array, rfl, hfront, hroom, hcontent⟩ := h.eq
  have hcap : 0 < cap := by omega
  have hlen : (val :: l).length = l.length + 1 := rfl
  rw [hlen, ring_succ_last, List.reverse_cons] at hcontent
  obtain ⟨hrest, hlast⟩ := List.append_inj hcontent (by rw [length_ring, List.length_reverse])
  have hrear : before cap ((front + 1 + (val :: l).length) % cap : ℕ) =
      ((front + 1 + l.length) % cap : ℕ) := by
    rw [before_eq (Nat.mod_lt _ hcap), Nat.mod_add_mod, hlen,
      show front + 1 + (l.length + 1) + (cap - 1) = front + 1 + l.length + cap by omega,
      Nat.add_mod_right]
  unfold XQueue.popBack
  dsimp only
  rw [if_neg (by omega), hrear, Int.toNat_natCast]
  refine ⟨congrArg some (List.singleton_inj.mp hlast), ?_⟩
  have hsize : ((val :: l).length : ℤ) - 1 = l.length := by omega
  rw [hsize]
  exact queued_mk hfront (by omega) hrest

/-- A pop from an empty queue. -/
theorem popBack_nil {q : XQueue T} (h : Queued q []) : q.popBack = (none, q) := by
  unfold XQueue.popBack
  rw [if_pos]
  exact h.size

/-- **A batch** is taken: the oldest values, at most `nums`. -/
theorem popBacks_spec {q : XQueue T} {l : List T} (h : Queued q l) (nums : ℕ) :
    (q.popBacks nums).1 = l.take nums ∧ Queued (q.popBacks nums).2 (l.drop nums) := by
  induction nums generalizing q l with
  | zero => exact ⟨rfl, h⟩
  | succ nums ih =>
      cases l with
      | nil =>
          rw [XQueue.popBacks, popBack_nil h]
          exact ⟨rfl, h⟩
      | cons val l =>
          obtain ⟨hval, hrest⟩ := popBack_spec h
          have hpop : q.popBack = (some val, q.popBack.2) := Prod.ext hval rfl
          obtain ⟨hvals, hleft⟩ := ih hrest
          rw [XQueue.popBacks, hpop]
          exact ⟨congrArg (val :: ·) hvals, hleft⟩

end Asenal.Comlog
