import Asenal.Lib.Memory
import Asenal.Lib.Text

/-!
# Text in a bounded buffer

A buffer remembers how far it was ever written. `snprintf` and a bounded copy write what fits and a final
NUL; the lemmas say that the buffer then shows the longer text, as far as there is room, and nothing was
written beyond its end.

* `Shows.snprintf` — text that is printed behind what the buffer shows.
* `Shows.put_behind` — writes behind the text do not change it.
* `Writing` — the position of a writer that may stand behind the room.
-/

namespace Asenal.Lib.Bounded

open Asenal.Lib.Text Asenal.Lib.Memory

/-- The cells of a buffer, and the position behind the last one that was ever written. -/
structure Buffer where
  cells : Mem UInt8
  reach : ℕ

/-- Write bytes at a position. -/
def Buffer.put (b : Buffer) (pos : ℕ) (bs : Bytes) : Buffer where
  cells := poke b.cells pos bs
  reach := if bs = [] then b.reach else max b.reach (pos + bs.length)

/-- `snprintf(buf + pos, size, "%s", t)`: what fits and a NUL. -/
def snprintf (b : Buffer) (pos size : ℕ) (t : Bytes) : Buffer :=
  if size = 0 then b else b.put pos (t.take (size - 1) ++ [0])

/-- The whole string stands in the first `n` cells, with its terminator. -/
def Holds (cells : Mem UInt8) (n : ℕ) (t : Bytes) : Prop :=
  t.length < n ∧ peek cells 0 (t.length + 1) = t ++ [0]

/-- The buffer of `n` bytes shows the text, except for its last byte, and was not left. -/
structure Shows (b : Buffer) (n : ℕ) (t : Bytes) : Prop where
  reach_le : b.reach ≤ n
  cells_eq : ∀ i c, i + 1 < n → t[i]? = some c → b.cells i = c

/-- The writer stands behind the text, or the room ends before both. -/
structure Writing (b : Buffer) (n ptr : ℕ) (t : Bytes) : Prop where
  shows : Shows b n t
  ptr_eq : ptr = t.length ∨ n ≤ ptr + 1 ∧ n ≤ t.length + 1

variable {b : Buffer} {n ptr pos : ℕ} {t s : Bytes}

/-! ## Where writes go -/

/-- A buffer is never unwritten. -/
theorem reach_le_put (b : Buffer) (pos : ℕ) (bs : Bytes) : b.reach ≤ (b.put pos bs).reach := by
  unfold Buffer.put
  dsimp only
  split_ifs
  · exact Nat.le_refl _
  · exact Nat.le_max_left _ _

theorem reach_le_snprintf (b : Buffer) (pos size : ℕ) (t : Bytes) :
    b.reach ≤ (snprintf b pos size t).reach := by
  unfold snprintf
  split_ifs
  · exact Nat.le_refl _
  · exact reach_le_put b _ _

/-- Writing a byte reaches its position. -/
theorem lt_reach_put (b : Buffer) (pos : ℕ) (c : UInt8) : pos < (b.put pos [c]).reach := by
  unfold Buffer.put
  dsimp only
  rw [if_neg (List.cons_ne_nil _ _)]
  exact Nat.le_max_right _ _

/-- A write within the buffer does not leave it. -/
theorem reach_put_le {bs : Bytes} (h : b.reach ≤ n) (hfit : pos + bs.length ≤ n) :
    (b.put pos bs).reach ≤ n := by
  unfold Buffer.put
  dsimp only
  split_ifs
  · exact h
  · exact Nat.max_le.mpr ⟨h, hfit⟩

/-- A cell after a write. -/
theorem cells_put (b : Buffer) (pos i : ℕ) (bs : Bytes) :
    (b.put pos bs).cells i = if pos ≤ i then bs.getD (i - pos) (b.cells i) else b.cells i := rfl

/-- Writing bytes one behind the other. -/
theorem put_put (b : Buffer) (pos : ℕ) (xs ys : Bytes) :
    (b.put pos xs).put (pos + xs.length) ys = b.put pos (xs ++ ys) := by
  unfold Buffer.put
  simp only [poke_append, List.length_append, Buffer.mk.injEq, true_and, List.append_eq_nil_iff]
  split_ifs <;> simp_all
  omega

/-- What fits is printed within the room. -/
theorem reach_snprintf_le (h : b.reach ≤ n) (hpos : pos ≤ n) (t : Bytes) :
    (snprintf b pos (n - pos) t).reach ≤ n := by
  unfold snprintf
  split_ifs
  · exact h
  · refine reach_put_le h ?_
    rw [List.length_append, List.length_take, List.length_singleton]
    omega

/-- **A string** that is printed behind another one, and fits. -/
theorem holds_snprintf (h : peek b.cells 0 s.length = s) (hfit : (s ++ t).length < n) :
    Holds (snprintf b s.length (n - s.length) t).cells n (s ++ t) := by
  rw [List.length_append] at hfit
  have hextend := peek_poke_extend b.cells (t ++ [0]) (Nat.zero_add s.length).symm
  refine ⟨by rwa [List.length_append], ?_⟩
  rw [snprintf, if_neg (by omega), List.take_of_length_le (by omega)]
  rw [h, List.length_append, List.length_singleton, ← List.append_assoc] at hextend
  rwa [List.length_append, Nat.add_assoc]

/-! ## What the buffer shows -/

/-- An unwritten buffer shows the empty text. -/
theorem shows_nil (h : b.reach ≤ n) : Shows b n [] :=
  ⟨h, fun i c _ hi => absurd hi (by rw [List.getElem?_nil]; exact nofun)⟩

/-- Writes behind the text, or behind the room, do not change it. -/
theorem Shows.put_behind (h : Shows b n t) (hpos : t.length ≤ pos ∨ n ≤ pos + 1) {bs : Bytes}
    (hfit : pos + bs.length ≤ n) : Shows (b.put pos bs) n t := by
  refine ⟨reach_put_le h.reach_le hfit, fun i c hi hc => ?_⟩
  have hlen : i < t.length := (List.getElem?_eq_some_iff.mp hc).1
  rw [cells_put, if_neg (by omega)]
  exact h.cells_eq i c hi hc

/-- Bytes written right behind the text are shown. -/
theorem Shows.put (h : Shows b n t) {bs : Bytes} (hfit : t.length + bs.length ≤ n) :
    Shows (b.put t.length bs) n (t ++ bs) := by
  refine ⟨reach_put_le h.reach_le hfit, fun i c hi hc => ?_⟩
  rcases Nat.lt_or_ge i t.length with hbefore | hbehind
  · rw [List.getElem?_append_left hbefore] at hc
    rw [cells_put, if_neg (by omega)]
    exact h.cells_eq i c hi hc
  · rw [List.getElem?_append_right hbehind] at hc
    rw [cells_put, if_pos hbehind, List.getD_eq_getElem?_getD, hc, Option.getD_some]

/-- Only what fits is shown. -/
theorem Shows.shorten (h : Shows b n t) (hs : s.take (n - 1) <+: t) : Shows b n s := by
  refine ⟨h.reach_le, fun i c hi hc => h.cells_eq i c hi ?_⟩
  obtain ⟨r, hr⟩ := hs
  have htake : (s.take (n - 1))[i]? = some c := by rw [List.getElem?_take_of_lt (by omega), hc]
  rw [← hr, List.getElem?_append_left (List.getElem?_eq_some_iff.mp htake).1, htake]

/-- Behind a text that fills the room any other is shown as well. -/
theorem Shows.append (h : Shows b n t) (hfull : n ≤ t.length + 1) (s : Bytes) :
    Shows b n (t ++ s) := by
  apply h.shorten
  rw [List.take_append_of_le_length (by omega)]
  exact List.take_prefix _ _

/-- What is printed behind the text is shown. -/
theorem Shows.snprintf (h : Shows b n t) (hroom : t.length < n) (s : Bytes) :
    Shows (snprintf b t.length (n - t.length) s) n (t ++ s) := by
  unfold Bounded.snprintf
  rw [if_neg (by omega)]
  have hlen : (s.take (n - t.length - 1) ++ [0]).length ≤ n - t.length := by
    rw [List.length_append, List.length_take, List.length_singleton]
    omega
  apply (h.put (by omega)).shorten
  have hroom' : n - 1 - t.length = n - t.length - 1 := by omega
  rw [List.take_append, List.take_of_length_le (by omega), hroom', ← List.append_assoc]
  exact List.prefix_append _ _

/-- Printing behind the text, or behind the room, does not change it. -/
theorem Shows.snprintf_behind (h : Shows b n t) (hroom : pos < n)
    (hpos : t.length ≤ pos ∨ n ≤ pos + 1) (s : Bytes) :
    Shows (Bounded.snprintf b pos (n - pos) s) n t := by
  unfold Bounded.snprintf
  rw [if_neg (by omega)]
  apply h.put_behind hpos
  rw [List.length_append, List.length_take, List.length_singleton]
  omega

/-- The beginning of the text, as it is read from the buffer. -/
theorem Shows.peek (h : Shows b n t) {k : ℕ} (hk : k ≤ t.length) (hkn : k < n) :
    peek b.cells 0 k = t.take k := by
  apply List.ext_getElem
  · rw [length_peek, List.length_take]
    omega
  · intro i h₁ h₂
    rw [length_peek] at h₁
    have hcell := h.cells_eq i t[i] (by omega) (List.getElem?_eq_getElem (by omega))
    simp [Memory.peek, hcell]

/-! ## Writers -/

/-- A writer in the room that writes a byte. -/
theorem Writing.put (h : Writing b n ptr t) (hroom : ptr < n) (c : UInt8) :
    Writing (b.put ptr [c]) n (ptr + 1) (t ++ [c]) := by
  have hfit : ptr + [c].length ≤ n := by
    rw [List.length_singleton]
    omega
  rcases h.ptr_eq with rfl | ⟨hptr, hfull⟩
  · refine ⟨h.shows.put hfit, Or.inl ?_⟩
    rw [List.length_append, List.length_singleton]
  · refine ⟨(h.shows.put_behind (Or.inr hptr) hfit).append hfull [c], Or.inr ⟨by omega, ?_⟩⟩
    rw [List.length_append]
    omega

/-- A writer in the room that prints: it goes behind what it printed, or behind the room if that did not
fit. -/
theorem Writing.snprintf (h : Writing b n ptr t) (hroom : ptr < n) (s : Bytes) {ptr' : ℕ}
    (hptr' : ptr' = ptr + s.length ∨ n ≤ ptr' + 1 ∧ n ≤ ptr + s.length + 1) :
    Writing (Bounded.snprintf b ptr (n - ptr) s) n ptr' (t ++ s) := by
  rcases h.ptr_eq with rfl | ⟨hptr, hfull⟩
  · refine ⟨h.shows.snprintf hroom s, ?_⟩
    rw [List.length_append]
    exact hptr'
  · refine ⟨(h.shows.snprintf_behind hroom (Or.inr hptr) s).append hfull s, Or.inr ⟨by omega, ?_⟩⟩
    rw [List.length_append]
    omega

/-- A writer that stands behind the room may stand anywhere behind it. -/
theorem Writing.move (h : Writing b n ptr t) (hptr : n ≤ ptr + 1) {ptr' : ℕ} (hptr' : n ≤ ptr' + 1) :
    Writing b n ptr' t := by
  refine ⟨h.shows, Or.inr ⟨hptr', ?_⟩⟩
  rcases h.ptr_eq with rfl | ⟨-, hfull⟩
  · exact hptr
  · exact hfull

/-- A byte where the writer stands, which it does not count. -/
theorem Writing.mark (h : Writing b n ptr t) (hroom : ptr < n) (c : UInt8) :
    Writing (b.put ptr [c]) n ptr t := by
  refine ⟨h.shows.put_behind ?_ ?_, h.ptr_eq⟩
  · rcases h.ptr_eq with rfl | ⟨hptr, -⟩
    · exact Or.inl (Nat.le_refl _)
    · exact Or.inr hptr
  · rw [List.length_singleton]
    omega

/-- A writer that stands behind the room has shown any longer text. -/
theorem Writing.append (h : Writing b n ptr t) (hptr : n ≤ ptr + 1) (s : Bytes) :
    Writing b n ptr (t ++ s) := by
  have hfull : n ≤ t.length + 1 := by
    rcases h.ptr_eq with rfl | ⟨-, hfull⟩
    · exact hptr
    · exact hfull
  refine ⟨h.shows.append hfull s, Or.inr ⟨hptr, ?_⟩⟩
  rw [List.length_append]
  omega

end Asenal.Lib.Bounded
