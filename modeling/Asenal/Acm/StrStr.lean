import Asenal.Lib.CString
import Asenal.Lib.Checked
import Asenal.Lib.Fallback

/-!
# First occurrences by a jump table

The table that `init_jump` fills has the longest borders, but for one case: where the needle does not go on
with the longest border of a prefix and goes on with a shorter one, the entry is the border above that one,
and not the one that is longer by one character.

* `initJump_spec` — the table that is filled.
* `exists_slip` — where the first entry goes wrong.
* `right_iff_harmless`, `Table.agrees_of_early` — when matching is right nevertheless.
* `strStr_iff` — when the first occurrence is found in a haystack, and when in every one.
-/

namespace Asenal.Acm

open Asenal.Lib.Text Asenal.Lib.CString Asenal.Lib.Memory Asenal.Lib.Checked Asenal.Lib.Border Asenal.Lib.Fallback

/-! ## The program -/

/-- The size of the array `jump`. -/
def jumpSize : ℕ := 160000

/-- Source: `strStr.cpp` `Solution::init_jump`, the inner loop. -/
def slideLoop (needle : Bytes) (c : UInt8) : ℕ → Mem ℤ → ℤ → Option ℤ
  | 0, _, _ => none
  | fuel + 1, jump, now =>
      if now = -1 then some now
      else
        (readAt jumpSize jump now).bind fun k => (byteAt needle (k + 1)).bind fun d =>
          if d ≠ c then slideLoop needle c fuel jump k else some now

/-- Source: `strStr.cpp` `Solution::init_jump`, the outer loop with `n` rounds left. -/
def initLoop (needle : Bytes) (fuel : ℕ) : ℕ → ℕ → Mem ℤ → Option (Mem ℤ)
  | 0, _, jump => some jump
  | n + 1, i, jump =>
      (readAt jumpSize jump (i - 1)).bind fun k => (byteAt needle (k + 1)).bind fun c =>
        (byteAt needle i).bind fun d =>
          (if c = d then some (k + 1) else slideLoop needle d fuel jump k).bind fun now =>
            (writeAt jumpSize jump i now).bind fun jump => initLoop needle fuel n (i + 1) jump

/-- Source: `strStr.cpp` `Solution::init_jump`. -/
def initJump (fuel : ℕ) (needle : Bytes) (jump : Mem ℤ) : Option (Mem ℤ) :=
  (writeAt jumpSize jump 0 (-1)).bind fun jump => initLoop needle fuel (needle.length - 1) 1 jump

/-- The cursors behind the loop. Source: `strStr.cpp` `Solution::match`, the loop. -/
def matchLoop (haystack needle : Bytes) (hayLen needLen : ℤ) (jump : Mem ℤ) : ℕ → ℤ → ℤ → Option (ℤ × ℤ)
  | 0, _, _ => none
  | fuel + 1, i, j =>
      if i < hayLen ∧ j < needLen then
        (byteAt haystack i).bind fun c => (byteAt needle j).bind fun d =>
          if c = d then matchLoop haystack needle hayLen needLen jump fuel (i + 1) (j + 1)
          else if j = 0 then matchLoop haystack needle hayLen needLen jump fuel (i + 1) j
          else
            (readAt jumpSize jump (j - 1)).bind fun k =>
              matchLoop haystack needle hayLen needLen jump fuel i (k + 1)
      else some (i, j)

/-- `strlen`, as an `int`. -/
def intLen (s : Bytes) : ℤ := intOf s.length

/-- The position that the cursors give, or `none` for `NULL`. -/
def position (needLen : ℤ) (cursors : ℤ × ℤ) : Option ℤ :=
  if cursors.2 = needLen then some (cursors.1 - needLen) else none

/-- Source: `strStr.cpp` `Solution::match`. -/
def matchNeedle (fuel : ℕ) (haystack needle : Bytes) (jump : Mem ℤ) : Option (Option ℤ) :=
  (matchLoop haystack needle (intLen haystack) (intLen needle) jump fuel 0 0).map (position (intLen needle))

/-- Source: `strStr.cpp` `Solution::strStr`. -/
def strStr (fuel : ℕ) (haystack needle : Bytes) (jump : Mem ℤ) : Option (Option ℤ) :=
  if intLen needle = 0 then some (some 0)
  else if intLen haystack = 0 then some none
  else if intLen haystack < intLen needle then some none
  else (initJump fuel needle jump).bind fun jump => matchNeedle fuel haystack needle jump

/-! ## The table -/

/-- Where the inner loop stops that begins with the border `n`. -/
inductive Slides (p : Bytes) (e : ℕ → ℕ) (c : UInt8) : ℕ → ℕ → Prop
  | zero : Slides p e c 0 0
  | stop {n} : p[e (n + 1)]? = some c → Slides p e c (n + 1) (n + 1)
  | slide {n r} : p[e (n + 1)]? ≠ some c → Slides p e c (e (n + 1)) r → Slides p e c (n + 1) r

/-- The first `n` entries of the table, by the lengths of the prefixes. -/
structure Table (p : Bytes) (e : ℕ → ℕ) (n : ℕ) : Prop where
  one : e 1 = 0
  lt : ∀ L < n, e (L + 1) < L + 1
  succ : ∀ L, L + 2 ≤ n → ∀ d, p[L + 1]? = some d →
    p[e (L + 1)]? = some d ∧ e (L + 2) = e (L + 1) + 1 ∨
      p[e (L + 1)]? ≠ some d ∧ Slides p e d (e (L + 1)) (e (L + 2))

variable {p : Bytes} {e e' : ℕ → ℕ} {c : UInt8} {n r r' i : ℕ} {jump : Mem ℤ}

theorem Slides.le (h : Slides p e c n r) (hlt : ∀ L < n, e (L + 1) < L + 1) : r ≤ n := by
  induction h with
  | zero => exact Nat.le_refl 0
  | stop => exact Nat.le_refl _
  | @slide n r _ _ ih =>
      have hn := hlt n (Nat.lt_succ_self n)
      exact (ih fun L hL => hlt L (by omega)).trans hn.le

/-- The loop reads the entries up to the one it begins with. -/
theorem Slides.congr (h : Slides p e c n r) (hlt : ∀ L < n, e (L + 1) < L + 1)
    (heq : ∀ L < n, e' (L + 1) = e (L + 1)) : Slides p e' c n r := by
  induction h with
  | zero => exact .zero
  | @stop n hget => exact .stop (by rwa [heq n (Nat.lt_succ_self n)])
  | @slide n r hget _ ih =>
      have hn := hlt n (Nat.lt_succ_self n)
      have heqn := heq n (Nat.lt_succ_self n)
      refine .slide (by rwa [heqn]) ?_
      rw [heqn]
      exact ih (fun L hL => hlt L (by omega)) fun L hL => heq L (by omega)

theorem Slides.unique (h : Slides p e c n r) (h' : Slides p e c n r') : r = r' := by
  induction h with
  | zero => cases h'; rfl
  | stop hget =>
      cases h' with
      | stop => rfl
      | slide hne => exact absurd hget hne
  | slide hne _ ih =>
      cases h' with
      | stop hget => exact absurd hget hne
      | slide _ hslides => exact ih hslides

/-- The entries are determined by the needle. -/
theorem Table.unique (h : Table p e n) (h' : Table p e' n) (hn : n ≤ p.length) :
    ∀ L < n, e' (L + 1) = e (L + 1) := by
  intro L
  induction L using Nat.strong_induction_on with
  | _ L ih =>
      intro hL
      cases L with
      | zero => rw [h.one, h'.one]
      | succ L =>
          have heq := ih L (Nat.lt_succ_self L) (Nat.lt_of_succ_lt hL)
          have hlt := h.lt L (Nat.lt_of_succ_lt hL)
          have hget : p[L + 1]? = some p[L + 1] := List.getElem?_eq_getElem (by omega)
          have hnext := h'.succ L hL _ hget
          rw [heq] at hnext
          rcases h.succ L hL _ hget with ⟨hhit, hr⟩ | ⟨hmiss, hslides⟩
          · rw [hr]
            exact (hnext.resolve_right fun hs => hs.1 hhit).2
          · have hslides' := (hnext.resolve_left fun hs => hmiss hs.1).2
            refine (Slides.unique (hslides.congr (fun L' hL' => h.lt L' (by omega))
              fun L' hL' => ih L' (by omega) (by omega)) hslides').symm

/-- The entries of the array are lower by one than those of the table. -/
def Holds (jump : Mem ℤ) (e : ℕ → ℕ) (n : ℕ) : Prop := ∀ L < n, jump L = e (L + 1) - 1

/-- **The inner loop.** -/
theorem slideLoop_spec {fuel : ℕ} (hholds : Holds jump e i) (hlt : ∀ L < i, e (L + 1) < L + 1)
    (hi : i ≤ p.length) (hsize : i ≤ jumpSize) (hn : n ≤ i) (hfuel : n < fuel) :
    ∃ r : ℕ, slideLoop p c fuel jump (n - 1) = some ((r : ℤ) - 1) ∧ Slides p e c n r := by
  induction fuel generalizing n with
  | zero => exact absurd hfuel (Nat.not_lt_zero n)
  | succ fuel ih =>
      cases n with
      | zero => exact ⟨0, if_pos rfl, .zero⟩
      | succ n =>
          have hlow := hlt n hn
          have hplace : (((n + 1 : ℕ) : ℤ) - 1) = (n : ℕ) := by push_cast; omega
          have hget : e (n + 1) < p.length := by omega
          rw [slideLoop, hplace, if_neg (by omega), readAt_of_lt (by omega), Option.bind_some, hholds n hn,
            Int.sub_add_cancel, byteAt_of_lt hget, Option.bind_some]
          by_cases hc : p[e (n + 1)] = c
          · rw [if_neg (not_not.mpr hc)]
            exact ⟨n + 1, by push_cast; simp, .stop (by rw [List.getElem?_eq_getElem hget, hc])⟩
          · obtain ⟨r, hloop, hslides⟩ := ih (n := e (n + 1)) (by omega) (by omega)
            rw [if_pos hc]
            refine ⟨r, hloop, .slide ?_ hslides⟩
            rwa [List.getElem?_eq_getElem hget, ne_eq, Option.some.injEq]

/-- One more entry. -/
theorem Table.extend (h : Table p e (n + 1)) (hr : r ≤ n + 1) {d : UInt8} (hd : p[n + 1]? = some d)
    (hnext : p[e (n + 1)]? = some d ∧ r = e (n + 1) + 1 ∨
      p[e (n + 1)]? ≠ some d ∧ Slides p e d (e (n + 1)) r) :
    Table p (Function.update e (n + 2) r) (n + 2) := by
  have hold : ∀ L < n + 1, Function.update e (n + 2) r (L + 1) = e (L + 1) :=
    fun L hL => Function.update_of_ne (by omega) _ _
  refine ⟨(hold 0 (Nat.succ_pos n)).trans h.one, fun L hL => ?_, fun L hL d' hd' => ?_⟩
  · rcases Nat.lt_succ_iff_lt_or_eq.mp hL with hL | rfl
    · rw [hold L hL]
      exact h.lt L hL
    · rw [Function.update_self]
      exact Nat.lt_succ_of_le hr
  · rw [hold L (by omega)]
    have hlt := h.lt L (by omega)
    by_cases hLn : L = n
    · obtain rfl := hLn
      obtain rfl := Option.some.inj (hd.symm.trans hd')
      rw [Function.update_self]
      exact hnext.imp_right fun hs =>
        ⟨hs.1, hs.2.congr (fun L' hL' => h.lt L' (by omega)) fun L' hL' => hold L' (by omega)⟩
    · rw [show L + 2 = L + 1 + 1 from rfl, hold (L + 1) (by omega)]
      exact (h.succ L (by omega) d' hd').imp_right fun hs =>
        ⟨hs.1, hs.2.congr (fun L' hL' => h.lt L' (by omega)) fun L' hL' => hold L' (by omega)⟩

/-- **The outer loop.** -/
theorem initLoop_spec {fuel : ℕ} (hholds : Holds jump e (i + 1)) (htable : Table p e (i + 1))
    (hlen : i + 1 + n = p.length) (hsize : p.length ≤ jumpSize) (hfuel : p.length ≤ fuel) :
    ∃ jump' e', initLoop p fuel n (i + 1) jump = some jump' ∧ Holds jump' e' p.length ∧
      Table p e' p.length := by
  induction n generalizing jump e i with
  | zero => exact ⟨jump, e, rfl, hlen ▸ hholds, hlen ▸ htable⟩
  | succ n ih =>
      have hlow := htable.lt i (Nat.lt_succ_self i)
      have hplace : (((i + 1 : ℕ) : ℤ) - 1) = (i : ℕ) := by push_cast; omega
      have hi : i + 1 < p.length := by omega
      have hget : e (i + 1) < p.length := by omega
      obtain ⟨r, hr, hentry, hnext⟩ : ∃ r : ℕ, r ≤ i + 1 ∧
          (if p[e (i + 1)] = p[i + 1] then some ((e (i + 1) : ℤ) - 1 + 1)
            else slideLoop p p[i + 1] fuel jump ((e (i + 1) : ℤ) - 1)) = some ((r : ℤ) - 1) ∧
          (p[e (i + 1)]? = some p[i + 1] ∧ r = e (i + 1) + 1 ∨
            p[e (i + 1)]? ≠ some p[i + 1] ∧ Slides p e p[i + 1] (e (i + 1)) r) := by
        by_cases hc : p[e (i + 1)] = p[i + 1]
        · rw [if_pos hc]
          exact ⟨e (i + 1) + 1, hlow, by push_cast; simp, Or.inl ⟨by rw [List.getElem?_eq_getElem hget, hc], rfl⟩⟩
        · obtain ⟨r, hloop, hslides⟩ := slideLoop_spec (c := p[i + 1]) hholds htable.lt hi.le
            (by omega) hlow.le (show e (i + 1) < fuel by omega)
          rw [if_neg hc]
          refine ⟨r, ?_, hloop, Or.inr ⟨?_, hslides⟩⟩
          · have := hslides.le fun L hL => htable.lt L (by omega)
            omega
          · rwa [List.getElem?_eq_getElem hget, ne_eq, Option.some.injEq]
      rw [initLoop, hplace, readAt_of_lt (by omega), Option.bind_some, hholds i (Nat.lt_succ_self i),
        Int.sub_add_cancel, byteAt_of_lt hget, Option.bind_some, byteAt_of_lt hi, Option.bind_some]
      rw [Int.sub_add_cancel] at hentry
      rw [hentry, Option.bind_some, writeAt_of_lt (by omega), Option.bind_some]
      refine ih (e := Function.update e (i + 2) r) (fun L hL => ?_) (htable.extend hr
        (List.getElem?_eq_getElem hi) hnext) (by omega)
      rcases Nat.lt_succ_iff_lt_or_eq.mp hL with hL | rfl
      · rw [Function.update_of_ne (by omega), Function.update_of_ne (by omega), hholds L hL]
      · rw [Function.update_self, Function.update_self]

/-- **The table that is filled** is the same for all contents of the array before. -/
theorem initJump_spec (hp : p ≠ []) (hsize : p.length ≤ jumpSize) :
    ∃ e, Table p e p.length ∧ ∀ fuel, p.length ≤ fuel → ∀ jump,
      ∃ jump', initJump fuel p jump = some jump' ∧ Holds jump' e p.length := by
  have hpos := List.length_pos_of_ne_nil hp
  have hfill : ∀ fuel, p.length ≤ fuel → ∀ jump, ∃ jump' e, initJump fuel p jump = some jump' ∧
      Holds jump' e p.length ∧ Table p e p.length := by
    intro fuel hfuel jump
    rw [initJump, writeAt_of_lt (by omega), Option.bind_some]
    refine initLoop_spec (e := fun _ => 0) (i := 0) (fun L hL => ?_) ⟨rfl, fun L _ => Nat.succ_pos L, ?_⟩
      (by omega) hsize hfuel
    · obtain rfl := Nat.lt_one_iff.mp hL
      simp
    · exact fun L hL => absurd hL (by omega)
  obtain ⟨-, e, -, -, htable⟩ := hfill _ (Nat.le_refl _) fun _ => 0
  refine ⟨e, htable, fun fuel hfuel jump => ?_⟩
  obtain ⟨jump', e', hinit, hholds, htable'⟩ := hfill fuel hfuel jump
  refine ⟨jump', hinit, fun L hL => ?_⟩
  rw [hholds L hL, htable.unique htable' (Nat.le_refl _) L hL]

/-! ## Where the table goes wrong -/

/-- The first `L` characters have a border `x` that the needle goes on with, and no longer one, and the border
`y` above it is not the one that is longer by one character. -/
def Slip (p : Bytes) (L y : ℕ) : Prop :=
  ∃ x, IsGreatest {k | k ∈ borders p L ∧ p[k]? = p[L]?} x ∧ IsLeast {k | k ∈ borders p L ∧ x < k} y ∧ y ≠ x + 1

/-- Behind the first slip the needle reads on from `y` as it does from the prefix that has the slip, and other
characters lead to the same states. -/
def Harmless (p : Bytes) : Prop :=
  ∀ L y, L + 1 < p.length → Slip p L y → (∀ L' < L, ∀ y', ¬ Slip p L' y') →
    ∀ i, i + L + 1 < p.length → ∀ c ∈ p, p[i + L + 1]? ≠ some c →
      overlap p (p.take (y + i) ++ [c]) = overlap p (p.take (i + L + 1) ++ [c])

variable {L y : ℕ}

/-- The loop stops at the longest border that the needle goes on with, or slips. -/
theorem Slides.stops (h : Slides p e c n r) (hL : L < p.length) (hc : p[L]? = some c)
    (hborder : ∀ m < L, e (m + 1) = border p (m + 1)) (hn : n ∈ borders p L)
    (hless : ∀ m ∈ borders p L, p[m]? = some c → m < n) :
    r = border p (L + 1) ∧ (∀ y, ¬ Slip p L y) ∨ Slip p L r := by
  induction h with
  | zero =>
      refine Or.inl ⟨?_, ?_⟩
      · refine (isGreatest_border p L).unique ⟨zero_mem_borders L, fun m hm => ?_⟩ |>.symm
        cases m with
        | zero => exact Nat.le_refl 0
        | succ m =>
            rw [succ_mem_borders hL] at hm
            exact absurd (hless m hm.1 (hm.2.trans hc)) (Nat.not_lt_zero m)
      · rintro y ⟨x, hx, -⟩
        exact Nat.not_lt_zero x (hless x hx.1.1 (hx.1.2.trans hc))
  | @stop n hget =>
      have hentry := hborder n hn.1.le
      obtain ⟨hmem, hmax⟩ := isGreatest_border p n
      rw [hentry] at hget
      have hx : IsGreatest {k | k ∈ borders p L ∧ p[k]? = p[L]?} (border p (n + 1)) := by
        refine ⟨⟨mem_borders_trans hmem hn, hget.trans hc.symm⟩, fun m hm => hmax ?_⟩
        exact mem_borders_of_lt hm.1 hn (hless m hm.1 (hm.2.trans hc))
      have hy : IsLeast {k | k ∈ borders p L ∧ border p (n + 1) < k} (n + 1) := by
        refine ⟨⟨hn, hmem.1⟩, fun m hm => ?_⟩
        by_contra hlt
        exact absurd (hmax (mem_borders_of_lt hm.1 hn (not_le.mp hlt))) (not_le.mpr hm.2)
      by_cases hone : n + 1 = border p (n + 1) + 1
      · refine Or.inl ⟨?_, ?_⟩
        · refine (isGreatest_border p L).unique ⟨?_, fun m hm => ?_⟩ |>.symm
          · rw [hone, succ_mem_borders hL]
            exact hx.1
          · rw [hone]
            cases m with
            | zero => exact Nat.zero_le _
            | succ m =>
                rw [succ_mem_borders hL] at hm
                exact Nat.succ_le_succ (hx.2 hm)
        · rintro y ⟨x, hx', hy', hne⟩
          obtain rfl := hx.unique hx'
          exact hne ((hy'.unique hy).trans hone)
      · exact Or.inr ⟨_, hx, hy, hone⟩
  | @slide n r hget hslides ih =>
      have hentry := hborder n hn.1.le
      obtain ⟨hmem, hmax⟩ := isGreatest_border p n
      rw [hentry] at hget ih
      refine ih (mem_borders_trans hmem hn) fun m hm hmc => ?_
      have hle := hmax (mem_borders_of_lt hm hn (hless m hm hmc))
      exact lt_of_le_of_ne hle fun heq => hget (heq ▸ hmc)

/-- **The next entry** behind longest borders is the longest border, or is that of a slip. -/
theorem Table.next (h : Table p e n) (hn : L + 2 ≤ n) (hL : L + 1 < p.length)
    (hborder : ∀ m < L + 1, e (m + 1) = border p (m + 1)) :
    e (L + 2) = border p (L + 2) ∧ (∀ y, ¬ Slip p (L + 1) y) ∨ Slip p (L + 1) (e (L + 2)) := by
  have hd : p[L + 1]? = some p[L + 1] := List.getElem?_eq_getElem hL
  have hentry := hborder L (Nat.lt_succ_self L)
  obtain ⟨hmem, hmax⟩ := isGreatest_border p L
  rw [← hentry] at hmem hmax
  rcases h.succ L hn _ hd with ⟨hhit, hr⟩ | ⟨hmiss, hslides⟩
  · refine Or.inl ⟨?_, ?_⟩
    · refine (isGreatest_border p (L + 1)).unique ⟨?_, fun m hm => ?_⟩ |>.symm
      · rw [hr, succ_mem_borders hL]
        exact ⟨hmem, hhit.trans hd.symm⟩
      · rw [hr]
        cases m with
        | zero => exact Nat.zero_le _
        | succ m =>
            rw [succ_mem_borders hL] at hm
            exact Nat.succ_le_succ (hmax hm.1)
    · rintro y ⟨x, hx, hy, -⟩
      have hxe := hx.2 ⟨hmem, hhit.trans hd.symm⟩
      exact absurd (hmax hy.1.1) (not_le.mpr (lt_of_le_of_lt hxe hy.1.2))
  · refine hslides.stops hL hd hborder hmem fun m hm hmc => ?_
    exact lt_of_le_of_ne (hmax hm) fun heq => hmiss (heq ▸ hmc)

/-- **The entries up to the first slip** are the longest borders. -/
theorem Table.eq_border (h : Table p e n) (hn : n ≤ p.length) (hno : ∀ L' < L, ∀ y, ¬ Slip p L' y) :
    ∀ m < L, m < n → e (m + 1) = border p (m + 1) := by
  intro m
  induction m using Nat.strong_induction_on with
  | _ m ih =>
      intro hm hmn
      cases m with
      | zero =>
          have := (isGreatest_border p 0).1.1
          rw [h.one]
          omega
      | succ m =>
          refine (h.next hmn (by omega) fun m' hm' => ih m' hm' (by omega) (by omega)).resolve_right ?_ |>.1
          exact hno (m + 1) hm _

/-- The entry of a slip is no border. -/
theorem Slip.not_mem_borders (h : Slip p L y) (hi : i + L < p.length) : y + i ∉ borders p (i + L + 1) := by
  intro hmem
  induction i with
  | zero =>
      obtain ⟨x, hx, hy, hne⟩ := h
      rw [Nat.add_zero, Nat.zero_add] at hmem
      obtain ⟨k, rfl⟩ := Nat.exists_eq_succ_of_ne_zero (Nat.ne_of_gt (Nat.zero_lt_of_lt hy.1.2))
      rw [succ_mem_borders (by omega)] at hmem
      have hkx := hx.2 hmem
      have := hy.1.2
      omega
  | succ i ih =>
      rw [show y + (i + 1) = y + i + 1 from rfl, show i + 1 + L + 1 = i + L + 1 + 1 by omega,
        succ_mem_borders (by omega)] at hmem
      exact ih (by omega) hmem.1

/-- Behind a slip the entries go on from its entry, as long as the needle does. -/
theorem Table.behind_slip (h : Table p e p.length) (hy : e (L + 1) = y)
    (hgo : ∀ i, i + L + 2 < p.length → e (i + L + 1) = y + i → p[y + i]? = p[i + L + 1]?) :
    ∀ i, i + L + 1 < p.length → e (i + L + 1) = y + i := by
  intro i hi
  induction i with
  | zero => rwa [Nat.zero_add]
  | succ i ih =>
      have hentry := ih (by omega)
      have hget : p[i + L + 1]? = some p[i + L + 1] := List.getElem?_eq_getElem (by omega)
      have hhit := (hgo i (by omega) hentry).trans hget
      rcases h.succ (i + L) (by omega) _ hget with ⟨-, hr⟩ | ⟨hmiss, -⟩
      · rw [show i + 1 + L + 1 = i + L + 2 by omega, hr, hentry]
        omega
      · exact absurd (hentry ▸ hhit) hmiss

/-- Where the needle goes on with no border, neither does its overlap. -/
theorem not_overlap_hit (h : Slip p L y) (hi : i + L + 1 < p.length) (hlt : y + i < i + L + 1) (c : UInt8) :
    overlap p (p.take (i + L + 1) ++ [c]) ≠ y + i + 1 := by
  intro heq
  have hmem := heq ▸ (isGreatest_overlap p (p.take (i + L + 1) ++ [c])).1
  rw [succ_mem_overlaps] at hmem
  exact h.not_mem_borders (by omega) ((mem_borders_iff hi.le).mpr ⟨hlt, hmem.1⟩)

/-- The entry where the table slips first. -/
theorem Table.eq_of_slip (h : Table p e p.length) (hL : L + 1 < p.length) (hslip : Slip p L y)
    (hno : ∀ L' < L, ∀ y', ¬ Slip p L' y') : e (L + 1) = y := by
  cases L with
  | zero =>
      obtain ⟨x, hx, -⟩ := hslip
      exact absurd hx.1.1.1 (Nat.not_lt_zero x)
  | succ L =>
      have hborder := h.eq_border (Nat.le_refl _) hno
      rcases h.next (by omega) (by omega) fun m hm => hborder m hm (by omega) with ⟨-, hnone⟩ | hslip'
      · exact absurd hslip (hnone y)
      · obtain ⟨x, hx, hy, -⟩ := hslip
        obtain ⟨x', hx', hy', -⟩ := hslip'
        obtain rfl := hx.unique hx'
        exact hy'.unique hy

/-- **Behind a slip that does no harm**, the states fall to lower ones. -/
theorem Table.falls_overlap (h : Table p e p.length) (hno : ∀ L' < L, ∀ y', ¬ Slip p L' y')
    (hentries : ∀ i, i + L + 1 < p.length → e (i + L + 1) = y + i)
    (hgoes : ∀ i, i + L + 1 < p.length → ∀ c ∈ p, p[i + L + 1]? ≠ some c →
      overlap p (p.take (y + i) ++ [c]) = overlap p (p.take (i + L + 1) ++ [c])) : Right p e := by
  intro j
  induction j using Nat.strong_induction_on with
  | _ j ih =>
      intro hj c r hfalls
      rcases Nat.lt_or_ge L j with hlong | hshort
      · obtain ⟨i, rfl⟩ := Nat.exists_eq_add_of_lt hlong
        rw [Nat.add_comm L i] at ih hj hfalls ⊢
        have hlt := h.lt (i + L) (by omega)
        have hentry := hentries i hj
        cases hfalls with
        | hit hget => exact (overlap_hit hget).symm
        | fall hne hfalls =>
            by_cases hc : c ∈ p
            · rw [ih _ hlt (by omega) c r hfalls, hentry]
              exact hgoes i hj c hc hne
            · rw [hfalls.of_not_mem hc, overlap_of_not_mem hc]
      · refine hfalls.eq_overlap hj fun i hi => ?_
        exact h.eq_border (Nat.le_refl _) hno i (by omega) (by omega)

/-- **When matching is right**, although the table may not be. -/
theorem right_iff_harmless (h : Table p e p.length) : Right p e ↔ Harmless p := by
  have hshrinks : Shrinks p e := fun j hj => h.lt j (by omega)
  constructor
  · intro hright L y hL hslip hno
    have hentries : ∀ i, i + L + 1 < p.length → e (i + L + 1) = y + i := by
      refine h.behind_slip (h.eq_of_slip hL hslip hno) fun i hi hentry => ?_
      have hlt := h.lt (i + L) (by omega)
      rw [hentry] at hlt
      have hget : p[y + i]? = some p[y + i] := List.getElem?_eq_getElem (by omega)
      by_contra hne
      have hfalls : Falls p e (i + L + 1) p[y + i] (y + i + 1) := by
        refine .fall (fun heq => hne (hget.trans heq.symm)) ?_
        rw [hentry]
        exact .hit hget
      exact not_overlap_hit hslip (by omega) hlt _ (hright _ (by omega) _ _ hfalls).symm
    intro i hi c _ hne
    have hlt := h.lt (i + L) (by omega)
    rw [hentries i hi] at hlt
    obtain ⟨r, hr⟩ := exists_falls hshrinks (show y + i < p.length by omega) c
    have hfalls : Falls p e (i + L + 1) c r := .fall hne (by rwa [hentries i hi])
    exact (hright _ (by omega) _ _ hr).symm.trans (hright _ hi _ _ hfalls)
  · intro hharmless j hj c r hfalls
    by_cases hslip : ∃ L, L < j ∧ ∃ y, Slip p L y
    · classical
      obtain ⟨hL, y, hslip'⟩ := Nat.find_spec hslip
      have hno : ∀ L' < Nat.find hslip, ∀ y', ¬ Slip p L' y' :=
        fun L' hL' y' h' => Nat.find_min hslip hL' ⟨hL'.trans hL, y', h'⟩
      generalize Nat.find hslip = L at hL hslip' hno
      have hgoes := hharmless L y (by omega) hslip' hno
      have hentries : ∀ i, i + L + 1 < p.length → e (i + L + 1) = y + i := by
        refine h.behind_slip (h.eq_of_slip (by omega) hslip' hno) fun i hi hentry => ?_
        have hlt := h.lt (i + L) (by omega)
        rw [hentry] at hlt
        have hget : p[y + i]? = some p[y + i] := List.getElem?_eq_getElem (by omega)
        by_contra hne
        have hsame := hgoes i (by omega) _ (List.getElem_mem _) fun heq => hne (hget.trans heq.symm)
        rw [overlap_hit hget] at hsame
        exact not_overlap_hit hslip' (by omega) hlt _ hsame.symm
      exact h.falls_overlap hno hentries hgoes j hj c r hfalls
    · push Not at hslip
      refine hfalls.eq_overlap hj fun i hi => ?_
      exact h.eq_border (Nat.le_refl _) hslip i hi (by omega)

variable {s : Bytes} {fuel : ℕ}

/-- Where the needle is not found and does not go on with the text, the part of it that was matched is not
longer than a prefix that has a slip. -/
def BreaksEarly (p s : Bytes) : Prop :=
  ∀ t c, t ++ [c] <+: s → (∀ u, u <+: t → ¬ p <:+ u) → p[overlap p t]? ≠ some c →
    ∀ L < overlap p t, ∀ y, ¬ Slip p L y

/-- **In front of every slip** the states agree with the text. -/
theorem Table.agrees_of_early (h : Table p e p.length) (hearly : BreaksEarly p s) : Agrees p e s := by
  intro t j hpre hread
  have hstep : ∀ u c r, u ++ [c] <+: t → (∀ v, v <+: u → ¬ p <:+ v) → Falls p e (overlap p u) c r →
      r = overlap p (p.take (overlap p u) ++ [c]) := by
    intro u c r hu hnone hfalls
    by_cases hget : p[overlap p u]? = some c
    · rw [overlap_hit hget]
      exact hfalls.unique (.hit hget)
    · have hno := hearly u c (hu.trans hpre) hnone hget
      have hlt : overlap p u < p.length :=
        lt_of_le_of_ne (isGreatest_overlap p u).1.1 fun heq =>
          hnone u List.prefix_rfl (overlap_eq_length_iff.mp heq)
      exact hfalls.eq_overlap hlt fun i hi => h.eq_border (Nat.le_refl _) hno i hi (by omega)
  rw [(hread.eq_overlap hstep).1]
  exact overlap_eq_length_iff

/-! ## Matching -/

/-- The text is read up to the cursor `i`, and the state is `j`, or has to fall from `j` for the next
character. -/
def At (p : Bytes) (e : ℕ → ℕ) (s : Bytes) (i j : ℕ) : Prop :=
  ∃ j₀, Reads p e (s.take i) j₀ ∧ (j = j₀ ∨ ∃ c, s[i]? = some c ∧ j ≤ j₀ ∧ j₀ < p.length ∧
    ∀ r, Falls p e j c r → Falls p e j₀ c r)

/-- The next character was read. -/
theorem At.concat (h : At p e s i n) (hi : i < s.length) (hn : n < p.length) (hfalls : Falls p e n s[i] r) :
    At p e s (i + 1) r := by
  obtain ⟨j₀, hread, hstate⟩ := h
  have hnext : j₀ < p.length ∧ Falls p e j₀ s[i] r := by
    rcases hstate with rfl | ⟨c, hc, -, hj₀, hfall⟩
    · exact ⟨hn, hfalls⟩
    · rw [List.getElem?_eq_getElem hi, Option.some.injEq] at hc
      exact ⟨hj₀, hc ▸ hfall r (hc ▸ hfalls)⟩
  refine ⟨r, ?_, Or.inl rfl⟩
  rw [List.take_succ_eq_append_getElem hi]
  exact hread.concat hnext.1 hnext.2

/-- The state falls. -/
theorem At.fall (h : At p e s i (n + 1)) (hi : i < s.length) (hn : n + 1 < p.length)
    (hlt : e (n + 1) < n + 1) (hne : p[n + 1]? ≠ some s[i]) : At p e s i (e (n + 1)) := by
  obtain ⟨j₀, hread, hstate⟩ := h
  refine ⟨j₀, hread, Or.inr ⟨s[i], List.getElem?_eq_getElem hi, ?_⟩⟩
  rcases hstate with rfl | ⟨c, hc, hle, hj₀, hfall⟩
  · exact ⟨hlt.le, hn, fun r hr => .fall hne hr⟩
  · rw [List.getElem?_eq_getElem hi, Option.some.injEq] at hc
    exact ⟨by omega, hj₀, fun r hr => hc ▸ hfall r (hc ▸ .fall hne hr)⟩

/-- **The loop** over the beginning `s` of the haystack. -/
theorem matchLoop_spec {haystack : Bytes} (hpre : s <+: haystack) (hholds : Holds jump e p.length)
    (htable : Table p e p.length) (hsize : p.length ≤ jumpSize) (hi : i ≤ s.length) (hn : n ≤ p.length)
    (hat : At p e s i n) (hfuel : 2 * (s.length - i) + n < fuel) :
    ∃ x : Option ℕ, (matchLoop haystack p s.length p.length jump fuel i n).map (position p.length) =
      some (x.map Nat.cast) ∧ Outcome p e s x := by
  induction fuel generalizing i n with
  | zero => exact absurd hfuel (Nat.not_lt_zero _)
  | succ fuel ih =>
      rw [matchLoop]
      by_cases hgo : i < s.length ∧ n < p.length
      · obtain ⟨hi, hn⟩ := hgo
        have hbyte : byteAt haystack i = some s[i] := by
          rw [byteAt_of_lt (hi.trans_le hpre.length_le), hpre.getElem]
        rw [if_pos ⟨by exact_mod_cast hi, by exact_mod_cast hn⟩, hbyte, Option.bind_some, byteAt_of_lt hn,
          Option.bind_some]
        have hget : p[n]? = some p[n] := List.getElem?_eq_getElem hn
        by_cases hc : s[i] = p[n]
        · rw [if_pos hc]
          exact ih (i := i + 1) (n := n + 1) hi hn (hat.concat hi hn (.hit (hget.trans (by rw [hc])))) (by omega)
        · rw [if_neg hc]
          have hne : p[n]? ≠ some s[i] := fun heq => hc (Option.some.inj (heq.symm.trans hget))
          cases n with
          | zero =>
              rw [if_pos Nat.cast_zero]
              exact ih (i := i + 1) hi hn.le (hat.concat hi hn (.stay hne)) (by omega)
          | succ n =>
              have hlt := htable.lt n (by omega)
              have hplace : (((n + 1 : ℕ) : ℤ) - 1) = (n : ℕ) := by push_cast; omega
              rw [if_neg (by omega), hplace, readAt_of_lt (by omega), Option.bind_some, hholds n (by omega),
                Int.sub_add_cancel]
              exact ih hi.le (by omega) (hat.fall hi hn hlt hne) (by omega)
      · rw [if_neg (fun h => hgo ⟨by exact_mod_cast h.1, by exact_mod_cast h.2⟩), Option.map_some]
        obtain ⟨j₀, hread, hstate⟩ := hat
        rcases hn.eq_or_lt with rfl | hn
        · have hread' : Reads p e (s.take i) p.length := by
            rcases hstate with rfl | ⟨-, -, hle, hj₀, -⟩
            · exact hread
            · omega
          have hle := (hread'.le fun j hj => htable.lt j (by omega)).2
          have hlen : (s.take i).length = i := by simp [hi]
          refine ⟨_, ?_, .found hread' (List.take_prefix i s)⟩
          rw [hlen] at hle ⊢
          simp [position, Int.ofNat_sub hle]
        · obtain rfl : i = s.length := by omega
          rw [List.take_length] at hread
          rcases hstate with rfl | ⟨c, hc, -⟩
          · exact ⟨none, by simp [position, hn.ne], .missed hread hn⟩
          · rw [List.getElem?_eq_none (Nat.le_refl _)] at hc
            exact absurd hc.symm (Option.some_ne_none c)

/-- The part of a haystack that is looked at. -/
def seen (haystack : Bytes) : Bytes := haystack.take (intLen haystack).toNat

theorem intLen_le (s : Bytes) : intLen s ≤ s.length := intOf_le s.length

theorem intLen_of_lt (h : s.length < 2 ^ 31) : intLen s = s.length := intOf_of_lt h

theorem seen_of_lt (h : s.length < 2 ^ 31) : seen s = s := by
  rw [seen, intLen_of_lt h]
  simp

/-- **What is returned** is the outcome of the part that is looked at. -/
theorem strStr_outcome (hp : p ≠ []) (hlt : p.length < 160000) (htable : Table p e p.length)
    (hinit : ∃ jump', initJump fuel p jump = some jump' ∧ Holds jump' e p.length) (haystack : Bytes)
    (hfuel : 2 * haystack.length + p.length < fuel) :
    ∃ x : Option ℕ, strStr fuel haystack p jump = some (x.map Nat.cast) ∧ Outcome p e (seen haystack) x := by
  have hpos := List.length_pos_of_ne_nil hp
  have hle := intLen_le haystack
  have hlen : (seen haystack).length = (intLen haystack).toNat := by
    rw [seen, List.length_take]
    omega
  have hneedle : intLen p = p.length := intLen_of_lt (by omega)
  rw [strStr, hneedle, if_neg (by omega)]
  by_cases hshort : intLen haystack < p.length
  · obtain ⟨x, hx⟩ := exists_outcome (p := p) (fun j hj => htable.lt j (by omega)) (seen haystack)
    cases hx with
    | found hread hpre =>
        have := (hread.le fun j hj => htable.lt j (by omega)).2
        have := hpre.length_le
        omega
    | missed hread hj => exact ⟨none, by simp [hshort], .missed hread hj⟩
  · obtain ⟨jump', hfilled, hholds⟩ := hinit
    have hhay : intLen haystack = (seen haystack).length := by omega
    have hat : At p e (seen haystack) 0 0 := ⟨0, .nil, Or.inl rfl⟩
    rw [if_neg (by omega), if_neg hshort, hfilled, Option.bind_some, matchNeedle, hneedle, hhay]
    exact matchLoop_spec (i := 0) (n := 0) (List.take_prefix _ _) hholds htable hlt.le (Nat.zero_le _)
      (Nat.zero_le _) hat (by omega)

/-! ## First occurrences -/

/-- The position of the first occurrence is returned, or `NULL` if there is none. -/
def Finds (haystack needle : CStr) : Prop :=
  ∃ x : Option ℕ, IsFirst needle.1 haystack.1 x ∧ ∀ fuel, 2 * haystack.1.length + needle.1.length < fuel →
    ∀ jump, strStr fuel haystack needle jump = some (x.map Nat.cast)

theorem isFirst_nil_iff (s : Bytes) (x : Option ℕ) : IsFirst [] s x ↔ x = some 0 := by
  have hzero : IsFirst [] s (some 0) := ⟨List.nil_prefix, fun k _ => Nat.zero_le k⟩
  exact ⟨fun h => h.unique hzero, fun h => h ▸ hzero⟩

/-- The empty needle is found in front. -/
theorem finds_nil (haystack needle : CStr) (h : needle.1 = []) : Finds haystack needle := by
  refine ⟨some 0, ?_, fun fuel _ jump => ?_⟩
  · rw [h, isFirst_nil_iff]
  · rw [h]
    rfl

/-- **When the first occurrence is found** in a haystack: in the part that is looked at the states agree with the
text, and the first occurrence there is that in the haystack. -/
theorem finds_iff (needle : CStr) (hlt : needle.1.length < 160000) :
    ∃ e, Table needle.1 e needle.1.length ∧ ∀ haystack : CStr, Finds haystack needle ↔
      Agrees needle.1 e (seen haystack) ∧ ∀ x, IsFirst needle.1 (seen haystack) x ↔ IsFirst needle.1 haystack.1 x := by
  by_cases hp : needle.1 = []
  · have htable : Table needle.1 (fun _ => 0) needle.1.length :=
      ⟨rfl, fun L _ => Nat.succ_pos L, fun L hL => absurd hL (by simp [hp])⟩
    refine ⟨_, htable, fun haystack => iff_of_true (finds_nil haystack needle hp) ⟨fun t j _ hread => ?_, fun x => ?_⟩⟩
    · have hle := (hread.le fun j hj => Nat.succ_pos j).1
      rw [hp] at hle ⊢
      exact iff_of_true (Nat.le_zero.mp hle) List.nil_suffix
    · rw [hp, isFirst_nil_iff, isFirst_nil_iff]
  obtain ⟨e, htable, hinit⟩ := initJump_spec hp hlt.le
  have hshrinks : Shrinks needle.1 e := fun j hj => htable.lt j (by omega)
  refine ⟨e, htable, fun haystack => ?_⟩
  have houtcome : ∀ fuel, 2 * haystack.1.length + needle.1.length < fuel → ∀ jump, ∃ x : Option ℕ,
      strStr fuel haystack needle jump = some (x.map Nat.cast) ∧ Outcome needle.1 e (seen haystack) x :=
    fun fuel hfuel jump => strStr_outcome hp hlt htable (hinit fuel (by omega) jump) haystack hfuel
  obtain ⟨x, hret, hx⟩ := houtcome _ (Nat.lt_succ_self _) fun _ => 0
  constructor
  · rintro ⟨y, hfirst, hret'⟩
    have heq := (hret' _ (Nat.lt_succ_self _) _).symm.trans hret
    rw [Option.map_injective Nat.cast_injective (Option.some.inj heq)] at hfirst
    have hseen := hx.isFirst_of_prefix hshrinks (List.take_prefix _ _) hfirst
    refine ⟨(hx.isFirst_iff hshrinks hp).mp hseen, fun z => ?_⟩
    exact ⟨fun hz => hseen.unique hz ▸ hfirst, fun hz => hfirst.unique hz ▸ hseen⟩
  · rintro ⟨hagrees, hsame⟩
    refine ⟨x, (hsame x).mp (hagrees.isFirst hp hx), fun fuel hfuel jump => ?_⟩
    obtain ⟨y, hret', hy⟩ := houtcome fuel hfuel jump
    rw [hret', hy.unique hx]

/-- **When the first occurrence is found.** In a haystack it is where, in the part that is looked at, the states
of the table reach the end of the needle just where the needle ends; so it is in every haystack whose length is an
`int` if and only if the slips of the needle are harmless, and for any needle in a haystack that is shorter or
breaks off every match before a slip. -/
theorem strStr_iff (needle : CStr) (hlt : needle.1.length < 160000) :
    (∃ e, Table needle.1 e needle.1.length ∧ ∀ haystack : CStr, Finds haystack needle ↔
      Agrees needle.1 e (seen haystack) ∧ ∀ x, IsFirst needle.1 (seen haystack) x ↔ IsFirst needle.1 haystack.1 x) ∧
    ((∀ haystack : CStr, haystack.1.length < 2 ^ 31 → Finds haystack needle) ↔ Harmless needle) ∧
    (∀ haystack : CStr, Harmless needle ∨ (seen haystack).length < needle.1.length ∨
        BreaksEarly needle (seen haystack) →
      (Finds haystack needle ↔ ∀ x, IsFirst needle.1 (seen haystack) x ↔ IsFirst needle.1 haystack.1 x)) := by
  obtain ⟨e, htable, hfinds⟩ := finds_iff needle hlt
  have hshrinks : Shrinks needle.1 e := fun j hj => htable.lt j (by omega)
  have hagrees : ∀ haystack : CStr, Harmless needle ∨ (seen haystack).length < needle.1.length ∨
      BreaksEarly needle (seen haystack) → Agrees needle.1 e (seen haystack) := by
    rintro haystack (hharmless | hshort | hearly)
    · exact ((right_iff_harmless htable).mpr hharmless).agrees _
    · intro t j hpre hread
      have hle := (hread.le hshrinks).2
      have hlen := hpre.length_le
      exact iff_of_false (by omega) fun hsuffix => absurd hsuffix.length_le (by omega)
    · exact htable.agrees_of_early hearly
  refine ⟨⟨e, htable, hfinds⟩, ⟨fun hall => ?_, fun hharmless haystack hshort => ?_⟩, fun haystack h => ?_⟩
  · by_contra hharmless
    obtain ⟨s, x, hx, hwrong, hmem, hlen⟩ := exists_wrong hshrinks (mt (right_iff_harmless htable).mp hharmless)
    have hshort : s.length < 2 ^ 31 := by omega
    have hp : needle.1 ≠ [] := fun hnil => hharmless fun L y hL => absurd hL (by simp [hnil])
    have hright := ((hfinds ⟨s, fun hzero => needle.2 (hmem 0 hzero)⟩).mp (hall _ hshort)).1
    rw [seen_of_lt hshort] at hright
    exact hwrong (hright.isFirst hp hx)
  · rw [hfinds]
    exact ⟨hagrees haystack (Or.inl hharmless), by rw [seen_of_lt hshort]; exact fun x => Iff.rfl⟩
  · rw [hfinds, and_iff_right (hagrees haystack h)]

/-- A needle whose table has no slip. -/
theorem strStr_iff_aab : Finds ⟨ascii "xaab", by decide⟩ ⟨ascii "aab", by decide⟩ := by
  refine (strStr_iff ⟨ascii "aab", by decide⟩ (by decide)).2.1.mpr ?_ _ (by decide)
  rintro L y hL ⟨x, hx, hy, -⟩
  have hL' : L < 2 := Nat.lt_of_succ_lt_succ hL
  have := hy.1.1.1
  have := hy.1.2
  omega

/-- A needle with a slip: an occurrence is found that is none. -/
theorem strStr_slip : ¬ ∀ haystack needle : CStr, needle.1.length < 160000 → Finds haystack needle := by
  intro h
  obtain ⟨x, hfirst, hret⟩ := h ⟨ascii "abacababcababd", by decide⟩ ⟨ascii "abacababd", by decide⟩ (by decide)
  have hfive : strStr 60 (ascii "abacababcababd") (ascii "abacababd") (fun _ => 0) = some (some 5) := by
    decide +kernel
  have heq := (hret 60 (by decide) _).symm.trans hfive
  cases x with
  | none => exact absurd (Option.some.inj heq) nofun
  | some k =>
      have hk : (k : ℤ) = 5 := by simpa using heq
      obtain rfl : k = 5 := by omega
      have hpre : ascii "abacababd" <+: (ascii "abacababcababd").drop 5 := hfirst.1
      exact absurd hpre (by decide)

end Asenal.Acm
