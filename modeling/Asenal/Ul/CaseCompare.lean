import Asenal.Url.Chars

/-!
# Comparison without case

`ul_strncasecmp` compares the next two characters before it looks at its count, and does not stop at a
terminator. Where the first `n` characters agree it goes on to the next one, or behind the end of both
strings.

* `cmpLoop_of_agree`, `cmpLoop_of_not_agree` — how far the comparison reads, and what it returns.
* `strncasecmp_iff` — when it reads no more than it may.
-/

namespace Asenal.Ul

open Asenal.Lib.Text Asenal.Url

/-! ## The program -/

/-- `G_MAP`: upper case letters are mapped to lower case ones, other characters to themselves. -/
def gMap : List UInt8 := (List.range 65 ++ List.range' 97 26 ++ List.range' 91 165).map Nat.toUInt8

/-- `G_MAP[(int) c]`. As `char` is signed, there is no entry for the bytes from 128 on. -/
def gMapAt (c : UInt8) : Option UInt8 := if c < 128 then gMap[c.toNat]? else none

/-- What is left of the count, and the number of the characters that were read from each buffer; `none` if
something else is read. Source: `ul_string.cpp` `ul_strncasecmp`, the loop. -/
def cmpLoop : Bytes → Bytes → ℕ → Option (ℕ × ℕ)
  | c :: s1, d :: s2, n =>
      match gMapAt c, gMapAt d with
      | some x, some y =>
          if x = y ∧ 0 < n then (cmpLoop s1 s2 (n - 1)).map fun r => (r.1, r.2 + 1)
          else some (n, 1)
      | _, _ => none
  | _, _, _ => none

/-- The buffers end at the terminators. Source: `ul_string.cpp` `ul_strncasecmp`. -/
def ulStrncasecmp (s1 s2 : Bytes) (n : ℕ) : Option (Int32 × ℕ) :=
  (cmpLoop (s1 ++ [0]) (s2 ++ [0]) n).map fun r => (Int32.ofNat r.1, r.2)

/-! ## Strings that agree -/

/-- A character of a string of ASCII characters. -/
def IsAscii (c : UInt8) : Prop := c ≠ 0 ∧ c < 128

instance : DecidablePred IsAscii := fun c => inferInstanceAs (Decidable (c ≠ 0 ∧ c < 128))

/-- A string of ASCII characters, without its terminator. -/
abbrev AsciiStr := { s : Bytes // ∀ c ∈ s, IsAscii c }

/-- The strings agree in their first `n` characters, or up to a terminator before that. -/
def Agree (a b : Bytes) (n : ℕ) : Prop := (a.map toLower).take n = (b.map toLower).take n

/-- The result tells whether the strings agree, and no character behind the first `n` is read. -/
def Compares (a b : Bytes) (n : ℕ) : Prop :=
  ∃ ret read, ulStrncasecmp a b n = some (ret, read) ∧ (ret = 0 ↔ Agree a b n) ∧ read ≤ n

variable {a b : Bytes} {c d : UInt8} {n : ℕ}

/-- The table. -/
theorem gMapAt_eq (hc : c < 128) : gMapAt c = some (toLower c) :=
  forall_byte (p := fun c => c < 128 → gMapAt c = some (toLower c)) (by decide +kernel) c hc

theorem toLower_ne_zero (hc : c ≠ 0) : toLower c ≠ 0 :=
  forall_byte (p := fun c => c ≠ 0 → toLower c ≠ 0) (by decide +kernel) c hc

/-- The next step, for ASCII characters and the terminator. -/
theorem cmpLoop_cons (hc : c < 128) (hd : d < 128) (s t : Bytes) (n : ℕ) :
    cmpLoop (c :: s) (d :: t) n =
      if toLower c = toLower d ∧ 0 < n then (cmpLoop s t (n - 1)).map fun r => (r.1, r.2 + 1)
      else some (n, 1) := by
  rw [cmpLoop, gMapAt_eq hc, gMapAt_eq hd]

theorem agree_cons (h : toLower c = toLower d) (a b : Bytes) (n : ℕ) :
    Agree (c :: a) (d :: b) (n + 1) ↔ Agree a b n := by
  unfold Agree
  rw [List.map_cons, List.map_cons, List.take_succ_cons, List.take_succ_cons, h, List.cons_inj_right]

/-- Strings that differ in their first characters, one of which may be a terminator. -/
theorem not_agree (h : (a.map toLower).head? ≠ (b.map toLower).head?) (n : ℕ) : ¬ Agree a b (n + 1) := by
  intro hagree
  refine h ?_
  have hhead := congrArg List.head? hagree
  rwa [List.head?_take, List.head?_take, if_neg (Nat.succ_ne_zero n), if_neg (Nat.succ_ne_zero n)] at hhead

/-! ## How far the comparison reads -/

/-- What the comparison of the buffers `x` and `y` does: if the strings agree it reads too much, and if
they do not it stops in time. -/
def Stops (a b x y : Bytes) (n : ℕ) : Prop :=
  (Agree a b n → ∀ r, cmpLoop x y n = some r → n < r.2) ∧
    (¬ Agree a b n → ∃ r, cmpLoop x y n = some r ∧ 0 < r.1 ∧ r.1 ≤ n ∧ r.2 ≤ n)

/-- The comparison ends with the first characters. -/
theorem stops_of_eq {x y : Bytes} (h : cmpLoop x y n = some (n, 1)) (hne : 0 < n → ¬ Agree a b n) :
    Stops a b x y n := by
  rcases Nat.eq_zero_or_pos n with rfl | hpos
  · refine ⟨fun _ r hr => ?_, fun hnot => absurd rfl hnot⟩
    rw [h] at hr
    rw [← Option.some.inj hr]
    exact Nat.zero_lt_one
  · exact ⟨fun hagree => absurd hagree (hne hpos), fun _ => ⟨(n, 1), h, hpos, Nat.le_refl n, hpos⟩⟩

/-- The comparison goes on behind the first characters. -/
theorem Stops.next {a' b' x y x' y' : Bytes} (h : Stops a b x y n)
    (heq : cmpLoop x' y' (n + 1) = (cmpLoop x y n).map fun r => (r.1, r.2 + 1))
    (hagree : Agree a' b' (n + 1) ↔ Agree a b n) : Stops a' b' x' y' (n + 1) := by
  unfold Stops
  rw [heq, hagree]
  refine ⟨fun hag r hr => ?_, fun hnot => ?_⟩
  · obtain ⟨r', hr', rfl⟩ := Option.map_eq_some_iff.mp hr
    exact Nat.succ_lt_succ (h.1 hag r' hr')
  · obtain ⟨r, hr, hpos, hle, hread⟩ := h.2 hnot
    refine ⟨(r.1, r.2 + 1), ?_, hpos, Nat.le_succ_of_le hle, Nat.succ_le_succ hread⟩
    rw [hr]
    rfl

/-- How far the comparison of two strings reads. -/
theorem cmpLoop_stops (ha : ∀ c ∈ a, IsAscii c) (hb : ∀ c ∈ b, IsAscii c) (n : ℕ) :
    Stops a b (a ++ [0]) (b ++ [0]) n := by
  have hzero : (0 : UInt8) < 128 := by decide
  induction a generalizing b n with
  | nil =>
      cases b with
      | nil =>
          cases n with
          | zero => exact stops_of_eq rfl nofun
          | succ n =>
              -- both terminators are passed, and nothing is left of the buffers
              have hnone : cmpLoop [0] [0] (n + 1) = none := by
                rw [cmpLoop_cons hzero hzero, if_pos ⟨rfl, Nat.succ_pos n⟩]
                rfl
              refine ⟨fun _ r hr => ?_, fun hnot => absurd rfl hnot⟩
              exact absurd (hnone.symm.trans hr) nofun
      | cons d b =>
          have hd := hb d List.mem_cons_self
          have hne : toLower 0 ≠ toLower d := (toLower_ne_zero hd.1).symm
          refine stops_of_eq ?_ fun hpos => ?_
          · exact (cmpLoop_cons hzero hd.2 _ _ n).trans (if_neg fun h => hne h.1)
          · obtain ⟨n, rfl⟩ := Nat.exists_eq_succ_of_ne_zero (Nat.ne_of_gt hpos)
            exact not_agree (a := []) (b := d :: b) nofun n
  | cons c a ih =>
      have hc := ha c List.mem_cons_self
      cases b with
      | nil =>
          have hne : toLower c ≠ toLower 0 := toLower_ne_zero hc.1
          refine stops_of_eq ?_ fun hpos => ?_
          · exact (cmpLoop_cons hc.2 hzero _ _ n).trans (if_neg fun h => hne h.1)
          · obtain ⟨n, rfl⟩ := Nat.exists_eq_succ_of_ne_zero (Nat.ne_of_gt hpos)
            exact not_agree (a := c :: a) (b := []) nofun n
      | cons d b =>
          have hd := hb d List.mem_cons_self
          have hstep := cmpLoop_cons hc.2 hd.2 (a ++ [0]) (b ++ [0]) n
          by_cases hgo : toLower c = toLower d ∧ 0 < n
          · obtain ⟨n, rfl⟩ := Nat.exists_eq_succ_of_ne_zero (Nat.ne_of_gt hgo.2)
            have hrest := ih (fun e he => ha e (List.mem_cons_of_mem c he))
              (fun e he => hb e (List.mem_cons_of_mem d he)) n
            exact hrest.next (hstep.trans (if_pos hgo)) (agree_cons hgo.1 a b n)
          · refine stops_of_eq (hstep.trans (if_neg hgo)) fun hpos => ?_
            obtain ⟨n, rfl⟩ := Nat.exists_eq_succ_of_ne_zero (Nat.ne_of_gt hpos)
            exact not_agree (a := c :: a) (b := d :: b) (fun heq => hgo ⟨Option.some.inj heq, hpos⟩) n

/-- **When the comparison is right**: the strings differ in one of their first `n` characters, where a
terminator is one of them. -/
theorem strncasecmp_iff (a b : AsciiStr) (n : ℕ) (hn : n < 2 ^ 31) : Compares a b n ↔ ¬ Agree a b n := by
  obtain ⟨hover, hstop⟩ := cmpLoop_stops a.2 b.2 n
  constructor
  · rintro ⟨ret, read, hcall, -, hread⟩ hagree
    obtain ⟨r, hr, heq⟩ := Option.map_eq_some_iff.mp hcall
    obtain ⟨-, rfl⟩ := Prod.mk.inj heq
    exact absurd (hover hagree r hr) (Nat.not_lt.mpr hread)
  · intro hnot
    obtain ⟨r, hr, hpos, hle, hread⟩ := hstop hnot
    refine ⟨Int32.ofNat r.1, r.2, congrArg _ hr, ?_, hread⟩
    refine iff_of_false (fun hzero => ?_) hnot
    have hval : (Int32.ofNat r.1).toInt = r.1 := Int32.toInt_ofNat_of_lt (by omega)
    rw [hzero] at hval
    have : (0 : Int32).toInt = 0 := rfl
    omega

/-- `Ab` and `aC` differ only in the last one of the two characters that are compared. -/
theorem strncasecmp_last : Compares [65, 98] [97, 67] 2 :=
  (strncasecmp_iff ⟨[65, 98], by decide +kernel⟩ ⟨[97, 67], by decide +kernel⟩ 2 (by decide)).mpr (by
    unfold Agree
    decide)

/-- `ab` and `AB` are read behind their ends. -/
theorem strncasecmp_equal : ¬ ∀ (a b : AsciiStr) (n : ℕ), n < 2 ^ 31 → Compares a b n := by
  intro h
  obtain ⟨ret, read, hcall, -⟩ :=
    h ⟨[97, 98], by decide +kernel⟩ ⟨[65, 66], by decide +kernel⟩ 8 (by decide)
  have hnone : ulStrncasecmp [97, 98] [65, 66] 8 = none := by decide +kernel
  exact absurd (hnone.symm.trans hcall) nofun

end Asenal.Ul
