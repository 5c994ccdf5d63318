import Asenal.Lib.CString

/-!
# The integer conversions of `sscanf`

The conversions of 64 and 32 bits, signed and unsigned: the digits are read in full, converted in 64
bits, where the value saturates, and cut to the width of the variable.

* `scanInt_decInt` — what was printed with `%d` or `%lld` is read as the same number.
* `toLong_toInt`, `toULong_toNat` — a number that fits is stored as it is.
* `head_dec`, `length_dec_le` — how a printed number begins, and how long it is.
-/

namespace Asenal.Lib.Scan

open Asenal.Lib.Text Asenal.Lib.CString

/-! ## Conversions -/

/-- The value of a digit of base 16, and 16 for any other byte. -/
def digitVal (b : UInt8) : ℕ :=
  if 48 ≤ b ∧ b ≤ 57 then b.toNat - 48
  else if 97 ≤ b ∧ b ≤ 102 then b.toNat - 87
  else if 65 ≤ b ∧ b ≤ 70 then b.toNat - 55
  else 16

/-- The text begins with `0x` or `0X`. -/
def hexPrefix : Bytes → Bool
  | 48 :: c :: _ => c == 120 || c == 88
  | _ => false

/-- A text with another second byte has no prefix. -/
theorem hexPrefix_cons {d : UInt8} {t : Bytes} (h : d = 48 → ∀ c ∈ t.head?, c ≠ 120 ∧ c ≠ 88) :
    hexPrefix (d :: t) = false := by
  unfold hexPrefix
  split
  · rename_i c t' heq
    obtain ⟨hd, rfl⟩ := List.cons.inj heq
    simp [h hd c rfl]
  · rfl

/-- The digits of `%o` and `%x`, with the base 8 or 16: white space, an optional sign, for `%x` an
optional prefix, and the longest run of digits; `none` if there is none. -/
def scanBase (base : ℕ) (s : Bytes) : Option ℤ :=
  let r := scanSign (skipSpace s)
  let hex := base == 16 && hexPrefix r.2
  let ds := (if hex then r.2.drop 2 else r.2).takeWhile fun b => digitVal b < base
  let v := ds.foldl (fun n d => base * n + digitVal d) 0
  if ds = [] ∧ hex = false then none else some (if r.1 then -(v : ℤ) else v)

/-- The digits of `%d` and `%u`. -/
def scanDec (s : Bytes) : Option ℤ := (scanInt (skipSpace s)).1

/-- A `long` from the digits that were read: the value saturates. Source: `strtol`. -/
def toLong (v : ℤ) : Int64 := Int64.ofInt (max (-2 ^ 63) (min v (2 ^ 63 - 1)))

/-- An `unsigned long` from the digits that were read: a number that is too large saturates, and a
negative one wraps. Source: `strtoul`. -/
def toULong (v : ℤ) : UInt64 :=
  if 2 ^ 64 ≤ v.natAbs then UInt64.ofNat (2 ^ 64 - 1) else UInt64.ofNat (v % 2 ^ 64).toNat

/-- A number that fits is stored as it is. -/
theorem toLong_toInt (b : Int64) : toLong b.toInt = b := by
  have h₁ := b.le_toInt
  have h₂ := b.toInt_lt
  have hclamp : max (-2 ^ 63) (min b.toInt (2 ^ 63 - 1)) = b.toInt := by omega
  rw [toLong, hclamp, Int64.ofInt_toInt]

/-- A number that fits is stored as it is. -/
theorem toULong_toNat (b : UInt64) : toULong b.toNat = b := by
  have hlt := b.toNat_lt
  have hmod : ((b.toNat : ℤ) % 2 ^ 64).toNat = b.toNat := by omega
  rw [toULong, if_neg (by omega), hmod, UInt64.ofNat_toNat]

/-! ## Printed numbers -/

/-- What `printf("%d")` prints is a numeral of that value. -/
theorem numeral_decInt (z : ℤ) : numeral (decInt z) = some z := by
  unfold decInt
  split_ifs with hneg
  · have hdec := numeral_dec z.natAbs
    obtain ⟨ds, hne, hall, hds, hval⟩ := numeral_eq_some hdec
    rw [scanSign_of_digits fun d hd => isDigit_of_mem_dec hd] at hds hval
    obtain rfl := hds
    have htake : (dec z.natAbs).takeWhile isDigit = dec z.natAbs :=
      List.takeWhile_eq_self_iff.mpr hall
    have hdrop : (dec z.natAbs).dropWhile isDigit = [] := List.dropWhile_eq_nil_iff.mpr hall
    have hscan : scanInt (45 :: dec z.natAbs) = (some (-(digitsVal (dec z.natAbs) : ℤ)), []) := by
      unfold scanInt
      simp only [scanSign, htake, hdrop, if_neg hne, if_true]
    rw [numeral, hscan, digitsVal_dec]
    dsimp only
    congr 1
    omega
  · have hdec := numeral_dec z.natAbs
    rw [hdec]
    congr 1
    omega

/-- A natural number has no sign. -/
theorem decInt_natCast (n : ℕ) : decInt n = dec n := by
  rw [decInt, if_neg (by omega), Int.natAbs_natCast]

/-- No printed number but zero begins with the digit `0`. -/
theorem head_dec {n : ℕ} (h : n ≠ 0) : (dec n).head? ≠ some 48 := by
  have hne : Nat.digits 10 n ≠ [] := Nat.digits_ne_nil_iff_ne_zero.mpr h
  have hlast := Nat.getLast_digit_ne_zero 10 h
  have hlt := Nat.digits_lt_base (show 1 < 10 by decide) (List.getLast_mem hne)
  rw [dec, if_neg h, List.head?_map, List.head?_reverse, List.getLast?_eq_some_getLast hne]
  have hdigit : ∀ d < 10, d ≠ 0 → some (UInt8.ofNat (48 + d)) ≠ some 48 := by decide
  exact hdigit _ hlt hlast

/-- A number below `10 ^ k` has at most `k` digits. -/
theorem length_dec_le {n k : ℕ} (h : n < 10 ^ k) (hk : 0 < k) : (dec n).length ≤ k := by
  unfold dec
  split_ifs
  · exact hk
  · rw [List.length_map, List.length_reverse]
    exact (Nat.digits_length_le_iff (by decide) n).mpr h

/-- A printed number is read as the same number. -/
theorem scanDec_decInt (z : ℤ) : scanDec (decInt z) = some z := by
  have hskip : skipSpace (decInt z) = decInt z := by
    unfold decInt
    split_ifs
    · exact skipSpace_of_head (by decide)
    · obtain ⟨b, t, hdec⟩ := List.exists_cons_of_ne_nil (dec_ne_nil z.natAbs)
      rw [hdec]
      refine skipSpace_of_head (isSpace_of_isDigit (isDigit_of_mem_dec (n := z.natAbs) ?_))
      rw [hdec]
      exact List.mem_cons_self
  have hread := scanInt_append (r := []) (numeral_decInt z) fun b hb => absurd hb (by simp)
  rw [List.append_nil] at hread
  rw [scanDec, hskip, hread]

/-- A number is known from its digits. -/
theorem decInt_inj {y z : ℤ} (h : decInt y = decInt z) : y = z := by
  have hnum := congrArg numeral h
  rw [numeral_decInt, numeral_decInt] at hnum
  exact Option.some.inj hnum

/-- A printed number has signs and digits only. -/
theorem not_mem_decInt {z : ℤ} {b : UInt8} (hminus : b ≠ 45) (hdigit : isDigit b = false) :
    b ∉ decInt z := by
  intro h
  unfold decInt at h
  split_ifs at h
  · rcases List.mem_cons.mp h with heq | hdec
    · exact hminus heq
    · rw [isDigit_of_mem_dec hdec] at hdigit
      exact absurd hdigit (by decide)
  · rw [isDigit_of_mem_dec h] at hdigit
    exact absurd hdigit (by decide)

/-- The last digit of a number. -/
theorem dec_ten {q d : ℕ} (hq : 0 < q) (hd : d < 10) :
    dec (10 * q + d) = dec q ++ [UInt8.ofNat (48 + d)] := by
  have hdigits := Nat.digits_add 10 (by decide) d q hd (Or.inr (by omega))
  rw [Nat.add_comm d] at hdigits
  unfold dec
  rw [if_neg (by omega), if_neg (by omega), hdigits, List.reverse_cons, List.map_append]
  rfl

/-- A number of one digit. -/
theorem dec_digit {d : ℕ} (hd : d < 10) : dec d = [UInt8.ofNat (48 + d)] := by
  unfold dec
  split_ifs with h
  · rw [h]
    rfl
  · rw [Nat.digits_of_lt 10 d h hd]
    rfl

/-- Digits behind a number make it larger. -/
theorem mul_le_digitsVal_append (a : Bytes) {b : Bytes} (hb : b ≠ []) :
    10 * digitsVal a ≤ digitsVal (a ++ b) := by
  have hgrow : ∀ (ds : Bytes) (n : ℕ), n ≤ ds.foldl (fun n d => 10 * n + (d.toNat - 48)) n := by
    intro ds
    induction ds with
    | nil => exact fun n => Nat.le_refl n
    | cons d ds ih =>
        intro n
        exact Nat.le_trans (by omega) (ih (10 * n + (d.toNat - 48)))
  obtain ⟨d, ds, rfl⟩ := List.exists_cons_of_ne_nil hb
  unfold digitsVal
  rw [List.foldl_append, List.foldl_cons]
  exact Nat.le_trans (Nat.le_add_right _ _) (hgrow ds _)

end Asenal.Lib.Scan
