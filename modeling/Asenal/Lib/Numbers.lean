import Asenal.Lib.Text
import Mathlib.Data.Int.Notation
import Mathlib.Algebra.Group.Nat.Defs
import Mathlib.Tactic.Ring

/-!
# Numbers as bytes

Numbers as bytes, the highest one first: whole numbers, signed numbers in two's complement, and numbers in
groups of seven bits, where all bytes but the last one have their highest bit set.

* `number_leading` — a number is read back from its bytes without leading zeros.
* `existsUnique_signed` — each integer has exactly one representation that is not longer than need be.
* `readVarint_varint`, `marked_group` — groups are read back, one after the other.
-/

namespace Asenal.Lib.Numbers

open Asenal.Lib.Text

/-! ## Whole numbers -/

/-- The number of some bytes, the highest first. -/
def number (bs : Bytes) : ℕ := bs.foldl (fun n b => n * 256 + b.toNat) 0

/-- The bytes of a number, without leading zeros. -/
def leading (n : ℕ) : Bytes :=
  if n = 0 then [] else leading (n / 256) ++ [UInt8.ofNat (n % 256)]
termination_by n
decreasing_by omega

/-- As many bytes of a number, the lowest ones. -/
def fixed : ℕ → ℕ → Bytes
  | 0, _ => []
  | k + 1, n => fixed k (n / 256) ++ [UInt8.ofNat (n % 256)]

variable {b c : UInt8} {bs cs : Bytes} {n k acc : ℕ} {v : ℤ}

/-- No bytes are zero. -/
@[simp] theorem number_nil : number [] = 0 := rfl

/-- One byte more at the end. -/
@[simp] theorem number_concat (bs : Bytes) (b : UInt8) : number (bs ++ [b]) = number bs * 256 + b.toNat := by
  simp [number]

/-- One byte more in front. -/
theorem number_cons (b : UInt8) (bs : Bytes) : number (b :: bs) = b.toNat * 256 ^ bs.length + number bs := by
  induction bs using List.reverseRecOn with
  | nil => simp [number]
  | append_singleton bs c ih =>
      rw [← List.cons_append, number_concat, ih, number_concat, List.length_append, List.length_singleton]
      ring

/-- A number is below the power of its length. -/
theorem number_lt (bs : Bytes) : number bs < 256 ^ bs.length := by
  induction bs using List.reverseRecOn with
  | nil => simp
  | append_singleton bs c ih =>
      have hc := c.toNat_lt
      rw [number_concat, List.length_append, List.length_singleton, pow_succ]
      omega

/-- The bytes of a number have it as their value. -/
theorem number_leading (n : ℕ) : number (leading n) = n := by
  induction n using Nat.strongRecOn with
  | ind n ih =>
      rw [leading]
      by_cases hn : n = 0
      · simp [hn]
      · rw [if_neg hn, number_concat, ih _ (by omega), UInt8.toNat_ofNat']
        omega

/-- The bytes of a number in a fixed length. -/
@[simp] theorem length_fixed (k n : ℕ) : (fixed k n).length = k := by
  induction k generalizing n with
  | zero => rfl
  | succ k ih => rw [fixed, List.length_append, ih, List.length_singleton]

/-- A fixed length cuts a number off. -/
theorem number_fixed (k n : ℕ) : number (fixed k n) = n % 256 ^ k := by
  induction k generalizing n with
  | zero => simp [fixed, Nat.mod_one]
  | succ k ih =>
      rw [fixed, number_concat, ih, UInt8.toNat_ofNat', pow_succ 256 k, Nat.mul_comm (256 ^ k) 256, Nat.mod_mul]
      omega

/-- Bytes are those of their number. -/
theorem fixed_number (bs : Bytes) : fixed bs.length (number bs) = bs := by
  induction bs using List.reverseRecOn with
  | nil => rfl
  | append_singleton bs c ih =>
      have hc := c.toNat_lt
      rw [List.length_append, List.length_singleton, fixed, number_concat,
        show (number bs * 256 + c.toNat) / 256 = number bs by omega,
        show (number bs * 256 + c.toNat) % 256 = c.toNat by omega, ih, UInt8.ofNat_toNat]

/-! ## Signed numbers -/

/-- The number of some bytes in two's complement. -/
def signed (bs : Bytes) : ℤ :=
  if 128 * 256 ^ (bs.length - 1) ≤ number bs then number bs - 256 ^ bs.length else number bs

/-- The first byte is not all sign. -/
def Shortest : Bytes → Prop
  | b :: c :: _ => ¬(b = 255 ∧ 128 ≤ c.toNat) ∧ ¬(b = 0 ∧ c.toNat < 128)
  | _ => True

/-- The numbers that fit into `k + 1` bytes. -/
def Fits (k : ℕ) (v : ℤ) : Prop := -(128 * 256 ^ k) ≤ v ∧ v < 128 * 256 ^ k

/-- What fits some bytes fits more. -/
theorem fits_mono {j : ℕ} (h : Fits k v) (hk : k ≤ j) : Fits j v := by
  have hpow : (256 : ℤ) ^ k ≤ 256 ^ j := by exact_mod_cast Nat.pow_le_pow_right (by omega) hk
  unfold Fits at h ⊢
  omega

/-- The value of bytes fits them. -/
theorem fits_signed (b : UInt8) (bs : Bytes) : Fits bs.length (signed (b :: bs)) := by
  have hlt := number_lt (b :: bs)
  rw [List.length_cons, pow_succ] at hlt
  unfold Fits signed
  rw [List.length_cons, Nat.add_sub_cancel, pow_succ]
  split_ifs with h
  · zify at h hlt
    constructor <;> omega
  · zify at h hlt
    constructor <;> omega

/-- How the first byte tells the sign. -/
theorem sign_iff (b : UInt8) (bs : Bytes) : 128 * 256 ^ bs.length ≤ number (b :: bs) ↔ 128 ≤ b.toNat := by
  have hlt := number_lt bs
  rw [number_cons]
  constructor
  · intro h
    by_contra hb
    have hmul : b.toNat * 256 ^ bs.length ≤ 127 * 256 ^ bs.length := Nat.mul_le_mul_right _ (by omega)
    omega
  · intro h
    have hmul := Nat.mul_le_mul_right (256 ^ bs.length) h
    omega

/-- A signed number by its first byte and its other ones. -/
theorem signed_cons (b : UInt8) (bs : Bytes) :
    signed (b :: bs) = number bs + (if 128 ≤ b.toNat then (b.toNat : ℤ) - 256 else b.toNat) * 256 ^ bs.length := by
  unfold signed
  rw [List.length_cons, Nat.add_sub_cancel]
  simp only [sign_iff]
  split_ifs <;> rw [number_cons] <;> push_cast <;> ring

/-- Bytes are not longer than need be exactly if fewer would not do. -/
theorem shortest_iff (b c : UInt8) (bs : Bytes) :
    Shortest (b :: c :: bs) ↔ ¬ Fits bs.length (signed (b :: c :: bs)) := by
  have hlt := number_lt (c :: bs)
  have hsign := sign_iff c bs
  have hb := b.toNat_lt
  have h255 : b = 255 ↔ b.toNat = 255 := by rw [← UInt8.toNat_inj]; rfl
  have h0 : b = 0 ↔ b.toNat = 0 := by rw [← UInt8.toNat_inj]; rfl
  rw [List.length_cons, pow_succ] at hlt
  rw [Shortest, Fits, signed_cons, List.length_cons, h255, h0, ← Nat.not_le, ← hsign, pow_succ]
  have hp : (256 : ℤ) ^ bs.length = (256 ^ bs.length : ℕ) := by push_cast; rfl
  rw [hp]
  generalize number (c :: bs) = w at *
  generalize 256 ^ bs.length = p at *
  generalize b.toNat = x at *
  -- the first byte counts multiples of `256 * p`, and what is behind it is less than that
  obtain ⟨s, hs⟩ : ∃ s : ℤ, s = if 128 ≤ x then (x : ℤ) - 256 else x := ⟨_, rfl⟩
  rw [← hs, show s * ((p : ℤ) * 256) = 256 * (s * p) by ring]
  rcases lt_trichotomy s 0 with hneg | rfl | hpos
  · by_cases hone : s = -1
    · subst hone
      split_ifs at hs
      omega
    · have hle : s * (p : ℤ) ≤ -2 * p := Int.mul_le_mul_of_nonneg_right (by omega) (by omega)
      split_ifs at hs <;> omega
  · split_ifs at hs <;> omega
  · have hle : 1 * (p : ℤ) ≤ s * p := Int.mul_le_mul_of_nonneg_right (by omega) (by omega)
    split_ifs at hs <;> omega

/-- Bytes whose value fits no fewer ones are the shortest. -/
theorem shortest_of_not_fits (h : ∀ j, j + 1 < bs.length → ¬ Fits j (signed bs)) : Shortest bs := by
  match bs with
  | [] => trivial
  | [b] => trivial
  | b :: c :: bs =>
      rw [shortest_iff]
      exact h bs.length (by simp)

/-- Bytes of one length with the same signed number are the same. -/
theorem eq_of_signed_eq_of_length (h : signed bs = signed cs) (hlen : bs.length = cs.length) : bs = cs := by
  have hb := number_lt bs
  have hc := number_lt cs
  have hnum : number bs = number cs := by
    unfold signed at h
    rw [← hlen] at h hc
    zify at hb hc ⊢
    split_ifs at h <;> omega
  rw [← fixed_number bs, ← fixed_number cs, hnum, hlen]

/-- Bytes that are not longer than need be do not fit into fewer. -/
theorem Shortest.length_le (h : Shortest bs) (hfit : Fits k (signed bs)) : bs.length ≤ k + 1 := by
  match bs with
  | [] => exact Nat.zero_le _
  | [b] => exact Nat.le_add_left 1 k
  | b :: c :: bs =>
      rw [shortest_iff] at h
      by_contra hlt
      refine h (fits_mono hfit ?_)
      simp only [List.length_cons] at hlt
      omega

/-- **The shortest form** of a number is unique. -/
theorem Shortest.eq (hb : bs ≠ []) (hc : cs ≠ []) (hbs : Shortest bs) (hcs : Shortest cs)
    (h : signed bs = signed cs) : bs = cs := by
  obtain ⟨b, bs, rfl⟩ := List.exists_cons_of_ne_nil hb
  obtain ⟨c, cs, rfl⟩ := List.exists_cons_of_ne_nil hc
  refine eq_of_signed_eq_of_length h (Nat.le_antisymm ?_ ?_)
  · exact hbs.length_le (h ▸ fits_signed c cs)
  · exact hcs.length_le (h ▸ fits_signed b bs)

/-- The bytes of a number that fits. -/
theorem signed_fixed (h : Fits k v) : signed (fixed (k + 1) (v % 256 ^ (k + 1)).toNat) = v := by
  have hpow : 0 < (256 : ℤ) ^ k := pow_pos (by decide) k
  have hsplit : ((v % 256 ^ (k + 1)).toNat : ℤ) = if 0 ≤ v then v else v + 256 ^ (k + 1) := by
    rw [Int.toNat_of_nonneg (Int.emod_nonneg _ (by positivity))]
    unfold Fits at h
    rw [pow_succ]
    split_ifs with hv
    · exact Int.emod_eq_of_lt hv (by omega)
    · rw [← Int.add_emod_right]
      exact Int.emod_eq_of_lt (by omega) (by omega)
  have hmod : number (fixed (k + 1) (v % 256 ^ (k + 1)).toNat) = (v % 256 ^ (k + 1)).toNat := by
    rw [number_fixed]
    refine Nat.mod_eq_of_lt ?_
    zify
    rw [hsplit, pow_succ]
    unfold Fits at h
    split_ifs <;> omega
  unfold signed Fits at *
  rw [hmod, length_fixed, Nat.add_sub_cancel]
  zify
  rw [hsplit, pow_succ]
  split_ifs <;> omega

/-- Each number fits into some bytes. -/
theorem exists_fits (v : ℤ) : ∃ k, Fits k v := by
  refine ⟨v.natAbs, ?_⟩
  have hlt : v.natAbs < 256 ^ v.natAbs := Nat.lt_pow_self (by omega)
  have hcast : (256 : ℤ) ^ v.natAbs = (256 ^ v.natAbs : ℕ) := by push_cast; rfl
  unfold Fits
  rw [hcast]
  omega

/-- **Each integer has one representation** that is not longer than need be. -/
theorem existsUnique_signed (v : ℤ) : ∃! bs : Bytes, bs ≠ [] ∧ Shortest bs ∧ signed bs = v := by
  classical
  have hfit := Nat.find_spec (exists_fits v)
  have hmin := fun j => Nat.find_min (exists_fits v) (m := j)
  generalize Nat.find (exists_fits v) = k at hfit hmin
  have hsigned := signed_fixed hfit
  have hlen := length_fixed (k + 1) (v % 256 ^ (k + 1)).toNat
  generalize fixed (k + 1) (v % 256 ^ (k + 1)).toNat = bs at hsigned hlen
  have hne : bs ≠ [] := by
    rw [← List.length_pos_iff, hlen]
    exact Nat.succ_pos k
  have hshortest : Shortest bs := by
    refine shortest_of_not_fits fun j hj => ?_
    rw [hsigned]
    exact hmin j (by omega)
  exact ⟨bs, ⟨hne, hshortest, hsigned⟩, fun cs ⟨hcs, hm, hv⟩ => hm.eq hcs hne hshortest (hv.trans hsigned.symm)⟩

/-! ## Groups of seven bits -/

/-- The groups of a number, all of them marked; none for zero. -/
def marked (n : ℕ) : Bytes :=
  if n = 0 then [] else marked (n / 128) ++ [UInt8.ofNat (n % 128 + 128)]
termination_by n
decreasing_by omega

/-- The groups of a number, all of them marked but the last one. -/
def varint (n : ℕ) : Bytes := marked (n / 128) ++ [UInt8.ofNat (n % 128)]

/-- Read the groups of a number behind others, whose number is `acc`. -/
def readVarint (acc : ℕ) : Bytes → Option (ℕ × Bytes)
  | [] => none
  | b :: bs =>
      if b.toNat < 128 then some (acc * 128 + b.toNat, bs) else readVarint (acc * 128 + (b.toNat - 128)) bs

/-- Zero has no groups that are marked. -/
@[simp] theorem marked_zero : marked 0 = [] := by
  rw [marked, if_pos rfl]

/-- The last group stands behind those of the rest. -/
theorem marked_concat (hn : n ≠ 0) : marked n = marked (n / 128) ++ [UInt8.ofNat (n % 128 + 128)] := by
  rw [marked, if_neg hn]

/-- A group that is marked has its highest bit. -/
theorem le_of_mem_marked (h : b ∈ marked n) : 128 ≤ b.toNat := by
  induction n using Nat.strongRecOn with
  | ind n ih =>
      by_cases hn : n = 0
      · simp [hn] at h
      · rw [marked_concat hn, List.mem_append, List.mem_singleton] at h
        rcases h with h | rfl
        · exact ih _ (by omega) h
        · rw [UInt8.toNat_ofNat']
          omega

/-- Groups that are marked are read over. -/
theorem readVarint_marked (n : ℕ) (bs : Bytes) : readVarint 0 (marked n ++ bs) = readVarint n bs := by
  induction n using Nat.strongRecOn generalizing bs with
  | ind n ih =>
      by_cases hn : n = 0
      · rw [hn, marked_zero, List.nil_append]
      · have hgroup : (UInt8.ofNat (n % 128 + 128)).toNat = n % 128 + 128 := by
          rw [UInt8.toNat_ofNat']
          omega
        rw [marked_concat hn, List.append_assoc, ih _ (by omega), List.singleton_append, readVarint, hgroup,
          if_neg (by omega), show n / 128 * 128 + (n % 128 + 128 - 128) = n by omega]

/-- **A number in groups** is read back, whatever stands behind it. -/
theorem readVarint_varint (n : ℕ) (bs : Bytes) : readVarint 0 (varint n ++ bs) = some (n, bs) := by
  have hgroup : (UInt8.ofNat (n % 128)).toNat = n % 128 := by
    rw [UInt8.toNat_ofNat']
    omega
  rw [varint, List.append_assoc, readVarint_marked, List.singleton_append, readVarint, hgroup,
    if_pos (by omega), Option.some.injEq, Prod.mk.injEq]
  exact ⟨by omega, rfl⟩

/-- A group behind others. -/
theorem marked_group (hb : 128 ≤ b.toNat) (hne : acc = 0 → b ≠ 128) :
    marked (acc * 128 + (b.toNat - 128)) = marked acc ++ [b] := by
  have hlt := b.toNat_lt
  have hpos : acc * 128 + (b.toNat - 128) ≠ 0 := by
    intro hzero
    refine hne (by omega) ?_
    rw [← UInt8.toNat_inj, show (128 : UInt8).toNat = 128 from rfl]
    omega
  rw [marked_concat hpos, show (acc * 128 + (b.toNat - 128)) / 128 = acc by omega,
    show (acc * 128 + (b.toNat - 128)) % 128 + 128 = b.toNat by omega, UInt8.ofNat_toNat]

/-! ## Bits -/

/-- The lowest seven bits. -/
theorem and_7f (n : ℕ) : n &&& 0x7f = n % 128 := Nat.and_two_pow_sub_one_eq_mod n 7

/-- The lowest eight bits. -/
theorem and_ff (n : ℕ) : n &&& 0xff = n % 256 := Nat.and_two_pow_sub_one_eq_mod n 8

/-- Without the lowest seven bits. -/
theorem shiftRight_seven (n : ℕ) : n >>> 7 = n / 128 := Nat.shiftRight_eq_div_pow n 7

/-- Without the lowest eight bits. -/
theorem shiftRight_eight (n : ℕ) : n >>> 8 = n / 256 := Nat.shiftRight_eq_div_pow n 8

/-- Seven bits more. -/
theorem shiftLeft_seven_or (n : ℕ) {m : ℕ} (h : m < 128) : n <<< 7 ||| m = n * 128 + m :=
  (Nat.shiftLeft_add_eq_or_of_lt h n).symm.trans (by rw [Nat.shiftLeft_eq])

/-- Eight bits more. -/
theorem shiftLeft_eight_or (n : ℕ) {m : ℕ} (h : m < 256) : n <<< 8 ||| m = n * 256 + m :=
  (Nat.shiftLeft_add_eq_or_of_lt h n).symm.trans (by rw [Nat.shiftLeft_eq])

/-- The eighth bit is set. -/
theorem or_80 {n : ℕ} (h : n < 128) : n ||| 0x80 = n + 128 := by
  rw [Nat.or_comm, ← Nat.two_pow_add_eq_or_of_lt (i := 7) h 1]
  omega

/-- The highest bit of a byte. -/
theorem and_80 {n : ℕ} (h : n < 256) : n &&& 0x80 = 0 ↔ n < 128 := by
  have hall : ∀ m < 256, m &&& 0x80 = 0 ↔ m < 128 := by decide +kernel
  exact hall n h

/-- A number as it is put together from its bytes. -/
theorem foldl_shiftLeft (bs : Bytes) : bs.foldl (fun n b => n <<< 8 ||| b.toNat) 0 = number bs := by
  unfold number
  congr 1
  funext n b
  exact shiftLeft_eight_or n b.toNat_lt

end Asenal.Lib.Numbers
