import Asenal.Ad.Asn1
import Asenal.Lib.Numbers
import Mathlib.Data.Nat.Digits.Lemmas
import Mathlib.Data.List.Flatten

/-!
# The values of ASN.1

Integers and object identifiers, as `asn1.py` writes and reads them.

* `encodeInteger_eq`, `decodeInteger_eq` — the bytes of an integer, and the integer of bytes.
* `decodeInteger_encodeInteger` — which integers are read back, and what is read for the others.
* `existsUnique_decodeInteger` — each integer has exactly one accepted form.
* `decode_encodeObjectIdentifier`, `encode_decodeObjectIdentifier` — identifiers, forth and back.
-/

namespace Asenal.Ad

open Asenal.Lib.Text Asenal.Lib.Numbers

/-! ## Digits, the lowest first -/

/-- Digits that are bytes. -/
def AreBytes (vs : List ℕ) : Prop := ∀ v ∈ vs, v < 256

/-- The number of bytes, the lowest first. -/
theorem number_reverse {vs : List ℕ} (h : AreBytes vs) :
    number (vs.reverse.map UInt8.ofNat) = Nat.ofDigits 256 vs := by
  induction vs with
  | nil => rfl
  | cons v vs ih =>
      have hv : v < 256 := h v List.mem_cons_self
      rw [List.reverse_cons, List.map_append, List.map_singleton, number_concat,
        ih fun w hw => h w (List.mem_cons_of_mem v hw), Nat.ofDigits_cons, UInt8.toNat_ofNat',
        Nat.mod_eq_of_lt hv]
      omega

/-- A number and its complement add up to the largest number of that length. -/
theorem ofDigits_complement {vs : List ℕ} (h : AreBytes vs) :
    Nat.ofDigits 256 (vs.map (0xff - ·)) + Nat.ofDigits 256 vs + 1 = 256 ^ vs.length := by
  induction vs with
  | nil => rfl
  | cons v vs ih =>
      have hv : v < 256 := h v List.mem_cons_self
      have hih := ih fun w hw => h w (List.mem_cons_of_mem v hw)
      rw [List.map_cons, Nat.ofDigits_cons, Nat.ofDigits_cons, List.length_cons, pow_succ, ← hih]
      omega

/-- A complement of bytes is bytes. -/
theorem areBytes_complement (vs : List ℕ) : AreBytes (vs.map (0xff - ·)) := by
  intro v hv
  obtain ⟨w, -, rfl⟩ := List.mem_map.mp hv
  omega

/-- One is added, if that fits. -/
theorem addOne_eq {vs : List ℕ} (h : AreBytes vs) (hlt : Nat.ofDigits 256 vs + 1 < 256 ^ vs.length) :
    ∃ ws, addOne vs = .ok ws ∧ ws.length = vs.length ∧ AreBytes ws ∧
      Nat.ofDigits 256 ws = Nat.ofDigits 256 vs + 1 := by
  induction vs with
  | nil => simp at hlt
  | cons v vs ih =>
      have hv : v < 256 := h v List.mem_cons_self
      have hvs : AreBytes vs := fun w hw => h w (List.mem_cons_of_mem v hw)
      rw [addOne]
      by_cases hfit : v + 1 ≤ 0xff
      · refine ⟨_, if_pos hfit, rfl, ?_, ?_⟩
        · rintro w hw
          rcases List.mem_cons.mp hw with rfl | hw
          · omega
          · exact hvs w hw
        · rw [Nat.ofDigits_cons, Nat.ofDigits_cons]
          omega
      · rw [Nat.ofDigits_cons, List.length_cons, pow_succ] at hlt
        have hne : vs ≠ [] := by
          rintro rfl
          rw [Nat.ofDigits_nil, List.length_nil, pow_zero] at hlt
          omega
        obtain ⟨ws, hws, hlen, hbytes, hval⟩ := ih hvs (by omega)
        refine ⟨0 :: ws, ?_, by rw [List.length_cons, hlen, List.length_cons], ?_, ?_⟩
        · rw [if_neg hfit, if_neg hne, hws]
          rfl
        · rintro w hw
          rcases List.mem_cons.mp hw with rfl | hw
          · omega
          · exact hbytes w hw
        · rw [Nat.ofDigits_cons, Nat.ofDigits_cons, hval]
          omega

/-! ## Integers -/

/-- How many bytes there are behind the highest one. -/
def extraBytes (limit value : ℕ) : ℕ := (integerLoop limit value).length - 1

/-- Another round. -/
theorem integerLoop_of_lt {limit value : ℕ} (h : limit < value) :
    integerLoop limit value = value % 256 :: integerLoop limit (value / 256) := by
  rw [integerLoop, if_pos h, and_ff, shiftRight_eight]

/-- The last round. -/
theorem integerLoop_of_le {limit value : ℕ} (h : value ≤ limit) : integerLoop limit value = [value % 256] := by
  rw [integerLoop, if_neg (Nat.not_lt.mpr h), and_ff]

/-- There is one byte at least. -/
theorem integerLoop_ne_nil (limit value : ℕ) : integerLoop limit value ≠ [] := by
  rcases Nat.lt_or_ge limit value with h | h
  · rw [integerLoop_of_lt h]
    exact List.cons_ne_nil _ _
  · rw [integerLoop_of_le h]
    exact List.cons_ne_nil _ _

/-- How many bytes there are. -/
theorem length_integerLoop (limit value : ℕ) : (integerLoop limit value).length = extraBytes limit value + 1 :=
  (Nat.succ_pred_eq_of_pos (List.length_pos_iff.mpr (integerLoop_ne_nil limit value))).symm

/-- One byte more than those of the rest. -/
theorem extraBytes_of_lt {limit value : ℕ} (h : limit < value) :
    extraBytes limit value = extraBytes limit (value / 256) + 1 := by
  rw [extraBytes, integerLoop_of_lt h, List.length_cons, Nat.add_sub_cancel, length_integerLoop]

/-- No byte more than one. -/
theorem extraBytes_of_le {limit value : ℕ} (h : value ≤ limit) : extraBytes limit value = 0 := by
  rw [extraBytes, integerLoop_of_le h, List.length_singleton]

/-- What the loop gives is bytes. -/
theorem areBytes_integerLoop (limit value : ℕ) : AreBytes (integerLoop limit value) := by
  induction value using Nat.strongRecOn with
  | ind value ih =>
      rcases Nat.lt_or_ge limit value with h | h
      · rw [integerLoop_of_lt h]
        intro v hv
        rcases List.mem_cons.mp hv with rfl | hv
        · omega
        · exact ih (value / 256) (by omega) v hv
      · rw [integerLoop_of_le h]
        intro v hv
        rw [List.mem_singleton.mp hv]
        omega

/-- The bytes are those of the number. -/
theorem ofDigits_integerLoop {limit : ℕ} (hlimit : limit < 256) (value : ℕ) :
    Nat.ofDigits 256 (integerLoop limit value) = value := by
  induction value using Nat.strongRecOn with
  | ind value ih =>
      rcases Nat.lt_or_ge limit value with h | h
      · rw [integerLoop_of_lt h, Nat.ofDigits_cons, ih (value / 256) (by omega)]
        omega
      · rw [integerLoop_of_le h, Nat.ofDigits_singleton]
        omega

/-- How many bytes are taken: the highest one is at most the limit, and with one byte less it would not be. -/
theorem extraBytes_bounds (limit value : ℕ) :
    value < (limit + 1) * 256 ^ extraBytes limit value ∧
      ∀ k < extraBytes limit value, (limit + 1) * 256 ^ k ≤ value := by
  induction value using Nat.strongRecOn with
  | ind value ih =>
      rcases Nat.lt_or_ge limit value with h | h
      · obtain ⟨hlt, hle⟩ := ih (value / 256) (by omega)
        rw [extraBytes_of_lt h]
        constructor
        · rw [pow_succ, ← Nat.mul_assoc]
          omega
        · intro k hk
          cases k with
          | zero => omega
          | succ k =>
              have := hle k (by omega)
              rw [pow_succ, ← Nat.mul_assoc]
              omega
      · rw [extraBytes_of_le h, pow_zero]
        exact ⟨by omega, fun k hk => absurd hk (Nat.not_lt_zero k)⟩

/-- How many bytes `_encode_integer` takes behind the highest one. -/
def extra (v : ℤ) : ℕ := extraBytes (if v < 0 then 0x80 else 0x7f) v.natAbs

/-- The extra bytes of a number that is not negative. -/
theorem extra_of_nonneg {v : ℤ} (h : 0 ≤ v) : extra v = extraBytes 0x7f v.natAbs := by
  rw [extra, if_neg (by omega)]

/-- The extra bytes of a negative number. -/
theorem extra_of_neg {v : ℤ} (h : v < 0) : extra v = extraBytes 0x80 v.natAbs := by
  rw [extra, if_pos h]

/-- A number that is not negative fits its bytes. -/
theorem lt_of_nonneg {v : ℤ} (h : 0 ≤ v) : v < 128 * 256 ^ extra v := by
  have hlt := (extraBytes_bounds 0x7f v.natAbs).1
  rw [← extra_of_nonneg h] at hlt
  zify at hlt
  rwa [abs_of_nonneg h] at hlt

/-- A negative number fits its bytes, or is one byte too large. -/
theorem neg_lt_of_neg {v : ℤ} (h : v < 0) : -v < 129 * 256 ^ extra v := by
  have hlt := (extraBytes_bounds 0x80 v.natAbs).1
  rw [← extra_of_neg h] at hlt
  zify at hlt
  rwa [abs_of_neg h] at hlt

/-- A number does not fit into fewer bytes. -/
theorem not_fits_of_lt {v : ℤ} {k : ℕ} (hk : k < extra v) : ¬ Fits k v := by
  intro hfit
  unfold Fits at hfit
  have hpow : 0 < (256 : ℤ) ^ k := pow_pos (by decide) k
  rcases lt_or_ge v 0 with h | h
  · rw [extra_of_neg h] at hk
    have hle := (extraBytes_bounds 0x80 v.natAbs).2 k hk
    zify at hle
    rw [abs_of_neg h] at hle
    omega
  · rw [extra_of_nonneg h] at hk
    have hle := (extraBytes_bounds 0x7f v.natAbs).2 k hk
    zify at hle
    rw [abs_of_nonneg h] at hle
    omega

/-- Bytes are those of their number. -/
theorem eq_fixed {bs : Bytes} {k n : ℕ} (hlen : bs.length = k) (hnum : number bs = n) : bs = fixed k n := by
  rw [← hlen, ← hnum, fixed_number]

/-- **The bytes of an integer** are the lowest ones of its two's complement. No assertion fails. -/
theorem encodeInteger_eq (v : ℤ) : encodeInteger v = .ok (fixed (extra v + 1) (v % 256 ^ (extra v + 1)).toNat) := by
  have hpow : 0 < (256 : ℤ) ^ extra v := pow_pos (by decide) _
  rcases lt_or_ge v 0 with h | h
  · have hbytes := areBytes_integerLoop 0x80 v.natAbs
    have hval := ofDigits_integerLoop (show 0x80 < 256 by omega) v.natAbs
    have hlen := length_integerLoop 0x80 v.natAbs
    rw [← extra_of_neg h] at hlen
    have hsum := ofDigits_complement hbytes
    rw [hval, hlen] at hsum
    obtain ⟨ws, hws, hwlen, hwbytes, hwval⟩ := addOne_eq (areBytes_complement (integerLoop 0x80 v.natAbs))
      (by rw [List.length_map, hlen]; omega)
    have henc : encodeInteger v = .ok (ws.reverse.map UInt8.ofNat) := by
      simp only [encodeInteger, h, if_true, hws]
      rfl
    rw [henc, Except.ok.injEq]
    refine eq_fixed (by simp [hwlen, hlen]) ?_
    have hmod : v % 256 ^ (extra v + 1) = v + 256 ^ (extra v + 1) := by
      have hlt := neg_lt_of_neg h
      rw [← Int.add_emod_right, pow_succ]
      exact Int.emod_eq_of_lt (by omega) (by omega)
    have hcast : (256 : ℤ) ^ (extra v + 1) = (256 ^ (extra v + 1) : ℕ) := by push_cast; rfl
    rw [number_reverse hwbytes, hwval, hmod, hcast]
    omega
  · have hval := ofDigits_integerLoop (show 0x7f < 256 by omega) v.natAbs
    have hlen := length_integerLoop 0x7f v.natAbs
    rw [← extra_of_nonneg h] at hlen
    have henc : encodeInteger v = .ok ((integerLoop 0x7f v.natAbs).reverse.map UInt8.ofNat) := by
      simp only [encodeInteger, Int.not_lt.mpr h, if_false]
      rfl
    rw [henc, Except.ok.injEq]
    refine eq_fixed (by simp [hlen]) ?_
    have hmod : v % 256 ^ (extra v + 1) = v := by
      have hlt := lt_of_nonneg h
      rw [pow_succ]
      exact Int.emod_eq_of_lt h (by omega)
    rw [number_reverse (areBytes_integerLoop _ _), hval, hmod]
    omega

/-- The check of `_decode_integer`. -/
theorem notNormalized_iff (bs : Bytes) : notNormalized (bs.map UInt8.toNat) = true ↔ ¬ Shortest bs := by
  match bs with
  | [] => simp [notNormalized, Shortest]
  | [b] => simp [notNormalized, Shortest]
  | b :: c :: bs =>
      have hc : c.toNat &&& 0x80 = 0 ↔ c.toNat < 128 := and_80 c.toNat_lt
      have h255 : b.toNat = 0xff ↔ b = 255 := by rw [← UInt8.toNat_inj]; rfl
      have h0 : b.toNat = 0x00 ↔ b = 0 := by rw [← UInt8.toNat_inj]; rfl
      simp only [notNormalized, Shortest, List.map_cons, Bool.or_eq_true, Bool.and_eq_true, decide_eq_true_eq, h255,
        h0, ne_eq, hc, Nat.not_lt]
      tauto

/-- The loop of the decoder adds up digits. -/
theorem foldl_eq_ofDigits {vs : List ℕ} (h : AreBytes vs) :
    vs.foldl (fun n v => n <<< 8 ||| v) 0 = Nat.ofDigits 256 vs.reverse := by
  induction vs using List.reverseRecOn with
  | nil => rfl
  | append_singleton vs v ih =>
      have hv : v < 256 := h v (List.mem_append_right vs List.mem_cons_self)
      rw [List.foldl_append, ih fun w hw => h w (List.mem_append_left [v] hw), List.reverse_append,
        List.reverse_singleton, List.singleton_append, Nat.ofDigits_cons, List.foldl_cons, List.foldl_nil,
        shiftLeft_eight_or _ hv]
      omega

/-- Bytes as numbers. -/
theorem areBytes_toNat (bs : Bytes) : AreBytes (bs.map UInt8.toNat) := by
  intro v hv
  obtain ⟨b, -, rfl⟩ := List.mem_map.mp hv
  exact b.toNat_lt

/-- The number of bytes by their digits. -/
theorem ofDigits_toNat (bs : Bytes) : Nat.ofDigits 256 (bs.map UInt8.toNat).reverse = number bs := by
  rw [← foldl_eq_ofDigits (areBytes_toNat bs), List.foldl_map, foldl_shiftLeft]

/-- **The integer of bytes** that are accepted is their number in two's complement. -/
theorem decodeInteger_eq (bs : Bytes) : decodeInteger bs =
    if notNormalized (bs.map UInt8.toNat) then .error syntaxError else if bs = [] then .error .indexError
    else .ok (signed bs) := by
  unfold decodeInteger
  by_cases hnorm : notNormalized (bs.map UInt8.toNat) = true
  · simp only [hnorm, if_true]
  rw [if_neg hnorm, if_neg hnorm]
  cases bs with
  | nil => rfl
  | cons b bs =>
      have hbytes := areBytes_toNat (b :: bs)
      have hnum := ofDigits_toNat (b :: bs)
      rw [if_neg (List.cons_ne_nil b bs)]
      by_cases hneg : b.toNat &&& 0x80 = 0
      · have hlt : b.toNat < 128 := (and_80 b.toNat_lt).mp hneg
        have hsign : ¬ 128 * 256 ^ bs.length ≤ number (b :: bs) := by
          rw [sign_iff]
          omega
        have hval : ((b :: bs).map UInt8.toNat).foldl (fun n v => n <<< 8 ||| v) 0 = number (b :: bs) := by
          rw [foldl_eq_ofDigits hbytes, hnum]
        rw [signed, List.length_cons, Nat.add_sub_cancel, if_neg hsign, ← hval]
        simp only [List.map_cons, hneg, ne_eq, not_true_eq_false, if_false]
        rfl
      · have hge : 128 ≤ b.toNat := Nat.not_lt.mp (mt (and_80 b.toNat_lt).mpr hneg)
        have hsign : 128 * 256 ^ bs.length ≤ number (b :: bs) := (sign_iff b bs).mpr hge
        have hrev : AreBytes ((b :: bs).map UInt8.toNat).reverse := fun v hv => hbytes v (List.mem_reverse.mp hv)
        have hsum := ofDigits_complement hrev
        rw [hnum, List.length_reverse, List.length_map] at hsum
        obtain ⟨ws, hws, hwlen, hwbytes, hwval⟩ := addOne_eq (areBytes_complement _)
          (show Nat.ofDigits 256 (((b :: bs).map UInt8.toNat).reverse.map (0xff - ·)) + 1 < _ by
            have hpos : 0 < 256 ^ bs.length := Nat.pow_pos (by omega)
            rw [List.length_map, List.length_reverse, List.length_map]
            omega)
        have hval : ws.reverse.foldl (fun n v => n <<< 8 ||| v) 0 = Nat.ofDigits 256 ws := by
          rw [foldl_eq_ofDigits fun v hv => hwbytes v (List.mem_reverse.mp hv), List.reverse_reverse]
        have hcast : (256 : ℤ) ^ (b :: bs).length = (256 ^ (b :: bs).length : ℕ) := by push_cast; rfl
        rw [List.map_reverse] at hws
        rw [signed, List.length_cons, Nat.add_sub_cancel, if_pos hsign, ← List.length_cons (a := b), hcast]
        simp only [List.map_cons, hneg, ne_eq, not_false_eq_true, if_true] at hws ⊢
        rw [hws]
        show Except.ok (-((ws.reverse.foldl (fun n v => n <<< 8 ||| v) 0 : ℕ) : ℤ)) = _
        rw [hval, Except.ok.injEq]
        omega

/-- **What is decoded** is the shortest form of a number, which it is the value of. -/
theorem decodeInteger_eq_ok {bs : Bytes} {v : ℤ} :
    decodeInteger bs = .ok v ↔ bs ≠ [] ∧ Shortest bs ∧ signed bs = v := by
  have hshortest := notNormalized_iff bs
  rw [decodeInteger_eq]
  split_ifs with hnorm hnil
  · exact ⟨nofun, fun h => absurd h.2.1 (hshortest.mp hnorm)⟩
  · exact ⟨nofun, fun h => absurd hnil h.1⟩
  · rw [Except.ok.injEq]
    exact ⟨fun h => ⟨hnil, not_not.mp (mt hshortest.mpr hnorm), h⟩, fun h => h.2.2⟩

/-- **Each integer has exactly one form** that `_decode_integer` accepts. -/
theorem existsUnique_decodeInteger (v : ℤ) : ∃! bs, decodeInteger bs = .ok v := by
  simp only [decodeInteger_eq_ok]
  exact existsUnique_signed v

/-- What is read where an integer was written: numbers whose highest byte is `0x80` lose their sign, unless they
are powers. -/
def readBackInt (v : ℤ) : ℤ := if v < -(128 * 256 ^ extra v) then v + 256 ^ (extra v + 1) else v

/-- The bytes of a number that is too low for them. -/
theorem signed_fixed_of_lt {v : ℤ} (h : v < -(128 * 256 ^ extra v)) :
    signed (fixed (extra v + 1) (v % 256 ^ (extra v + 1)).toNat) = v + 256 ^ (extra v + 1) := by
  have hpow : 0 < (256 : ℤ) ^ extra v := pow_pos (by decide) _
  have hneg : -v < 129 * 256 ^ extra v := neg_lt_of_neg (by omega)
  have hmod : v % 256 ^ (extra v + 1) = v + 256 ^ (extra v + 1) := by
    rw [← Int.add_emod_right, pow_succ]
    exact Int.emod_eq_of_lt (by omega) (by omega)
  have hcast : (256 : ℤ) ^ (extra v) = (256 ^ (extra v) : ℕ) := by push_cast; rfl
  have hnum : number (fixed (extra v + 1) (v % 256 ^ (extra v + 1)).toNat) = (v + 256 ^ (extra v + 1)).toNat := by
    rw [number_fixed, hmod]
    refine Nat.mod_eq_of_lt ?_
    rw [pow_succ, pow_succ, hcast]
    omega
  unfold signed
  rw [hnum, length_fixed, Nat.add_sub_cancel, pow_succ, hcast, if_neg (by omega)]
  omega

/-- **What is read back**: the number that was written, or one that is higher by a power of 256. -/
theorem decodeInteger_encodeInteger (v : ℤ) :
    ∃ bs, encodeInteger v = .ok bs ∧ decodeInteger bs = .ok (readBackInt v) := by
  refine ⟨_, encodeInteger_eq v, ?_⟩
  have hpow : 0 < (256 : ℤ) ^ extra v := pow_pos (by decide) _
  have hlen := length_fixed (extra v + 1) (v % 256 ^ (extra v + 1)).toNat
  have hsigned : signed (fixed (extra v + 1) (v % 256 ^ (extra v + 1)).toNat) = readBackInt v := by
    unfold readBackInt
    split_ifs with h
    · exact signed_fixed_of_lt h
    · refine signed_fixed ⟨by omega, ?_⟩
      rcases lt_or_ge v 0 with hneg | hpos
      · omega
      · exact lt_of_nonneg hpos
  have hread : ∀ j < extra v, ¬ Fits j (readBackInt v) := by
    intro j hj
    unfold readBackInt
    split_ifs with h
    · have hneg : -v < 129 * 256 ^ extra v := neg_lt_of_neg (by omega)
      have hle : (256 : ℤ) ^ (j + 1) ≤ 256 ^ extra v := pow_le_pow_right₀ (by decide) hj
      rw [pow_succ] at hle
      unfold Fits
      rw [pow_succ]
      omega
    · exact not_fits_of_lt hj
  rw [decodeInteger_eq_ok]
  generalize fixed (extra v + 1) (v % 256 ^ (extra v + 1)).toNat = bs at hlen hsigned
  refine ⟨?_, shortest_of_not_fits fun j hj => ?_, hsigned⟩
  · rw [← List.length_pos_iff, hlen]
    exact Nat.succ_pos _
  · rw [hsigned]
    exact hread j (by omega)

/-- **The numbers that are not read back** are the negative ones whose highest byte is `0x80` and whose other bytes
are not all zero. -/
theorem readBackInt_eq_iff (v : ℤ) :
    readBackInt v = v ↔ ¬ ∃ k : ℕ, 128 * 256 ^ k < -v ∧ -v < 129 * 256 ^ k := by
  have hpow : 0 < (256 : ℤ) ^ extra v := pow_pos (by decide) _
  have hiff : v < -(128 * 256 ^ extra v) ↔ ∃ k : ℕ, 128 * 256 ^ k < -v ∧ -v < 129 * 256 ^ k := by
    constructor
    · exact fun h => ⟨extra v, by omega, neg_lt_of_neg (by omega)⟩
    · rintro ⟨k, hlow, hhigh⟩
      have hkpow : 0 < (256 : ℤ) ^ k := pow_pos (by decide) k
      have hneg : v < 0 := by omega
      have hv := neg_lt_of_neg hneg
      rcases lt_trichotomy k (extra v) with hk | rfl | hk
      · rw [extra_of_neg hneg] at hk
        have hle := (extraBytes_bounds 0x80 v.natAbs).2 k hk
        zify at hle
        rw [abs_of_neg hneg] at hle
        omega
      · omega
      · have hle : (256 : ℤ) ^ (extra v + 1) ≤ 256 ^ k := pow_le_pow_right₀ (by decide) hk
        rw [pow_succ] at hle
        omega
  rw [readBackInt, ← hiff]
  split_ifs with h
  · rw [pow_succ]
    omega
  · exact ⟨fun _ => h, fun _ => rfl⟩

/-- **Which numbers are read back** as they were written. -/
theorem readBack_integer_iff (v : ℤ) : (∃ bs, encodeInteger v = .ok bs ∧ decodeInteger bs = .ok v) ↔
    ¬ ∃ k : ℕ, 128 * 256 ^ k < -v ∧ -v < 129 * 256 ^ k := by
  obtain ⟨bs, henc, hdec⟩ := decodeInteger_encodeInteger v
  rw [← readBackInt_eq_iff]
  constructor
  · rintro ⟨bs', henc', hdec'⟩
    obtain rfl := Except.ok.inj (henc.symm.trans henc')
    exact Except.ok.inj (hdec.symm.trans hdec')
  · intro h
    exact ⟨bs, henc, hdec.trans (by rw [h])⟩

/-! ## Object identifiers -/

/-- The text of an identifier. -/
def dotted (ns : List ℕ) : Bytes := [46].intercalate (ns.map dec)

/-- The loop of a tag gives groups of seven bits. -/
theorem tagLoop_eq (n : ℕ) : (tagLoop n).reverse.map UInt8.ofNat = marked n := by
  induction n using Nat.strongRecOn with
  | ind n ih =>
      by_cases hn : n = 0
      · rw [hn, tagLoop, if_pos rfl, marked_zero]
        rfl
      · rw [tagLoop, if_neg hn, List.reverse_cons, List.map_append, shiftRight_seven, ih _ (by omega), and_7f,
          or_80 (by omega), marked_concat hn]
        rfl

/-- The loop of a component gives groups of seven bits. -/
theorem componentLoop_eq (n : ℕ) : (componentLoop n).reverse.map UInt8.ofNat = marked (n / 128) := by
  induction n using Nat.strongRecOn with
  | ind n ih =>
      by_cases hn : 0x7f < n
      · rw [componentLoop, if_pos hn, List.reverse_cons, List.map_append, shiftRight_seven, ih _ (by omega), and_7f,
          Nat.or_comm, or_80 (by omega), marked_concat (n := n / 128) (by omega)]
        rfl
      · rw [componentLoop, if_neg hn, show n / 128 = 0 by omega, marked_zero]
        rfl

/-- The bytes of the components. -/
theorem flatMap_componentLoop (ns : List ℕ) :
    ((ns.reverse.flatMap fun n => (n &&& 0x7f) :: componentLoop n).reverse).map UInt8.ofNat = ns.flatMap varint := by
  rw [List.reverse_flatMap, List.reverse_reverse, List.map_flatMap]
  refine List.flatMap_congr fun n _ => ?_
  rw [Function.comp_apply, List.reverse_cons, List.map_append, componentLoop_eq, and_7f]
  rfl

/-- The parts of a text are one more than its separators. -/
theorem length_splitOn (a : UInt8) (s : Bytes) : (s.splitOn a).length = s.count a + 1 := by
  induction s with
  | nil => rfl
  | cons b s ih =>
      rw [List.splitOn_cons_eq_if_modifyHead, List.count_cons]
      split_ifs
      · rw [List.length_cons, ih]
      · rw [List.length_modifyHead, ih, Nat.add_zero]

/-- What matches the expression has two components at least. -/
theorem exists_components {oid : Bytes} (h : reOid oid = true) :
    ∃ first second rest, components oid = first :: second :: rest := by
  have hlen : 2 ≤ (components oid).length := by
    rw [components, List.length_map, length_splitOn]
    simp only [reOid, Bool.and_eq_true, decide_eq_true_eq, length_splitOn] at h
    refine h.1.trans (Nat.succ_le_succ ?_)
    split_ifs
    · exact (List.dropLast_sublist oid).count_le 46
    · exact Nat.le_refl _
  match hc : components oid with
  | [] => simp [hc] at hlen
  | [first] => simp [hc] at hlen
  | first :: second :: rest => exact ⟨first, second, rest, rfl⟩

/-- **What is written** for an identifier. -/
theorem encodeObjectIdentifier_eq_ok {oid bs : Bytes} :
    encodeObjectIdentifier oid = .ok bs ↔ reOid oid = true ∧ ∃ first second rest,
      components oid = first :: second :: rest ∧ first ≤ 39 ∧ second ≤ 39 ∧
        bs = ((40 * first + second) :: rest).flatMap varint := by
  unfold encodeObjectIdentifier
  by_cases hoid : reOid oid = true
  · obtain ⟨first, second, rest, hc⟩ := exists_components hoid
    simp only [hoid, if_true, hc, flatMap_componentLoop]
    split_ifs with hlarge
    · refine ⟨nofun, ?_⟩
      rintro ⟨-, f, g, r, heq, hf, hg, -⟩
      simp only [List.cons.injEq] at heq
      omega
    · rw [Except.ok.injEq]
      constructor
      · rintro rfl
        exact ⟨trivial, first, second, rest, rfl, by omega, by omega, rfl⟩
      · rintro ⟨-, f, g, r, heq, -, -, rfl⟩
        simp only [List.cons.injEq] at heq
        rw [heq.1, heq.2.1, heq.2.2]
  · simp [hoid]

/-- Components behind others, and what is left of the last one. -/
theorem identifierLoop_eq_ok {value : ℕ} {result : List ℕ} {bs : Bytes} {ns : List ℕ}
    (h : identifierLoop value result bs = .ok ns) :
    ∃ ms tail, ns = result ++ ms ∧ marked value ++ bs = ms.flatMap varint ++ tail ∧ ∀ b ∈ tail, 128 ≤ b.toNat := by
  induction bs generalizing value result with
  | nil =>
      rw [identifierLoop, Except.ok.injEq] at h
      exact ⟨[], marked value, by simp [h], by simp, fun b hb => le_of_mem_marked hb⟩
  | cons b bs ih =>
      rw [identifierLoop] at h
      have hb := b.toNat_lt
      by_cases hpad : value = 0 ∧ b = 0x80
      · simp [hpad] at h
      rw [if_neg hpad] at h
      simp only [and_7f, shiftLeft_seven_or value (Nat.mod_lt b.toNat (by decide : 0 < 128))] at h
      by_cases hlast : b.toNat &&& 0x80 = 0
      · have hlt := (and_80 hb).mp hlast
        rw [if_pos hlast] at h
        obtain ⟨ms, tail, rfl, heq, htail⟩ := ih h
        refine ⟨(value * 128 + b.toNat % 128) :: ms, tail, by simp, ?_, htail⟩
        rw [marked_zero, List.nil_append] at heq
        rw [List.flatMap_cons, List.append_assoc, ← heq, varint,
          show (value * 128 + b.toNat % 128) / 128 = value by omega,
          show (value * 128 + b.toNat % 128) % 128 = b.toNat by omega, UInt8.ofNat_toNat, List.append_assoc]
        rfl
      · have hge : 128 ≤ b.toNat := Nat.not_lt.mp (mt (and_80 hb).mpr hlast)
        rw [if_neg hlast] at h
        obtain ⟨ms, tail, rfl, heq, htail⟩ := ih h
        refine ⟨ms, tail, rfl, ?_, htail⟩
        rw [← heq, show b.toNat % 128 = b.toNat - 128 by omega,
          marked_group hge fun hzero hb => hpad ⟨hzero, hb⟩, List.append_assoc]
        rfl

/-- The loop of the decoder over the groups of a component. -/
theorem identifierLoop_marked (n : ℕ) (result : List ℕ) (bs : Bytes) :
    identifierLoop 0 result (marked n ++ bs) = identifierLoop n result bs := by
  induction n using Nat.strongRecOn generalizing bs with
  | ind n ih =>
      by_cases hn : n = 0
      · rw [hn, marked_zero, List.nil_append]
      · have hgroup : (UInt8.ofNat (n % 128 + 128)).toNat = n % 128 + 128 := by
          rw [UInt8.toNat_ofNat']
          omega
        have hpad : ¬(n / 128 = 0 ∧ UInt8.ofNat (n % 128 + 128) = 0x80) := by
          rw [← UInt8.toNat_inj, hgroup, show (0x80 : UInt8).toNat = 128 from rfl]
          omega
        have hmore : ¬(n % 128 + 128) &&& 0x80 = 0 := by
          rw [and_80 (by omega)]
          omega
        rw [marked_concat hn, List.append_assoc, ih _ (by omega), List.singleton_append, identifierLoop, if_neg hpad,
          hgroup]
        simp only [hmore, if_false]
        rw [and_7f, shiftLeft_seven_or _ (Nat.mod_lt _ (by decide)),
          show n / 128 * 128 + (n % 128 + 128) % 128 = n by omega]

/-- Whole components are read. -/
theorem identifierLoop_flatMap (ns : List ℕ) (result : List ℕ) :
    identifierLoop 0 result (ns.flatMap varint) = .ok (result ++ ns) := by
  induction ns generalizing result with
  | nil => simp [identifierLoop]
  | cons n ns ih =>
      have hgroup : (UInt8.ofNat (n % 128)).toNat = n % 128 := by
        rw [UInt8.toNat_ofNat']
        omega
      have hpad : ¬(n / 128 = 0 ∧ UInt8.ofNat (n % 128) = 0x80) := by
        rw [← UInt8.toNat_inj, hgroup, show (0x80 : UInt8).toNat = 128 from rfl]
        omega
      have hlast : n % 128 &&& 0x80 = 0 := (and_80 (by omega)).mpr (by omega)
      rw [List.flatMap_cons, varint, List.append_assoc, identifierLoop_marked, List.singleton_append, identifierLoop,
        if_neg hpad, hgroup]
      simp only [hlast, if_true]
      rw [ih, and_7f, shiftLeft_seven_or _ (Nat.mod_lt _ (by decide)),
        show n / 128 * 128 + n % 128 % 128 = n by omega, List.append_assoc]
      rfl

/-! ## The texts of identifiers -/

/-- A byte that is no digit is in no number. -/
theorem not_mem_dec {n : ℕ} {b : UInt8} (hb : isDigit b = false) : b ∉ dec n :=
  fun h => absurd (isDigit_of_mem_dec h) (by rw [hb]; decide)

/-- Numbers with points between them fall apart at the points. -/
theorem splitOn_dotted {ns : List ℕ} (hns : ns ≠ []) : (dotted ns).splitOn 46 = ns.map dec := by
  refine List.splitOn_intercalate 46 ?_ (by simpa using hns)
  rintro l hl
  obtain ⟨n, -, rfl⟩ := List.mem_map.mp hl
  exact not_mem_dec rfl

/-- The components of numbers with points between them. -/
theorem components_dotted {ns : List ℕ} (hns : ns ≠ []) : components (dotted ns) = ns := by
  rw [components, splitOn_dotted hns, List.map_map]
  refine (List.map_congr_left fun n _ => ?_).trans (List.map_id ns)
  rw [Function.comp_apply, List.filter_eq_self.mpr fun b hb => isDigit_of_mem_dec hb, digitsVal_dec]
  rfl

/-- The bytes of numbers with points between them. -/
theorem mem_dotted {ns : List ℕ} {b : UInt8} (h : b ∈ dotted ns) : b = 46 ∨ isDigit b = true := by
  unfold dotted at h
  induction ns with
  | nil => simp at h
  | cons n ns ih =>
      rcases List.eq_nil_or_concat' ns with rfl | hns
      · rw [List.map_singleton, List.intercalate_singleton] at h
        exact .inr (isDigit_of_mem_dec h)
      · rw [List.map_cons, List.intercalate_cons_of_ne_nil (by rintro hnil; simp_all), List.mem_append,
          List.mem_append, List.mem_singleton] at h
        rcases h with (h | h) | h
        · exact .inr (isDigit_of_mem_dec h)
        · exact .inl h
        · exact ih h

/-- The text does not end in a newline. -/
theorem getLast?_dotted (ns : List ℕ) : (dotted ns).getLast? ≠ some 10 := by
  intro h
  rcases mem_dotted (List.mem_of_getLast? h) with h | h
  · exact absurd h (by decide)
  · exact absurd h (by decide)

/-- Two numbers at least with points between them match `_re_oid`. -/
theorem reOid_dotted {first second : ℕ} {rest : List ℕ} : reOid (dotted (first :: second :: rest)) = true := by
  rw [reOid, if_neg (getLast?_dotted _), splitOn_dotted (List.cons_ne_nil _ _)]
  simp only [Bool.and_eq_true, decide_eq_true_eq, List.all_eq_true, List.length_map, List.length_cons]
  refine ⟨by omega, fun part hpart => ?_⟩
  obtain ⟨n, -, rfl⟩ := List.mem_map.mp hpart
  exact ⟨dec_ne_nil n, fun b hb => isDigit_of_mem_dec hb⟩

/-- **An identifier that is written** is read back without leading zeros, and without a newline behind it. -/
theorem decode_encodeObjectIdentifier {oid bs : Bytes} (h : encodeObjectIdentifier oid = .ok bs) :
    decodeObjectIdentifier bs = .ok (dotted (components oid)) := by
  obtain ⟨-, first, second, rest, hc, hfirst, hsecond, rfl⟩ := encodeObjectIdentifier_eq_ok.mp h
  have hle : ¬ 1599 < 40 * first + second := by omega
  have hdiv : (40 * first + second) / 40 = first := by omega
  have hmod : (40 * first + second) % 40 = second := by omega
  unfold decodeObjectIdentifier
  rw [identifierLoop_flatMap, hc]
  show (if 1599 < 40 * first + second then _ else _) = _
  rw [if_neg hle, hdiv, hmod]
  rfl

/-- **An identifier that is read** is written as it was read, up to a last component that is cut off. -/
theorem encode_decodeObjectIdentifier {oid bs : Bytes} (h : decodeObjectIdentifier bs = .ok oid) :
    ∃ whole tail, bs = whole ++ tail ∧ encodeObjectIdentifier oid = .ok whole ∧ ∀ b ∈ tail, 128 ≤ b.toNat := by
  unfold decodeObjectIdentifier at h
  cases hloop : identifierLoop 0 [] bs with
  | error e =>
      rw [hloop] at h
      exact absurd h nofun
  | ok ns =>
      rw [hloop] at h
      obtain ⟨ms, tail, rfl, heq, htail⟩ := identifierLoop_eq_ok hloop
      rw [marked_zero, List.nil_append] at heq
      refine ⟨ns.flatMap varint, tail, heq, ?_, htail⟩
      cases ns with
      | nil => exact absurd h nofun
      | cons first rest =>
          change (if 1599 < first then _ else _) = _ at h
          split_ifs at h with hle
          have hoid : dotted (first / 40 :: first % 40 :: rest) = oid := Except.ok.inj h
          rw [encodeObjectIdentifier_eq_ok, ← hoid]
          refine ⟨reOid_dotted, first / 40, first % 40, rest, components_dotted (List.cons_ne_nil _ _), by omega,
            by omega, ?_⟩
          rw [show 40 * (first / 40) + first % 40 = first by omega]

/-- The identifier of two bytes. -/
theorem encode_decodeObjectIdentifier_two : ∃ whole tail, ([42, 3] : Bytes) = whole ++ tail ∧
    encodeObjectIdentifier (ascii "1.2.3") = .ok whole ∧ ∀ b ∈ tail, 128 ≤ b.toNat :=
  encode_decodeObjectIdentifier (by decide +kernel)

end Asenal.Ad
