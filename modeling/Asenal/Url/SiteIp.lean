import Asenal.Lib.Scan

/-!
# Sites that are IP addresses

`ul_normalize_site_ip` brings an address of four numbers into the usual form. Each number may be decimal, octal
with a leading `0`, or hexadecimal with a leading `0x`; the scanner looks at the first bytes for the base and
goes on digit by digit.

* `getValue_spelled` — what the scanner makes of a number.
* `ulNormalizeSiteIp_spelled` — every spelling of an address has the same normal form.
* `ulNormalizeSiteIp_never_illegal` — a number that is too large is never reported: the error has the value
  that also stands for text that is no number.
-/

namespace Asenal.Url

open Asenal.Lib.Text Asenal.Lib.Scan

/-! ## The functions -/

/-- `SUCCESS`. Source: `ul_url2.cpp`. -/
def success : ℤ := 0

/-- `ILLEGAL_IP`. Source: `ul_url2.cpp`. -/
def illegalIp : ℤ := -1

/-- `SITE_BUFFER_SMALL`. Source: `ul_url2.cpp`. -/
def siteBufferSmall : ℤ := -2

/-- A digit of one of the bases, an `x` or a dot. Source: `ul_url2.cpp` `is_legal_char`. -/
def isLegalChar (ch : UInt8) : Bool :=
  isDigit ch || ch == 46 || ch == 120 || ch == 88 || (97 ≤ ch && ch ≤ 102) || (65 ≤ ch && ch ≤ 70)

/-- Such characters only, and three dots. Source: `ul_url2.cpp` `guess_is_dotip`. -/
def guessIsDotip (site : Bytes) : Bool := site.all isLegalChar && site.count 46 == 3

/-- One of the loops of `get_value`, up to `endc`; a string ends in `0`. -/
def valueLoop (base : ℕ) (endc : UInt8) : Bytes → ℕ → ℤ
  | [], val => if endc = 0 then val else -1
  | ch :: p, val =>
      if ch = endc then val
      else if digitVal ch < base then
        let val := val * base + digitVal ch
        if 256 ≤ val then illegalIp else valueLoop base endc p val
      else -1

/-- Source: `ul_url2.cpp` `get_value`. -/
def getValue (p : Bytes) (endc : UInt8) : ℤ :=
  if hexPrefix p then valueLoop 16 endc (p.drop 2) 0
  else if p.head? = some 48 then valueLoop 8 endc (p.drop 1) 0
  else valueLoop 10 endc p 0

/-- How the loop of `ul_normalize_site_ip` ends: with the goto, with an error, or with the text in `tmp`. -/
inductive SiteScan
  | notIp
  | illegal
  | ip (tmp : Bytes)
  deriving DecidableEq

/-- The loop of `ul_normalize_site_ip`, with the text in `tmp`. -/
def siteLoop (site tmp : Bytes) : SiteScan :=
  if _h : 46 ∈ site then
    let val := getValue site 46
    if val = -1 then .notIp
    else if val = illegalIp then .illegal
    else siteLoop (site.dropWhile (· != 46)).tail (tmp ++ decInt val ++ [46])
  else
    let val := getValue site 0
    if val = -1 then .notIp
    else if val = illegalIp then .illegal
    else .ip (tmp ++ decInt val)
termination_by site.length
decreasing_by
  have hle := (List.dropWhile_suffix (p := (· != 46)) (l := site)).length_le
  have hpos := List.length_pos_of_mem _h
  rw [List.length_tail]
  omega

/-- `snprintf(result, result_size, "%s", saved_site)` and the return value: what stands in the result. -/
def printSite (savedSite : Bytes) : ℕ → ℤ × Option Bytes
  | 0 => (siteBufferSmall, none)
  | size + 1 => (if size < savedSite.length then siteBufferSmall else success, some (savedSite.take size))

/-- The return value and the string in the result, if something is written. Source: `ul_url2.cpp`
`ul_normalize_site_ip`. -/
def ulNormalizeSiteIp (site : Bytes) (resultSize : ℕ) : ℤ × Option Bytes :=
  if guessIsDotip site then
    match siteLoop site [] with
    | .notIp => printSite site resultSize
    | .illegal => (illegalIp, none)
    | .ip tmp => printSite tmp resultSize
  else printSite site resultSize

/-! ## Numbers -/

/-- The value of digits behind the number `n`. -/
def valFrom (base n : ℕ) (ds : Bytes) : ℕ := ds.foldl (fun n d => n * base + digitVal d) n

/-- The value of digits. -/
def baseVal (base : ℕ) (ds : Bytes) : ℕ := valFrom base 0 ds

/-- The digits are those of the base. -/
def Digits (base : ℕ) (ds : Bytes) : Prop := ∀ d ∈ ds, digitVal d < base

instance (base : ℕ) (ds : Bytes) : Decidable (Digits base ds) :=
  List.decidableBAll (fun d => digitVal d < base) ds

/-- How a number can be written: in decimal digits without a leading `0`, in octal digits behind a `0`, or in
hexadecimal digits behind `0x`. -/
inductive Spells : Bytes → ℕ → Prop
  | decimal (d : UInt8) (ds : Bytes) (h : Digits 10 (d :: ds)) (hd : d ≠ 48) :
      Spells (d :: ds) (baseVal 10 (d :: ds))
  | octal (ds : Bytes) (h : Digits 8 ds) : Spells (48 :: ds) (baseVal 8 ds)
  | hex (x : UInt8) (ds : Bytes) (hx : x = 120 ∨ x = 88) (hne : ds ≠ []) (h : Digits 16 ds) :
      Spells (48 :: x :: ds) (baseVal 16 ds)

theorem legal_of_digitVal {d : UInt8} (h : digitVal d < 16) :
    isLegalChar d = true ∧ d ≠ 0 ∧ d ≠ 46 ∧ d ≠ 88 ∧ d ≠ 120 := by
  revert h
  exact forall_byte (p := fun d => digitVal d < 16 →
    isLegalChar d = true ∧ d ≠ 0 ∧ d ≠ 46 ∧ d ≠ 88 ∧ d ≠ 120) (by decide +kernel) d

theorem Digits.mono {base : ℕ} {ds : Bytes} (h : Digits base ds) (hbase : base ≤ 16) : Digits 16 ds :=
  fun d hd => Nat.lt_of_lt_of_le (h d hd) hbase

/-- Digits behind a number make it no smaller. -/
theorem le_valFrom {base : ℕ} (hbase : 0 < base) (n : ℕ) (ds : Bytes) : n ≤ valFrom base n ds := by
  induction ds generalizing n with
  | nil => exact Nat.le_refl n
  | cons d ds ih =>
      have hmul : n ≤ n * base := Nat.le_mul_of_pos_right n hbase
      exact Nat.le_trans (Nat.le_add_right_of_le hmul) (ih (n * base + digitVal d))

/-- A number ends: at `endc`, or at the end of the string if that is what is looked for. -/
def EndsAt (endc : UInt8) (r : Bytes) : Prop := (endc = 0 ∧ r = []) ∨ ∃ t, r = endc :: t

/-- **A loop of the scanner** on digits of its base: their value, unless it is too large. -/
theorem valueLoop_digits {base : ℕ} {endc : UInt8} {ds r : Bytes} (hbase : 0 < base) (hle : base ≤ 16)
    (hds : Digits base ds) (hend : ¬ digitVal endc < 16) (hr : EndsAt endc r) {val : ℕ} (hval : val < 256) :
    valueLoop base endc (ds ++ r) val = if valFrom base val ds < 256 then (valFrom base val ds : ℤ) else -1 := by
  induction ds generalizing val with
  | nil =>
      rw [valFrom, List.foldl_nil, if_pos hval]
      rcases hr with ⟨rfl, rfl⟩ | ⟨t, rfl⟩
      · rfl
      · rw [List.nil_append, valueLoop.eq_def]
        exact if_pos rfl
  | cons d ds ih =>
      obtain ⟨hd, hds⟩ := List.forall_mem_cons.mp hds
      have hne : d ≠ endc := by
        rintro rfl
        exact hend (Nat.lt_of_lt_of_le hd hle)
      have hval' : valFrom base val (d :: ds) = valFrom base (val * base + digitVal d) ds := rfl
      rw [List.cons_append, valueLoop, if_neg hne, if_pos hd, hval']
      dsimp only
      by_cases hbig : 256 ≤ val * base + digitVal d
      · have hgrow := le_valFrom hbase (val * base + digitVal d) ds
        rw [if_pos hbig, if_neg (by omega)]
        rfl
      · rw [if_neg hbig, ih hds (Nat.not_le.mp hbig)]

/-- **What the scanner makes of a number**: its value, unless it is too large. -/
theorem getValue_spelled {p r : Bytes} {v : ℕ} {endc : UInt8} (h : Spells p v) (hend : endc = 46 ∨ endc = 0)
    (hr : EndsAt endc r) : getValue (p ++ r) endc = if v < 256 then (v : ℤ) else -1 := by
  have hstop : ¬ digitVal endc < 16 := by
    rcases hend with rfl | rfl <;> decide
  have hzero : 0 < 256 := by decide
  unfold getValue
  cases h with
  | decimal d ds hds hd =>
      have hhex : hexPrefix (d :: ds ++ r) = false := hexPrefix_cons fun h => absurd h hd
      have hhead : (d :: ds ++ r).head? ≠ some 48 := fun h => hd (Option.some.inj h)
      rw [hhex, if_neg Bool.false_ne_true, if_neg hhead]
      exact valueLoop_digits (by decide) (by decide) hds hstop hr hzero
  | octal ds hds =>
      have hnext : ∀ c ∈ (ds ++ r).head?, c ≠ 120 ∧ c ≠ 88 := by
        intro c hc
        cases ds with
        | nil =>
            rcases hr with ⟨-, rfl⟩ | ⟨t, rfl⟩
            · cases hc
            · obtain rfl := Option.some.inj hc
              rcases hend with rfl | rfl <;> decide
        | cons d ds =>
            obtain rfl := Option.some.inj hc
            have hlegal := legal_of_digitVal (hds.mono (by decide) d List.mem_cons_self)
            exact ⟨hlegal.2.2.2.2, hlegal.2.2.2.1⟩
      have hhex : hexPrefix (48 :: ds ++ r) = false := hexPrefix_cons fun _ => hnext
      have hhead : (48 :: ds ++ r).head? = some 48 := rfl
      rw [hhex, if_neg Bool.false_ne_true, if_pos hhead]
      exact valueLoop_digits (by decide) (by decide) hds hstop hr hzero
  | hex x ds hx hne hds =>
      have hhex : hexPrefix (48 :: x :: ds ++ r) = true := by
        rcases hx with rfl | rfl <;> rfl
      rw [hhex, if_pos rfl]
      exact valueLoop_digits (by decide) (by decide) hds hstop hr hzero

/-- A number is legal text without a dot. -/
theorem Spells.legal {p : Bytes} {v : ℕ} (h : Spells p v) : ∀ b ∈ p, isLegalChar b = true ∧ b ≠ 46 := by
  have hdigits : ∀ {base : ℕ} {ds : Bytes}, base ≤ 16 → Digits base ds →
      ∀ b ∈ ds, isLegalChar b = true ∧ b ≠ 46 := by
    intro base ds hle hds b hb
    have hlegal := legal_of_digitVal (hds.mono hle b hb)
    exact ⟨hlegal.1, hlegal.2.2.1⟩
  cases h with
  | decimal d ds hds hd => exact hdigits (by decide) hds
  | octal ds hds => exact List.forall_mem_cons.mpr ⟨by decide, hdigits (by decide) hds⟩
  | hex x ds hx hne hds =>
      have hlegal : isLegalChar x = true ∧ x ≠ 46 := by
        rcases hx with rfl | rfl <;> decide
      exact List.forall_mem_cons.mpr ⟨by decide, List.forall_mem_cons.mpr ⟨hlegal, hdigits (by decide) hds⟩⟩

theorem Spells.not_mem_dot {p : Bytes} {v : ℕ} (h : Spells p v) : 46 ∉ p := fun hmem => (h.legal 46 hmem).2 rfl

/-- A printed number is a number in decimal digits. -/
theorem spells_dec (n : ℕ) : Spells (dec n) n := by
  by_cases hn : n = 0
  · rw [hn]
    exact .octal [] fun d hd => absurd hd List.not_mem_nil
  · have hdigit : ∀ d, isDigit d = true → digitVal d < 10 ∧ digitVal d = d.toNat - 48 := by
      intro d
      exact forall_byte (p := fun d => isDigit d = true → digitVal d < 10 ∧ digitVal d = d.toNat - 48)
        (by decide +kernel) d
    have hall : ∀ d ∈ dec n, isDigit d = true := fun d hd => isDigit_of_mem_dec hd
    have hval : baseVal 10 (dec n) = n := by
      conv_rhs => rw [← digitsVal_dec n]
      unfold baseVal valFrom digitsVal
      refine List.foldl_ext _ _ 0 fun a d hd => ?_
      rw [(hdigit d (hall d hd)).2, Nat.mul_comm]
    have hhead := head_dec hn
    obtain ⟨d, ds, hds⟩ := List.exists_cons_of_ne_nil (dec_ne_nil n)
    rw [hds] at hval hall hhead ⊢
    rw [← hval]
    exact .decimal d ds (fun b hb => (hdigit b (hall b hb)).1) fun h => hhead (congrArg some h)

/-! ## Sites of four numbers -/

/-- Four parts with dots between them. -/
def dotted (p q r s : Bytes) : Bytes := p ++ 46 :: (q ++ 46 :: (r ++ 46 :: s))

/-- The site is made of four numbers with these values. -/
def SpellsSite (site : Bytes) (a b c d : ℕ) : Prop :=
  ∃ p q r s, site = dotted p q r s ∧ Spells p a ∧ Spells q b ∧ Spells r c ∧ Spells s d

/-- An address in the usual form. -/
def address (a b c d : UInt8) : Bytes := dotted (dec a.toNat) (dec b.toNat) (dec c.toNat) (dec d.toNat)

theorem spellsSite_address (a b c d : UInt8) :
    SpellsSite (address a b c d) a.toNat b.toNat c.toNat d.toNat :=
  ⟨_, _, _, _, rfl, spells_dec _, spells_dec _, spells_dec _, spells_dec _⟩

/-- Four numbers are taken for an IP. -/
theorem guessIsDotip_spelled {site : Bytes} {a b c d : ℕ} (h : SpellsSite site a b c d) :
    guessIsDotip site = true := by
  obtain ⟨p, q, r, s, rfl, hp, hq, hr, hs⟩ := h
  have hall : ∀ {p : Bytes} {v : ℕ}, Spells p v → p.all isLegalChar = true := by
    intro p v hp
    exact List.all_eq_true.mpr fun b hb => (hp.legal b hb).1
  have hdot : isLegalChar 46 = true := rfl
  unfold guessIsDotip dotted
  rw [Bool.and_eq_true, beq_iff_eq]
  constructor
  · simp [hall hp, hall hq, hall hr, hall hs, hdot]
  · simp [List.count_eq_zero_of_not_mem, hp.not_mem_dot, hq.not_mem_dot, hr.not_mem_dot, hs.not_mem_dot]

/-- A value is none of the errors. -/
theorem natCast_ne_error (v : ℕ) : (v : ℤ) ≠ -1 ∧ (v : ℤ) ≠ illegalIp :=
  ⟨by omega, by rw [illegalIp]; omega⟩

/-- The loop at a number with a dot behind it. -/
theorem siteLoop_dot {p : Bytes} {v : ℕ} (h : Spells p v) (rest tmp : Bytes) :
    siteLoop (p ++ 46 :: rest) tmp =
      if v < 256 then siteLoop rest (tmp ++ dec v ++ [46]) else .notIp := by
  have hmem : 46 ∈ p ++ 46 :: rest := List.mem_append_right p List.mem_cons_self
  have hpass : ∀ b ∈ p, (b != 46) = true := fun b hb => bne_iff_ne.mpr (h.legal b hb).2
  have hrest : ((p ++ 46 :: rest).dropWhile (· != 46)).tail = rest := by
    rw [List.dropWhile_append_of_pos hpass]
    rfl
  rw [siteLoop, dif_pos hmem, hrest, getValue_spelled h (Or.inl rfl) (Or.inr ⟨rest, rfl⟩)]
  dsimp only
  by_cases hv : v < 256
  · rw [if_pos hv, if_neg (natCast_ne_error v).1, if_neg (natCast_ne_error v).2, decInt_natCast, if_pos hv]
  · rw [if_neg hv, if_pos rfl, if_neg hv]

/-- The loop at the last number. -/
theorem siteLoop_last {p : Bytes} {v : ℕ} (h : Spells p v) (tmp : Bytes) :
    siteLoop p tmp = if v < 256 then .ip (tmp ++ dec v) else .notIp := by
  have hvalue := @getValue_spelled p [] v 0 h (Or.inr rfl) (Or.inl ⟨rfl, rfl⟩)
  rw [List.append_nil] at hvalue
  rw [siteLoop, dif_neg h.not_mem_dot, hvalue]
  dsimp only
  by_cases hv : v < 256
  · rw [if_pos hv, if_neg (natCast_ne_error v).1, if_neg (natCast_ne_error v).2, decInt_natCast, if_pos hv]
  · rw [if_neg hv, if_pos rfl, if_neg hv]

/-- **The loop on four numbers** gives them up if one is too large, and prints them otherwise. -/
theorem siteLoop_spelled {site : Bytes} {a b c d : ℕ} (h : SpellsSite site a b c d) :
    siteLoop site [] = if a < 256 ∧ b < 256 ∧ c < 256 ∧ d < 256 then
      .ip (dotted (dec a) (dec b) (dec c) (dec d)) else .notIp := by
  obtain ⟨p, q, r, s, rfl, hp, hq, hr, hs⟩ := h
  unfold dotted
  rw [siteLoop_dot hp, siteLoop_dot hq, siteLoop_dot hr, siteLoop_last hs, ite_and, ite_and, ite_and]
  simp

/-- **Every spelling of an address** is recognised and has the same normal form, which is its own. -/
theorem ulNormalizeSiteIp_spelled {site : Bytes} {a b c d : UInt8}
    (h : SpellsSite site a.toNat b.toNat c.toNat d.toNat) (resultSize : ℕ) :
    (guessIsDotip site = true ∧ siteLoop site [] = .ip (address a b c d)) ∧
      ((address a b c d).length < resultSize →
        ulNormalizeSiteIp site resultSize = (success, some (address a b c d))) ∧
      (∀ site', SpellsSite site' a.toNat b.toNat c.toNat d.toNat →
        ulNormalizeSiteIp site' resultSize = ulNormalizeSiteIp site resultSize) ∧
      ulNormalizeSiteIp site resultSize = printSite (address a b c d) resultSize ∧
      ulNormalizeSiteIp (address a b c d) resultSize = printSite (address a b c d) resultSize := by
  have hloop : ∀ site', SpellsSite site' a.toNat b.toNat c.toNat d.toNat →
      siteLoop site' [] = .ip (address a b c d) := by
    intro site' h'
    rw [siteLoop_spelled h', if_pos ⟨a.toNat_lt, b.toNat_lt, c.toNat_lt, d.toNat_lt⟩]
    rfl
  have hprint : ∀ site', SpellsSite site' a.toNat b.toNat c.toNat d.toNat →
      ulNormalizeSiteIp site' resultSize = printSite (address a b c d) resultSize := by
    intro site' h'
    rw [ulNormalizeSiteIp, guessIsDotip_spelled h', if_pos rfl, hloop site' h']
  refine ⟨⟨guessIsDotip_spelled h, hloop site h⟩, fun hroom => ?_, fun site' h' => ?_, hprint site h,
    hprint _ (spellsSite_address a b c d)⟩
  · obtain ⟨size, rfl⟩ := Nat.exists_eq_add_one_of_ne_zero (Nat.ne_zero_of_lt hroom)
    rw [hprint site h, printSite, if_neg (by omega), List.take_of_length_le (by omega)]
  · rw [hprint site' h', hprint site h]

/-- An address in hexadecimal, octal and decimal numbers. -/
theorem ulNormalizeSiteIp_spelled_mixed :
    ulNormalizeSiteIp (ascii "0xC0.0250.0.1") 16 = (success, some (ascii "192.168.0.1")) := by
  have hsite : SpellsSite (ascii "0xC0.0250.0.1") (192 : UInt8).toNat (168 : UInt8).toNat (0 : UInt8).toNat
      (1 : UInt8).toNat :=
    ⟨ascii "0xC0", ascii "0250", ascii "0", ascii "1", by decide,
      .hex 120 (ascii "C0") (Or.inl rfl) (by decide) (by decide), .octal (ascii "250") (by decide),
      .octal [] (by decide), .decimal 49 [] (by decide) (by decide)⟩
  have haddress : address 192 168 0 1 = ascii "192.168.0.1" := by decide +kernel
  rw [← haddress]
  exact (ulNormalizeSiteIp_spelled hsite 16).2.1 (by rw [haddress]; decide)

/-! ## Numbers that are too large -/

/-- **Four numbers, one of which is too large**: the error is not reported, and the site is copied like any other
one. -/
theorem ulNormalizeSiteIp_never_illegal {site : Bytes} {a b c d : ℕ} (h : SpellsSite site a b c d)
    (hbig : 256 ≤ a ∨ 256 ≤ b ∨ 256 ≤ c ∨ 256 ≤ d) (resultSize : ℕ) :
    (ulNormalizeSiteIp site resultSize).1 ≠ illegalIp ∧
      ulNormalizeSiteIp site resultSize = printSite site resultSize := by
  have hprint : ulNormalizeSiteIp site resultSize = printSite site resultSize := by
    rw [ulNormalizeSiteIp, guessIsDotip_spelled h, if_pos rfl, siteLoop_spelled h, if_neg (by omega)]
  refine ⟨?_, hprint⟩
  rw [hprint]
  cases resultSize with
  | zero => exact (by decide : siteBufferSmall ≠ illegalIp)
  | succ size =>
      unfold printSite
      dsimp only
      split_ifs <;> decide

theorem spellsSite_tooLarge : SpellsSite (ascii "1.2.3.256") 1 2 3 256 :=
  ⟨ascii "1", ascii "2", ascii "3", ascii "256", by decide, .decimal 49 [] (by decide) (by decide),
    .decimal 50 [] (by decide) (by decide), .decimal 51 [] (by decide) (by decide),
    .decimal 50 (ascii "56") (by decide) (by decide)⟩

/-- The last number is one too large. -/
theorem ulNormalizeSiteIp_never_illegal_last :
    ulNormalizeSiteIp (ascii "1.2.3.256") 16 = printSite (ascii "1.2.3.256") 16 :=
  (ulNormalizeSiteIp_never_illegal spellsSite_tooLarge (by decide) 16).2

/-- A number that is too large is not reported. -/
theorem ulNormalizeSiteIp_tooLarge : ¬ ∀ (site : Bytes) (a b c d resultSize : ℕ), SpellsSite site a b c d →
    (256 ≤ a ∨ 256 ≤ b ∨ 256 ≤ c ∨ 256 ≤ d) → (ulNormalizeSiteIp site resultSize).1 = illegalIp := by
  intro h
  have hreport := h _ 1 2 3 256 16 spellsSite_tooLarge (by decide)
  rw [ulNormalizeSiteIp, guessIsDotip_spelled spellsSite_tooLarge, if_pos rfl,
    siteLoop_spelled spellsSite_tooLarge, if_neg (by decide)] at hreport
  exact absurd hreport (by decide)

end Asenal.Url
