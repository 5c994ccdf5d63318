import Asenal.Lib.Checked
import Asenal.Url.Chars

/-!
# Tags of HTML pages

The attributes of a tag are read one by one, each from where the one before it ended. Behind a value that
is too long the scan goes on at the closing quote instead of behind it, and the quote is read as the name
of an attribute.

* `getNvpair_attr`, `getNvpair_quote` — how an attribute is read, and a quote that was left.
* `taginfoLoop_spec`, `taginfoLoop_long` — all attributes.
* `getTaginfo_iff` — when a tag is read as it was written.
-/

namespace Asenal.Ul

open Asenal.Lib.Text Asenal.Lib.Checked Asenal.Url

/-! ## The program -/

/-- `MAX_NVNAME_LEN`. Source: `dep_htmltag.h`. -/
def maxNvnameLen : ℕ := 256

/-- `MAX_NVVALUE_LEN`. Source: `dep_htmltag.h`. -/
def maxNvvalueLen : ℕ := 1024

/-- `MAX_TAG_LEN`. Source: `dep_htmltag.h`. -/
def maxTagLen : ℕ := 256

/-- `MAX_NVCOUNT_IN_TAG`. Source: `dep_htmltag.h`. -/
def maxNvcountInTag : ℕ := 64

/-- `TAG_NVSTATUS_ONLYNAME`. Source: `dep_htmltag.h`. -/
def tagNvstatusOnlyname : ℕ := 1

/-- `TAG_NVSTATUS_LONGVALUE`. Source: `dep_htmltag.h`. -/
def tagNvstatusLongvalue : ℕ := 2

/-- `TAG_NVSTATUS_TRUNCATEDNAME`. Source: `dep_htmltag.h`. -/
def tagNvstatusTruncatedname : ℕ := 4

/-- `*tmp`, where the text ends in a `0`. -/
def charAt (tmp : Bytes) : UInt8 := tmp.headD 0

/-- `UL_CHAR_SPACE`: the blanks and the terminator. Source: `ul_string.cpp`. -/
def ulIsspace (b : UInt8) : Bool := b == 0 || (9 ≤ b && b ≤ 13) || b == 32

/-- The blanks are skipped, up to the terminator. -/
def skipBlank (tmp : Bytes) : Bytes := tmp.dropWhile fun b => b != 0 && ulIsspace b

/-- Source: `dep_htmltag.cpp` `ul_jumpto_tagend`. -/
def jumptoTagend (remainder : Bytes) : Bytes := (remainder.dropWhile fun b => b != 0 && b != 62).tail

/-- The name in lower case and the rest, or the code of an error. Source: `dep_htmltag.cpp`
`ul_get_tagname`. -/
def getTagname (piece : Bytes) (size : ℕ) : Except ℤ (Bytes × Bytes) :=
  let tmp := skipBlank piece
  if charAt tmp = 0 then .error (-1)
  else
    let tmp := tmp.dropWhile fun b => b != 0 && !ulIsspace b && b != 62
    if charAt tmp = 0 then .error (-1)
    else
      let tagsize := piece.length - tmp.length
      if tagsize = 0 then .error (-2)
      else if size - 1 < tagsize then .error (-3)
      else .ok ((piece.take tagsize).map toLower, tmp)

/-- Source: `dep_htmltag.h` `ul_nvpair_t`. -/
structure NvPair where
  status : ℕ
  name : Bytes
  value : Bytes
  deriving DecidableEq

/-- What `ul_get_nvpair` returns: 1, 0, -1 or -2; or it copies too much into `m_value`. -/
inductive NvResult
  | pair (p : NvPair) (pend : Bytes)
  | tagEnd (pend : Bytes)
  | bad
  | missName (pend : Bytes)
  | overrun
  deriving DecidableEq

/-- The closing quote, or the end of the text. Behind a backslash a quote does not close the value. -/
def quotedEnd (quote : UInt8) : Bytes → Bytes
  | [] => []
  | b :: tmp =>
      if b = quote ∨ b = 0 then b :: tmp
      else
        match tmp with
        | [] => []
        | c :: rest => if b = 92 ∧ c = quote then quotedEnd quote rest else quotedEnd quote (c :: rest)

/-- Where the value ends and where the scan of it stopped. -/
def valueEnds (valuehead : Bytes) : Bytes × Bytes :=
  let quote := charAt valuehead
  if quote ≠ 39 ∧ quote ≠ 34 then
    let tmp := valuehead.dropWhile fun b => !ulIsspace b && b != 62
    (tmp, tmp)
  else
    let tmp := quotedEnd quote valuehead.tail
    (if charAt tmp = quote then tmp.tail else tmp, tmp)

/-- From the character behind the name on. Source: `dep_htmltag.cpp` `ul_get_nvpair`. -/
def getValue (status : ℕ) (name tmp : Bytes) : NvResult :=
  if charAt tmp ≠ 61 then .pair ⟨status ||| tagNvstatusOnlyname, name, []⟩ tmp
  else if ulIsspace (charAt tmp.tail) then
    -- `name= ` has no value
    .pair ⟨status ||| tagNvstatusOnlyname, name, []⟩
      (skipBlank (if charAt tmp.tail ≠ 0 then tmp.drop 2 else tmp.tail))
  else
    let valuehead := tmp.tail
    let ends := valueEnds valuehead
    let vsize := intOf (valuehead.length - ends.1.length)
    if (maxNvvalueLen : ℤ) - 1 < vsize then .pair ⟨status ||| tagNvstatusLongvalue, name, []⟩ ends.2
    -- to `memcpy` a negative size is a very large one
    else if vsize < 0 then .overrun
    else .pair ⟨status, name, valuehead.take vsize.toNat⟩ ends.1

/-- Source: `dep_htmltag.cpp` `ul_get_nvpair`. -/
def getNvpair (piece : Bytes) : NvResult :=
  let namehead := skipBlank piece
  if charAt namehead = 0 then .bad
  else
    let name := namehead.takeWhile fun b => b != 0 && !ulIsspace b && b != 62 && b != 61
    let tmp := namehead.drop name.length
    if charAt tmp = 0 then .bad
    else if maxNvnameLen - 1 < name.length then
      getValue tagNvstatusTruncatedname (name.take (maxNvnameLen - 1)) (skipBlank tmp)
    else if name.length = 0 then
      if charAt tmp = 62 then .tagEnd tmp else .missName tmp
    else getValue 0 name (skipBlank tmp)

/-- The result, the tag if there is one, and `*pend` if it is set. -/
structure TagResult where
  ret : ℤ
  tag : Option (Bytes × List NvPair)
  pend : Option Bytes
  deriving DecidableEq

/-- Source: `dep_htmltag.cpp` `ul_get_taginfo`, the loop, with room for some more attributes; `none` where too
much is copied into one. -/
def taginfoLoop (tagname : Bytes) : ℕ → List NvPair → Bytes → Option TagResult
  | 0, nvlist, nextnv => some ⟨2, some (tagname, nvlist), some (jumptoTagend nextnv)⟩
  | i + 1, nvlist, nvbegin =>
      match getNvpair nvbegin with
      | .tagEnd nextnv => some ⟨1, some (tagname, nvlist), some (jumptoTagend nextnv)⟩
      | .pair p nextnv => taginfoLoop tagname i (nvlist ++ [p]) nextnv
      | .bad => some ⟨-1, none, none⟩
      | .missName _ => some ⟨-4, none, some (jumptoTagend nvbegin)⟩
      | .overrun => none

/-- Source: `dep_htmltag.cpp` `ul_get_taginfo`. -/
def getTaginfo (piece : Bytes) : Option TagResult :=
  match getTagname piece maxTagLen with
  | .ok (tagname, remainder) => taginfoLoop tagname maxNvcountInTag [] remainder
  | .error ret => some ⟨ret, none, if ret = -1 then none else some (jumptoTagend piece)⟩

/-! ## Tags as they are written -/

/-- A character of a name in a tag. -/
def isTagChar (b : UInt8) : Bool := b != 0 && !ulIsspace b && b != 62

/-- The name of a tag. -/
structure TagName where
  text : Bytes
  ne_nil : text ≠ []
  lt : text.length < maxTagLen
  chars : ∀ b ∈ text, isTagChar b = true

/-- An attribute. -/
structure Attr where
  name : Bytes
  value : Bytes
  name_ne_nil : name ≠ []
  name_lt : name.length < maxNvnameLen
  name_chars : ∀ b ∈ name, isTagChar b = true ∧ b ≠ 61 ∧ b ≠ 34
  value_chars : ∀ b ∈ value, b ≠ 34 ∧ b ≠ 92 ∧ b ≠ 0

/-- A blank and `name="value"`. -/
def Attr.text (a : Attr) : Bytes := 32 :: (a.name ++ 61 :: 34 :: (a.value ++ [34]))

/-- A tag behind its `<`. -/
def tagText (tagname : TagName) (attrs : List Attr) (rest : Bytes) : Bytes :=
  tagname.text ++ (attrs.flatMap Attr.text ++ 62 :: rest)

/-- The value fits with its quotes. -/
def Attr.Fits (a : Attr) : Prop := a.value.length + 2 ≤ maxNvvalueLen - 1

instance (a : Attr) : Decidable a.Fits := inferInstanceAs (Decidable (_ ≤ _))

/-- The size of the value with its quotes, as it is kept. -/
def Attr.vsize (a : Attr) : ℤ := intOf (a.value.length + 2)

/-- The value fits, or its size shows that it does not. -/
def Attr.Sized (a : Attr) : Prop := a.Fits ∨ (maxNvvalueLen : ℤ) - 1 < a.vsize

instance (a : Attr) : Decidable a.Sized := inferInstanceAs (Decidable (_ ∨ _))

/-- The values of the attributes but the last one for which there is room fit, and that of the last one fits or
is seen not to. -/
def ValuesFit (n : ℕ) (attrs : List Attr) : Prop :=
  (∀ a ∈ attrs.take (n - 1), a.Fits) ∧ ∀ a ∈ attrs.drop (n - 1), a.Sized

instance (n : ℕ) (attrs : List Attr) : Decidable (ValuesFit n attrs) := inferInstanceAs (Decidable (_ ∧ _))

/-- The entry of an attribute. -/
def Attr.entry (a : Attr) : NvPair :=
  if a.Fits then ⟨0, a.name, 34 :: (a.value ++ [34])⟩ else ⟨tagNvstatusLongvalue, a.name, []⟩

/-- The tag is read as it was written: one entry for each attribute, and the scan ends behind the tag. -/
def ReadAsWritten (tagname : TagName) (attrs : List Attr) (rest : Bytes) : Prop :=
  getTaginfo (tagText tagname attrs rest) =
    some ⟨if attrs.length < maxNvcountInTag then 1 else 2,
      some (tagname.text.map toLower, attrs.map Attr.entry), some rest⟩

/-! ## One attribute -/

variable {s rest : Bytes}

/-- Where there is no blank nothing is skipped. -/
theorem skipBlank_of_head (h : ∀ b ∈ s.head?, ulIsspace b = false) : skipBlank s = s := by
  cases s with
  | nil => rfl
  | cons b s => exact List.dropWhile_cons_of_neg (by rw [h b rfl, Bool.and_false]; decide)

theorem isTagChar_iff (b : UInt8) : isTagChar b = true ↔ b ≠ 0 ∧ ulIsspace b = false ∧ b ≠ 62 := by
  unfold isTagChar
  simp only [Bool.and_eq_true, bne_iff_ne, Bool.not_eq_true', and_assoc]

/-- The quote that closes a value without quotes. -/
theorem quotedEnd_value (h : ∀ b ∈ s, b ≠ 34 ∧ b ≠ 92 ∧ b ≠ 0) (rest : Bytes) :
    quotedEnd 34 (s ++ 34 :: rest) = 34 :: rest := by
  induction s with
  | nil =>
      rw [List.nil_append]
      unfold quotedEnd
      exact if_pos (Or.inl rfl)
  | cons b s ih =>
      obtain ⟨⟨h34, h92, h0⟩, hs⟩ := List.forall_mem_cons.mp h
      have hrest := ih hs
      have hgo : quotedEnd 34 (b :: (s ++ 34 :: rest)) = quotedEnd 34 (s ++ 34 :: rest) := by
        generalize s ++ 34 :: rest = t at hrest ⊢
        cases t with
        | nil => exact absurd hrest nofun
        | cons c t =>
            rw [quotedEnd, if_neg (not_or.mpr ⟨h34, h0⟩)]
            exact if_neg fun hesc => h92 hesc.1
      rw [List.cons_append, hgo, hrest]

/-- The value of an attribute. -/
theorem getValue_quoted (name : Bytes) (h : ∀ b ∈ s, b ≠ 34 ∧ b ≠ 92 ∧ b ≠ 0) (rest : Bytes) :
    getValue 0 name (61 :: 34 :: (s ++ 34 :: rest)) =
      if (maxNvvalueLen : ℤ) - 1 < intOf (s.length + 2) then .pair ⟨tagNvstatusLongvalue, name, []⟩ (34 :: rest)
      else if intOf (s.length + 2) < 0 then .overrun
      else .pair ⟨0, name, (34 :: (s ++ [34])).take (intOf (s.length + 2)).toNat⟩ rest := by
  have hends : valueEnds (34 :: (s ++ 34 :: rest)) = (rest, 34 :: rest) := by
    have hquote := quotedEnd_value h rest
    unfold valueEnds
    dsimp only [charAt, List.headD_cons, List.tail_cons]
    rw [hquote]
    rfl
  have hsize : (34 :: (s ++ 34 :: rest)).length - rest.length = s.length + 2 := by
    simp only [List.length_cons, List.length_append]
    omega
  have htake : (34 :: (s ++ 34 :: rest)).take (intOf (s.length + 2)).toNat =
      (34 :: (s ++ [34])).take (intOf (s.length + 2)).toNat := by
    have hle := intOf_le (s.length + 2)
    have hsplit : 34 :: (s ++ 34 :: rest) = 34 :: (s ++ [34]) ++ rest := by simp
    rw [hsplit, List.take_append_of_le_length]
    simp only [List.length_cons, List.length_append, List.length_nil]
    omega
  have hequal : ¬ charAt (61 :: 34 :: (s ++ 34 :: rest)) ≠ 61 := fun h => h rfl
  have hblank : ¬ ulIsspace (charAt (61 :: 34 :: (s ++ 34 :: rest)).tail) = true :=
    show ¬ ulIsspace 34 = true by decide
  unfold getValue
  rw [if_neg hequal, if_neg hblank]
  dsimp only
  rw [List.tail_cons, hends, hsize, htake]
  rfl

/-- A name, and what is done behind it. -/
theorem getNvpair_name {name : Bytes} (hne : name ≠ []) (hlt : name.length < maxNvnameLen)
    (hname : ∀ b ∈ name, isTagChar b = true ∧ b ≠ 61) {tmp : Bytes} (hzero : charAt tmp ≠ 0)
    (hend : ∀ b ∈ tmp.head?, isTagChar b = false ∨ b = 61) :
    getNvpair (name ++ tmp) = getValue 0 name (skipBlank tmp) := by
  have hfirst : ∀ b ∈ name.head?, isTagChar b = true := fun b hb => (hname b (List.mem_of_mem_head? hb)).1
  have hskip : skipBlank (name ++ tmp) = name ++ tmp := by
    refine skipBlank_of_head fun b hb => ?_
    rw [List.head?_append_of_ne_nil _ hne] at hb
    exact ((isTagChar_iff b).mp (hfirst b hb)).2.1
  have hhead : charAt (name ++ tmp) ≠ 0 := by
    obtain ⟨b, u, rfl⟩ := List.exists_cons_of_ne_nil hne
    exact ((isTagChar_iff b).mp (hfirst b rfl)).1
  have htake : (name ++ tmp).takeWhile (fun b => b != 0 && !ulIsspace b && b != 62 && b != 61) = name := by
    have hin : ∀ b ∈ name, (b != 0 && !ulIsspace b && b != 62 && b != 61) = true := fun b hb =>
      Bool.and_eq_true_iff.mpr ⟨(hname b hb).1, bne_iff_ne.mpr (hname b hb).2⟩
    rw [List.takeWhile_append_of_pos hin]
    cases tmp with
    | nil => exact List.append_nil name
    | cons b tmp =>
        have hstop : ¬ (b != 0 && !ulIsspace b && b != 62 && b != 61) = true := by
          rcases hend b rfl with hb | rfl
          · exact fun h => absurd (Bool.and_eq_true_iff.mp h).1 (by rw [← isTagChar, hb]; decide)
          · decide
        rw [List.takeWhile_cons_of_neg (p := fun b => b != 0 && !ulIsspace b && b != 62 && b != 61) hstop,
          List.append_nil]
  unfold getNvpair
  dsimp only
  rw [hskip, if_neg hhead, htake, List.drop_left, if_neg hzero,
    if_neg (Nat.not_lt.mpr (Nat.le_sub_one_of_lt hlt)), if_neg (mt List.eq_nil_of_length_eq_zero hne)]

/-- An attribute is read as its name, and what is done behind it. -/
theorem getNvpair_text (a : Attr) (rest : Bytes) :
    getNvpair (a.text ++ rest) = getValue 0 a.name (61 :: 34 :: (a.value ++ 34 :: rest)) := by
  have htext : getNvpair (a.text ++ rest) = getNvpair (a.name ++ 61 :: 34 :: (a.value ++ 34 :: rest)) := by
    have hblank : skipBlank (a.text ++ rest) = skipBlank (a.name ++ 61 :: 34 :: (a.value ++ 34 :: rest)) := by
      simp only [Attr.text, List.cons_append, List.append_assoc, List.nil_append]
      rfl
    unfold getNvpair
    rw [hblank]
  have hname := @getNvpair_name a.name a.name_ne_nil a.name_lt
    (fun b hb => ⟨(a.name_chars b hb).1, (a.name_chars b hb).2.1⟩) (61 :: 34 :: (a.value ++ 34 :: rest))
    (show (61 : UInt8) ≠ 0 by decide) fun b hb => Or.inr (Option.some.inj hb).symm
  have hskip : skipBlank (61 :: 34 :: (a.value ++ 34 :: rest)) = 61 :: 34 :: (a.value ++ 34 :: rest) :=
    skipBlank_of_head fun b hb => by rw [← Option.some.inj hb]; rfl
  rw [htext, hname, hskip]

/-- The size of a value that fits. -/
theorem Attr.Fits.vsize_eq {a : Attr} (h : a.Fits) : a.vsize = (a.value.length + 2 : ℕ) := by
  have hlt : a.value.length + 2 < 2 ^ 31 := by
    unfold Attr.Fits maxNvvalueLen at h
    omega
  exact intOf_of_lt hlt

/-- **An attribute**: one that fits is read, behind one that is seen to be too long its closing quote is left,
and any other one is overrun or read in part. -/
theorem getNvpair_attr (a : Attr) (rest : Bytes) :
    (a.Fits ∧ getNvpair (a.text ++ rest) = .pair a.entry rest) ∨
      (¬ a.Fits ∧ a.Sized ∧ getNvpair (a.text ++ rest) = .pair a.entry (34 :: rest)) ∨
      (¬ a.Fits ∧ ¬ a.Sized ∧ (getNvpair (a.text ++ rest) = .overrun ∨
        ∃ v, getNvpair (a.text ++ rest) = .pair ⟨0, a.name, v⟩ rest)) := by
  rw [getNvpair_text, getValue_quoted a.name a.value_chars]
  have hsize : intOf (a.value.length + 2) = a.vsize := rfl
  unfold Attr.entry
  rw [hsize]
  by_cases hfit : a.Fits
  · have hvsize := hfit.vsize_eq
    have hle : a.value.length + 2 ≤ maxNvvalueLen - 1 := hfit
    have htake : (34 :: (a.value ++ [34])).take (a.value.length + 2) = 34 :: (a.value ++ [34]) :=
      List.take_of_length_le (by simp)
    refine Or.inl ⟨hfit, ?_⟩
    rw [if_neg (by omega), if_neg (by omega), if_pos hfit, hvsize, Int.toNat_natCast, htake]
  · rw [if_neg hfit]
    right
    by_cases hlong : (maxNvvalueLen : ℤ) - 1 < a.vsize
    · rw [if_pos hlong]
      exact Or.inl ⟨hfit, Or.inr hlong, rfl⟩
    · rw [if_neg hlong]
      refine Or.inr ⟨hfit, not_or.mpr ⟨hfit, hlong⟩, ?_⟩
      split_ifs
      · exact Or.inl rfl
      · exact Or.inr ⟨_, rfl⟩

/-- The closing quote that was left is read as a name. -/
theorem getNvpair_quote (hend : ∀ b ∈ s.head?, isTagChar b = false) (hzero : charAt s ≠ 0)
    (hvalue : charAt (skipBlank s) ≠ 61) :
    getNvpair (34 :: s) = .pair ⟨tagNvstatusOnlyname, [34], []⟩ (skipBlank s) := by
  have hquote : ∀ b ∈ [(34 : UInt8)], isTagChar b = true ∧ b ≠ 61 := List.forall_mem_singleton.mpr (by decide)
  have hname := @getNvpair_name [34] (List.cons_ne_nil _ _) (by decide) hquote s hzero
    fun b hb => Or.inl (hend b hb)
  refine hname.trans ?_
  rw [getValue, if_pos hvalue]
  rfl

/-! ## All attributes -/

/-- The rest of the tag is skipped. -/
theorem jumptoTagend_end {t : Bytes} (ht : ∀ b ∈ t, b ≠ 0 ∧ b ≠ 62) (rest : Bytes) :
    jumptoTagend (t ++ 62 :: rest) = rest := by
  unfold jumptoTagend
  rw [List.dropWhile_append_of_pos fun b hb => by simp [ht b hb], List.dropWhile_cons_of_neg (by decide)]
  rfl

/-- One more attribute. -/
theorem valuesFit_cons {n : ℕ} {a : Attr} {attrs : List Attr} (hlen : attrs.length ≤ n) :
    ValuesFit (n + 1) (a :: attrs) ↔ (if n = 0 then a.Sized else a.Fits) ∧ ValuesFit n attrs := by
  unfold ValuesFit
  rw [Nat.add_sub_cancel]
  cases n with
  | zero =>
      obtain rfl := List.eq_nil_of_length_eq_zero (Nat.le_zero.mp hlen)
      simp
  | succ n => simp [and_assoc]

/-- **The attributes of a tag** are read, as long as none but the last one for which there is room has a
value that is too long. -/
theorem taginfoLoop_spec (tagname : Bytes) {n : ℕ} {attrs : List Attr} (hlen : attrs.length ≤ n)
    (hfits : ValuesFit n attrs) (nvlist : List NvPair) (rest : Bytes) :
    taginfoLoop tagname n nvlist (attrs.flatMap Attr.text ++ 62 :: rest) =
      some ⟨if attrs.length < n then 1 else 2, some (tagname, nvlist ++ attrs.map Attr.entry), some rest⟩ := by
  have hend := @jumptoTagend_end [] (fun b hb => absurd hb List.not_mem_nil) rest
  induction attrs generalizing n nvlist with
  | nil =>
      rw [List.map_nil, List.append_nil]
      cases n with
      | zero =>
          rw [taginfoLoop]
          exact congrArg (fun pend => some (TagResult.mk 2 _ (some pend))) hend
      | succ n =>
          have hstop : getNvpair (62 :: rest) = .tagEnd (62 :: rest) := rfl
          rw [List.flatMap_nil, List.nil_append, taginfoLoop, hstop, List.length_nil, if_pos (Nat.succ_pos n)]
          exact congrArg (fun pend => some (TagResult.mk 1 _ (some pend))) hend
  | cons a attrs ih =>
      obtain ⟨n, rfl⟩ := Nat.exists_eq_succ_of_ne_zero (Nat.ne_of_gt (Nat.lt_of_lt_of_le (Nat.succ_pos _) hlen))
      rw [List.length_cons] at hlen
      obtain ⟨hfirst, hrest⟩ := (valuesFit_cons (Nat.le_of_succ_le_succ hlen)).mp hfits
      rw [List.flatMap_cons, List.append_assoc, taginfoLoop]
      rcases getNvpair_attr a (attrs.flatMap Attr.text ++ 62 :: rest) with
        ⟨-, hread⟩ | ⟨hlong, -, hread⟩ | ⟨hlong, hsize, -⟩
      · rw [hread]
        dsimp only
        rw [ih (Nat.le_of_succ_le_succ hlen) hrest]
        simp only [List.length_cons, Nat.succ_eq_add_one, Nat.add_lt_add_iff_right, List.map_cons,
          List.append_assoc, List.singleton_append]
      · -- there is no room for another attribute
        have hn : n = 0 := by
          by_contra hne
          rw [if_neg hne] at hfirst
          exact hlong hfirst
        subst hn
        have hattrs : attrs = [] := List.eq_nil_of_length_eq_zero (by omega)
        subst hattrs
        rw [hread]
        dsimp only
        rw [taginfoLoop]
        have hquote : ∀ b ∈ [(34 : UInt8)], b ≠ 0 ∧ b ≠ 62 := List.forall_mem_singleton.mpr (by decide)
        exact congrArg (fun pend => some (TagResult.mk 2 _ (some pend))) (jumptoTagend_end hquote rest)
      · split_ifs at hfirst
        · exact absurd hfirst hsize
        · exact absurd hfirst hlong

/-- What was read before stays in front. -/
theorem taginfoLoop_front {tagname tagname' : Bytes} {n : ℕ} {nvlist l : List NvPair} {piece : Bytes}
    {r : TagResult} (h : taginfoLoop tagname n nvlist piece = some r) (htag : r.tag = some (tagname', l)) :
    nvlist <+: l := by
  induction n generalizing nvlist piece with
  | zero =>
      obtain rfl := Option.some.inj h
      obtain ⟨-, rfl⟩ := Prod.mk.inj (Option.some.inj htag)
      exact List.prefix_refl _
  | succ n ih =>
      rw [taginfoLoop] at h
      split at h
      · obtain rfl := Option.some.inj h
        obtain ⟨-, rfl⟩ := Prod.mk.inj (Option.some.inj htag)
        exact List.prefix_refl _
      · exact (List.prefix_append _ _).trans (ih h)
      · obtain rfl := Option.some.inj h
        cases htag
      · obtain rfl := Option.some.inj h
        cases htag
      · cases h

/-- What stands behind the closing quote of an attribute. -/
theorem behind_quote (attrs : List Attr) (rest : Bytes) :
    (∀ b ∈ (attrs.flatMap Attr.text ++ 62 :: rest).head?, isTagChar b = false) ∧
      charAt (attrs.flatMap Attr.text ++ 62 :: rest) ≠ 0 ∧
      charAt (skipBlank (attrs.flatMap Attr.text ++ 62 :: rest)) ≠ 61 := by
  cases attrs with
  | nil =>
      have hne : (62 : UInt8) ≠ 0 ∧ (62 : UInt8) ≠ 61 := by decide
      exact ⟨fun b hb => Option.some.inj hb ▸ rfl, hne⟩
  | cons a attrs =>
      obtain ⟨b, u, hcons⟩ := List.exists_cons_of_ne_nil a.name_ne_nil
      obtain ⟨htag, hequal, -⟩ := a.name_chars b (hcons ▸ List.mem_cons_self)
      refine ⟨fun b hb => Option.some.inj hb ▸ rfl, (by decide : (32 : UInt8) ≠ 0), ?_⟩
      obtain ⟨t, ht⟩ : ∃ t, (a :: attrs).flatMap Attr.text ++ 62 :: rest = 32 :: b :: t := by
        rw [List.flatMap_cons, Attr.text, hcons]
        exact ⟨_, rfl⟩
      have hskip : skipBlank (32 :: b :: t) = b :: t := by
        have hhead : skipBlank (b :: t) = b :: t :=
          skipBlank_of_head fun c hc => Option.some.inj hc ▸ ((isTagChar_iff b).mp htag).2.1
        exact hhead
      rw [ht, hskip]
      exact hequal

theorem Attr.entry_name (a : Attr) : a.entry.name = a.name := by
  unfold Attr.entry
  split_ifs <;> rfl

/-- **A value that is too long** and is not the last one for which there is room, or is not seen to be too long:
the tag is not read as it was written. -/
theorem taginfoLoop_long (tagname : Bytes) {n : ℕ} {attrs : List Attr} (hlen : attrs.length ≤ n)
    (hlong : ¬ ValuesFit n attrs) (nvlist : List NvPair) (rest : Bytes) {r : TagResult}
    (hloop : taginfoLoop tagname n nvlist (attrs.flatMap Attr.text ++ 62 :: rest) = some r) :
    r.tag ≠ some (tagname, nvlist ++ attrs.map Attr.entry) := by
  induction attrs generalizing n nvlist with
  | nil => exact absurd ⟨by simp, by simp⟩ hlong
  | cons c attrs ih =>
      obtain ⟨n, rfl⟩ := Nat.exists_eq_succ_of_ne_zero (Nat.ne_of_gt (Nat.lt_of_lt_of_le (Nat.succ_pos _) hlen))
      rw [List.length_cons] at hlen
      rw [valuesFit_cons (Nat.le_of_succ_le_succ hlen)] at hlong
      rw [List.flatMap_cons, List.append_assoc, taginfoLoop] at hloop
      rcases getNvpair_attr c (attrs.flatMap Attr.text ++ 62 :: rest) with
        ⟨hfit, hread⟩ | ⟨-, hsize, hread⟩ | ⟨hfit, -, hread | ⟨v, hread⟩⟩
      · rw [hread] at hloop
        have hfirst : if n = 0 then c.Sized else c.Fits := by
          split_ifs
          · exact Or.inl hfit
          · exact hfit
        have hrest := ih (Nat.le_of_succ_le_succ hlen) (fun h => hlong ⟨hfirst, h⟩) (nvlist ++ [c.entry]) hloop
        rwa [List.append_assoc] at hrest
      · -- the closing quote becomes an entry, which no attribute has
        obtain ⟨k, rfl⟩ : ∃ k, n = k + 1 := by
          refine Nat.exists_eq_succ_of_ne_zero ?_
          rintro rfl
          obtain rfl := List.eq_nil_of_length_eq_zero (Nat.le_of_succ_le_succ hlen |> Nat.le_zero.mp)
          exact hlong ⟨by rwa [if_pos rfl], by simp [ValuesFit]⟩
        have hquote : getNvpair (34 :: (attrs.flatMap Attr.text ++ 62 :: rest)) =
            .pair ⟨tagNvstatusOnlyname, [34], []⟩ (skipBlank (attrs.flatMap Attr.text ++ 62 :: rest)) := by
          obtain ⟨hend, hzero, hvalue⟩ := behind_quote attrs rest
          exact getNvpair_quote hend hzero hvalue
        rw [hread] at hloop
        dsimp only at hloop
        rw [taginfoLoop, hquote] at hloop
        intro heq
        have hpre := taginfoLoop_front hloop heq
        rw [List.map_cons, List.append_assoc, List.prefix_append_right_inj, List.singleton_append,
          List.cons_prefix_cons] at hpre
        obtain ⟨e, he⟩ : ∃ e, e ∈ attrs ∧ e.entry = ⟨tagNvstatusOnlyname, [34], []⟩ :=
          List.mem_map.mp (hpre.2.mem List.mem_cons_self)
        have hname : e.name = [34] := e.entry_name.symm.trans (congrArg NvPair.name he.2)
        exact (e.name_chars 34 (hname ▸ List.mem_cons_self)).2.2 rfl
      · rw [hread] at hloop
        cases hloop
      · -- the entry lacks the flag
        rw [hread] at hloop
        intro heq
        have hpre := taginfoLoop_front hloop heq
        rw [List.map_cons, List.prefix_append_right_inj, List.cons_prefix_cons] at hpre
        have hentry : c.entry.status = tagNvstatusLongvalue := by
          unfold Attr.entry
          rw [if_neg hfit]
        rw [← hpre.1] at hentry
        exact absurd hentry (show (0 : ℕ) ≠ tagNvstatusLongvalue by decide)

/-! ## The tag -/

/-- The name of the tag. -/
theorem getTagname_name (tagname : TagName) (attrs : List Attr) (rest : Bytes) :
    getTagname (tagText tagname attrs rest) maxTagLen =
      .ok (tagname.text.map toLower, attrs.flatMap Attr.text ++ 62 :: rest) := by
  obtain ⟨hend, hzero, -⟩ := behind_quote attrs rest
  unfold tagText
  generalize attrs.flatMap Attr.text ++ 62 :: rest = t at *
  have hpos : 0 < tagname.text.length := List.length_pos_iff.mpr tagname.ne_nil
  have hfirst : ∀ b ∈ (tagname.text ++ t).head?, isTagChar b = true := by
    intro b hb
    rw [List.head?_append_of_ne_nil _ tagname.ne_nil] at hb
    exact tagname.chars b (List.mem_of_mem_head? hb)
  have hskip : skipBlank (tagname.text ++ t) = tagname.text ++ t :=
    skipBlank_of_head fun b hb => ((isTagChar_iff b).mp (hfirst b hb)).2.1
  have hhead : charAt (tagname.text ++ t) ≠ 0 := by
    obtain ⟨b, u, hcons⟩ := List.exists_cons_of_ne_nil tagname.ne_nil
    rw [hcons] at hfirst ⊢
    exact ((isTagChar_iff b).mp (hfirst b rfl)).1
  have hdrop : (tagname.text ++ t).dropWhile (fun b => b != 0 && !ulIsspace b && b != 62) = t := by
    have hname : (tagname.text ++ t).dropWhile isTagChar = t.dropWhile isTagChar :=
      List.dropWhile_append_of_pos tagname.chars
    refine hname.trans ?_
    cases t with
    | nil => rfl
    | cons b t => exact List.dropWhile_cons_of_neg (by rw [hend b rfl]; decide)
  have hsize : (tagname.text ++ t).length - t.length = tagname.text.length := by
    rw [List.length_append, Nat.add_sub_cancel]
  unfold getTagname
  dsimp only
  rw [hskip, if_neg hhead, hdrop, if_neg hzero, hsize, if_neg (Nat.ne_of_gt hpos),
    if_neg (Nat.not_lt.mpr (Nat.le_sub_one_of_lt tagname.lt)), List.take_left]

/-- **When a tag is read as it was written**: no value is too long, but that of the last attribute for which
there is room, if it is seen to be too long. -/
theorem getTaginfo_iff (tagname : TagName) (attrs : List Attr) (rest : Bytes)
    (hlen : attrs.length ≤ maxNvcountInTag) :
    ReadAsWritten tagname attrs rest ↔
      (∀ a ∈ attrs.take (maxNvcountInTag - 1), a.Fits) ∧ ∀ a ∈ attrs.drop (maxNvcountInTag - 1), a.Sized := by
  rw [ReadAsWritten, getTaginfo, getTagname_name]
  dsimp only
  constructor
  · intro h
    by_contra hlong
    exact taginfoLoop_long (tagname.text.map toLower) hlen hlong [] rest h rfl
  · intro hfits
    rw [taginfoLoop_spec _ hlen hfits, List.nil_append]

/-- The tag `a`. -/
def shortTag : TagName := ⟨[97], by decide, by decide, by decide +kernel⟩

/-- An attribute with the name `b`. -/
def attrOf (value : Bytes) (h : ∀ b ∈ value, b ≠ 34 ∧ b ≠ 92 ∧ b ≠ 0) : Attr :=
  ⟨[98], value, by decide, by decide, by decide +kernel, h⟩

/-- A short value, and a blank and the end of a tag in a value. -/
theorem getTaginfo_two :
    ReadAsWritten shortTag [attrOf [99] (by decide +kernel), attrOf [32, 62] (by decide +kernel)] [100] :=
  (getTaginfo_iff shortTag _ [100] (by decide)).mpr (by decide +kernel)

/-- A value of 1022 characters. -/
def longAttr : Attr := attrOf (List.replicate 1022 99) fun b hb => by
  rw [List.eq_of_mem_replicate hb]
  decide

/-- Behind a value of 1022 characters a quote is read as an attribute. -/
theorem getTaginfo_long : ¬ ∀ (tagname : TagName) (attrs : List Attr) (rest : Bytes),
    attrs.length ≤ maxNvcountInTag → ReadAsWritten tagname attrs rest := by
  intro h
  have hlong : ¬ longAttr.Fits := by
    unfold Attr.Fits
    rw [show longAttr.value.length = 1022 from List.length_replicate]
    decide
  have hread := h shortTag [longAttr] [] (by decide)
  rw [ReadAsWritten, getTaginfo, getTagname_name] at hread
  exact taginfoLoop_long _ (by decide) (fun hfits => hlong (hfits.1 _ List.mem_cons_self)) [] [] hread rfl

end Asenal.Ul
