import Asenal.Lib.CString

/-!
# Characters of URLs

The character tables of the URL functions, the value of an escape, the length limits of the three
families of functions, and the routines on whole strings that all families share: line ends are
deleted, and blanks are written as `%20`.

* `escapeLoop_eq` — blanks are escaped iff the result stays below the limit.
* `pchar_eq`, `param_eq`, `keep_eq` — how the tables of the parts of a path fit together.
* `letDigit_of_ulToChar` — an escape with a character has two hexadecimal digits.
-/

namespace Asenal.Url

open Asenal.Lib.Text Asenal.Lib.CString

/-! ## The tables -/

/-- `UL_LET_DIGIT`, `UL_URL_LET_DIGIT`: letters and digits. -/
def letDigit (b : UInt8) : Bool :=
  (48 ≤ b && b ≤ 57) || (65 ≤ b && b ≤ 90) || (97 ≤ b && b ≤ 122)

/-- `UL_URL_LET_DIG_HY`: letters, digits, `-` and `_`. -/
def letDigHy (b : UInt8) : Bool := letDigit b || b == 45 || b == 95

/-- `UL_URL_UP_LET`: upper case letters. -/
def upLet (b : UInt8) : Bool := 65 ≤ b && b ≤ 90

/-- `UL_UCH_RES`, `UL_URL_UCH_RES`: everything but control characters and `#`. -/
def uchRes (b : UInt8) : Bool := 32 ≤ b && b != 35

/-- `UL_PCHAR`, `UL_URL_PCHAR`: what may stand in a segment of a path. -/
def pchar (b : UInt8) : Bool := uchRes b && b != 47 && b != 59 && b != 63

/-- `UL_PARAM`, `UL_URL_PARAM`: what may stand in a parameter. -/
def param (b : UInt8) : Bool := uchRes b && b != 59 && b != 63

/-- `UL_RESERVED`: `$ % & + , / : ; = ? @`. -/
def reserved (b : UInt8) : Bool :=
  b == 36 || b == 37 || b == 38 || b == 43 || b == 44 || b == 47 || b == 58 || b == 59 || b == 61 ||
    b == 63 || b == 64

/-- `UL_LFCR`: the two line ends. -/
def lfcr (b : UInt8) : Bool := b == 10 || b == 13

/-- `UL_TO_CHAR`: the value of a hexadecimal digit, and `0` for everything else. -/
def hexVal (b : UInt8) : ℕ :=
  if 48 ≤ b ∧ b ≤ 57 then b.toNat - 48
  else if 65 ≤ b ∧ b ≤ 70 then b.toNat - 55
  else if 97 ≤ b ∧ b ≤ 102 then b.toNat - 87
  else 0

/-- The character of an escape; `0` if one of the two characters is no hexadecimal digit. Source:
`ul_url.cpp` `ul_to_char`. -/
def ulToChar (h₁ h₂ : UInt8) : UInt8 :=
  if (hexVal h₁ = 0 ∧ h₁ ≠ 48) ∨ (hexVal h₂ = 0 ∧ h₂ ≠ 48) then 0
  else (16 * hexVal h₁ + hexVal h₂).toUInt8

/-- `*pin += 32` for an upper case letter. -/
def toLower (b : UInt8) : UInt8 := if upLet b then b + 32 else b

/-! ## The limits -/

/-- The limits of a family: the sizes of the arrays for a URL, its site, its port and its path. -/
structure Limits where
  url : ℕ
  site : ℕ
  port : ℕ
  path : ℕ

/-- `UL_MAX_URL_LEN` and so on. Source: `ul_url.h`. -/
def limits : Limits := ⟨256, 48, 7, 203⟩

/-- `UL_MAX_URL_LEN_EX` and so on. Source: `ul_url.h`. -/
def limitsEx : Limits := ⟨1024, 128, 7, 800⟩

/-- `UL_MAX_URL_LEN_EX2` and so on. Source: `ul_url.h`. -/
def limitsEx2 : Limits := ⟨2048, 256, 7, 1600⟩

/-! ## Whole strings -/

/-- The string without its line ends. Source: `ul_url.cpp` `ul_delete_inter`. -/
def ulDeleteInter (str : Bytes) : Bytes := str.filter fun b => !lfcr b

/-- `http://`. -/
def scheme : Bytes := ascii "http://"

/-- `strncasecmp(url, "http://", 7) == 0`. -/
def hasScheme (url : Bytes) : Bool := (url.take scheme.length).map toLower == scheme

/-- `http://`, in letters of either case. -/
def IsScheme (p : Bytes) : Prop := p.map toLower = scheme

instance (p : Bytes) : Decidable (IsScheme p) := inferInstanceAs (Decidable (_ = _))

/-- Where the host begins: behind `http://`, if the string begins with it. -/
def schemeLength (url : Bytes) : ℕ := if hasScheme url then scheme.length else 0

/-- The text with its blanks written as `%20`. -/
def escapeBlanks (s : Bytes) : Bytes := s.flatMap fun b => if b = 32 then [37, 50, 48] else [b]

/-- The copying loop of the two escape functions, with `tmp` copied already: it fails when there is
no room for the next character and the terminator. Source: `ul_url.cpp` `ul_space_escape`,
`ul_space_escape_path` and their `_ex2` copies. -/
def escapeLoop (maxLen : ℕ) (tmp : Bytes) : Bytes → Option Bytes
  | [] => if (maxLen : ℤ) ≤ tmp.length then none else some tmp
  | b :: s =>
      if b ≠ 32 then
        if (maxLen : ℤ) - 1 ≤ tmp.length then none else escapeLoop maxLen (tmp ++ [b]) s
      else if (maxLen : ℤ) - 3 ≤ tmp.length then none
      else escapeLoop maxLen (tmp ++ [37, 50, 48]) s

/-- The path with its blanks escaped, if it stays below `maxPathLen` bytes. Source: `ul_url.cpp`
`ul_space_escape_path`, `ul_space_escape_path_ex2`. -/
def ulSpaceEscapePath (path : Bytes) (maxPathLen : ℕ) : Option Bytes := escapeLoop maxPathLen [] path

/-- The position of a character in a string. -/
def strchr (s : Bytes) (c : UInt8) : Option ℕ := s.findIdx? (· == c)

/-- `psite_end`: the last character of the site, if a path follows it. -/
def siteEnd : Option ℕ → Option ℕ → Option ℕ
  | some port, some path => if port < path then some (port - 1) else some (path - 1)
  | none, some path => some (path - 1)
  | _, none => none

/-- The URL with its blanks escaped, if it and its site and path stay within the limits. Source:
`ul_url.cpp` `ul_space_escape`, `ul_space_escape_ex2`. -/
def ulSpaceEscape (url : Bytes) (lim : Limits) : Option Bytes :=
  match escapeLoop lim.url [] url with
  | none => none
  | some tmp =>
      let pin := if tmp.take scheme.length = scheme then tmp.drop scheme.length else tmp
      let path := strchr pin 47
      let port := strchr pin 58
      if path = some 0 then none
      else if path.any (fun i => lim.path ≤ pin.length - i) then none
      else if port = some 0 then none
      else
        if (siteEnd port path).any (fun e => lim.site ≤ e) then none
        else if siteEnd port path = none ∧ lim.site ≤ pin.length then none
        else some tmp

/-! ## Searching and copying -/

/-- What is found is the first one. -/
theorem strchr_append {a : Bytes} {c : UInt8} (h : c ∉ a) (r : Bytes) :
    strchr (a ++ r) c = (strchr r c).map (· + a.length) := by
  have hnone : a.findIdx? (· == c) = none := by
    rw [List.findIdx?_eq_none_iff]
    intro b hb
    exact beq_eq_false_iff_ne.mpr (ne_of_mem_of_not_mem hb h)
  rw [strchr, List.findIdx?_append, hnone, Option.none_or, strchr]

theorem strchr_cons_self (c : UInt8) (r : Bytes) : strchr (c :: r) c = some 0 := by
  simp [strchr, List.findIdx?_cons]

theorem strchr_cons_ne {b c : UInt8} (h : b ≠ c) (r : Bytes) :
    strchr (b :: r) c = (strchr r c).map (· + 1) := by
  simp [strchr, List.findIdx?_cons, h]

theorem strchr_of_not_mem {a : Bytes} {c : UInt8} (h : c ∉ a) : strchr a c = none := by
  have := strchr_append h []
  rwa [List.append_nil] at this

theorem strchr_lt {s : Bytes} {c : UInt8} {i : ℕ} (h : strchr s c = some i) : i < s.length := by
  rw [strchr, List.findIdx?_eq_some_iff_getElem] at h
  exact h.1

/-- The copying loop succeeds iff what it copies stays below the limit. -/
theorem escapeLoop_eq (maxLen : ℕ) (tmp s : Bytes) : escapeLoop maxLen tmp s =
    if (tmp ++ escapeBlanks s).length < maxLen then some (tmp ++ escapeBlanks s) else none := by
  induction s generalizing tmp with
  | nil =>
      rw [escapeLoop, escapeBlanks, List.flatMap_nil, List.append_nil]
      by_cases h : tmp.length < maxLen
      · rw [if_neg (by omega), if_pos h]
      · rw [if_pos (by omega), if_neg h]
  | cons b s ih =>
      by_cases hb : b = 32
      · have htext : tmp ++ escapeBlanks (b :: s) = tmp ++ [37, 50, 48] ++ escapeBlanks s := by
          rw [escapeBlanks, List.flatMap_cons, if_pos hb, List.append_assoc, escapeBlanks]
        rw [escapeLoop, if_neg (not_not.mpr hb), htext]
        split_ifs with hfull hfit hfit
        · simp only [List.length_append, List.length_cons, List.length_nil] at hfit
          omega
        · rfl
        · rw [ih, if_pos hfit]
        · rw [ih, if_neg hfit]
      · have htext : tmp ++ escapeBlanks (b :: s) = tmp ++ [b] ++ escapeBlanks s := by
          rw [escapeBlanks, List.flatMap_cons, if_neg hb, List.append_assoc, escapeBlanks]
        rw [escapeLoop, if_pos hb, htext]
        split_ifs with hfull hfit hfit
        · simp only [List.length_append, List.length_cons, List.length_nil] at hfit
          omega
        · rfl
        · rw [ih, if_pos hfit]
        · rw [ih, if_neg hfit]

/-! ## Facts about the tables -/

/-- The separators of a path are allowed behind it. -/
theorem uchRes_separator {b : UInt8} (h : b = 47 ∨ b = 59 ∨ b = 63) : uchRes b = true := by
  rcases h with rfl | rfl | rfl <;> rfl

/-- What may stand in a segment may stand anywhere. -/
theorem pchar_eq (b : UInt8) : pchar b = (uchRes b && !(b == 47 || b == 59 || b == 63)) := by
  unfold pchar
  grind

/-- What may stand in a parameter may stand anywhere. -/
theorem param_eq (b : UInt8) : param b = (uchRes b && !(b == 59 || b == 63)) := by
  unfold param
  grind

/-- What is read off the tables for each character: letters, digits and hyphens may stand anywhere, and small letters
are letters of the same kind; a line end may not; a digit of an escape is a letter or a digit; and only letters have
small letters of their own. -/
theorem table_facts : ∀ b : UInt8, (letDigit b = true → uchRes b = true) ∧ (letDigHy b = true → uchRes b = true) ∧
    (isDigit b = true → uchRes b = true) ∧ (uchRes b = true → (!lfcr b) = true) ∧
    (letDigHy b = true → letDigHy (toLower b) = true ∧ upLet (toLower b) = false ∧
      letDigit (toLower b) = letDigit b) ∧
    (¬ (hexVal b = 0 ∧ b ≠ 48) → letDigit b = true) ∧ (toLower b = 58 → b = 58) ∧ (toLower b = 47 → b = 47) ∧
    (toLower b ∈ ascii "http" → letDigit b = true) :=
  forall_byte (by decide +kernel)

/-- Letters and digits may stand anywhere. -/
theorem uchRes_letDigit {b : UInt8} : letDigit b = true → uchRes b = true :=
  (table_facts b).1

/-- So may the characters of a host and of a port. -/
theorem uchRes_letDigHy {b : UInt8} : letDigHy b = true → uchRes b = true :=
  (table_facts b).2.1

theorem uchRes_isDigit {b : UInt8} : isDigit b = true → uchRes b = true :=
  (table_facts b).2.2.1

/-- What may stand in a URL is no line end. -/
theorem not_lfcr_of_uchRes {b : UInt8} : uchRes b = true → (!lfcr b) = true :=
  (table_facts b).2.2.2.1

/-- An escape whose character is not reserved is treated alike in all parts of a path. -/
theorem keep_eq {c : UInt8} {t : UInt8 → Bool} (ht : t = pchar ∨ t = param ∨ t = uchRes) :
    (t c && !reserved c) = (uchRes c && !reserved c) := by
  rcases ht with rfl | rfl | rfl
  · unfold pchar reserved
    grind
  · unfold param reserved
    grind
  · rfl

/-- Lower case letters are letters. -/
theorem letDigHy_toLower {b : UInt8} : letDigHy b = true → letDigHy (toLower b) = true ∧
    upLet (toLower b) = false ∧ letDigit (toLower b) = letDigit b :=
  (table_facts b).2.2.2.2.1

/-- An escape with a value has two hexadecimal digits. -/
theorem letDigit_of_ulToChar {h₁ h₂ : UInt8} (h : ulToChar h₁ h₂ ≠ 0) :
    letDigit h₁ = true ∧ letDigit h₂ = true := by
  have hdigit : ∀ b : UInt8, ¬ (hexVal b = 0 ∧ b ≠ 48) → letDigit b = true :=
    fun b => (table_facts b).2.2.2.2.2.1
  unfold ulToChar at h
  split_ifs at h with hbad
  · exact absurd rfl h
  · rw [not_or] at hbad
    exact ⟨hdigit h₁ hbad.1, hdigit h₂ hbad.2⟩

/-! ## Schemes -/

/-- A character that is no letter is that of no other one in small letters. -/
theorem eq_of_toLower {b c : UInt8} (hc : c = 58 ∨ c = 47) : toLower b = c → b = c := by
  obtain ⟨-, -, -, -, -, -, hcolon, hslash, -⟩ := table_facts b
  rcases hc with rfl | rfl
  · exact hcolon
  · exact hslash

theorem letDigit_of_toLower {b : UInt8} : toLower b ∈ ascii "http" → letDigit b = true :=
  (table_facts b).2.2.2.2.2.2.2.2

theorem IsScheme.length {p : Bytes} (h : IsScheme p) : p.length = 7 := by
  have hlen := congrArg List.length h
  rwa [List.length_map] at hlen

/-- A scheme is in the string. -/
theorem schemeLength_le (url : Bytes) : schemeLength url ≤ url.length := by
  unfold schemeLength
  split_ifs with h
  · have hlen := IsScheme.length (eq_of_beq h)
    rw [List.length_take] at hlen
    exact (show scheme.length = 7 from rfl) ▸ (by omega)
  · exact Nat.zero_le _

/-- A scheme has four letters, a colon and two slashes. -/
theorem IsScheme.split {p : Bytes} (h : IsScheme p) : ∃ letters : Bytes,
    p = letters ++ [58, 47, 47] ∧ letters.length = 4 ∧ ∀ b ∈ letters, letDigit b = true := by
  have hscheme : scheme = ascii "http" ++ [58, 47, 47] := rfl
  obtain ⟨letters, slashes, rfl, hletters, hslashes⟩ := List.map_eq_append_iff.mp (h.trans hscheme)
  refine ⟨letters, ?_, ?_, ?_⟩
  · have hthree : slashes.length = 3 := by
      rw [← List.length_map (f := toLower), hslashes]
      rfl
    obtain ⟨a, b, c, rfl⟩ := List.length_eq_three.mp hthree
    simp only [List.map_cons, List.map_nil, List.cons.injEq, and_true] at hslashes
    rw [eq_of_toLower (by simp) hslashes.1, eq_of_toLower (by simp) hslashes.2.1,
      eq_of_toLower (by simp) hslashes.2.2]
  · rw [← List.length_map (f := toLower), hletters]
    rfl
  · intro b hb
    apply letDigit_of_toLower
    rw [← hletters]
    exact List.mem_map_of_mem hb

/-- The other characters are in no scheme. -/
theorem IsScheme.not_mem {p : Bytes} (h : IsScheme p) {c : UInt8} (hc : letDigit c = false)
    (hcolon : c ≠ 58) (hslash : c ≠ 47) : c ∉ p := by
  obtain ⟨letters, rfl, -, hletters⟩ := h.split
  intro hmem
  rcases List.mem_append.mp hmem with hmem | hmem
  · rw [hletters c hmem] at hc
    cases hc
  · simp [hcolon, hslash] at hmem

end Asenal.Url
