import Asenal.Ad.LdapGrammar

/-!
# The text of a filter

Filters as text that the parser of `ldapfilter.py` reads.

* `unescape_escape` — characters that have a meaning in a filter can be written by their codes.
* `parse_render` — a filter that is written is read.
* `range_parse` — the filters that the parser returns.
-/

namespace Asenal.Ad

open Asenal.Lib.Text

/-! ## Characters -/

/-- The small hexadecimal digit of a number below sixteen. -/
def hexChar (n : ℕ) : UInt8 := if n < 10 then UInt8.ofNat (48 + n) else UInt8.ofNat (87 + n)

/-- A character as it is, or as a backslash with its code. -/
def escapeChar (b : UInt8) : Bytes :=
  if stringChar b ∧ b ≠ 92 then [b] else [92, hexChar (b.toNat / 16), hexChar (b.toNat % 16)]

/-- A text, character by character. -/
def escape (s : Bytes) : Bytes := s.flatMap escapeChar

variable {b : UInt8} {s rest pending : List UInt8}

/-- A digit has its value. -/
theorem hexDigit_hexChar {n : ℕ} (h : n < 16) : hexDigit (hexChar n) = some n := by
  interval_cases n <;> rfl

/-- A digit may stand in a string. -/
theorem stringChar_hexChar {n : ℕ} (h : n < 16) : stringChar (hexChar n) = true := by
  interval_cases n <;> rfl

/-- A character that is no backslash is what it is. -/
theorem unescape_cons (hb : b ≠ 92) (rest : Bytes) : unescape (b :: rest) = b :: unescape rest := by
  rw [unescape]
  rintro _ _ _ rfl
  exact absurd rfl hb

/-- One character that was escaped is read back. -/
theorem unescape_escapeChar (b : UInt8) (rest : Bytes) : unescape (escapeChar b ++ rest) = b :: unescape rest := by
  unfold escapeChar
  split_ifs with h
  · exact unescape_cons h.2 rest
  · have hb : b.toNat < 256 := b.toNat_lt
    have hcode : 16 * (b.toNat / 16) + b.toNat % 16 = b.toNat := by omega
    show unescape (92 :: hexChar (b.toNat / 16) :: hexChar (b.toNat % 16) :: rest) = _
    rw [unescape, hexDigit_hexChar (by omega), hexDigit_hexChar (by omega)]
    simp only [hcode, UInt8.ofNat_toNat]

/-- What was escaped is read back. -/
theorem unescape_escape (s : Bytes) : unescape (escape s) = s := by
  induction s with
  | nil => rfl
  | cons b s ih => rw [escape, List.flatMap_cons, unescape_escapeChar, ← escape, ih]

/-- What was escaped has characters of strings only. -/
theorem stringChar_of_mem_escape (h : b ∈ escape s) : stringChar b = true := by
  obtain ⟨c, -, hb⟩ := List.mem_flatMap.mp h
  have hc : c.toNat < 256 := c.toNat_lt
  unfold escapeChar at hb
  split_ifs at hb with hplain
  · rw [List.mem_singleton.mp hb]
    exact hplain.1
  · simp only [List.mem_cons, List.not_mem_nil, or_false] at hb
    rcases hb with rfl | rfl | rfl
    · rfl
    · exact stringChar_hexChar (by omega)
    · exact stringChar_hexChar (by omega)

/-- What was escaped is not empty. -/
theorem escape_ne_nil (h : s ≠ []) : escape s ≠ [] := by
  intro hnil
  rw [← unescape_escape s, hnil] at h
  exact h rfl

/-- What was unescaped is not empty. -/
theorem unescape_ne_nil (h : s ≠ []) : unescape s ≠ [] := by
  fun_cases unescape s <;> simp_all

/-! ## Tokens -/

/-- A string that was escaped is its token. -/
theorem stringToken_escape (h : s ≠ []) : stringToken (escape s) = [.string s] := by
  rw [stringToken, if_neg (escape_ne_nil h), unescape_escape]

/-! ## Filters as text -/

mutual

/-- The text of a filter. -/
def render : Filter → Bytes
  | .and terms => ascii "(&" ++ renderAll terms ++ ascii ")"
  | .or terms => ascii "(|" ++ renderAll terms ++ ascii ")"
  | .not term => ascii "(!" ++ render term ++ ascii ")"
  | .equals type value => ascii "(" ++ escape type ++ ascii "=" ++ escape value ++ ascii ")"
  | .lte type value => ascii "(" ++ escape type ++ ascii "<=" ++ escape value ++ ascii ")"
  | .gte type value => ascii "(" ++ escape type ++ ascii ">=" ++ escape value ++ ascii ")"
  | .approx type value => ascii "(" ++ escape type ++ ascii "~=" ++ escape value ++ ascii ")"
  | .present type => ascii "(" ++ escape type ++ ascii "=*)"

/-- The texts of terms one behind the other. -/
def renderAll : Terms → Bytes
  | .one term => render term
  | .cons term terms => render term ++ renderAll terms

end

mutual

/-- No attribute and no value is empty. -/
def Filter.Filled : Filter → Prop
  | .and terms => terms.Filled
  | .or terms => terms.Filled
  | .not term => term.Filled
  | .equals type value => type ≠ [] ∧ value ≠ []
  | .lte type value => type ≠ [] ∧ value ≠ []
  | .gte type value => type ≠ [] ∧ value ≠ []
  | .approx type value => type ≠ [] ∧ value ≠ []
  | .present type => type ≠ []

/-- No attribute and no value in terms is empty. -/
def Terms.Filled : Terms → Prop
  | .one term => term.Filled
  | .cons term terms => term.Filled ∧ terms.Filled

end

mutual

/-- The tokens of a filter. -/
def Filter.tokens : Filter → List Token
  | .and terms => .lparen :: (.and :: terms.tokens ++ [.rparen])
  | .or terms => .lparen :: (.or :: terms.tokens ++ [.rparen])
  | .not term => .lparen :: (.not :: term.tokens ++ [.rparen])
  | .equals type value => .lparen :: ([.string type, .equals, .string value] ++ [.rparen])
  | .lte type value => .lparen :: ([.string type, .lte, .string value] ++ [.rparen])
  | .gte type value => .lparen :: ([.string type, .gte, .string value] ++ [.rparen])
  | .approx type value => .lparen :: ([.string type, .approx, .string value] ++ [.rparen])
  | .present type => .lparen :: ([.string type, .present] ++ [.rparen])

/-- The tokens of terms one behind the other. -/
def Terms.tokens : Terms → List Token
  | .one term => term.tokens
  | .cons term terms => term.tokens ++ terms.tokens

end

mutual

/-- The grammar derives the tokens of a filter, with the filter as their value. -/
theorem Filter.derives : ∀ f : Filter, Derives .filter f.tokens (.filter f)
  | .and terms => .filter (.inl rfl) (.and terms.derives)
  | .or terms => .filter (.inr (.inl rfl)) (.or terms.derives)
  | .not term => .filter (.inr (.inr (.inl rfl))) (.not term.derives)
  | .equals type value => .filter (.inr (.inr (.inr rfl))) (.equals type value)
  | .lte type value => .filter (.inr (.inr (.inr rfl))) (.lte type value)
  | .gte type value => .filter (.inr (.inr (.inr rfl))) (.gte type value)
  | .approx type value => .filter (.inr (.inr (.inr rfl))) (.approx type value)
  | .present type => .filter (.inr (.inr (.inr rfl))) (.present type)

/-- The grammar derives the tokens of terms, with the terms as their value. -/
theorem Terms.derives : ∀ fs : Terms, Derives .filterlist fs.tokens (.terms fs)
  | .one term => .one term.derives
  | .cons term terms => .cons term.derives terms.derives

end

/-- A value and the parenthesis behind it. -/
theorem lex_value (h : s ≠ []) (rest : Bytes) :
    lexLoop [] (escape s ++ 41 :: rest) = before [.string s, .rparen] (lexLoop [] rest) := by
  rw [lexLoop_string (fun _ => stringChar_of_mem_escape), List.nil_append, lexLoop_one (t := .rparen) rfl rfl,
    stringToken_escape h]
  rfl

/-- What was escaped begins with a character of a string. -/
theorem head?_escape (h : s ≠ []) (rest : Bytes) : ∃ b, (escape s ++ rest).head? = some b ∧ stringChar b = true := by
  cases hs : escape s with
  | nil => exact absurd hs (escape_ne_nil h)
  | cons b text => exact ⟨b, rfl, stringChar_of_mem_escape (hs ▸ List.mem_cons_self)⟩

/-- `=` with its two sides. -/
theorem lex_equals {type value : Bytes} (ht : type ≠ []) (hv : value ≠ []) (rest : Bytes) :
    lexLoop [] (escape type ++ 61 :: (escape value ++ 41 :: rest)) =
      before [.string type, .equals, .string value, .rparen] (lexLoop [] rest) := by
  obtain ⟨b, hhead, hb⟩ := head?_escape hv (41 :: rest)
  have hop : operator 61 (escape value ++ 41 :: rest).head? = some (.equals, false) := by
    rw [hhead]
    have hne : b ≠ 42 := by
      rintro rfl
      exact absurd hb (by decide)
    simp [operator, hne]
  rw [lexLoop_string (fun _ => stringChar_of_mem_escape), List.nil_append, lexLoop_one rfl hop,
    stringToken_escape ht, lex_value hv, before_before]
  rfl

/-- An operator of two characters with its two sides. -/
theorem lex_operator {type value : Bytes} {op : UInt8} {t : Token} (ht : type ≠ []) (hv : value ≠ [])
    (hop : stringChar op = false) (htoken : operator op (some 61) = some (t, true)) (rest : Bytes) :
    lexLoop [] (escape type ++ op :: 61 :: (escape value ++ 41 :: rest)) =
      before [.string type, t, .string value, .rparen] (lexLoop [] rest) := by
  rw [lexLoop_string (fun _ => stringChar_of_mem_escape), List.nil_append, lexLoop_two hop htoken,
    stringToken_escape ht, lex_value hv, before_before]
  rfl

/-- An operator in parentheses, in front of its terms. -/
theorem lex_terms {text : Bytes} {op : UInt8} {t : Token} {ts : List Token} (hop : stringChar op = false)
    (htoken : ∀ next, operator op next = some (t, false))
    (htext : ∀ rest, lexLoop [] (text ++ rest) = before ts (lexLoop [] rest)) (rest : Bytes) :
    lexLoop [] (([40, op] ++ text ++ [41]) ++ rest) = before (.lparen :: (t :: ts ++ [.rparen])) (lexLoop [] rest) := by
  have hclose : lexLoop [] (41 :: rest) = before [.rparen] (lexLoop [] rest) := lexLoop_one rfl rfl
  have hopen : lexLoop [] (40 :: op :: (text ++ 41 :: rest)) = before [.lparen, t] (lexLoop [] (text ++ 41 :: rest)) := by
    rw [lexLoop_one rfl rfl, lexLoop_one hop (htoken _), before_before]
    rfl
  simp only [List.append_assoc, List.cons_append, List.nil_append]
  rw [hopen, htext, hclose, before_before, before_before]
  simp

/-- What stands behind a parenthesis. -/
theorem lex_item {text : Bytes} {ts : List Token} (htext : lexLoop [] text = before ts (lexLoop [] rest)) :
    lexLoop [] (40 :: text) = before (.lparen :: ts) (lexLoop [] rest) := by
  rw [lexLoop_one rfl rfl, htext, before_before]
  rfl

/-- An attribute that is present. -/
theorem lex_present {type : Bytes} (ht : type ≠ []) (rest : Bytes) :
    lexLoop [] (escape type ++ 61 :: 42 :: 41 :: rest) = before [.string type, .present, .rparen] (lexLoop [] rest) := by
  have hclose : lexLoop [] (41 :: rest) = before [.rparen] (lexLoop [] rest) := lexLoop_one rfl rfl
  rw [lexLoop_string (fun _ => stringChar_of_mem_escape), List.nil_append, lexLoop_two rfl rfl,
    stringToken_escape ht, hclose, before_before]
  rfl

mutual

/-- The tokens of a filter are those of its text. -/
theorem lex_render : ∀ {f : Filter}, f.Filled → ∀ rest : Bytes,
    lexLoop [] (render f ++ rest) = before f.tokens (lexLoop [] rest)
  | .and _, h, rest => lex_terms rfl (fun _ => rfl) (lex_renderAll h) rest
  | .or _, h, rest => lex_terms rfl (fun _ => rfl) (lex_renderAll h) rest
  | .not f, h, rest => by
      have hterm := lex_render (f := f) h
      exact lex_terms rfl (fun _ => rfl) hterm rest
  | .equals type value, h, rest => by
      have hitem := lex_item (lex_equals h.1 h.2 rest)
      simpa [render, Filter.tokens, ascii] using hitem
  | .lte type value, h, rest => by
      have hitem := lex_item (@lex_operator _ _ 60 _ h.1 h.2 rfl rfl rest)
      simpa [render, Filter.tokens, ascii] using hitem
  | .gte type value, h, rest => by
      have hitem := lex_item (@lex_operator _ _ 62 _ h.1 h.2 rfl rfl rest)
      simpa [render, Filter.tokens, ascii] using hitem
  | .approx type value, h, rest => by
      have hitem := lex_item (@lex_operator _ _ 126 _ h.1 h.2 rfl rfl rest)
      simpa [render, Filter.tokens, ascii] using hitem
  | .present type, h, rest => by
      have hitem := lex_item (lex_present h rest)
      simpa [render, Filter.tokens, ascii] using hitem

/-- The tokens of terms are those of their text. -/
theorem lex_renderAll : ∀ {fs : Terms}, fs.Filled → ∀ rest : Bytes,
    lexLoop [] (renderAll fs ++ rest) = before fs.tokens (lexLoop [] rest)
  | .one _, h, rest => lex_render h rest
  | .cons _ _, h, rest => by
      rw [renderAll, List.append_assoc, lex_render h.1, lex_renderAll h.2, before_before]
      rfl

end

/-- A filter that is written is read. -/
theorem parse_render (ply : Ply) {f : Filter} (h : f.Filled) : parse ply (render f) = .ok f := by
  have hlex : ply.lex (render f) = (f.tokens, none) := by
    have htokens := lex_render h []
    rw [List.append_nil] at htokens
    rw [ply.lex_eq, htokens]
    simp [before, stringToken, lexLoop]
  rw [parse_eq_ok_iff, hlex]
  exact ⟨rfl, f.derives⟩

/-! ## What the parser returns -/

/-- What is derived has no empty strings where the tokens have none. -/
def Val.Filled : Val → Prop
  | .filter f => f.Filled
  | .terms fs => fs.Filled
  | _ => True

/-- Of tokens without empty strings nothing with empty strings is derived. -/
theorem Derives.filled {n : Nonterminal} {ts : List Token} {v : Val} (h : Derives n ts v)
    (hts : ∀ s, Token.string s ∈ ts → s ≠ []) : v.Filled := by
  induction h with
  | filter hn h ih => exact ih fun s hs => hts s (by simp [hs])
  | and h ih => exact ih fun s hs => hts s (by simp [hs])
  | or h ih => exact ih fun s hs => hts s (by simp [hs])
  | not h ih => simpa [Val.Filled, Filter.Filled] using ih fun s hs => hts s (by simp [hs])
  | one h ih => exact ih hts
  | cons h hs ih ihs => exact ⟨ih fun s h => hts s (by simp [h]), ihs fun s h => hts s (by simp [h])⟩
  | present a => exact hts a (by simp)
  | _ a b => exact ⟨hts a (by simp), hts b (by simp)⟩

/-- The token of a string is not empty. -/
theorem ne_nil_of_mem_stringToken (h : Token.string s ∈ stringToken pending) : s ≠ [] := by
  unfold stringToken at h
  split_ifs at h with hp
  · exact absurd h List.not_mem_nil
  · obtain rfl := Token.string.inj (List.mem_singleton.mp h)
    exact unescape_ne_nil hp

/-- An operator is no string. -/
theorem operator_ne_string {next : Option UInt8} {two : Bool} : operator b next ≠ some (.string s, two) := by
  intro hop
  rcases operator_cases hop with h | ⟨-, h⟩ <;> simp at h

/-- No string among the tokens of a text is empty. -/
theorem ne_nil_of_mem_lexLoop (pending input : Bytes) (h : Token.string s ∈ (lexLoop pending input).1) : s ≠ [] := by
  refine lexLoop_holds (P := fun r => Token.string s ∈ r.1 → s ≠ []) (fun _ => ne_nil_of_mem_stringToken)
    (fun _ => ne_nil_of_mem_stringToken) (fun pending b next t two r hop hr hs => ?_) pending input h
  rw [before, List.mem_append, List.mem_append, List.mem_singleton] at hs
  rcases hs with (hs | rfl) | hs
  · exact ne_nil_of_mem_stringToken hs
  · exact absurd hop operator_ne_string
  · exact hr hs

/-- **The filters that the parser returns** are those without empty strings; each of them is returned for its text,
and what was escaped there is unescaped. -/
theorem range_parse (ply : Ply) :
    (∀ f, ((∃ input, parse ply input = .ok f) ↔ f.Filled) ∧ (f.Filled → parse ply (render f) = .ok f)) ∧
      ∀ s, unescape (escape s) = s := by
  refine ⟨fun f => ⟨⟨?_, fun h => ⟨render f, parse_render ply h⟩⟩, parse_render ply⟩, unescape_escape⟩
  rintro ⟨input, h⟩
  refine (parse_eq_ok_iff.mp h).2.filled fun s hs => ?_
  rw [ply.lex_eq] at hs
  exact ne_nil_of_mem_lexLoop [] input hs

end Asenal.Ad
