import Asenal.Ad.LdapFilter

/-!
# The tokens of a filter

What every lexer reads that is made from the rules of `ldapfilter.py`: characters of `t_STRING` as long as there are
any, and between them operators of one character or two.

* `operator`, `lexLoop` — the tokens, character by character.
* `first?_operator` — which of the rules matches at an operator.
* `Ply.lex_eq` — the tokens that PLY reads.
-/

namespace Asenal.Ad

open Asenal.Lib.Text Asenal.Lib.Lexing

/-! ## Character by character -/

/-- The characters of `t_STRING`: none of `()=&|!<>~*`. -/
def stringChar (b : UInt8) : Bool := !(ascii "()=&|!<>~*").contains b

/-- The token of some characters of `t_STRING`, if there are any. -/
def stringToken (pending : Bytes) : List Token := if pending = [] then [] else [.string (unescape pending)]

/-- The token that begins with another character, and whether it has two of them. -/
def operator (b : UInt8) (next : Option UInt8) : Option (Token × Bool) :=
  if b = 40 then some (.lparen, false)
  else if b = 41 then some (.rparen, false)
  else if b = 124 then some (.or, false)
  else if b = 38 then some (.and, false)
  else if b = 33 then some (.not, false)
  else if b = 61 then if next = some 42 then some (.present, true) else some (.equals, false)
  else if b = 60 ∧ next = some 61 then some (.lte, true)
  else if b = 62 ∧ next = some 61 then some (.gte, true)
  else if b = 126 ∧ next = some 61 then some (.approx, true)
  else none

/-- The tokens behind some characters of `t_STRING`; and an exception where no rule matches. -/
def lexLoop : Bytes → Bytes → List Token × Option PyError
  | pending, [] => (stringToken pending, none)
  | pending, b :: rest =>
      if stringChar b then lexLoop (pending ++ [b]) rest
      else
        match operator b rest.head?, rest with
        | none, _ => (stringToken pending, some illegalToken)
        | some (t, true), _ :: rest => (stringToken pending ++ t :: (lexLoop [] rest).1, (lexLoop [] rest).2)
        | some (t, _), rest => (stringToken pending ++ t :: (lexLoop [] rest).1, (lexLoop [] rest).2)

/-- Tokens that are read before some others. -/
def before (ts : List Token) (r : List Token × Option PyError) : List Token × Option PyError := (ts ++ r.1, r.2)

variable {b : UInt8} {pending rest input : List UInt8} {k : Kind} {n : ℕ}

/-- No characters are no token. -/
@[simp] theorem stringToken_nil : stringToken [] = [] := rfl

/-- Tokens in front of tokens. -/
theorem before_before (ts us : List Token) (r : List Token × Option PyError) :
    before ts (before us r) = before (ts ++ us) r := by
  rw [before, before, before, List.append_assoc]

/-- The operators that begin with `=`. -/
theorem operator_equals (next : Option UInt8) :
    operator 61 next = if next = some 42 then some (.present, true) else some (.equals, false) := rfl

/-- The operator that begins with `<`. -/
theorem operator_less (next : Option UInt8) :
    operator 60 next = if next = some 61 then some (.lte, true) else none := by
  simp [operator]

/-- The operator that begins with `>`. -/
theorem operator_greater (next : Option UInt8) :
    operator 62 next = if next = some 61 then some (.gte, true) else none := by
  simp [operator]

/-- The operator that begins with `~`. -/
theorem operator_tilde (next : Option UInt8) :
    operator 126 next = if next = some 61 then some (.approx, true) else none := by
  simp [operator]

/-- What a conditional gives. -/
theorem some_of_ite {α : Type} {c : Prop} [Decidable c] {x z : α} {y : Option α}
    (h : (if c then some x else y) = some z) : c ∧ x = z ∨ y = some z := by
  split at h
  · exact .inl ⟨‹c›, Option.some.inj h⟩
  · exact .inr h

/-- **The operators**: six of one character, and four of two. -/
theorem operator_cases {next : Option UInt8} {e : Token × Bool} (h : operator b next = some e) :
    e ∈ [Token.lparen, .rparen, .or, .and, .not, .equals].map (·, false) ∨
      next ≠ none ∧ e ∈ [Token.present, .lte, .gte, .approx].map (·, true) := by
  rcases some_of_ite h with ⟨-, rfl⟩ | h
  · exact .inl (by decide)
  rcases some_of_ite h with ⟨-, rfl⟩ | h
  · exact .inl (by decide)
  rcases some_of_ite h with ⟨-, rfl⟩ | h
  · exact .inl (by decide)
  rcases some_of_ite h with ⟨-, rfl⟩ | h
  · exact .inl (by decide)
  rcases some_of_ite h with ⟨-, rfl⟩ | h
  · exact .inl (by decide)
  split_ifs at h with _ hnext hnext hnext hnext
  all_goals obtain rfl := Option.some.inj h
  · exact .inr ⟨by simp [hnext], by decide⟩
  · exact .inl (by decide)
  · exact .inr ⟨by simp [hnext.2], by decide⟩
  · exact .inr ⟨by simp [hnext.2], by decide⟩
  · exact .inr ⟨by simp [hnext.2], by decide⟩

/-- A token of two characters has them. -/
theorem operator_two {t : Token} (hop : operator b rest.head? = some (t, true)) : ∃ c rest', rest = c :: rest' := by
  rcases operator_cases hop with h | ⟨hne, -⟩
  · simp at h
  · cases rest with
    | nil => exact absurd rfl hne
    | cons c rest => exact ⟨c, rest, rfl⟩

/-- One character more, or one operator. -/
theorem lexLoop_cons (pending : Bytes) (b : UInt8) (rest : Bytes) : lexLoop pending (b :: rest) =
    if stringChar b then lexLoop (pending ++ [b]) rest
    else
      match operator b rest.head?, rest with
      | none, _ => (stringToken pending, some illegalToken)
      | some (t, true), _ :: rest => (stringToken pending ++ t :: (lexLoop [] rest).1, (lexLoop [] rest).2)
      | some (t, _), rest => (stringToken pending ++ t :: (lexLoop [] rest).1, (lexLoop [] rest).2) :=
  lexLoop.eq_def pending (b :: rest)

/-- A character of a string is kept. -/
theorem lexLoop_char (hb : stringChar b = true) : lexLoop pending (b :: rest) = lexLoop (pending ++ [b]) rest := by
  rw [lexLoop_cons, if_pos hb]

/-- Characters of a string are read to its end. -/
theorem lexLoop_string {text : Bytes} (h : ∀ b ∈ text, stringChar b = true) (pending rest : Bytes) :
    lexLoop pending (text ++ rest) = lexLoop (pending ++ text) rest := by
  induction text generalizing pending with
  | nil => simp
  | cons b text ih =>
      obtain ⟨hb, htext⟩ := List.forall_mem_cons.mp h
      rw [List.cons_append, lexLoop_char hb, ih htext, List.append_assoc, List.singleton_append]

/-- A token of one character. -/
theorem lexLoop_one {t : Token} (hb : stringChar b = false) (hop : operator b rest.head? = some (t, false)) :
    lexLoop pending (b :: rest) = before (stringToken pending ++ [t]) (lexLoop [] rest) := by
  rw [lexLoop_cons]
  simp only [hb, Bool.false_eq_true, if_false, hop]
  simp [before]

/-- A token of two characters. -/
theorem lexLoop_two {t : Token} {c : UInt8} (hb : stringChar b = false)
    (hop : operator b (some c) = some (t, true)) :
    lexLoop pending (b :: c :: rest) = before (stringToken pending ++ [t]) (lexLoop [] rest) := by
  rw [lexLoop_cons]
  simp only [hb, Bool.false_eq_true, if_false, List.head?_cons, hop]
  simp [before]

/-- No rule matches. -/
theorem lexLoop_illegal (hb : stringChar b = false) (hop : operator b rest.head? = none) :
    lexLoop pending (b :: rest) = (stringToken pending, some illegalToken) := by
  rw [lexLoop_cons]
  simp only [hb, Bool.false_eq_true, if_false, hop]

/-- Behind the characters of a string its token is read. -/
theorem lexLoop_flush (h : ∀ b ∈ rest.head?, stringChar b = false) :
    lexLoop pending rest = before (stringToken pending) (lexLoop [] rest) := by
  cases rest with
  | nil =>
      show (stringToken pending, none) = (stringToken pending ++ stringToken [], none)
      rw [stringToken_nil, List.append_nil]
  | cons b rest =>
      have hb : stringChar b = false := h b rfl
      cases hop : operator b rest.head? with
      | none => rw [lexLoop_illegal hb hop, lexLoop_illegal hb hop, before, stringToken_nil, List.append_nil]
      | some e =>
          obtain ⟨t, two⟩ := e
          cases two with
          | false =>
              rw [lexLoop_one hb hop, lexLoop_one hb hop, before_before, stringToken_nil, List.nil_append]
          | true =>
              obtain ⟨c, rest, rfl⟩ := operator_two hop
              rw [lexLoop_two hb hop, lexLoop_two hb hop, before_before, stringToken_nil, List.nil_append]

/-- **What holds of all tokens**: of those at an end, and of some that are read before others. -/
theorem lexLoop_holds {P : List Token × Option PyError → Prop} (hend : ∀ pending, P (stringToken pending, none))
    (hillegal : ∀ pending, P (stringToken pending, some illegalToken))
    (hnext : ∀ pending b next t two r, operator b next = some (t, two) → P r →
      P (before (stringToken pending ++ [t]) r))
    (pending input : List UInt8) : P (lexLoop pending input) := by
  have hmore : ∀ pending b next t two r, operator b next = some (t, two) → P r →
      P (stringToken pending ++ t :: r.1, r.2) := by
    intro pending b next t two r hop hr
    simpa [before] using hnext pending b next t two r hop hr
  fun_induction lexLoop pending input with
  | case1 pending => exact hend pending
  | case2 pending b rest hb ih => exact ih
  | case3 pending b rest hb hop =>
      simp only [hop]
      exact hillegal pending
  | case4 pending b hb c rest t hop ih =>
      simp only [hop]
      exact hmore pending _ _ _ _ _ hop ih
  | case5 pending b hb t two rest hone hop ih =>
      rw [hop]
      cases rest with
      | nil =>
          cases two <;> exact hmore pending _ _ _ _ _ hop ih
      | cons c rest =>
          cases two with
          | true => exact (hone c rest rfl rfl).elim
          | false => exact hmore pending _ _ _ _ _ hop ih

/-- Behind the tokens a text ends, or it is illegal. -/
theorem lexLoop_ending (pending input : List UInt8) :
    (lexLoop pending input).2 = none ∨ (lexLoop pending input).2 = some illegalToken :=
  lexLoop_holds (P := fun r => r.2 = none ∨ r.2 = some illegalToken) (fun _ => .inl rfl) (fun _ => .inr rfl)
    (fun _ _ _ _ _ _ _ h => h) pending input

/-! ## The rules -/

/-- The characters that are in no string. -/
theorem eq_of_not_stringChar (hb : stringChar b = false) : b = 40 ∨ b = 41 ∨ b = 61 ∨ b = 38 ∨ b = 124 ∨ b = 33 ∨
    b = 60 ∨ b = 62 ∨ b = 126 ∨ b = 42 := by
  have hmem : b ∈ ascii "()=&|!<>~*" := by simpa [stringChar] using hb
  simpa [ascii] using hmem

/-- A text begins with a character if that is its first one. -/
theorem singleton_prefix_iff {c : UInt8} : [c] <+: rest ↔ rest.head? = some c := by
  cases rest with
  | nil => simp
  | cons d rest => simp [eq_comm]

/-- A rule of two characters does not match where another one stands behind the first. -/
theorem read?_two {R : Rule Kind UInt8} {c : UInt8} (hR : R.pattern = .text [b, c]) (hc : rest.head? ≠ some c) :
    R.read? (b :: rest) = none := by
  rw [Rule.read?_text hR, if_neg]
  exact fun h => hc (singleton_prefix_iff.mp (List.cons_prefix_cons.mp h.2).2)

/-- The rule of one character is the first that matches, if no other one begins with the character. -/
theorem first?_one (L : Lexer Kind UInt8) (R : Rule Kind UInt8) (hmem : R ∈ stringRules) (hR : R.pattern = .text [b])
    (honly : ∀ r ∈ stringRules, r = R ∨ r.regex.length < R.regex.length ∨ r.read? (b :: rest) = none) :
    first? (L.order stringRules) (b :: rest) = some (R.name, 1) := by
  refine L.first?_order hmem ?_ honly
  rw [Rule.read?_text hR, if_pos ⟨List.cons_ne_nil b [], singleton_prefix_iff.mpr rfl⟩]
  rfl

/-- The rule of two characters is the first that matches, if no other one begins with the first of them that is as
long. -/
theorem first?_two (L : Lexer Kind UInt8) {c : UInt8} (R : Rule Kind UInt8) (hmem : R ∈ stringRules)
    (hR : R.pattern = .text [b, c]) (hc : rest.head? = some c)
    (honly : ∀ r ∈ stringRules, r = R ∨ r.regex.length < R.regex.length ∨ r.pattern.Elsewhere b) :
    first? (L.order stringRules) (b :: rest) = some (R.name, 2) := by
  refine L.first?_order hmem ?_ fun r hr => (honly r hr).imp_right (Or.imp_right Rule.read?_elsewhere)
  rw [Rule.read?_text hR, if_pos]
  · rfl
  · exact ⟨List.cons_ne_nil b [c], List.cons_prefix_cons.mpr ⟨rfl, singleton_prefix_iff.mpr hc⟩⟩

/-- Where there is no operator, no rule matches. -/
theorem first?_illegal (L : Lexer Kind UInt8) (hb : stringChar b = false) (hop : operator b rest.head? = none) :
    first? (L.order stringRules) (b :: rest) = none := by
  -- the only rule that begins with the character, if there is one, has another character behind it
  have hother : ∀ R : Rule Kind UInt8, R.read? (b :: rest) = none →
      (∀ r ∈ stringRules, r = R ∨ r.pattern.Elsewhere b) → first? (L.order stringRules) (b :: rest) = none :=
    fun R hR honly => L.first?_order_none fun r hr =>
      (honly r hr).elim (fun heq => heq ▸ hR) Rule.read?_elsewhere
  rcases eq_of_not_stringChar hb with rfl | rfl | rfl | rfl | rfl | rfl | rfl | rfl | rfl | rfl
  case inr.inr.inl =>
    rw [operator_equals] at hop
    split_ifs at hop
  case inr.inr.inr.inr.inr.inr.inl =>
    rw [operator_less] at hop
    exact hother tLte (read?_two (c := 61) rfl fun h => Option.some_ne_none _ ((if_pos h).symm.trans hop)) (by decide)
  case inr.inr.inr.inr.inr.inr.inr.inl =>
    rw [operator_greater] at hop
    exact hother tGte (read?_two (c := 61) rfl fun h => Option.some_ne_none _ ((if_pos h).symm.trans hop)) (by decide)
  case inr.inr.inr.inr.inr.inr.inr.inr.inl =>
    rw [operator_tilde] at hop
    exact hother tApprox (read?_two (c := 61) rfl fun h => Option.some_ne_none _ ((if_pos h).symm.trans hop)) (by decide)
  case inr.inr.inr.inr.inr.inr.inr.inr.inr =>
    exact L.first?_order_none fun r hr =>
      Rule.read?_elsewhere ((by decide : ∀ r ∈ stringRules, r.pattern.Elsewhere 42) r hr)
  all_goals exact absurd hop nofun

/-- **The rule of an operator** is the first one that matches. -/
theorem first?_operator (L : Lexer Kind UInt8) {t : Token} {two : Bool} (hb : stringChar b = false)
    (hop : operator b rest.head? = some (t, two)) :
    ∃ k, first? (L.order stringRules) (b :: rest) = some (k, if two then 2 else 1) ∧ ∀ text, k.token text = t := by
  have halone : ∀ R : Rule Kind UInt8, (∀ r ∈ stringRules, r = R ∨ r.pattern.Elsewhere b) →
      ∀ r ∈ stringRules, r = R ∨ r.regex.length < R.regex.length ∨ r.read? (b :: rest) = none :=
    fun R h r hr => (h r hr).imp_right fun helse => .inr (Rule.read?_elsewhere helse)
  rcases eq_of_not_stringChar hb with rfl | rfl | rfl | rfl | rfl | rfl | rfl | rfl | rfl | rfl
  · obtain ⟨rfl, rfl⟩ := Prod.mk.inj (Option.some.inj hop)
    exact ⟨_, first?_one L tLparen (by decide) rfl (halone _ (by decide)), fun _ => rfl⟩
  · obtain ⟨rfl, rfl⟩ := Prod.mk.inj (Option.some.inj hop)
    exact ⟨_, first?_one L tRparen (by decide) rfl (halone _ (by decide)), fun _ => rfl⟩
  · rw [operator_equals] at hop
    split_ifs at hop with hpresent
    all_goals obtain ⟨rfl, rfl⟩ := Prod.mk.inj (Option.some.inj hop)
    · exact ⟨_, first?_two L tPresent (by decide) rfl hpresent (by decide), fun _ => rfl⟩
    · have honly : ∀ r ∈ stringRules, r = tEquals ∨ r = tPresent ∨ r.pattern.Elsewhere 61 := by decide
      refine ⟨_, first?_one L tEquals (by decide) rfl fun r hr => ?_, fun _ => rfl⟩
      rcases honly r hr with h | rfl | h
      · exact .inl h
      · exact .inr (.inr (read?_two rfl hpresent))
      · exact .inr (.inr (Rule.read?_elsewhere h))
  · obtain ⟨rfl, rfl⟩ := Prod.mk.inj (Option.some.inj hop)
    exact ⟨_, first?_one L tAnd (by decide) rfl (halone _ (by decide)), fun _ => rfl⟩
  · obtain ⟨rfl, rfl⟩ := Prod.mk.inj (Option.some.inj hop)
    exact ⟨_, first?_one L tOr (by decide) rfl (halone _ (by decide)), fun _ => rfl⟩
  · obtain ⟨rfl, rfl⟩ := Prod.mk.inj (Option.some.inj hop)
    exact ⟨_, first?_one L tNot (by decide) rfl (halone _ (by decide)), fun _ => rfl⟩
  · rw [operator_less] at hop
    split_ifs at hop with hnext
    obtain ⟨rfl, rfl⟩ := Prod.mk.inj (Option.some.inj hop)
    exact ⟨_, first?_two L tLte (by decide) rfl hnext (by decide), fun _ => rfl⟩
  · rw [operator_greater] at hop
    split_ifs at hop with hnext
    obtain ⟨rfl, rfl⟩ := Prod.mk.inj (Option.some.inj hop)
    exact ⟨_, first?_two L tGte (by decide) rfl hnext (by decide), fun _ => rfl⟩
  · rw [operator_tilde] at hop
    split_ifs at hop with hnext
    obtain ⟨rfl, rfl⟩ := Prod.mk.inj (Option.some.inj hop)
    exact ⟨_, first?_two L tApprox (by decide) rfl hnext (by decide), fun _ => rfl⟩
  · exact absurd hop nofun

/-- At a character of a string the rule of the strings matches, up to the end of the string. -/
theorem first?_string (rules : List (Rule Kind UInt8)) (hb : stringChar b = true) :
    first? (functionRules ++ rules) (b :: rest) =
      some (.string, ((b :: rest).takeWhile stringChar).length) := by
  have hne : (b :: rest).takeWhile stringChar ≠ [] := by simp [hb]
  have hrun : Pattern.length? (.noneOf (ascii "()=&|!<>~*")) (b :: rest) =
      some ((b :: rest).takeWhile stringChar).length := if_neg hne
  rw [first?, functionRules, List.singleton_append, List.findSome?_cons, Rule.read?, tString, hrun]
  rfl

/-- At any other character the rules that are strings are tried. -/
theorem first?_other (rules : List (Rule Kind UInt8)) (hb : stringChar b = false) :
    first? (functionRules ++ rules) (b :: rest) = first? rules (b :: rest) := by
  have hnil : (b :: rest).takeWhile stringChar = [] := by simp [hb]
  have hrun : Pattern.length? (.noneOf (ascii "()=&|!<>~*")) (b :: rest) = none := if_pos hnil
  rw [first?, functionRules, List.singleton_append, List.findSome?_cons, Rule.read?, tString, hrun]
  rfl

/-! ## What PLY reads -/

variable (ply : Ply)

/-- A token is read in front of what is read behind it. -/
theorem Ply.lex_first (h : first? (functionRules ++ ply.lexer.order stringRules) input = some (k, n)) :
    ply.lex input = before [k.token (input.take n)] (ply.lex (input.drop n)) := by
  rw [Ply.lex, Ply.lex, ply.lexer.tokens_first _ _ _ _ _ h]
  rfl

/-- A string is read to its end. -/
theorem Ply.lex_string {text : Bytes} (hne : text ≠ []) (h : ∀ b ∈ text, stringChar b = true)
    (hrest : ∀ b ∈ rest.head?, stringChar b = false) :
    ply.lex (text ++ rest) = before (stringToken text) (ply.lex rest) := by
  obtain ⟨b, text, rfl⟩ := List.exists_cons_of_ne_nil hne
  have hrun : (b :: (text ++ rest)).takeWhile stringChar = b :: text := by
    have hstop : rest.takeWhile stringChar = [] := by
      cases rest with
      | nil => rfl
      | cons c rest => simp [hrest c rfl]
    rw [← List.cons_append, List.takeWhile_append_of_pos h, hstop, List.append_nil]
  have hfirst := @first?_string b (text ++ rest) (ply.lexer.order stringRules) (h b List.mem_cons_self)
  rw [hrun] at hfirst
  rw [List.cons_append, ply.lex_first hfirst, ← List.cons_append, List.take_left, List.drop_left, stringToken,
    if_neg hne, Kind.token]

/-- **The tokens that PLY reads** are read character by character. -/
theorem Ply.lex_eq (input : Bytes) : ply.lex input = lexLoop [] input := by
  induction hlen : input.length using Nat.strong_induction_on generalizing input with
  | h m ih =>
  have hshort : ∀ text : Bytes, text.length < input.length → ply.lex text = lexLoop [] text :=
    fun text h => ih text.length (hlen ▸ h) text rfl
  cases input with
  | nil => rw [Ply.lex, ply.lexer.tokens_nil]; rfl
  | cons b rest =>
      cases hb : stringChar b with
      | true =>
          have hsplit := (b :: rest).takeWhile_append_dropWhile (p := stringChar)
          have hne : (b :: rest).takeWhile stringChar ≠ [] := by simp [hb]
          have hchars : ∀ c ∈ (b :: rest).takeWhile stringChar, stringChar c = true := fun c => List.mem_takeWhile_imp
          have hstop : ∀ c ∈ ((b :: rest).dropWhile stringChar).head?, stringChar c = false := by
            intro c hc
            have hnot := List.head?_dropWhile_not stringChar (b :: rest)
            rw [Option.mem_def.mp hc] at hnot
            simpa using hnot
          have hlt : ((b :: rest).dropWhile stringChar).length < (b :: rest).length := by
            have hlengths := congrArg List.length hsplit
            have hpos := List.length_pos_of_ne_nil hne
            rw [List.length_append] at hlengths
            omega
          rw [← hsplit, ply.lex_string hne hchars hstop, lexLoop_string hchars, List.nil_append, lexLoop_flush hstop,
            hshort _ hlt]
      | false =>
          cases hop : operator b rest.head? with
          | none =>
              rw [lexLoop_illegal hb hop, Ply.lex, ply.lexer.tokens_none _ _ _ (List.cons_ne_nil b rest)
                ((first?_other _ hb).trans (first?_illegal ply.lexer hb hop))]
              rfl
          | some e =>
              obtain ⟨t, two⟩ := e
              obtain ⟨k, hfirst, htoken⟩ := first?_operator ply.lexer hb hop
              rw [ply.lex_first ((first?_other _ hb).trans hfirst), htoken]
              cases two with
              | false =>
                  rw [lexLoop_one hb hop, ← hshort rest (Nat.lt_succ_self _)]
                  rfl
              | true =>
                  obtain ⟨c, rest, rfl⟩ := operator_two hop
                  rw [lexLoop_two hb hop, ← hshort rest (by simp only [List.length_cons]; omega)]
                  rfl

end Asenal.Ad
