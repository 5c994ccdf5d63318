import Mathlib.Data.List.Sort
import Mathlib.Data.List.TakeWhile

/-!
# Lexers by rules

A lexer that is generated from rules reads a text from its beginning: the first rule whose regular expression
matches there gives a token, and where none matches the text is illegal. The rules that are functions are tried
first, in the order in which they are given, and then those that are strings, the longer expressions before the
shorter ones; strings of one length come in any order.

* `Rule`, `first?` — a rule, and the first one that matches.
* `Lexer` — what is known of a generator of lexers.
* `Lexer.first?_order` — which string is the first that matches.
* `Lexer.plain` — a generator.
-/

namespace Asenal.Lib.Lexing

variable {K α : Type} [DecidableEq α]

/-! ## Rules -/

/-- A regular expression: some characters, or characters that are none of some, one at least. -/
inductive Pattern (α : Type)
  | text (s : List α)
  | noneOf (chars : List α)
deriving DecidableEq

/-- How long the match is at the beginning of a text. -/
def Pattern.length? : Pattern α → List α → Option ℕ
  | .text s, input => if s ≠ [] ∧ s <+: input then some s.length else none
  | .noneOf chars, input =>
      let run := input.takeWhile fun c => !chars.contains c
      if run = [] then none else some run.length

/-- A rule: the token that it gives, its regular expression as it is written, and what that matches. -/
structure Rule (K α : Type) where
  name : K
  regex : String
  pattern : Pattern α
deriving DecidableEq

/-- No text that begins with a character is matched. -/
def Pattern.Elsewhere (a : α) : Pattern α → Prop
  | .text s => s.head? ≠ some a
  | .noneOf chars => a ∈ chars

instance (a : α) : (p : Pattern α) → Decidable (p.Elsewhere a)
  | .text s => inferInstanceAs (Decidable (s.head? ≠ some a))
  | .noneOf chars => inferInstanceAs (Decidable (a ∈ chars))

/-- The token at the beginning of a text, and its length. -/
def Rule.read? (r : Rule K α) (input : List α) : Option (K × ℕ) :=
  (r.pattern.length? input).map fun n => (r.name, n)

/-- The token of the first rule that matches. -/
def first? (rules : List (Rule K α)) (input : List α) : Option (K × ℕ) := rules.findSome? fun r => r.read? input

/-- The tokens of a text with their characters, and whether it is illegal behind them. -/
abbrev Lexemes (K α : Type) := List (K × List α) × Bool

/-! ## Generators -/

/-- **A generator of lexers**, as it is documented: `order` is the order in which the strings are tried, and `tokens`
is what a lexer reads that is made of functions and strings. -/
structure Lexer (K α : Type) [DecidableEq α] where
  order : List (Rule K α) → List (Rule K α)
  tokens : List (Rule K α) → List (Rule K α) → List α → Lexemes K α
  perm_order : ∀ rules, (order rules).Perm rules
  pairwise_order : ∀ rules, (order rules).Pairwise fun r r' => r'.regex.length ≤ r.regex.length
  tokens_nil : ∀ functions strings, tokens functions strings [] = ([], false)
  tokens_first : ∀ functions strings input k n, first? (functions ++ order strings) input = some (k, n) →
    tokens functions strings input = ((k, input.take n) :: (tokens functions strings (input.drop n)).1,
      (tokens functions strings (input.drop n)).2)
  tokens_none : ∀ functions strings input, input ≠ [] → first? (functions ++ order strings) input = none →
    tokens functions strings input = ([], true)

variable {rules functions strings : List (Rule K α)} {r : Rule K α} {s input : List α} {a : α} {x : K × ℕ} {k : K}
  {n : ℕ}

/-- What a rule of some characters reads. -/
theorem Rule.read?_text (hr : r.pattern = .text s) :
    r.read? input = if s ≠ [] ∧ s <+: input then some (r.name, s.length) else none := by
  rw [Rule.read?, hr, Pattern.length?]
  split_ifs <;> rfl

/-- A rule does not match where another character begins. -/
theorem Rule.read?_elsewhere (h : r.pattern.Elsewhere a) : r.read? (a :: input) = none := by
  cases hpattern : r.pattern with
  | text s =>
      rw [hpattern] at h
      rw [Rule.read?_text hpattern, if_neg]
      rintro ⟨hne, hs⟩
      obtain ⟨b, s, rfl⟩ := List.exists_cons_of_ne_nil hne
      exact h (congrArg some (List.cons_prefix_cons.mp hs).1)
  | noneOf chars =>
      rw [hpattern] at h
      have hmem : a ∈ chars := h
      have hrun : (a :: input).takeWhile (fun c => !chars.contains c) = [] :=
        List.takeWhile_cons_of_neg (by simpa using hmem)
      rw [Rule.read?, hpattern, Pattern.length?, if_pos hrun]
      rfl

/-- What a rule matches is not empty, and not longer than the text. -/
theorem Rule.length_pos (h : r.read? input = some (k, n)) : 0 < n ∧ n ≤ input.length := by
  obtain ⟨m, hm, heq⟩ := Option.map_eq_some_iff.mp h
  obtain ⟨-, rfl⟩ := Prod.mk.inj heq
  cases hpattern : r.pattern with
  | text s =>
      rw [hpattern, Pattern.length?] at hm
      split_ifs at hm with hs
      obtain rfl := Option.some.inj hm
      exact ⟨List.length_pos_of_ne_nil hs.1, hs.2.length_le⟩
  | noneOf chars =>
      rw [hpattern, Pattern.length?] at hm
      split_ifs at hm with hrun
      obtain rfl := Option.some.inj hm
      exact ⟨List.length_pos_of_ne_nil hrun, (List.takeWhile_sublist _).length_le⟩

/-- What is matched is not empty. -/
theorem first?_pos (h : first? rules input = some (k, n)) : 0 < n ∧ n ≤ input.length := by
  obtain ⟨r, -, hr⟩ := List.exists_of_findSome?_eq_some h
  exact r.length_pos hr

namespace Lexer

variable (L : Lexer K α)

/-- **The first string that matches**: one that matches, where no other one does that is as long. -/
theorem first?_order (hmem : r ∈ strings) (hr : r.read? input = some x)
    (honly : ∀ r' ∈ strings, r' = r ∨ r'.regex.length < r.regex.length ∨ r'.read? input = none) :
    first? (L.order strings) input = some x := by
  have hin : r ∈ L.order strings := (L.perm_order strings).mem_iff.mpr hmem
  have hother : ∀ r' ∈ L.order strings, r' = r ∨ r'.regex.length < r.regex.length ∨ r'.read? input = none :=
    fun r' h' => honly r' ((L.perm_order strings).mem_iff.mp h')
  have hsorted := L.pairwise_order strings
  generalize L.order strings = l at hin hother hsorted
  induction l with
  | nil => exact absurd hin List.not_mem_nil
  | cons a l ih =>
      obtain ⟨hlong, hsorted⟩ := List.pairwise_cons.mp hsorted
      rw [first?, List.findSome?_cons]
      by_cases heq : a = r
      · rw [heq, hr]
      · have hl : r ∈ l := (List.mem_cons.mp hin).resolve_left fun h => heq h.symm
        have hnone : a.read? input = none := by
          rcases hother a List.mem_cons_self with h | h | h
          · exact absurd h heq
          · exact absurd (hlong r hl) (not_le.mpr h)
          · exact h
        rw [hnone]
        exact ih hl (fun r' h' => hother r' (List.mem_cons_of_mem a h')) hsorted

/-- No string matches. -/
theorem first?_order_none (h : ∀ r ∈ strings, r.read? input = none) : first? (L.order strings) input = none :=
  List.findSome?_eq_none_iff.mpr fun r hr => h r ((L.perm_order strings).mem_iff.mp hr)

end Lexer

/-! ## A generator -/

/-- What is read with the rules in their order. -/
def readAll (rules : List (Rule K α)) (input : List α) : Lexemes K α :=
  if input = [] then ([], false)
  else
    match h : first? rules input with
    | none => ([], true)
    | some (k, n) =>
        have _hn := first?_pos h
        let rest := readAll rules (input.drop n)
        ((k, input.take n) :: rest.1, rest.2)
termination_by input.length
decreasing_by
  rw [List.length_drop]
  omega

/-- Strings by the length of their expressions. -/
def byLength (rules : List (Rule K α)) : List (Rule K α) :=
  rules.insertionSort fun r r' => r'.regex.length ≤ r.regex.length

/-- A generator of lexers that sorts the strings, and reads token after token. -/
def Lexer.plain : Lexer K α where
  order := byLength
  tokens functions strings := readAll (functions ++ byLength strings)
  perm_order rules := List.perm_insertionSort _ rules
  pairwise_order rules := List.pairwise_insertionSort _ rules
  tokens_nil functions strings := by rw [readAll, if_pos rfl]
  tokens_first functions strings input k n h := by
    have hne : input ≠ [] := by
      rintro rfl
      have hn := first?_pos h
      rw [List.length_nil] at hn
      omega
    rw [readAll, if_neg hne]
    split
    next hnone => exact absurd (hnone.symm.trans h) nofun
    next k' n' hsome =>
      obtain ⟨rfl, rfl⟩ := Prod.mk.inj (Option.some.inj (hsome.symm.trans h))
      rfl
  tokens_none functions strings input hne h := by
    rw [readAll, if_neg hne]
    split
    next => rfl
    next k n hsome => exact absurd (hsome.symm.trans h) nofun

end Asenal.Lib.Lexing
