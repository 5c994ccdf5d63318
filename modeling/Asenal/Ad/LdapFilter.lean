import Asenal.Ad.Asn1
import Asenal.Lib.Lexing
import Asenal.Lib.ShiftReduce

/-!
# Filters

The filters of `ldapfilter.py`: the rules of their tokens, from which PLY makes a lexer, and the tables of
`ldapfilter_tab.py`, which are run by the parser of PLY. PLY is a parameter, of which no more is taken than what is
documented of it. A filter is what the grammar in the docstrings of the `Parser` derives.

* `functionRules`, `stringRules` — the rules of the tokens.
* `Derives` — the grammar.
* `parser` — the tables.
* `Ply`, `parse` — what is taken of PLY, and what comes of it.
-/

namespace Asenal.Ad

open Asenal.Lib.Text Asenal.Lib.Lexing Asenal.Lib.ShiftReduce Asenal.Lib.Raised

/-! ## Filters and tokens -/

mutual

/-- A parsed filter: `AND`, `OR`, `NOT`, `EQUALS`, `LTE`, `GTE`, `APPROX` and `PRESENT`. -/
inductive Filter
  | and (terms : Terms)
  | or (terms : Terms)
  | not (term : Filter)
  | equals (type value : Bytes)
  | lte (type value : Bytes)
  | gte (type value : Bytes)
  | approx (type value : Bytes)
  | present (type : Bytes)

/-- The terms of `AND` and `OR`, at least one. -/
inductive Terms
  | one (term : Filter)
  | cons (term : Filter) (terms : Terms)

end

inductive Token
  | lparen
  | rparen
  | equals
  | and
  | or
  | not
  | lte
  | gte
  | approx
  | present
  | string (value : Bytes)
deriving DecidableEq

/-- The value of a hexadecimal digit. -/
def hexDigit (b : UInt8) : Option ℕ :=
  if 48 ≤ b ∧ b ≤ 57 then some (b.toNat - 48)
  else if 65 ≤ b ∧ b ≤ 70 then some (b.toNat - 55)
  else if 97 ≤ b ∧ b ≤ 102 then some (b.toNat - 87)
  else none

/-- `_unescape`: a backslash and two hexadecimal digits are one character. -/
def unescape : Bytes → Bytes
  | 92 :: high :: low :: rest =>
      match hexDigit high, hexDigit low with
      | some h, some l => UInt8.ofNat (16 * h + l) :: unescape rest
      | _, _ => 92 :: unescape (high :: low :: rest)
  | b :: rest => b :: unescape rest
  | [] => []

/-- The names of the tokens. Source: `tokens`. -/
inductive Kind
  | lparen
  | rparen
  | equals
  | and
  | or
  | not
  | lte
  | gte
  | approx
  | present
  | string
deriving DecidableEq

/-- The token that some characters are; those of a string go through `_unescape`. -/
def Kind.token (text : Bytes) : Kind → Token
  | .lparen => .lparen
  | .rparen => .rparen
  | .equals => .equals
  | .and => .and
  | .or => .or
  | .not => .not
  | .lte => .lte
  | .gte => .gte
  | .approx => .approx
  | .present => .present
  | .string => .string (unescape text)

/-- `t_STRING`. -/
def tString : Rule Kind UInt8 := ⟨.string, "[^()=&|!<>~*]+", .noneOf (ascii "()=&|!<>~*")⟩

/-- The rules that are functions. -/
def functionRules : List (Rule Kind UInt8) := [tString]

/-- `t_LPAREN`. -/
def tLparen : Rule Kind UInt8 := ⟨.lparen, "\\(", .text (ascii "(")⟩

/-- `t_RPAREN`. -/
def tRparen : Rule Kind UInt8 := ⟨.rparen, "\\)", .text (ascii ")")⟩

/-- `t_EQUALS`. -/
def tEquals : Rule Kind UInt8 := ⟨.equals, "=", .text (ascii "=")⟩

/-- `t_AND`. -/
def tAnd : Rule Kind UInt8 := ⟨.and, "&", .text (ascii "&")⟩

/-- `t_OR`. -/
def tOr : Rule Kind UInt8 := ⟨.or, "\\|", .text (ascii "|")⟩

/-- `t_NOT`. -/
def tNot : Rule Kind UInt8 := ⟨.not, "!", .text (ascii "!")⟩

/-- `t_LTE`. -/
def tLte : Rule Kind UInt8 := ⟨.lte, "<=", .text (ascii "<=")⟩

/-- `t_GTE`. -/
def tGte : Rule Kind UInt8 := ⟨.gte, ">=", .text (ascii ">=")⟩

/-- `t_APPROX`. -/
def tApprox : Rule Kind UInt8 := ⟨.approx, "~=", .text (ascii "~=")⟩

/-- `t_PRESENT`. -/
def tPresent : Rule Kind UInt8 := ⟨.present, "=\\*", .text (ascii "=*")⟩

/-- The rules that are strings. -/
def stringRules : List (Rule Kind UInt8) :=
  [tLparen, tRparen, tEquals, tAnd, tOr, tNot, tLte, tGte, tApprox, tPresent]

/-- `t_ANY_error`. -/
def illegalToken : PyError := .ldapfilter "illegal token"

/-! ## The grammar -/

/-- The symbols on the left of the productions. -/
inductive Nonterminal
  | start
  | filter
  | and
  | or
  | not
  | filterlist
  | item
deriving DecidableEq

/-- The values of symbols. -/
inductive Val
  | token (t : Token)
  | filter (f : Filter)
  | terms (fs : Terms)
  | none

/-- What the productions derive, and its value. -/
inductive Derives : Nonterminal → List Token → Val → Prop
  | filter {n ts v} (hn : n = .and ∨ n = .or ∨ n = .not ∨ n = .item) (h : Derives n ts v) :
      Derives .filter (.lparen :: (ts ++ [.rparen])) v
  | and {ts fs} (h : Derives .filterlist ts (.terms fs)) : Derives .and (.and :: ts) (.filter (.and fs))
  | or {ts fs} (h : Derives .filterlist ts (.terms fs)) : Derives .or (.or :: ts) (.filter (.or fs))
  | not {ts f} (h : Derives .filter ts (.filter f)) : Derives .not (.not :: ts) (.filter (.not f))
  | one {ts f} (h : Derives .filter ts (.filter f)) : Derives .filterlist ts (.terms (.one f))
  | cons {ts us f fs} (h : Derives .filter ts (.filter f)) (hs : Derives .filterlist us (.terms fs)) :
      Derives .filterlist (ts ++ us) (.terms (.cons f fs))
  | equals (a b : Bytes) : Derives .item [.string a, .equals, .string b] (.filter (.equals a b))
  | lte (a b : Bytes) : Derives .item [.string a, .lte, .string b] (.filter (.lte a b))
  | gte (a b : Bytes) : Derives .item [.string a, .gte, .string b] (.filter (.gte a b))
  | approx (a b : Bytes) : Derives .item [.string a, .approx, .string b] (.filter (.approx a b))
  | present (a : Bytes) : Derives .item [.string a, .present] (.filter (.present a))

/-! ## The tables -/

/-- `_lr_action_items`: for each token, the states and their actions. -/
def lrActionItems : Option Token → List ℕ × List ℤ
  | some .and => ([2], [4])
  | some .approx => ([5], [14])
  | some .rparen => ([3, 7, 9, 10, 11, 12, 13, 18, 19, 20, 21, 22, 23, 24, 25, 26, 27, 28],
      [11, 20, 22, 23, -1, -5, -8, -14, -6, -4, -7, -3, -2, -9, -13, -12, -10, -11])
  | some (.string _) => ([2, 14, 15, 16, 17], [5, 25, 26, 27, 28])
  | some .lte => ([5], [17])
  | some .gte => ([5], [15])
  | some .equals => ([5], [16])
  | some .lparen => ([0, 4, 6, 8, 11, 13, 20, 22, 23], [2, 2, 2, 2, -1, 2, -4, -3, -2])
  | some .not => ([2], [8])
  | some .or => ([2], [6])
  | some .present => ([5], [18])
  | none => ([1, 11, 20, 22, 23], [0, -1, -4, -3, -2])

/-- `_lr_goto_items`: for each symbol, the states and those behind them. -/
def lrGotoItems : Nonterminal → List ℕ × List ℕ
  | .and => ([2], [3])
  | .filterlist => ([4, 6, 13], [12, 19, 24])
  | .filter => ([0, 4, 6, 8, 13], [1, 13, 13, 21, 13])
  | .item => ([2], [7])
  | .not => ([2], [9])
  | .or => ([2], [10])
  | .start => ([], [])

/-- `_lr_productions`: the symbols on the left, and how many there are on the right. -/
def lrProductions : List (Nonterminal × ℕ) :=
  [(.start, 1), (.filter, 3), (.filter, 3), (.filter, 3), (.filter, 3), (.and, 2), (.or, 2), (.not, 2),
    (.filterlist, 1), (.filterlist, 2), (.item, 3), (.item, 3), (.item, 3), (.item, 3), (.item, 2)]

/-- An entry of a table. -/
def entryAt {α : Type} (items : List ℕ × List α) (state : ℕ) : Option α :=
  ((items.1.zip items.2).find? fun e => e.1 = state).map Prod.snd

/-- Positive entries shift, negative ones reduce. -/
def actOf (a : ℤ) : Act := if 0 < a then .shift a.toNat else if a < 0 then .reduce (-a).toNat else .accept

def lrAction (state : ℕ) (look : Option Token) : Option Act := (entryAt (lrActionItems look) state).map actOf

def lrGoto (state prod : ℕ) : Option ℕ := do
  let (name, _) ← lrProductions[prod]?
  entryAt (lrGotoItems name) state

/-- `p_item`, by its second symbol. -/
def pItem : List Val → Val
  | [.token (.string a), .token .equals, .token (.string b)] => .filter (.equals a b)
  | [.token (.string a), .token .lte, .token (.string b)] => .filter (.lte a b)
  | [.token (.string a), .token .gte, .token (.string b)] => .filter (.gte a b)
  | [.token (.string a), .token .approx, .token (.string b)] => .filter (.approx a b)
  | [.token (.string a), .token .present] => .filter (.present a)
  | _ => .none

/-- The functions of the productions. -/
def pFunction : Nonterminal → List Val → Val
  | .filter, [_, v, _] => v
  | .and, [_, .terms fs] => .filter (.and fs)
  | .or, [_, .terms fs] => .filter (.or fs)
  | .not, [_, .filter f] => .filter (.not f)
  | .filterlist, [.filter f] => .terms (.one f)
  | .filterlist, [.filter f, .terms fs] => .terms (.cons f fs)
  | .item, vs => pItem vs
  | _, _ => .none

/-- The parser of the tables. -/
def parser : Parser Token Val PyError where
  action := lrAction
  goto := lrGoto
  length p := (lrProductions[p]?.map Prod.snd).getD 0
  shift := .token
  reduce p vs := ((lrProductions[p]?).map fun e => pFunction e.1 vs).getD .none
  syntaxError := .ldapfilter "syntax error"
  stuck := .keyError

/-! ## What is taken of PLY -/

/-- PLY: what makes lexers from rules, and what runs the tables. -/
structure Ply where
  lexer : Lexer Kind UInt8
  engine : Engine parser

/-- The tokens of a text, and the exception that is raised behind them if the text is illegal there. -/
def Ply.lex (ply : Ply) (input : Bytes) : List Token × Option PyError :=
  let (lexemes, illegal) := ply.lexer.tokens functionRules stringRules input
  (lexemes.map fun e => e.1.token e.2, if illegal then some illegalToken else none)

/-- `parse`. -/
def parse (ply : Ply) (input : Bytes) : Except PyError Filter :=
  let (tokens, ending) := ply.lex input
  match ply.engine.parse ⟨[], tokens, ending⟩ with
  | .ok (.filter f) => .ok f
  | .ok _ => .error .keyError
  | .error e => .error e

end Asenal.Ad
