import Asenal.Url.Chars

/-!
# Cleaning the characters of a path

`ul_single_path_nointer` and its copies run over the segments, the parameters and the query of a
path with four loops that differ in their character tables only; the two URL checkers have the same
four loops around another step. Here the step is a parameter (`Scanner`), and one loop with the
widest table does the same (`scanPath_eq`).

What the cleaning does is then a matter of tokens: a byte, an escape that is kept, a blank, and a
`%` that begins no escape.

* `scanPath_eq` — the four loops are one.
* `cleanRun_tokens` — the clean path is the text of its tokens.
* `singlePath_eq` — when a path is accepted, and what it becomes.
-/

namespace Asenal.Url

open Asenal.Lib.Text Asenal.Lib.CString

/-! ## The loops over a path -/

/-- A loop `while (table[*pin])`: what it writes, and where it stops. -/
structure Scanner where
  run : (UInt8 → Bool) → Bytes → Bytes × Bytes
  length_le : ∀ table s, (run table s).2.length ≤ s.length

/-- A loop `while (*pin == sep)` around the loop with a table. -/
def Scanner.sepLoop (sc : Scanner) (sep : UInt8) (table : UInt8 → Bool) (pin : Bytes) :
    Bytes × Bytes :=
  match pin with
  | [] => ([], [])
  | b :: s =>
      if b = sep then
        let r := sc.run table s
        let t := sc.sepLoop sep table r.2
        (b :: (r.1 ++ t.1), t.2)
      else ([], b :: s)
termination_by pin.length
decreasing_by
  have := sc.length_le table s
  simp only [List.length_cons]
  omega

/-- The loops over the segments, the parameters and the query of a path: what is written, and where
they stop. -/
def Scanner.scanPath (sc : Scanner) (path : Bytes) : Bytes × Bytes :=
  let root : Bytes := if path.head? = some 47 then [47] else []
  let first := sc.run pchar (path.drop root.length)
  let segments := sc.sepLoop 47 pchar first.2
  let params := sc.sepLoop 59 param segments.2
  let query := sc.sepLoop 63 uchRes params.2
  (root ++ first.1 ++ segments.1 ++ params.1 ++ query.1, query.2)

/-- The tables of a path. -/
def IsTable (t : UInt8 → Bool) : Prop := t = pchar ∨ t = param ∨ t = uchRes

/-- What the loops of a path rely on: a loop can be continued with the widest table, which takes the
separators, and it stops in front of what is not in its table. -/
structure Scanner.Lawful (sc : Scanner) : Prop where
  continued : ∀ t, IsTable t → ∀ s, sc.run uchRes s =
    ((sc.run t s).1 ++ (sc.run uchRes (sc.run t s).2).1, (sc.run uchRes (sc.run t s).2).2)
  separator : ∀ b, b = 47 ∨ b = 59 ∨ b = 63 → ∀ s, sc.run uchRes (b :: s) =
    (b :: (sc.run uchRes s).1, (sc.run uchRes s).2)
  stops : ∀ t, IsTable t → ∀ s, ∀ b ∈ (sc.run t s).2.head?, t b = false
  stopped : ∀ s, (∀ b ∈ s.head?, uchRes b = false) → sc.run uchRes s = ([], s)

/-- The loops over parts with separators can be continued with the widest table. -/
theorem Scanner.Lawful.sepLoop_continued {sc : Scanner} (h : sc.Lawful) {sep : UInt8}
    (hsep : sep = 47 ∨ sep = 59 ∨ sep = 63) {t : UInt8 → Bool} (ht : IsTable t) (s : Bytes) :
    sc.run uchRes s = ((sc.sepLoop sep t s).1 ++ (sc.run uchRes (sc.sepLoop sep t s).2).1,
      (sc.run uchRes (sc.sepLoop sep t s).2).2) := by
  induction hn : s.length using Nat.strongRecOn generalizing s with
  | _ n ih =>
      cases s with
      | nil =>
          rw [Scanner.sepLoop]
          rfl
      | cons b s =>
          rw [Scanner.sepLoop]
          split_ifs with hb
          · subst hb
            have hlen := sc.length_le t s
            rw [List.length_cons] at hn
            have hrest := ih _ (by omega) (sc.run t s).2 rfl
            rw [h.separator b hsep, h.continued t ht s, hrest]
            simp only [List.cons_append, List.append_assoc]
          · rfl

/-- Where the loops over parts with separators stop. -/
theorem Scanner.Lawful.sepLoop_stops {sc : Scanner} (h : sc.Lawful) (sep : UInt8)
    {t : UInt8 → Bool} (ht : IsTable t) (s : Bytes) :
    ∀ b ∈ (sc.sepLoop sep t s).2.head?, b ≠ sep ∧ (t b = false ∨ b ∈ s.head?) := by
  induction hn : s.length using Nat.strongRecOn generalizing s with
  | _ n ih =>
      cases s with
      | nil =>
          rw [Scanner.sepLoop]
          intro b hb
          cases hb
      | cons c s =>
          rw [Scanner.sepLoop]
          split_ifs with hc
          · have hlen := sc.length_le t s
            rw [List.length_cons] at hn
            intro b hb
            obtain ⟨hne, hstop⟩ := ih _ (by omega) (sc.run t s).2 rfl b hb
            exact ⟨hne, Or.inl (hstop.elim id fun hhead => h.stops t ht s b hhead)⟩
          · intro b hb
            cases hb
            exact ⟨hc, Or.inr rfl⟩

/-- **The four loops over a path are one.** -/
theorem Scanner.Lawful.scanPath_eq {sc : Scanner} (h : sc.Lawful) (path : Bytes) :
    sc.scanPath path = sc.run uchRes path := by
  have hroot : sc.run uchRes path =
      ((if path.head? = some 47 then [47] else []) ++
        (sc.run uchRes (path.drop (if path.head? = some 47 then [47] else [] : Bytes).length)).1,
        (sc.run uchRes (path.drop (if path.head? = some 47 then [47] else [] : Bytes).length)).2) := by
    split_ifs with hhead
    · obtain ⟨s, rfl⟩ := List.head?_eq_some_iff.mp hhead
      rw [h.separator 47 (Or.inl rfl)]
      rfl
    · rfl
  have hpchar : IsTable pchar := Or.inl rfl
  have hparam : IsTable param := Or.inr (Or.inl rfl)
  have huch : IsTable uchRes := Or.inr (Or.inr rfl)
  unfold Scanner.scanPath
  dsimp only
  rw [hroot]
  generalize path.drop (if path.head? = some 47 then [47] else [] : Bytes).length = s
  generalize (if path.head? = some 47 then [47] else [] : Bytes) = root
  have h₁ := h.continued pchar hpchar s
  have h₂ := h.sepLoop_continued (Or.inl rfl) hpchar (sc.run pchar s).2
  have h₃ := h.sepLoop_continued (Or.inr (Or.inl rfl)) hparam
    (sc.sepLoop 47 pchar (sc.run pchar s).2).2
  have h₄ := h.sepLoop_continued (Or.inr (Or.inr rfl)) huch
    (sc.sepLoop 59 param (sc.sepLoop 47 pchar (sc.run pchar s).2).2).2
  have hstop : ∀ b ∈ (sc.sepLoop 63 uchRes
      (sc.sepLoop 59 param (sc.sepLoop 47 pchar (sc.run pchar s).2).2).2).2.head?,
      uchRes b = false := by
    intro b hb
    obtain ⟨hquery, hb⟩ := h.sepLoop_stops 63 huch _ b hb
    rcases hb with hb | hb
    · exact hb
    obtain ⟨hparams, hb⟩ := h.sepLoop_stops 59 hparam _ b hb
    rcases hb with hb | hb
    · rw [param_eq] at hb
      simpa [hquery, hparams] using hb
    obtain ⟨hsegments, hb⟩ := h.sepLoop_stops 47 hpchar _ b hb
    have hb := hb.elim id fun hb => h.stops pchar hpchar s b hb
    rw [pchar_eq] at hb
    simpa [hquery, hparams, hsegments] using hb
  rw [h₁, h₂, h₃, h₄, h.stopped _ hstop]
  simp only [List.append_assoc, List.append_nil]

/-! ## The step of `ul_single_path_nointer` -/

/-- The inner loop of `ul_single_path_nointer`: what it writes, and what is left. Source:
`ul_url.cpp` `ul_single_path_nointer`, `ul_single_path_ex_nointer`, `ul_single_path_ex2_nointer`. -/
def cleanRun (table : UInt8 → Bool) : Bytes → Bytes × Bytes
  | [] => ([], [])
  | b :: s =>
      if table b = false then ([], b :: s)
      else if b = 37 then
        match s with
        | h₁ :: h₂ :: s' =>
            let escapeChar := ulToChar h₁ h₂
            if escapeChar = 0 then
              let r := cleanRun table (h₁ :: h₂ :: s')
              (37 :: r.1, r.2)
            else if table escapeChar && !reserved escapeChar then
              let r := cleanRun table s'
              (escapeChar :: r.1, r.2)
            else
              let r := cleanRun table s'
              (37 :: h₁ :: h₂ :: r.1, r.2)
        | s =>
            let r := cleanRun table s
            (37 :: r.1, r.2)
      else
        let r := cleanRun table s
        (b :: r.1, r.2)

/-- One round of the loop. -/
theorem cleanRun_cons (table : UInt8 → Bool) (b : UInt8) (s : Bytes) : cleanRun table (b :: s) =
    if table b = false then ([], b :: s)
    else if b = 37 then
      match s with
      | h₁ :: h₂ :: s' =>
          let escapeChar := ulToChar h₁ h₂
          if escapeChar = 0 then (37 :: (cleanRun table (h₁ :: h₂ :: s')).1, (cleanRun table (h₁ :: h₂ :: s')).2)
          else if table escapeChar && !reserved escapeChar then
            (escapeChar :: (cleanRun table s').1, (cleanRun table s').2)
          else (37 :: h₁ :: h₂ :: (cleanRun table s').1, (cleanRun table s').2)
      | s => (37 :: (cleanRun table s).1, (cleanRun table s).2)
    else (b :: (cleanRun table s).1, (cleanRun table s).2) := by
  rcases s with _ | ⟨h₁, _ | ⟨h₂, s⟩⟩ <;> rfl

/-- What a `%` with two characters behind it does. -/
theorem cleanRun_stray {t : UInt8 → Bool} (ht : IsTable t) {h₁ h₂ : UInt8}
    (h : ulToChar h₁ h₂ = 0) (s : Bytes) : cleanRun t (37 :: h₁ :: h₂ :: s) =
      (37 :: (cleanRun t (h₁ :: h₂ :: s)).1, (cleanRun t (h₁ :: h₂ :: s)).2) := by
  have h37 : t 37 = true := by rcases ht with rfl | rfl | rfl <;> rfl
  rw [cleanRun_cons, if_neg (by simp [h37])]
  simp [h]

/-- What an escape is written as: the character, or the escape itself. -/
def escapeText (h₁ h₂ : UInt8) : Bytes :=
  let c := ulToChar h₁ h₂
  if uchRes c && !reserved c then [c] else [37, h₁, h₂]

/-- What an escape does; all tables of a path treat it alike. -/
theorem cleanRun_escape {t : UInt8 → Bool} (ht : IsTable t) {h₁ h₂ : UInt8}
    (h : ulToChar h₁ h₂ ≠ 0) (s : Bytes) : cleanRun t (37 :: h₁ :: h₂ :: s) =
      (escapeText h₁ h₂ ++ (cleanRun t s).1, (cleanRun t s).2) := by
  have h37 : t 37 = true := by rcases ht with rfl | rfl | rfl <;> rfl
  rw [cleanRun_cons, if_neg (by simp [h37]), escapeText]
  dsimp only
  rw [if_pos rfl, if_neg h, keep_eq ht]
  split_ifs <;> rfl

/-- A `%` near the end. -/
theorem cleanRun_short {t : UInt8 → Bool} (ht : IsTable t) {s : Bytes} (h : s.length < 2) :
    cleanRun t (37 :: s) = (37 :: (cleanRun t s).1, (cleanRun t s).2) := by
  have h37 : t 37 = true := by rcases ht with rfl | rfl | rfl <;> rfl
  match s, h with
  | [], _ => rw [cleanRun_cons, if_neg (by simp [h37]), if_pos rfl]
  | [_], _ => rw [cleanRun_cons, if_neg (by simp [h37]), if_pos rfl]

/-- Another character of the table is copied. -/
theorem cleanRun_char {t : UInt8 → Bool} {b : UInt8} (hb : b ≠ 37) (h : t b = true) (s : Bytes) :
    cleanRun t (b :: s) = (b :: (cleanRun t s).1, (cleanRun t s).2) := by
  rw [cleanRun_cons, if_neg (by simp [h]), if_neg hb]

/-- What is not in the table ends the loop. -/
theorem cleanRun_stop {t : UInt8 → Bool} {b : UInt8} (h : t b = false) (s : Bytes) :
    cleanRun t (b :: s) = ([], b :: s) := by
  rw [cleanRun_cons, if_pos h]

/-- Induction over a path as the loops take it apart: escapes whole, the rest byte by byte. -/
theorem chunk_induction {P : Bytes → Prop} (nil : P [])
    (stray : ∀ h₁ h₂ s, ulToChar h₁ h₂ = 0 → P (h₁ :: h₂ :: s) → P (37 :: h₁ :: h₂ :: s))
    (escape : ∀ h₁ h₂ s, ulToChar h₁ h₂ ≠ 0 → P s → P (37 :: h₁ :: h₂ :: s))
    (short : ∀ s : Bytes, s.length < 2 → P s → P (37 :: s))
    (char : ∀ b s, b ≠ 37 → P s → P (b :: s)) (s : Bytes) : P s := by
  induction hn : s.length using Nat.strongRecOn generalizing s with
  | _ n ih =>
      cases s with
      | nil => exact nil
      | cons b s =>
          rw [List.length_cons] at hn
          have hs : P s := ih s.length (by omega) s rfl
          by_cases hb : b = 37
          · subst hb
            match s, hs, hn with
            | [], hs, _ => exact short [] (by simp) hs
            | [h₁], hs, _ => exact short [h₁] (by simp) hs
            | h₁ :: h₂ :: s, hs, hn =>
                by_cases hc : ulToChar h₁ h₂ = 0
                · exact stray h₁ h₂ s hc hs
                · refine escape h₁ h₂ s hc (ih s.length ?_ s rfl)
                  simp only [List.length_cons] at hn
                  omega
          · exact char b s hb hs

/-- What is in a table of a path may stand anywhere in it. -/
theorem IsTable.sub {t : UInt8 → Bool} (ht : IsTable t) {b : UInt8} (h : t b = true) :
    uchRes b = true := by
  rcases ht with rfl | rfl | rfl
  · rw [pchar_eq, Bool.and_eq_true] at h
    exact h.1
  · rw [param_eq, Bool.and_eq_true] at h
    exact h.1
  · exact h

/-- The loop can be continued with the widest table. -/
theorem cleanRun_continued {t : UInt8 → Bool} (ht : IsTable t) (s : Bytes) :
    cleanRun uchRes s = ((cleanRun t s).1 ++ (cleanRun uchRes (cleanRun t s).2).1,
      (cleanRun uchRes (cleanRun t s).2).2) := by
  have huch : IsTable uchRes := Or.inr (Or.inr rfl)
  induction s using chunk_induction with
  | nil => rfl
  | stray h₁ h₂ s h ih => rw [cleanRun_stray huch h, cleanRun_stray ht h, ih, List.cons_append]
  | escape h₁ h₂ s h ih =>
      rw [cleanRun_escape huch h, cleanRun_escape ht h, ih, List.append_assoc]
  | short s h ih => rw [cleanRun_short huch h, cleanRun_short ht h, ih, List.cons_append]
  | char b s hb ih =>
      cases h : t b with
      | false =>
          rw [cleanRun_stop h]
          rfl
      | true => rw [cleanRun_char hb (ht.sub h), cleanRun_char hb h, ih, List.cons_append]

/-- Where the loop stops. -/
theorem cleanRun_rest {t : UInt8 → Bool} (ht : IsTable t) (s : Bytes) :
    ∀ b ∈ (cleanRun t s).2.head?, t b = false := by
  induction s using chunk_induction with
  | nil =>
      intro b hb
      cases hb
  | stray h₁ h₂ s h ih => rwa [cleanRun_stray ht h]
  | escape h₁ h₂ s h ih => rwa [cleanRun_escape ht h]
  | short s h ih => rwa [cleanRun_short ht h]
  | char b s hb ih =>
      cases h : t b with
      | false =>
          rw [cleanRun_stop h]
          intro c hc
          cases hc
          exact h
      | true => rwa [cleanRun_char hb h]

/-- The loop reads forward. -/
theorem length_cleanRun_le (t : UInt8 → Bool) (s : Bytes) :
    (cleanRun t s).2.length ≤ s.length := by
  fun_induction cleanRun t s with
  | case1 => exact Nat.le_refl _
  | case2 => exact Nat.le_refl _
  | case3 h₁ h₂ s c hc r h ih => exact ih.trans (Nat.le_succ _)
  | case4 h₁ h₂ s c hc hkeep r h ih =>
      simp only [List.length_cons]
      exact ih.trans (by omega)
  | case5 h₁ h₂ s c hc hkeep r h ih =>
      simp only [List.length_cons]
      exact ih.trans (by omega)
  | case6 s hs r h ih => exact ih.trans (Nat.le_succ _)
  | case7 b s h hb r ih => exact ih.trans (Nat.le_succ _)

/-- The scanner of `ul_single_path_nointer`. -/
def cleanScanner : Scanner := ⟨cleanRun, length_cleanRun_le⟩

/-- It is lawful. -/
theorem cleanScanner_lawful : cleanScanner.Lawful where
  continued _ ht s := cleanRun_continued ht s
  separator b hb s := by
    have hne : b ≠ 37 := by
      rintro rfl
      revert hb
      decide
    exact cleanRun_char hne (uchRes_separator hb) s
  stops _ ht s := cleanRun_rest ht s
  stopped s hs := by
    cases s with
    | nil => rfl
    | cons b s => exact cleanRun_stop (hs b rfl) s

/-! ## The step of the checks -/

/-- The scanner of `ul_isnormalized_url` and of `ul_check_url` and its copies: it copies. -/
def copyScanner : Scanner where
  run table s := (s.takeWhile table, s.dropWhile table)
  length_le table s := List.length_dropWhile_le table s

/-- It is lawful. -/
theorem copyScanner_lawful : copyScanner.Lawful where
  continued t ht s := by
    have hsub : ∀ b ∈ s.takeWhile t, uchRes b = true := by
      intro b hb
      exact ht.sub (List.mem_takeWhile_imp hb)
    have hsplit := List.takeWhile_append_dropWhile (p := t) (l := s)
    refine Prod.ext ?_ ?_
    · calc s.takeWhile uchRes = (s.takeWhile t ++ s.dropWhile t).takeWhile uchRes := by rw [hsplit]
        _ = _ := List.takeWhile_append_of_pos hsub
    · calc s.dropWhile uchRes = (s.takeWhile t ++ s.dropWhile t).dropWhile uchRes := by rw [hsplit]
        _ = _ := List.dropWhile_append_of_pos hsub
  separator b hb s := by
    have hb := uchRes_separator hb
    exact Prod.ext (List.takeWhile_cons_of_pos hb) (List.dropWhile_cons_of_pos hb)
  stops t _ s b hb := by
    have h := List.head?_dropWhile_not t s
    have hhead : (s.dropWhile t).head? = some b := hb
    rwa [hhead] at h
  stopped s hs := by
    cases s with
    | nil => rfl
    | cons b s =>
        have hb := Bool.eq_false_iff.mp (hs b rfl)
        exact Prod.ext (List.takeWhile_cons_of_neg hb) (List.dropWhile_cons_of_neg hb)

/-- The loops of a check copy the characters up to the first control character or `#`. -/
theorem scanPath_copy (path : Bytes) :
    copyScanner.scanPath path = (path.takeWhile uchRes, path.dropWhile uchRes) :=
  copyScanner_lawful.scanPath_eq path

/-! ## Tokens -/

/-- A token of a path: a byte, a `%` that begins no escape, an escape that is kept, or a blank. -/
inductive Token
  | plain (b : UInt8)
  | stray
  | kept (h₁ h₂ : UInt8)
  | blank
  deriving DecidableEq

/-- How a token is written. -/
def Token.text : Token → Bytes
  | .plain b => [b]
  | .stray => [37]
  | .kept h₁ h₂ => [37, h₁, h₂]
  | .blank => [37, 50, 48]

/-- What a character is on its own. -/
def ofChar (c : UInt8) : Token := if c = 32 then .blank else .plain c

/-- What an escape is. -/
def ofEscape (h₁ h₂ : UInt8) : Token :=
  let c := ulToChar h₁ h₂
  if uchRes c && !reserved c then ofChar c else .kept h₁ h₂

/-- The tokens of a path, up to a control character or `#`. -/
def tokens : Bytes → List Token
  | [] => []
  | b :: s =>
      if uchRes b = false then []
      else if b = 37 then
        match s with
        | h₁ :: h₂ :: s' =>
            if ulToChar h₁ h₂ = 0 then .stray :: tokens (h₁ :: h₂ :: s')
            else ofEscape h₁ h₂ :: tokens s'
        | s => .stray :: tokens s
      else ofChar b :: tokens s

/-- The first token. -/
theorem tokens_cons (b : UInt8) (s : Bytes) : tokens (b :: s) =
    if uchRes b = false then []
    else if b = 37 then
      match s with
      | h₁ :: h₂ :: s' =>
          if ulToChar h₁ h₂ = 0 then .stray :: tokens (h₁ :: h₂ :: s') else ofEscape h₁ h₂ :: tokens s'
      | s => .stray :: tokens s
    else ofChar b :: tokens s := by
  rcases s with _ | ⟨h₁, _ | ⟨h₂, s⟩⟩ <;> rfl

/-- A `%` that begins no escape. -/
theorem tokens_stray {h₁ h₂ : UInt8} (h : ulToChar h₁ h₂ = 0) (s : Bytes) :
    tokens (37 :: h₁ :: h₂ :: s) = .stray :: tokens (h₁ :: h₂ :: s) := by
  rw [tokens_cons, if_neg (by decide), if_pos rfl]
  exact if_pos h

/-- An escape. -/
theorem tokens_escape {h₁ h₂ : UInt8} (h : ulToChar h₁ h₂ ≠ 0) (s : Bytes) :
    tokens (37 :: h₁ :: h₂ :: s) = ofEscape h₁ h₂ :: tokens s := by
  rw [tokens_cons, if_neg (by decide), if_pos rfl]
  exact if_neg h

/-- A `%` near the end. -/
theorem tokens_short {s : Bytes} (h : s.length < 2) :
    tokens (37 :: s) = .stray :: tokens s := by
  match s, h with
  | [], _ => rw [tokens_cons, if_neg (by decide), if_pos rfl]
  | [_], _ => rw [tokens_cons, if_neg (by decide), if_pos rfl]

/-- Another character. -/
theorem tokens_char {b : UInt8} (hb : b ≠ 37) (h : uchRes b = true) (s : Bytes) :
    tokens (b :: s) = ofChar b :: tokens s := by
  rw [tokens_cons, if_neg (by simp [h]), if_neg hb]

/-- What ends the path. -/
theorem tokens_stop {b : UInt8} (h : uchRes b = false) (s : Bytes) : tokens (b :: s) = [] := by
  rw [tokens_cons, if_pos h]

/-- Blanks are escaped in each of two texts. -/
theorem escapeBlanks_append (s t : Bytes) :
    escapeBlanks (s ++ t) = escapeBlanks s ++ escapeBlanks t := by
  simp only [escapeBlanks, List.flatMap_append]

/-- A text without blanks stays as it is. -/
theorem escapeBlanks_of_not_mem {s : Bytes} (h : 32 ∉ s) : escapeBlanks s = s := by
  rw [escapeBlanks, List.flatMap_congr fun b hb => if_neg (ne_of_mem_of_not_mem hb h)]
  exact List.flatMap_singleton' s

/-- A character on its own is written as the token it is. -/
theorem escapeBlanks_cons (b : UInt8) (s : Bytes) :
    escapeBlanks (b :: s) = (ofChar b).text ++ escapeBlanks s := by
  rw [escapeBlanks, List.flatMap_cons, ofChar]
  split_ifs <;> rfl

/-- An escape is written as the token it is. -/
theorem escapeBlanks_escapeText {h₁ h₂ : UInt8} (h : ulToChar h₁ h₂ ≠ 0) :
    escapeBlanks (escapeText h₁ h₂) = (ofEscape h₁ h₂).text := by
  have hdigits := letDigit_of_ulToChar h
  have hblank : ∀ b, letDigit b = true → b ≠ 32 := by
    rintro _ hb rfl
    exact absurd hb (by decide)
  rw [escapeText, ofEscape]
  split_ifs with hkeep
  · rw [escapeBlanks_cons, escapeBlanks, List.flatMap_nil, List.append_nil]
  · simp [escapeBlanks, Token.text, hblank h₁ hdigits.1, hblank h₂ hdigits.2]

/-- **The clean path is the text of its tokens**, and the loop stops at the first control character
or `#`. -/
theorem cleanRun_tokens (s : Bytes) :
    escapeBlanks (cleanRun uchRes s).1 = (tokens s).flatMap Token.text ∧
      (cleanRun uchRes s).2 = s.dropWhile uchRes := by
  have huch : IsTable uchRes := Or.inr (Or.inr rfl)
  induction s using chunk_induction with
  | nil => exact ⟨rfl, rfl⟩
  | stray h₁ h₂ s h ih =>
      rw [cleanRun_stray huch h, tokens_stray h]
      refine ⟨?_, ih.2⟩
      rw [escapeBlanks_cons, ih.1]
      rfl
  | escape h₁ h₂ s h ih =>
      have hdigits := letDigit_of_ulToChar h
      rw [cleanRun_escape huch h, tokens_escape h]
      constructor
      · rw [escapeBlanks_append, escapeBlanks_escapeText h, ih.1, List.flatMap_cons]
      · rw [List.dropWhile_cons_of_pos rfl, List.dropWhile_cons_of_pos (uchRes_letDigit hdigits.1),
          List.dropWhile_cons_of_pos (uchRes_letDigit hdigits.2), ih.2]
  | short s h ih =>
      rw [cleanRun_short huch h, tokens_short h]
      refine ⟨?_, ih.2⟩
      rw [escapeBlanks_cons, ih.1]
      rfl
  | char b s hb ih =>
      cases h : uchRes b with
      | false =>
          rw [cleanRun_stop h, tokens_stop h, List.dropWhile_cons_of_neg (by simp [h])]
          exact ⟨rfl, rfl⟩
      | true =>
          rw [cleanRun_char hb h, tokens_char hb h, List.dropWhile_cons_of_pos h]
          refine ⟨?_, ih.2⟩
          rw [escapeBlanks_cons, ih.1, List.flatMap_cons]

/-! ## The paths -/

/-- The path with its escapes taken out where that is safe, if it is a path of at most `len`
bytes, and with its blanks escaped, if it stays below `maxPathLen` bytes. -/
def singlePath (len maxPathLen : ℕ) (path : Bytes) : Option Bytes :=
  let r := cleanScanner.scanPath path
  if r.2.head?.any (· != 35) then none
  else if len < r.1.length then none
  else if 32 ∈ r.1 then ulSpaceEscapePath r.1 maxPathLen
  else some r.1

/-- Source: `ul_url.cpp` `ul_single_path_nointer`. -/
def ulSinglePathNointer (path : Bytes) : Option Bytes := singlePath 256 limits.path path

/-- Source: `ul_url.cpp` `ul_single_path_ex_nointer`. -/
def ulSinglePathExNointer (path : Bytes) (len : ℕ) : Option Bytes :=
  singlePath len limitsEx.path path

/-- Source: `ul_url.cpp` `ul_single_path_ex2_nointer`. -/
def ulSinglePathEx2Nointer (path : Bytes) (len : ℕ) : Option Bytes :=
  singlePath len limitsEx2.path path

/-- A path has characters only, up to its end or a `#`. -/
def IsPath (path : Bytes) : Prop := ∀ b ∈ (path.dropWhile uchRes).head?, b = 35

/-- What is tested of the character behind a path. -/
theorem isPath_iff {path : Bytes} :
    (path.dropWhile uchRes).head?.any (· != 35) = false ↔ IsPath path := by
  unfold IsPath
  cases (path.dropWhile uchRes).head? with
  | none => simp
  | some b => simp

instance (path : Bytes) : Decidable (IsPath path) := decidable_of_iff _ isPath_iff

/-- The text of the tokens of a path. -/
def cleanText (path : Bytes) : Bytes := (tokens path).flatMap Token.text

/-- What the tokens of a path have: a byte on its own is no `%` and no blank, and an escape that is
kept has a character that must not be written. -/
def Token.Valid : Token → Prop
  | .plain b => uchRes b = true ∧ b ≠ 37 ∧ b ≠ 32
  | .stray => True
  | .kept h₁ h₂ => ulToChar h₁ h₂ ≠ 0 ∧
      (uchRes (ulToChar h₁ h₂) && !reserved (ulToChar h₁ h₂)) = false
  | .blank => True

/-- A character on its own is a valid token. -/
theorem valid_ofChar {c : UInt8} (h : uchRes c = true) (hne : c ≠ 37) : (ofChar c).Valid := by
  unfold ofChar
  split_ifs with hblank
  · trivial
  · exact ⟨h, hne, hblank⟩

/-- An escape is a valid token. -/
theorem valid_ofEscape {h₁ h₂ : UInt8} (h : ulToChar h₁ h₂ ≠ 0) : (ofEscape h₁ h₂).Valid := by
  unfold ofEscape
  dsimp only
  split_ifs with hkeep
  · rw [Bool.and_eq_true] at hkeep
    apply valid_ofChar hkeep.1
    intro hpercent
    rw [hpercent] at hkeep
    exact absurd hkeep.2 (by decide)
  · exact ⟨h, Bool.not_eq_true _ ▸ hkeep⟩

/-- The tokens of a path are valid. -/
theorem valid_of_mem_tokens (s : Bytes) : ∀ t ∈ tokens s, t.Valid := by
  induction s using chunk_induction with
  | nil => exact List.forall_mem_nil _
  | stray h₁ h₂ s h ih =>
      rw [tokens_stray h, List.forall_mem_cons]
      exact ⟨trivial, ih⟩
  | escape h₁ h₂ s h ih =>
      rw [tokens_escape h, List.forall_mem_cons]
      exact ⟨valid_ofEscape h, ih⟩
  | short s h ih =>
      rw [tokens_short h, List.forall_mem_cons]
      exact ⟨trivial, ih⟩
  | char b s hb ih =>
      cases h : uchRes b with
      | false => simp [tokens_stop h]
      | true =>
          rw [tokens_char hb h, List.forall_mem_cons]
          exact ⟨valid_ofChar h hb, ih⟩

/-- What a valid token is written with: its byte, or letters and digits behind a `%`. -/
theorem Token.Valid.mem_text {t : Token} (h : t.Valid) {b : UInt8} (hb : b ∈ t.text) :
    (t = .plain b ∧ uchRes b = true) ∨ b = 37 ∨ letDigit b = true := by
  cases t with
  | plain c =>
      rw [Token.text, List.mem_singleton] at hb
      exact Or.inl ⟨by rw [hb], hb ▸ h.1⟩
  | stray =>
      rw [Token.text, List.mem_singleton] at hb
      exact Or.inr (Or.inl hb)
  | kept h₁ h₂ =>
      have hdigits := letDigit_of_ulToChar h.1
      simp only [Token.text, List.mem_cons, List.not_mem_nil, or_false] at hb
      rcases hb with rfl | rfl | rfl
      · exact Or.inr (Or.inl rfl)
      · exact Or.inr (Or.inr hdigits.1)
      · exact Or.inr (Or.inr hdigits.2)
  | blank =>
      simp only [Token.text, List.mem_cons, List.not_mem_nil, or_false] at hb
      rcases hb with rfl | rfl | rfl
      · exact Or.inr (Or.inl rfl)
      · exact Or.inr (Or.inr rfl)
      · exact Or.inr (Or.inr rfl)

/-- What is written of a path may stand in a path. -/
theorem uchRes_of_mem_cleanText {path : Bytes} {b : UInt8} (h : b ∈ cleanText path) :
    uchRes b = true := by
  obtain ⟨t, ht, hb⟩ := List.mem_flatMap.mp h
  rcases (valid_of_mem_tokens path t ht).mem_text hb with ⟨-, hb⟩ | rfl | hb
  · exact hb
  · rfl
  · exact uchRes_letDigit hb

/-- Cleaning never makes a path longer, blanks aside. -/
theorem length_cleanRun_fst_le (s : Bytes) : (cleanRun uchRes s).1.length ≤ s.length := by
  have huch : IsTable uchRes := Or.inr (Or.inr rfl)
  induction s using chunk_induction with
  | nil => exact Nat.le_refl _
  | stray h₁ h₂ s h ih =>
      rw [cleanRun_stray huch h]
      exact Nat.succ_le_succ ih
  | escape h₁ h₂ s h ih =>
      have htext : (escapeText h₁ h₂).length ≤ 3 := by
        unfold escapeText
        dsimp only
        split_ifs
        · exact Nat.le_add_left 1 2
        · exact Nat.le_refl 3
      rw [cleanRun_escape huch h, List.length_append]
      simp only [List.length_cons]
      omega
  | short s h ih =>
      rw [cleanRun_short huch h]
      exact Nat.succ_le_succ ih
  | char b s hb ih =>
      cases h : uchRes b with
      | false =>
          rw [cleanRun_stop h]
          exact Nat.zero_le _
      | true =>
          rw [cleanRun_char hb h]
          exact Nat.succ_le_succ ih

/-- **When a path is accepted, and what it becomes**: it ends at its end or a `#`, and the text of
its tokens stays below the limit. -/
theorem singlePath_eq {len maxPathLen : ℕ} {path : Bytes} (hpath : path.length < maxPathLen)
    (hlen : maxPathLen ≤ len + 1) : singlePath len maxPathLen path =
      if IsPath path ∧ (cleanText path).length < maxPathLen then some (cleanText path) else none := by
  obtain ⟨htext, hrest⟩ := cleanRun_tokens path
  have hle := length_cleanRun_fst_le path
  have hrun : cleanScanner.scanPath path = ((cleanRun uchRes path).1, path.dropWhile uchRes) :=
    (cleanScanner_lawful.scanPath_eq path).trans (Prod.ext rfl hrest)
  have haccept : (path.dropWhile uchRes).head?.any (· != 35) = true ↔ ¬ IsPath path := by
    rw [← isPath_iff, Bool.not_eq_false]
  rw [singlePath, hrun]
  dsimp only
  by_cases hp : IsPath path
  · rw [if_neg (fun h => haccept.1 h hp), if_neg (by omega)]
    simp only [hp, true_and, cleanText, ← htext]
    by_cases hblank : 32 ∈ (cleanRun uchRes path).1
    · rw [if_pos hblank, ulSpaceEscapePath, escapeLoop_eq, List.nil_append]
    · rw [if_neg hblank, escapeBlanks_of_not_mem hblank, if_pos (by omega)]
  · rw [if_pos (haccept.2 hp), if_neg (fun h => hp h.1)]

end Asenal.Url
