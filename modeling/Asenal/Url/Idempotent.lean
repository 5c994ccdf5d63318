import Asenal.Url.Normalize

/-!
# Normalising twice

Normalising a URL that is normal already changes its path at most, and only where a `%` that begins
no escape has come to stand in front of two hexadecimal digits: then the second run takes it for an
escape. `Folds` says that this happens among tokens.

* `clean_tokens` — what a path becomes, token by token.
* `cleanText_flatMap`, `cleanText_normalizePath` — the second run keeps the text of tokens iff nothing
  folds in them.
* `ulNormalizeUrl_ulNormalizeUrl_iff` — which URLs are normalised once and for all.
-/

namespace Asenal.Url

open Asenal.Lib.Text Asenal.Lib.CString Asenal.Lib.Segments

/-! ## Paths of tokens -/

/-- Tokens of a path, as the library has them. -/
theorem rendering : Rendering Token.text (.plain 47) (.plain 46) 47 46 where
  text_slash := rfl
  text_dot := rfl
  ne_nil t := by cases t <;> exact List.cons_ne_nil _ _
  head t h := by
    cases t with
    | plain b =>
        cases h
        rfl
    | stray => cases h
    | kept h₁ h₂ => cases h
    | blank => cases h

/-- `\` is read as `/`. -/
def slashToken (t : Token) : Token := if t = .plain 92 then .plain 47 else t

/-- A byte that is no letter, no digit and no `%` is in the text of one token only. -/
theorem Token.Valid.eq_plain {t : Token} (h : t.Valid) {b : UInt8} (hb : b ∈ t.text)
    (hne : b ≠ 37) (hletter : letDigit b = false) : t = .plain b := by
  rcases h.mem_text hb with ⟨h, -⟩ | h | h
  · exact h
  · exact absurd h hne
  · rw [hletter] at h
    cases h

/-- Turning `\` into `/` in the text is turning it in the tokens. -/
theorem map_toSlash_text {t : Token} (h : t.Valid) : t.text.map toSlash = (slashToken t).text := by
  unfold slashToken
  split_ifs with ht
  · rw [ht]
    rfl
  · refine (List.map_congr_left fun b hb => ?_).trans (List.map_id _)
    have hb : b ≠ 92 := by
      rintro rfl
      exact ht (h.eq_plain hb (by decide) rfl)
    exact if_neg hb

/-- Turning `\` into `/` keeps tokens valid. -/
theorem valid_slashToken {t : Token} (h : t.Valid) : (slashToken t).Valid := by
  unfold slashToken
  split_ifs
  · exact ⟨rfl, by decide, by decide⟩
  · exact h

/-- The text of the segments ends where the tokens do. -/
theorem ends_flatMap {body suffix : List Token} (hbody : ∀ t ∈ body, t.Valid)
    (hsuffix : ∀ t ∈ suffix, t.Valid) (h : Ends (.plain 63) (.plain 59) body suffix) :
    Ends 63 59 (body.flatMap Token.text) (suffix.flatMap Token.text) := by
  have hfree : ∀ ts : List Token, (∀ t ∈ ts, t.Valid) → ∀ b : UInt8, b ≠ 37 → letDigit b = false →
      .plain b ∉ ts → b ∉ ts.flatMap Token.text := by
    intro ts hts b hne hletter hts' hb
    obtain ⟨t, ht, hb⟩ := List.mem_flatMap.mp hb
    rw [(hts t ht).eq_plain hb hne hletter] at ht
    exact hts' ht
  refine ⟨hfree body hbody 63 (by decide) rfl h.body_query, ?_⟩
  rcases h.rest with hhead | ⟨hquery, hparam, hhead⟩
  · left
    cases suffix with
    | nil => cases hhead
    | cons t suffix =>
        cases hhead
        rfl
  · refine Or.inr ⟨hfree suffix hsuffix 63 (by decide) rfl hquery,
      hfree body hbody 59 (by decide) rfl hparam, ?_⟩
    cases suffix with
    | nil => simp
    | cons t suffix =>
        rw [hhead t rfl]
        rintro b hb
        cases hb
        rfl

/-- **What a path becomes, token by token.** -/
theorem clean_tokens {body suffix : List Token} (hbody : ∀ t ∈ body, t.Valid)
    (hsuffix : ∀ t ∈ suffix, t.Valid) (h : Ends (.plain 63) (.plain 59) (.plain 47 :: body) suffix) :
    normalizePath ((.plain 47 :: body ++ suffix).flatMap Token.text) =
      (pathText (.plain 47) (cleanSegs (.plain 46) ((body.map slashToken).splitOn (.plain 47))) ++
        suffix).flatMap Token.text := by
  have hroot : ∀ t ∈ Token.plain 47 :: body, t.Valid := by
    rw [List.forall_mem_cons]
    exact ⟨⟨rfl, by decide, by decide⟩, hbody⟩
  have hends : Ends 63 59 (47 :: body.flatMap Token.text) (suffix.flatMap Token.text) :=
    ends_flatMap hroot hsuffix h
  have hslash : (body.flatMap Token.text).map toSlash =
      (body.map slashToken).flatMap Token.text := by
    rw [List.map_flatMap, List.flatMap_map]
    exact List.flatMap_congr fun t ht => map_toSlash_text (hbody t ht)
  have hsplit : ((body.map slashToken).flatMap Token.text).splitOn 47 =
      ((body.map slashToken).splitOn (.plain 47)).map (·.flatMap Token.text) := by
    apply splitOn_flatMap rendering
    intro t ht hmem
    obtain ⟨u, hu, rfl⟩ := List.mem_map.mp ht
    exact (valid_slashToken (hbody u hu)).eq_plain hmem (by decide) rfl
  have htext : (.plain 47 :: body ++ suffix).flatMap Token.text =
      47 :: body.flatMap Token.text ++ suffix.flatMap Token.text := by
    rw [List.flatMap_append, List.flatMap_cons]
    rfl
  rw [htext, normalizePath_append hends, hslash, hsplit, cleanSegs_map rendering,
    ← pathText_flatMap rendering, List.flatMap_append]

/-! ## What the second run takes for an escape -/

/-- Two bytes that are taken for an escape when they stand behind a `%`, and whose character is then
written in the place of it. -/
def foldable (h₁ h₂ : UInt8) : Bool :=
  let c := ulToChar h₁ h₂
  uchRes c && !reserved c && c != 32

/-- Somewhere among the tokens a `%` that begins no escape stands in front of two such bytes. -/
def Folds (ts : List Token) : Prop :=
  ∃ h₁ h₂, foldable h₁ h₂ = true ∧ [.stray, .plain h₁, .plain h₂] <:+: ts

/-- Another token in front changes nothing. -/
theorem folds_cons_iff {t : Token} {ts : List Token}
    (h : ∀ h₁ h₂ r, foldable h₁ h₂ = true → t :: ts ≠ .stray :: .plain h₁ :: .plain h₂ :: r) :
    Folds (t :: ts) ↔ Folds ts := by
  constructor
  · rintro ⟨h₁, h₂, hfold, hin⟩
    rw [List.infix_cons_iff] at hin
    rcases hin with ⟨r, hr⟩ | hin
    · exact absurd hr.symm (h h₁ h₂ r hfold)
    · exact ⟨h₁, h₂, hfold, hin⟩
  · rintro ⟨h₁, h₂, hfold, hin⟩
    exact ⟨h₁, h₂, hfold, List.infix_cons hin⟩

/-- A `%` in front of two such bytes. -/
theorem folds_stray_iff {h₁ h₂ : UInt8} {ts : List Token} :
    Folds (.stray :: .plain h₁ :: .plain h₂ :: ts) ↔ foldable h₁ h₂ = true ∨ Folds ts := by
  by_cases hfold : foldable h₁ h₂ = true
  · refine iff_of_true ⟨h₁, h₂, hfold, List.IsPrefix.isInfix ?_⟩ (Or.inl hfold)
    exact ⟨ts, rfl⟩
  · rw [folds_cons_iff, folds_cons_iff, folds_cons_iff]
    · simp [hfold]
    · simp
    · simp
    · rintro a b r hab heq
      simp only [List.cons.injEq, Token.plain.injEq, true_and] at heq
      obtain ⟨rfl, rfl, -⟩ := heq
      exact hfold hab

/-- Only `%20` stands for a blank. -/
theorem ulToChar_eq_blank {h₁ h₂ : UInt8} (h : ulToChar h₁ h₂ = 32) : h₁ = 50 ∧ h₂ = 48 := by
  have hval : ∀ b : UInt8, hexVal b < 16 ∧ (hexVal b = 2 → b = 50) := by
    apply forall_byte
    decide +kernel
  unfold ulToChar at h
  split_ifs at h with hbad
  · exact absurd h (by decide)
  · have hnum := congrArg UInt8.toNat h
    have h₁lt := (hval h₁).1
    have h₂lt := (hval h₂).1
    rw [Nat.toUInt8_eq, UInt8.toNat_ofNat', Nat.mod_eq_of_lt (by omega)] at hnum
    have hnum : 16 * hexVal h₁ + hexVal h₂ = 32 := hnum
    rw [not_or] at hbad
    have hzero : hexVal h₂ = 0 := by omega
    exact ⟨(hval h₁).2 (by omega), by_contra fun hne => hbad.2 ⟨hzero, hne⟩⟩

/-- What the second run writes in the place of an escape: the escape, or its character. -/
theorem text_ofEscape {h₁ h₂ : UInt8} (h : ulToChar h₁ h₂ ≠ 0) :
    (foldable h₁ h₂ = false ∧ (ofEscape h₁ h₂).text = [37, h₁, h₂]) ∨
      (foldable h₁ h₂ = true ∧ (ofEscape h₁ h₂).text.length = 1) := by
  unfold foldable ofEscape ofChar
  dsimp only
  by_cases hblank : ulToChar h₁ h₂ = 32
  · obtain ⟨rfl, rfl⟩ := ulToChar_eq_blank hblank
    left
    rw [hblank]
    exact ⟨rfl, rfl⟩
  · by_cases hkeep : (uchRes (ulToChar h₁ h₂) && !reserved (ulToChar h₁ h₂)) = true
    · right
      rw [if_pos hkeep, if_neg hblank, hkeep, Bool.true_and]
      exact ⟨bne_iff_ne.mpr hblank, rfl⟩
    · left
      rw [if_neg hkeep, Bool.eq_false_iff.mpr hkeep, Bool.false_and]
      exact ⟨rfl, rfl⟩

/-- The second run over the text of tokens: it keeps the text, or something folds and the text
becomes shorter. -/
def Rerun (ts : List Token) : Prop :=
  (¬ Folds ts ∧ cleanText (ts.flatMap Token.text) = ts.flatMap Token.text) ∨
    (Folds ts ∧ (cleanText (ts.flatMap Token.text)).length < (ts.flatMap Token.text).length)

/-- A token that is read back as it is. -/
theorem Rerun.cons {t : Token} {ts : List Token} (h : Rerun ts)
    (htext : cleanText ((t :: ts).flatMap Token.text) =
      t.text ++ cleanText (ts.flatMap Token.text)) (hfolds : Folds (t :: ts) ↔ Folds ts) :
    Rerun (t :: ts) := by
  unfold Rerun
  rw [htext, hfolds, List.flatMap_cons]
  rcases h with ⟨hno, heq⟩ | ⟨hyes, hlt⟩
  · exact Or.inl ⟨hno, by rw [heq]⟩
  · refine Or.inr ⟨hyes, ?_⟩
    rw [List.length_append, List.length_append]
    omega

/-- Two bytes of a text that are an escape behind a `%` are two tokens. -/
theorem eq_plain_of_text {ts : List Token} {h₁ h₂ : UInt8} {s : Bytes}
    (h : ts.flatMap Token.text = h₁ :: h₂ :: s) (hc : ulToChar h₁ h₂ ≠ 0) :
    ∃ rest, ts = .plain h₁ :: .plain h₂ :: rest ∧ rest.flatMap Token.text = s := by
  have hletter := letDigit_of_ulToChar hc
  have hhead : ∀ (ts : List Token) (b : UInt8) (s : Bytes), ts.flatMap Token.text = b :: s →
      letDigit b = true → ∃ rest, ts = .plain b :: rest ∧ rest.flatMap Token.text = s := by
    intro ts b s h hb
    have hne : b ≠ 37 := by
      rintro rfl
      exact absurd hb (by decide)
    cases ts with
    | nil => cases h
    | cons t ts =>
        cases t with
        | plain c =>
            rw [List.flatMap_cons, Token.text, List.singleton_append, List.cons.injEq] at h
            obtain ⟨rfl, h⟩ := h
            exact ⟨ts, rfl, h⟩
        | stray => exact absurd (List.cons.inj h).1.symm hne
        | kept => exact absurd (List.cons.inj h).1.symm hne
        | blank => exact absurd (List.cons.inj h).1.symm hne
  obtain ⟨ts', rfl, hts'⟩ := hhead ts h₁ (h₂ :: s) h hletter.1
  obtain ⟨rest, rfl, hrest⟩ := hhead ts' h₂ s hts' hletter.2
  exact ⟨rest, rfl, hrest⟩

/-- A character that is written is not the terminator. -/
theorem ne_zero_of_foldable {h₁ h₂ : UInt8} (h : foldable h₁ h₂ = true) : ulToChar h₁ h₂ ≠ 0 := by
  intro hc
  rw [foldable, hc] at h
  exact absurd h (by decide)

/-- A `%` that is taken for an escape. -/
theorem Rerun.escape {h₁ h₂ : UInt8} {ts : List Token} (h : Rerun ts) (hc : ulToChar h₁ h₂ ≠ 0) :
    Rerun (.stray :: .plain h₁ :: .plain h₂ :: ts) := by
  have htext : (Token.stray :: .plain h₁ :: .plain h₂ :: ts).flatMap Token.text =
      37 :: h₁ :: h₂ :: ts.flatMap Token.text := rfl
  have hclean : cleanText (37 :: h₁ :: h₂ :: ts.flatMap Token.text) =
      (ofEscape h₁ h₂).text ++ cleanText (ts.flatMap Token.text) := by
    rw [cleanText, tokens_escape hc, List.flatMap_cons]
    rfl
  unfold Rerun
  rw [htext, hclean, folds_stray_iff]
  rcases text_ofEscape hc with ⟨hno, hescape⟩ | ⟨hyes, hescape⟩
  · rw [hno, hescape]
    rcases h with ⟨hno, heq⟩ | ⟨hyes, hlt⟩
    · exact Or.inl ⟨by simp [hno], by rw [heq]; rfl⟩
    · refine Or.inr ⟨Or.inr hyes, ?_⟩
      simp only [List.length_append, List.length_cons, List.length_nil]
      omega
  · refine Or.inr ⟨Or.inl hyes, ?_⟩
    have hle : (cleanText (ts.flatMap Token.text)).length ≤ (ts.flatMap Token.text).length := by
      rcases h with ⟨-, heq⟩ | ⟨-, hlt⟩
      · rw [heq]
      · exact hlt.le
    simp only [List.length_append, List.length_cons, hescape]
    omega

/-- A `%` that is not taken for an escape. -/
theorem cleanText_percent {ts : List Token}
    (h : ∀ h₁ h₂ s, ts.flatMap Token.text = h₁ :: h₂ :: s → ulToChar h₁ h₂ = 0) :
    cleanText ((.stray :: ts).flatMap Token.text) =
      Token.stray.text ++ cleanText (ts.flatMap Token.text) := by
  rw [List.flatMap_cons, Token.text, List.singleton_append]
  generalize ts.flatMap Token.text = s at h ⊢
  rcases s with _ | ⟨h₁, _ | ⟨h₂, s⟩⟩
  · rw [cleanText, tokens_short (by simp), List.flatMap_cons]
    rfl
  · rw [cleanText, tokens_short (by simp), List.flatMap_cons]
    rfl
  · rw [cleanText, tokens_stray (h h₁ h₂ s rfl), List.flatMap_cons]
    rfl

/-- **The second run keeps the text of tokens iff nothing folds in them**, and else makes it
shorter. -/
theorem cleanText_flatMap {ts : List Token} (hts : ∀ t ∈ ts, t.Valid) : Rerun ts := by
  induction hn : ts.length using Nat.strongRecOn generalizing ts with
  | _ n ih =>
      cases ts with
      | nil =>
          refine Or.inl ⟨?_, rfl⟩
          rintro ⟨h₁, h₂, -, hin⟩
          simp at hin
      | cons t ts =>
          rw [List.forall_mem_cons] at hts
          rw [List.length_cons] at hn
          have hrest := ih ts.length (by omega) hts.2 rfl
          cases t with
          | plain b =>
              refine hrest.cons ?_ (folds_cons_iff (by simp))
              rw [List.flatMap_cons, cleanText, Token.text, List.singleton_append,
                tokens_char hts.1.2.1 hts.1.1, List.flatMap_cons, ofChar, if_neg hts.1.2.2]
              rfl
          | kept h₁ h₂ =>
              refine hrest.cons ?_ (folds_cons_iff (by simp))
              rw [List.flatMap_cons, cleanText, Token.text]
              simp only [List.cons_append, List.nil_append]
              rw [tokens_escape hts.1.1, List.flatMap_cons, ofEscape,
                if_neg (Bool.eq_false_iff.mp hts.1.2)]
              rfl
          | blank =>
              refine hrest.cons ?_ (folds_cons_iff (by simp))
              rw [List.flatMap_cons, cleanText, Token.text]
              simp only [List.cons_append, List.nil_append]
              rw [tokens_escape (by decide), List.flatMap_cons]
              rfl
          | stray =>
              by_cases hesc : ∃ h₁ h₂ s, ts.flatMap Token.text = h₁ :: h₂ :: s ∧ ulToChar h₁ h₂ ≠ 0
              · obtain ⟨h₁, h₂, s, htext, hc⟩ := hesc
                obtain ⟨rest, rfl, rfl⟩ := eq_plain_of_text htext hc
                simp only [List.length_cons] at hn
                have hrest := ih rest.length (by omega)
                  (fun t ht => hts.2 t (List.mem_cons_of_mem _ (List.mem_cons_of_mem _ ht))) rfl
                exact hrest.escape hc
              · refine hrest.cons (cleanText_percent fun h₁ h₂ s htext => ?_) (folds_cons_iff ?_)
                · by_contra hc
                  exact hesc ⟨h₁, h₂, s, htext, hc⟩
                · intro h₁ h₂ r hfold heq
                  obtain ⟨-, rfl⟩ := List.cons.inj heq
                  exact hesc ⟨h₁, h₂, _, rfl, ne_zero_of_foldable hfold⟩

/-! ## Which URLs are normalised once and for all -/

/-- The segments of the tokens of a path that are names and that no `..` takes away. -/
def keptSegments (ts : List Token) : List (List Token) :=
  ((((ts.take (endOf (.plain 63) (.plain 59) ts)).drop 1).map slashToken).splitOn (.plain 47)).foldl
    (push (.plain 46)) []

/-- Nothing folds in the segments of a path that are kept, and in its parameters and its query. -/
def Settled (ts : List Token) : Prop :=
  (∀ s ∈ keptSegments ts, ¬ Folds s) ∧ ¬ Folds (ts.drop (endOf (.plain 63) (.plain 59) ts))

/-- A byte that is no letter and no digit is not among the tokens that fold. -/
theorem not_mem_of_foldable {h₁ h₂ b : UInt8} (hfold : foldable h₁ h₂ = true)
    (hb : letDigit b = false) : Token.plain b ∉ [Token.stray, .plain h₁, .plain h₂] := by
  have hletter := letDigit_of_ulToChar (ne_zero_of_foldable hfold)
  intro hmem
  simp only [List.mem_cons, reduceCtorEq, Token.plain.injEq, List.not_mem_nil, or_false,
    false_or] at hmem
  rcases hmem with rfl | rfl
  · exact absurd hletter.1 (by rw [hb]; decide)
  · exact absurd hletter.2 (by rw [hb]; decide)

/-- Something folds in a path iff it folds in a segment that is kept or in what is behind them. -/
theorem folds_path_iff {segs : List (List Token)} {suffix : List Token}
    (hsuffix : ∀ t ∈ suffix.head?, t = .plain 63 ∨ t = .plain 59) :
    Folds (pathText (.plain 47) (cleanSegs (.plain 46) segs) ++ suffix) ↔
      (∃ s ∈ segs.foldl (push (.plain 46)) [], Folds s) ∨ Folds suffix := by
  have hin : ∀ h₁ h₂, foldable h₁ h₂ = true →
      ([.stray, .plain h₁, .plain h₂] <:+:
          pathText (.plain 47) (cleanSegs (.plain 46) segs) ++ suffix ↔
        (∃ s ∈ segs.foldl (push (.plain 46)) [], [.stray, .plain h₁, .plain h₂] <:+: s) ∨
          [.stray, .plain h₁, .plain h₂] <:+: suffix) := by
    intro h₁ h₂ hfold
    have hsegs : [Token.stray, .plain h₁, .plain h₂] <:+:
          pathText (.plain 47) (cleanSegs (.plain 46) segs) ↔
        ∃ s ∈ segs.foldl (push (.plain 46)) [], [.stray, .plain h₁, .plain h₂] <:+: s := by
      rw [infix_pathText_iff (not_mem_of_foldable hfold rfl) (List.cons_ne_nil _ _), cleanSegs]
      unfold trail
      split_ifs <;> simp
    cases suffix with
    | nil => simp [hsegs]
    | cons t suffix =>
        have ht : t ∉ [Token.stray, .plain h₁, .plain h₂] := by
          rcases hsuffix t rfl with rfl | rfl
          · exact not_mem_of_foldable hfold rfl
          · exact not_mem_of_foldable hfold rfl
        have hcons : [Token.stray, .plain h₁, .plain h₂] <:+: t :: suffix ↔
            [Token.stray, .plain h₁, .plain h₂] <:+: suffix := by
          simpa using infix_append_cons_iff ht [] suffix
        rw [infix_append_cons_iff ht, hsegs, hcons]
  constructor
  · rintro ⟨h₁, h₂, hfold, h⟩
    rcases (hin h₁ h₂ hfold).mp h with ⟨s, hs, h⟩ | h
    · exact Or.inl ⟨s, hs, h₁, h₂, hfold, h⟩
    · exact Or.inr ⟨h₁, h₂, hfold, h⟩
  · rintro (⟨s, hs, h₁, h₂, hfold, h⟩ | ⟨h₁, h₂, hfold, h⟩)
    · exact ⟨h₁, h₂, hfold, (hin h₁ h₂ hfold).mpr (Or.inl ⟨s, hs, h⟩)⟩
    · exact ⟨h₁, h₂, hfold, (hin h₁ h₂ hfold).mpr (Or.inr h)⟩

/-- Tokens are settled iff nothing folds in what they become. -/
theorem settled_iff {body suffix : List Token}
    (h : Ends (.plain 63) (.plain 59) (.plain 47 :: body) suffix) :
    Settled (.plain 47 :: body ++ suffix) ↔
      ¬ Folds (pathText (.plain 47)
        (cleanSegs (.plain 46) ((body.map slashToken).splitOn (.plain 47))) ++ suffix) := by
  have hsuffix : ∀ t ∈ suffix.head?, t = .plain 63 ∨ t = .plain 59 := by
    intro t ht
    rcases h.rest with hhead | ⟨-, -, hhead⟩
    · rw [Option.mem_def.mp ht] at hhead
      exact Or.inl (Option.some.inj hhead)
    · exact Or.inr (hhead t ht)
  have hkept : keptSegments (.plain 47 :: body ++ suffix) =
      ((body.map slashToken).splitOn (.plain 47)).foldl (push (.plain 46)) [] := by
    rw [keptSegments, endOf_append h, List.take_left]
    rfl
  rw [folds_path_iff hsuffix, Settled, endOf_append h, List.drop_left, hkept]
  simp only [not_or, not_exists, not_and]

/-- **A path that is normalised twice** keeps its text iff its tokens are settled, and else it
becomes shorter. -/
theorem cleanText_normalizePath {path : Bytes} (hhead : path.head? = some 47) :
    let q := normalizePath (cleanText path)
    (Settled (tokens path) ∧ cleanText q = q) ∨
      (¬ Settled (tokens path) ∧ (cleanText q).length < q.length) := by
  have hvalid := valid_of_mem_tokens path
  have hroot : (tokens path).head? = some (.plain 47) := by
    cases path with
    | nil => cases hhead
    | cons b s =>
        cases hhead
        rw [tokens_char (by decide) rfl]
        rfl
  obtain ⟨body, suffix, hts, hends⟩ := exists_ends (.plain 63) (.plain 59) (tokens path)
  obtain ⟨body, rfl⟩ : ∃ t, body = .plain 47 :: t := by
    rw [hts] at hroot
    cases body with
    | nil =>
        rcases hends.rest with h | ⟨-, -, h⟩
        · rw [List.nil_append, h] at hroot
          exact absurd hroot (by decide)
        · exact absurd (h _ hroot) (by decide)
    | cons t body =>
        cases hroot
        exact ⟨body, rfl⟩
  rw [hts] at hvalid
  have hbody : ∀ t ∈ body, t.Valid := fun t ht =>
    hvalid t (List.mem_append_left _ (List.mem_cons_of_mem _ ht))
  have hsuffix : ∀ t ∈ suffix, t.Valid := fun t ht => hvalid t (List.mem_append_right _ ht)
  have hq := clean_tokens hbody hsuffix hends
  rw [← hts, ← cleanText] at hq
  dsimp only
  rw [hq, hts, settled_iff hends]
  have hclean : ∀ t ∈ pathText (.plain 47)
      (cleanSegs (.plain 46) ((body.map slashToken).splitOn (.plain 47))) ++ suffix, t.Valid := by
    intro t ht
    rcases List.mem_append.mp ht with ht | ht
    · obtain ⟨s, hs, ht⟩ := List.mem_flatMap.mp ht
      rcases List.mem_cons.mp ht with rfl | ht
      · exact ⟨rfl, by decide, by decide⟩
      rcases mem_cleanSegs hs with ⟨hs, -⟩ | rfl
      · obtain ⟨u, hu, rfl⟩ := List.mem_map.mp (mem_of_mem_split hs ht)
        exact valid_slashToken (hbody u hu)
      · exact absurd ht List.not_mem_nil
    · exact hsuffix t ht
  rcases cleanText_flatMap hclean with ⟨hno, heq⟩ | ⟨hyes, hlt⟩
  · exact Or.inl ⟨hno, heq⟩
  · exact Or.inr ⟨not_not.mpr hyes, hlt⟩

/-- **Which URLs are normalised once and for all**: those in whose path nothing folds. -/
theorem ulNormalizeUrl_ulNormalizeUrl_iff (url v : Bytes) (h : ulNormalizeUrl url = some v) :
    ulNormalizeUrl v = some v ↔ Settled (tokens (urlPath url)) := by
  obtain ⟨site, port, hsite, hsitelen, hport, hclean, rfl⟩ := ulNormalizeUrl_eq_some h
  have htwice := cleanText_normalizePath (urlPath_head url)
  have hcleanhead := cleanText_head (urlPath_head url)
  have hhead := normalizePath_head (cleanText (urlPath url))
  have hlen := (length_normalizePath_le hcleanhead).trans_lt hclean
  have hfix := normalizePath_normalizePath hcleanhead
  have hchar : ∀ b ∈ normalizePath (cleanText (urlPath url)), uchRes b = true :=
    fun b hb => uchRes_of_mem_normalizePath hb
  dsimp only at htwice
  generalize normalizePath (cleanText (urlPath url)) = q at *
  have hle : (cleanText q).length ≤ q.length := by
    rcases htwice with ⟨-, heq⟩ | ⟨-, hlt⟩
    · rw [heq]
    · exact hlt.le
  rw [ulNormalizeUrl_parts hsite hsitelen hport hhead hchar hlen (hle.trans_lt hlen),
    Option.some.injEq, List.append_cancel_left_eq]
  rcases htwice with ⟨hsettled, heq⟩ | ⟨hfolds, hlt⟩
  · rw [heq, hfix]
    exact iff_of_true rfl hsettled
  · refine iff_of_false ?_ hfolds
    intro heq
    have hshort := length_normalizePath_le (cleanText_head hhead)
    rw [heq] at hshort
    omega

/-- An escape stays behind that is one only by accident: `%%34%31` becomes `%41`, and that `A`. -/
theorem ulNormalizeUrl_not_idempotent :
    ¬ ∀ url v, ulNormalizeUrl url = some v → ulNormalizeUrl v = some v := by
  intro h
  have hfirst : ulNormalizeUrl (ascii "a.b/%%34%31") = some (ascii "a.b/%41") := by decide +kernel
  have hsecond : ulNormalizeUrl (ascii "a.b/%41") = some (ascii "a.b/A") := by decide +kernel
  have := h _ _ hfirst
  rw [hsecond] at this
  exact absurd this (by decide)

/-- Dots, an escape, and a `%` that begins none. -/
theorem ulNormalizeUrl_ulNormalizeUrl_iff_dots :
    ulNormalizeUrl (ascii "a.b/~%?x") = some (ascii "a.b/~%?x") ↔
      Settled (tokens (urlPath (ascii "http://A.b/%%34%31/../%7e%?x"))) :=
  ulNormalizeUrl_ulNormalizeUrl_iff _ _ (by decide +kernel)

end Asenal.Url
