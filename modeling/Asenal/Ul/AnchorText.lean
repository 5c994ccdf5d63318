import Asenal.Lib.CString
import Asenal.Lib.Tokens

/-!
# The text of an anchor

`pure_anchor_text` copies a text without its tags, cuts the blanks off at both ends, and writes the rest back
with one space for each run of blanks.

* `stripTags_iff`, `stripTags_eq_none_iff` — the text without its tags, and where a tag has no end.
* `collapse_trimmed` — what is written back.
* `pureAnchorText_spec` — the text that is left, and that a second call does not change it.
-/

namespace Asenal.Ul

open Asenal.Lib.Text Asenal.Lib.CString Asenal.Lib.Tokens

/-! ## The program -/

/-- `UL_MAX_TEXT_LEN`. Source: `dep_exlink.h`. -/
def ulMaxTextLen : ℕ := 100

/-- The string from the first `c` on. -/
def strchr (c : UInt8) (s : Bytes) : Option Bytes :=
  if c ∈ s then some (s.dropWhile (· != c)) else none

/-- What is found is a part of the string. -/
theorem length_strchr {c : UInt8} {s q : Bytes} (h : strchr c s = some q) : q.length ≤ s.length := by
  unfold strchr at h
  split_ifs at h
  cases h
  exact (List.dropWhile_sublist _).length_le

/-- The text without its tags, or `none` if one has no end. Source: `dep_exlink.cpp` `pure_anchor_text`, the
first loop. -/
def stripTags (p : Bytes) : Option Bytes :=
  match p with
  | [] => some []
  | c :: rest =>
      if c ≠ 60 then (stripTags rest).map (c :: ·)
      else
        match _h : strchr 62 rest with
        | none => none
        | some q => stripTags q.tail
termination_by p.length
decreasing_by
  · exact Nat.lt_succ_self _
  · have := length_strchr _h
    rw [List.length_tail, List.length_cons]
    omega

/-- The last byte that is kept, from the end on. Source: `dep_exlink.cpp` `pure_anchor_text`, the third loop. -/
def backLoop (buffer : Bytes) (p : ℤ) : ℕ → ℤ → ℤ
  | 0, q => q
  | n + 1, q => if q > p ∧ isSpace (buffer.getD q.toNat 0) = true then backLoop buffer p n (q - 1) else q

/-- The string between the two pointers, which may stand behind and in front of the buffer. -/
def trimmed (buffer : Bytes) : Bytes :=
  let p := (buffer.takeWhile isSpace).length
  let q := backLoop buffer p buffer.length (buffer.length - 1) + 1
  (buffer.take q.toNat).drop p

/-- What is written over the text. Source: `dep_exlink.cpp` `pure_anchor_text`, the last loop. -/
def collapse (p : Bytes) : Bytes :=
  match p with
  | [] => []
  | c :: rest => if isSpace c then 32 :: collapse (rest.dropWhile isSpace) else c :: collapse rest
termination_by p.length
decreasing_by
  · exact Nat.lt_succ_of_le (List.dropWhile_sublist _).length_le
  · exact Nat.lt_succ_self _

/-- What is returned, and the bytes that are written to the text from its beginning on. Source:
`dep_exlink.cpp` `pure_anchor_text`. -/
def pureAnchorText (text : Bytes) : ℤ × Bytes :=
  match stripTags text with
  | none => (-1, [0])
  | some buffer => (0, collapse (trimmed buffer) ++ [0])

/-- The string that is left. -/
def leftText (text : Bytes) : Bytes :=
  cstr ((pureAnchorText text).2 ++ (text ++ [0]).drop (pureAnchorText text).2.length)

/-! ## Tags -/

/-- A text and what is left of it without the tags. -/
inductive Untagged : Bytes → Bytes → Prop
  | nil : Untagged [] []
  | char {c s t} : c ≠ 60 → Untagged s t → Untagged (c :: s) (c :: t)
  | tag {body s t} : 62 ∉ body → Untagged s t → Untagged (60 :: (body ++ 62 :: s)) t

/-- Each `<` has a `>` behind it. -/
def Paired (s : Bytes) : Prop := ∀ b, 60 :: b <:+ s → 62 ∈ b

variable {s t body : Bytes} {c : UInt8}

/-- The first occurrence behind a text without the character. -/
theorem strchr_append (h : c ∉ body) (s : Bytes) : strchr c (body ++ c :: s) = some (c :: s) := by
  have hall : ∀ b ∈ body, (b != c) = true := fun b hb => bne_iff_ne.mpr fun heq => h (heq ▸ hb)
  simp [strchr, List.dropWhile_append_of_pos hall]

/-- A character that begins no tag is kept. -/
theorem stripTags_char (h : c ≠ 60) (s : Bytes) : stripTags (c :: s) = (stripTags s).map (c :: ·) := by
  rw [stripTags, if_pos h]

/-- A tag is left out. -/
theorem stripTags_tag (h : 62 ∉ body) (s : Bytes) : stripTags (60 :: (body ++ 62 :: s)) = stripTags s := by
  rw [stripTags, if_neg (by simp)]
  split
  case h_1 hnone => simp [strchr_append h] at hnone
  case h_2 q hsome =>
    rw [strchr_append h] at hsome
    cases hsome
    rfl

/-- A tag that does not end is an error. -/
theorem stripTags_open (h : 62 ∉ s) : stripTags (60 :: s) = none := by
  rw [stripTags, if_neg (by simp)]
  split
  · rfl
  · simp_all [strchr]

/-- A text begins with a tag, with another character or with a tag that has no end. -/
theorem tag_induction {P : Bytes → Prop} (hnil : P []) (hchar : ∀ c s, c ≠ 60 → P s → P (c :: s))
    (htag : ∀ body s, 62 ∉ body → P s → P (60 :: (body ++ 62 :: s))) (hopen : ∀ s, 62 ∉ s → P (60 :: s))
    (s : Bytes) : P s := by
  induction hn : s.length using Nat.strong_induction_on generalizing s with
  | _ n ih =>
      cases s with
      | nil => exact hnil
      | cons c s =>
          by_cases hc : c = 60
          · subst hc
            by_cases hend : 62 ∈ s
            · obtain ⟨body, rest, rfl, hbody⟩ := List.eq_append_cons_of_mem hend
              refine htag body rest hbody (ih _ ?_ rest rfl)
              simp at hn
              omega
            · exact hopen s hend
          · exact hchar c s hc (ih _ (by simp at hn; omega) s rfl)

/-- A character that begins no tag does not matter. -/
theorem paired_cons (h : c ≠ 60) : Paired (c :: s) ↔ Paired s := by
  simp [Paired, List.suffix_cons_iff, h.symm]

/-- A `<` behind a tag stands in it or behind its end. -/
theorem mem_of_suffix {b : Bytes} (h : 60 :: b <:+ body ++ 62 :: s) : 62 ∈ b ∨ 60 :: b <:+ s := by
  induction body with
  | nil => simpa [List.suffix_cons_iff] using Or.inr h
  | cons c body ih =>
      rcases List.suffix_cons_iff.mp h with heq | hsuffix
      · exact Or.inl (by simp [(List.cons.inj heq).2])
      · exact ih hsuffix

/-- A tag in front does not matter. -/
theorem paired_tag (body s : Bytes) : Paired (60 :: (body ++ 62 :: s)) ↔ Paired s := by
  constructor
  · intro h b hb
    exact h b (hb.trans ((List.suffix_cons 62 s).trans ((List.suffix_append body _).trans (List.suffix_cons 60 _))))
  · intro h b hb
    rcases List.suffix_cons_iff.mp hb with heq | hsuffix
    · simp [(List.cons.inj heq).2]
    · exact (mem_of_suffix hsuffix).elim id (h b)

/-- **The loop** removes the tags. -/
theorem stripTags_of_untagged (h : Untagged s t) : stripTags s = some t := by
  induction h with
  | nil => rw [stripTags]
  | char hc _ ih => rw [stripTags_char hc, ih, Option.map_some]
  | tag hbody _ ih => rw [stripTags_tag hbody, ih]

/-- Where all tags end, there is a text without them. -/
theorem exists_untagged (h : Paired s) : ∃ t, Untagged s t := by
  induction s using tag_induction with
  | hnil => exact ⟨[], .nil⟩
  | hchar c s hc ih =>
      obtain ⟨t, ht⟩ := ih ((paired_cons hc).mp h)
      exact ⟨c :: t, ht.char hc⟩
  | htag body s hbody ih =>
      obtain ⟨t, ht⟩ := ih ((paired_tag body s).mp h)
      exact ⟨t, ht.tag hbody⟩
  | hopen s hend => exact absurd (h s (List.suffix_refl _)) hend

/-- A tag that has no end. -/
theorem stripTags_of_not_paired (h : ¬ Paired s) : stripTags s = none := by
  induction s using tag_induction with
  | hnil => exact absurd (fun b hb => absurd (List.suffix_nil.mp hb) (List.cons_ne_nil _ _)) h
  | hchar c s hc ih => rw [stripTags_char hc, ih (mt (paired_cons hc).mpr h), Option.map_none]
  | htag body s hbody ih => rw [stripTags_tag hbody, ih (mt (paired_tag body s).mpr h)]
  | hopen s hend => exact stripTags_open hend

/-- Without tags a text is no longer. -/
theorem Untagged.length_le (h : Untagged s t) : t.length ≤ s.length := by
  induction h with
  | nil => exact Nat.le_refl 0
  | char _ _ ih => exact Nat.succ_le_succ ih
  | tag _ _ ih =>
      simp
      omega

/-- Without tags a text has the same characters, but no `<`. -/
theorem Untagged.mem (h : Untagged s t) (hc : c ∈ t) : c ∈ s ∧ c ≠ 60 := by
  induction h with
  | nil => cases hc
  | char hne _ ih =>
      rcases List.mem_cons.mp hc with rfl | hc
      · exact ⟨List.mem_cons_self, hne⟩
      · exact ⟨List.mem_cons_of_mem _ (ih hc).1, (ih hc).2⟩
  | tag _ _ ih => exact ⟨by simp [(ih hc).1], (ih hc).2⟩

/-- A text without `<` has no tags. -/
theorem untagged_self (h : 60 ∉ s) : Untagged s s := by
  induction s with
  | nil => exact .nil
  | cons c s ih =>
      obtain ⟨hc, hs⟩ := not_or.mp (mt List.mem_cons.mpr h)
      exact (ih hs).char (Ne.symm hc)

/-! ## Blanks -/

/-- No blanks at both ends. -/
structure Trimmed (s : Bytes) : Prop where
  head : ∀ b ∈ s.head?, isSpace b = false
  last : ∀ b ∈ s.getLast?, isSpace b = false

/-- The words with one space between them. -/
def spaced (ws : List Bytes) : Bytes := [32].intercalate ws

/-- A word stays as it is. -/
theorem collapse_word {w : Bytes} (hw : ∀ b ∈ w, isSpace b = false) (rest : Bytes) :
    collapse (w ++ rest) = w ++ collapse rest := by
  induction w with
  | nil => rfl
  | cons c w ih =>
      obtain ⟨hc, hw⟩ := List.forall_mem_cons.mp hw
      rw [List.cons_append, collapse, hc, if_neg Bool.false_ne_true, ih hw, List.cons_append]

/-- A word in front of others. -/
theorem spaced_cons (w : Bytes) {ws : List Bytes} (h : ws ≠ []) : spaced (w :: ws) = w ++ 32 :: spaced ws := by
  cases ws with
  | nil => exact absurd rfl h
  | cons v ws => simp [spaced, List.intercalate]

/-- The end of a text without blanks at its ends, from a place behind a blank on. -/
theorem Trimmed.dropWhile {rest : Bytes} (h : Trimmed s) (hrest : c :: rest <:+ s) (hc : isSpace c = true) :
    Trimmed (rest.dropWhile isSpace) ∧ rest.dropWhile isSpace ≠ [] := by
  obtain ⟨pre, rfl⟩ := hrest
  have hlast : ∀ b ∈ (c :: rest).getLast?, isSpace b = false := by
    simpa [List.getLast?_append] using h.last
  have hne : rest.dropWhile isSpace ≠ [] := by
    intro hnil
    have hall : ∀ b ∈ c :: rest, isSpace b = true :=
      List.forall_mem_cons.mpr ⟨hc, List.dropWhile_eq_nil_iff.mp hnil⟩
    have hblank := hall _ (List.getLast_mem (List.cons_ne_nil c rest))
    rw [hlast _ (List.getLast?_eq_some_getLast (List.cons_ne_nil c rest))] at hblank
    exact Bool.false_ne_true hblank
  obtain ⟨pre', hsuffix⟩ := List.dropWhile_suffix (l := rest) isSpace
  refine ⟨⟨not_of_mem_head_dropWhile isSpace rest, fun b hb => hlast b ?_⟩, hne⟩
  rw [← hsuffix, ← List.cons_append, List.getLast?_append_of_ne_nil _ hne]
  exact hb

/-- No blanks stand in front. -/
theorem Trimmed.dropWhile_eq (h : Trimmed s) : s.dropWhile isSpace = s := by
  cases s with
  | nil => rfl
  | cons c s => rw [List.dropWhile_cons_of_neg (by simp [h.head c rfl])]

/-- There is a word in it, if there is anything. -/
theorem Trimmed.tokens_ne_nil (h : Trimmed s) (hne : s ≠ []) : tokens isSpace s ≠ [] := by
  rcases tokens_cases (p := isSpace) s with ⟨-, hnil⟩ | ⟨w, rest, -, -, -, -, htokens⟩
  · exact absurd (h.dropWhile_eq.symm.trans hnil) hne
  · simp [htokens]

/-- **What is written back** of a text without blanks at its ends. -/
theorem collapse_trimmed (h : Trimmed s) : collapse s = spaced (tokens isSpace s) := by
  induction hn : s.length using Nat.strong_induction_on generalizing s with
  | _ n ih =>
      have hself := h.dropWhile_eq
      rcases tokens_cases (p := isSpace) s with ⟨htokens, hnil⟩ | ⟨w, rest, hw, hword, hrest, hsplit, htokens⟩
      · rw [htokens, ← hself, hnil, collapse]
        rfl
      · rw [hself] at hsplit
        subst hsplit
        rw [htokens, collapse_word hword]
        cases rest with
        | nil => simp [collapse, spaced, List.intercalate]
        | cons c rest =>
            have hc := hrest c rfl
            obtain ⟨htrimmed, hne⟩ := h.dropWhile (List.suffix_append _ _) hc
            have hshort : (rest.dropWhile isSpace).length < n := by
              have hle := (List.dropWhile_sublist isSpace (l := rest)).length_le
              simp at hn
              omega
            rw [collapse, if_pos hc, ih _ hshort htrimmed rfl, tokens_sep hc, ← tokens_dropWhile rest,
              spaced_cons w (htrimmed.tokens_ne_nil hne)]

/-- **The pointer goes back** over the blanks, and stops at the first byte that is kept. -/
theorem backLoop_spec (pre post : Bytes) {n : ℕ} (hne : s ≠ []) (hhead : ∀ b ∈ s.head?, isSpace b = false)
    (hn : s.length ≤ n) : ∃ kept, kept <+: s ∧ Trimmed kept ∧ tokens isSpace kept = tokens isSpace s ∧
      backLoop (pre ++ (s ++ post)) pre.length n ((pre.length + s.length : ℕ) - 1) + 1 =
        (pre.length + kept.length : ℕ) := by
  induction s using List.reverseRecOn generalizing post n with
  | nil => exact absurd rfl hne
  | append_singleton s c ih =>
      obtain ⟨n, rfl⟩ := Nat.exists_eq_succ_of_ne_zero (show n ≠ 0 by simp at hn; omega)
      have hq : ((pre.length + (s ++ [c]).length : ℕ) : ℤ) - 1 = (pre.length + s.length : ℕ) := by
        simp
        omega
      have hget : (pre ++ ((s ++ [c]) ++ post)).getD (pre.length + s.length) 0 = c := by
        simp
      rw [hq, backLoop, Int.toNat_natCast, hget]
      by_cases hback : ((pre.length + s.length : ℕ) : ℤ) > pre.length ∧ isSpace c = true
      · have hs : s ≠ [] := by
          rintro rfl
          simp at hback
        have hhead' : ∀ b ∈ s.head?, isSpace b = false := by
          rwa [List.head?_append_of_ne_nil s hs] at hhead
        obtain ⟨kept, hprefix, htrimmed, htokens, hback'⟩ := ih (c :: post) hs hhead' (by simp at hn; omega)
        rw [if_pos hback]
        refine ⟨kept, hprefix.trans (List.prefix_append _ _), htrimmed, ?_, ?_⟩
        · rw [htokens, tokens_append_sep hback.2]
        · simpa using hback'
      · rw [if_neg hback]
        have hc : isSpace c = false := by
          cases s with
          | nil => exact hhead c rfl
          | cons b s => simpa using hback
        exact ⟨s ++ [c], List.prefix_refl _, ⟨hhead, by simpa using hc⟩, rfl, by simp; omega⟩

/-- **The blanks at both ends** are cut off. -/
theorem trimmed_spec (buffer : Bytes) : Trimmed (trimmed buffer) ∧
    tokens isSpace (trimmed buffer) = tokens isSpace buffer ∧ trimmed buffer <:+: buffer := by
  have hsplit : buffer.takeWhile isSpace ++ buffer.dropWhile isSpace = buffer := List.takeWhile_append_dropWhile
  have hlen := congrArg List.length hsplit
  rw [List.length_append] at hlen
  rw [← tokens_dropWhile buffer]
  by_cases hne : buffer.dropWhile isSpace = []
  · have hempty : trimmed buffer = [] := by
      rw [hne, List.length_nil] at hlen
      rw [trimmed, List.drop_eq_nil_of_le (by simp; omega)]
    rw [hempty, hne]
    exact ⟨⟨nofun, nofun⟩, rfl, List.nil_infix⟩
  · obtain ⟨kept, ⟨rest, hkept⟩, htrimmed, htokens, hback⟩ := backLoop_spec (buffer.takeWhile isSpace) []
      hne (not_of_mem_head_dropWhile isSpace buffer) (Nat.le_of_add_left_le (Nat.le_of_eq hlen))
    rw [List.append_nil, hsplit, hlen] at hback
    have hwhole : buffer.takeWhile isSpace ++ kept ++ rest = buffer := by
      rw [List.append_assoc, hkept, hsplit]
    have htake : buffer.take ((buffer.takeWhile isSpace).length + kept.length) = buffer.takeWhile isSpace ++ kept := by
      have hleft : (buffer.takeWhile isSpace ++ kept ++ rest).take (buffer.takeWhile isSpace ++ kept).length =
          buffer.takeWhile isSpace ++ kept := List.take_left
      rwa [hwhole, List.length_append] at hleft
    have heq : trimmed buffer = kept := by
      rw [trimmed, hback, Int.toNat_natCast, htake, List.drop_left]
    rw [heq]
    exact ⟨htrimmed, htokens, _, rest, hwhole⟩

/-! ## The text that is left -/

/-- No character is new but the blank. -/
theorem collapse_subset (s : Bytes) : collapse s ⊆ 32 :: s := by
  induction hn : s.length using Nat.strong_induction_on generalizing s with
  | _ n ih =>
      cases s with
      | nil => simp [collapse]
      | cons c s =>
          have hdrop := List.dropWhile_sublist isSpace (l := s)
          have hblank := ih _ (by have := hdrop.length_le; simp at hn; omega) (s.dropWhile isSpace) rfl
          have hrest := ih _ (by simp at hn; omega) s rfl
          have hsub := hdrop.subset
          intro b hb
          rw [collapse] at hb
          split_ifs at hb
          · grind
          · grind

/-- No text gets longer. -/
theorem length_collapse_le (s : Bytes) : (collapse s).length ≤ s.length := by
  induction hn : s.length using Nat.strong_induction_on generalizing s with
  | _ n ih =>
      cases s with
      | nil => simp [collapse]
      | cons c s =>
          have hdrop := (List.dropWhile_sublist isSpace (l := s)).length_le
          rw [List.length_cons] at hn
          have hblank := ih _ (by omega) (s.dropWhile isSpace) rfl
          have hrest := ih _ (by omega) s rfl
          rw [collapse]
          split_ifs
          · rw [List.length_cons]
            omega
          · rw [List.length_cons]
            omega

/-- Words with one space between them are its words. -/
theorem tokens_spaced {ws : List Bytes} (h : ∀ w ∈ ws, w ≠ [] ∧ ∀ b ∈ w, isSpace b = false) :
    tokens isSpace (spaced ws) = ws := by
  induction ws with
  | nil => rfl
  | cons w ws ih =>
      obtain ⟨⟨hne, hw⟩, hws⟩ := List.forall_mem_cons.mp h
      cases ws with
      | nil =>
          have hword : tokens isSpace (w ++ []) = w :: tokens isSpace [] := tokens_append hne hw nofun
          simpa [spaced, List.intercalate] using hword
      | cons v ws =>
          rw [spaced_cons w (List.cons_ne_nil v ws), tokens_append hne hw (by simp [isSpace]),
            tokens_sep (by decide), ih hws]

/-- **A text without tags** is left with one space between its words. -/
theorem pureAnchorText_untagged (h : Untagged s t) :
    pureAnchorText s = (0, spaced (tokens isSpace t) ++ [0]) := by
  obtain ⟨htrimmed, htokens, -⟩ := trimmed_spec t
  rw [pureAnchorText, stripTags_of_untagged h]
  simp only
  rw [collapse_trimmed htrimmed, htokens]

/-- The characters of the words with blanks between them. -/
theorem mem_spaced (hc : c ∈ spaced (tokens isSpace t)) : c = 32 ∨ c ∈ t := by
  obtain ⟨htrimmed, htokens, hinfix⟩ := trimmed_spec t
  rw [← htokens, ← collapse_trimmed htrimmed] at hc
  exact (List.mem_cons.mp (collapse_subset _ hc)).imp_right fun h => hinfix.subset h

/-- The words with blanks between them are no longer than the text. -/
theorem length_spaced_le (t : Bytes) : (spaced (tokens isSpace t)).length ≤ t.length := by
  obtain ⟨htrimmed, htokens, hinfix⟩ := trimmed_spec t
  rw [← htokens, ← collapse_trimmed htrimmed]
  exact (length_collapse_le _).trans hinfix.length_le

/-- **The text of an anchor**: it is left without its tags, without blanks at both ends and with one space for
each run of blanks inside, and a second call leaves it as it is. If a tag has no end, the empty text is left. -/
theorem pureAnchorText_spec (text : CStr) (hlt : text.1.length < ulMaxTextLen) :
    (Paired text → (∃ t, Untagged text t) ∧ ∀ t, Untagged text t → t.length < ulMaxTextLen ∧
      pureAnchorText text = (0, spaced (tokens isSpace t) ++ [0]) ∧ leftText text = spaced (tokens isSpace t)) ∧
    (¬ Paired text → pureAnchorText text = (-1, [0]) ∧ leftText text = []) ∧
    (pureAnchorText text).2.length ≤ text.1.length + 1 ∧
    pureAnchorText (leftText text) = (0, leftText text ++ [0]) := by
  have hleft : ∀ t, Untagged text t → leftText text = spaced (tokens isSpace t) := by
    intro t ht
    have hnul : 0 ∉ spaced (tokens isSpace t) := fun hmem =>
      (mem_spaced hmem).elim (by decide) fun hmem => text.2 (ht.mem hmem).1
    rw [leftText, pureAnchorText_untagged ht, List.append_assoc]
    exact cstr_append_nul hnul _
  have hopen : ¬ Paired text → pureAnchorText text = (-1, [0]) ∧ leftText text = [] := by
    intro hpaired
    have hcall : pureAnchorText text = (-1, [0]) := by
      rw [pureAnchorText, stripTags_of_not_paired hpaired]
    rw [leftText, hcall]
    exact ⟨rfl, rfl⟩
  refine ⟨fun hpaired => ⟨exists_untagged hpaired, fun t ht => ⟨ht.length_le.trans_lt hlt,
    pureAnchorText_untagged ht, hleft t ht⟩⟩, hopen, ?_⟩
  by_cases hpaired : Paired text
  · obtain ⟨t, ht⟩ := exists_untagged hpaired
    have hself : Untagged (spaced (tokens isSpace t)) (spaced (tokens isSpace t)) :=
      untagged_self fun hmem => (mem_spaced hmem).elim (by decide) fun hmem => (ht.mem hmem).2 rfl
    rw [hleft t ht, pureAnchorText_untagged ht, pureAnchorText_untagged hself,
      tokens_spaced fun w hw => of_mem_tokens hw]
    have hle := length_spaced_le t
    have hle' := ht.length_le
    exact ⟨by simp; omega, rfl⟩
  · obtain ⟨hcall, hnone⟩ := hopen hpaired
    rw [hcall, hnone]
    exact ⟨by simp, pureAnchorText_untagged .nil⟩

/-- A tag between two blanks. -/
theorem pureAnchorText_spec_tag : (pureAnchorText (ascii " a <b> c")).2.length ≤ 9 ∧
    pureAnchorText (leftText (ascii " a <b> c")) = (0, leftText (ascii " a <b> c") ++ [0]) :=
  (pureAnchorText_spec ⟨ascii " a <b> c", by decide⟩ (by decide)).2.2

end Asenal.Ul
