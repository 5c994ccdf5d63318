import Asenal.Pack.Frame

/-!
# The head parser

Both readers parse the head with the same loop: the text up to the next `\r\n` is a line, the
line is split at its first `" : "`, and the name is the first word of the line. The slot of a
line is cleared before the line is looked at, and it is kept if the second word of the line
begins with a colon; the array `tmp` keeps the last second word that there was.

* `parseHead_headText` — the head of pairs whose names are words is read back.
* `parseHead_words` — every name that is read is a word.

The array `tmp` is taken to be as long as the words it receives.
-/

namespace Asenal.Pack

open Asenal.Lib.Text Asenal.Lib.Memory Asenal.Lib.CString

/-! ## The loop -/

/-- The state of the loop: the slots of the package, the number `i` of slots in use, and the
scratch array `tmp`. -/
structure HeadScan where
  name : ℕ → Bytes
  value : ℕ → Bytes
  i : ℕ
  tmp : Bytes

/-- The slots in use. -/
def HeadScan.pairs (st : HeadScan) : List (Bytes × Bytes) := slots st.name st.value st.i

/-- One line of the head: the new state, or an error with the cleared slot. Source:
`ul_pack.cpp` `ul_pack_reado_ms` and `ul_pack_deserialization`, the body of the `while` loop
behind `*q = '\0'`. -/
def HeadScan.line (st : HeadScan) (line : Bytes) : Except HeadScan HeadScan :=
  let name := Function.update st.name st.i []
  let value := Function.update st.value st.i []
  match strstr sep line with
  | none => .error { st with name, value }
  | some p =>
      if maxItemSize ≤ p ∨ maxItemSize ≤ line.length - (p + sep.length) then
        .error { st with name, value }
      else
        let value := Function.update value st.i (printItem (line.drop (p + sep.length)))
        match scanS line with
        | none =>
            .ok ⟨name, value, if st.tmp.head? = some 58 then st.i + 1 else st.i, st.tmp⟩
        | some (w, r) =>
            let name := Function.update name st.i w
            let tmp := ((scanS r).map Prod.fst).getD st.tmp
            .ok ⟨name, value, if tmp.head? = some 58 then st.i + 1 else st.i, tmp⟩

/-- The loop over the lines of the head `ph`. -/
def parseHead (ph : Bytes) (st : HeadScan) : Except HeadScan HeadScan :=
  if _h : ph = [] ∨ maxPackItemNum ≤ st.i then .ok st
  else
    match strstr crlf ph with
    | none => .ok st
    | some 0 => .ok st
    | some (q + 1) =>
        match st.line (ph.take (q + 1)) with
        | .error st => .error st
        | .ok st => parseHead (ph.drop (q + 1 + crlf.length)) st
termination_by ph.length
decreasing_by
  rw [not_or] at _h
  have := List.length_pos_of_ne_nil _h.1
  rw [List.length_drop]
  omega

/-! ## Reading pairs back -/

/-- Filling the next slot appends a pair. -/
theorem slots_update (name value : ℕ → Bytes) (i : ℕ) (n v : Bytes) :
    slots (Function.update name i n) (Function.update value i v) (i + 1) =
      slots name value i ++ [(n, v)] := by
  have hlow : slots (Function.update name i n) (Function.update value i v) i =
      slots name value i := by
    apply slots_congr
    intro j hj
    rw [Function.update_of_ne (Nat.ne_of_lt hj), Function.update_of_ne (Nat.ne_of_lt hj)]
    exact ⟨rfl, rfl⟩
  rw [slots_succ, hlow, Function.update_self, Function.update_self]

/-- A line whose name is a word fills the next slot. -/
theorem HeadScan.line_pair (st : HeadScan) {n v : Bytes} (hn : IsWord n)
    (hnlen : n.length < maxItemSize) (hvlen : v.length < maxItemSize) :
    st.line (n ++ sep ++ v) =
      .ok ⟨Function.update st.name st.i n, Function.update st.value st.i v, st.i + 1, [58]⟩ := by
  have hfind : strstr sep (n ++ sep ++ v) = some n.length := by
    rw [List.append_assoc, strstr_append_of_not_mem _ hn.not_mem_blank,
      strstr_append_self (by decide)]
    simp
  have hlen : (n ++ sep ++ v).length - (n.length + sep.length) = v.length := by
    rw [List.length_append, List.length_append, Nat.add_sub_cancel_left]
  have hdrop : (n ++ sep ++ v).drop (n.length + sep.length) = v := by
    rw [← List.length_append, List.drop_left]
  have hfirst : scanS (n ++ sep ++ v) = some (n, sep ++ v) := by
    rw [List.append_assoc]
    exact scanS_append hn.1 hn.2 (by simp [Delimited, isSpace])
  have hsecond : scanS (sep ++ v) = some ([58], 32 :: v) := by
    have hw : ∀ b ∈ [(58 : UInt8)], isSpace b = false := by simp [isSpace]
    rw [show sep ++ v = 32 :: ([58] ++ 32 :: v) from rfl, scanS_cons_of_isSpace (by decide),
      scanS_append (List.cons_ne_nil 58 []) hw (by simp [Delimited, isSpace])]
  simp only [HeadScan.line, hfind, hlen, hdrop, hfirst, hsecond, printItem_of_lt hvlen,
    Function.update_idem, Option.map_some, Option.getD_some, List.head?_cons, if_true]
  rw [if_neg (not_or.mpr ⟨Nat.not_le.mpr hnlen, Nat.not_le.mpr hvlen⟩)]

/-- What a pair has to be for its line to be read back. -/
structure GoodPair (x : Bytes × Bytes) : Prop where
  name : IsWord x.1
  name_lt : x.1.length < maxItemSize
  value_lt : x.2.length < maxItemSize
  no_crlf : ¬ crlf <:+: x.2

/-- The first line of a head ends where it should. -/
theorem strstr_pairText {n v : Bytes} (h : GoodPair (n, v)) (r : Bytes) :
    strstr crlf (pairText n v ++ r) = some (n ++ sep ++ v).length := by
  have hcr : 13 ∉ n ++ sep := by
    rw [List.mem_append, not_or]
    exact ⟨h.name.not_mem_cr, by decide⟩
  have htext : pairText n v ++ r = n ++ sep ++ v ++ 13 :: 10 :: r := by
    rw [pairText, List.append_assoc]
    rfl
  rw [htext]
  refine strstr_pair (by decide) ?_ r
  rw [infix_append_iff_of_not_mem hcr]
  exact h.no_crlf

/-- **The head is read back**: parsing the head of good pairs fills the next slots with them. -/
theorem parseHead_headText {l : List (Bytes × Bytes)} (st : HeadScan) (h : ∀ x ∈ l, GoodPair x)
    (hi : st.i + l.length ≤ maxPackItemNum) :
    ∃ st', parseHead (headText l) st = .ok st' ∧ st'.pairs = st.pairs ++ l := by
  induction l generalizing st with
  | nil =>
      refine ⟨st, ?_, by rw [List.append_nil]⟩
      rw [parseHead]
      split_ifs
      · rfl
      · rw [headText, pairsText, List.flatMap_nil, List.nil_append,
          show strstr crlf crlf = some 0 by decide]
  | cons x l ih =>
      obtain ⟨n, v⟩ := x
      have hx := h (n, v) List.mem_cons_self
      rw [List.length_cons] at hi
      have hhead : headText ((n, v) :: l) = pairText n v ++ headText l := by
        rw [headText, pairsText_cons, if_neg hx.name.1, List.append_assoc, headText]
      have hne : pairText n v ++ headText l ≠ [] := by
        rw [pairText]
        simp [hx.name.1]
      obtain ⟨q, hq⟩ : ∃ q, (n ++ sep ++ v).length = q + 1 := by
        refine ⟨n.length + 2 + v.length, ?_⟩
        simp only [List.length_append, List.length_cons, List.length_nil]
        omega
      have hline : (pairText n v ++ headText l).take (q + 1) = n ++ sep ++ v := by
        rw [← hq, pairText, List.append_assoc (n ++ sep ++ v), List.take_left]
      have hrest : (pairText n v ++ headText l).drop (q + 1 + crlf.length) = headText l := by
        rw [← hq, ← List.length_append]
        exact List.drop_left
      obtain ⟨st', hst', hpairs⟩ := ih
        ⟨Function.update st.name st.i n, Function.update st.value st.i v, st.i + 1, [58]⟩
        (fun y hy => h y (List.mem_cons_of_mem _ hy)) (by simp only; omega)
      refine ⟨st', ?_, ?_⟩
      · rw [parseHead, hhead, dif_neg (not_or.mpr ⟨hne, by omega⟩), strstr_pairText hx, hq]
        simp only [hline, hrest, st.line_pair hx.name hx.name_lt hx.value_lt, hst']
      · rw [hpairs, HeadScan.pairs, slots_update, List.append_assoc]
        rfl

/-! ## What is read -/

/-- All names in use are words. -/
def HeadScan.Words (st : HeadScan) : Prop := ∀ x ∈ st.pairs, IsWord x.1

/-- A line with a separator has a first word. -/
theorem scanS_of_sep {line : Bytes} {p : ℕ} (h : strstr sep line = some p) :
    ∃ w r, scanS line = some (w, r) := by
  have hin : sep <:+: line := by
    by_contra hnot
    rw [(strstr_eq_none_iff sep line).mpr hnot] at h
    cases h
  have hskip : skipSpace line ≠ [] := by
    intro hnil
    have hmem : (58 : UInt8) ∈ line := hin.subset (by decide)
    exact absurd (List.dropWhile_eq_nil_iff.mp hnil 58 hmem) (by decide)
  exact ⟨_, _, if_neg hskip⟩

/-- A line keeps the names in use words. -/
theorem HeadScan.line_words {st st' : HeadScan} {line : Bytes} (h : st.Words)
    (hl : st.line line = .ok st') : st'.Words := by
  unfold HeadScan.line at hl
  simp only at hl
  split at hl
  · cases hl
  next p hp =>
    by_cases hlen : maxItemSize ≤ p ∨ maxItemSize ≤ line.length - (p + sep.length)
    · rw [if_pos hlen] at hl
      cases hl
    obtain ⟨w, r, hw⟩ := scanS_of_sep hp
    rw [if_neg hlen, hw] at hl
    simp only [Function.update_idem, Except.ok.injEq] at hl
    subst hl
    intro x hx
    rw [HeadScan.pairs] at hx
    simp only at hx
    split_ifs at hx
    · rw [slots_update] at hx
      rcases List.mem_append.mp hx with hx | hx
      · exact h x hx
      · rw [List.mem_singleton.mp hx]
        exact scanS_eq_some hw
    · obtain ⟨j, hj, rfl⟩ := mem_slots.mp hx
      rw [Function.update_of_ne (Nat.ne_of_lt hj), Function.update_of_ne (Nat.ne_of_lt hj)]
      exact h _ (mem_slots.mpr ⟨j, hj, rfl⟩)

/-- **Every name that is read is a word.** -/
theorem parseHead_words {ph : Bytes} {st st' : HeadScan} (h : st.Words)
    (hp : parseHead ph st = .ok st') : st'.Words := by
  induction ph, st using parseHead.induct with
  | case1 ph st hstop =>
      rw [parseHead, dif_pos hstop] at hp
      cases hp
      exact h
  | case2 ph st hstop hnone =>
      rw [parseHead, dif_neg hstop, hnone] at hp
      cases hp
      exact h
  | case3 ph st hstop hzero =>
      rw [parseHead, dif_neg hstop, hzero] at hp
      cases hp
      exact h
  | case4 ph st hstop q hq st₁ hl =>
      rw [parseHead, dif_neg hstop, hq] at hp
      simp only [hl] at hp
      cases hp
  | case5 ph st hstop q hq st₁ hl ih =>
      rw [parseHead, dif_neg hstop, hq] at hp
      simp only [hl] at hp
      exact ih (st.line_words h hl) hp

end Asenal.Pack
