import Asenal.Lib.Border

/-!
# Matching with a fallback table

A text is read one character at a time. The state is the length of a prefix of the word; where the word does
not go on with a character, the state falls back, by a table that may be any one.

* `Falls.eq_overlap` — the states, where the entries are the longest borders.
* `Outcome.isFirst_iff` — what is found is the first occurrence where the states agree with the text.
* `Right.agrees` — a table whose states are the overlaps agrees with every text.
* `exists_wrong` — with any other table there is a text where it does not.
-/

namespace Asenal.Lib.Fallback

open Asenal.Lib.Border

variable {α : Type*} (p : List α) (e : ℕ → ℕ)

/-- The state behind a character. -/
inductive Falls : ℕ → α → ℕ → Prop
  | hit {j c} : p[j]? = some c → Falls j c (j + 1)
  | stay {c} : p[0]? ≠ some c → Falls 0 c 0
  | fall {j c r} : p[j + 1]? ≠ some c → Falls (e (j + 1)) c r → Falls (j + 1) c r

/-- The state behind a text that the word is not found in before its end. -/
inductive Reads : List α → ℕ → Prop
  | nil : Reads [] 0
  | concat {t j c r} : Reads t j → j < p.length → Falls p e j c r → Reads (t ++ [c]) r

/-- What is found in a text: the position of the first occurrence that is read, if there is one. -/
inductive Outcome (s : List α) : Option ℕ → Prop
  | found {t} : Reads p e t p.length → t <+: s → Outcome s (some (t.length - p.length))
  | missed {j} : Reads p e s j → j < p.length → Outcome s none

/-- The states fall. -/
def Shrinks : Prop := ∀ j, j + 1 < p.length → e (j + 1) < j + 1

/-- The first occurrence of the word in a text. -/
def IsFirst (s : List α) : Option ℕ → Prop
  | some k => IsLeast {k | p <+: s.drop k} k
  | none => ∀ k, ¬ p <+: s.drop k

variable {p e} {s t u : List α} {c : α} {j k r r' : ℕ}

/-! ## One character -/

/-- One more letter is read at most. -/
theorem Falls.lt (hshrinks : Shrinks p e) (h : Falls p e j c r) (hj : j < p.length) : r ≤ j + 1 := by
  induction h with
  | hit => exact Nat.le_refl _
  | stay => exact Nat.zero_le _
  | fall _ _ ih =>
      have hlt := hshrinks _ hj
      exact (ih (hlt.trans hj)).trans (by omega)

/-- There is one end of the fall. -/
theorem Falls.unique (h : Falls p e j c r) (h' : Falls p e j c r') : r = r' := by
  induction h with
  | hit hc =>
      cases h' with
      | hit => rfl
      | stay hne => exact absurd hc hne
      | fall hne => exact absurd hc hne
  | stay hne =>
      cases h' with
      | hit hc => exact absurd hc hne
      | stay => rfl
  | fall hne _ ih =>
      cases h' with
      | hit hc => exact absurd hc hne
      | fall _ hfall => exact ih hfall

/-- The fall comes to an end. -/
theorem exists_falls (hshrinks : Shrinks p e) (hj : j < p.length) (c : α) : ∃ r, Falls p e j c r := by
  induction j using Nat.strong_induction_on with
  | _ j ih =>
      by_cases hc : p[j]? = some c
      · exact ⟨j + 1, .hit hc⟩
      · cases j with
        | zero => exact ⟨0, .stay hc⟩
        | succ j =>
            have hlt := hshrinks j hj
            obtain ⟨r, hr⟩ := ih _ hlt (hlt.trans hj)
            exact ⟨r, .fall hc hr⟩

/-- A character that does not occur in the word. -/
theorem Falls.of_not_mem (h : Falls p e j c r) (hc : c ∉ p) : r = 0 := by
  induction h with
  | hit hget => exact absurd (List.mem_of_getElem? hget) hc
  | stay => rfl
  | fall _ _ ih => exact ih hc

/-! ## Texts -/

/-- No more is matched than there is. -/
theorem Reads.le (hshrinks : Shrinks p e) (h : Reads p e t j) : j ≤ p.length ∧ j ≤ t.length := by
  induction h with
  | nil => exact ⟨Nat.zero_le _, Nat.le_refl 0⟩
  | concat _ hj hfalls ih =>
      have := hfalls.lt hshrinks hj
      rw [List.length_append, List.length_singleton]
      omega

/-- The state behind a beginning of the text. -/
theorem Reads.of_append (h : Reads p e (t ++ u) r) (hu : u ≠ []) : ∃ j, Reads p e t j ∧ j < p.length := by
  generalize hs : t ++ u = s at h
  induction h generalizing u with
  | nil => exact absurd (List.append_eq_nil_iff.mp hs).2 hu
  | @concat s j c r h hj hfalls ih =>
      rcases List.eq_nil_or_concat u with rfl | ⟨u, d, rfl⟩
      · exact absurd rfl hu
      · rw [List.concat_eq_append, ← List.append_assoc] at hs
        obtain ⟨rfl, -⟩ := List.append_inj' hs rfl
        by_cases hnil : u = []
        · rw [hnil, List.append_nil] at h
          exact ⟨j, h, hj⟩
        · exact ih hnil rfl

/-- Reading is a function. -/
theorem Reads.unique (h : Reads p e t r) (h' : Reads p e t r') : r = r' := by
  induction h generalizing r' with
  | nil =>
      generalize hs : ([] : List α) = s at h'
      cases h' with
      | nil => rfl
      | concat => exact absurd hs.symm (by simp)
  | @concat t j c r h _ hfalls ih =>
      generalize hs : t ++ [c] = s at h'
      cases h' with
      | nil => exact absurd hs (by simp)
      | concat h' _ hfalls' =>
          obtain ⟨rfl, hc⟩ := List.append_inj' hs rfl
          obtain rfl := (List.cons.inj hc).1
          exact (ih h' ▸ hfalls).unique hfalls'

/-- A text that goes on with the word. -/
theorem Reads.append (h : Reads p e t j) (hu : u <+: p.drop j) : Reads p e (t ++ u) (j + u.length) := by
  induction u using List.reverseRecOn with
  | nil => simpa using h
  | append_singleton u c ih =>
      obtain ⟨v, hv⟩ := hu
      have hget : p[j + u.length]? = some c := by
        rw [← List.getElem?_drop, ← hv]
        simp
      have hlt := (List.getElem?_eq_some_iff.mp hget).1
      have hread := ih ⟨c :: v, by rw [← hv]; simp⟩
      rw [← List.append_assoc, List.length_append, List.length_singleton]
      exact hread.concat hlt (.hit hget)

/-- A state is not higher than the characters that were read since. -/
theorem Reads.le_add (hshrinks : Shrinks p e) (h : Reads p e t j) (h' : Reads p e (t ++ u) r) :
    r ≤ j + u.length := by
  induction u using List.reverseRecOn generalizing r with
  | nil =>
      rw [List.append_nil] at h'
      exact (h'.unique h).le
  | append_singleton u c ih =>
      rw [← List.append_assoc] at h'
      generalize hs : t ++ u ++ [c] = s at h'
      cases h' with
      | nil => exact absurd hs (by simp)
      | concat h' hj hfalls =>
          obtain ⟨rfl, -⟩ := List.append_inj' hs rfl
          have := ih h'
          have := hfalls.lt hshrinks hj
          rw [List.length_append, List.length_singleton]
          omega

/-- The text is read up to the first occurrence that is found, or to its end. -/
theorem exists_outcome (hshrinks : Shrinks p e) (s : List α) : ∃ r, Outcome p e s r := by
  induction s using List.reverseRecOn with
  | nil =>
      by_cases hp : p.length = 0
      · exact ⟨_, .found (hp ▸ .nil) List.nil_prefix⟩
      · exact ⟨none, .missed .nil (Nat.pos_of_ne_zero hp)⟩
  | append_singleton s c ih =>
      obtain ⟨x, hx⟩ := ih
      cases hx with
      | found hread hpre => exact ⟨_, .found hread (hpre.trans (List.prefix_append s [c]))⟩
      | missed hread hj =>
          obtain ⟨r, hr⟩ := exists_falls hshrinks hj c
          have hread' := hread.concat hj hr
          rcases (hread'.le hshrinks).1.eq_or_lt with heq | hlt
          · exact ⟨_, .found (heq ▸ hread') List.prefix_rfl⟩
          · exact ⟨none, .missed hread' hlt⟩

/-- The text is read no further than to where the word is found. -/
theorem Reads.length_le (h : Reads p e t p.length) (ht : t <+: s) (h' : Reads p e u j) (hu : u <+: s) :
    u.length ≤ t.length := by
  by_contra hlt
  obtain ⟨v, rfl⟩ := List.prefix_of_prefix_length_le ht hu (not_le.mp hlt).le
  have hv : v ≠ [] := by
    rintro rfl
    simp at hlt
  obtain ⟨j', hread, hj'⟩ := h'.of_append hv
  exact absurd (hread.unique h) hj'.ne

/-- There is one outcome. -/
theorem Outcome.unique {x y : Option ℕ} (hx : Outcome p e s x) (hy : Outcome p e s y) : x = y := by
  have hdiffer : ∀ {t j}, Reads p e t p.length → t <+: s → Reads p e s j → ¬ j < p.length := by
    intro t j h ht h' hj
    obtain rfl := ht.eq_of_length (ht.length_le.antisymm (h.length_le ht h' List.prefix_rfl))
    exact absurd (h'.unique h) hj.ne
  cases hx with
  | found h ht =>
      cases hy with
      | found h' ht' => rw [(h'.length_le ht' h ht).antisymm (h.length_le ht h' ht')]
      | missed h' hj => exact absurd hj (hdiffer h ht h')
  | missed h hj =>
      cases hy with
      | found h' ht' => exact absurd hj (hdiffer h' ht' h)
      | missed => rfl

/-- As far as a text is read, the state is the whole word where the text ends in it, and nowhere else. -/
def Agrees (p : List α) (e : ℕ → ℕ) (s : List α) : Prop :=
  ∀ t j, t <+: s → Reads p e t j → (j = p.length ↔ p <:+ t)

/-! ## Occurrences -/

/-- There is one first occurrence. -/
theorem IsFirst.unique {x y : Option ℕ} (hx : IsFirst p s x) (hy : IsFirst p s y) : x = y := by
  cases x with
  | none =>
      cases y with
      | none => rfl
      | some k => exact absurd hy.1 (hx k)
  | some k =>
      cases y with
      | none => exact absurd hx.1 (hy k)
      | some k' => rw [IsLeast.unique hx hy]

/-- A beginning of the text that ends in the word. -/
theorem prefix_drop_iff (hp : p ≠ []) :
    p <+: s.drop k ↔ ∃ t, t <+: s ∧ p <:+ t ∧ t.length = k + p.length := by
  constructor
  · rintro ⟨v, hv⟩
    have hlen := congrArg List.length hv
    have hpos := List.length_pos_of_ne_nil hp
    rw [List.length_append, List.length_drop] at hlen
    refine ⟨s.take k ++ p, ⟨v, ?_⟩, List.suffix_append _ _, ?_⟩
    · rw [List.append_assoc, hv, List.take_append_drop]
    · rw [List.length_append, List.length_take, min_eq_left (by omega)]
  · rintro ⟨t, ⟨v, rfl⟩, ⟨w, rfl⟩, hlen⟩
    obtain rfl : w.length = k := by simpa using hlen
    exact ⟨v, by simp⟩

/-- Where the states agree with the text, what is found is the first occurrence. -/
theorem Agrees.isFirst (h : Agrees p e s) (hp : p ≠ []) {x : Option ℕ} (hx : Outcome p e s x) : IsFirst p s x := by
  cases hx with
  | @found t hread hpre =>
      have hsuffix := (h t _ hpre hread).mp rfl
      have hlen := hsuffix.length_le
      refine ⟨(prefix_drop_iff hp).mpr ⟨t, hpre, hsuffix, by omega⟩, fun k hk => ?_⟩
      obtain ⟨t', hpre', hsuffix', hlen'⟩ := (prefix_drop_iff hp).mp hk
      by_contra hlt
      obtain ⟨u, rfl⟩ := List.prefix_of_prefix_length_le hpre' hpre (by omega)
      have hu : u ≠ [] := by
        rintro rfl
        rw [List.append_nil] at hlt
        omega
      obtain ⟨j, hread', hj⟩ := hread.of_append hu
      exact absurd ((h t' j hpre' hread').mpr hsuffix') hj.ne
  | missed hread hj =>
      intro k hk
      obtain ⟨t', ⟨u, rfl⟩, hsuffix', -⟩ := (prefix_drop_iff hp).mp hk
      obtain ⟨j', hread', hj'⟩ : ∃ j', Reads p e t' j' ∧ j' < p.length := by
        by_cases hu : u = []
        · rw [hu, List.append_nil] at hread
          exact ⟨_, hread, hj⟩
        · exact hread.of_append hu
      exact absurd ((h t' j' (List.prefix_append t' u) hread').mpr hsuffix') hj'.ne

/-- **When the first occurrence is found** in a text: the states agree with it. -/
theorem Outcome.isFirst_iff (hshrinks : Shrinks p e) (hp : p ≠ []) {x : Option ℕ} (hx : Outcome p e s x) :
    IsFirst p s x ↔ Agrees p e s := by
  refine ⟨fun hfirst t j hpre hread => ⟨?_, fun hsuffix => ?_⟩, fun h => h.isFirst hp hx⟩
  · rintro rfl
    obtain rfl := hx.unique (.found hread hpre)
    obtain ⟨t', hpre', hsuffix', hlen'⟩ := (prefix_drop_iff hp).mp hfirst.1
    have hle := (hread.le hshrinks).2
    have hsame : t' = t :=
      (List.prefix_of_prefix_length_le hpre' hpre (by omega)).eq_of_length (by omega)
    rwa [← hsame]
  · have hlen := hsuffix.length_le
    have hoccurs : p <+: s.drop (t.length - p.length) :=
      (prefix_drop_iff hp).mpr ⟨t, hpre, hsuffix, by omega⟩
    cases hx with
    | @found t' hread' hpre' =>
        have hearly := hread'.length_le hpre' hread hpre
        have hlate := hfirst.2 hoccurs
        have hle := (hread'.le hshrinks).2
        have hsame : t = t' := (List.prefix_of_prefix_length_le hpre hpre' hearly).eq_of_length (by omega)
        exact hread.unique (hsame ▸ hread')
    | missed => exact absurd hoccurs (hfirst _)

/-- What is found in a beginning of a text is the first occurrence in it if it is that in the text. -/
theorem Outcome.isFirst_of_prefix (hshrinks : Shrinks p e) {x : Option ℕ} (hx : Outcome p e t x) (hpre : t <+: s)
    (hfirst : IsFirst p s x) : IsFirst p t x := by
  have hdrop : ∀ k, p <+: t.drop k → p <+: s.drop k := fun k hk => hk.trans (hpre.drop k)
  cases hx with
  | @found u hread hu =>
      have hle := (hread.le hshrinks).2
      have hlen := hu.length_le
      refine ⟨List.prefix_of_prefix_length_le hfirst.1 (hpre.drop _) ?_, fun k hk => hfirst.2 (hdrop k hk)⟩
      rw [List.length_drop]
      omega
  | missed => exact fun k hk => hfirst k (hdrop k hk)

section
variable [DecidableEq α]

/-- The states are the overlaps. -/
def Right (p : List α) (e : ℕ → ℕ) : Prop :=
  ∀ j < p.length, ∀ c r, Falls p e j c r → r = overlap p (p.take j ++ [c])

/-- The text ends in the word where the overlap is all of it. -/
theorem overlap_eq_length_iff : overlap p t = p.length ↔ p <:+ t := by
  constructor
  · intro h
    have hmem := (isGreatest_overlap p t).1.2
    rwa [h, List.take_length] at hmem
  · intro h
    refine ((isGreatest_overlap p t).1.1).antisymm ((isGreatest_overlap p t).2 ⟨Nat.le_refl _, ?_⟩)
    rwa [List.take_length]

/-- **Entries that are longest borders** up to a state: the state behind a character is the overlap. -/
theorem Falls.eq_overlap (h : Falls p e j c r) (hj : j < p.length)
    (hborder : ∀ i < j, e (i + 1) = border p (i + 1)) : r = overlap p (p.take j ++ [c]) := by
  induction h with
  | hit hc => exact (overlap_hit hc).symm
  | @stay c hne =>
      refine (overlap_eq_iff.mpr ⟨zero_mem_overlaps p _, fun k hk => ?_⟩).symm
      cases k with
      | zero => exact Nat.le_refl 0
      | succ k =>
          obtain ⟨hmem, hget⟩ := succ_mem_overlaps.mp hk
          have hle := (isGreatest_overlap p (p.take 0)).2 hmem
          rw [overlap_take (Nat.zero_le _)] at hle
          obtain rfl := Nat.le_zero.mp hle
          exact absurd hget hne
  | @fall j c r hne _ ih =>
      have hentry := hborder j (Nat.lt_succ_self j)
      have hlt := (isGreatest_border p j).1.1
      rw [ih (by omega) fun i hi => hborder i (by omega), hentry, overlap_miss hj.le hne]

/-- Nothing overlaps with nothing. -/
theorem overlap_nil (p : List α) : overlap p [] = 0 := by
  have hlen := (isGreatest_overlap p []).1.2.length_le
  have hle := (isGreatest_overlap p []).1.1
  rw [List.length_take, List.length_nil] at hlen
  omega

/-- **States that are overlaps** so far stay so where the next one is right; the text is read no further than to
where the word stands. -/
theorem Reads.eq_overlap (hread : Reads p e t j)
    (hstep : ∀ u c r, u ++ [c] <+: t → (∀ v, v <+: u → ¬ p <:+ v) → Falls p e (overlap p u) c r →
      r = overlap p (p.take (overlap p u) ++ [c])) :
    j = overlap p t ∧ ∀ v, v <+: t → v ≠ t → ¬ p <:+ v := by
  induction hread with
  | nil => exact ⟨(overlap_nil p).symm, fun v hv hne => absurd (List.prefix_nil.mp hv) hne⟩
  | @concat t j c r _ hj hfalls ih =>
      obtain ⟨rfl, hbefore⟩ := ih fun u d r hu => hstep u d r (hu.trans (List.prefix_append t [c]))
      have hnone : ∀ v, v <+: t → ¬ p <:+ v := by
        intro v hv
        by_cases heq : v = t
        · rw [heq, ← overlap_eq_length_iff]
          exact hj.ne
        · exact hbefore v hv heq
      refine ⟨?_, fun v hv hne => hnone v ((List.prefix_concat_iff.mp hv).resolve_left hne)⟩
      rw [overlap_concat]
      exact hstep t c r List.prefix_rfl hnone hfalls

/-- With the right table the overlap is read. -/
theorem Right.reads (hright : Right p e) (h : Reads p e t j) : j = overlap p t := by
  refine (h.eq_overlap fun u c r _ hnone hfalls => hright _ ?_ c r hfalls).1
  refine lt_of_le_of_ne (isGreatest_overlap p u).1.1 fun heq => hnone u List.prefix_rfl ?_
  exact overlap_eq_length_iff.mp heq

/-- **A right table** agrees with every text. -/
theorem Right.agrees (hright : Right p e) (s : List α) : Agrees p e s := by
  intro t j _ hread
  rw [hright.reads hread]
  exact overlap_eq_length_iff

/-- **A state below the overlap** misses an occurrence that goes on with the overlap. -/
theorem Reads.exists_missed (hshrinks : Shrinks p e) (hp : p ≠ []) (hread : Reads p e t r) (hlt : r < overlap p t) :
    ∃ x, Outcome p e (t ++ p.drop (overlap p t)) x ∧ ¬ IsFirst p (t ++ p.drop (overlap p t)) x := by
  obtain ⟨hover, -⟩ := isGreatest_overlap p t
  have hsuffix : p <:+ t ++ p.drop (overlap p t) := by
    obtain ⟨w, hw⟩ := hover.2
    refine ⟨w, ?_⟩
    conv_lhs => rw [← List.take_append_drop (overlap p t) p, ← List.append_assoc, hw]
  obtain ⟨x, hx⟩ := exists_outcome hshrinks (t ++ p.drop (overlap p t))
  refine ⟨x, hx, fun hfirst => ?_⟩
  cases hx with
  | @found t' hread' hpre =>
      rcases Nat.lt_or_ge t.length t'.length with hlong | hshort
      · obtain ⟨u, rfl⟩ := List.prefix_of_prefix_length_le (List.prefix_append t _) hpre hlong.le
        have hbound := hread.le_add hshrinks hread'
        have hle := hpre.length_le
        have := hover.1
        simp only [List.length_append, List.length_drop] at hle
        omega
      · obtain ⟨u, rfl⟩ := List.prefix_of_prefix_length_le hpre (List.prefix_append t _) hshort
        by_cases hu : u = []
        · rw [hu, List.append_nil] at hread hlt hover
          have heq := hread.unique hread'
          have := hover.1
          omega
        · obtain ⟨j', hread'', hj'⟩ := hread.of_append hu
          rw [hread''.unique hread'] at hj'
          exact absurd hj' (Nat.lt_irrefl _)
  | missed =>
      refine hfirst (t.length + (p.drop (overlap p t)).length - p.length) ((prefix_drop_iff hp).mpr ?_)
      refine ⟨_, List.prefix_rfl, hsuffix, ?_⟩
      have := hsuffix.length_le
      rw [List.length_append] at this ⊢
      omega

/-- **A state above the overlap** finds what the word goes on with, although the word is not in front. -/
theorem Reads.exists_extra (hshrinks : Shrinks p e) (hp : p ≠ []) (hread : Reads p e t r) (hlt : overlap p t < r) :
    ∃ x, Outcome p e (t ++ p.drop r) x ∧ ¬ IsFirst p (t ++ p.drop r) x := by
  have hr := (hread.le hshrinks).1
  have hread' : Reads p e (t ++ p.drop r) p.length := by
    have happend := hread.append (List.prefix_rfl (l := p.drop r))
    rwa [List.length_drop, Nat.add_sub_cancel' hr] at happend
  refine ⟨_, .found hread' List.prefix_rfl, fun hfirst => ?_⟩
  obtain ⟨t', hpre, hsuffix, hlen'⟩ := (prefix_drop_iff hp).mp hfirst.1
  have hle := (hread'.le hshrinks).2
  obtain rfl := hpre.eq_of_length (by omega)
  obtain ⟨w, hw⟩ := hsuffix
  conv_lhs at hw => rw [← List.take_append_drop r p, ← List.append_assoc]
  have hoverlap : r ∈ overlaps p t := ⟨hr, w, List.append_cancel_right hw⟩
  exact absurd ((isGreatest_overlap p t).2 hoverlap) (by omega)

/-- **Any other table** misses an occurrence, or finds one that is none, in a text of characters of the
word. -/
theorem exists_wrong (hshrinks : Shrinks p e) (h : ¬ Right p e) : ∃ s x, Outcome p e s x ∧ ¬ IsFirst p s x ∧
    (∀ c ∈ s, c ∈ p) ∧ s.length ≤ 2 * p.length := by
  unfold Right at h
  push Not at h
  obtain ⟨j, hj, c, r, hfalls, hne⟩ := h
  have hp : p ≠ [] := List.ne_nil_of_length_pos (Nat.zero_lt_of_lt hj)
  have hc : c ∈ p := by
    by_contra hc
    exact hne ((hfalls.of_not_mem hc).trans (overlap_of_not_mem hc _).symm)
  have hread : Reads p e (p.take j ++ [c]) r := by
    have hprefix := Reads.append (p := p) (e := e) .nil (List.take_prefix j p)
    rw [List.nil_append, Nat.zero_add, List.length_take, min_eq_left hj.le] at hprefix
    exact hprefix.concat hj hfalls
  -- both texts go on with characters of the word
  have hrest : ∀ k, (∀ d ∈ p.take j ++ [c] ++ p.drop k, d ∈ p) ∧
      (p.take j ++ [c] ++ p.drop k).length ≤ 2 * p.length := by
    intro k
    constructor
    · simp only [List.forall_mem_append, List.forall_mem_singleton]
      exact ⟨⟨fun d => List.mem_of_mem_take, hc⟩, fun d => List.mem_of_mem_drop⟩
    · simp only [List.length_append, List.length_take, List.length_singleton, List.length_drop]
      omega
  rcases lt_or_gt_of_ne hne with hlt | hlt
  · obtain ⟨x, hx, hfirst⟩ := hread.exists_missed hshrinks hp hlt
    exact ⟨_, x, hx, hfirst, hrest _⟩
  · obtain ⟨x, hx, hfirst⟩ := hread.exists_extra hshrinks hp hlt
    exact ⟨_, x, hx, hfirst, hrest _⟩

end

end Asenal.Lib.Fallback
