import Asenal.Sat.Reader

/-!
# Texts of every kind, and a second text

The reader loops until the end of the file is noticed. A read that fails in front of the end leaves the
stream where it is, and the reader runs forever. The literal that is read last is still there when the next
formula is read.

* `lastLiteral` — the literal that is left behind a text, if its reads come to the end of it.
* `readClauses_returns_iff` — the reader comes to an end exactly on such a text; `readClauses_word` — a
  text with a word.
* `secondText_iff` — when a second text is read as if it were the first one; `secondText_same`,
  `secondText_pending` — two texts that are, and two that are not.
-/

namespace Asenal.Sat

open Asenal.Lib.Text

/-! ## The reads of a text -/

/-- What a read makes of an integer, or of text that is none: the literal, and whether it fails. -/
def intRead : Option ℤ → Int32 × Bool
  | none => (0, true)
  | some v =>
      if v < Int32.minValue.toInt then (Int32.minValue, true)
      else if Int32.maxValue.toInt < v then (Int32.maxValue, true)
      else (Int32.ofInt v, false)

/-- A sign is read or not. -/
theorem length_scanSign_le (s : Bytes) : (scanSign s).2.length ≤ s.length := by
  unfold scanSign
  split
  · exact Nat.le_succ _
  · exact Nat.le_succ _
  · exact Nat.le_refl _

/-- An integer takes at least one byte. -/
theorem length_scanInt_lt {s : Bytes} (h : (scanInt s).1 ≠ none) : (scanInt s).2.length < s.length := by
  have hsign := length_scanSign_le s
  have hparts := congrArg List.length
    (List.takeWhile_append_dropWhile (p := isDigit) (l := (scanSign s).2))
  rw [List.length_append] at hparts
  have hdigits : (scanSign s).2.takeWhile isDigit ≠ [] := fun hnone => h (if_pos hnone)
  have hpos := List.length_pos_of_ne_nil hdigits
  show ((scanSign s).2.dropWhile isDigit).length < s.length
  omega

theorem length_skipSpace_le (s : Bytes) : (skipSpace s).length ≤ s.length :=
  (List.dropWhile_suffix _).length_le

/-- The literal that is left behind the reads of a text; `none` if one of them fails in front of the end of
the text. -/
def lastLiteral (s : Bytes) (lit : Int32) : Option Int32 :=
  if skipSpace s = [] then some lit
  else if (scanInt (skipSpace s)).2 = [] then some (intRead (scanInt (skipSpace s)).1).1
  else if _h : (intRead (scanInt (skipSpace s)).1).2 = true then none
  else lastLiteral (scanInt (skipSpace s)).2 (intRead (scanInt (skipSpace s)).1).1
termination_by s.length
decreasing_by
  have hsome : (scanInt (skipSpace s)).1 ≠ none := fun hnone => _h (by rw [hnone]; rfl)
  exact Nat.lt_of_lt_of_le (length_scanInt_lt hsome) (length_skipSpace_le s)

/-- The same for the text of a stream. -/
def IStream.lastLiteral (is : IStream) (lit : Int32) : Option Int32 :=
  if is.eofbit then some lit else if is.failbit then none else Sat.lastLiteral is.rest lit

variable {is : IStream} {lit : Int32} {c : ClauseImpl} {f : FormulaImpl} {junk : ℕ → Int32}

/-- A read from a stream that is good. -/
theorem getInt_of_good (he : is.eofbit = false) (hf : is.failbit = false) (lit : Int32) :
    is.getInt lit =
      if skipSpace is.rest = [] then (lit, ⟨[], true, true⟩)
      else
        ((intRead (scanInt (skipSpace is.rest)).1).1,
          ⟨(scanInt (skipSpace is.rest)).2, (scanInt (skipSpace is.rest)).2.isEmpty,
            (intRead (scanInt (skipSpace is.rest)).1).2⟩) := by
  unfold IStream.getInt
  rw [he, hf, Bool.or_self, if_neg Bool.false_ne_true]
  apply if_congr Iff.rfl rfl
  generalize scanInt (skipSpace is.rest) = r
  obtain ⟨v, s⟩ := r
  cases v with
  | none => rfl
  | some v =>
      unfold intRead
      dsimp only
      split_ifs <;> rfl

/-- A read from a stream that is not good. -/
theorem getInt_of_not_good (h : (is.eofbit || is.failbit) = true) (lit : Int32) :
    is.getInt lit = (lit, { is with failbit := true }) := if_pos h

/-- **A read** does not change the literal that is left at the end. -/
theorem lastLiteral_getInt (is : IStream) (lit : Int32) :
    (is.getInt lit).2.lastLiteral (is.getInt lit).1 = is.lastLiteral lit := by
  cases he : is.eofbit with
  | true =>
      rw [getInt_of_not_good (by rw [he, Bool.true_or])]
      unfold IStream.lastLiteral
      dsimp only
      rw [if_pos he, if_pos he]
  | false =>
      cases hf : is.failbit with
      | true =>
          rw [getInt_of_not_good (by rw [hf, Bool.or_true])]
          unfold IStream.lastLiteral
          dsimp only
          rw [he, hf]
      | false =>
          rw [getInt_of_good he hf]
          conv_rhs => rw [IStream.lastLiteral, he, hf, if_neg Bool.false_ne_true,
            if_neg Bool.false_ne_true, Sat.lastLiteral]
          by_cases hblank : skipSpace is.rest = []
          · rw [if_pos hblank, if_pos hblank]
            rfl
          · rw [if_neg hblank, if_neg hblank]
            unfold IStream.lastLiteral
            dsimp only
            apply if_congr List.isEmpty_iff rfl
            split_ifs <;> rfl

/-- What is left to read: nothing behind the end of the file. -/
def IStream.left (is : IStream) : ℕ := if is.eofbit then 0 else is.rest.length + 1

/-- **A read** leaves less, unless it gets stuck. -/
theorem left_getInt_lt (he : is.eofbit = false) (h : is.lastLiteral lit ≠ none) :
    (is.getInt lit).2.left < is.left := by
  have hf : is.failbit = false := by
    by_contra hfail
    rw [Bool.not_eq_false] at hfail
    rw [IStream.lastLiteral, he, hfail] at h
    exact h rfl
  rw [← lastLiteral_getInt, getInt_of_good he hf] at h
  have hleft : is.left = is.rest.length + 1 := by rw [IStream.left, he, if_neg Bool.false_ne_true]
  rw [getInt_of_good he hf, hleft]
  by_cases hblank : skipSpace is.rest = []
  · rw [if_pos hblank]
    exact Nat.succ_pos _
  · rw [if_neg hblank] at h ⊢
    unfold IStream.lastLiteral at h
    unfold IStream.left
    dsimp only at h ⊢
    split_ifs with hend
    · exact Nat.succ_pos _
    · rw [if_neg hend] at h
      have hsome : (scanInt (skipSpace is.rest)).1 ≠ none := by
        intro hnone
        rw [hnone] at h
        exact h rfl
      have hlt := length_scanInt_lt hsome
      have hle := length_skipSpace_le is.rest
      omega

/-- At the end of the file nothing is read. -/
theorem left_getInt_le (h : is.lastLiteral lit ≠ none) : (is.getInt lit).2.left ≤ is.left := by
  cases he : is.eofbit with
  | true =>
      rw [getInt_of_not_good (by rw [he, Bool.true_or]), IStream.left, IStream.left]
  | false => exact (left_getInt_lt he h).le

/-! ## The loops -/

/-- The inner loop does not change the literal that is left at the end. -/
theorem lastLiteral_readLiterals {fuel : ℕ} {r : ClauseImpl × IStream × Int32}
    (h : readLiterals fuel is lit c = some r) : r.2.1.lastLiteral r.2.2 = is.lastLiteral lit := by
  induction fuel generalizing is lit c with
  | zero => exact absurd h.symm (Option.some_ne_none r)
  | succ n ih =>
      rw [readLiterals] at h
      dsimp only at h
      split_ifs at h with heof hzero
      · rw [← Option.some.inj h]
      · rw [← Option.some.inj h]
        exact lastLiteral_getInt is lit
      · exact (ih h).trans (lastLiteral_getInt is lit)

theorem lastLiteral_readClause {fuel : ℕ} {r : ClauseImpl × IStream × Int32}
    (h : readClause fuel is lit c = some r) : r.2.1.lastLiteral r.2.2 = is.lastLiteral lit := by
  unfold readClause at h
  dsimp only at h
  split at h
  · exact absurd h.symm (Option.some_ne_none r)
  · rename_i c' is' lit' hlits
    rw [← Option.some.inj h]
    exact (lastLiteral_getInt is' lit').trans (lastLiteral_readLiterals hlits)

/-- **When the reader comes to its end**, its literal is the one that is left. -/
theorem lastLiteral_of_reads {r : FormulaImpl × IStream × Int32} (h : Reads junk is lit f r) :
    is.lastLiteral lit = some r.2.2 := by
  obtain ⟨fuel, h⟩ := h
  induction fuel generalizing is lit f with
  | zero => exact absurd h.symm (Option.some_ne_none r)
  | succ n ih =>
      rw [readClauses] at h
      split_ifs at h with heof
      · rw [← Option.some.inj h]
        exact if_pos heof
      · split at h
        · exact absurd h.symm (Option.some_ne_none r)
        · rename_i c' is' lit' hclause
          rw [← ih h]
          exact (lastLiteral_readClause hclause).symm

/-- The inner loop comes to its end, and has read something if it could. -/
theorem readLiterals_returns {n : ℕ} (hn : is.left ≤ n) (h : is.lastLiteral lit ≠ none) (c : ClauseImpl) :
    ∃ r, readLiterals (n + 1) is lit c = some r ∧ r.2.1.left ≤ is.left ∧
      (is.eofbit = false → r.2.1.left < is.left) := by
  induction n generalizing is lit c with
  | zero =>
      have heof : is.eofbit = true := by
        by_contra hnot
        rw [IStream.left, if_neg hnot] at hn
        omega
      refine ⟨(c, is, lit), if_pos heof, Nat.le_refl _, fun hfalse => ?_⟩
      rw [heof] at hfalse
      cases hfalse
  | succ n ih =>
      rw [readLiterals]
      dsimp only
      cases heof : is.eofbit with
      | true => exact ⟨_, if_pos rfl, Nat.le_refl _, fun hfalse => Bool.noConfusion hfalse⟩
      | false =>
          rw [if_neg Bool.false_ne_true]
          have hlt := left_getInt_lt heof h
          split_ifs with hzero
          · exact ⟨_, rfl, hlt.le, fun _ => hlt⟩
          · obtain ⟨r, hr, hle, -⟩ := @ih (is.getInt lit).2 (is.getInt lit).1 (by omega)
              (by rwa [lastLiteral_getInt]) (c.addLiteral (is.getInt lit).1)
            exact ⟨r, hr, by omega, fun _ => by omega⟩

/-- **The reader comes to its end** if no read gets stuck. -/
theorem reads_of_lastLiteral (junk : ℕ → Int32) (h : is.lastLiteral lit ≠ none) (f : FormulaImpl) :
    ∃ r, Reads junk is lit f r := by
  induction hn : is.left using Nat.strong_induction_on generalizing is lit f with
  | _ n ih =>
      cases heof : is.eofbit with
      | true => exact ⟨_, reads_of_eof junk heof lit f⟩
      | false =>
          obtain ⟨⟨c, is', lit'⟩, hlits, -, hlt⟩ := readLiterals_returns (Nat.le_refl is.left) h
            (if lit ≠ 0 then (ClauseImpl.mk [] (junk f.numClauses)).addLiteral lit
              else ⟨[], junk f.numClauses⟩)
          have hclause : readClause (is.left + 1) is lit ⟨[], junk f.numClauses⟩ =
              some (c, (is'.getInt lit').2, (is'.getInt lit').1) := by
            unfold readClause
            dsimp only
            rw [hlits]
          have hsame := lastLiteral_readLiterals hlits
          have hleft : is'.lastLiteral lit' ≠ none := by
            rw [hsame]
            exact h
          have hlower := Nat.lt_of_le_of_lt (left_getInt_le hleft) (hlt heof)
          obtain ⟨r, hr⟩ := ih _ (hn ▸ hlower) (by rwa [lastLiteral_getInt]) _ rfl
          exact ⟨r, reads_of_readClause heof hclause hr⟩

/-! ## Any text -/

/-- **The reader comes to an end** exactly on a text whose reads do not fail in front of its end. -/
theorem readClauses_returns_iff (junk : ℕ → Int32) (s : Bytes) (lit : Int32) (f : FormulaImpl) :
    (∃ fuel r, readClauses junk fuel (IStream.ofText s) lit f = some r) ↔ lastLiteral s lit ≠ none := by
  constructor
  · rintro ⟨fuel, r, hr⟩ hnone
    have hlast := lastLiteral_of_reads ⟨fuel, hr⟩
    exact Option.some_ne_none _ (hlast.symm.trans hnone)
  · intro h
    obtain ⟨r, fuel, hr⟩ := reads_of_lastLiteral junk (show (IStream.ofText s).lastLiteral lit ≠ none from h) f
    exact ⟨fuel, r, hr⟩

/-- A word in front of the end: the reader runs forever. -/
theorem readClauses_word :
    ¬ ∃ fuel r, readClauses (fun _ => 0) fuel (IStream.ofText (ascii "1 x 0")) 0 FormulaImpl.new = some r := by
  rintro ⟨fuel, r, hr⟩
  have hlast := lastLiteral_of_reads ⟨fuel, hr⟩
  have hnone : (IStream.ofText (ascii "1 x 0")).lastLiteral 0 = none := by decide +kernel
  exact Option.some_ne_none _ (hlast.symm.trans hnone)

/-! ## A second text -/

/-- The literals that the inner loop adds do not depend on those that are there. -/
theorem readLiterals_added {fuel : ℕ} {c' : ClauseImpl} {is' : IStream} {lit' : Int32}
    (h : readLiterals fuel is lit c = some (c', is', lit')) (d : ClauseImpl) :
    ∃ d' added, readLiterals fuel is lit d = some (d', is', lit') ∧
      c'.literalList = c.literalList ++ added ∧ d'.literalList = d.literalList ++ added := by
  induction fuel generalizing is lit c d with
  | zero => exact absurd h.symm (Option.some_ne_none _)
  | succ n ih =>
      rw [readLiterals] at h ⊢
      dsimp only at h ⊢
      split_ifs at h ⊢ with heof hzero
      · obtain ⟨rfl, rfl, rfl⟩ : c = c' ∧ is = is' ∧ lit = lit' := by simpa using h
        exact ⟨d, [], rfl, (List.append_nil _).symm, (List.append_nil _).symm⟩
      · obtain ⟨rfl, rfl, rfl⟩ : c = c' ∧ (is.getInt lit).2 = is' ∧ (is.getInt lit).1 = lit' := by
          simpa using h
        exact ⟨d, [], rfl, (List.append_nil _).symm, (List.append_nil _).symm⟩
      · obtain ⟨d', added, hd, hc, hd'⟩ := ih h (d.addLiteral (is.getInt lit).1)
        rw [ClauseImpl.addLiteral_literalList, List.append_assoc] at hc hd'
        exact ⟨d', _, hd, hc, hd'⟩

/-- What is added to a formula stays at its end. -/
theorem clauseList_prefix {r : FormulaImpl × IStream × Int32} (h : Reads junk is lit f r) :
    f.clauseList <+: r.1.clauseList := by
  obtain ⟨fuel, h⟩ := h
  induction fuel generalizing is lit f with
  | zero => exact absurd h.symm (Option.some_ne_none r)
  | succ n ih =>
      rw [readClauses] at h
      split_ifs at h with heof
      · rw [← Option.some.inj h]
      · split at h
        · exact absurd h.symm (Option.some_ne_none r)
        · exact (List.prefix_append _ _).trans (ih h)

/-- The first clause of a formula is what the inner loop makes of the pending literal. -/
theorem exists_firstClause {t : Bytes} {r : FormulaImpl × IStream × Int32}
    (h : Reads junk (IStream.ofText t) lit FormulaImpl.new r) :
    ∃ n c is' lit', readLiterals n (IStream.ofText t) lit
        (if lit ≠ 0 then (ClauseImpl.mk [] (junk 0)).addLiteral lit else ⟨[], junk 0⟩) =
          some (c, is', lit') ∧
      r.1.clauseList.head? = some c := by
  obtain ⟨fuel, h⟩ := h
  cases fuel with
  | zero => exact absurd h.symm (Option.some_ne_none r)
  | succ n =>
      rw [readClauses, if_neg (show ¬ (IStream.ofText t).eofbit = true from Bool.false_ne_true)] at h
      split at h
      · exact absurd h.symm (Option.some_ne_none r)
      · rename_i c is' lit' hclause
        have hfirst := clauseList_prefix ⟨n, h⟩
        unfold readClause at hclause
        dsimp only at hclause
        split at hclause
        · exact absurd hclause.symm (Option.some_ne_none _)
        · rename_i c' is'' lit'' hlits
          obtain rfl : c' = c := (Prod.mk.inj (Option.some.inj hclause)).1
          obtain ⟨rest, hrest⟩ := hfirst
          refine ⟨n, c', is'', lit'', hlits, ?_⟩
          rw [← hrest]
          rfl

/-- **A pending literal** changes the first clause. -/
theorem firstClause_ne {t : Bytes} {j : Int32} (hlit : lit ≠ 0) {n : ℕ} {c₁ c₂ : ClauseImpl}
    {r₁ r₂ : IStream × Int32}
    (h₁ : readLiterals n (IStream.ofText t) lit ((ClauseImpl.mk [] j).addLiteral lit) = some (c₁, r₁))
    (h₂ : readLiterals n (IStream.ofText t) 0 ⟨[], j⟩ = some (c₂, r₂)) : c₁ ≠ c₂ := by
  have heof : ¬ (IStream.ofText t).eofbit = true := Bool.false_ne_true
  intro heq
  have hlen := congrArg (fun c => c.literalList.length) heq
  cases n with
  | zero => exact absurd h₁.symm (Option.some_ne_none _)
  | succ n =>
      rw [readLiterals, if_neg heof] at h₁ h₂
      dsimp only at h₁ h₂
      rw [getInt_of_good rfl rfl] at h₁ h₂
      by_cases hblank : skipSpace (IStream.ofText t).rest = []
      · -- the pending literal is not read over, and it is added once more
        rw [if_pos hblank] at h₁ h₂
        dsimp only at h₁ h₂
        rw [if_neg hlit] at h₁
        rw [if_pos rfl] at h₂
        obtain ⟨-, added, -, hc, -⟩ := readLiterals_added h₁ c₁
        obtain rfl : ClauseImpl.mk [] j = c₂ := (Prod.mk.inj (Option.some.inj h₂)).1
        rw [ClauseImpl.addLiteral_literalList, ClauseImpl.addLiteral_literalList] at hc
        rw [hc] at hlen
        simp at hlen
      · rw [if_neg hblank] at h₁ h₂
        dsimp only at h₁ h₂
        split_ifs at h₁ h₂ with hzero
        · obtain rfl := (Prod.mk.inj (Option.some.inj h₁)).1
          obtain rfl := (Prod.mk.inj (Option.some.inj h₂)).1
          simp at hlen
        · obtain ⟨d, added, hd, hc, hd'⟩ := readLiterals_added h₁ ((ClauseImpl.mk [] j).addLiteral _)
          rw [h₂] at hd
          obtain rfl := (Prod.mk.inj (Option.some.inj hd)).1
          rw [hc, hd'] at hlen
          simp at hlen

/-- A pending literal changes the formula. -/
theorem reads_ne {t : Bytes} (hlit : lit ≠ 0) {r₁ r₂ : FormulaImpl × IStream × Int32}
    (h₁ : Reads junk (IStream.ofText t) lit FormulaImpl.new r₁)
    (h₂ : Reads junk (IStream.ofText t) 0 FormulaImpl.new r₂) : r₁.1 ≠ r₂.1 := by
  obtain ⟨n₁, c₁, is₁, lit₁, hlits₁, hfirst₁⟩ := exists_firstClause h₁
  obtain ⟨n₂, c₂, is₂, lit₂, hlits₂, hfirst₂⟩ := exists_firstClause h₂
  rw [if_pos hlit] at hlits₁
  rw [if_neg (not_not.mpr rfl)] at hlits₂
  intro heq
  rw [heq, hfirst₂] at hfirst₁
  exact firstClause_ne hlit (readLiterals_mono (le_max_left n₁ n₂) hlits₁)
    (readLiterals_mono (le_max_right n₁ n₂) hlits₂) (Option.some.inj hfirst₁).symm

/-- Whether a read gets stuck does not depend on the literal before the first one. -/
theorem lastLiteral_none {s : Bytes} (h : lastLiteral s lit = none) (lit' : Int32) :
    lastLiteral s lit' = none := by
  rw [lastLiteral] at h ⊢
  by_cases hblank : skipSpace s = []
  · rw [if_pos hblank] at h
    exact absurd h (Option.some_ne_none lit)
  · rwa [if_neg hblank] at h ⊢

/-- **A second text** is read behind a first one as it is in a fresh process exactly when the first one left
no literal, or the second one is never read to its end. -/
theorem secondText_iff (junk junk' : ℕ → Int32) (t₁ t₂ : Bytes) {f₁ : FormulaImpl} {is₁ : IStream}
    {lit₁ : Int32} (h : Reads junk (IStream.ofText t₁) 0 FormulaImpl.new (f₁, is₁, lit₁)) :
    (∀ f, (∃ is lit, Reads junk' (IStream.ofText t₂) lit₁ FormulaImpl.new (f, is, lit)) ↔
        ∃ is lit, Reads junk' (IStream.ofText t₂) 0 FormulaImpl.new (f, is, lit)) ↔
      lastLiteral t₁ 0 = some 0 ∨ lastLiteral t₂ 0 = none := by
  have hleft : lastLiteral t₁ 0 = some lit₁ := lastLiteral_of_reads h
  rw [hleft, Option.some_inj]
  constructor
  · intro hsame
    by_contra hnot
    obtain ⟨hlit, hread⟩ := not_or.mp hnot
    obtain ⟨⟨f, is, lit⟩, hfresh⟩ := reads_of_lastLiteral junk'
      (show (IStream.ofText t₂).lastLiteral 0 ≠ none from hread) FormulaImpl.new
    obtain ⟨is', lit', hsecond⟩ := (hsame f).mpr ⟨is, lit, hfresh⟩
    exact reads_ne hlit hsecond hfresh rfl
  · rintro (rfl | hnone) f
    · exact Iff.rfl
    · have hnever : ∀ lit, ¬ ∃ is l, Reads junk' (IStream.ofText t₂) lit FormulaImpl.new (f, is, l) := by
        rintro lit ⟨is, l, hr⟩
        exact Option.some_ne_none l ((lastLiteral_of_reads hr).symm.trans (lastLiteral_none hnone lit))
      exact iff_of_false (hnever lit₁) (hnever 0)

/-- The first text ends with its 0, and the second one is read as it is. -/
theorem secondText_same :
    ∃ is₁ lit₁ is lit,
      Reads (fun _ => 0) (IStream.ofText (ascii "1 0")) 0 FormulaImpl.new (⟨1, [⟨[1], 1⟩]⟩, is₁, lit₁) ∧
        Reads (fun _ => 0) (IStream.ofText (ascii "2 -1 0")) lit₁ FormulaImpl.new
          (⟨2, [⟨[2, -1], 2⟩]⟩, is, lit) := by
  have hfirst : Reads (fun _ => 0) (IStream.ofText (ascii "1 0")) 0 FormulaImpl.new
      (⟨1, [⟨[1], 1⟩]⟩, ⟨[], true, true⟩, 0) := ⟨10, by decide +kernel⟩
  have hsecond : Reads (fun _ => 0) (IStream.ofText (ascii "2 -1 0")) 0 FormulaImpl.new
      (⟨2, [⟨[2, -1], 2⟩]⟩, ⟨[], true, true⟩, 0) := ⟨10, by decide +kernel⟩
  have hsame := (secondText_iff (fun _ => 0) (fun _ => 0) (ascii "1 0") (ascii "2 -1 0") hfirst).mpr
    (Or.inl (by decide +kernel))
  obtain ⟨is, lit, hread⟩ := (hsame _).mpr ⟨_, _, hsecond⟩
  exact ⟨_, _, is, lit, hfirst, hread⟩

/-- The first text ends without a 0: its last literal is the first one of the second formula. -/
theorem secondText_pending :
    ∃ is₁ lit₁ is is' lit,
      Reads (fun _ => 0) (IStream.ofText (ascii "1 2")) 0 FormulaImpl.new (⟨2, [⟨[1, 2], 2⟩]⟩, is₁, lit₁) ∧
        Reads (fun _ => 0) (IStream.ofText (ascii "3 0")) lit₁ FormulaImpl.new
          (⟨3, [⟨[2, 3], 3⟩]⟩, is, lit) ∧
        Reads (fun _ => 0) (IStream.ofText (ascii "3 0")) 0 FormulaImpl.new
          (⟨3, [⟨[3], 3⟩]⟩, is', lit) :=
  ⟨⟨[], true, true⟩, 2, ⟨[], true, true⟩, ⟨[], true, true⟩, 0, ⟨10, by decide +kernel⟩,
    ⟨10, by decide +kernel⟩, ⟨10, by decide +kernel⟩⟩

end Asenal.Sat
