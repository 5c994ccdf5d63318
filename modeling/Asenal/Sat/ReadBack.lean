import Asenal.Sat.Reader

/-!
# What the formula reader reads back

The results about `Formula::readClauses` on texts of integers.

* `readClauses_readBack` — a text of non-empty clauses, each closed by a `0`, is read back
  exactly.
* `readClauses_count_iff` — when the reader builds as many clauses as the text has `0`s: there
  is a first clause, all integers are `int`s, no clause strictly between the first and the last
  is empty, and an empty last clause has white space behind it.
* `readClauses_diverges` — an integer that is no `int` makes the reader run forever.
-/

namespace Asenal.Sat

open Asenal.Lib.Text

/-! ## Non-empty clauses -/

/-- Without empty clauses nothing is lost behind the first one. -/
theorem afterLookahead_of_ne_nil (t : Bool) {cs : List (List Int32)} (h : ∀ c ∈ cs, c ≠ []) :
    afterLookahead t cs = cs := by
  induction cs with
  | nil => rfl
  | cons c cs ih =>
      obtain ⟨l, c, rfl⟩ := List.exists_cons_of_ne_nil (h c List.mem_cons_self)
      rw [afterLookahead, ih fun d hd => h d (List.mem_cons_of_mem _ hd)]

/-- **Non-empty clauses are read back exactly**: whatever white space separates the integers of
the text, and whether or not any stands at its end. -/
theorem readClauses_readBack (junk : ℕ → Int32) (cs : List (List Int32)) (s : Bytes)
    (hne : cs ≠ []) (hcs : ∀ c ∈ cs, c ≠ [] ∧ 0 ∉ c) (hs : ints s = some (flat cs)) :
    ∃ f is, Reads junk (IStream.ofText s) 0 FormulaImpl.new (f, is, 0) ∧ f.lits = cs := by
  obtain ⟨f, is, hr, hf⟩ := readClauses_spec junk (fun c hc => (hcs c hc).2) hs
  refine ⟨f, is, hr, hf.trans ?_⟩
  obtain ⟨c, cs, rfl⟩ := List.exists_cons_of_ne_nil hne
  rw [readBack, afterLookahead_of_ne_nil _ fun d hd => (hcs d (List.mem_cons_of_mem _ hd)).1]

/-- The text `1 -2 0`, newline, `3 0`. -/
theorem readClauses_readBack_two :
    ∃ f is, Reads (fun _ => 0) (IStream.ofText (ascii "1 -2 0\n3 0")) 0 FormulaImpl.new (f, is, 0) ∧
      f.lits = [[1, -2], [3]] :=
  readClauses_readBack (fun _ => 0) [[1, -2], [3]] (ascii "1 -2 0\n3 0") (by decide) (by decide)
    (by decide +kernel)

/-! ## Counting clauses -/

/-- The clauses of a sequence of integers: the runs of integers that are closed by a `0`. -/
def clausesOf : List ℤ → List (List ℤ)
  | [] => []
  | v :: vs =>
      if v = 0 then [] :: clausesOf vs
      else
        match clausesOf vs with
        | [] => []
        | c :: cs => (v :: c) :: cs

/-- Every clause behind the first one survives the look-ahead: none strictly between the first
and the last is empty, and an empty last one has white space behind it. -/
def Survive (t : Bool) (cs : List (List ℤ)) : Prop :=
  (∀ c ∈ cs.dropLast, c ≠ []) ∧ (cs.getLast? = some [] → t = true)

/-- The integers of a clause and its `0`, in front of others, are one clause more. -/
theorem clausesOf_append (c : List Int32) (hc : 0 ∉ c) (vs : List ℤ) :
    clausesOf (c.map Int32.toInt ++ 0 :: vs) = c.map Int32.toInt :: clausesOf vs := by
  induction c with
  | nil => simp [clausesOf]
  | cons l c ih =>
      have hl : l.toInt ≠ 0 := by
        intro e
        apply hc
        rw [show l = 0 from Int32.toInt_inj.mp e]
        exact List.mem_cons_self
      rw [List.map_cons, List.cons_append, clausesOf, if_neg hl,
        ih fun h => hc (List.mem_cons_of_mem l h)]

/-- The clauses of `flat cs` are those of `cs`. -/
theorem clausesOf_flat {cs : List (List Int32)} (h : ∀ c ∈ cs, 0 ∉ c) :
    clausesOf (flat cs) = cs.map fun c => c.map Int32.toInt := by
  induction cs with
  | nil => rfl
  | cons c cs ih =>
      rw [flat_cons, clausesOf_append c (h c List.mem_cons_self),
        ih fun d hd => h d (List.mem_cons_of_mem _ hd), List.map_cons]

/-- `flat cs` has one `0` for each clause. -/
theorem count_flat {cs : List (List Int32)} (h : ∀ c ∈ cs, 0 ∉ c) :
    (flat cs).count 0 = cs.length := by
  induction cs with
  | nil => rfl
  | cons c cs ih =>
      have hc : (0 : ℤ) ∉ c.map Int32.toInt := by
        intro hmem
        obtain ⟨l, hl, h0⟩ := List.mem_map.mp hmem
        rw [show l = 0 from Int32.toInt_inj.mp h0] at hl
        exact h c List.mem_cons_self hl
      rw [flat_cons, List.count_append, List.count_eq_zero.mpr hc, List.count_cons_self,
        ih fun d hd => h d (List.mem_cons_of_mem _ hd), List.length_cons, Nat.zero_add]

/-- A sequence of `int`s that ends with `0` is made of clauses. -/
theorem exists_flat {vs : List ℤ} (hfit : ∀ v ∈ vs, FitsInt v)
    (hlast : vs = [] ∨ vs.getLast? = some 0) :
    ∃ cs : List (List Int32), (∀ c ∈ cs, 0 ∉ c) ∧ vs = flat cs := by
  induction vs with
  | nil => exact ⟨[], by simp, rfl⟩
  | cons v vs ih =>
      have htail : vs = [] ∨ vs.getLast? = some 0 := by
        cases vs with
        | nil => exact Or.inl rfl
        | cons w vs => exact Or.inr (by simpa using hlast)
      obtain ⟨cs, hcs, rfl⟩ := ih (fun w hw => hfit w (List.mem_cons_of_mem v hw)) htail
      have hv := hfit v List.mem_cons_self
      by_cases h0 : v = 0
      · exact ⟨[] :: cs, by simpa using hcs, by rw [flat_cons, h0]; rfl⟩
      · cases cs with
        | nil => simp [flat, h0] at hlast
        | cons c cs =>
            have hof : (Int32.ofInt v).toInt = v := by
              rw [Int32.toInt_ofInt_of_le]
              · simpa using hv.1
              · have := hv.2
                rw [show Int32.maxValue.toInt = 2 ^ 31 - 1 by rfl] at this
                omega
            refine ⟨(Int32.ofInt v :: c) :: cs, ?_, by simp [flat_cons, hof]⟩
            intro d hd
            rcases List.mem_cons.mp hd with rfl | hd
            · intro hmem
              rcases List.mem_cons.mp hmem with e | hmem
              · apply h0
                rw [← hof, ← e]
                rfl
              · exact hcs c List.mem_cons_self hmem
            · exact hcs d (List.mem_cons_of_mem _ hd)

/-- The look-ahead never adds clauses. -/
theorem length_afterLookahead_le (t : Bool) (cs : List (List Int32)) :
    (afterLookahead t cs).length ≤ cs.length := by
  induction cs using afterLookahead.induct t with
  | case1 => exact Nat.le_refl _
  | case2 ht => simp [afterLookahead, ht]
  | case3 ht => simp [afterLookahead, ht]
  | case4 c cs ih =>
      simp only [afterLookahead, List.length_cons]
      omega
  | case5 l c cs ih =>
      simp only [afterLookahead, List.length_cons]
      omega

/-- The look-ahead loses no clause iff all of them survive it. -/
theorem length_afterLookahead_eq_iff (t : Bool) (cs : List (List Int32)) :
    (afterLookahead t cs).length = cs.length ↔
      Survive t (cs.map fun c => c.map Int32.toInt) := by
  induction cs using afterLookahead.induct t with
  | case1 => simp [afterLookahead, Survive]
  | case2 ht => simp [afterLookahead, Survive, ht]
  | case3 ht => simp [afterLookahead, Survive, ht]
  | case4 c cs ih =>
      have hle := length_afterLookahead_le t cs
      have hlost : (afterLookahead t ([] :: c :: cs)).length ≠ ([] :: c :: cs).length := by
        simp only [afterLookahead, List.length_cons]
        omega
      constructor
      · intro h
        exact absurd h hlost
      · intro h
        exact absurd rfl (h.1 [] (by simp))
  | case5 l c cs ih =>
      have hlen : (afterLookahead t ((l :: c) :: cs)).length = ((l :: c) :: cs).length ↔
          (afterLookahead t cs).length = cs.length := by
        simp [afterLookahead]
      rw [hlen, ih]
      cases cs with
      | nil => simp [Survive]
      | cons d cs => simp [Survive]

/-! ## Integers that are no `int` -/

/-- A failed stream that has not noticed the end of the file keeps the inner loop running. -/
theorem readLiterals_stuck (fuel : ℕ) {is : IStream} {lit : Int32} (hf : is.failbit = true)
    (he : is.eofbit = false) (hl : lit ≠ 0) (c : ClauseImpl) :
    readLiterals fuel is lit c = none := by
  induction fuel generalizing is c with
  | zero => rfl
  | succ n ih =>
      have hself : { is with failbit := true } = is := by
        cases is
        simp_all
      have hget : is.getInt lit = (lit, is) := by
        rw [IStream.getInt, if_pos (by rw [hf, Bool.or_true]), hself]
      rw [readLiterals, he, if_neg Bool.false_ne_true, hget]
      simp only
      rw [if_neg hl]
      exact ih hf he _

/-- A failed stream that has not noticed the end of the file keeps the reader running. -/
theorem readClauses_stuck (junk : ℕ → Int32) (fuel : ℕ) {is : IStream} {lit : Int32}
    (hf : is.failbit = true) (he : is.eofbit = false) (hl : lit ≠ 0) (f : FormulaImpl) :
    readClauses junk fuel is lit f = none := by
  cases fuel with
  | zero => rfl
  | succ n => simp [readClauses, readClause, he, readLiterals_stuck n hf he hl]

/-- The integers `vs` end with a `0`, and one of them is no `int`. -/
def Overflows (vs : List ℤ) : Prop := (∃ v ∈ vs, ¬ FitsInt v) ∧ vs.getLast? = some 0

/-- Behind an `int` in front the overflow is still to come. -/
theorem Overflows.tail {v : ℤ} {vs : List ℤ} (h : Overflows (v :: vs)) (hv : FitsInt v) :
    Overflows vs := by
  obtain ⟨⟨w, hw, hfit⟩, hlast⟩ := h
  have hmem : w ∈ vs := by
    rcases List.mem_cons.mp hw with rfl | hw
    · exact absurd hv hfit
    · exact hw
  refine ⟨⟨w, hmem, hfit⟩, ?_⟩
  rwa [List.getLast?_cons_of_ne_nil (List.ne_nil_of_mem hmem)] at hlast

/-- An overflow in front is not the last integer. -/
theorem Overflows.tail_ne_nil {v : ℤ} {vs : List ℤ} (h : Overflows (v :: vs))
    (hv : ¬ FitsInt v) : vs ≠ [] := by
  rintro rfl
  obtain ⟨-, hlast⟩ := h
  simp only [List.getLast?_singleton, Option.some.injEq] at hlast
  apply hv
  rw [hlast]
  decide

/-- The inner loop runs into the overflow, or stops before it with the overflow still to come. -/
theorem readLiterals_overflow (fuel : ℕ) {is : IStream} {vs : List ℤ} {t : Bool}
    (h : Holds is vs t) (ho : Overflows vs) (lit : Int32) (c : ClauseImpl) :
    readLiterals fuel is lit c = none ∨
      ∃ c' is' vs', readLiterals fuel is lit c = some (c', is', 0) ∧ Holds is' vs' t ∧
        Overflows vs' := by
  induction fuel generalizing is vs lit c with
  | zero => exact Or.inl rfl
  | succ n ih =>
      obtain ⟨v, vs, rfl⟩ := List.exists_cons_of_ne_nil (List.ne_nil_of_mem ho.1.choose_spec.1)
      have heof := h.eofbit_of_ne_nil (List.cons_ne_nil v vs)
      rw [readLiterals, heof, if_neg Bool.false_ne_true]
      simp only
      by_cases hv : FitsInt v
      · obtain ⟨-, h₂⟩ := h.getInt_cons hv lit
        split_ifs with h0
        · exact Or.inr ⟨c, _, vs, by rw [h0], h₂, ho.tail hv⟩
        · exact ih h₂ (ho.tail hv) _ _
      · obtain ⟨hne, hfail, he⟩ := h.getInt_not_fits hv (ho.tail_ne_nil hv) lit
        rw [if_neg hne]
        exact Or.inl (readLiterals_stuck n hfail he hne _)

/-- **Divergence**: on a text of integers that ends with a `0`, an integer that is no `int`
makes the reader run forever. -/
theorem readClauses_diverges (junk : ℕ → Int32) (fuel : ℕ) {is : IStream} {vs : List ℤ}
    {t : Bool} (h : Holds is vs t) (ho : Overflows vs) (lit : Int32) (f : FormulaImpl) :
    readClauses junk fuel is lit f = none := by
  induction fuel generalizing is vs lit f with
  | zero => rfl
  | succ n ih =>
      have hvs : vs ≠ [] := List.ne_nil_of_mem ho.1.choose_spec.1
      rw [readClauses, h.eofbit_of_ne_nil hvs, if_neg Bool.false_ne_true]
      simp only [readClause]
      rcases readLiterals_overflow n h ho lit
        (if lit ≠ 0 then (ClauseImpl.mk [] (junk f.numClauses)).addLiteral lit
          else ⟨[], junk f.numClauses⟩) with hnone | ⟨c', is', vs', hsome, h', ho'⟩
      · rw [hnone]
      · rw [hsome]
        simp only
        obtain ⟨v, vs', rfl⟩ := List.exists_cons_of_ne_nil
          (List.ne_nil_of_mem ho'.1.choose_spec.1)
        by_cases hv : FitsInt v
        · obtain ⟨-, h₂⟩ := h'.getInt_cons hv 0
          exact ih h₂ (ho'.tail hv) _ _
        · obtain ⟨hne, hfail, he⟩ := h'.getInt_not_fits hv (ho'.tail_ne_nil hv) 0
          exact readClauses_stuck junk n hfail he hne _

/-! ## When no clause is lost -/

/-- `readClauses` has at most one result. -/
theorem Reads.unique {junk : ℕ → Int32} {is : IStream} {lit : Int32} {f : FormulaImpl}
    {r r' : FormulaImpl × IStream × Int32} (h : Reads junk is lit f r)
    (h' : Reads junk is lit f r') : r = r' := by
  obtain ⟨n, hn⟩ := h
  obtain ⟨m, hm⟩ := h'
  have h₁ := readClauses_mono (le_max_left n m) hn
  rw [readClauses_mono (le_max_right n m) hm] at h₁
  exact (Option.some.inj h₁).symm

/-- **When every `0` closes a clause that is built**: on a text of integers that is empty or ends
with a `0`, the reader returns as many clauses as there are `0`s iff the text has a clause, all
its integers are `int`s, and the clauses behind the first one survive the look-ahead. -/
theorem readClauses_count_iff (junk : ℕ → Int32) (s : Bytes) (vs : List ℤ)
    (hs : ints s = some vs) (hlast : vs = [] ∨ vs.getLast? = some 0) :
    (∃ f is lit, Reads junk (IStream.ofText s) 0 FormulaImpl.new (f, is, lit) ∧
        f.numClauses = vs.count 0) ↔
      vs ≠ [] ∧ (∀ v ∈ vs, FitsInt v) ∧ Survive (endsInSpace s) (clausesOf vs).tail := by
  by_cases hfit : ∀ v ∈ vs, FitsInt v
  · obtain ⟨cs, hcs, rfl⟩ := exists_flat hfit hlast
    obtain ⟨f, is, hr, hf⟩ := readClauses_spec junk hcs hs
    have hiff : (∃ f is lit, Reads junk (IStream.ofText s) 0 FormulaImpl.new (f, is, lit) ∧
        f.numClauses = (flat cs).count 0) ↔ (readBack (endsInSpace s) cs).length = cs.length := by
      rw [count_flat hcs, ← hf]
      constructor
      · rintro ⟨f', is', lit', hr', hnum⟩
        cases hr.unique hr'
        simpa [FormulaImpl.numClauses] using hnum
      · intro hlen
        exact ⟨f, is, 0, hr, by simpa [FormulaImpl.numClauses] using hlen⟩
    rw [hiff, clausesOf_flat hcs]
    cases cs with
    | nil => simp [readBack, flat]
    | cons c cs =>
        have hlen : (readBack (endsInSpace s) (c :: cs)).length = (c :: cs).length ↔
            (afterLookahead (endsInSpace s) cs).length = cs.length := by
          simp [readBack]
        rw [hlen, length_afterLookahead_eq_iff]
        constructor
        · intro h
          exact ⟨by simp [flat], hfit, h⟩
        · rintro ⟨-, -, h⟩
          exact h
  · constructor
    · rintro ⟨f, is, lit, ⟨n, hn⟩, -⟩
      have hex : ∃ v ∈ vs, ¬ FitsInt v := by
        by_contra hc
        apply hfit
        intro v hv
        by_contra hnot
        exact hc ⟨v, hv, hnot⟩
      have hne : vs ≠ [] := List.ne_nil_of_mem hex.choose_spec.1
      rw [readClauses_diverges junk n (holds_ofText hs) ⟨hex, hlast.resolve_left hne⟩] at hn
      cases hn
    · rintro ⟨-, h, -⟩
      exact absurd h hfit

/-- In `1 0 2 0` every `0` closes a clause that is built. -/
theorem readClauses_count_iff_two :
    (∃ f is lit, Reads (fun _ => 0) (IStream.ofText (ascii "1 0 2 0")) 0 FormulaImpl.new
        (f, is, lit) ∧ f.numClauses = [1, 0, 2, (0 : ℤ)].count 0) ↔
      [1, 0, 2, (0 : ℤ)] ≠ [] ∧ (∀ v ∈ [1, 0, 2, (0 : ℤ)], FitsInt v) ∧
        Survive (endsInSpace (ascii "1 0 2 0")) (clausesOf [1, 0, 2, 0]).tail :=
  readClauses_count_iff (fun _ => 0) (ascii "1 0 2 0") [1, 0, 2, 0] (by decide +kernel)
    (by decide)

/-- The text `1 0 0 2 0` has three `0`s but only two clauses are built: the empty one is lost.
The empty text has no `0` but one clause is built. -/
theorem readClauses_loses_clause :
    (ints (ascii "1 0 0 2 0") = some [1, 0, 0, 2, 0] ∧
      ∃ is, Reads (fun _ => 0) (IStream.ofText (ascii "1 0 0 2 0")) 0 FormulaImpl.new
        (⟨2, [⟨[1], 1⟩, ⟨[2], 2⟩]⟩, is, 0)) ∧
    ints (ascii "") = some [] ∧
      ∃ is, Reads (fun _ => 0) (IStream.ofText (ascii "")) 0 FormulaImpl.new
        (⟨0, [⟨[], 0⟩]⟩, is, 0) := by
  refine ⟨⟨by decide +kernel, ⟨[], true, true⟩, 10, by decide +kernel⟩, by decide +kernel,
    ⟨[], true, true⟩, 10, by decide +kernel⟩

end Asenal.Sat
