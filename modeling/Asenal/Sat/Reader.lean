import Asenal.Lib.Text
import Asenal.Sat.Formula

/-!
# Reading formulas

`Formula::readClauses` and `Clause::readClause` of `c++/xulu`. The reader carries its look-ahead
in the function-static variable `lit`, which here is a value passed from call to call. Its loops
stop when the end-of-file flag is set, and need not terminate otherwise: they are given `fuel`,
and return `none` when it runs out (`readClauses_mono`: more fuel never changes a result).

* `IStream` — the text not yet read and the two error flags of a `std::istream`.
* `readRest` — from a stream of integers, the inner loop reads up to and including the next `0`.
* `afterLookahead` — the clauses the reader builds from a well-terminated text once its first
  clause is read (`readClauses_spec`): an empty clause is mistaken for "nothing pending".
-/

namespace Asenal.Sat

open Asenal.Lib.Text

/-! ## Streams -/

/-- A `std::istream` over a text in memory or in a file. -/
structure IStream where
  /-- What has not been read. -/
  rest : Bytes
  /-- Set by a read that reached the end of the text. -/
  eofbit : Bool
  /-- Set by a read that failed. -/
  failbit : Bool
deriving DecidableEq

namespace IStream

/-- A freshly opened stream. -/
def ofText (s : Bytes) : IStream := { rest := s, eofbit := false, failbit := false }

/-- `is >> lit`: skip white space, then read an `int`. Without a good stream, or with nothing
left, `lit` keeps its value; text that is no integer sets it to `0`, and an integer that does
not fit sets it to the nearest `int`. -/
def getInt (is : IStream) (lit : Int32) : Int32 × IStream :=
  if is.eofbit || is.failbit then (lit, { is with failbit := true })
  else if skipSpace is.rest = [] then (lit, { rest := [], eofbit := true, failbit := true })
  else
    let r := scanInt (skipSpace is.rest)
    match r.1 with
    | none => (0, { rest := r.2, eofbit := r.2.isEmpty, failbit := true })
    | some v =>
        if v < Int32.minValue.toInt then
          (Int32.minValue, { rest := r.2, eofbit := r.2.isEmpty, failbit := true })
        else if Int32.maxValue.toInt < v then
          (Int32.maxValue, { rest := r.2, eofbit := r.2.isEmpty, failbit := true })
        else (Int32.ofInt v, { rest := r.2, eofbit := r.2.isEmpty, failbit := false })

end IStream

/-! ## The reader -/

/-- The loop of `Clause::readClause`: add literals until the end of the file or a `0`. -/
def readLiterals : ℕ → IStream → Int32 → ClauseImpl → Option (ClauseImpl × IStream × Int32)
  | 0, _, _, _ => none
  | fuel + 1, is, lit, c =>
      if is.eofbit then some (c, is, lit)
      else
        let r := is.getInt lit
        if r.1 = 0 then some (c, r.2, r.1)
        else readLiterals fuel r.2 r.1 (c.addLiteral r.1)

/-- Source: `clause.cpp` `Clause::readClause`, with the static `lit` passed in and out. -/
def readClause (fuel : ℕ) (is : IStream) (lit : Int32) (c : ClauseImpl) :
    Option (ClauseImpl × IStream × Int32) :=
  let c := if lit ≠ 0 then c.addLiteral lit else c
  match readLiterals fuel is lit c with
  | none => none
  | some (c, is, lit) =>
      let r := is.getInt lit
      some (c, r.2, r.1)

/-- Source: `formula.cpp` `Formula::readClauses`, with `addClause` in line. `junk i` is the
value left in the unset `maxNum` of the clause added at index `i`. -/
def readClauses (junk : ℕ → Int32) :
    ℕ → IStream → Int32 → FormulaImpl → Option (FormulaImpl × IStream × Int32)
  | 0, _, _, _ => none
  | fuel + 1, is, lit, f =>
      if is.eofbit then some (f, is, lit)
      else
        match readClause fuel is lit { literalList := [], maxNum := junk f.numClauses } with
        | none => none
        | some (c, is, lit) =>
            let tmp := c.getMaxVar
            readClauses junk fuel is lit
              { maxVar := if f.maxVar < tmp then tmp else f.maxVar,
                clauseList := f.clauseList ++ [c] }

/-- More fuel never changes what the inner loop returns. -/
theorem readLiterals_mono {fuel fuel' : ℕ} {is : IStream} {lit : Int32} {c : ClauseImpl}
    {r : ClauseImpl × IStream × Int32} (hle : fuel ≤ fuel')
    (h : readLiterals fuel is lit c = some r) : readLiterals fuel' is lit c = some r := by
  induction fuel generalizing fuel' is lit c with
  | zero => simp [readLiterals] at h
  | succ n ih =>
      obtain ⟨m, rfl⟩ : ∃ m, fuel' = m + 1 := ⟨fuel' - 1, by omega⟩
      unfold readLiterals at h ⊢
      simp only at h ⊢
      split_ifs at h ⊢
      · exact h
      · exact h
      · exact ih (by omega) h

/-- More fuel never changes what `readClause` returns. -/
theorem readClause_mono {fuel fuel' : ℕ} {is : IStream} {lit : Int32} {c : ClauseImpl}
    {r : ClauseImpl × IStream × Int32} (hle : fuel ≤ fuel')
    (h : readClause fuel is lit c = some r) : readClause fuel' is lit c = some r := by
  unfold readClause at h ⊢
  simp only at h ⊢
  split at h
  · cases h
  · next hr => rwa [readLiterals_mono hle hr]

/-- More fuel never changes what `readClauses` returns. -/
theorem readClauses_mono {junk : ℕ → Int32} {fuel fuel' : ℕ} {is : IStream} {lit : Int32}
    {f : FormulaImpl} {r : FormulaImpl × IStream × Int32} (hle : fuel ≤ fuel')
    (h : readClauses junk fuel is lit f = some r) : readClauses junk fuel' is lit f = some r := by
  induction fuel generalizing fuel' is lit f with
  | zero => simp [readClauses] at h
  | succ n ih =>
      obtain ⟨m, rfl⟩ : ∃ m, fuel' = m + 1 := ⟨fuel' - 1, by omega⟩
      unfold readClauses at h ⊢
      split_ifs at h ⊢ with h₁
      · exact h
      · split at h
        · cases h
        · next hc =>
            rw [readClause_mono (by omega : n ≤ m) hc]
            exact ih (by omega) h

/-! ## Streams of integers -/

/-- An integer is an `int`. -/
def FitsInt (v : ℤ) : Prop := Int32.minValue.toInt ≤ v ∧ v ≤ Int32.maxValue.toInt

instance (v : ℤ) : Decidable (FitsInt v) := inferInstanceAs (Decidable (_ ∧ _))

/-- The stream `is` has not failed and holds the integers `vs`. The flag `t` says whether white
space stands behind the last integer; without it, reading the last integer also reaches the end
of the file. -/
structure Holds (is : IStream) (vs : List ℤ) (t : Bool) : Prop where
  /-- No read has failed. -/
  good : is.failbit = false
  /-- The end of the file was noticed iff the last integer is read and nothing stands behind it. -/
  eof : is.eofbit = (vs.isEmpty && !t)
  /-- The integers that are left. -/
  ints : ints is.rest = some vs
  /-- What stands behind the last of them. -/
  ends : vs ≠ [] → endsInSpace is.rest = t

/-- A fresh stream over a text of integers. A text without integers reads as if white space
stood at its end: no read has reached the end of the file yet. -/
theorem holds_ofText {s : Bytes} {vs : List ℤ} (h : ints s = some vs) :
    Holds (IStream.ofText s) vs (vs.isEmpty || endsInSpace s) where
  good := rfl
  eof := by cases vs <;> simp [IStream.ofText]
  ints := h
  ends hne := by cases vs <;> simp_all [IStream.ofText]

/-- A stream that holds an integer is not at its end. -/
theorem Holds.eofbit_of_ne_nil {is : IStream} {vs : List ℤ} {t : Bool} (h : Holds is vs t)
    (hne : vs ≠ []) : is.eofbit = false := by
  rw [h.eof, List.isEmpty_eq_false_iff.mpr hne, Bool.false_and]

/-- With nothing left, reading keeps `lit` and sets the end-of-file flag. -/
theorem Holds.getInt_nil {is : IStream} {t : Bool} (h : Holds is [] t) (lit : Int32) :
    (is.getInt lit).1 = lit ∧ (is.getInt lit).2.eofbit = true := by
  unfold IStream.getInt
  rw [if_pos (ints_eq_some_nil h.ints)]
  split_ifs with hg
  · rw [h.good, Bool.or_false] at hg
    exact ⟨rfl, hg⟩
  · exact ⟨rfl, rfl⟩

/-- Reading an integer that is an `int` yields it and leaves the others. -/
theorem Holds.getInt_cons {is : IStream} {v : ℤ} {vs : List ℤ} {t : Bool}
    (h : Holds is (v :: vs) t) (hv : FitsInt v) (lit : Int32) :
    (is.getInt lit).1 = Int32.ofInt v ∧ Holds (is.getInt lit).2 vs t := by
  obtain ⟨r, hne, hscan, hr, hemp, hends⟩ := nextInt h.ints
  have heof := h.eofbit_of_ne_nil (List.cons_ne_nil v vs)
  have ht := h.ends (List.cons_ne_nil v vs)
  have hget : is.getInt lit =
      (Int32.ofInt v, { rest := r, eofbit := r.isEmpty, failbit := false }) := by
    unfold IStream.getInt
    rw [heof, h.good, Bool.or_self, if_neg Bool.false_ne_true, if_neg hne, hscan]
    simp only
    rw [if_neg (not_lt.mpr hv.1), if_neg (not_lt.mpr hv.2)]
  rw [hget]
  refine ⟨rfl, rfl, ?_, hr, fun hvs => (hends hvs).trans ht⟩
  rw [Bool.eq_iff_iff]
  simp only [hemp, ht, Bool.and_eq_true, List.isEmpty_iff, Bool.not_eq_true']

/-- Reading an integer that is no `int`, with more text behind it, fails without reaching the
end of the file and leaves a non-zero `lit`. -/
theorem Holds.getInt_not_fits {is : IStream} {v : ℤ} {vs : List ℤ} {t : Bool}
    (h : Holds is (v :: vs) t) (hv : ¬ FitsInt v) (hvs : vs ≠ []) (lit : Int32) :
    (is.getInt lit).1 ≠ 0 ∧ (is.getInt lit).2.failbit = true ∧
      (is.getInt lit).2.eofbit = false := by
  obtain ⟨r, hne, hscan, -, hemp, -⟩ := nextInt h.ints
  have heof := h.eofbit_of_ne_nil (List.cons_ne_nil v vs)
  have hr : r.isEmpty = false := by
    rw [Bool.eq_false_iff, ne_eq, hemp]
    exact fun hc => hvs hc.1
  unfold IStream.getInt
  rw [heof, h.good, Bool.or_self, if_neg Bool.false_ne_true, if_neg hne, hscan]
  simp only
  have hmin : Int32.minValue ≠ 0 := by decide
  have hmax : Int32.maxValue ≠ 0 := by decide
  split_ifs with h₁ h₂
  · exact ⟨hmin, rfl, hr⟩
  · exact ⟨hmax, rfl, hr⟩
  · exact absurd ⟨not_lt.mp h₁, not_lt.mp h₂⟩ hv

/-! ## Reading well-terminated texts -/

/-- The integers of a list of clauses, each closed by a `0`. -/
def flat (cs : List (List Int32)) : List ℤ := cs.flatMap fun c => c.map Int32.toInt ++ [0]

/-- The integers of a clause list with a clause in front. -/
theorem flat_cons (c : List Int32) (cs : List (List Int32)) :
    flat (c :: cs) = c.map Int32.toInt ++ 0 :: flat cs := by
  simp [flat]

/-- Every literal fits an `int`. -/
theorem fitsInt_toInt (l : Int32) : FitsInt l.toInt := by
  have h₁ := Int32.le_toInt l
  have h₂ := Int32.toInt_lt l
  constructor
  · simpa using h₁
  · have : Int32.maxValue.toInt = 2 ^ 31 - 1 := rfl
    omega

/-- **The inner loop**: from a stream of integers it reads the literals of one clause up to and
including the terminating `0`. -/
theorem readLiterals_clause {c : List Int32} {vs : List ℤ} {t : Bool} {is : IStream}
    (h : Holds is (c.map Int32.toInt ++ 0 :: vs) t) (hc : 0 ∉ c) (lit : Int32)
    (cl : ClauseImpl) :
    ∃ cl' is', readLiterals (c.length + 1) is lit cl = some (cl', is', 0) ∧
      cl'.literalList = cl.literalList ++ c ∧ Holds is' vs t := by
  induction c generalizing is lit cl with
  | nil =>
      have heof := h.eofbit_of_ne_nil (by simp)
      obtain ⟨h₁, h₂⟩ := h.getInt_cons (by decide) lit
      refine ⟨cl, (is.getInt lit).2, ?_, by simp, h₂⟩
      have h₀ : (is.getInt lit).1 = 0 := h₁
      simp [readLiterals, heof, h₀]
  | cons l c ih =>
      have heof := h.eofbit_of_ne_nil (by simp)
      obtain ⟨h₁, h₂⟩ := h.getInt_cons (fitsInt_toInt l) lit
      rw [Int32.ofInt_toInt] at h₁
      have hl : l ≠ 0 := by
        intro e
        apply hc
        simp [e]
      obtain ⟨cl', is', hread, hlits, hholds⟩ := ih h₂ (fun h0 => hc (List.mem_cons_of_mem l h0))
        l (cl.addLiteral l)
      refine ⟨cl', is', ?_, by simp [hlits], hholds⟩
      rw [List.length_cons, readLiterals]
      simp [heof, h₁, hl, hread]

/-- `readClause` from a stream of integers: the pending literal, if any, and the literals up to
the next `0` make up the clause; one more integer is then read ahead. -/
theorem readClause_clause {c : List Int32} {vs : List ℤ} {t : Bool} {is : IStream}
    (h : Holds is (c.map Int32.toInt ++ 0 :: vs) t) (hc : 0 ∉ c) (lit : Int32) (m : Int32) :
    ∃ cl is', readClause (c.length + 1) is lit ⟨[], m⟩ =
        some (cl, (is'.getInt 0).2, (is'.getInt 0).1) ∧
      cl.literalList = (if lit ≠ 0 then [lit] else []) ++ c ∧ Holds is' vs t := by
  obtain ⟨cl, is', hread, hlits, hholds⟩ := readLiterals_clause h hc lit
    (if lit ≠ 0 then (ClauseImpl.mk [] m).addLiteral lit else ⟨[], m⟩)
  refine ⟨cl, is', ?_, ?_, hholds⟩
  · simp only [readClause, hread]
  · rw [hlits]
    split_ifs <;> simp

/-- `readClauses` returns `r`, given enough fuel. -/
def Reads (junk : ℕ → Int32) (is : IStream) (lit : Int32) (f : FormulaImpl)
    (r : FormulaImpl × IStream × Int32) : Prop :=
  ∃ fuel, readClauses junk fuel is lit f = some r

/-- At the end of the file `readClauses` returns at once. -/
theorem reads_of_eof (junk : ℕ → Int32) {is : IStream} (h : is.eofbit = true) (lit : Int32)
    (f : FormulaImpl) : Reads junk is lit f (f, is, lit) :=
  ⟨1, by simp [readClauses, h]⟩

/-- One round of `readClauses`: one clause is read and appended. -/
theorem reads_of_readClause {junk : ℕ → Int32} {n : ℕ} {is is' : IStream} {lit lit' : Int32}
    {f : FormulaImpl} {c : ClauseImpl} {r : FormulaImpl × IStream × Int32}
    (heof : is.eofbit = false)
    (hc : readClause n is lit ⟨[], junk f.numClauses⟩ = some (c, is', lit'))
    (hr : Reads junk is' lit' ⟨if f.maxVar < c.getMaxVar then c.getMaxVar else f.maxVar,
      f.clauseList ++ [c]⟩ r) : Reads junk is lit f r := by
  obtain ⟨k, hk⟩ := hr
  refine ⟨max n k + 1, ?_⟩
  rw [readClauses, heof, if_neg Bool.false_ne_true, readClause_mono (le_max_left n k) hc]
  exact readClauses_mono (le_max_right n k) hk

/-- With nothing pending and nothing left, but the end of the file not yet noticed,
`readClauses` adds one empty clause. -/
theorem reads_nil (junk : ℕ → Int32) {is : IStream} (h : Holds is [] true) (f : FormulaImpl) :
    ∃ f' is', Reads junk is 0 f (f', is', 0) ∧ f'.lits = f.lits ++ [[]] := by
  have heof : is.eofbit = false := by simpa using h.eof
  obtain ⟨h₁, h₂⟩ := h.getInt_nil 0
  have hagain : ((is.getInt 0).2.getInt 0).1 = 0 ∧ ((is.getInt 0).2.getInt 0).2.eofbit = true := by
    rw [IStream.getInt, if_pos (by rw [h₂, Bool.true_or])]
    exact ⟨rfl, h₂⟩
  have hclause : readClause 1 is 0 ⟨[], junk f.numClauses⟩ =
      some (⟨[], junk f.numClauses⟩, ((is.getInt 0).2.getInt 0).2, 0) := by
    simp [readClause, readLiterals, heof, h₁, hagain.1]
  refine ⟨_, _, reads_of_readClause heof hclause (reads_of_eof junk hagain.2 0 _), ?_⟩
  simp [FormulaImpl.lits]

/-- What `readClauses` adds for the clauses behind the first one. The look-ahead has read the
first integer of the next clause: if that is its `0`, the clause is empty and is lost, and the
clause behind it is read in full. Only the last clause gets a second chance: with white space
behind it the end of the file is not yet noticed, and an empty clause is added. -/
def afterLookahead (t : Bool) : List (List Int32) → List (List Int32)
  | [] => []
  | [[]] => if t then [[]] else []
  | [] :: c :: cs => c :: afterLookahead t cs
  | (l :: c) :: cs => (l :: c) :: afterLookahead t cs

/-- What `readClauses` builds from a well-terminated text. -/
def readBack (t : Bool) : List (List Int32) → List (List Int32)
  | [] => [[]]
  | c :: cs => c :: afterLookahead t cs

/-- From the look-ahead on, `readClauses` adds the clauses of `afterLookahead`. -/
theorem reads_afterLookahead (junk : ℕ → Int32) (t : Bool) (cs : List (List Int32))
    {is : IStream} (h : Holds is (flat cs) t) (hcs : ∀ c ∈ cs, 0 ∉ c) (f : FormulaImpl) :
    ∃ f' is', Reads junk (is.getInt 0).2 (is.getInt 0).1 f (f', is', 0) ∧
      f'.lits = f.lits ++ afterLookahead t cs := by
  induction cs using afterLookahead.induct t generalizing is f with
  | case1 =>
      obtain ⟨h₁, h₂⟩ := h.getInt_nil 0
      exact ⟨f, _, by simpa [h₁] using reads_of_eof junk h₂ (is.getInt 0).1 f,
        by simp [afterLookahead]⟩
  | case2 ht =>
      subst ht
      obtain ⟨h₁, h₂⟩ := h.getInt_cons (by decide) 0
      have h₀ : (is.getInt 0).1 = 0 := h₁
      rw [h₀]
      exact reads_nil junk h₂ f
  | case3 ht =>
      obtain ⟨h₁, h₂⟩ := h.getInt_cons (by decide) 0
      have h₀ : (is.getInt 0).1 = 0 := h₁
      have heof : (is.getInt 0).2.eofbit = true := by simpa [ht] using h₂.eof
      rw [h₀]
      exact ⟨f, _, reads_of_eof junk heof 0 f, by simp [afterLookahead, ht]⟩
  | case4 c cs ih =>
      rw [flat_cons, List.map_nil, List.nil_append] at h
      obtain ⟨h₁, h₂⟩ := h.getInt_cons (by decide) 0
      have h₀ : (is.getInt 0).1 = 0 := h₁
      rw [flat_cons] at h₂
      obtain ⟨cl, is₁, hread, hlits, hholds⟩ :=
        readClause_clause h₂ (hcs c (by simp)) 0 (junk f.numClauses)
      obtain ⟨f', is', hr, hf'⟩ := ih hholds (fun d hd => hcs d (by simp [hd])) _
      rw [h₀]
      refine ⟨f', is', reads_of_readClause (h₂.eofbit_of_ne_nil (by simp)) hread hr, ?_⟩
      simp [hf', FormulaImpl.lits, hlits, afterLookahead]
  | case5 l c cs ih =>
      rw [flat_cons, List.map_cons, List.cons_append] at h
      obtain ⟨h₁, h₂⟩ := h.getInt_cons (fitsInt_toInt l) 0
      rw [Int32.ofInt_toInt] at h₁
      have hmem := hcs (l :: c) List.mem_cons_self
      have hl : l ≠ 0 := by
        intro e
        apply hmem
        simp [e]
      obtain ⟨cl, is₁, hread, hlits, hholds⟩ :=
        readClause_clause h₂ (fun h0 => hmem (List.mem_cons_of_mem l h0)) l (junk f.numClauses)
      obtain ⟨f', is', hr, hf'⟩ := ih hholds (fun d hd => hcs d (List.mem_cons_of_mem _ hd)) _
      rw [h₁]
      refine ⟨f', is', reads_of_readClause (h₂.eofbit_of_ne_nil (by simp)) hread hr, ?_⟩
      simp [hf', FormulaImpl.lits, hlits, hl, afterLookahead]

/-- **What is built from a well-terminated text**: `readClauses` returns, with the look-ahead
`0`, the clauses of `readBack`. -/
theorem readClauses_spec (junk : ℕ → Int32) {s : Bytes} {cs : List (List Int32)}
    (hcs : ∀ c ∈ cs, 0 ∉ c) (hs : ints s = some (flat cs)) :
    ∃ f is, Reads junk (IStream.ofText s) 0 FormulaImpl.new (f, is, 0) ∧
      f.lits = readBack (endsInSpace s) cs := by
  have h := holds_ofText hs
  cases cs with
  | nil => exact reads_nil junk h FormulaImpl.new
  | cons c cs =>
      have hne : (flat (c :: cs)).isEmpty = false := by simp [flat]
      rw [hne, Bool.false_or, flat_cons] at h
      obtain ⟨cl, is₁, hread, hlits, hholds⟩ :=
        readClause_clause h (hcs c List.mem_cons_self) 0 (junk FormulaImpl.new.numClauses)
      obtain ⟨f', is', hr, hf'⟩ := reads_afterLookahead junk _ cs hholds
        (fun d hd => hcs d (List.mem_cons_of_mem _ hd)) _
      refine ⟨f', is', reads_of_readClause rfl hread hr, ?_⟩
      simp [hf', FormulaImpl.lits, hlits, FormulaImpl.new, readBack]

end Asenal.Sat
