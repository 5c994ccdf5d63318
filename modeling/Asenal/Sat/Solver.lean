import Asenal.Sat.Formula

/-!
# The SAT solver

`Solver::solve` of `c++/xulu`: unit propagation, pure-literal deletion, then a two-way split on
the first literal. The source copies the formula for each branch and simplifies it in place;
here every simplification returns the new formula. `clauseList.at(0).literalList.at(0)` throws
`std::out_of_range` on an empty list, so the result is an `Except`.

* `solve_spec` — `solve` always returns, and returns `true` exactly when the clauses *that
  repeat no literal* are satisfiable together.
* `satisfiable_iff_assignment` — satisfiability by valuations of literals, as
  `Asenal.Lib.Cnf` has it, is satisfiability by truth assignments of variables.
-/

namespace Asenal.Sat

open Asenal.Lib.Cnf

/-! ## The search -/

/-- The exception of `std::vector::at`. -/
inductive SolveError where
  /-- `std::out_of_range`. -/
  | outOfRange
deriving DecidableEq, Repr

namespace FormulaImpl

/-- Literal occurrences plus clauses. -/
def size (f : FormulaImpl) : ℕ := Lib.Cnf.size f.lits

/-- `f.clauseList.at(0).literalList.at(0)`. -/
def firstLiteral (f : FormulaImpl) : Except SolveError Int32 :=
  match f.clauseList with
  | [] => .error .outOfRange
  | c :: _ =>
      match c.literalList with
      | [] => .error .outOfRange
      | lit :: _ => .ok lit

/-- A reported unit propagation shrinks the formula. -/
theorem size_unitClause_lt {f g : FormulaImpl} (h : f.unitClause = (true, g)) :
    g.size < f.size := by
  have hs := f.simplifies_unitClause
  rw [h] at hs
  exact hs.shrinks rfl

/-- A reported pure-literal deletion shrinks the formula. -/
theorem size_pureClause_lt {f g : FormulaImpl} (h : f.pureClause = (true, g)) :
    g.size < f.size := by
  have hs := f.simplifies_pureClause
  rw [h] at hs
  exact hs.shrinks rfl

/-- Without a reported unit propagation the clause set is unchanged. -/
theorem lits_of_unitClause_false {f g : FormulaImpl} (h : f.unitClause = (false, g)) :
    g.lits = f.lits := by
  have hs := f.simplifies_unitClause
  rw [h] at hs
  exact congrArg clauseLits (hs.same rfl)

/-- Without a reported pure-literal deletion the clause set is unchanged. -/
theorem lits_of_pureClause_false {f g : FormulaImpl} (h : f.pureClause = (false, g)) :
    g.lits = f.lits := by
  have hs := f.simplifies_pureClause
  rw [h] at hs
  exact congrArg clauseLits (hs.same rfl)

/-- The first literal occurs in some clause. -/
theorem mem_of_firstLiteral {f : FormulaImpl} {lit : Int32} (h : f.firstLiteral = .ok lit) :
    ∃ c ∈ f.lits, lit ∈ c := by
  unfold firstLiteral at h
  split at h
  · cases h
  · next c cl hf =>
      split at h
      · cases h
      · next l ls hc =>
          cases h
          exact ⟨c.literalList, by simp [hf], by simp [hc]⟩

/-- A formula that has clauses, all non-empty, has a first literal. -/
theorem exists_firstLiteral {f : FormulaImpl} (h₁ : f.lits ≠ []) (h₂ : [] ∉ f.lits) :
    ∃ lit, f.firstLiteral = .ok lit := by
  unfold firstLiteral
  split
  · next hf => simp [hf] at h₁
  · next c cl hf =>
      split
      · next hc => exact absurd (by simp [hf, hc]) h₂
      · next l ls hc => exact ⟨l, rfl⟩

/-- Assuming the first literal, or its opposite, shrinks the formula. -/
theorem size_updateClause_lt {f : FormulaImpl} {lit : Int32} (h : f.firstLiteral = .ok lit)
    (s : Int32) (hs : s = lit ∨ s = -1 * lit) : (f.updateClause s).size < f.size := by
  obtain ⟨c, hc, hl⟩ := mem_of_firstLiteral h
  rw [size, updateClause_lits]
  apply size_residual_lt hc
  rcases hs with rfl | rfl
  · exact Or.inl hl
  · apply Or.inr
    rwa [show -(-1 * lit) = lit by grind]

/-- The calls `solve(f)` can make: `RecCall f g` if one of its four call sites passes `g`. -/
inductive RecCall (f : FormulaImpl) : FormulaImpl → Prop
  /-- After a unit propagation. -/
  | unit {g : FormulaImpl} (hc : ¬ f.consistent = true) (he : ¬ f.emptyClause = true)
      (hu : f.unitClause = (true, g)) : RecCall f g
  /-- After a pure-literal deletion. -/
  | pure {f₁ g : FormulaImpl} (hc : ¬ f.consistent = true) (he : ¬ f.emptyClause = true)
      (hu : f.unitClause = (false, f₁)) (hp : f₁.pureClause = (true, g)) : RecCall f g
  /-- The branch that assumes the first literal. -/
  | left {f₁ f₂ : FormulaImpl} {lit : Int32} (hc : ¬ f.consistent = true)
      (he : ¬ f.emptyClause = true) (hu : f.unitClause = (false, f₁))
      (hp : f₁.pureClause = (false, f₂)) (hl : f₂.firstLiteral = .ok lit) :
      RecCall f (f₂.updateClause lit)
  /-- The branch that assumes its opposite. -/
  | right {f₁ f₂ : FormulaImpl} {lit : Int32} (hc : ¬ f.consistent = true)
      (he : ¬ f.emptyClause = true) (hu : f.unitClause = (false, f₁))
      (hp : f₁.pureClause = (false, f₂)) (hl : f₂.firstLiteral = .ok lit) :
      RecCall f (f₂.updateClause (-1 * lit))

/-- Every recursive call is made on a smaller formula. -/
theorem RecCall.size_lt {f g : FormulaImpl} (h : RecCall f g) : g.size < f.size := by
  have split_lt : ∀ {f₁ f₂ : FormulaImpl} {lit : Int32} (s : Int32), s = lit ∨ s = -1 * lit →
      f.unitClause = (false, f₁) → f₁.pureClause = (false, f₂) → f₂.firstLiteral = .ok lit →
      (f₂.updateClause s).size < f.size := by
    intro f₁ f₂ lit s hs hu hp hl
    calc (f₂.updateClause s).size < f₂.size := size_updateClause_lt hl s hs
      _ = f₁.size := congrArg Lib.Cnf.size (lits_of_pureClause_false hp)
      _ = f.size := congrArg Lib.Cnf.size (lits_of_unitClause_false hu)
  cases h with
  | unit hc he hu => exact size_unitClause_lt hu
  | @pure f₁ _ hc he hu hp =>
      calc g.size < f₁.size := size_pureClause_lt hp
        _ = f.size := congrArg Lib.Cnf.size (lits_of_unitClause_false hu)
  | left hc he hu hp hl => exact split_lt _ (Or.inl rfl) hu hp hl
  | right hc he hu hp hl => exact split_lt _ (Or.inr rfl) hu hp hl

end FormulaImpl

open FormulaImpl

/-- Source: `solver.cpp` `Solver::solve`. -/
def solve (f : FormulaImpl) : Except SolveError Bool :=
  if _hc : f.consistent then .ok true
  else if _he : f.emptyClause then .ok false
  else
    match _hu : f.unitClause with
    | (true, f₁) => solve f₁
    | (false, f₁) =>
      match _hp : f₁.pureClause with
      | (true, f₂) => solve f₂
      | (false, f₂) =>
        match _hl : f₂.firstLiteral with
        | .error e => .error e
        | .ok lit =>
          match solve (f₂.updateClause lit) with
          | .error e => .error e
          | .ok true => .ok true
          | .ok false => solve (f₂.updateClause (-1 * lit))
termination_by f.size
decreasing_by
  · exact (RecCall.unit _hc _he _hu).size_lt
  · exact (RecCall.pure _hc _he _hu _hp).size_lt
  · exact (RecCall.left _hc _he _hu _hp _hl).size_lt
  · exact (RecCall.right _hc _he _hu _hp _hl).size_lt

/-! ## Truth assignments -/

/-- The truth value of a literal under an assignment of the variables `0, 1, 2, …`. -/
def litTrue (ν : ℕ → Bool) (l : Int32) : Bool :=
  if 0 < l.toInt then ν l.toInt.natAbs else !ν l.toInt.natAbs

/-- Every clause has a true literal under the assignment `ν`. -/
def SatisfiedBy (ν : ℕ → Bool) (cs : List (List Int32)) : Prop :=
  ∀ c ∈ cs, ∃ l ∈ c, litTrue ν l = true

/-- A literal with an opposite of its own is neither `0` nor `INT_MIN`, and its opposite is its
arithmetic negation. -/
theorem toInt_neg_of_ne {l : Int32} (h : -l ≠ l) :
    (-l).toInt = -l.toInt ∧ l.toInt ≠ 0 := by
  have hneg := Int32.toInt_neg l
  have h₁ := Int32.le_toInt l
  have h₂ := Int32.toInt_lt l
  have h₃ : (-l).toInt ≠ l.toInt := by
    intro e
    exact h (Int32.toInt_inj.mp e)
  rw [Int.bmod_def] at hneg
  omega

/-- A truth assignment gives every literal a value. -/
def valuationOf (ν : ℕ → Bool) : Valuation Int32 where
  holds := litTrue ν
  holds_neg l h := by
    obtain ⟨hneg, hne⟩ := toInt_neg_of_ne h
    unfold litTrue
    rw [hneg, Int.natAbs_neg]
    by_cases hl : 0 < l.toInt
    · rw [if_neg (by omega), if_pos hl]
    · rw [if_pos (by omega), if_neg hl, Bool.not_not]

instance : Nonempty (Valuation Int32) := ⟨valuationOf fun _ => true⟩

/-- The truth assignment read off a valuation. -/
def assignmentOf (v : Valuation Int32) (n : ℕ) : Bool :=
  if 0 < (Int32.ofInt n).toInt then v.holds (Int32.ofInt n) else !v.holds (Int32.ofInt (-n))

/-- Reading off the assignment loses nothing. -/
theorem litTrue_assignmentOf (v : Valuation Int32) (l : Int32) :
    litTrue (assignmentOf v) l = v.holds l := by
  unfold litTrue assignmentOf
  by_cases hl : 0 < l.toInt
  · have habs : ((l.toInt.natAbs : ℕ) : ℤ) = l.toInt := by omega
    rw [if_pos hl, habs, Int32.ofInt_toInt, if_pos hl]
  · have habs : ((l.toInt.natAbs : ℕ) : ℤ) = -l.toInt := by omega
    have hneg : Int32.ofInt (-l.toInt) = -l := by rw [Int32.ofInt_neg, Int32.ofInt_toInt]
    rw [if_neg hl, habs, neg_neg, Int32.ofInt_toInt, hneg]
    by_cases hpos : 0 < (-l).toInt
    · -- the variable of `l` is a positive `int`, so `-l` is its positive literal
      have hne : -l ≠ l := by
        intro e
        exact hl (e ▸ hpos)
      rw [if_pos hpos, v.holds_neg l hne, Bool.not_not]
    · rw [if_neg hpos, Bool.not_not]

/-- Satisfiability by valuations of literals is satisfiability by truth assignments. -/
theorem satisfiable_iff_assignment (cs : List (List Int32)) :
    Satisfiable cs ↔ ∃ ν, SatisfiedBy ν cs := by
  constructor
  · rintro ⟨v, hv⟩
    refine ⟨assignmentOf v, ?_⟩
    intro c hc
    obtain ⟨l, hl, hlv⟩ := hv c hc
    exact ⟨l, hl, by rw [litTrue_assignmentOf, hlv]⟩
  · rintro ⟨ν, hν⟩
    exact ⟨valuationOf ν, hν⟩

/-! ## What `solve` decides -/

/-- **The verdict of `solve`**: the search always returns, and its answer is whether the clauses
that repeat no literal are satisfiable together. -/
theorem solve_spec (f : FormulaImpl) :
    ∃ b, solve f = .ok b ∧ (b = true ↔ Satisfiable (plain f.lits)) := by
  induction hn : f.size using Nat.strong_induction_on generalizing f with
  | _ n ih =>
      subst hn
      have call : ∀ g, RecCall f g →
          ∃ b, solve g = .ok b ∧ (b = true ↔ Satisfiable (plain g.lits)) := by
        intro g hg
        exact ih g.size hg.size_lt g rfl
      have unit_sat := f.simplifies_unitClause.sat
      rw [solve]
      split_ifs with hc he
      · rw [consistent_iff] at hc
        exact ⟨true, rfl, by simpa [hc, plain] using satisfiable_nil⟩
      · rw [emptyClause_iff] at he
        exact ⟨false, rfl, by simpa using not_satisfiable_plain_of_nil_mem he⟩
      · split
        · next f₁ hu =>
            obtain ⟨b, hb, hiff⟩ := call f₁ (.unit hc he hu)
            rw [hu] at unit_sat
            exact ⟨b, hb, hiff.trans unit_sat⟩
        · next f₁ hu =>
            have pure_sat := f₁.simplifies_pureClause.sat
            have hf₁ := lits_of_unitClause_false hu
            split
            · next f₂ hp =>
                obtain ⟨b, hb, hiff⟩ := call f₂ (.pure hc he hu hp)
                rw [hp] at pure_sat
                exact ⟨b, hb, hiff.trans (pure_sat.trans (by rw [← hf₁]))⟩
            · next f₂ hp =>
                have hf₂ : f₂.lits = f.lits := (lits_of_pureClause_false hp).trans hf₁
                obtain ⟨lit, hl⟩ := exists_firstLiteral (f := f₂)
                  (by rwa [hf₂, ne_eq, ← consistent_iff]) (by rwa [hf₂, ← emptyClause_iff])
                obtain ⟨b₁, hb₁, hiff₁⟩ := call _ (.left hc he hu hp hl)
                obtain ⟨b₂, hb₂, hiff₂⟩ := call _ (.right hc he hu hp hl)
                have hneg : -1 * lit = -lit := by grind
                rw [updateClause_lits, hf₂] at hiff₁ hiff₂
                rw [hneg] at hiff₂
                have hsplit := satisfiable_plain_split f.lits lit
                split
                · next e he' => rw [hl] at he'; cases he'
                · next lit' hl' =>
                    rw [hl] at hl'
                    cases hl'
                    rw [hb₁]
                    cases b₁ with
                    | true => exact ⟨true, rfl, by simp [hsplit, ← hiff₁]⟩
                    | false => exact ⟨b₂, hb₂, by simp [hsplit, ← hiff₁, hiff₂]⟩

/-- `solve` answers `true` iff the clauses that repeat no literal are satisfiable together. -/
theorem solve_eq_true_iff (f : FormulaImpl) :
    solve f = .ok true ↔ ∃ ν, SatisfiedBy ν (plain f.lits) := by
  obtain ⟨b, hb, hiff⟩ := solve_spec f
  rw [hb, ← satisfiable_iff_assignment, ← hiff]
  simp

/-- Two formulas get the same verdict iff their repetition-free clauses are equisatisfiable. -/
theorem solve_eq_solve_iff (f g : FormulaImpl) :
    solve f = solve g ↔
      ((∃ ν, SatisfiedBy ν (plain f.lits)) ↔ ∃ ν, SatisfiedBy ν (plain g.lits)) := by
  obtain ⟨b₁, h₁, hf⟩ := solve_spec f
  obtain ⟨b₂, h₂, hg⟩ := solve_spec g
  rw [h₁, h₂, ← satisfiable_iff_assignment, ← satisfiable_iff_assignment, ← hf, ← hg,
    Except.ok.injEq, Bool.eq_iff_iff]

/-- **Correctness without repetitions**: on a formula in which no clause repeats a literal,
`solve` decides satisfiability. -/
theorem solve_correct_of_nodup (f : FormulaImpl) (h : ∀ c ∈ f.clauseList, c.literalList.Nodup) :
    solve f = .ok true ↔ ∃ ν, SatisfiedBy ν f.lits := by
  rw [solve_eq_true_iff, plain_eq_self (by simpa using h)]

/-- The formula `(1 ∨ -2) ∧ 2`. -/
theorem solve_correct_of_nodup_two :
    solve ⟨2, [⟨[1, -2], 1⟩, ⟨[2], 2⟩]⟩ = .ok true ↔ ∃ ν, SatisfiedBy ν [[1, -2], [2]] :=
  solve_correct_of_nodup ⟨2, [⟨[1, -2], 1⟩, ⟨[2], 2⟩]⟩ (by decide)

/-- **Unsatisfiable answers are sound**: if some assignment satisfies the formula, whatever its
clauses repeat, `solve` answers `true`. -/
theorem solve_eq_true_of_satisfiedBy (f : FormulaImpl) (ν : ℕ → Bool)
    (h : SatisfiedBy ν f.lits) : solve f = .ok true := by
  rw [solve_eq_true_iff]
  refine ⟨ν, ?_⟩
  intro c hc
  exact h c (mem_plain.mp hc).1

/-- The formula `(1 ∨ 1 ∨ -1) ∧ (-2 ∨ -2)`, satisfied by making every variable false. -/
theorem solve_eq_true_of_satisfiedBy_repeats :
    solve ⟨1, [⟨[1, 1, -1], 1⟩, ⟨[-2, -2], -2⟩]⟩ = .ok true :=
  solve_eq_true_of_satisfiedBy ⟨1, [⟨[1, 1, -1], 1⟩, ⟨[-2, -2], -2⟩]⟩ (fun _ => false)
    (by simp [SatisfiedBy, litTrue, FormulaImpl.lits])

/-- **Termination**: `solve` returns a verdict on every formula, without ever taking the first
element of an empty list, and every call it makes is on a smaller formula. -/
theorem solve_terminates (f : FormulaImpl) :
    (∃ b, solve f = .ok b) ∧ ∀ g, RecCall f g → g.size < f.size := by
  obtain ⟨b, hb, -⟩ := solve_spec f
  exact ⟨⟨b, hb⟩, fun g hg => hg.size_lt⟩

/-! ## Repeating a literal -/

/-- **When repeating a literal keeps the verdict**: write a literal `l` of the clause `a ++ b`
once more into it. The verdict stays the same iff the clause already repeated a literal, or the
other repetition-free clauses, as far as they can be satisfied at all, can be satisfied together
with it. -/
theorem solve_repeat_iff (pre post : List ClauseImpl) (a b : List Int32) (l : Int32)
    (hl : l ∈ a ++ b) (x x' m m' : Int32) :
    solve ⟨m, pre ++ ⟨a ++ b, x⟩ :: post⟩ = solve ⟨m', pre ++ ⟨a ++ l :: b, x'⟩ :: post⟩ ↔
      ¬ (a ++ b).Nodup ∨
        ((∃ ν, SatisfiedBy ν (plain (clauseLits pre ++ clauseLits post))) →
          ∃ ν, SatisfiedBy ν (plain (clauseLits pre ++ (a ++ b) :: clauseLits post))) := by
  have hdup : ¬ (a ++ l :: b).Nodup := by
    rw [List.nodup_middle, List.nodup_cons]
    rintro ⟨hnot, -⟩
    exact hnot hl
  have hdrop : ∀ c : List Int32, ¬ c.Nodup →
      plain (clauseLits pre ++ c :: clauseLits post) =
        plain (clauseLits pre ++ clauseLits post) := by
    intro c hc
    rw [plain_append, plain_append, plain_cons_of_not_nodup hc]
  have hmono : (∃ ν, SatisfiedBy ν (plain (clauseLits pre ++ (a ++ b) :: clauseLits post))) →
      ∃ ν, SatisfiedBy ν (plain (clauseLits pre ++ clauseLits post)) := by
    rintro ⟨ν, hν⟩
    refine ⟨ν, ?_⟩
    intro d hd
    apply hν
    simp only [mem_plain, List.mem_append, List.mem_cons] at hd ⊢
    exact ⟨hd.1.imp_right Or.inr, hd.2⟩
  rw [solve_eq_solve_iff]
  simp only [FormulaImpl.lits, clauseLits, List.map_append, List.map_cons]
  simp only [clauseLits] at hdrop hmono
  rw [hdrop _ hdup]
  by_cases hcn : (a ++ b).Nodup
  · constructor
    · intro h
      exact Or.inr h.mpr
    · rintro (hdup' | h)
      · exact absurd hcn hdup'
      · exact ⟨hmono, h⟩
  · constructor
    · intro _
      exact Or.inl hcn
    · intro _
      rw [hdrop _ hcn]

/-- In `1 ∧ (-1 ∨ 2)`, writing `2` once more into the second clause. -/
theorem solve_repeat_iff_two :
    solve ⟨2, [⟨[1], 1⟩, ⟨[-1, 2], 2⟩]⟩ = solve ⟨2, [⟨[1], 1⟩, ⟨[-1, 2, 2], 2⟩]⟩ ↔
      ¬ ([-1, 2] : List Int32).Nodup ∨
        ((∃ ν, SatisfiedBy ν (plain [[1]])) → ∃ ν, SatisfiedBy ν (plain [[1], [-1, 2]])) :=
  solve_repeat_iff [⟨[1], 1⟩] [] [-1] [2] 2 (by simp) 2 2 2 2

/-- `1 ∧ -1` is unsatisfiable and `solve` says so; with the first clause written `1 ∨ 1` it
answers `true`. -/
theorem solve_repeat_changes_verdict :
    solve ⟨1, [⟨[1], 1⟩, ⟨[-1], -1⟩]⟩ = .ok false ∧
      solve ⟨1, [⟨[1, 1], 1⟩, ⟨[-1], -1⟩]⟩ = .ok true := by
  constructor
  · decide +kernel
  · decide +kernel

end Asenal.Sat
