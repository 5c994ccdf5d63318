import Asenal.Lib.Cnf
import Asenal.Lib.Sweep
import Mathlib.Data.UInt

/-!
# The formula of the SAT solver

`ClauseImpl` and `FormulaImpl` of `c++/xulu`, with the in-place simplifications of
`formula_impl.cpp`. A literal is a C++ `int`, here an `Int32`, so `-lit` is the compiled
negation: on `INT_MIN` it returns `INT_MIN`.

* The erase-while-iterating loops are sweeps (`Asenal.Lib.Sweep`); `updateClause` and the inner
  loop of `unitClause` are one loop, written twice in the source.
* A `std::set<int>` is the ascending list of its elements.
* `lits f` reads a formula as a clause set of `Asenal.Lib.Cnf`. The theorems of this file say
  what each simplification does on that level: `updateClause` is `residual`, a successful
  `unitClause` or `pureClause` shrinks the formula and keeps its plain part's satisfiability.
-/

namespace Asenal.Sat

open Asenal.Lib.Cnf Asenal.Lib.Sweep

instance instInvolutiveNegInt32 : InvolutiveNeg Int32 := ⟨fun _ => Int32.neg_neg⟩

/-! ## Clauses and formulas -/

/-- A clause. Source: `clause_impl.h` `ClauseImpl`. -/
structure ClauseImpl where
  /-- The literals, in the order in which they were added. -/
  literalList : List Int32
  /-- The largest literal; unset memory as long as no literal was added. -/
  maxNum : Int32
deriving DecidableEq

/-- Source: `clause_impl.cpp` `ClauseImpl::addLiteral`. -/
def ClauseImpl.addLiteral (c : ClauseImpl) (lit : Int32) : ClauseImpl :=
  if (c.literalList ++ [lit]).length = 1 then
    { literalList := c.literalList ++ [lit], maxNum := lit }
  else
    { literalList := c.literalList ++ [lit], maxNum := if c.maxNum < lit then lit else c.maxNum }

/-- The literals after `addLiteral`. -/
@[simp] theorem ClauseImpl.addLiteral_literalList (c : ClauseImpl) (lit : Int32) :
    (c.addLiteral lit).literalList = c.literalList ++ [lit] := by
  unfold ClauseImpl.addLiteral
  split <;> rfl

/-- Source: `clause_impl.cpp` `ClauseImpl::maxVar`. -/
def ClauseImpl.getMaxVar (c : ClauseImpl) : Int32 := c.maxNum

/-- A formula. Source: `formula.h` `Formula`, `formula_impl.h` `FormulaImpl`. -/
structure FormulaImpl where
  /-- The largest literal of the clauses read so far (`Formula::maxVar`). -/
  maxVar : Int32
  /-- The clauses. -/
  clauseList : List ClauseImpl
deriving DecidableEq

namespace FormulaImpl

/-- A formula under construction. Source: `formula.h` `Formula()`, `formula_impl.cpp`
`FormulaImpl()`. -/
def new : FormulaImpl := { maxVar := 0, clauseList := [] }

/-- Source: `formula_impl.cpp` `FormulaImpl::numClauses`. -/
def numClauses (f : FormulaImpl) : ℕ := f.clauseList.length

/-- Source: `formula_impl.cpp` `FormulaImpl::consistent`. -/
def consistent (f : FormulaImpl) : Bool := f.clauseList.length == 0

/-- Source: `formula_impl.cpp` `FormulaImpl::emptyClause`. -/
def emptyClause (f : FormulaImpl) : Bool := f.clauseList.any fun c => c.literalList.length == 0

/-- The clause set of a clause list. -/
abbrev clauseLits (cl : List ClauseImpl) : List (List Int32) := cl.map ClauseImpl.literalList

/-- The clause set of a formula. -/
abbrev lits (f : FormulaImpl) : List (List Int32) := clauseLits f.clauseList

/-- Only a formula without clauses is `consistent`. -/
theorem consistent_iff (f : FormulaImpl) : f.consistent = true ↔ f.lits = [] := by
  simp [consistent]

/-- `emptyClause` finds an empty clause if there is one. -/
theorem emptyClause_iff (f : FormulaImpl) : f.emptyClause = true ↔ [] ∈ f.lits := by
  simp [emptyClause, List.any_eq_true, List.length_eq_zero_iff]

/-! ## Assuming a literal -/

/-- What the sweep of `updateClause` does with one clause: erase it if it contains `lit`, else
erase the first `-lit` from it. -/
def updateStep (lit : Int32) (c : ClauseImpl) : Option ClauseImpl :=
  if lit ∈ c.literalList then none
  else if -lit ∈ c.literalList then some { c with literalList := c.literalList.erase (-lit) }
  else some c

/-- The loop of `updateClause` and the inner loop of `unitClause`. -/
def updateLoop (lit : Int32) (cl : List ClauseImpl) : List ClauseImpl :=
  (sweep (updateStep lit) cl 0).2

/-- Source: `formula_impl.cpp` `FormulaImpl::updateClause`. -/
def updateClause (f : FormulaImpl) (lit : Int32) : FormulaImpl :=
  { f with clauseList := updateLoop lit f.clauseList }

/-- The update loop computes the residual. -/
theorem updateLoop_lits (lit : Int32) (cl : List ClauseImpl) :
    clauseLits (updateLoop lit cl) = residual lit (clauseLits cl) := by
  rw [updateLoop, sweep_zero]
  induction cl with
  | nil => rfl
  | cons c cl ih =>
      by_cases h : lit ∈ c.literalList
      · rw [List.filterMap_cons_none (by simp [updateStep, h]), ih]
        exact (residual_cons_of_mem h _).symm
      · by_cases hn : -lit ∈ c.literalList
        · have hstep : updateStep lit c =
              some { c with literalList := c.literalList.erase (-lit) } := by
            simp [updateStep, h, hn]
          rw [List.filterMap_cons_some hstep]
          simp only [clauseLits, List.map_cons] at ih ⊢
          rw [ih, residual_cons_of_not_mem h]
        · rw [List.filterMap_cons_some (b := c) (by simp [updateStep, h, hn])]
          simp only [clauseLits, List.map_cons] at ih ⊢
          rw [ih, residual_cons_of_not_mem h, List.erase_of_not_mem hn]

/-- `updateClause` computes the residual. -/
@[simp] theorem updateClause_lits (f : FormulaImpl) (lit : Int32) :
    (f.updateClause lit).lits = residual lit f.lits :=
  updateLoop_lits lit f.clauseList

/-- The update loop never adds a clause. -/
theorem length_updateLoop_le (lit : Int32) (cl : List ClauseImpl) :
    (updateLoop lit cl).length ≤ cl.length := by
  rw [updateLoop, sweep_zero]
  exact List.length_filterMap_le _ _

/-! ## Unit propagation -/

/-- The first clause with exactly one literal: its index and the literal. -/
def firstUnit : List ClauseImpl → Option (ℕ × Int32)
  | [] => none
  | c :: cl =>
      match c.literalList with
      | [lit] => some (0, lit)
      | _ => (firstUnit cl).map fun r => (r.1 + 1, r.2)

/-- A reported unit clause stands at the reported index. -/
theorem firstUnit_eq_some {cl : List ClauseImpl} {i : ℕ} {lit : Int32}
    (h : firstUnit cl = some (i, lit)) :
    ∃ pre c post, cl = pre ++ c :: post ∧ pre.length = i ∧ c.literalList = [lit] := by
  induction cl generalizing i with
  | nil => simp [firstUnit] at h
  | cons c cl ih =>
      unfold firstUnit at h
      split at h
      · next lit' hc =>
          simp only [Option.some.injEq, Prod.mk.injEq] at h
          obtain ⟨rfl, rfl⟩ := h
          exact ⟨[], c, cl, rfl, rfl, hc⟩
      · simp only [Option.map_eq_some_iff, Prod.mk.injEq, Prod.exists] at h
        obtain ⟨j, l, hj, rfl, rfl⟩ := h
        obtain ⟨pre, d, post, rfl, rfl, hd⟩ := ih hj
        exact ⟨c :: pre, d, post, rfl, rfl, hd⟩

/-- The `while (1)` loop of `unitClause`: take the first unit clause, erase it, propagate its
literal through the others, and start over. -/
def unitLoop (cl : List ClauseImpl) (fenter : Bool) : Bool × List ClauseImpl :=
  match _h : firstUnit cl with
  | none => (fenter, cl)
  | some (i, lit) => unitLoop (updateLoop lit (cl.eraseIdx i)) true
termination_by cl.length
decreasing_by
  obtain ⟨pre, c, post, rfl, rfl, -⟩ := firstUnit_eq_some _h
  have hle := length_updateLoop_le lit ((pre ++ c :: post).eraseIdx pre.length)
  rw [List.length_eraseIdx_of_lt (by simp)] at hle
  simp only [List.length_append, List.length_cons] at hle ⊢
  omega

/-- What one in-place simplification of `cl` to `cl'` guarantees, `changed` being the flag it
reports: satisfiability of the plain part is kept, a reported change shrinks the formula, and
without one nothing changed. -/
structure Simplifies (cl cl' : List ClauseImpl) (changed : Bool) : Prop where
  /-- The plain part stays satisfiable, or stays unsatisfiable. -/
  sat : Satisfiable (plain (clauseLits cl')) ↔ Satisfiable (plain (clauseLits cl))
  /-- A reported change shrinks the formula. -/
  shrinks : changed = true → size (clauseLits cl') < size (clauseLits cl)
  /-- Without a reported change the clause list is the same. -/
  same : changed = false → cl' = cl

/-- Doing nothing is a simplification. -/
theorem Simplifies.refl (cl : List ClauseImpl) : Simplifies cl cl false :=
  ⟨Iff.rfl, fun h => absurd h Bool.false_ne_true, fun _ => rfl⟩

/-- A simplification never enlarges the formula. -/
theorem Simplifies.size_le {cl cl' : List ClauseImpl} {changed : Bool}
    (h : Simplifies cl cl' changed) : size (clauseLits cl') ≤ size (clauseLits cl) := by
  cases changed with
  | true => exact (h.shrinks rfl).le
  | false => rw [h.same rfl]

/-- Two simplifications in a row. -/
theorem Simplifies.trans {cl₁ cl₂ cl₃ : List ClauseImpl} {x y : Bool}
    (h₁ : Simplifies cl₁ cl₂ x) (h₂ : Simplifies cl₂ cl₃ y) : Simplifies cl₁ cl₃ (x || y) where
  sat := h₂.sat.trans h₁.sat
  shrinks h := by
    rcases (Bool.or_eq_true_iff ..).mp h with rfl | rfl
    · exact lt_of_le_of_lt h₂.size_le (h₁.shrinks rfl)
    · exact lt_of_lt_of_le (h₂.shrinks rfl) h₁.size_le
  same h := by
    obtain ⟨rfl, rfl⟩ := (Bool.or_eq_false_iff ..).mp h
    rw [h₂.same rfl, h₁.same rfl]

/-- Propagating the literal of a unit clause is a simplification that changes something. -/
theorem simplifies_updateLoop {cl : List ClauseImpl} {i : ℕ} {lit : Int32}
    (h : firstUnit cl = some (i, lit)) :
    Simplifies cl (updateLoop lit (cl.eraseIdx i)) true := by
  obtain ⟨pre, c, post, rfl, rfl, hc⟩ := firstUnit_eq_some h
  have hmem : [lit] ∈ clauseLits (pre ++ c :: post) := by
    simp [← hc]
  have herase : (pre ++ c :: post).eraseIdx pre.length = pre ++ post := by
    rw [List.eraseIdx_append_of_length_le (Nat.le_refl _), Nat.sub_self, List.eraseIdx_cons_zero]
  have hres : clauseLits (updateLoop lit ((pre ++ c :: post).eraseIdx pre.length)) =
      residual lit (clauseLits (pre ++ c :: post)) := by
    rw [updateLoop_lits, herase]
    simp only [clauseLits, List.map_append, List.map_cons, residual_append]
    rw [residual_cons_of_mem (by simp [hc])]
  refine ⟨?_, fun _ => ?_, fun h => absurd h.symm Bool.false_ne_true⟩
  · rw [hres]
    exact satisfiable_plain_residual_of_unit hmem
  · rw [hres]
    exact size_residual_lt hmem (Or.inl (List.mem_singleton_self lit))

/-- The loop of `unitClause` simplifies; `fenter` records whether it ever propagated. -/
theorem simplifies_unitLoop (cl : List ClauseImpl) (fenter : Bool) :
    ∃ changed, Simplifies cl (unitLoop cl fenter).2 changed ∧
      (unitLoop cl fenter).1 = (fenter || changed) := by
  induction cl, fenter using unitLoop.induct with
  | case1 cl fenter h =>
      rw [unitLoop]
      split
      · exact ⟨false, Simplifies.refl cl, by simp⟩
      · next i lit h' => rw [h] at h'; cases h'
  | case2 cl fenter i lit h ih =>
      rw [unitLoop]
      split
      · next h' => rw [h] at h'; cases h'
      · next j lit' h' =>
          rw [h] at h'
          cases h'
          obtain ⟨changed, hs, hflag⟩ := ih
          exact ⟨true, (simplifies_updateLoop h).trans hs, by simp [hflag]⟩

/-- Source: `formula_impl.cpp` `FormulaImpl::unitClause`. The result says whether anything was
propagated; the formula is changed in place. -/
def unitClause (f : FormulaImpl) : Bool × FormulaImpl :=
  let r := unitLoop f.clauseList false
  (r.1, { f with clauseList := r.2 })

/-- `unitClause` simplifies the formula and reports whether it changed. -/
theorem simplifies_unitClause (f : FormulaImpl) :
    Simplifies f.clauseList f.unitClause.2.clauseList f.unitClause.1 := by
  obtain ⟨changed, hs, hflag⟩ := simplifies_unitLoop f.clauseList false
  simp only [unitClause, hflag, Bool.false_or]
  exact hs

/-! ## Pure literals -/

/-- Insertion into a `std::set<int>`. -/
def setInsert (x : Int32) : List Int32 → List Int32
  | [] => [x]
  | y :: s => if x < y then x :: y :: s else if x = y then y :: s else y :: setInsert x s

/-- Removal from a `std::set<int>`. -/
def setErase (x : Int32) (s : List Int32) : List Int32 := s.filter fun y => y ≠ x

/-- Membership after an insertion. -/
@[simp] theorem mem_setInsert {x l : Int32} {s : List Int32} :
    l ∈ setInsert x s ↔ l = x ∨ l ∈ s := by
  induction s with
  | nil => simp [setInsert]
  | cons y s ih =>
      unfold setInsert
      split_ifs with h₁ h₂
      · simp
      · subst h₂
        simp
      · simp only [List.mem_cons, ih]
        tauto

/-- Membership after a removal. -/
@[simp] theorem mem_setErase {x l : Int32} {s : List Int32} :
    l ∈ setErase x s ↔ l ∈ s ∧ l ≠ x := by
  simp [setErase]

/-- The set `literals` of `pureClause`: all literals of the formula. -/
def allLiterals (cl : List ClauseImpl) : List Int32 :=
  cl.foldl (fun s c => c.literalList.foldl (fun s l => setInsert l s) s) []

/-- `allLiterals` collects the literals of all clauses. -/
theorem mem_allLiterals {l : Int32} {cl : List ClauseImpl} :
    l ∈ allLiterals cl ↔ ∃ c ∈ cl, l ∈ c.literalList := by
  have inner : ∀ ls s : List Int32,
      l ∈ ls.foldl (fun s l => setInsert l s) s ↔ l ∈ ls ∨ l ∈ s := by
    intro ls
    induction ls with
    | nil => simp
    | cons x ls ih =>
        intro s
        rw [List.foldl_cons, ih, mem_setInsert, List.mem_cons]
        tauto
  have outer : ∀ (cl : List ClauseImpl) (s : List Int32),
      l ∈ cl.foldl (fun s c => c.literalList.foldl (fun s l => setInsert l s) s) s ↔
        (∃ c ∈ cl, l ∈ c.literalList) ∨ l ∈ s := by
    intro cl
    induction cl with
    | nil => simp
    | cons c cl ih =>
        intro s
        rw [List.foldl_cons, ih, inner]
        simp only [List.mem_cons, exists_eq_or_imp]
        rw [or_assoc, or_left_comm]
  simpa [allLiterals] using outer cl []

/-- The set `ans` of `pureClause`: start from all literals and take out both members of every
pair of opposite literals. -/
def pureLiterals (literals : List Int32) : List Int32 :=
  literals.foldl
    (fun ans l => if l * -1 ∈ literals then setErase (l * -1) (setErase l ans) else ans) literals

/-- `pureLiterals` keeps the literals whose opposite does not occur. -/
theorem mem_pureLiterals {l : Int32} {s : List Int32} :
    l ∈ pureLiterals s ↔ l ∈ s ∧ -l ∉ s := by
  have hneg : ∀ k : Int32, k * -1 = -k := by
    intro k
    grind
  have loop : ∀ ks ans : List Int32,
      l ∈ ks.foldl
          (fun ans k => if k * -1 ∈ s then setErase (k * -1) (setErase k ans) else ans) ans ↔
        l ∈ ans ∧ ∀ k ∈ ks, -k ∈ s → l ≠ k ∧ l ≠ -k := by
    intro ks
    induction ks with
    | nil => simp
    | cons k ks ih =>
        intro ans
        rw [List.foldl_cons, ih]
        by_cases h : -k ∈ s
        · simp only [hneg, h, if_true, mem_setErase, List.mem_cons, forall_eq_or_imp, true_implies]
          rw [and_assoc, and_assoc, and_assoc]
        · simp [hneg, h]
  rw [pureLiterals, loop]
  apply and_congr_right
  intro hl
  constructor
  · intro h hn
    exact (h l hl hn).1 rfl
  · intro h k hk hkn
    constructor
    · rintro rfl
      exact h hkn
    · rintro rfl
      apply h
      rwa [neg_neg]

/-- What the sweep for the pure literal `lit` does with one clause. -/
def pureStep (lit : Int32) (c : ClauseImpl) : Option ClauseImpl :=
  if lit ∈ c.literalList then none else some c

/-- Erase the clauses containing `lit`; the flag is raised at every erasure. -/
def pureLoop (st : Bool × List ClauseImpl) (lit : Int32) : Bool × List ClauseImpl :=
  let r := sweep (pureStep lit) st.2 0
  (st.1 || decide (0 < r.1), r.2)

/-- Source: `formula_impl.cpp` `FormulaImpl::pureClause`. The result says whether a clause was
erased; the formula is changed in place. -/
def pureClause (f : FormulaImpl) : Bool × FormulaImpl :=
  let r := (pureLiterals (allLiterals f.clauseList)).foldl pureLoop (false, f.clauseList)
  (r.1, { f with clauseList := r.2 })

/-- The pure-literal sweep keeps the clauses without the literal. -/
theorem pureLoop_eq (st : Bool × List ClauseImpl) (lit : Int32) :
    pureLoop st lit = (st.1 || st.2.any fun c => lit ∈ c.literalList,
      st.2.filter fun c => lit ∉ c.literalList) := by
  have hcount : (0 < st.2.countP fun c => (pureStep lit c).isNone) ↔
      (st.2.any fun c => lit ∈ c.literalList) = true := by
    rw [List.countP_pos_iff, List.any_eq_true]
    refine exists_congr fun c => and_congr_right fun _ => ?_
    by_cases h : lit ∈ c.literalList <;> simp [pureStep, h]
  have hfilter : st.2.filterMap (pureStep lit) = st.2.filter fun c => lit ∉ c.literalList := by
    rw [← List.filterMap_eq_filter]
    apply List.filterMap_congr
    intro c _
    by_cases h : lit ∈ c.literalList <;> simp [pureStep, Option.guard, h]
  simp only [pureLoop, sweep_zero, hfilter, hcount, Bool.decide_eq_true]

/-- One pure-literal sweep is a simplification, if the opposite literal does not occur. -/
theorem simplifies_pureLoop {cl : List ClauseImpl} {lit : Int32}
    (h : ∀ c ∈ cl, -lit ∉ c.literalList) (flag : Bool) :
    Simplifies cl (pureLoop (flag, cl) lit).2 (cl.any fun c => lit ∈ c.literalList) := by
  have hlits : clauseLits (cl.filter fun c => lit ∉ c.literalList) =
      (clauseLits cl).filter fun c => lit ∉ c := by
    rw [clauseLits, List.filter_map]
    rfl
  rw [pureLoop_eq]
  constructor
  · rw [hlits]
    apply satisfiable_plain_of_pure
    simpa using h
  · intro hany
    rw [hlits]
    obtain ⟨c, hc, hl⟩ := List.any_eq_true.mp hany
    exact size_filter_lt (List.mem_map_of_mem hc) (by simpa using hl)
  · intro hnone
    rw [List.filter_eq_self]
    simpa using hnone

/-- The sweeps over a list of pure literals simplify; the flag records whether any of them
erased a clause. -/
theorem simplifies_foldl_pureLoop (ls : List Int32) (cl : List ClauseImpl) (flag : Bool)
    (h : ∀ l ∈ ls, ∀ c ∈ cl, -l ∉ c.literalList) :
    ∃ changed, Simplifies cl (ls.foldl pureLoop (flag, cl)).2 changed ∧
      (ls.foldl pureLoop (flag, cl)).1 = (flag || changed) := by
  induction ls generalizing cl flag with
  | nil => exact ⟨false, Simplifies.refl cl, by simp⟩
  | cons l ls ih =>
      have hstep := simplifies_pureLoop (h l List.mem_cons_self) flag
      rw [List.foldl_cons]
      rw [pureLoop_eq] at hstep ⊢
      obtain ⟨changed, hs, hflag⟩ := ih (cl.filter fun c => l ∉ c.literalList)
        (flag || cl.any fun c => l ∈ c.literalList)
        (fun m hm c hc => h m (List.mem_cons_of_mem _ hm) c (List.mem_of_mem_filter hc))
      exact ⟨_, hstep.trans hs, by rw [hflag, Bool.or_assoc]⟩

/-- `pureClause` simplifies the formula and reports whether it changed. -/
theorem simplifies_pureClause (f : FormulaImpl) :
    Simplifies f.clauseList f.pureClause.2.clauseList f.pureClause.1 := by
  have hpure : ∀ l ∈ pureLiterals (allLiterals f.clauseList), ∀ c ∈ f.clauseList,
      -l ∉ c.literalList := by
    intro l hl c hc hn
    exact (mem_pureLiterals.mp hl).2 (mem_allLiterals.mpr ⟨c, hc, hn⟩)
  obtain ⟨changed, hs, hflag⟩ := simplifies_foldl_pureLoop _ f.clauseList false hpure
  simp only [pureClause, hflag, Bool.false_or]
  exact hs

end FormulaImpl

end Asenal.Sat
