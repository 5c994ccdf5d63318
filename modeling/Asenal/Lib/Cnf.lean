import Mathlib.Algebra.Group.Basic
import Mathlib.Data.List.Nodup

/-!
# Clause sets with repeated literals

Clause sets over an arbitrary literal type `L` with an involutive negation. Nothing is assumed
about `-l ≠ l`: a literal that is its own negation (the least value of a two's complement
integer) is a literal whose opposite cannot be written.

* `Valuation L` — a truth value for every literal, opposite on `l` and `-l` where they differ.
* `residual l f` — the textbook step "assume `l`", as programs implement it with a *first
  occurrence* erase: the clauses containing `l` go, and every other clause loses **one** `-l`.
* `plain f` — the clauses of `f` in which no literal is repeated.

On clause sets without repetitions `residual` preserves models. With repetitions it does not:
a copy of a falsified literal stays behind and may later be asserted. What is preserved
(`satisfiable_plain_split`, `satisfiable_plain_residual_of_unit`, `satisfiable_plain_of_pure`)
is the satisfiability of `plain f`: a clause that repeats a literal constrains nothing.
-/

namespace Asenal.Lib.Cnf

variable {L : Type*} [InvolutiveNeg L]

/-! ## Valuations -/

/-- A truth value for every literal; `l` and `-l` are opposite wherever they are distinct. -/
structure Valuation (L : Type*) [InvolutiveNeg L] where
  /-- The truth value of a literal. -/
  holds : L → Bool
  /-- Distinct opposite literals have opposite values. -/
  holds_neg : ∀ l, -l ≠ l → holds (-l) = !holds l

/-- The clause `c` has a literal that is true under `v`. -/
def Holds (v : Valuation L) (c : List L) : Prop := ∃ l ∈ c, v.holds l = true

/-- Every clause of `f` has a true literal under `v`. -/
def Models (v : Valuation L) (f : List (List L)) : Prop := ∀ c ∈ f, Holds v c

/-- Some valuation makes every clause of `f` true. -/
def Satisfiable (f : List (List L)) : Prop := ∃ v : Valuation L, Models v f

variable [DecidableEq L]

namespace Valuation

/-- The valuation `v` with `l` made true (and `-l` false). -/
def set (v : Valuation L) (l : L) : Valuation L where
  holds m := if m = l then true else if m = -l then false else v.holds m
  holds_neg m hm := by
    by_cases h₁ : m = l
    · subst h₁
      simp [hm]
    · by_cases h₂ : m = -l
      · subst h₂
        simp [h₁]
      · have h₃ : -m ≠ l := fun h => h₂ (by rw [← h, neg_neg])
        have h₄ : -m ≠ -l := by
          intro h
          exact h₁ (neg_injective h)
        simp [h₁, h₂, h₃, h₄, v.holds_neg m hm]

/-- The literal that was set is true. -/
@[simp] theorem set_self (v : Valuation L) (l : L) : (v.set l).holds l = true := by
  simp [set]

/-- Literals of other variables keep their value. -/
theorem set_of_ne (v : Valuation L) {l m : L} (h₁ : m ≠ l) (h₂ : m ≠ -l) :
    (v.set l).holds m = v.holds m := by
  simp [set, h₁, h₂]

end Valuation

/-- A clause that holds under `v` without the help of `l` or `-l` holds after `l` is set. -/
theorem Holds.set {v : Valuation L} {c d : List L} (l : L)
    (h : ∃ m ∈ c, v.holds m = true ∧ m ≠ l ∧ m ≠ -l ∧ m ∈ d) : Holds (v.set l) d := by
  obtain ⟨m, -, hm, h₁, h₂, hd⟩ := h
  exact ⟨m, hd, by rw [Valuation.set_of_ne v h₁ h₂, hm]⟩

/-! ## The clauses without repeated literals -/

/-- The clauses of `f` in which no literal is repeated. -/
def plain (f : List (List L)) : List (List L) := f.filter fun c => c.Nodup

omit [InvolutiveNeg L] in
/-- Membership in `plain f`. -/
@[simp] theorem mem_plain {f : List (List L)} {c : List L} : c ∈ plain f ↔ c ∈ f ∧ c.Nodup := by
  simp [plain]

omit [InvolutiveNeg L] in
/-- A clause set without repetitions is its own plain part. -/
theorem plain_eq_self {f : List (List L)} (h : ∀ c ∈ f, c.Nodup) : plain f = f := by
  simpa [plain, List.filter_eq_self] using h

omit [InvolutiveNeg L] in
/-- Taking the plain part distributes over concatenation. -/
theorem plain_append (f g : List (List L)) : plain (f ++ g) = plain f ++ plain g := by
  simp [plain]

omit [InvolutiveNeg L] in
/-- A clause in front that repeats a literal is dropped. -/
theorem plain_cons_of_not_nodup {c : List L} (h : ¬ c.Nodup) (f : List (List L)) :
    plain (c :: f) = plain f := by
  simp [plain, h]

omit [DecidableEq L] in
/-- The empty clause set is satisfiable. -/
theorem satisfiable_nil [Nonempty (Valuation L)] : Satisfiable ([] : List (List L)) :=
  ⟨Classical.arbitrary _, fun _ hc => absurd hc List.not_mem_nil⟩

/-- An empty clause makes the plain part unsatisfiable. -/
theorem not_satisfiable_plain_of_nil_mem {f : List (List L)} (h : [] ∈ f) :
    ¬ Satisfiable (plain f) := by
  rintro ⟨v, hv⟩
  obtain ⟨l, hl, -⟩ := hv [] (mem_plain.mpr ⟨h, List.nodup_nil⟩)
  exact absurd hl List.not_mem_nil

/-! ## Assuming a literal -/

/-- Assume `l`: drop the clauses containing `l`, erase the first `-l` from each of the others. -/
def residual (l : L) (f : List (List L)) : List (List L) :=
  (f.filter fun c => l ∉ c).map fun c => c.erase (-l)

/-- Membership in a residual. -/
theorem mem_residual {l : L} {f : List (List L)} {c' : List L} :
    c' ∈ residual l f ↔ ∃ c ∈ f, l ∉ c ∧ c.erase (-l) = c' := by
  simp [residual, and_assoc]

/-- The residual of the empty clause set. -/
@[simp] theorem residual_nil (l : L) : residual l [] = [] := rfl

/-- A clause containing the assumed literal is dropped. -/
theorem residual_cons_of_mem {l : L} {c : List L} (h : l ∈ c) (f : List (List L)) :
    residual l (c :: f) = residual l f := by
  simp [residual, h]

/-- A clause not containing the assumed literal loses the first opposite literal. -/
theorem residual_cons_of_not_mem {l : L} {c : List L} (h : l ∉ c) (f : List (List L)) :
    residual l (c :: f) = c.erase (-l) :: residual l f := by
  simp [residual, h]

/-- Residuals distribute over concatenation. -/
theorem residual_append (l : L) (f g : List (List L)) :
    residual l (f ++ g) = residual l f ++ residual l g := by
  simp [residual]

omit [InvolutiveNeg L] in
/-- If erasing an occurrence of `m` leaves none and no repetition, nothing was repeated. -/
theorem nodup_of_erase {c : List L} {m : L} (h : (c.erase m).Nodup) (hm : m ∉ c.erase m) :
    c.Nodup := by
  by_cases hc : m ∈ c
  · exact (List.perm_cons_erase hc).nodup_iff.mpr (List.nodup_cons.mpr ⟨hm, h⟩)
  · rwa [List.erase_of_not_mem hc] at h

/-- A model of the plain part in which `l` is true gives a model of the plain part of the
residual. In that model `-l` is true: it satisfies the clauses in which copies of `-l` stayed
behind, and the other clauses do not need it. -/
theorem Models.plain_residual {v : Valuation L} {f : List (List L)} {l : L}
    (hv : Models v (plain f)) (hl : v.holds l = true) : Satisfiable (plain (residual l f)) := by
  refine ⟨v.set (-l), ?_⟩
  intro c' hc'
  obtain ⟨hmem, hnd⟩ := mem_plain.mp hc'
  obtain ⟨c, hc, hlc, rfl⟩ := mem_residual.mp hmem
  by_cases hneg : -l ∈ c.erase (-l)
  · exact ⟨-l, hneg, Valuation.set_self v (-l)⟩
  · obtain ⟨m, hm, hmv⟩ := hv c (mem_plain.mpr ⟨hc, nodup_of_erase hnd hneg⟩)
    have hml : m ≠ l := by
      intro h
      exact hlc (h ▸ hm)
    have hmn : m ≠ -l := by
      rintro rfl
      rw [v.holds_neg l hml, hl] at hmv
      exact absurd hmv (by decide)
    exact Holds.set (-l) ⟨m, hm, hmv, hmn, by rwa [neg_neg], (List.mem_erase_of_ne hmn).mpr hm⟩

/-- A model of the plain part of the residual extends to the plain part: make `l` true. -/
theorem satisfiable_plain_of_residual {f : List (List L)} {l : L}
    (h : Satisfiable (plain (residual l f))) : Satisfiable (plain f) := by
  obtain ⟨v, hv⟩ := h
  refine ⟨v.set l, ?_⟩
  intro c hc
  obtain ⟨hmem, hnd⟩ := mem_plain.mp hc
  by_cases hlc : l ∈ c
  · exact ⟨l, hlc, Valuation.set_self v l⟩
  · obtain ⟨m, hm, hmv⟩ :=
      hv (c.erase (-l)) (mem_plain.mpr ⟨mem_residual.mpr ⟨c, hmem, hlc, rfl⟩, hnd.erase _⟩)
    obtain ⟨hmn, hmc⟩ := hnd.mem_erase_iff.mp hm
    exact Holds.set l ⟨m, hmc, hmv, fun h => hlc (h ▸ hmc), hmn, hmc⟩

/-- **The split**: the plain part is satisfiable iff one of the two residuals' plain parts is. -/
theorem satisfiable_plain_split (f : List (List L)) (l : L) :
    Satisfiable (plain f) ↔
      Satisfiable (plain (residual l f)) ∨ Satisfiable (plain (residual (-l) f)) := by
  constructor
  · rintro ⟨v, hv⟩
    by_cases hl : v.holds l = true
    · exact Or.inl (hv.plain_residual hl)
    · have hne : -l ≠ l ∨ -l = l := (em (-l = l)).symm
      rcases hne with hne | heq
      · exact Or.inr (hv.plain_residual (by rw [v.holds_neg l hne]; simpa using hl))
      · -- `l` is its own opposite: no clause of either residual contains it
        refine Or.inl ⟨v, ?_⟩
        intro c' hc'
        obtain ⟨hmem, hnd⟩ := mem_plain.mp hc'
        obtain ⟨c, hc, hlc, rfl⟩ := mem_residual.mp hmem
        rw [heq, List.erase_of_not_mem hlc] at hnd ⊢
        exact hv c (mem_plain.mpr ⟨hc, hnd⟩)
  · rintro (h | h)
    · exact satisfiable_plain_of_residual h
    · exact satisfiable_plain_of_residual h

/-- **Unit propagation**: a unit clause `[l]` lets `l` be assumed without loss. -/
theorem satisfiable_plain_residual_of_unit {f : List (List L)} {l : L} (h : [l] ∈ f) :
    Satisfiable (plain (residual l f)) ↔ Satisfiable (plain f) := by
  refine ⟨satisfiable_plain_of_residual, ?_⟩
  rintro ⟨v, hv⟩
  obtain ⟨m, hm, hmv⟩ := hv [l] (mem_plain.mpr ⟨h, List.nodup_singleton l⟩)
  rw [List.mem_singleton.mp hm] at hmv
  exact hv.plain_residual hmv

/-- **Pure literals**: if `-l` occurs nowhere, the clauses containing `l` can be dropped. -/
theorem satisfiable_plain_of_pure {f : List (List L)} {l : L} (h : ∀ c ∈ f, -l ∉ c) :
    Satisfiable (plain (f.filter fun c => l ∉ c)) ↔ Satisfiable (plain f) := by
  constructor
  · rintro ⟨v, hv⟩
    refine ⟨v.set l, ?_⟩
    intro c hc
    obtain ⟨hmem, hnd⟩ := mem_plain.mp hc
    by_cases hlc : l ∈ c
    · exact ⟨l, hlc, Valuation.set_self v l⟩
    · obtain ⟨m, hm, hmv⟩ := hv c (mem_plain.mpr ⟨by simp [hmem, hlc], hnd⟩)
      exact Holds.set l
        ⟨m, hm, hmv, fun e => hlc (e ▸ hm), fun e => h c hmem (e ▸ hm), hm⟩
  · rintro ⟨v, hv⟩
    refine ⟨v, ?_⟩
    intro c hc
    obtain ⟨hmem, hnd⟩ := mem_plain.mp hc
    exact hv c (mem_plain.mpr ⟨List.mem_of_mem_filter hmem, hnd⟩)

/-! ## The size of a clause set -/

/-- The number of literal occurrences plus the number of clauses. -/
def size : List (List L) → ℕ
  | [] => 0
  | c :: f => c.length + 1 + size f

omit [InvolutiveNeg L] [DecidableEq L] in
/-- The size of a clause set with a clause in front. -/
@[simp] theorem size_cons (c : List L) (f : List (List L)) :
    size (c :: f) = c.length + 1 + size f := rfl

omit [InvolutiveNeg L] [DecidableEq L] in
/-- The empty clause set has size `0`. -/
@[simp] theorem size_nil : size ([] : List (List L)) = 0 := rfl

omit [InvolutiveNeg L] in
/-- Dropping the clauses that contain `l` never enlarges a clause set. -/
theorem size_filter_le (l : L) (f : List (List L)) :
    size (f.filter fun c => l ∉ c) ≤ size f := by
  induction f with
  | nil => simp
  | cons c f ih =>
      by_cases h : l ∈ c <;> simp [h] at ih ⊢ <;> omega

omit [InvolutiveNeg L] in
/-- Dropping the clauses that contain `l` shrinks a clause set that has one. -/
theorem size_filter_lt {l : L} {f : List (List L)} {c : List L} (hc : c ∈ f) (hl : l ∈ c) :
    size (f.filter fun c => l ∉ c) < size f := by
  induction f with
  | nil => simp at hc
  | cons d f ih =>
      have hle := size_filter_le l f
      rcases List.mem_cons.mp hc with rfl | hc'
      · simp [hl] at hle ⊢
        omega
      · have := ih hc'
        by_cases h : l ∈ d <;> simp [h] at this ⊢ <;> omega

/-- Assuming a literal never enlarges a clause set. -/
theorem size_residual_le (l : L) (f : List (List L)) : size (residual l f) ≤ size f := by
  induction f with
  | nil => simp
  | cons c f ih =>
      by_cases h : l ∈ c
      · rw [residual_cons_of_mem h, size_cons]
        omega
      · rw [residual_cons_of_not_mem h, size_cons, size_cons]
        have := List.length_erase_le (a := -l) (l := c)
        omega

/-- Assuming a literal shrinks a clause set in which it or its opposite occurs. -/
theorem size_residual_lt {l : L} {f : List (List L)} {c : List L} (hc : c ∈ f)
    (hl : l ∈ c ∨ -l ∈ c) : size (residual l f) < size f := by
  induction f with
  | nil => simp at hc
  | cons d f ih =>
      have hle := size_residual_le l f
      have hlen := List.length_erase_le (a := -l) (l := d)
      rcases List.mem_cons.mp hc with rfl | hc'
      · by_cases h : l ∈ c
        · rw [residual_cons_of_mem h, size_cons]
          omega
        · have hneg : -l ∈ c := hl.resolve_left h
          have := List.length_erase_of_mem hneg
          have := List.length_pos_of_mem hneg
          rw [residual_cons_of_not_mem h, size_cons, size_cons]
          omega
      · have := ih hc'
        by_cases h : l ∈ d
        · rw [residual_cons_of_mem h, size_cons]
          omega
        · rw [residual_cons_of_not_mem h, size_cons, size_cons]
          omega

end Asenal.Lib.Cnf
