import Mathlib.Data.List.Basic
import Mathlib.Tactic.TypeStar

/-!
# Nested calls

A sequence of calls that open something, close what was opened last, or do something in between. Where all that
is opened is closed again, it goes through a forest.

* `exists_forest` — such a sequence is that of a forest.
-/

namespace Asenal.Lib.Nested

variable {O L : Type*}

/-- One call. -/
inductive Call (O L : Type*)
  | enter (o : O)
  | leave
  | leaf (l : L)
deriving DecidableEq

/-- A forest: its first tree, and the trees behind that. -/
inductive Forest (O L : Type*)
  | nil
  | leaf (l : L) (next : Forest O L)
  | node (o : O) (children next : Forest O L)

/-- The calls that go through a forest. -/
def Forest.calls : Forest O L → List (Call O L)
  | .nil => []
  | .leaf l next => .leaf l :: next.calls
  | .node o children next => .enter o :: (children.calls ++ .leave :: next.calls)

/-- How much is open after some calls; `none` if more is closed than was opened. -/
def depth : ℕ → List (Call O L) → Option ℕ
  | d, [] => some d
  | d, .enter _ :: cs => depth (d + 1) cs
  | 0, .leave :: _ => none
  | d + 1, .leave :: cs => depth d cs
  | d, .leaf _ :: cs => depth d cs

/-- The calls that go through several forests, and close one thing behind each of them but the first. -/
def close : List (Forest O L) → List (Call O L)
  | [] => []
  | f :: fs => .leave :: (f.calls ++ close fs)

/-- What is still open is closed behind one forest each. -/
theorem exists_forests (d : ℕ) (cs : List (Call O L)) (h : depth d cs = some 0) :
    ∃ (f : Forest O L) (fs : List (Forest O L)), fs.length = d ∧ cs = f.calls ++ close fs := by
  induction cs generalizing d with
  | nil =>
      rw [depth, Option.some.injEq] at h
      exact ⟨.nil, [], h.symm, rfl⟩
  | cons c cs ih =>
      cases c with
      | enter o =>
          obtain ⟨f, fs, hlen, rfl⟩ := ih (d + 1) (by rwa [depth] at h)
          obtain ⟨g, gs, rfl⟩ := List.exists_cons_of_length_eq_add_one hlen
          refine ⟨.node o f g, gs, by simpa using hlen, ?_⟩
          simp [Forest.calls, close]
      | leave =>
          cases d with
          | zero => simp [depth] at h
          | succ d =>
              obtain ⟨f, fs, hlen, rfl⟩ := ih d (by rwa [depth] at h)
              exact ⟨.nil, f :: fs, by rw [List.length_cons, hlen], rfl⟩
      | leaf l =>
          obtain ⟨f, fs, hlen, rfl⟩ := ih d (by rwa [depth] at h)
          exact ⟨.leaf l f, fs, hlen, rfl⟩

/-- **A sequence of calls** that closes all it opens goes through a forest. -/
theorem exists_forest {cs : List (Call O L)} (h : depth 0 cs = some 0) : ∃ f : Forest O L, f.calls = cs := by
  obtain ⟨f, fs, hlen, rfl⟩ := exists_forests 0 cs h
  rw [List.length_eq_zero_iff.mp hlen]
  exact ⟨f, by simp [close]⟩

end Asenal.Lib.Nested
