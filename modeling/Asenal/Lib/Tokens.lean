import Mathlib.Data.List.TakeWhile

/-!
# Tokens

The tokens of a list are its runs between separators that are not empty.

* `tokens_append`, `tokens_cases` — the first token, and those behind it.
* `tokens_map` — the tokens of a list and of its image.
* `length_tokens`, `starts_append` — how many tokens there are, counted where they begin.
-/

namespace Asenal.Lib.Tokens

variable {α : Type*} (p : α → Bool)

/-- The tokens of a list with the separators `p`. -/
def tokens (s : List α) : List (List α) := (s.splitOnP p).filter fun t => !t.isEmpty

variable {p} {a : α} {s t rest : List α}

/-- Nothing has no tokens. -/
@[simp] theorem tokens_nil : tokens p [] = [] := rfl

/-- A separator in front of a list. -/
theorem tokens_sep (h : p a = true) (s : List α) : tokens p (a :: s) = tokens p s := by
  rw [tokens, List.splitOnP_cons_eq_if_modifyHead, if_pos h]
  rfl

/-- A separator behind a list. -/
theorem tokens_append_sep (h : p a = true) (s : List α) : tokens p (s ++ [a]) = tokens p s := by
  rw [tokens, List.splitOnP_append_cons s [] h, List.filter_append]
  exact List.append_nil _

/-- Separators in front of a list. -/
theorem tokens_dropWhile (s : List α) : tokens p (s.dropWhile p) = tokens p s := by
  induction s with
  | nil => rfl
  | cons a s ih =>
      by_cases h : p a = true
      · rw [List.dropWhile_cons_of_pos h, ih, tokens_sep h]
      · rw [List.dropWhile_cons_of_neg h]

/-- What is left begins with no element that would have been left out. -/
theorem not_of_mem_head_dropWhile (p : α → Bool) (s : List α) : ∀ a ∈ (s.dropWhile p).head?, p a = false := by
  intro a ha
  have hhead := List.head?_dropWhile_not p s
  rwa [ha] at hhead

/-- **The first token**, if the list begins with it. -/
theorem tokens_append (hne : t ≠ []) (ht : ∀ a ∈ t, p a = false) (hrest : ∀ a ∈ rest.head?, p a = true) :
    tokens p (t ++ rest) = t :: tokens p rest := by
  have hkeep : (!t.isEmpty) = true := by
    cases t with
    | nil => exact absurd rfl hne
    | cons a t => rfl
  cases rest with
  | nil =>
      rw [List.append_nil, tokens, List.splitOnP_eq_singleton ht]
      exact List.filter_cons_of_pos (p := fun t : List α => !t.isEmpty) hkeep
  | cons a rest =>
      have hsep : p a = true := hrest a rfl
      rw [tokens_sep hsep, tokens, List.splitOnP_append_cons_of_forall_mem ht a hsep]
      exact List.filter_cons_of_pos (p := fun t : List α => !t.isEmpty) hkeep

/-- **A list is separators, its first token and what stands behind it**, unless it has no tokens. -/
theorem tokens_cases (s : List α) : tokens p s = [] ∧ s.dropWhile p = [] ∨
    ∃ t rest, t ≠ [] ∧ (∀ a ∈ t, p a = false) ∧ (∀ a ∈ rest.head?, p a = true) ∧
      s.dropWhile p = t ++ rest ∧ tokens p s = t :: tokens p rest := by
  have hdrop := tokens_dropWhile (p := p) s
  have hhead := not_of_mem_head_dropWhile p s
  generalize s.dropWhile p = u at *
  cases u with
  | nil => exact Or.inl ⟨hdrop.symm, rfl⟩
  | cons a u =>
      have ha : p a = false := hhead a rfl
      have hsplit : (a :: u).takeWhile (fun a => !p a) ++ (a :: u).dropWhile (fun a => !p a) = a :: u :=
        List.takeWhile_append_dropWhile
      have hne : (a :: u).takeWhile (fun a => !p a) ≠ [] := by
        rw [List.takeWhile_cons_of_pos (by rw [ha]; rfl)]
        exact List.cons_ne_nil _ _
      have htoken : ∀ b ∈ (a :: u).takeWhile (fun a => !p a), p b = false :=
        fun b hb => by simpa using List.mem_takeWhile_imp hb
      have hrest : ∀ b ∈ ((a :: u).dropWhile fun a => !p a).head?, p b = true :=
        fun b hb => by simpa using not_of_mem_head_dropWhile (fun a => !p a) (a :: u) b hb
      refine Or.inr ⟨_, _, hne, htoken, hrest, hsplit.symm, ?_⟩
      rw [← hdrop, ← tokens_append hne htoken hrest, hsplit]

/-- The tokens have elements, and no separators. -/
theorem of_mem_tokens (h : t ∈ tokens p s) : t ≠ [] ∧ ∀ a ∈ t, p a = false := by
  induction hn : s.length using Nat.strong_induction_on generalizing s with
  | _ n ih =>
      rcases tokens_cases (p := p) s with ⟨hnil, -⟩ | ⟨u, rest, hne, hu, -, hdrop, htokens⟩
      · simp [hnil] at h
      · rw [htokens] at h
        rcases List.mem_cons.mp h with rfl | h
        · exact ⟨hne, hu⟩
        · have hle := (List.dropWhile_sublist p (l := s)).length_le
          have hpos := List.length_pos_iff.mpr hne
          rw [hdrop, List.length_append] at hle
          exact ih rest.length (by omega) h rfl

/-- The tokens of the images, where the separators are the elements whose images are. -/
theorem tokens_map {β : Type*} (f : β → α) (s : List β) :
    tokens p (s.map f) = (tokens (p ∘ f) s).map (List.map f) := by
  have hsplit : ∀ s : List β, (s.map f).splitOnP p = (s.splitOnP (p ∘ f)).map (List.map f) := by
    intro s
    induction s with
    | nil => rfl
    | cons b s ih =>
        rw [List.map_cons, List.splitOnP_cons_eq_if_modifyHead, List.splitOnP_cons_eq_if_modifyHead, ih,
          Function.comp_apply]
        by_cases h : p (f b) = true
        · rw [if_pos h, if_pos h, List.map_cons, List.map_nil]
        · rw [if_neg h, if_neg h]
          cases s.splitOnP (p ∘ f) <;> rfl
  rw [tokens, tokens, hsplit, List.filter_map]
  congr 2
  funext t
  cases t <;> rfl

/-! ## The number of tokens -/

variable (p)

/-- How many tokens begin in a list; `free` tells whether one may begin with its first element. -/
def starts : Bool → List α → ℕ
  | _, [] => 0
  | free, a :: s => (if free && !p a then 1 else 0) + starts (p a) s

/-- Whether a token may begin behind a list. -/
def freeBehind (free : Bool) (s : List α) : Bool := (s.getLast?.map p).getD free

variable {p}

/-- Behind one character more. -/
theorem freeBehind_cons (free : Bool) (a : α) (s : List α) :
    freeBehind p free (a :: s) = freeBehind p (p a) s := by
  cases s with
  | nil => rfl
  | cons b s =>
      obtain ⟨c, hc⟩ : ∃ c, (b :: s).getLast? = some c :=
        ⟨_, List.getLast?_eq_some_getLast (List.cons_ne_nil b s)⟩
      rw [freeBehind, freeBehind, List.getLast?_cons_cons, hc]
      rfl

/-- Behind two texts. -/
theorem freeBehind_append (free : Bool) (s t : List α) :
    freeBehind p free (s ++ t) = freeBehind p (freeBehind p free s) t := by
  unfold freeBehind
  rw [List.getLast?_append]
  cases t.getLast? <;> rfl

/-- The tokens that start in two texts. -/
theorem starts_append (free : Bool) (s t : List α) :
    starts p free (s ++ t) = starts p free s + starts p (freeBehind p free s) t := by
  induction s generalizing free with
  | nil => exact (Nat.zero_add _).symm
  | cons a s ih => rw [List.cons_append, starts, ih, starts, freeBehind_cons, Nat.add_assoc]

/-- The tokens of the pieces behind the first one begin in the list, also if its beginning continues one. -/
theorem length_pieces (s : List α) : ∃ t ts, s.splitOnP p = t :: ts ∧
    (ts.filter fun t => !t.isEmpty).length = starts p false s ∧
    ((t :: ts).filter fun t => !t.isEmpty).length = starts p true s := by
  induction s with
  | nil => exact ⟨[], [], rfl, rfl, rfl⟩
  | cons a s ih =>
      obtain ⟨t, ts, hsplit, hfalse, htrue⟩ := ih
      rw [List.splitOnP_cons_eq_if_modifyHead, hsplit]
      by_cases h : p a = true
      · refine ⟨[], t :: ts, if_pos h, ?_, ?_⟩
        · rw [htrue, starts, h]
          exact (Nat.zero_add _).symm
        · rw [starts, h]
          exact htrue.trans (Nat.zero_add _).symm
      · refine ⟨a :: t, ts, if_neg h, ?_, ?_⟩
        · rw [hfalse, starts, eq_false_of_ne_true h]
          exact (Nat.zero_add _).symm
        · rw [List.filter_cons_of_pos (p := fun t : List α => !t.isEmpty) rfl, List.length_cons, hfalse, starts,
            eq_false_of_ne_true h]
          exact Nat.add_comm _ _

/-- **How many tokens there are.** -/
theorem length_tokens (s : List α) : (tokens p s).length = starts p true s := by
  obtain ⟨t, ts, hsplit, -, hlen⟩ := @length_pieces α p s
  rw [tokens, hsplit, hlen]

end Asenal.Lib.Tokens
