import Mathlib.Data.List.Nodup
import Mathlib.Logic.Function.Basic

/-!
# Linked lists in memory

A memory of cells, each with a link to the next one, as a function `next` from addresses to links. Several
lists may be threaded through the same cells; each has a head, and they share no cell.

* `seg_append` — a way along links, in two parts.
* `Seg.nodup`, `Seg.common` — lists that end have no cell twice, and share cells only at their ends.
* `Lists.splice` — the rest of one list is exchanged by one link, and nothing else is changed.
* `Lists.update` — a cell of no list may be changed.
* `mem_update_append`, `Lists.mem_update_remove` — what is in the lists when a cell comes or goes.
-/

namespace Asenal.Lib.Linked

variable {A I : Type*}

/-- From the link `p` on, the cells `l` are passed one after the other, and `q` is the last link. -/
def Seg (next : A → Option A) : Option A → List A → Option A → Prop
  | p, [], q => p = q
  | p, a :: l, q => p = some a ∧ Seg next (next a) l q

/-- A way in two parts. -/
theorem seg_append {next : A → Option A} {p q : Option A} {l m : List A} :
    Seg next p (l ++ m) q ↔ ∃ r, Seg next p l r ∧ Seg next r m q := by
  induction l generalizing p with
  | nil =>
      constructor
      · exact fun h => ⟨p, rfl, h⟩
      · rintro ⟨r, rfl, h⟩
        exact h
  | cons a l ih =>
      constructor
      · rintro ⟨hp, h⟩
        obtain ⟨r, hl, hm⟩ := ih.mp h
        exact ⟨r, ⟨hp, hl⟩, hm⟩
      · rintro ⟨r, ⟨hp, hl⟩, hm⟩
        exact ⟨hp, ih.mpr ⟨r, hl, hm⟩⟩

/-- Only the links of the cells that are passed matter. -/
theorem Seg.congr {next next' : A → Option A} {p q : Option A} {l : List A}
    (h : Seg next p l q) (hnext : ∀ a ∈ l, next' a = next a) : Seg next' p l q := by
  induction l generalizing p with
  | nil => exact h
  | cons a l ih =>
      refine ⟨h.1, ?_⟩
      rw [hnext a List.mem_cons_self]
      exact ih h.2 fun b hb => hnext b (List.mem_cons_of_mem a hb)

/-- From one link on there is one list. -/
theorem Seg.unique {next : A → Option A} {p : Option A} {l l' : List A} (h : Seg next p l none)
    (h' : Seg next p l' none) : l = l' := by
  induction l generalizing p l' with
  | nil =>
      cases l' with
      | nil => rfl
      | cons a l' => exact absurd (h.symm.trans h'.1) (by simp)
  | cons a l ih =>
      cases l' with
      | nil => exact absurd (h'.symm.trans h.1) (by simp)
      | cons b l' =>
          obtain rfl : a = b := Option.some.inj (h.1.symm.trans h'.1)
          rw [ih h.2 h'.2]

/-- **A list that ends** has no cell twice. -/
theorem Seg.nodup {next : A → Option A} {p : Option A} {l : List A} (h : Seg next p l none) : l.Nodup := by
  induction l generalizing p with
  | nil => exact .nil
  | cons a l ih =>
      refine List.nodup_cons.mpr ⟨fun ha => ?_, ih h.2⟩
      obtain ⟨m, n, rfl⟩ := List.append_of_mem ha
      obtain ⟨r, -, hr⟩ := seg_append.mp h.2
      have hlen := congrArg List.length (h.2.unique hr.2)
      rw [List.length_append, List.length_cons] at hlen
      omega

theorem Seg.link_eq {next next' : A → Option A} {p p' q : Option A} {l : List A} (h : Seg next p l q)
    (h' : Seg next' p' l q) : p = p' := by
  cases l with
  | nil => exact h.trans h'.symm
  | cons a l => exact h.1.trans h'.1.symm

/-- The cells of a list have the links that the list says. -/
theorem Seg.next_eq {next next' : A → Option A} {p p' q : Option A} {l : List A} (h : Seg next p l q)
    (h' : Seg next' p' l q) : ∀ a ∈ l, next a = next' a := by
  induction l generalizing p p' with
  | nil => exact fun a ha => absurd ha List.not_mem_nil
  | cons a l ih => exact List.forall_mem_cons.mpr ⟨h.2.link_eq h'.2, ih h.2 h'.2⟩

/-- **Two lists that end** have their shared cells at their ends. -/
theorem Seg.common {next : A → Option A} {p q : Option A} {l m : List A} (hl : Seg next p l none)
    (hm : Seg next q m none) : ∃ l' m' c, l = l' ++ c ∧ m = m' ++ c ∧ (∀ a ∈ l', a ∉ m) ∧ ∀ a ∈ m', a ∉ l := by
  induction m generalizing q with
  | nil => exact ⟨l, [], [], by simp, rfl, by simp, by simp⟩
  | cons b m ih =>
      by_cases hb : b ∈ l
      · obtain ⟨l', c, rfl⟩ := List.append_of_mem hb
        obtain ⟨r, -, hr⟩ := seg_append.mp hl
        obtain rfl := hr.2.unique hm.2
        refine ⟨l', [], b :: c, rfl, rfl, fun a ha hc => ?_, by simp⟩
        exact (List.nodup_append.mp hl.nodup).2.2 a ha a hc rfl
      · obtain ⟨l', m', c, rfl, rfl, hl', hm'⟩ := ih hm.2
        refine ⟨l', b :: m', c, rfl, rfl, fun a ha hc => ?_, fun a ha => ?_⟩
        · rcases List.mem_cons.mp hc with rfl | hc
          · exact hb (List.mem_append_left c ha)
          · exact hl' a ha hc
        · rcases List.mem_cons.mp ha with rfl | ha
          · exact hb
          · exact hm' a ha

variable [DecidableEq A]

/-- A cell that is not passed may be changed. -/
theorem Seg.update {next : A → Option A} {p q : Option A} {l : List A} (h : Seg next p l q) {a : A}
    (ha : a ∉ l) (r : Option A) : Seg (Function.update next a r) p l q := by
  apply h.congr
  intro b hb
  exact Function.update_of_ne (ne_of_mem_of_not_mem hb ha) _ _

/-- The last link is exchanged. -/
theorem Seg.relink {next : A → Option A} {p q : Option A} {l : List A} {z : A}
    (h : Seg next p (l ++ [z]) q) (hz : z ∉ l) (r : Option A) :
    Seg (Function.update next z r) p (l ++ [z]) r := by
  obtain ⟨s, hl, rfl, -⟩ := seg_append.mp h
  exact seg_append.mpr ⟨_, hl.update hz r, rfl, Function.update_self ..⟩

/-- Lists in one memory that begin at the links `head`: `place` holds their cells. No cell is twice in a
list, or in two lists. -/
structure Lists (next : A → Option A) (head : I → Option A) (place : I → List A) : Prop where
  linked : ∀ i, Seg next (head i) (place i) none
  nodup : ∀ i, (place i).Nodup
  unique : ∀ {i j a}, a ∈ place i → a ∈ place j → i = j

/-- A cell of no list may be changed. -/
theorem Lists.update {next : A → Option A} {head : I → Option A} {place : I → List A}
    (h : Lists next head place) {a : A} (ha : ∀ i, a ∉ place i) (r : Option A) :
    Lists (Function.update next a r) head place :=
  ⟨fun i => (h.linked i).update (ha i) r, h.nodup, h.unique⟩

variable [DecidableEq I]

/-- The memory after the link `q` is written behind the cell `front`, if there is one. -/
def linkNext (next : A → Option A) (front q : Option A) : A → Option A :=
  match front with
  | some z => Function.update next z q
  | none => next

/-- The heads after the link `q` is written at the head of the list `i`, if no cell stands in front. -/
def linkHead (head : I → Option A) (i : I) (front q : Option A) : I → Option A :=
  match front with
  | some _ => head
  | none => Function.update head i q

/-- **The rest of a list is exchanged**: the link behind its part `pre` leads to the cells `new`. -/
theorem Lists.splice {next : A → Option A} {head : I → Option A} {place : I → List A}
    (h : Lists next head place) {i : I} {pre rest new : List A} {q : Option A}
    (hi : place i = pre ++ rest) (hq : Seg next q new none) (hnodup : (pre ++ new).Nodup)
    (hother : ∀ a ∈ new, ∀ j, a ∈ place j → j = i) :
    Lists (linkNext next pre.getLast? q) (linkHead head i pre.getLast? q)
      (Function.update place i (pre ++ new)) := by
  have hplace : ∀ {j a}, a ∈ Function.update place i (pre ++ new) j → j ≠ i → a ∈ place j := by
    intro j a ha hj
    rwa [Function.update_of_ne hj] at ha
  have hin : ∀ {j a}, a ∈ Function.update place i (pre ++ new) i → a ∈ place j → j = i := by
    intro j a ha hj
    rw [Function.update_self] at ha
    rcases List.mem_append.mp ha with hpre | hnew
    · exact h.unique hj (hi ▸ List.mem_append_left rest hpre)
    · exact hother a hnew j hj
  refine ⟨fun j => ?_, fun j => ?_, fun {j k a} hj hk => ?_⟩
  · rcases List.eq_nil_or_concat pre with rfl | ⟨l, z, rfl⟩
    · show Seg next (Function.update head i q j) (Function.update place i new j) none
      by_cases hj : j = i
      · rw [hj, Function.update_self, Function.update_self]
        exact hq
      · rw [Function.update_of_ne hj, Function.update_of_ne hj]
        exact h.linked j
    · rw [List.concat_eq_append] at *
      rw [List.getLast?_concat]
      show Seg (Function.update next z q) (head j) _ none
      by_cases hj : j = i
      · rw [hj, Function.update_self]
        have hlinked := h.linked i
        rw [hi] at hlinked
        obtain ⟨s, hl, -⟩ := seg_append.mp hlinked
        obtain ⟨hnl, -, hdisjoint⟩ := List.nodup_append.mp hnodup
        have hz : z ∉ l := fun hz =>
          (List.nodup_append.mp hnl).2.2 z hz z (List.mem_singleton_self z) rfl
        have hznew : z ∉ new := fun hz =>
          hdisjoint z (List.mem_append_right l (List.mem_singleton_self z)) z hz rfl
        exact seg_append.mpr ⟨q, hl.relink hz q, hq.update hznew q⟩
      · rw [Function.update_of_ne hj]
        apply (h.linked j).update
        intro hz
        apply hj
        apply h.unique hz
        rw [hi]
        simp
  · by_cases hj : j = i
    · rw [hj, Function.update_self]
      exact hnodup
    · rw [Function.update_of_ne hj]
      exact h.nodup j
  · by_cases hji : j = i
    · subst hji
      by_cases hki : k = j
      · exact hki.symm
      · exact (hin hj (hplace hk hki)).symm
    · by_cases hki : k = i
      · subst hki
        exact hin hk (hplace hj hji)
      · exact h.unique (hplace hj hji) (hplace hk hki)

section

omit [DecidableEq A]

/-- What is in the lists when the list `i` gets a cell at its end. -/
theorem mem_update_append {place : I → List A} {i j : I} {a b : A} :
    b ∈ Function.update place i (place i ++ [a]) j ↔ b ∈ place j ∨ (j = i ∧ b = a) := by
  by_cases hj : j = i
  · subst hj
    rw [Function.update_self, List.mem_append, List.mem_singleton]
    simp
  · rw [Function.update_of_ne hj]
    simp [hj]

/-- What is in the lists when a cell is taken out of the list `i`. -/
theorem Lists.mem_update_remove {next : A → Option A} {head : I → Option A} {place : I → List A}
    (h : Lists next head place) {i j : I} {pre post : List A} {a b : A}
    (hi : place i = pre ++ a :: post) :
    b ∈ Function.update place i (pre ++ post) j ↔ b ∈ place j ∧ b ≠ a := by
  have hnodup := h.nodup i
  rw [hi] at hnodup
  have ha : a ∉ pre ++ post := (List.nodup_cons.mp (List.nodup_middle.mp hnodup)).1
  by_cases hj : j = i
  · subst hj
    rw [Function.update_self, hi]
    constructor
    · intro hb
      refine ⟨?_, ne_of_mem_of_not_mem hb ha⟩
      rcases List.mem_append.mp hb with hpre | hpost
      · exact List.mem_append_left _ hpre
      · exact List.mem_append_right _ (List.mem_cons_of_mem a hpost)
    · rintro ⟨hb, hne⟩
      rcases List.mem_append.mp hb with hpre | hpost
      · exact List.mem_append_left _ hpre
      · exact List.mem_append_right _ ((List.mem_cons.mp hpost).resolve_left hne)
  · rw [Function.update_of_ne hj]
    refine ⟨fun hb => ⟨hb, ?_⟩, fun hb => hb.1⟩
    rintro rfl
    apply hj
    apply h.unique hb
    rw [hi]
    simp

end

end Asenal.Lib.Linked
