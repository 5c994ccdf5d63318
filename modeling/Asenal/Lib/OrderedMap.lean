import Mathlib.Data.List.AList

/-!
# Insertion-ordered maps

A finite map whose entries keep the order in which their keys were first put. It is an `AList`,
which carries the distinctness of its keys: `put` replaces the value of a key in its place, or adds
an entry behind the others; `AList.erase` leaves the other entries in their order.

* `lookup_put_self`, `lookup_put_of_ne` — what a key holds after a `put`.
* `kreplace_eq_set`, `kerase_eq_eraseIdx`, `dlookup_eq_of_first` — the operations of a list of
  entries by the position of the first entry with the key.
* `entry_of_find?`, `not_mem_of_find?` — that position, when the entries stand in slots.
-/

namespace Asenal.Lib.OrderedMap

variable {α : Type*} {β : α → Type*} [DecidableEq α]

/-! ## Replacing the first entry -/

/-- The first entry has the key. -/
theorem kreplace_cons_self (a : α) (b b' : β a) (l : List (Sigma β)) :
    List.kreplace a b' (⟨a, b⟩ :: l) = ⟨a, b'⟩ :: l :=
  List.lookmap_cons_some _ l (by simp)

/-- The first entry has another key. -/
theorem kreplace_cons_of_ne {a : α} (b : β a) {e : Sigma β} (h : a ≠ e.1) (l : List (Sigma β)) :
    List.kreplace a b (e :: l) = e :: List.kreplace a b l :=
  List.lookmap_cons_none _ l (by simp [h])

/-- Entries in front of the first one with the key are not replaced. -/
theorem kreplace_append {a : α} (b : β a) {l₁ : List (Sigma β)} (h : a ∉ l₁.keys)
    (l₂ : List (Sigma β)) : List.kreplace a b (l₁ ++ l₂) = l₁ ++ List.kreplace a b l₂ := by
  induction l₁ with
  | nil => rfl
  | cons e l₁ ih =>
      rw [List.keys_cons, List.mem_cons, not_or] at h
      rw [List.cons_append, kreplace_cons_of_ne b h.1, ih h.2, List.cons_append]

/-- The value of a key that is replaced. -/
theorem dlookup_kreplace_self {a : α} (b : β a) {l : List (Sigma β)} (h : a ∈ l.keys) :
    (List.kreplace a b l).dlookup a = some b := by
  induction l with
  | nil => exact absurd h List.not_mem_nil
  | cons e l ih =>
      obtain ⟨a', b'⟩ := e
      by_cases he : a = a'
      · subst he
        rw [kreplace_cons_self, List.dlookup_cons_eq]
      · rw [kreplace_cons_of_ne b he, List.dlookup_cons_ne _ _ he]
        exact ih ((List.mem_cons.mp h).resolve_left he)

/-- The value of another key is not replaced. -/
theorem dlookup_kreplace_of_ne {a a' : α} (b : β a') (h : a ≠ a') (l : List (Sigma β)) :
    (List.kreplace a' b l).dlookup a = l.dlookup a := by
  induction l with
  | nil => rfl
  | cons e l ih =>
      obtain ⟨c, d⟩ := e
      by_cases hc : a' = c
      · subst hc
        rw [kreplace_cons_self, List.dlookup_cons_ne _ _ h, List.dlookup_cons_ne _ _ h]
      · rw [kreplace_cons_of_ne b hc]
        by_cases ha : a = c
        · subst ha
          rw [List.dlookup_cons_eq, List.dlookup_cons_eq]
        · rw [List.dlookup_cons_ne _ _ ha, List.dlookup_cons_ne _ _ ha, ih]

/-! ## Entries by position -/

omit [DecidableEq α] in
/-- An entry at a position splits the list. -/
theorem eq_append_cons {l : List (Sigma β)} {i : ℕ} {e : Sigma β} (h : l[i]? = some e) :
    l = l.take i ++ e :: l.drop (i + 1) ∧ (l.take i).length = i := by
  obtain ⟨hi, rfl⟩ := List.getElem?_eq_some_iff.mp h
  refine ⟨?_, List.length_take_of_le (Nat.le_of_lt hi)⟩
  rw [List.getElem_cons_drop, List.take_append_drop]

/-- The value of a key is that of the first entry with the key. -/
theorem dlookup_eq_of_first {l : List (Sigma β)} {i : ℕ} {a : α} {b : β a}
    (h : l[i]? = some ⟨a, b⟩) (hfirst : a ∉ (l.take i).keys) : l.dlookup a = some b := by
  rw [(eq_append_cons h).1, List.dlookup_append, List.dlookup_eq_none.mpr hfirst,
    List.dlookup_cons_eq]
  rfl

/-- The first entry with the key is replaced. -/
theorem kreplace_eq_set {l : List (Sigma β)} {i : ℕ} {a : α} {b : β a} (b' : β a)
    (h : l[i]? = some ⟨a, b⟩) (hfirst : a ∉ (l.take i).keys) :
    List.kreplace a b' l = l.set i ⟨a, b'⟩ := by
  obtain ⟨heq, hlen⟩ := eq_append_cons h
  calc List.kreplace a b' l
      = l.take i ++ ⟨a, b'⟩ :: l.drop (i + 1) := by
        conv_lhs => rw [heq]
        rw [kreplace_append b' hfirst, kreplace_cons_self]
    _ = (l.take i ++ ⟨a, b⟩ :: l.drop (i + 1)).set i ⟨a, b'⟩ := by
        rw [List.set_append_right _ _ (Nat.le_of_eq hlen), hlen, Nat.sub_self, List.set_cons_zero]
    _ = l.set i ⟨a, b'⟩ := by rw [← heq]

/-- The first entry with the key is erased. -/
theorem kerase_eq_eraseIdx {l : List (Sigma β)} {i : ℕ} {a : α} {b : β a}
    (h : l[i]? = some ⟨a, b⟩) (hfirst : a ∉ (l.take i).keys) :
    List.kerase a l = l.eraseIdx i := by
  have hhead : List.kerase a (⟨a, b⟩ :: l.drop (i + 1)) = l.drop (i + 1) := List.kerase_cons_eq rfl
  rw [List.eraseIdx_eq_take_drop_succ]
  conv_lhs => rw [(eq_append_cons h).1]
  rw [List.kerase_append_right hfirst, hhead]

/-! ## Entries in slots -/

section slots

variable {key : ℕ → α} {val : ∀ i, β (key i)} {q : ℕ → Bool} {a : α} {n i : ℕ}

omit [DecidableEq α]

/-- The entries of the first `n` slots. -/
def slotEntries (key : ℕ → α) (val : ∀ i, β (key i)) (n : ℕ) : List (Sigma β) :=
  (List.range n).map fun i => ⟨key i, val i⟩

/-- The keys in front of an entry are those of the slots in front of it. -/
theorem mem_keys_take_slotEntries (h : i ≤ n) :
    a ∈ ((slotEntries key val n).take i).keys ↔ ∃ j < i, key j = a := by
  have hkeys : ((slotEntries key val n).take i).keys = (List.range i).map key := by
    rw [slotEntries, List.keys, ← List.map_take, List.take_range, min_eq_left h, List.map_map]
    rfl
  rw [hkeys]
  simp

theorem mem_keys_slotEntries : a ∈ (slotEntries key val n).keys ↔ ∃ j < n, key j = a := by
  rw [← mem_keys_take_slotEntries (Nat.le_refl n), List.take_of_length_le (by simp [slotEntries])]

/-- The slot that is found is the first one with the key. -/
theorem find?_slot_eq_some (hq : ∀ j, q j = true ↔ key j = a) (h : (List.range n).find? q = some i) :
    i < n ∧ key i = a ∧ ∀ j < i, key j ≠ a := by
  obtain ⟨hkey, hmem, hfirst⟩ := List.find?_range_eq_some.mp h
  refine ⟨List.mem_range.mp hmem, (hq i).mp hkey, fun j hj heq => ?_⟩
  simpa [(hq j).mpr heq] using hfirst j hj

/-- A key that is found is that of the entry at its slot, and of none in front of it. -/
theorem entry_of_find? (hq : ∀ j, q j = true ↔ key j = a) (h : (List.range n).find? q = some i) :
    (slotEntries key val n)[i]? = some ⟨key i, val i⟩ ∧ a ∉ ((slotEntries key val n).take i).keys ∧
      a ∈ (slotEntries key val n).keys := by
  obtain ⟨hlt, hkey, hfirst⟩ := find?_slot_eq_some hq h
  refine ⟨?_, ?_, mem_keys_slotEntries.mpr ⟨i, hlt, hkey⟩⟩
  · rw [slotEntries, List.getElem?_map, List.getElem?_range hlt]
    rfl
  · rw [mem_keys_take_slotEntries (Nat.le_of_lt hlt)]
    rintro ⟨j, hj, heq⟩
    exact hfirst j hj heq

/-- A key that is not found is that of no slot. -/
theorem not_mem_of_find? (hq : ∀ j, q j = true ↔ key j = a) (h : (List.range n).find? q = none) :
    a ∉ (slotEntries key val n).keys := by
  rw [mem_keys_slotEntries]
  rintro ⟨j, hj, heq⟩
  exact List.find?_eq_none.mp h j (List.mem_range.mpr hj) ((hq j).mpr heq)

end slots

/-! ## The map -/

/-- Add an entry with a new key behind the others. -/
def push (s : AList β) (a : α) (b : β a) (h : a ∉ s) : AList β where
  entries := s.entries ++ [⟨a, b⟩]
  nodupKeys := by
    have hdisj : s.entries.keys.Disjoint [a] := by
      rw [List.disjoint_singleton]
      exact h
    rw [List.NodupKeys, List.keys, List.map_append]
    exact List.Nodup.append s.nodupKeys (List.nodup_singleton a) hdisj

/-- Put a value under a key: in its place if the key is there, behind the others if not. -/
def put (s : AList β) (a : α) (b : β a) : AList β :=
  if h : a ∈ s then s.replace a b else push s a b h

/-- A value of a key that is there is replaced. -/
theorem entries_put_of_mem {s : AList β} {a : α} (b : β a) (h : a ∈ s) :
    (put s a b).entries = List.kreplace a b s.entries := by
  rw [put, dif_pos h]
  rfl

/-- A new key comes behind the others. -/
theorem entries_put_of_not_mem {s : AList β} {a : α} (b : β a) (h : a ∉ s) :
    (put s a b).entries = s.entries ++ [⟨a, b⟩] := by
  rw [put, dif_neg h]
  rfl

/-- **What was put is found.** -/
theorem lookup_put_self (s : AList β) (a : α) (b : β a) : (put s a b).lookup a = some b := by
  unfold AList.lookup
  by_cases h : a ∈ s
  · rw [entries_put_of_mem b h]
    exact dlookup_kreplace_self b h
  · rw [entries_put_of_not_mem b h, List.dlookup_append, List.dlookup_eq_none.mpr h,
      List.dlookup_cons_eq]
    rfl

/-- **Other keys keep their values.** -/
theorem lookup_put_of_ne (s : AList β) {a a' : α} (b : β a') (h : a ≠ a') :
    (put s a' b).lookup a = s.lookup a := by
  unfold AList.lookup
  by_cases h' : a' ∈ s
  · rw [entries_put_of_mem b h']
    exact dlookup_kreplace_of_ne b h s.entries
  · rw [entries_put_of_not_mem b h', List.dlookup_append, List.dlookup_cons_ne _ _ h,
      List.dlookup_nil, Option.or_none]

end Asenal.Lib.OrderedMap
