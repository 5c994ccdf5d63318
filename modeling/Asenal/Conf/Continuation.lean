import Asenal.Conf.Comments

/-!
# Lines that are longer than the buffer

The reader takes a line that does not fit the buffer in pieces, and every piece for a line. What a line adds to a table
is therefore what its pieces add, and that may be more than one item, or an item that stands in the middle of it.

* `length_added_le_iff` — when some pieces add at most one item.
* `added_prefix_iff` — when they add nothing but the item of the first of them.
* `readconf_oneItem_iff` — when that is so of every line of a text.
-/

namespace Asenal.Conf

open Asenal.Lib.Text Asenal.Lib.CString Asenal.Lib.Memory

/-! ## What a line adds -/

/-- What some pieces add to a table of `n` behind others. -/
def added (n : ℕ) (before ps : List Bytes) : List ConfItem := (stored n (before ++ ps)).drop (stored n before).length

/-- The pieces of the lines in front of line `i`. -/
def piecesBefore (s : Bytes) (i : ℕ) : List Bytes := pieces ((lines s).take i)

/-- The pieces of line `i`. -/
def linePieces (s : Bytes) (i : ℕ) : List Bytes := pieces (lines s)[i]?.toList

/-- What line `i` of a text adds to a table of `n`. -/
def contribution (n : ℕ) (s : Bytes) (i : ℕ) : List ConfItem := added n (piecesBefore s i) (linePieces s i)

/-- Behind other pieces of line `i`, for which `q` holds, one is reached that reads as an item. -/
def ItemBehind (n : ℕ) (s : Bytes) (q : List Bytes → Prop) (i : ℕ) : Prop :=
  ∃ a p b, linePieces s i = a ++ p :: b ∧ q a ∧ isItemText p = true ∧ Reached n (piecesBefore s i ++ a)

variable {n : ℕ} {before ps : List Bytes}

/-- What is stored of some lines stays when others follow. -/
theorem stored_prefix (n : ℕ) (before ps : List Bytes) : stored n before <+: stored n (before ++ ps) := by
  induction ps using List.reverseRecOn with
  | nil => rw [List.append_nil]
  | append_singleton ps p ih =>
      rw [← List.append_assoc, stored_concat]
      exact ih.trans (List.prefix_append _ _)

theorem stored_append (n : ℕ) (before ps : List Bytes) :
    stored n (before ++ ps) = stored n before ++ added n before ps := by
  obtain ⟨its, hits⟩ := stored_prefix n before ps
  rw [added, ← hits, List.drop_left]

theorem added_nil (n : ℕ) (before : List Bytes) : added n before [] = [] := by
  rw [added, List.append_nil, List.drop_length]

/-- **One more piece** adds its item, if it is reached. -/
theorem added_concat (n : ℕ) (before ps : List Bytes) (p : Bytes) :
    added n before (ps ++ [p]) =
      added n before ps ++ if Reached n (before ++ ps) then (lineOf p).item?.toList else [] := by
  have hstored := stored_concat n (before ++ ps) p
  rw [List.append_assoc, stored_append, stored_append, List.append_assoc] at hstored
  exact List.append_cancel_left hstored

/-- A piece that is no item or is not reached adds nothing. -/
theorem added_concat_of_not {p : Bytes} (h : ¬ (isItemText p = true ∧ Reached n (before ++ ps))) :
    added n before (ps ++ [p]) = added n before ps := by
  rw [added_concat]
  split_ifs with hreached
  · have hitem : isItemText p = false := Bool.eq_false_iff.mpr fun hp => h ⟨hp, hreached⟩
    rw [List.eq_nil_of_length_eq_zero ((length_item? p).trans (by rw [hitem]; rfl)), List.append_nil]
  · exact List.append_nil _

/-- Pieces that are all reached add all their items. -/
theorem length_added (h : Reached n (before ++ ps)) : (added n before ps).length = ps.countP isItemText := by
  induction ps using List.reverseRecOn with
  | nil => rw [added_nil]; rfl
  | append_singleton ps p ih =>
      rw [← List.append_assoc] at h
      rw [added_concat, if_pos h.of_append, List.length_append, ih h.of_append, length_item?, List.countP_append,
        List.countP_singleton]
      cases isItemText p <;> rfl

/-- A place in a list, or at its end. -/
theorem exists_split_concat {α : Type*} {q : List α → α → Prop} (l : List α) (x : α) :
    (∃ a p b, l ++ [x] = a ++ p :: b ∧ q a p) ↔ (∃ a p b, l = a ++ p :: b ∧ q a p) ∨ q l x := by
  constructor
  · rintro ⟨a, p, b, heq, h⟩
    rcases List.eq_nil_or_concat b with rfl | ⟨b, y, rfl⟩
    · obtain ⟨rfl, hx⟩ := List.append_inj' heq rfl
      obtain rfl := List.singleton_inj.mp hx
      exact Or.inr h
    · rw [List.concat_eq_append, ← List.cons_append, ← List.append_assoc] at heq
      exact Or.inl ⟨a, p, b, (List.append_inj' heq rfl).1, h⟩
  · rintro (⟨a, p, b, rfl, h⟩ | h)
    · exact ⟨a, p, b ++ [x], by rw [List.append_assoc, List.cons_append], h⟩
    · exact ⟨l, x, [], rfl, h⟩

/-- **At most one item** is added iff no item is reached behind another. -/
theorem length_added_le_iff (n : ℕ) (before ps : List Bytes) :
    (added n before ps).length ≤ 1 ↔
      ¬ ∃ a p b, ps = a ++ p :: b ∧ (∃ x ∈ a, isItemText x = true) ∧ isItemText p = true ∧ Reached n (before ++ a) := by
  induction ps using List.reverseRecOn with
  | nil =>
      rw [added_nil]
      exact iff_of_true (Nat.zero_le 1) (by simp)
  | append_singleton ps p ih =>
      rw [exists_split_concat (q := fun a p => (∃ x ∈ a, isItemText x = true) ∧ isItemText p = true ∧
        Reached n (before ++ a)), not_or, ← ih]
      by_cases hp : isItemText p = true ∧ Reached n (before ++ ps)
      · rw [added_concat, if_pos hp.2, List.length_append, length_item?, hp.1, length_added hp.2]
        have hnone : ps.countP isItemText = 0 ↔ ¬ ∃ x ∈ ps, isItemText x = true := by
          simp [List.countP_eq_zero]
        simp only [hp.2, and_true, ← hnone, Bool.toNat_true]
        omega
      · rw [added_concat_of_not hp]
        exact ⟨fun h => ⟨h, fun h' => hp h'.2⟩, fun h => h.1⟩

/-- **Nothing but the item of the first piece** is added iff no item is reached behind it. -/
theorem added_prefix_iff (n : ℕ) (before ps : List Bytes) :
    added n before ps <+: itemsOf (ps.take 1) ↔
      ¬ ∃ a p b, ps = a ++ p :: b ∧ a ≠ [] ∧ isItemText p = true ∧ Reached n (before ++ a) := by
  induction ps using List.reverseRecOn with
  | nil =>
      rw [added_nil]
      exact iff_of_true (List.nil_prefix) (by simp)
  | append_singleton ps p ih =>
      rw [exists_split_concat (q := fun a p => a ≠ [] ∧ isItemText p = true ∧ Reached n (before ++ a)), not_or]
      by_cases hnil : ps = []
      · subst hnil
        rw [added_concat, added_nil, List.nil_append, List.nil_append]
        apply iff_of_true _ ⟨by simp, fun h => h.1 rfl⟩
        rw [List.take_of_length_le (Nat.le_refl 1), itemsOf_cons]
        split_ifs
        · exact List.prefix_append _ _
        · exact List.nil_prefix
      have hfirst : (ps ++ [p]).take 1 = ps.take 1 :=
        List.take_append_of_le_length (List.length_pos_of_ne_nil hnil)
      rw [hfirst, ← ih]
      by_cases hp : isItemText p = true ∧ Reached n (before ++ ps)
      · apply iff_of_false _ fun h => h.2 ⟨hnil, hp⟩
        intro hbegin
        have hlen := hbegin.length_le
        have htake : (ps.take 1).countP isItemText ≤ ps.countP isItemText := (List.take_sublist 1 ps).countP_le
        rw [added_concat, if_pos hp.2, List.length_append, length_item?, hp.1, length_added hp.2, length_itemsOf] at hlen
        simp only [Bool.toNat_true] at hlen
        omega
      · rw [added_concat_of_not hp]
        exact ⟨fun h => ⟨h, fun h' => hp h'.2⟩, fun h => h.1⟩

/-! ## The lines of a text -/

theorem pieces_append (ls ls' : List Bytes) : pieces (ls ++ ls') = pieces ls ++ pieces ls' := List.flatMap_append

/-- What is stored is what the lines add, one after another. -/
theorem flatMap_contribution (n : ℕ) (s : Bytes) (k : ℕ) :
    (List.range k).flatMap (contribution n s) = stored n (piecesBefore s k) := by
  induction k with
  | zero =>
      rw [piecesBefore, List.take_zero]
      cases n <;> rfl
  | succ k ih =>
      rw [List.range_succ, List.flatMap_append, ih, List.flatMap_singleton, contribution, ← stored_append, piecesBefore,
        piecesBefore, linePieces, List.take_add_one, pieces_append]

/-- **The items of a line.** The items that `ul_readconf` stores are those that the lines add; every line adds at most
one iff no piece of a line that reads as an item is reached behind another one, and nothing but the item of its first
piece iff no piece that reads as an item is reached behind the first. -/
theorem readconf_oneItem_iff (files : Files) (workPath fname : Bytes) (d : ConfData) (s : Bytes) :
    (∀ k, (ulReadconf (files.put (totalname workPath fname) s) workPath fname d).2.item k =
      ((List.range (lines s).length).flatMap (contribution d.size s)).getD k (d.item k)) ∧
      ((∀ i, (contribution d.size s i).length ≤ 1) ↔
        ∀ i, ¬ ItemBehind d.size s (fun a => ∃ x ∈ a, isItemText x = true) i) ∧
      ((∀ i, contribution d.size s i <+: itemsOf ((linePieces s i).take 1)) ↔
        ∀ i, ¬ ItemBehind d.size s (fun a => a ≠ []) i) := by
  refine ⟨fun k => ?_, forall_congr' fun i => ?_, forall_congr' fun i => ?_⟩
  · have hall : piecesBefore s (lines s).length = fgetsAll (lineSize - 1) s := by
      rw [piecesBefore, List.take_length]
      exact (fgetsAll_lines _ s).symm
    rw [flatMap_contribution, hall, ulReadconf_put]
    split_ifs <;> simp [poke]
  · exact length_added_le_iff d.size (piecesBefore s i) (linePieces s i)
  · exact added_prefix_iff d.size (piecesBefore s i) (linePieces s i)

/-- An item and blanks that fill the buffer. -/
def padded : Bytes := ascii "a:1" ++ List.replicate 4091 32

/-- A line that goes on with another item. -/
def overlong : Bytes := padded ++ ascii "b:2" ++ [10]

theorem lineOf_padded : lineOf padded = .item ⟨ascii "a", ascii "1"⟩ := by
  have hnul : 0 ∉ padded := by
    rw [padded, List.mem_append, List.mem_replicate, not_or]
    exact ⟨by decide, fun h => absurd h.2 (by decide)⟩
  have htrim : ∀ k, trimTail (ascii "1" ++ List.replicate k 32) = ascii "1" := by
    intro k
    induction k with
    | zero => rfl
    | succ k ih =>
        rw [List.replicate_succ', ← List.append_assoc, trimTail, List.rdropWhile_concat_pos _ _ _ (by decide)]
        exact ih
  have hshape : ∀ r, trimTail (ascii "1" ++ r) = ascii "1" →
      shape (ascii "a:1" ++ r) = .item ⟨ascii "a", ascii "1"⟩ := by
    intro r hr
    have hcolon : behindColon (behindName (ascii "a:1" ++ r)) = some (ascii "1" ++ r) := rfl
    have hvalue : lineValue (ascii "1" ++ r) = ascii "1" := hr
    have hname : lineName (ascii "a:1" ++ r) = ascii "a" := rfl
    have hfits : nameTooLong (ascii "a:1" ++ r) = false := rfl
    rw [shape, hfits, hname, hcolon, Option.elim_some, valueLine, hvalue]
    rfl
  rw [lineOf_eq, cstr_of_not_mem hnul]
  exact hshape _ (htrim 4091)

/-- The two items of `overlong`. -/
theorem readconf_overlong : ¬ ∀ (files : Files) (workPath fname : Bytes) (d : ConfData) (s : Bytes), d.num = 0 →
    (ulReadconf (files.put (totalname workPath fname) s) workPath fname d).2.items.length ≤ (lines s).length := by
  intro hclaim
  have hle := hclaim (everywhere []) (ascii ".") (ascii "f") ⟨0, 1024, fun _ => ⟨[], []⟩⟩ overlong rfl
  have hnl : 10 ∉ padded ++ ascii "b:2" := by
    rw [padded, List.mem_append, List.mem_append, List.mem_replicate, not_or, not_or]
    exact ⟨⟨by decide, fun h => absurd h.2 (by decide)⟩, by decide⟩
  have hlength : padded.length = lineSize - 1 - 1 := by
    rw [padded, List.length_append, List.length_replicate]
    rfl
  have hpieces : fgetsAll (lineSize - 1) overlong = [padded, ascii "b:2" ++ [10]] := by
    have hlong : lineSize - 1 - 1 ≤ (padded ++ ascii "b:2").length := by
      rw [List.length_append, hlength]
      exact Nat.le_add_right _ _
    rw [overlong, fgetsAll_cons (by decide) (List.append_ne_nil_of_right_ne_nil _ (List.cons_ne_nil 10 [])),
      fgets_line _ hnl, if_pos hlong, ← hlength, List.take_left, List.drop_left, fgetsAll_line (by decide) (by decide),
      fgetsAll_nil]
  have hline : lines overlong = [overlong] := lines_append hnl []
  have hread := ulReadconf_put (everywhere []) (ascii ".") (ascii "f") overlong ⟨0, 1024, fun _ => ⟨[], []⟩⟩
  rw [hpieces, complete_item lineOf_padded, complete_item lineOf_itemLine, stored_item lineOf_padded,
    stored_item lineOf_itemLine] at hread
  rw [hread, hline] at hle
  exact absurd hle (by decide)

end Asenal.Conf
