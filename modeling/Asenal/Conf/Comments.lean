import Asenal.Conf.Shape

/-!
# Comments and blank lines

Lines that begin with `#` and blank lines are no items, but the reader looks for room in the table
before it looks at the line. A text whose items fill the table is read if nothing stands behind the last
of them, and refused if a comment does. A comment line that is longer than the buffer comes in pieces,
and its later pieces are lines of their own to the reader.

* `stored_essentials`, `complete_essentials` — such lines matter only by a piece of a comment that is
  reached and reads as an item or as a name that is too long, or behind the last item of a full table.
* `readconf_comments_iff` — when two texts that differ in such lines are read alike.
-/

namespace Asenal.Conf

open Asenal.Lib.Text Asenal.Lib.CString Asenal.Lib.Memory

/-! ## Lines without an item -/

/-- A comment line or a blank line. -/
def ignorable (l : Bytes) : Bool := isComment l || l.all fun b => isBlank b || isEol b

/-- The other lines of a text. -/
def essentials (s : Bytes) : List Bytes := (lines s).filter fun l => !ignorable l

/-- The last line of a text is a comment line or a blank line. -/
def endsIgnorable (s : Bytes) : Bool := (lines s).getLast?.any ignorable

/-- The pieces of lines that the reader sees. -/
def pieces (ls : List Bytes) : List Bytes := ls.flatMap (fgetsAll (lineSize - 1))

/-- The lines are items enough to fill a table of `n`, and the last piece of them is an item. -/
def FillsExactly (n : ℕ) (ls : List Bytes) : Prop :=
  (∀ p ∈ pieces ls, lineOf p ≠ .tooLong) ∧ (itemsOf (pieces ls)).length = n ∧
    endsInItem (pieces ls) = true

/-- A piece of a comment line behind the first is reached that reads as an item or as a name that is too
long. -/
def StrayReached (n : ℕ) (ls : List Bytes) : Prop :=
  ∃ before l after a p b, ls = before ++ l :: after ∧ isComment l = true ∧
    fgetsAll (lineSize - 1) l = a ++ p :: b ∧ a ≠ [] ∧ (isItemText p = true ∨ isLongName p = true) ∧
      Reached n (pieces before ++ a)

/-- The pieces that are reached. -/
def reachedPieces (n : ℕ) (ps : List Bytes) : List Bytes :=
  (List.range ps.length).flatMap fun i => if Reached n (ps.take i) then (ps[i]?).toList else []

/-- All pieces are reached, and no name is too long. -/
def ReadToEnd (n : ℕ) (ps : List Bytes) : Prop :=
  ∀ a p b, ps = a ++ p :: b → Reached n a ∧ isLongName p = false

/-- Both texts are read to the end or neither is, and the pieces that are reached fill the slots that
count with the same items: all slots, if the texts are read to the end, else the first `d.num` ones. -/
def SameReached (d : ConfData) (ps ps' : List Bytes) : Prop :=
  (ReadToEnd d.size ps ↔ ReadToEnd d.size ps') ∧
    (ReadToEnd d.size ps → itemsOf (reachedPieces d.size ps) = itemsOf (reachedPieces d.size ps')) ∧
    (¬ ReadToEnd d.size ps → ∀ i < d.num, (itemsOf (reachedPieces d.size ps)).getD i (d.item i) =
      (itemsOf (reachedPieces d.size ps')).getD i (d.item i))

/-- What makes two texts that differ in comments and blank lines be read alike: no stray piece of a
comment is reached, and it is not so that the items fill the table and one of the texts alone ends with
such a line; or the pieces that are reached, strays among them, happen to come to the same. -/
def ReadAlike (d : ConfData) (s s' : Bytes) : Prop :=
  (¬ StrayReached d.size (lines s) ∧ ¬ StrayReached d.size (lines s') ∧
      ¬ (FillsExactly d.size (essentials s) ∧ endsIgnorable s ≠ endsIgnorable s')) ∨
    ((StrayReached d.size (lines s) ∨ StrayReached d.size (lines s')) ∧
      SameReached d (pieces (lines s)) (pieces (lines s')))

/-- Two readings return the same and leave the same items. -/
def SameResult (r r' : ℤ × ConfData) : Prop := r.1 = r'.1 ∧ r.2.items = r'.2.items

/-- The disk with the text `s` at a path. -/
def Files.put (files : Files) (path s : Bytes) : Files :=
  { files with content := Function.update files.content path (some s) }

/-! ## Their pieces -/

/-- No piece of a blank line is an item. -/
theorem lineOf_blank {p : Bytes} (h : ∀ b ∈ p, isBlank b = true ∨ isEol b = true) :
    lineOf p = .skip := by
  have hname : lineName (cstr p) = [] := by
    rw [lineName]
    cases hv : (cstr p).dropWhile isBlank with
    | nil => rfl
    | cons c x =>
        have hmem : c ∈ cstr p := (List.dropWhile_suffix isBlank).subset (hv ▸ List.mem_cons_self)
        have hc : isNameByte c ≠ true := by
          rw [Ne, isNameByte_iff]
          rcases h c ((List.takeWhile_prefix _).subset hmem) with hblank | heol
          · exact fun hb => Bool.false_ne_true (hb.1.symm.trans hblank)
          · exact fun hb => Bool.false_ne_true (hb.2.1.symm.trans heol)
        exact List.takeWhile_cons_of_neg hc
  rw [lineOf_eq, shape_of_lineName hname]
  split_ifs <;> rfl

/-- A piece of a line is a part of it. -/
theorem mem_of_mem_fgetsAll {size : ℕ} {s p : Bytes} (hp : p ∈ fgetsAll size s) {b : UInt8}
    (hb : b ∈ p) : b ∈ s := by
  by_cases hs : s = [] ∨ size ≤ 1
  · rw [fgetsAll, dif_pos hs] at hp
    exact absurd hp List.not_mem_nil
  · rw [not_or] at hs
    rw [fgetsAll_cons (by omega) hs.1] at hp
    rcases List.mem_cons.mp hp with rfl | hp
    · exact List.mem_of_mem_take hb
    · exact List.mem_of_mem_drop (mem_of_mem_fgetsAll hp hb)
termination_by s.length
decreasing_by
  rw [not_or] at hs
  have := List.length_pos_of_ne_nil hs.1
  rw [fgets, List.length_drop]
  omega

/-- The first piece of a comment line is no item. -/
theorem lineOf_fgets_comment {l : Bytes} (h : isComment l = true) :
    lineOf (fgets (lineSize - 1) l).1 = .skip := by
  -- the first piece begins as the line does
  obtain ⟨b, t, rfl⟩ : ∃ b t, l = b :: t := by
    cases l with
    | nil => exact absurd h (by decide)
    | cons b t => exact ⟨b, t, rfl⟩
  have hfirst : (fgets (lineSize - 1) (b :: t)).1.head? = (b :: t).head? := by
    have hpos : min (lineSize - 1 - 1) (((b :: t).takeWhile (· != 10)).length + 1) ≠ 0 := by
      simp [lineSize]
    unfold fgets
    dsimp only
    rw [List.head?_take, if_neg hpos]
  rw [isComment, beq_iff_eq, ← hfirst] at h
  unfold lineOf
  rw [if_pos (Or.inl h)]

/-- A piece is nothing to the reader iff it reads neither as an item nor as a name that is too long. -/
theorem lineOf_eq_skip_iff (p : Bytes) :
    lineOf p = .skip ↔ ¬ (isItemText p = true ∨ isLongName p = true) := by
  rw [← isSome_item?_lineOf, ← lineOf_eq_tooLong_iff]
  cases lineOf p <;> simp [Line.item?]

/-- The number of items of a piece. -/
theorem length_item? (p : Bytes) : (lineOf p).item?.toList.length = (isItemText p).toNat := by
  rw [← isSome_item?_lineOf]
  cases (lineOf p).item? <;> rfl

theorem length_itemsOf (ps : List Bytes) : (itemsOf ps).length = ps.countP isItemText := by
  unfold itemsOf
  rw [List.length_filterMap_eq_countP]
  exact List.countP_congr fun p _ => by rw [isSome_item?_lineOf]

/-! ## What is reached -/

/-- Pieces that are nothing do not matter for what is reached. -/
theorem reached_skips {n : ℕ} {a : List Bytes} (h : ∀ p ∈ a, lineOf p = .skip) (b : List Bytes) :
    Reached n (a ++ b) ↔ Reached n b := by
  induction a with
  | nil => rfl
  | cons p a ih =>
      rw [List.forall_mem_cons] at h
      rw [List.cons_append, reached_cons h.1, ih h.2]

/-- What is reached behind pieces that are all read, in the room that they leave. -/
theorem Reached.behind {n : ℕ} {a b : List Bytes} (ha : complete n a = true)
    (hb : Reached (n - (itemsOf a).length) b) : Reached n (a ++ b) := by
  obtain ⟨hlong, hle, -⟩ := (complete_iff n a).mp ha
  obtain ⟨hlong', hlt⟩ := hb
  rw [length_itemsOf] at hle hlt
  refine ⟨List.forall_mem_append.mpr ⟨fun p hp => ?_, hlong'⟩, ?_⟩
  · rw [← Bool.not_eq_true, ← lineOf_eq_tooLong_iff]
    exact hlong p hp
  · rw [List.countP_append]
    omega

/-- **The whole text is read** iff all pieces are reached and no name is too long. -/
theorem complete_iff_readToEnd (n : ℕ) (ps : List Bytes) : complete n ps = true ↔ ReadToEnd n ps := by
  rcases List.eq_nil_or_concat ps with rfl | ⟨q, l, rfl⟩
  · refine iff_of_true (by cases n <;> rfl) fun a p b h => ?_
    exact absurd h (by simp)
  rw [List.concat_eq_append, complete_concat]
  constructor
  · rintro ⟨hreached, hl⟩ a p b heq
    rcases List.eq_nil_or_concat b with rfl | ⟨b, x, rfl⟩
    · obtain ⟨rfl, hlast⟩ := List.append_inj' heq rfl
      obtain rfl := List.singleton_inj.mp hlast
      exact ⟨hreached, hl⟩
    · rw [List.concat_eq_append, ← List.cons_append, ← List.append_assoc] at heq
      obtain rfl := (List.append_inj' heq rfl).1
      refine ⟨hreached.of_append, hreached.1 p ?_⟩
      exact List.mem_append_right a List.mem_cons_self
  · intro h
    exact h q l [] rfl

/-- What is stored are the items of the pieces that are reached. -/
theorem stored_eq_itemsOf (n : ℕ) (ps : List Bytes) : stored n ps = itemsOf (reachedPieces n ps) := by
  induction ps using List.reverseRecOn with
  | nil => cases n <;> rfl
  | append_singleton q l ih =>
      have hpieces : reachedPieces n (q ++ [l]) =
          reachedPieces n q ++ if Reached n q then [l] else [] := by
        unfold reachedPieces
        rw [List.length_append, List.length_singleton, List.range_succ, List.flatMap_append,
          List.flatMap_singleton, List.take_left, List.getElem?_concat_length, Option.toList_some]
        congr 1
        apply List.flatMap_congr
        intro i hi
        rw [List.mem_range] at hi
        rw [List.take_append_of_le_length hi.le, List.getElem?_append_left hi]
      rw [stored_concat, hpieces, ih]
      unfold itemsOf
      rw [List.filterMap_append]
      split_ifs
      · cases h : (lineOf l).item? <;> simp [h]
      · rfl

/-! ## One line in front of others -/

/-- Pieces that are all read, and others behind them. -/
theorem complete_append (n : ℕ) (a b : List Bytes) :
    complete n (a ++ b) = (complete n a && complete (n - (itemsOf a).length) b) := by
  induction a generalizing n with
  | nil => cases n <;> rfl
  | cons p a ih =>
      rw [List.cons_append, itemsOf_cons, List.length_append]
      cases n with
      | zero => rfl
      | succ n =>
          cases hp : lineOf p with
          | skip => simp [complete_skip hp, ih, Line.item?]
          | item it =>
              have hroom : n + 1 - (1 + (itemsOf a).length) = n - (itemsOf a).length := by omega
              simp [complete_item hp, ih, Line.item?, hroom]
          | tooLong => simp [complete_tooLong hp]

/-- What is stored of pieces, and of others behind them. -/
theorem stored_append_eq (n : ℕ) (a b : List Bytes) :
    stored n (a ++ b) =
      stored n a ++ if complete n a = true then stored (n - (itemsOf a).length) b else [] := by
  induction a generalizing n with
  | nil => cases n <;> rfl
  | cons p a ih =>
      rw [List.cons_append, itemsOf_cons, List.length_append]
      cases n with
      | zero => simp [stored_zero, complete]
      | succ n =>
          cases hp : lineOf p with
          | skip => simp [stored_skip hp, complete_skip hp, ih, Line.item?]
          | item it =>
              have hroom : n + 1 - (1 + (itemsOf a).length) = n - (itemsOf a).length := by omega
              simp [stored_item hp, complete_item hp, ih, Line.item?, hroom]
          | tooLong => simp [stored_tooLong hp, complete_tooLong hp]

/-- Pieces that are nothing are read when there is room, and give no item. -/
theorem complete_skips {n : ℕ} (hn : 0 < n) {a : List Bytes} (h : ∀ p ∈ a, lineOf p = .skip) :
    complete n a = true ∧ stored n a = [] ∧ itemsOf a = [] := by
  obtain ⟨n, rfl⟩ : ∃ k, n = k + 1 := ⟨n - 1, by omega⟩
  induction a with
  | nil => exact ⟨rfl, rfl, rfl⟩
  | cons p a ih =>
      rw [List.forall_mem_cons] at h
      rw [complete_skip h.1, stored_skip h.1, itemsOf_cons, h.1]
      exact ih h.2

/-- Where nothing behind pieces that are nothing is notable, all of them are nothing. -/
theorem forall_skip {ps : List Bytes}
    (h : ∀ a p b, ps = a ++ p :: b → (∀ q ∈ a, lineOf q = .skip) → lineOf p = .skip) :
    ∀ p ∈ ps, lineOf p = .skip := by
  induction ps with
  | nil => exact fun p hp => absurd hp List.not_mem_nil
  | cons x ps ih =>
      have hx : lineOf x = .skip := h [] x ps rfl fun q hq => absurd hq List.not_mem_nil
      rw [List.forall_mem_cons]
      refine ⟨hx, ih fun a p b heq hskip => ?_⟩
      exact h (x :: a) p b (by rw [heq, List.cons_append]) (List.forall_mem_cons.mpr ⟨hx, hskip⟩)

/-- **The pieces of a comment or blank line** are nothing to a reader with room that reaches no stray. -/
theorem lineOf_ignorable {n : ℕ} (hn : 0 < n) {l p : Bytes} {ls : List Bytes} (hne : l ≠ [])
    (hstray : ¬ StrayReached n (l :: ls)) (hign : ignorable l = true)
    (hp : p ∈ fgetsAll (lineSize - 1) l) : lineOf p = .skip := by
  by_cases hcomment : isComment l = true
  · refine forall_skip (fun a p b heq hskip => ?_) p hp
    by_cases ha : a = []
    · subst ha
      rw [List.nil_append, fgetsAll_cons (by decide) hne] at heq
      rw [← (List.cons_eq_cons.mp heq).1]
      exact lineOf_fgets_comment hcomment
    · rw [lineOf_eq_skip_iff]
      intro hnotable
      refine hstray ⟨[], l, ls, a, p, b, rfl, hcomment, heq, ha, hnotable, ?_⟩
      rw [pieces, List.flatMap_nil, List.nil_append, ← List.append_nil a, reached_skips hskip,
        reached_nil]
      exact hn
  · unfold ignorable at hign
    rw [Bool.or_eq_true] at hign
    have hblank := hign.resolve_left hcomment
    rw [List.all_eq_true] at hblank
    exact lineOf_blank fun b hb => Bool.or_eq_true_iff.mp (hblank b (mem_of_mem_fgetsAll hp hb))

/-- A stray that is reached behind a line is reached in the room that the line leaves. -/
theorem StrayReached.cons {n : ℕ} {l : Bytes} {ls : List Bytes}
    (hl : complete n (fgetsAll (lineSize - 1) l) = true)
    (h : StrayReached (n - (itemsOf (fgetsAll (lineSize - 1) l)).length) ls) :
    StrayReached n (l :: ls) := by
  obtain ⟨before, c, after, a, p, b, rfl, hcomment, heq, ha, hnotable, hreached⟩ := h
  refine ⟨l :: before, c, after, a, p, b, rfl, hcomment, heq, ha, hnotable, ?_⟩
  rw [pieces, List.flatMap_cons, List.append_assoc]
  exact hreached.behind hl

/-! ## Comments and blank lines -/

/-- The lines that are neither comments nor blank. -/
def essential (ls : List Bytes) : List Bytes := ls.filter fun l => !ignorable l

theorem pieces_cons (l : Bytes) (ls : List Bytes) :
    pieces (l :: ls) = fgetsAll (lineSize - 1) l ++ pieces ls := List.flatMap_cons

variable {n : ℕ} {ls : List Bytes}

/-- **Comments and blank lines store nothing** when no stray is reached. -/
theorem stored_essential (hne : ∀ l ∈ ls, l ≠ []) (hstray : ¬ StrayReached n ls) :
    stored n (pieces ls) = stored n (pieces (essential ls)) := by
  induction ls generalizing n with
  | nil => rfl
  | cons l ls ih =>
      rw [List.forall_mem_cons] at hne
      unfold essential at *
      by_cases hign : ignorable l = true
      · rw [List.filter_cons_of_neg (by simp [hign]), pieces_cons, stored_append_eq]
        rcases Nat.eq_zero_or_pos n with rfl | hn
        · simp [stored_zero]
        · obtain ⟨hread, hnone, hitems⟩ :=
            complete_skips hn fun p hp => lineOf_ignorable hn hne.1 hstray hign hp
          rw [hread, hnone, hitems, if_pos rfl, List.nil_append, List.length_nil, Nat.sub_zero]
          apply ih hne.2
          intro h
          apply hstray
          apply StrayReached.cons hread
          rwa [hitems, List.length_nil, Nat.sub_zero]
      · rw [List.filter_cons_of_pos (by simp [hign]), pieces_cons, pieces_cons, stored_append_eq,
          stored_append_eq]
        split_ifs with hread
        · rw [ih hne.2 fun h => hstray (h.cons hread)]
        · rfl

/-- Lines of which none is essential end with a comment or blank line. -/
theorem getLast?_ignorable {l : Bytes} (hnone : essential ls = []) (hign : ignorable l = true) :
    (l :: ls).getLast?.any ignorable = true := by
  have hall : ∀ x ∈ l :: ls, ignorable x = true := by
    rw [List.forall_mem_cons]
    refine ⟨hign, fun x hx => ?_⟩
    simpa using List.filter_eq_nil_iff.mp hnone x hx
  rw [List.getLast?_eq_some_getLast (List.cons_ne_nil l ls), Option.any_some]
  exact hall _ (List.getLast_mem _)

/-- Lines give pieces. -/
theorem eq_nil_of_pieces (hne : ∀ l ∈ ls, l ≠ []) (h : pieces ls = []) : ls = [] := by
  cases ls with
  | nil => rfl
  | cons l ls =>
      rw [pieces_cons, List.append_eq_nil_iff] at h
      exact absurd h.1 (fgetsAll_ne_nil (by decide) (hne l List.mem_cons_self))

/-- What the last line is. -/
theorem getLast?_cons_any {l : Bytes} (q : Bytes → Bool) :
    (l :: ls).getLast?.any q = if ls = [] then q l else ls.getLast?.any q := by
  cases ls with
  | nil => rfl
  | cons x ls => rw [List.getLast?_cons_cons, if_neg (List.cons_ne_nil x ls)]

/-- **When the whole text is read**, if no stray is reached: its lines that are neither comments nor
blank are, and if they fill the table they come last. -/
theorem complete_essential (hne : ∀ l ∈ ls, l ≠ []) (hstray : ¬ StrayReached n ls) :
    complete n (pieces ls) = true ↔ complete n (pieces (essential ls)) = true ∧
      ((itemsOf (pieces (essential ls))).length = n → ls.getLast?.any ignorable = false) := by
  induction ls generalizing n with
  | nil => exact iff_of_true (by cases n <;> rfl) ⟨by cases n <;> rfl, fun _ => rfl⟩
  | cons l ls ih =>
      rw [List.forall_mem_cons] at hne
      by_cases hign : ignorable l = true
      · have hess : essential (l :: ls) = essential ls := List.filter_cons_of_neg (by simp [hign])
        rw [hess, pieces_cons, complete_append]
        rcases Nat.eq_zero_or_pos n with rfl | hn
        · -- the table is full in front of the line
          have hfull : complete 0 (fgetsAll (lineSize - 1) l) = false := by
            obtain ⟨p, ps, hps⟩ :=
              List.exists_cons_of_ne_nil (fgetsAll_ne_nil (show 1 < lineSize - 1 by decide) hne.1)
            rw [hps]
            rfl
          rw [hfull, Bool.false_and]
          refine iff_of_false Bool.false_ne_true ?_
          rintro ⟨hread, hlast⟩
          have hnone : pieces (essential ls) = [] := by
            cases hps : pieces (essential ls) with
            | nil => rfl
            | cons p ps =>
                rw [hps] at hread
                exact absurd hread Bool.false_ne_true
          have hess : essential ls = [] :=
            eq_nil_of_pieces (fun x hx => hne.2 x (List.mem_of_mem_filter hx)) hnone
          rw [hnone, getLast?_ignorable hess hign] at hlast
          exact absurd (hlast rfl) (by decide)
        · obtain ⟨hread, -, hitems⟩ :=
            complete_skips hn fun p hp => lineOf_ignorable hn hne.1 hstray hign hp
          have hrest : ¬ StrayReached n ls := by
            intro h
            apply hstray
            apply StrayReached.cons hread
            rwa [hitems, List.length_nil, Nat.sub_zero]
          rw [hread, hitems, Bool.true_and, List.length_nil, Nat.sub_zero, ih hne.2 hrest,
            getLast?_cons_any]
          by_cases hls : ls = []
          · subst hls
            refine and_congr_right fun _ => iff_of_true (fun _ => rfl) fun hzero => ?_
            exact absurd hzero hn.ne
          · rw [if_neg hls]
      · have hess : essential (l :: ls) = l :: essential ls := List.filter_cons_of_pos (by simp [hign])
        rw [hess, pieces_cons, pieces_cons, complete_append, complete_append, getLast?_cons_any]
        by_cases hread : complete n (fgetsAll (lineSize - 1) l) = true
        · have hle := ((complete_iff n _).mp hread).2.1
          have hsum : (itemsOf (fgetsAll (lineSize - 1) l ++ pieces (essential ls))).length = n ↔
              (itemsOf (pieces (essential ls))).length =
                n - (itemsOf (fgetsAll (lineSize - 1) l)).length := by
            unfold itemsOf at *
            rw [List.filterMap_append, List.length_append]
            omega
          rw [hread, Bool.true_and, Bool.true_and, ih hne.2 fun h => hstray (h.cons hread), hsum]
          by_cases hls : ls = []
          · subst hls
            rw [if_pos rfl, Bool.eq_false_iff.mpr hign]
            rfl
          · rw [if_neg hls]
        · rw [Bool.eq_false_iff.mpr hread, Bool.false_and, Bool.false_and]
          exact iff_of_false Bool.false_ne_true fun h => Bool.false_ne_true h.1

/-- Reading a text. -/
theorem ulReadconf_put (files : Files) (workPath fname s : Bytes) (d : ConfData) :
    ulReadconf (files.put (totalname workPath fname) s) workPath fname d =
      if complete d.size (fgetsAll (lineSize - 1) s) = true then
        (1, { d with
          num := (stored d.size (fgetsAll (lineSize - 1) s)).length
          item := poke d.item 0 (stored d.size (fgetsAll (lineSize - 1) s)) })
      else (-1, { d with item := poke d.item 0 (stored d.size (fgetsAll (lineSize - 1) s)) }) := by
  have hread : ulReadconf (files.put (totalname workPath fname) s) workPath fname d =
      readconfNoDir (some s) d 0 := by
    unfold ulReadconf Files.put
    dsimp only
    rw [Function.update_self]
  rw [hread, readconfNoDir_some, Nat.sub_zero, Nat.zero_add]

/-- Two texts of which the same is stored are read alike iff they are both read to the end, or both are
not. -/
theorem sameResult_iff (files : Files) (workPath fname : Bytes) (d : ConfData) {s s' : Bytes}
    (hstored : stored d.size (fgetsAll (lineSize - 1) s) = stored d.size (fgetsAll (lineSize - 1) s')) :
    SameResult (ulReadconf (files.put (totalname workPath fname) s) workPath fname d)
        (ulReadconf (files.put (totalname workPath fname) s') workPath fname d) ↔
      (complete d.size (fgetsAll (lineSize - 1) s) = true ↔
        complete d.size (fgetsAll (lineSize - 1) s') = true) := by
  have hneg : (1 : ℤ) ≠ -1 := by omega
  rw [ulReadconf_put, ulReadconf_put, hstored]
  unfold SameResult
  split_ifs with h h' h'
  · exact iff_of_true ⟨rfl, rfl⟩ (iff_of_true h h')
  · exact iff_of_false (fun hsame => hneg hsame.1) fun hiff => h' (hiff.mp h)
  · exact iff_of_false (fun hsame => hneg hsame.1.symm) fun hiff => h (hiff.mpr h')
  · exact iff_of_true ⟨rfl, rfl⟩ (iff_of_false h h')

/-- The items of a table that was filled. -/
theorem items_counted (d : ConfData) (its : List ConfItem) :
    ({ d with num := its.length, item := poke d.item 0 its } : ConfData).items = its := by
  rw [items_eq_peek]
  exact peek_poke_self d.item 0 its

/-- When two fillings of the slots that keep the number of items leave the same items. -/
theorem items_kept_iff (d : ConfData) (its its' : List ConfItem) :
    ({ d with item := poke d.item 0 its } : ConfData).items =
        ({ d with item := poke d.item 0 its' } : ConfData).items ↔
      ∀ i < d.num, its.getD i (d.item i) = its'.getD i (d.item i) := by
  simp [ConfData.items, poke]

/-- **What two readings have in common**, by the pieces that they reach. -/
theorem sameResult_iff_sameReached (files : Files) (workPath fname : Bytes) (d : ConfData) (s s' : Bytes) :
    SameResult (ulReadconf (files.put (totalname workPath fname) s) workPath fname d)
        (ulReadconf (files.put (totalname workPath fname) s') workPath fname d) ↔
      SameReached d (pieces (lines s)) (pieces (lines s')) := by
  have hneg : (1 : ℤ) ≠ -1 := by omega
  have hpieces : ∀ s, fgetsAll (lineSize - 1) s = pieces (lines s) := fgetsAll_lines _
  rw [ulReadconf_put, ulReadconf_put, hpieces, hpieces]
  unfold SameReached SameResult
  rw [← complete_iff_readToEnd, ← complete_iff_readToEnd, ← stored_eq_itemsOf, ← stored_eq_itemsOf]
  split_ifs with h h' h'
  · -- both are read to the end, and all items count
    rw [items_counted, items_counted]
    simp [h, h']
  · exact iff_of_false (fun hsame => hneg hsame.1) fun hiff => h' (hiff.1.mp h)
  · exact iff_of_false (fun hsame => hneg hsame.1.symm) fun hiff => h (hiff.1.mpr h')
  · -- neither is, and the number of items stays
    rw [items_kept_iff]
    simp [h, h']

/-- Without strays, texts that differ in comments and blank lines are read alike, except when the items
fill the table and one of the texts ends with such a line, and the other does not. -/
theorem sameResult_of_not_stray (files : Files) (workPath fname : Bytes) (d : ConfData) {s s' : Bytes}
    (hs : ¬ StrayReached d.size (lines s)) (hs' : ¬ StrayReached d.size (lines s'))
    (hsame : essentials s = essentials s') :
    SameResult (ulReadconf (files.put (totalname workPath fname) s) workPath fname d)
        (ulReadconf (files.put (totalname workPath fname) s') workPath fname d) ↔
      ¬ (FillsExactly d.size (essentials s) ∧ endsIgnorable s ≠ endsIgnorable s') := by
  have hpieces : ∀ s, fgetsAll (lineSize - 1) s = pieces (lines s) := fgetsAll_lines _
  have hne : ∀ s : Bytes, ∀ l ∈ lines s, l ≠ [] := fun s l hl => ne_nil_of_mem_lines hl
  have hstored : stored d.size (fgetsAll (lineSize - 1) s) = stored d.size (fgetsAll (lineSize - 1) s') := by
    rw [hpieces, hpieces, stored_essential (hne s) hs, stored_essential (hne s') hs']
    exact congrArg (fun ls => stored d.size (pieces ls)) hsame
  have hess : ∀ s, essential (lines s) = essentials s := fun s => rfl
  rw [sameResult_iff files workPath fname d hstored, hpieces, hpieces, complete_essential (hne s) hs,
    complete_essential (hne s') hs', hess, hess, ← hsame, complete_iff]
  unfold FillsExactly
  have hlast : ∀ s, (lines s).getLast?.any ignorable = endsIgnorable s := fun s => rfl
  rw [hlast, hlast]
  cases endsIgnorable s <;> cases endsIgnorable s' <;> grind

/-- **Texts that differ in comments and blank lines**: when they are read alike. -/
theorem readconf_comments_iff (files : Files) (workPath fname : Bytes) (d : ConfData) {s s' : Bytes}
    (hsame : essentials s = essentials s') :
    SameResult (ulReadconf (files.put (totalname workPath fname) s) workPath fname d)
        (ulReadconf (files.put (totalname workPath fname) s') workPath fname d) ↔ ReadAlike d s s' := by
  unfold ReadAlike
  by_cases hstray : StrayReached d.size (lines s) ∨ StrayReached d.size (lines s')
  · rw [sameResult_iff_sameReached]
    constructor
    · exact fun h => Or.inr ⟨hstray, h⟩
    · rintro (⟨hs, hs', -⟩ | ⟨-, h⟩)
      · exact absurd hstray (not_or.mpr ⟨hs, hs'⟩)
      · exact h
  · obtain ⟨hs, hs'⟩ := not_or.mp hstray
    rw [sameResult_of_not_stray files workPath fname d hs hs' hsame]
    constructor
    · exact fun h => Or.inl ⟨hs, hs', h⟩
    · rintro (⟨-, -, h⟩ | ⟨h, -⟩)
      · exact h
      · exact absurd h hstray

/-- Comment lines that fit the buffer are read in one piece. -/
theorem not_strayReached_of_short (n : ℕ) {s : Bytes}
    (h : ∀ l ∈ lines s, isComment l = true → l.length < lineSize - 1) :
    ¬ StrayReached n (lines s) := by
  rintro ⟨before, l, after, a, p, b, heq, hcomment, hpieces, ha, -⟩
  have hl : l ∈ lines s := by
    rw [heq]
    exact List.mem_append_right before List.mem_cons_self
  rw [fgetsAll_of_mem_lines hl (h l hl hcomment)] at hpieces
  obtain ⟨x, a, rfl⟩ := List.exists_cons_of_ne_nil ha
  rw [List.cons_append] at hpieces
  exact absurd (List.cons_eq_cons.mp hpieces).2 (by simp)

/-- A comment line of 4098 bytes, the last four of which are an item to the reader. -/
def longComment : Bytes := List.replicate 4094 35 ++ ascii "b:2" ++ [10]

/-- What a long comment line becomes. -/
theorem ulReadconf_longComment (workPath fname : Bytes) (item : ℕ → ConfItem) :
    essentials longComment = [] ∧
      (ulReadconf (everywhere longComment) workPath fname ⟨0, 1024, item⟩).2.items =
        [⟨ascii "b", ascii "2"⟩] := by
  have hnl : 10 ∉ List.replicate 4094 (35 : UInt8) ++ ascii "b:2" := by
    rw [List.mem_append, List.mem_replicate, not_or]
    exact ⟨fun h => absurd h.2 (by decide), by decide⟩
  have hcut : lineSize - 1 - 1 = (List.replicate 4094 (35 : UInt8)).length :=
    List.length_replicate.symm
  have hlong : lineSize - 1 - 1 ≤ (List.replicate 4094 (35 : UInt8) ++ ascii "b:2").length := by
    rw [List.length_append, List.length_replicate]
    exact Nat.le_add_right _ _
  have hcomment : isComment longComment = true := rfl
  have hpieces : fgetsAll (lineSize - 1) longComment =
      [List.replicate 4094 35, ascii "b:2" ++ [10]] := by
    have hne : longComment ≠ [] := by
      intro h
      rw [h] at hcomment
      exact absurd hcomment (by decide)
    rw [fgetsAll_cons (by decide) hne, longComment, fgets_line _ hnl, if_pos hlong, hcut,
      List.take_left, List.drop_left, fgetsAll_line (by decide) (by decide), fgetsAll_nil]
  have hskip : lineOf (List.replicate 4094 35) = .skip := if_pos (Or.inl rfl)
  constructor
  · unfold essentials
    rw [longComment, lines_append hnl, lines, ← longComment,
      List.filter_cons_of_neg (by simp [ignorable, hcomment]), List.filter_nil]
  · refine (congrArg (fun r => r.2.items) (readconfNoDir_some longComment ⟨0, 1024, item⟩ 0)).trans ?_
    rw [hpieces, Nat.sub_zero, complete_skip hskip, stored_skip hskip, complete_item lineOf_itemLine,
      stored_item lineOf_itemLine]
    rfl

/-- A comment and a blank line in front of an item, in a table with room. -/
theorem readconf_comments_front :
    SameResult (ulReadconf ((everywhere []).put (totalname [] []) (ascii "a:1")) [] []
        ⟨0, 1024, fun _ => ⟨[], []⟩⟩)
      (ulReadconf ((everywhere []).put (totalname [] []) (ascii "#b:2" ++ 10 :: 10 :: ascii "a:1")) []
        [] ⟨0, 1024, fun _ => ⟨[], []⟩⟩) := by
  have hfirst : ¬ StrayReached 1024 (lines (ascii "a:1")) := not_strayReached_of_short _ (by decide)
  have hsecond : ¬ StrayReached 1024 (lines (ascii "#b:2" ++ 10 :: 10 :: ascii "a:1")) :=
    not_strayReached_of_short _ (by decide)
  refine (readconf_comments_iff (everywhere []) [] [] ⟨0, 1024, fun _ => ⟨[], []⟩⟩ (by decide)).mpr ?_
  exact Or.inl ⟨hfirst, hsecond, fun hfills => hfills.2 (by decide)⟩

/-- A comment behind the items that fill a table. -/
theorem readconf_comments_full : ¬ ∀ (files : Files) (workPath fname : Bytes) (d : ConfData)
    (s s' : Bytes), essentials s = essentials s' →
      SameResult (ulReadconf (files.put (totalname workPath fname) s) workPath fname d)
        (ulReadconf (files.put (totalname workPath fname) s') workPath fname d) := by
  intro hclaim
  have hlines : ∀ n r, lines (itemLines n r) = List.replicate n (ascii "b:2" ++ [10]) ++ lines r := by
    intro n r
    induction n with
    | zero => rfl
    | succ n ih =>
        rw [itemLines, lines_append (by decide), ih]
        rfl
  have hsame : essentials (itemLines 1024 []) = essentials (itemLines 1024 (ascii "#")) := by
    unfold essentials
    rw [hlines, hlines, List.filter_append, List.filter_append]
    rfl
  have hcomplete : ∀ r, complete 1024 (fgetsAll (lineSize - 1) (itemLines 1024 r)) =
      (fgetsAll (lineSize - 1) r).isEmpty := by
    intro r
    rw [fgetsAll_itemLines, (read_replicate lineOf_itemLine 1024 _).2]
  have hres := (hclaim (everywhere []) [] [] ⟨0, 1024, fun _ => ⟨[], []⟩⟩ _ _ hsame).1
  have hcomment : fgetsAll (lineSize - 1) (ascii "#") ≠ [] := fgetsAll_ne_nil (by decide) (by decide)
  rw [ulReadconf_put, ulReadconf_put, if_pos (by rw [hcomplete, fgetsAll_nil]; rfl),
    if_neg (by rw [hcomplete, List.isEmpty_iff]; exact hcomment)] at hres
  exact absurd hres (by decide)

end Asenal.Conf
