import Asenal.Lib.Text
import Asenal.Lib.Tokens
import Mathlib.Data.List.Count

/-!
# Lines, words and characters of a file

The file is read in blocks, which are full but for the last one, and a `0` is put behind each of them. A
block is scanned up to its first `0`, one word and the blanks behind it at a time; a word is counted for
each time, also where the block begins with blanks. Where a full block ends in a word, that word is left to
the next block.

* `scanBlock_spec` — what the scan of a block counts.
* `finfoLoop_spec` — what the blocks of a file count.
-/

namespace Asenal.Ul

open Asenal.Lib.Text Asenal.Lib.Tokens

/-! ## The counts -/

/-- Source: `ul_file.cpp` `TBUF_SIZE`. -/
def tbufSize : ℕ := 65536

/-- Source: `ul_file.cpp` `ul_finfo`, the table `eng_map`. -/
def engMap (b : UInt8) : ℕ :=
  if b = 32 ∨ b = 9 ∨ b = 13 then 2 else if b = 10 then 4 else if b = 0 then 8 else 1

/-- The character in front, and the text from the end of the word on. Source: `ul_file.cpp` `ul_finfo`, the
first loop. -/
def skipWord : Option UInt8 → Bytes → Option UInt8 × Bytes
  | prev, [] => (prev, [])
  | prev, b :: rest => if engMap b &&& 1 ≠ 0 then skipWord (some b) rest else (prev, b :: rest)

/-- The blanks and the newlines, which are counted. Source: `ul_file.cpp` `ul_finfo`, from the label
`new_line` on. -/
def newLine : Option UInt8 → ℤ → Bytes → Option UInt8 × ℤ × Bytes
  | prev, nl, [] => (prev, nl, [])
  | prev, nl, b :: rest =>
      if engMap b &&& 2 ≠ 0 then newLine (some b) nl rest
      else if engMap b &&& 4 ≠ 0 then newLine (some b) (nl + 1) rest
      else (prev, nl, b :: rest)

/-- A block with a `0` behind it: the character in front of the place where the scan stops, and the counts.
Source: `ul_file.cpp` `ul_finfo`, the inner loop. -/
def scanBlock : ℕ → Option UInt8 → ℤ → ℤ → Bytes → Option (Option UInt8 × ℤ × ℤ)
  | 0, _, _, _, _ => none
  | fuel + 1, prev, nl, nw, buf =>
      let w := skipWord prev buf
      let t := newLine w.1 nl w.2
      let nw := nw + 1
      if engMap (t.2.2.headD 0) &&& 8 ≠ 0 then some (t.1, t.2.1, nw) else scanBlock fuel t.1 t.2.1 nw t.2.2

/-- The counts of lines, words and characters; `none` where a character in front of the buffer is read.
Source: `ul_file.cpp` `ul_finfo`, the outer loop. -/
def finfoLoop : ℕ → Bytes → ℤ → ℤ → Int32 → Option (ℤ × ℤ × Int32)
  | 0, _, _, _, _ => none
  | fuel + 1, file, nl, nw, nc =>
      let buf := file.take tbufSize
      if buf.length = 0 then some (nl, nw, nc)
      else
        match scanBlock (buf.length + 1) none nl nw (buf ++ [0]) with
        | some (some c, nl, nw) =>
            let nc := nc + Int32.ofNat buf.length
            if buf.length < tbufSize then some (if engMap c &&& 4 = 0 then nl + 1 else nl, nw, nc)
            else finfoLoop fuel (file.drop tbufSize) nl (if engMap c &&& 1 ≠ 0 then nw - 1 else nw) nc
        | _ => none

/-- The counts for the content of a file that is opened and read. Source: `ul_file.cpp` `ul_finfo`. -/
def ulFinfo (file : Bytes) : Option (ℤ × ℤ × Int32) := finfoLoop (file.length + 1) file 0 0 0

/-! ## Characters -/

/-- A blank or a newline. -/
def isSep (b : UInt8) : Bool := b == 32 || b == 9 || b == 13 || b == 10

/-- What the table says of each character. -/
theorem engMap_facts : ∀ b : UInt8, (engMap b &&& 1 ≠ 0 ↔ b ≠ 0 ∧ isSep b = false) ∧
    (engMap b &&& 2 ≠ 0 ↔ isSep b = true ∧ b ≠ 10) ∧ (engMap b &&& 4 ≠ 0 ↔ b = 10) ∧ (engMap b &&& 8 ≠ 0 ↔ b = 0) :=
  forall_byte (by decide +kernel)

/-- The characters of words. -/
theorem engMap_word (b : UInt8) : engMap b &&& 1 ≠ 0 ↔ b ≠ 0 ∧ isSep b = false :=
  (engMap_facts b).1

/-- The blanks. -/
theorem engMap_blank (b : UInt8) : engMap b &&& 2 ≠ 0 ↔ isSep b = true ∧ b ≠ 10 :=
  (engMap_facts b).2.1

/-- The newline. -/
theorem engMap_newline (b : UInt8) : engMap b &&& 4 ≠ 0 ↔ b = 10 :=
  (engMap_facts b).2.2.1

/-- The end of a block. -/
theorem engMap_nul (b : UInt8) : engMap b &&& 8 ≠ 0 ↔ b = 0 :=
  (engMap_facts b).2.2.2

/-! ## One block -/

variable {s rest w g : Bytes} {prev : Option UInt8} {nl nw : ℤ} {fuel : ℕ}

/-- A word is skipped. -/
theorem skipWord_append (hw : ∀ b ∈ w, b ≠ 0 ∧ isSep b = false)
    (hrest : ∀ b ∈ rest.head?, b = 0 ∨ isSep b = true) (prev : Option UInt8) :
    skipWord prev (w ++ rest) = (w.getLast?.or prev, rest) := by
  induction w generalizing prev with
  | nil =>
      cases rest with
      | nil => rfl
      | cons b rest =>
          have hstop : ¬ engMap b &&& 1 ≠ 0 := by
            rw [engMap_word, not_and_or, not_not, Bool.not_eq_false]
            exact hrest b rfl
          exact if_neg hstop
  | cons b w ih =>
      rw [List.forall_mem_cons] at hw
      rw [List.cons_append, skipWord, if_pos ((engMap_word b).mpr hw.1), ih hw.2, List.getLast?_cons]
      cases w.getLast? <;> rfl

/-- Separators are skipped, and the newlines among them counted. -/
theorem newLine_append (hg : ∀ b ∈ g, isSep b = true) (hrest : ∀ b ∈ rest.head?, isSep b = false)
    (prev : Option UInt8) (nl : ℤ) :
    newLine prev nl (g ++ rest) = (g.getLast?.or prev, nl + g.count 10, rest) := by
  induction g generalizing prev nl with
  | nil =>
      have hcount : nl + ((([] : Bytes).count 10 : ℕ) : ℤ) = nl := Int.add_zero nl
      rw [hcount]
      cases rest with
      | nil => rfl
      | cons b rest =>
          have hsep := hrest b rfl
          have hblank : ¬ engMap b &&& 2 ≠ 0 := fun h => by
            rw [((engMap_blank b).mp h).1] at hsep
            exact absurd hsep nofun
          have hnewline : ¬ engMap b &&& 4 ≠ 0 := fun h => by
            rw [(engMap_newline b).mp h] at hsep
            exact absurd hsep (by decide)
          rw [List.nil_append, newLine, if_neg hblank, if_neg hnewline]
          rfl
  | cons b g ih =>
      rw [List.forall_mem_cons] at hg
      have hlast : g.getLast?.or (some b) = (b :: g).getLast?.or prev := by
        rw [List.getLast?_cons]
        cases g.getLast? <;> rfl
      rw [List.cons_append, newLine]
      by_cases hb : b = 10
      · have hblank : ¬ engMap b &&& 2 ≠ 0 := fun h => ((engMap_blank b).mp h).2 hb
        rw [if_neg hblank, if_pos ((engMap_newline b).mpr hb), ih hg.2, hlast, hb, List.count_cons_self]
        push_cast
        rw [Int.add_assoc, Int.add_comm 1]
      · rw [if_pos ((engMap_blank b).mpr ⟨hg.1, hb⟩), ih hg.2, hlast, List.count_cons_of_ne hb]

/-- The text does not begin where a word may begin and does. -/
def stray (free : Bool) (s : Bytes) : ℕ := if free && s.head?.any (fun c => !isSep c) then 0 else 1

/-- A block that begins with a word. -/
theorem stray_cons {c : UInt8} (hc : isSep c = false) (s : Bytes) : stray true (c :: s) = 0 := by
  simp [stray, hc]

/-- A word in front, the blanks behind it, and the rest, which begins with a word. -/
theorem word_split (s : Bytes) : ∃ w g u, s = w ++ (g ++ u) ∧ (∀ b ∈ w, isSep b = false) ∧
    (∀ b ∈ g, isSep b = true) ∧ (∀ b ∈ (g ++ u).head?, isSep b = true) ∧ (∀ b ∈ u.head?, isSep b = false) ∧
    starts isSep true s + stray true s = 1 + starts isSep true u := by
  have hword := List.takeWhile_append_dropWhile (p := fun c => !isSep c) (l := s)
  have hblank := List.takeWhile_append_dropWhile (p := isSep) (l := s.dropWhile fun c => !isSep c)
  have hmem : ∀ b ∈ s.takeWhile (fun c => !isSep c), isSep b = false :=
    fun b hb => by simpa using List.mem_takeWhile_imp hb
  have hhead : ∀ b ∈ (s.dropWhile fun c => !isSep c).head?, isSep b = true :=
    fun b hb => by simpa using not_of_mem_head_dropWhile (fun c => !isSep c) s b hb
  refine ⟨_, _, _, (hblank.symm ▸ hword).symm, hmem, fun b hb => List.mem_takeWhile_imp hb, ?_,
    not_of_mem_head_dropWhile isSep _, ?_⟩
  · rw [hblank]
    exact hhead
  rw [← length_tokens, ← length_tokens, tokens_dropWhile]
  cases s with
  | nil => rfl
  | cons c s =>
      by_cases hc : isSep c = true
      · -- no word in front
        rw [List.dropWhile_cons_of_neg (by rw [hc]; decide), Nat.add_comm]
        simp [stray, hc]
      · have hne : (c :: s).takeWhile (fun c => !isSep c) ≠ [] := by
          rw [List.takeWhile_cons_of_pos (by simpa using hc)]
          exact List.cons_ne_nil _ _
        have hfirst := tokens_append hne hmem hhead
        rw [hword] at hfirst
        rw [hfirst, stray_cons (eq_false_of_ne_true hc), List.length_cons, Nat.add_zero, Nat.add_comm]

/-- **The scan of a block** up to its first `0`: the newlines, the words, and one more word if the block does
not begin with one. -/
theorem scanBlock_spec (hs : 0 ∉ s) (hfuel : s.length < fuel) (prev : Option UInt8) (nl nw : ℤ) :
    scanBlock fuel prev nl nw (s ++ 0 :: rest) = some (s.getLast?.or prev, nl + s.count 10,
      nw + (starts isSep true s + stray true s : ℕ)) := by
  induction fuel generalizing s prev nl nw with
  | zero => exact absurd hfuel (Nat.not_lt_zero _)
  | succ fuel ih =>
      obtain ⟨w, g, u, rfl, hw, hg, hblank, hrest, hstarts⟩ := word_split s
      rw [hstarts]
      have hw' : ∀ b ∈ w, b ≠ 0 ∧ isSep b = false :=
        fun b hb => ⟨fun heq => hs (heq ▸ List.mem_append_left _ hb), hw b hb⟩
      have hblank' : ∀ b ∈ (g ++ (u ++ 0 :: rest)).head?, b = 0 ∨ isSep b = true := by
        rw [← List.append_assoc]
        intro b hb
        cases hgu : g ++ u with
        | nil =>
            rw [hgu] at hb
            exact Or.inl (Option.some.inj hb).symm
        | cons c v =>
            rw [hgu] at hb hblank
            exact Or.inr (hblank b hb)
      have hrest' : ∀ b ∈ (u ++ 0 :: rest).head?, isSep b = false := by
        intro b hb
        cases u with
        | nil =>
            rw [← Option.some.inj hb]
            rfl
        | cons c u => exact hrest b hb
      have hcount : (w ++ (g ++ u)).count 10 = g.count 10 + u.count 10 := by
        have hzero : w.count 10 = 0 := List.count_eq_zero.mpr fun hten => absurd (hw 10 hten) (by decide)
        rw [List.count_append, List.count_append, hzero, Nat.zero_add]
      rw [scanBlock, List.append_assoc, List.append_assoc, skipWord_append hw' hblank' prev]
      dsimp only
      rw [newLine_append hg hrest', List.getLast?_append, List.getLast?_append, Option.or_assoc, Option.or_assoc,
        hcount]
      cases u with
      | nil =>
          refine (if_pos ((engMap_nul 0).mpr rfl)).trans ?_
          simp [starts]
      | cons c u =>
          have hc : isSep c = false := hrest c rfl
          have hc0 : c ≠ 0 := fun heq => hs (by simp [heq])
          have hne : g ≠ [] := by
            rintro rfl
            have hsep := hblank c rfl
            rw [hc] at hsep
            exact Bool.false_ne_true hsep
          have hlen := List.length_pos_of_ne_nil hne
          rw [List.length_append, List.length_append] at hfuel
          refine (if_neg (mt (engMap_nul c).mp hc0)).trans ?_
          refine (ih (fun hmem => hs (by simp [hmem])) (by omega) _ _ _).trans ?_
          rw [stray_cons hc]
          push_cast
          rw [Int.add_assoc, Int.add_assoc, Int.add_zero]

/-! ## Blocks -/

/-- The blocks in which a file is read. -/
def blocks (file : Bytes) : List Bytes :=
  if file = [] then [] else file.take tbufSize :: blocks (file.drop tbufSize)
termination_by file.length
decreasing_by
  rename_i h
  rw [List.length_drop]
  exact Nat.sub_lt (List.length_pos_of_ne_nil h) (by decide)

/-- What is seen of a block. -/
def seen (b : Bytes) : Bytes := b.takeWhile (· != 0)

/-- What is not seen of a block: what stands from the first `0` on. -/
def hidden (b : Bytes) : Bytes := b.dropWhile (· != 0)

/-- A full block whose word is left to the next one. -/
def leftOver (b : Bytes) : ℕ :=
  if b.length = tbufSize ∧ (seen b).getLast?.any (fun c => !isSep c) then 1 else 0

/-- The blocks that do not begin with the beginning of a word. -/
def strays : Bool → List Bytes → ℕ
  | _, [] => 0
  | free, b :: bs => stray free b + strays (freeBehind isSep free b) bs

/-- The words that are left to the next block, and those that begin where they are not seen. -/
def missed : Bool → List Bytes → ℕ
  | _, [] => 0
  | free, b :: bs =>
      leftOver b + starts isSep (freeBehind isSep free (seen b)) (hidden b) +
        missed (freeBehind isSep free b) bs

/-- The newlines that are seen. -/
def seenLines (bs : List Bytes) : ℕ := (bs.map fun b => (seen b).count 10).sum

/-- The last block is short, and what is seen of it does not end in a newline: a line is counted for it. -/
def Closes (bs : List Bytes) : Prop :=
  ∃ b ∈ bs.getLast?, b.length < tbufSize ∧ (seen b).getLast? ≠ some 10

instance (bs : List Bytes) : Decidable (Closes bs) :=
  inferInstanceAs (Decidable (∃ b ∈ bs.getLast?, _))

variable {file b : Bytes} {bs : List Bytes} {free : Bool}

/-- The first block of a file. -/
theorem blocks_of_ne_nil (h : file ≠ []) :
    blocks file = file.take tbufSize :: blocks (file.drop tbufSize) := by
  rw [blocks, if_neg h]

/-- No block of an empty file. -/
theorem blocks_nil : blocks [] = [] := by
  rw [blocks, if_pos rfl]

/-- What is seen of a block, and what is not. -/
theorem seen_append_hidden (b : Bytes) : seen b ++ hidden b = b := List.takeWhile_append_dropWhile

/-- What is seen has no NUL. -/
theorem not_mem_seen (b : Bytes) : 0 ∉ seen b := fun h => by
  have hne := List.mem_takeWhile_imp h
  exact absurd hne (by decide)

/-- A block with the `0` behind it is what is seen, and a `0`. -/
theorem exists_behind_seen (b : Bytes) : ∃ rest, b ++ [0] = seen b ++ 0 :: rest := by
  have hhead := not_of_mem_head_dropWhile (fun c : UInt8 => c != 0) b
  have hsplit := seen_append_hidden b
  unfold hidden at hsplit
  cases hhidden : b.dropWhile (· != 0) with
  | nil =>
      rw [hhidden, List.append_nil] at hsplit
      exact ⟨[], by rw [hsplit]⟩
  | cons c rest =>
      have hc : c = 0 := by simpa using hhead c (by rw [hhidden]; rfl)
      rw [hhidden, hc] at hsplit
      exact ⟨rest ++ [0], by rw [← List.cons_append, ← List.append_assoc, hsplit]⟩

/-- What is seen begins as the block does. -/
theorem head_seen (h : b.head? ≠ some 0) : (seen b).head? = b.head? := by
  cases b with
  | nil => rfl
  | cons c b =>
      have hc : (c != 0) = true := by simpa using h
      rw [seen, List.takeWhile_cons_of_pos (p := fun c => c != 0) hc]
      rfl

/-- A text that may continue a word. -/
theorem starts_stray (free : Bool) (s : Bytes) :
    starts isSep true s + stray true s = starts isSep free s + stray free s := by
  cases s with
  | nil => simp [starts, stray]
  | cons c s =>
      cases free with
      | true => rfl
      | false =>
          cases hc : isSep c with
          | true => simp [starts, stray, hc]
          | false => simp [starts, stray, hc]; omega

/-- The words that the scan of a block counts, and those that begin in it. -/
theorem block_words (h : b.head? ≠ some 0) (free : Bool) :
    starts isSep true (seen b) + stray true (seen b) +
        starts isSep (freeBehind isSep free (seen b)) (hidden b) = starts isSep free b + stray free b := by
  have hstray : stray free (seen b) = stray free b := by
    unfold stray
    rw [head_seen h]
  have hstarts := starts_append (p := isSep) free (seen b) (hidden b)
  rw [seen_append_hidden] at hstarts
  rw [starts_stray free, hstray, hstarts]
  omega

/-- The last character that is seen of a block. -/
theorem exists_last_seen (hne : b ≠ []) (h : b.head? ≠ some 0) : ∃ c, (seen b).getLast? = some c ∧ c ≠ 0 := by
  have hsome : seen b ≠ [] := by
    intro hnil
    have hhead := head_seen h
    rw [hnil] at hhead
    exact hne (List.head?_eq_none_iff.mp hhead.symm)
  refine ⟨_, List.getLast?_eq_some_getLast hsome, fun heq => not_mem_seen b ?_⟩
  rw [← heq]
  exact List.getLast_mem hsome

/-- Nothing is closed by a block that another one follows. -/
theorem closes_cons (b : Bytes) (hne : bs ≠ []) : Closes (b :: bs) ↔ Closes bs := by
  obtain ⟨a, as, rfl⟩ := List.exists_cons_of_ne_nil hne
  unfold Closes
  rw [List.getLast?_cons_cons]

variable {r : Bytes} {c : UInt8}

/-- One block: the scan, and what follows from its length and from the last character that is seen. -/
theorem finfoLoop_block (hb : file.take tbufSize = b) (hr : file.drop tbufSize = r) (hne : b ≠ [])
    (hlast : (seen b).getLast? = some c) (nl nw : ℤ) (nc : Int32) :
    finfoLoop (fuel + 1) file nl nw nc =
      if b.length < tbufSize then
        some (nl + ((seen b).count 10 + if c = 10 then 0 else 1 : ℕ),
          nw + (starts isSep true (seen b) + stray true (seen b) : ℕ), nc + Int32.ofNat b.length)
      else
        finfoLoop fuel r (nl + (seen b).count 10)
          (nw + (starts isSep true (seen b) + stray true (seen b) : ℕ) - if isSep c = false then 1 else 0)
          (nc + Int32.ofNat b.length) := by
  have hfuel : (seen b).length < b.length + 1 := Nat.lt_succ_of_le (List.takeWhile_sublist _).length_le
  have hc : c ≠ 0 := fun heq => not_mem_seen b (heq ▸ List.mem_of_getLast? hlast)
  have hline : (if engMap c &&& 4 = 0 then nl + (seen b).count 10 + 1 else nl + (seen b).count 10) =
      nl + ((seen b).count 10 + if c = 10 then 0 else 1 : ℕ) := by
    by_cases hten : c = 10
    · rw [if_neg ((engMap_newline c).mpr hten), if_pos hten, Nat.add_zero]
    · rw [if_pos (not_not.mp (mt (engMap_newline c).mp hten)), if_neg hten, Int.add_assoc]
      rfl
  obtain ⟨rest, hrest⟩ := exists_behind_seen b
  rw [finfoLoop, hb, hr]
  dsimp only
  rw [if_neg (mt List.length_eq_zero_iff.mp hne), hrest, scanBlock_spec (not_mem_seen b) hfuel, hlast,
    Option.some_or]
  dsimp only
  rw [hline]
  congr 1
  by_cases hword : isSep c = false
  · rw [if_pos ((engMap_word c).mpr ⟨hc, hword⟩), if_pos hword]
  · rw [if_neg fun h => hword ((engMap_word c).mp h).2, if_neg hword, Int.sub_zero]

/-- A last line is closed by a short block with another character than a newline. -/
theorem closes_last (hshort : b.length < tbufSize) (hlast : (seen b).getLast? = some c) :
    Closes [b] ↔ c ≠ 10 := by
  simp [Closes, hshort, hlast]

/-- A full block that ends in a word. -/
theorem leftOver_full (hfull : b.length = tbufSize) (hlast : (seen b).getLast? = some c) :
    leftOver b = if isSep c = false then 1 else 0 := by
  simp [leftOver, hfull, hlast]

/-- **The blocks of a file**: the newlines that are seen, and a last line that is closed; the words, where
each block that begins otherwise counts one more, less those that are missed; all characters. -/
theorem finfoLoop_spec (h : ∀ b ∈ blocks file, b.head? ≠ some 0) (hfuel : (blocks file).length < fuel)
    (nl nw : ℤ) (nc : Int32) (free : Bool) :
    ∃ k : ℤ, finfoLoop fuel file nl nw nc =
        some (nl + (seenLines (blocks file) + if Closes (blocks file) then 1 else 0 : ℕ), nw + k,
          nc + Int32.ofNat file.length) ∧
      k + missed free (blocks file) = (starts isSep free file + strays free (blocks file) : ℕ) := by
  induction fuel generalizing file nl nw nc free with
  | zero => exact absurd hfuel (Nat.not_lt_zero _)
  | succ fuel ih =>
      by_cases hnil : file = []
      · subst hnil
        rw [blocks_nil]
        have hclose : ¬ Closes [] := by decide
        refine ⟨0, ?_, rfl⟩
        rw [if_neg hclose]
        simp [finfoLoop, seenLines]
      rw [blocks_of_ne_nil hnil] at h hfuel ⊢
      have hsplit := List.take_append_drop tbufSize file
      obtain ⟨b, hb⟩ : ∃ b, file.take tbufSize = b := ⟨_, rfl⟩
      obtain ⟨r, hr⟩ : ∃ r, file.drop tbufSize = r := ⟨_, rfl⟩
      have hpos := List.length_pos_of_ne_nil hnil
      have hlenb : b.length = min tbufSize file.length := by rw [← hb, List.length_take]
      rw [hb, hr] at h hfuel hsplit ⊢
      rw [List.forall_mem_cons] at h
      rw [List.length_cons] at hfuel
      have hne : b ≠ [] := by
        rintro rfl
        rw [List.length_nil, tbufSize] at hlenb
        omega
      obtain ⟨c, hlast, -⟩ := exists_last_seen hne h.1
      have hblock := block_words h.1 free
      have hstarts := starts_append (p := isSep) free b r
      rw [hsplit] at hstarts
      rw [finfoLoop_block hb hr hne hlast]
      by_cases hshort : b.length < tbufSize
      · -- the last block
        obtain rfl : r = [] := by
          rw [← hr]
          exact List.drop_eq_nil_of_le (by omega)
        rw [List.append_nil] at hsplit
        have hleft : leftOver b = 0 := if_neg fun hfull => Nat.ne_of_lt hshort hfull.1
        rw [blocks_nil, if_pos hshort, ← hsplit]
        refine ⟨(starts isSep true (seen b) + stray true (seen b) : ℕ), ?_, ?_⟩
        · congr 2
          simp only [closes_last hshort hlast, ne_eq, ite_not, seenLines, List.map_cons, List.map_nil,
            List.sum_cons, List.sum_nil, Nat.add_zero]
        · rw [missed, missed, strays, strays, hleft]
          omega
      · have hfull : b.length = tbufSize := by omega
        rw [if_neg hshort]
        obtain ⟨k, hloop, hwords⟩ := ih h.2 (by omega) (nl + (seen b).count 10)
          (nw + (starts isSep true (seen b) + stray true (seen b) : ℕ) - if isSep c = false then 1 else 0)
          (nc + Int32.ofNat b.length) (freeBehind isSep free b)
        have hleft := leftOver_full hfull hlast
        have hcloses : Closes (b :: blocks r) ↔ Closes (blocks r) := by
          by_cases hrnil : blocks r = []
          · rw [hrnil]
            simp [Closes, hfull]
          · exact closes_cons b hrnil
        refine ⟨(starts isSep true (seen b) + stray true (seen b) : ℕ) - leftOver b + k, ?_, ?_⟩
        · have hlines : seenLines (b :: blocks r) = (seen b).count 10 + seenLines (blocks r) := by
            simp [seenLines]
          rw [hloop, hlines, hleft, ← hsplit, List.length_append, Int32.ofNat_add, ← Int32.add_assoc]
          simp only [hcloses]
          refine congrArg some (Prod.ext ?_ (Prod.ext ?_ rfl))
          · dsimp only
            omega
          · dsimp only
            push_cast
            omega
        · rw [missed, strays, hstarts]
          push_cast at hwords ⊢
          omega

/-- **A block that begins with a `0`**: the character in front of the buffer is read. -/
theorem finfoLoop_nul (hmem : b ∈ blocks file) (h : b.head? = some 0) (fuel : ℕ) (nl nw : ℤ) (nc : Int32) :
    finfoLoop fuel file nl nw nc = none := by
  induction fuel generalizing file nl nw nc with
  | zero => rfl
  | succ fuel ih =>
      by_cases hnil : file = []
      · rw [hnil, blocks_nil] at hmem
        exact absurd hmem List.not_mem_nil
      rw [blocks_of_ne_nil hnil] at hmem
      obtain ⟨a, ha⟩ : ∃ a, file.take tbufSize = a := ⟨_, rfl⟩
      obtain ⟨r, hr⟩ : ∃ r, file.drop tbufSize = r := ⟨_, rfl⟩
      have hpos := List.length_pos_of_ne_nil hnil
      have hlen : a.length = min tbufSize file.length := by rw [← ha, List.length_take]
      have hne : a ≠ [] := by
        rintro rfl
        rw [List.length_nil, tbufSize] at hlen
        omega
      rw [ha, hr] at hmem
      by_cases hhead : a.head? = some 0
      · have hseen : seen a = [] := by
          obtain ⟨as, rfl⟩ := List.head?_eq_some_iff.mp hhead
          rfl
        obtain ⟨rest, hrest⟩ := exists_behind_seen a
        rw [finfoLoop, ha]
        dsimp only
        rw [if_neg (mt List.length_eq_zero_iff.mp hne), hrest, scanBlock_spec (not_mem_seen a)
          (Nat.lt_succ_of_le (List.takeWhile_sublist _).length_le), hseen]
        rfl
      · have hrest : b ∈ blocks r := by
          rcases List.mem_cons.mp hmem with rfl | hin
          · exact absurd h hhead
          · exact hin
        have hfull : ¬ a.length < tbufSize := fun hshort => by
          have hnil' : r = [] := by
            rw [← hr]
            exact List.drop_eq_nil_of_le (by omega)
          rw [hnil', blocks_nil] at hrest
          exact absurd hrest List.not_mem_nil
        obtain ⟨c, hlast, -⟩ := exists_last_seen hne hhead
        rw [finfoLoop_block ha hr hne hlast, if_neg hfull]
        exact ih hrest _ _ _

/-- The blocks are not empty, all but the last one are full, and together they are the file. -/
theorem blocks_spec (file : Bytes) : (blocks file).flatten = file ∧
    (∀ b ∈ blocks file, b ≠ [] ∧ b.length ≤ tbufSize) ∧
    (∀ b ∈ (blocks file).dropLast, b.length = tbufSize) ∧ (blocks file).length ≤ file.length := by
  by_cases hnil : file = []
  · subst hnil
    rw [blocks_nil]
    exact ⟨rfl, nofun, nofun, Nat.le_refl 0⟩
  have hpos := List.length_pos_of_ne_nil hnil
  have hdrop : (file.drop tbufSize).length < file.length := by
    rw [List.length_drop, tbufSize]
    omega
  obtain ⟨hflatten, hne, hfull, hlen⟩ := blocks_spec (file.drop tbufSize)
  rw [blocks_of_ne_nil hnil]
  refine ⟨?_, List.forall_mem_cons.mpr ⟨⟨?_, List.length_take_le _ _⟩, hne⟩, ?_, ?_⟩
  · rw [List.flatten_cons, hflatten, List.take_append_drop]
  · intro hzero
    rcases List.take_eq_nil_iff.mp hzero with h | h
    · exact absurd h (by decide)
    · exact hnil h
  · by_cases hlast : blocks (file.drop tbufSize) = []
    · rw [hlast]
      nofun
    · rw [List.dropLast_cons_of_ne_nil hlast]
      refine List.forall_mem_cons.mpr ⟨?_, hfull⟩
      -- something is left, so the block is full
      have hrest : file.drop tbufSize ≠ [] := fun h => hlast (by rw [h, blocks_nil])
      rw [ne_eq, List.drop_eq_nil_iff] at hrest
      rw [List.length_take]
      omega
  · rw [List.length_cons]
    omega
termination_by file.length
decreasing_by exact hdrop

/-! ## The whole file -/

/-- The lines of a file: those that end in a newline, and the rest if it is not empty. -/
def lineCount (file : Bytes) : ℕ := file.count 10 + if file.getLast?.any (· != 10) then 1 else 0

/-- The words of a file: the runs of characters between blanks. -/
def wordCount (file : Bytes) : ℕ := (tokens isSep file).length

/-- What is returned are the lines, the words and the characters of the file. -/
def Counts (file : Bytes) : Prop :=
  ∃ nc : Int32, ulFinfo file = some ((lineCount file : ℤ), (wordCount file : ℤ), nc) ∧ nc.toInt = file.length

/-- The newlines that are not seen. -/
def hiddenLines (bs : List Bytes) : ℕ := (bs.map fun b => (hidden b).count 10).sum

/-- What the scan of the blocks gets wrong is made up for. -/
structure Balanced (file : Bytes) : Prop where
  small : file.length < 2 ^ 31
  /-- No character in front of the buffer is read. -/
  begins : ∀ b ∈ blocks file, b.head? ≠ some 0
  /-- The last line is counted once, as a line that is closed, or as one that is not seen. -/
  lines : hiddenLines (blocks file) + (if file.getLast?.any (· != 10) then 1 else 0) =
    if Closes (blocks file) then 1 else 0
  /-- As many blocks begin otherwise than with a word as words are left over or not seen. -/
  words : strays true (blocks file) = missed true (blocks file)

/-- Newlines are seen or not. -/
theorem count_newlines (file : Bytes) : file.count 10 = seenLines (blocks file) + hiddenLines (blocks file) := by
  have hcount : ∀ bs : List Bytes, bs.flatten.count 10 = seenLines bs + hiddenLines bs := by
    intro bs
    induction bs with
    | nil => rfl
    | cons b bs ih =>
        have hb : b.count 10 = (seen b).count 10 + (hidden b).count 10 := by
          rw [← List.count_append, seen_append_hidden]
        unfold seenLines hiddenLines at ih ⊢
        rw [List.flatten_cons, List.count_append, ih, hb]
        simp only [List.map_cons, List.sum_cons]
        omega
  rw [← hcount, (blocks_spec file).1]

/-- The counts are right where the errors of the scan make up for each other. -/
theorem counts_iff_balanced (file : Bytes) : Counts file ↔ Balanced file := by
  by_cases hbegins : ∀ b ∈ blocks file, b.head? ≠ some 0
  swap
  · simp only [not_forall, not_not] at hbegins
    obtain ⟨b, hb, hzero⟩ := hbegins
    refine iff_of_false ?_ fun h => h.begins b hb hzero
    rintro ⟨nc, hinfo, -⟩
    rw [ulFinfo, finfoLoop_nul hb hzero] at hinfo
    exact absurd hinfo nofun
  have hfuel := Nat.lt_succ_of_le (blocks_spec file).2.2.2
  obtain ⟨k, hloop, hwords⟩ := finfoLoop_spec hbegins hfuel 0 0 0 true
  have hlines := count_newlines file
  have htokens := length_tokens (p := isSep) file
  rw [Int.zero_add, Int.zero_add, Int32.zero_add] at hloop
  unfold Counts ulFinfo lineCount wordCount
  rw [hloop]
  constructor
  · rintro ⟨nc, hinfo, hchars⟩
    obtain ⟨hnl, hrest⟩ := Prod.mk.inj (Option.some.inj hinfo)
    obtain ⟨hnw, -⟩ := Prod.mk.inj hrest
    have hlt := nc.toInt_lt
    exact ⟨by omega, hbegins, by omega, by omega⟩
  · rintro ⟨hsmall, -, hclosed, hbalance⟩
    refine ⟨Int32.ofNat file.length, ?_, Int32.toInt_ofNat_of_lt hsmall⟩
    refine congrArg some (Prod.ext ?_ (Prod.ext ?_ rfl))
    · dsimp only
      omega
    · dsimp only
      omega

/-! ## Texts -/

/-- The blocks that begin with a blank where no word is open. -/
def misplaced : Bool → List Bytes → ℕ
  | _, [] => 0
  | free, b :: bs =>
      (if free && b.head?.any isSep then 1 else 0) + misplaced (freeBehind isSep free b) bs

/-- A block without NUL is seen. -/
theorem seen_text (h : 0 ∉ b) : seen b = b ∧ hidden b = [] := by
  have hall : ∀ c ∈ b, (c != 0) = true := fun c hc => bne_iff_ne.mpr fun heq => h (heq ▸ hc)
  exact ⟨List.takeWhile_eq_self_iff.mpr hall, List.dropWhile_eq_nil_iff.mpr hall⟩

/-- **In a text** what is wrong are the blocks that begin with a blank where no word is open, and a word that
is left over by the last block. -/
theorem text_words (hbs : ∀ b ∈ bs, b ≠ [] ∧ 0 ∉ b) (hfull : ∀ b ∈ bs.dropLast, b.length = tbufSize)
    (free : Bool) :
    strays free bs + (bs.getLast?.map leftOver).getD 0 =
      misplaced free bs + missed free bs + if free ∨ bs = [] then 0 else 1 := by
  induction bs generalizing free with
  | nil => simp [strays, misplaced, missed]
  | cons b bs ih =>
      rw [List.forall_mem_cons] at hbs
      obtain ⟨⟨hne, hzero⟩, hbs⟩ := hbs
      obtain ⟨hseen, hhidden⟩ := seen_text hzero
      -- the first character of the block
      have hstray : stray free b = (if free && b.head?.any isSep then 1 else 0) + if free then 0 else 1 := by
        obtain ⟨c, s, rfl⟩ := List.exists_cons_of_ne_nil hne
        cases free <;> cases hc : isSep c <;> simp [stray, hc]
      have hstart : (if free = true ∨ b :: bs = [] then 0 else 1) = if free then 0 else 1 := by simp
      rw [strays, misplaced, missed, hhidden, hstray, hstart, starts]
      by_cases hlast : bs = []
      · subst hlast
        simp [strays, misplaced, missed]
        omega
      · rw [List.dropLast_cons_of_ne_nil hlast, List.forall_mem_cons] at hfull
        obtain ⟨a, as, rfl⟩ := List.exists_cons_of_ne_nil hlast
        have hrest := ih hbs hfull.2 (freeBehind isSep free b)
        -- the last character of the block
        have hleft : leftOver b = if freeBehind isSep free b = true ∨ a :: as = [] then 0 else 1 := by
          obtain ⟨c, hc⟩ : ∃ c, b.getLast? = some c := ⟨_, List.getLast?_eq_some_getLast hne⟩
          cases hsep : isSep c <;> simp [leftOver, freeBehind, hseen, hfull.1, hc, hsep]
        rw [List.getLast?_cons_cons, hleft]
        omega

/-- No block is misplaced. -/
theorem misplaced_eq_zero_iff (free : Bool) (bs : List Bytes) : misplaced free bs = 0 ↔
    ∀ pre b, pre ++ [b] <+: bs → (∃ c ∈ b.head?, isSep c = true) → freeBehind isSep free pre.flatten = false := by
  induction bs generalizing free with
  | nil =>
      refine iff_of_true rfl fun pre b hpre => ?_
      exact absurd (List.prefix_nil.mp hpre) (by simp)
  | cons a bs ih =>
      rw [misplaced, Nat.add_eq_zero_iff, ih]
      constructor
      · rintro ⟨hfirst, hrest⟩ pre b hpre hsep
        cases pre with
        | nil =>
            obtain ⟨rfl, -⟩ := List.cons_prefix_cons.mp hpre
            have hblank : b.head?.any isSep = true := (Option.any_eq_true isSep _).mpr hsep
            rw [hblank, Bool.and_true] at hfirst
            show free = false
            by_contra hfree
            rw [Bool.not_eq_false] at hfree
            rw [hfree] at hfirst
            exact absurd hfirst (by decide)
        | cons a' pre =>
            obtain ⟨rfl, hpre'⟩ := List.cons_prefix_cons.mp hpre
            rw [List.flatten_cons, freeBehind_append]
            exact hrest pre b hpre' hsep
      · intro h
        refine ⟨if_neg fun hand => ?_, fun pre b hpre hsep => ?_⟩
        · obtain ⟨hfree, hblank⟩ := Bool.and_eq_true_iff.mp hand
          have hclosed := h [] a (List.cons_prefix_cons.mpr ⟨rfl, List.nil_prefix⟩)
            ((Option.any_eq_true isSep _).mp hblank)
          rw [show freeBehind isSep free ([] : List Bytes).flatten = free from rfl, hfree] at hclosed
          exact absurd hclosed nofun
        · rw [← freeBehind_append, ← List.flatten_cons]
          exact h (a :: pre) b (List.cons_prefix_cons.mpr ⟨rfl, hpre⟩) hsep

/-- A file whose size is in range, where each block that begins with a blank has a word in front of it, and
a full block at the end ends in a newline. -/
structure Aligned (file : Bytes) : Prop where
  small : file.length < 2 ^ 31
  begins : ∀ pre b, pre ++ [b] <+: blocks file → (∃ c ∈ b.head?, isSep c = true) →
    ∃ c ∈ pre.flatten.getLast?, isSep c = false
  ends : ∀ b ∈ (blocks file).getLast?, b.length = tbufSize → b.getLast? = some 10

/-- A text that ends in a word. -/
theorem freeBehind_true_iff (s : Bytes) :
    freeBehind isSep true s = false ↔ ∃ c ∈ s.getLast?, isSep c = false := by
  unfold freeBehind
  cases s.getLast? <;> simp

/-- The last character of a file is that of its last block. -/
theorem getLast_blocks (file : Bytes) : file.getLast? = (blocks file).getLast?.bind List.getLast? := by
  obtain ⟨hflatten, hne, -, -⟩ := blocks_spec file
  rcases List.eq_nil_or_concat (blocks file) with hnil | ⟨bs, b, hbs⟩
  · rw [hnil] at hflatten
    rw [hnil, ← hflatten]
    rfl
  · have hb := (hne b (by rw [hbs]; simp)).1
    rw [hbs, List.concat_eq_append] at hflatten ⊢
    rw [← hflatten, List.flatten_append, List.getLast?_append, List.getLast?_concat, List.flatten_singleton,
      Option.bind_some, List.getLast?_eq_some_getLast hb, Option.some_or]

/-- In a text the last line is counted where a full block at the end ends in a newline, and no word is left
over then. -/
theorem text_lines (h : 0 ∉ file) :
    ((if file.getLast?.any (· != 10) then 1 else 0) = (if Closes (blocks file) then 1 else 0) ↔
      ∀ b ∈ (blocks file).getLast?, b.length = tbufSize → b.getLast? = some 10) ∧
    ((∀ b ∈ (blocks file).getLast?, b.length = tbufSize → b.getLast? = some 10) →
      ((blocks file).getLast?.map leftOver).getD 0 = 0) := by
  obtain ⟨hflatten, hblocks, -, -⟩ := blocks_spec file
  have hlast := getLast_blocks file
  cases hb : (blocks file).getLast? with
  | none =>
      rw [hb] at hlast
      simp [hlast, hb, Closes]
  | some b =>
      have hmem := List.mem_of_getLast? hb
      have hzero : 0 ∉ b := fun hin => h (hflatten ▸ List.mem_flatten_of_mem hmem hin)
      obtain ⟨hne, hle⟩ := hblocks b hmem
      obtain ⟨c, hc⟩ : ∃ c, b.getLast? = some c := ⟨_, List.getLast?_eq_some_getLast hne⟩
      have hseen := (seen_text hzero).1
      rw [hb, Option.bind_some, hc] at hlast
      have hclose : Closes (blocks file) ↔ b.length < tbufSize ∧ c ≠ 10 := by
        simp [Closes, hb, hseen, hc]
      have hends : (∀ a ∈ some b, a.length = tbufSize → a.getLast? = some 10) ↔
          (b.length = tbufSize → c = 10) := by
        simp [hc]
      rw [hends]
      simp only [hlast, hclose, Option.any_some, bne_iff_ne, Option.map_some, Option.getD_some]
      constructor
      · by_cases hten : c = 10
        · simp [hten]
        · by_cases hshort : b.length < tbufSize
          · simp [hten, hshort, Nat.ne_of_lt hshort]
          · simp [hten, Nat.le_antisymm hle (Nat.not_lt.mp hshort)]
      · intro hten
        refine if_neg fun hleft => ?_
        have hsep := hleft.2
        rw [hseen, hc, hten hleft.1] at hsep
        exact absurd hsep (by decide)

/-- **In a text** the errors make up for each other only where there are none. -/
theorem balanced_iff_aligned (h : 0 ∉ file) : Balanced file ↔ Aligned file := by
  obtain ⟨hflatten, hblocks, hfull, -⟩ := blocks_spec file
  obtain ⟨hlines, hleft⟩ := text_lines h
  have hzero : ∀ b ∈ blocks file, 0 ∉ b := fun b hb hmem =>
    h (hflatten ▸ List.mem_flatten_of_mem hb hmem)
  have hbegins : ∀ b ∈ blocks file, b.head? ≠ some 0 :=
    fun b hb hhead => hzero b hb (List.mem_of_mem_head? hhead)
  have hhidden : hiddenLines (blocks file) = 0 := by
    refine List.sum_eq_zero fun n hn => ?_
    obtain ⟨b, hb, rfl⟩ := List.mem_map.mp hn
    rw [(seen_text (hzero b hb)).2]
    rfl
  have hwords := text_words (fun b hb => ⟨(hblocks b hb).1, hzero b hb⟩) hfull true
  rw [if_pos (Or.inl rfl)] at hwords
  have hplaced := misplaced_eq_zero_iff true (blocks file)
  simp only [freeBehind_true_iff] at hplaced
  constructor
  · rintro ⟨hsmall, -, hclosed, hbalance⟩
    rw [hhidden, Nat.zero_add] at hclosed
    have hends := hlines.mp hclosed
    have := hleft hends
    exact ⟨hsmall, hplaced.mp (by omega), hends⟩
  · rintro ⟨hsmall, hblank, hends⟩
    have hnone := hplaced.mpr hblank
    have := hleft hends
    refine ⟨hsmall, hbegins, ?_, by omega⟩
    rw [hhidden, Nat.zero_add]
    exact hlines.mpr hends

/-- **When the counts are right**: the errors of the scan make up for each other. In a text without a `0`
they do so only where there are none: each block that begins with a blank has a word in front of it, and a
full block at the end ends in a newline. -/
theorem ulFinfo_iff (file : Bytes) :
    (Counts file ↔ Balanced file) ∧ (0 ∉ file → (Counts file ↔ Aligned file)) :=
  ⟨counts_iff_balanced file, fun h => (counts_iff_balanced file).trans (balanced_iff_aligned h)⟩

/-- A file of one block. -/
theorem blocks_short (hne : file ≠ []) (hlen : file.length ≤ tbufSize) : blocks file = [file] := by
  rw [blocks_of_ne_nil hne, List.take_of_length_le hlen, List.drop_eq_nil_of_le hlen, blocks_nil]

/-- Two lines and three words. -/
theorem ulFinfo_three : Counts (ascii "a b\nc") := by
  refine ((ulFinfo_iff (ascii "a b\nc")).2 (by decide)).mpr ⟨by decide, ?_, ?_⟩
  all_goals rw [blocks_short (by decide) (by decide)]
  · intro pre b hpre hsep
    have hlen := hpre.length_le
    rw [List.length_append] at hlen
    obtain rfl := List.length_eq_zero_iff.mp (Nat.le_zero.mp (Nat.le_of_succ_le_succ hlen))
    obtain ⟨rfl, -⟩ := List.cons_prefix_cons.mp hpre
    exact absurd hsep (by decide)
  · intro b hb hfull
    rw [← Option.some.inj hb] at hfull
    exact absurd hfull (by decide)

/-- A blank in front of a word is counted as another word. -/
theorem ulFinfo_blank : wordCount (ascii " a") = 1 ∧ ulFinfo (ascii " a") = some (1, 2, 2) ∧
    ¬ Counts (ascii " a") := by
  have hinfo : ulFinfo (ascii " a") = some (1, 2, 2) := by decide +kernel
  have hwords : wordCount (ascii " a") = 1 := by decide +kernel
  refine ⟨hwords, hinfo, ?_⟩
  rintro ⟨nc, hcounts, -⟩
  rw [hinfo, hwords] at hcounts
  exact absurd (Prod.mk.inj (Prod.mk.inj (Option.some.inj hcounts)).2).1 (by decide)

end Asenal.Ul
