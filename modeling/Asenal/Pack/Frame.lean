import Asenal.Pack.Socket

/-!
# Frames

The wire format of a package, as a text: a size line of 20 bytes, the head with one line for
each pair, the body, and the end marker. The size line announces the sizes of the head and the
body in decimal and is padded with `@`.

`frame` is what the writers are to send. `NamesOk` says which names survive the head: the reader
takes the first word of a line as the name, so a name has to be a word.
-/

namespace Asenal.Pack

open Asenal.Lib.Text Asenal.Lib.Memory Asenal.Lib.CString

/-! ## The format -/

/-- `"%s : %s\r\n"`: the line of a pair. -/
def pairText (n v : Bytes) : Bytes := n ++ sep ++ v ++ crlf

/-- The lines of the pairs; a pair without a name has none. -/
def pairsText (l : List (Bytes × Bytes)) : Bytes :=
  l.flatMap fun x => if x.1 = [] then [] else pairText x.1 x.2

/-- The head: the lines of the pairs and an empty line. -/
def headText (l : List (Bytes × Bytes)) : Bytes := pairsText l ++ crlf

/-- `"%s%d %d"`: the text of the size line. -/
def sizeText (headsize : ℕ) (bodysize : Int32) : Bytes :=
  bufStart ++ dec headsize ++ [32] ++ decInt bodysize.toInt

/-- The size line in its field of 20 bytes: a short one is padded with a blank and `@`s, a long
one cut off. -/
def sizeField (line : Bytes) : Bytes :=
  if line.length < sizeNum - 1 then
    line ++ 32 :: List.replicate (sizeNum - 2 - line.length) 64 ++ [0]
  else line.take (sizeNum - 1) ++ [0]

/-- The size of the head of a package. -/
def UlPackage.headsize (p : UlPackage) : ℕ := (headText p.pairs).length

/-- The size line of a package. -/
def UlPackage.sizeText (p : UlPackage) : Bytes := Pack.sizeText p.headsize p.bufsize

/-- The frame of a package. -/
def frame (p : UlPackage) : Bytes :=
  sizeField p.sizeText ++ headText p.pairs ++ p.body ++ bufEof

/-- The lines of a pair and of more pairs. -/
theorem pairsText_cons (n v : Bytes) (l : List (Bytes × Bytes)) :
    pairsText ((n, v) :: l) = (if n = [] then [] else pairText n v) ++ pairsText l :=
  List.flatMap_cons

/-- The size line always takes 20 bytes. -/
@[simp] theorem length_sizeField (line : Bytes) : (sizeField line).length = sizeNum := by
  unfold sizeField
  split_ifs with h
  · simp only [List.length_append, List.length_cons, List.length_replicate, List.length_nil]
    omega
  · rw [List.length_append, List.length_take, Nat.min_eq_left (Nat.not_lt.mp h)]
    rfl

/-- The head of a package is its lines and two bytes more. -/
theorem UlPackage.headsize_eq (p : UlPackage) :
    p.headsize = (pairsText p.pairs).length + 2 := by
  rw [UlPackage.headsize, headText, List.length_append]
  rfl

/-- The length of a frame. -/
theorem length_frame (p : UlPackage) :
    (frame p).length = sizeNum + p.headsize + p.body.length + 5 := by
  simp only [frame, List.length_append, length_sizeField, UlPackage.headsize]
  rfl

/-! ## Texts that survive the format -/

/-- A word: not empty and without white space. -/
def IsWord (s : Bytes) : Prop := s ≠ [] ∧ ∀ b ∈ s, isSpace b = false

/-- All names of a package are words. -/
def UlPackage.NamesOk (p : UlPackage) : Prop := ∀ x ∈ p.pairs, IsWord x.1

/-- A word has no `\r`. -/
theorem IsWord.not_mem_cr {s : Bytes} (h : IsWord s) : 13 ∉ s := by
  intro hm
  exact absurd (h.2 13 hm) (by decide)

/-- A word has no blank. -/
theorem IsWord.not_mem_blank {s : Bytes} (h : IsWord s) : 32 ∉ s := by
  intro hm
  exact absurd (h.2 32 hm) (by decide)

/-- The head of C strings has no `0`. -/
theorem not_mem_headText {l : List (Bytes × Bytes)} (h : ∀ x ∈ l, 0 ∉ x.1 ∧ 0 ∉ x.2) :
    0 ∉ headText l := by
  simp only [headText, pairsText, List.mem_append, List.mem_flatMap, not_or, not_exists, not_and]
  constructor
  · intro x hx hm
    obtain ⟨hname, hvalue⟩ := h x hx
    split_ifs at hm
    · exact List.not_mem_nil hm
    · simp only [pairText, List.mem_append] at hm
      rcases hm with ((hm | hm) | hm) | hm
      · exact hname hm
      · revert hm
        decide
      · exact hvalue hm
      · revert hm
        decide
  · decide

end Asenal.Pack
