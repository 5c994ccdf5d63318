import Asenal.Acm.CompareString
import Mathlib.Data.List.Sort

/-!
# Counts of similar lines

`AnalysisQuery` compares a line with each query when it is read for the first time, and gives each query that is
similar an entry of its own. Later occurrences are counted through a map from lines to entries, which knows one
entry for each line only.

* `Counted.push`, `Counted.bump` — what is counted when an entry is added, and when a line is read again.
* `analysisQuery_iff` — when each query has its lines with their numbers.
-/

namespace Asenal.Acm

open Asenal.Lib.Text Asenal.Lib.Checked

/-! ## The program -/

/-- Source: `QueryAnalysis.h` `CQueryAnalysis::SData`. -/
structure SData where
  str : Bytes
  iCnt : Int32

/-- The objects by their addresses, with the next address that is free, and the two maps. -/
structure State where
  heap : ℕ → SData
  next : ℕ
  mRes : Bytes → Option (List ℕ)
  mCnt : Bytes → Option ℕ

/-- The lines that `getline` reads. -/
def getlines (file : Bytes) : List Bytes :=
  if (file.splitOn 10).getLast? = some [] then (file.splitOn 10).dropLast else file.splitOn 10

/-- A new entry for a query; `insert` keeps an entry that the line has already. -/
def State.push (st : State) (query line : Bytes) : State where
  heap := Function.update st.heap st.next ⟨line, 1⟩
  next := st.next + 1
  mRes := Function.update st.mRes query (some ((st.mRes query).getD [] ++ [st.next]))
  mCnt := Function.update st.mCnt line (some ((st.mCnt line).getD st.next))

/-- A line once more. -/
def State.bump (st : State) (p : ℕ) : State :=
  { st with heap := Function.update st.heap p ⟨(st.heap p).str, (st.heap p).iCnt + 1⟩ }

/-- A line that has no entry. Source: `QueryAnalysis.h` `CQueryAnalysis::AnalysisQuery`, the inner loop. -/
def queryLoop (iDistance : ℤ) (line : Bytes) : List Bytes → State → Option State
  | [], st => some st
  | query :: queries, st => (compareString query line iDistance).bind fun bOk =>
      queryLoop iDistance line queries (if bOk then st.push query line else st)

/-- The queries that are compared: `iSize` is an `int`. -/
def counted (arrQuery : List Bytes) : List Bytes := arrQuery.take (intOf arrQuery.length).toNat

/-- A line. Source: `QueryAnalysis.h` `CQueryAnalysis::AnalysisQuery`, the body of the outer loop. -/
def lineStep (arrQuery : List Bytes) (iDistance : ℤ) (st : State) (line : Bytes) : Option State :=
  match st.mCnt line with
  | none => queryLoop iDistance line (counted arrQuery) st
  | some p => some (st.bump p)

/-- A fresh object reads a file. -/
def analysisLoop (arrQuery : List Bytes) (file : Bytes) (iDistance : ℤ) : Option State :=
  (getlines file).foldlM (lineStep arrQuery iDistance) ⟨fun _ => ⟨[], 0⟩, 0, fun _ => none, fun _ => none⟩

/-- The pointers under a query. -/
def State.pointers (st : State) (query : Bytes) : List ℕ := (st.mRes query).getD []

/-- The entries of a query; none where the result has no list for it. -/
def State.entries (st : State) (query : Bytes) : List SData := (st.pointers query).map st.heap

/-- Source: `QueryAnalysis.h` `CmpSData`. -/
def cmpSData (data₁ data₂ : SData) : Bool := decide (data₁.iCnt > data₂.iCnt)

/-- What `std::sort` may make of the entries. -/
structure SortedBy (arr sorted : List SData) : Prop where
  perm : sorted.Perm arr
  sorted : sorted.Pairwise fun data₁ data₂ => cmpSData data₂ data₁ = false

/-- The lists of the queries behind the call. Source: `QueryAnalysis.h` `CQueryAnalysis::AnalysisQuery`. -/
def AnalysisQuery (arrQuery : List Bytes) (file : Bytes) (iDistance : ℤ) (mRes : Bytes → List SData) : Prop :=
  ∃ st, analysisLoop arrQuery file iDistance = some st ∧ ∀ query, SortedBy (st.entries query) (mRes query)

/-! ## What is counted -/

/-- The entries that the relation `M` says, of which those that are counted have the numbers `n`. -/
structure Counted (M : Bytes → Bytes → Prop) (n : Bytes → ℕ) (st : State) : Prop where
  lt : ∀ q, ∀ p ∈ st.pointers q, p < st.next
  owner : ∀ q q' p, p ∈ st.pointers q → p ∈ st.pointers q' → q = q'
  nodup : ∀ q, ((st.pointers q).map fun p => (st.heap p).str).Nodup
  lines : ∀ q l, (∃ p ∈ st.pointers q, (st.heap p).str = l) ↔ M q l
  counts : ∀ q, ∀ p ∈ st.pointers q, (st.heap p).iCnt =
    if st.mCnt (st.heap p).str = some p then Int32.ofNat (n (st.heap p).str) else 1
  uncounted : ∀ l, st.mCnt l = none ↔ ∀ q, ¬ M q l
  counter : ∀ l p, st.mCnt l = some p → (st.heap p).str = l ∧ ∃ q, p ∈ st.pointers q

variable {M M' : Bytes → Bytes → Prop} {n n' : Bytes → ℕ} {st : State} {q l : Bytes} {p : ℕ}

/-- What is counted depends on what is listed alone. -/
theorem Counted.congr (h : Counted M n st) (hM : ∀ q l, M q l ↔ M' q l) (hn : ∀ q l, M q l → n' l = n l) :
    Counted M' n' st := by
  refine ⟨h.lt, h.owner, h.nodup, fun q l => (h.lines q l).trans (hM q l), fun q p hp => ?_, fun l => ?_,
    h.counter⟩
  · rw [hn q _ ((h.lines q _).mp ⟨p, hp, rfl⟩)]
    exact h.counts q p hp
  · rw [h.uncounted]
    exact forall_congr' fun q => not_congr (hM q l)

/-- A new pointer stands under its query. -/
theorem pointers_push (st : State) (q l q' : Bytes) :
    (st.push q l).pointers q' = if q' = q then st.pointers q ++ [st.next] else st.pointers q' := by
  unfold State.push State.pointers
  by_cases heq : q' = q
  · simp [heq]
  · simp [heq]

/-- The pointers are the old ones and the new one. -/
theorem mem_pointers_push {q' : Bytes} :
    p ∈ (st.push q l).pointers q' ↔ p ∈ st.pointers q' ∨ q' = q ∧ p = st.next := by
  rw [pointers_push]
  split_ifs with heq
  · simp [heq]
  · simp [heq]

/-- The new node counts one line. -/
theorem heap_push_next (st : State) (q l : Bytes) : (st.push q l).heap st.next = ⟨l, 1⟩ :=
  Function.update_self ..

/-- The other nodes stay as they are. -/
theorem heap_push_of_ne (h : p ≠ st.next) (q l : Bytes) : (st.push q l).heap p = st.heap p :=
  Function.update_of_ne h ..

/-- A line keeps its first node. -/
theorem mCnt_push (st : State) (q l l' : Bytes) :
    (st.push q l).mCnt l' = if l' = l then some ((st.mCnt l).getD st.next) else st.mCnt l' :=
  Function.update_apply ..

/-- A line has an old entry in the map where it had it before. -/
theorem mCnt_push_of_ne (h : p ≠ st.next) (q l l' : Bytes) :
    (st.push q l).mCnt l' = some p ↔ st.mCnt l' = some p := by
  rw [mCnt_push]
  split_ifs with heq
  · subst heq
    cases st.mCnt l' with
    | none => simp [h.symm]
    | some p' => simp
  · exact Iff.rfl

/-- **A new entry** for a line that was read once. -/
theorem Counted.push (h : Counted M n st) (hnew : ¬ M q l) (hone : n l = 1) :
    Counted (fun q' l' => M q' l' ∨ q' = q ∧ l' = l) n (st.push q l) := by
  have hold : ∀ {q' p}, p ∈ st.pointers q' → (st.push q l).heap p = st.heap p := fun hp =>
    heap_push_of_ne (h.lt _ _ hp).ne q l
  constructor
  case lt =>
    intro q' p hp
    rcases mem_pointers_push.mp hp with hp | ⟨-, rfl⟩
    · exact Nat.lt_succ_of_lt (h.lt q' p hp)
    · exact Nat.lt_succ_self _
  case owner =>
    intro q₁ q₂ p h₁ h₂
    rcases mem_pointers_push.mp h₁ with h₁ | ⟨hq₁, rfl⟩ <;> rcases mem_pointers_push.mp h₂ with h₂ | ⟨hq₂, hp⟩
    · exact h.owner q₁ q₂ p h₁ h₂
    · exact absurd hp (h.lt q₁ p h₁).ne
    · exact absurd (h.lt q₂ _ h₂) (Nat.lt_irrefl _)
    · rw [hq₁, hq₂]
  case nodup =>
    intro q'
    have hmap : (st.pointers q').map (fun p => ((st.push q l).heap p).str) =
        (st.pointers q').map fun p => (st.heap p).str :=
      List.map_congr_left fun p hp => by rw [hold hp]
    by_cases heq : q' = q
    · subst heq
      rw [pointers_push, if_pos rfl, List.map_append, hmap, List.map_singleton, heap_push_next]
      refine List.nodup_append.mpr ⟨h.nodup q', List.nodup_singleton l, fun l' hl' l'' hl'' heq => ?_⟩
      obtain ⟨p, hp, rfl⟩ := List.mem_map.mp hl'
      rw [List.mem_singleton.mp hl''] at heq
      exact hnew ((h.lines q' l).mp ⟨p, hp, heq⟩)
    · rw [pointers_push, if_neg heq, hmap]
      exact h.nodup q'
  case lines =>
    intro q' l'
    rw [← h.lines]
    constructor
    · rintro ⟨p, hp, rfl⟩
      rcases mem_pointers_push.mp hp with hp | ⟨rfl, rfl⟩
      · exact Or.inl ⟨p, hp, by rw [hold hp]⟩
      · exact Or.inr ⟨rfl, by rw [heap_push_next]⟩
    · rintro (⟨p, hp, rfl⟩ | ⟨rfl, rfl⟩)
      · exact ⟨p, mem_pointers_push.mpr (Or.inl hp), by rw [hold hp]⟩
      · exact ⟨st.next, mem_pointers_push.mpr (Or.inr ⟨rfl, rfl⟩), by rw [heap_push_next]⟩
  case counts =>
    intro q' p hp
    rcases mem_pointers_push.mp hp with hp | ⟨rfl, rfl⟩
    · rw [hold hp, h.counts q' p hp]
      simp only [mCnt_push_of_ne (h.lt q' p hp).ne]
    · rw [heap_push_next, hone]
      exact (ite_self _).symm
  case uncounted =>
    intro l'
    rw [mCnt_push]
    split_ifs with heq
    · refine iff_of_false nofun fun hnone => hnone q (Or.inr ⟨rfl, heq⟩)
    · simp only [heq, and_false, or_false]
      exact h.uncounted l'
  case counter =>
    intro l' p hp
    by_cases hnext : p = st.next
    · subst hnext
      rw [mCnt_push] at hp
      split_ifs at hp with heq
      · exact ⟨by rw [heap_push_next, heq], q, mem_pointers_push.mpr (Or.inr ⟨rfl, rfl⟩)⟩
      · obtain ⟨-, q', hq'⟩ := h.counter l' _ hp
        exact absurd (h.lt q' _ hq') (Nat.lt_irrefl _)
    · obtain ⟨hstr, q', hq'⟩ := h.counter l' p ((mCnt_push_of_ne hnext q l l').mp hp)
      exact ⟨by rw [hold hq', hstr], q', mem_pointers_push.mpr (Or.inl hq')⟩

/-- To count a line once more changes no pointer. -/
@[simp] theorem pointers_bump (st : State) (p : ℕ) (q : Bytes) : (st.bump p).pointers q = st.pointers q := rfl

/-- Nor does it change the first nodes. -/
@[simp] theorem mCnt_bump (st : State) (p : ℕ) : (st.bump p).mCnt = st.mCnt := rfl

/-- Nor does it change a text. -/
@[simp] theorem str_bump (st : State) (p p' : ℕ) : ((st.bump p).heap p').str = (st.heap p').str := by
  by_cases heq : p' = p
  · simp [State.bump, heq]
  · simp [State.bump, heq]

/-- **A line** that is read again. -/
theorem Counted.bump (h : Counted M n st) (hp : st.mCnt l = some p) :
    Counted M (Function.update n l (n l + 1)) (st.bump p) := by
  obtain ⟨hstr, -⟩ := h.counter l p hp
  refine ⟨h.lt, h.owner, by simpa using h.nodup, by simpa using h.lines, fun q p' hp' => ?_, h.uncounted,
    by simpa using h.counter⟩
  have hcounts := h.counts q p' hp'
  rw [str_bump, mCnt_bump]
  by_cases heq : p' = p
  · subst heq
    rw [hstr, if_pos hp] at hcounts
    simp [State.bump, hstr, hp, hcounts, Int32.ofNat_add]
  · have hold : (st.bump p).heap p' = st.heap p' := Function.update_of_ne heq ..
    rw [hold, hcounts]
    by_cases hl : (st.heap p').str = l
    · have hne : st.mCnt (st.heap p').str ≠ some p' := by
        rw [hl, hp]
        exact fun hsome => heq (Option.some.inj hsome).symm
      rw [if_neg hne, if_neg hne]
    · rw [Function.update_of_ne hl]

/-! ## A file -/

variable {arrQuery queries : List Bytes} {line : Bytes} {d : Int32} {lines rest : List Bytes}

/-- The queries that are compared with a line. -/
def Listed (arrQuery : List Bytes) (d : Int32) (lines : List Bytes) (q l : Bytes) : Prop :=
  l ∈ lines ∧ q ∈ counted arrQuery ∧ Similar d q l

/-- **The queries** of a line that has no entry yet. -/
theorem queryLoop_counted (h : Counted M n st) (hnodup : queries.Nodup) (hnew : ∀ q ∈ queries, ¬ M q line)
    (hone : n line = 1 ∨ ∀ q ∈ queries, ¬ Similar d q line)
    (hqueries : ∀ q ∈ queries, (getWord q).length ≤ 255) (hline : (getWord line).length ≤ 255) :
    ∃ st', queryLoop d.toInt line queries st = some st' ∧
      Counted (fun q l => M q l ∨ l = line ∧ q ∈ queries ∧ Similar d q line) n st' := by
  induction queries generalizing M st with
  | nil => exact ⟨st, rfl, h.congr (by simp) fun _ _ _ => rfl⟩
  | cons q queries ih =>
      obtain ⟨hq, hrest⟩ := List.nodup_cons.mp hnodup
      obtain ⟨hqwords, hwords⟩ := List.forall_mem_cons.mp hqueries
      obtain ⟨hqnew, hnewrest⟩ := List.forall_mem_cons.mp hnew
      obtain ⟨bOk, hcompare, hiff⟩ := compareString_similar d hqwords hline
      have honerest := hone.imp_right fun hnone q hq => hnone q (List.mem_cons_of_mem _ hq)
      rw [queryLoop, hcompare, Option.bind_some]
      by_cases hsimilar : Similar d q line
      · have hn : n line = 1 := hone.resolve_right fun hnone => hnone q List.mem_cons_self hsimilar
        rw [if_pos (hiff.mpr hsimilar)]
        obtain ⟨st', hloop, hst'⟩ := ih (h.push hqnew hn) hrest
          (fun q' hq' => not_or.mpr ⟨hnewrest q' hq', fun heq => hq (heq.1 ▸ hq')⟩) honerest hwords
        refine ⟨st', hloop, hst'.congr (fun q' l => ?_) fun _ _ _ => rfl⟩
        rw [List.mem_cons]
        grind
      · rw [if_neg (mt hiff.mp hsimilar)]
        obtain ⟨st', hloop, hst'⟩ := ih h hrest hnewrest honerest hwords
        refine ⟨st', hloop, hst'.congr (fun q' l => ?_) fun _ _ _ => rfl⟩
        rw [List.mem_cons]
        grind

/-- **A line** of the file. -/
theorem lineStep_counted (h : Counted (Listed arrQuery d lines) (fun l => lines.count l) st)
    (hnodup : arrQuery.Nodup) (hqueries : ∀ q ∈ arrQuery, (getWord q).length ≤ 255)
    (hline : (getWord line).length ≤ 255) : ∃ st', lineStep arrQuery d.toInt st line = some st' ∧
      Counted (Listed arrQuery d (lines ++ [line])) (fun l => (lines ++ [line]).count l) st' := by
  have hsub : ∀ q ∈ counted arrQuery, q ∈ arrQuery := fun q hq => List.mem_of_mem_take hq
  cases hcnt : st.mCnt line with
  | some p =>
      obtain ⟨hstr, q, hp⟩ := h.counter line p hcnt
      have hmem : line ∈ lines := ((h.lines q line).mp ⟨p, hp, hstr⟩).1
      refine ⟨st.bump p, by simp [lineStep, hcnt], (h.bump hcnt).congr (fun q l => ?_) fun q l _ => ?_⟩
      · simp only [Listed, List.mem_append, List.mem_singleton]
        grind
      · rw [Function.update_apply]
        grind
  | none =>
      have hnone := (h.uncounted line).mp hcnt
      have hn : Counted (Listed arrQuery d lines) (fun l => (lines ++ [line]).count l) st := by
        refine h.congr (fun _ _ => Iff.rfl) fun q l hl => ?_
        have hne : l ≠ line := fun heq => hnone q (heq ▸ hl)
        simp [List.count_append, hne.symm]
      have hone : (lines ++ [line]).count line = 1 ∨ ∀ q ∈ counted arrQuery, ¬ Similar d q line := by
        by_cases hmem : line ∈ lines
        · exact Or.inr fun q hq hsimilar => hnone q ⟨hmem, hq, hsimilar⟩
        · left
          rw [List.count_append, List.count_eq_zero_of_not_mem hmem, List.count_singleton_self]
      have hsublist : (counted arrQuery).Nodup := hnodup.sublist (List.take_sublist _ _)
      obtain ⟨st', hloop, hst'⟩ := queryLoop_counted hn hsublist
        (fun q _ => hnone q) hone (fun q hq => hqueries q (hsub q hq)) hline
      refine ⟨st', by simp [lineStep, hcnt, hloop], hst'.congr (fun q l => ?_) fun _ _ _ => rfl⟩
      simp only [Listed, List.mem_append, List.mem_singleton]
      grind

/-- **The lines** one after another. -/
theorem lines_counted (hnodup : arrQuery.Nodup) (hqueries : ∀ q ∈ arrQuery, (getWord q).length ≤ 255)
    (h : Counted (Listed arrQuery d lines) (fun l => lines.count l) st)
    (hrest : ∀ l ∈ rest, (getWord l).length ≤ 255) :
    ∃ st', rest.foldlM (lineStep arrQuery d.toInt) st = some st' ∧
      Counted (Listed arrQuery d (lines ++ rest)) (fun l => (lines ++ rest).count l) st' := by
  induction rest generalizing lines st with
  | nil => exact ⟨st, rfl, by rwa [List.append_nil]⟩
  | cons line rest ih =>
      obtain ⟨hline, hrest⟩ := List.forall_mem_cons.mp hrest
      obtain ⟨st', hstep, hst'⟩ := lineStep_counted h hnodup hqueries hline
      obtain ⟨st'', hloop, hst''⟩ := ih hst' hrest
      rw [List.append_assoc, List.singleton_append] at hst''
      exact ⟨st'', by simp [hstep, hloop], hst''⟩

/-- **The counts behind all lines.** -/
theorem analysisLoop_counted (hnodup : arrQuery.Nodup) (hqueries : ∀ q ∈ arrQuery, (getWord q).length ≤ 255)
    {file : Bytes} (hlines : ∀ l ∈ getlines file, (getWord l).length ≤ 255) :
    ∃ st, analysisLoop arrQuery file d.toInt = some st ∧
      Counted (Listed arrQuery d (getlines file)) (fun l => (getlines file).count l) st := by
  have hempty : Counted (Listed arrQuery d []) (fun l => [].count l)
      ⟨fun _ => ⟨[], 0⟩, 0, fun _ => none, fun _ => none⟩ := by
    constructor <;> simp [State.pointers, Listed]
  exact lines_counted hnodup hqueries hempty hlines

/-! ## The answers -/

/-- The entries of a query: one for each line that is similar, with its number, sorted by the numbers. -/
structure Answers (lines : List Bytes) (d : Int32) (q : Bytes) (result : List SData) : Prop where
  nodup : (result.map SData.str).Nodup
  similar : ∀ l, l ∈ result.map SData.str ↔ l ∈ lines ∧ Similar d q l
  numbers : ∀ data ∈ result, data.iCnt.toInt = lines.count data.str
  sorted : result.Pairwise fun data₁ data₂ => data₂.iCnt.toInt ≤ data₁.iCnt.toInt

/-- No line is similar to a query that is not compared, and one that is similar to two queries occurs once. -/
structure Apart (arrQuery lines : List Bytes) (d : Int32) : Prop where
  compared : ∀ l ∈ lines, ∀ q ∈ arrQuery, Similar d q l → q ∈ counted arrQuery ∧ lines.count l < 2 ^ 31
  once : ∀ l ∈ lines, ∀ q ∈ arrQuery, ∀ q' ∈ arrQuery, q ≠ q' → Similar d q l → Similar d q' l →
    lines.count l = 1

/-- An entry may stand in front of another one. -/
def mayPrecede (data₁ data₂ : SData) : Bool := !cmpSData data₂ data₁

/-- The order of the results is by their counts. -/
theorem mayPrecede_iff {data₁ data₂ : SData} :
    mayPrecede data₁ data₂ = true ↔ data₂.iCnt.toInt ≤ data₁.iCnt.toInt := by
  simp [mayPrecede, cmpSData, Int32.lt_iff_toInt_lt]

variable {result : List SData}

/-- What is sorted answers a query where its entries have the numbers of the lines. -/
theorem answers_iff (h : Counted (Listed arrQuery d lines) (fun l => lines.count l) st)
    (hsorted : SortedBy (st.entries q) result) : Answers lines d q result ↔
      (∀ l ∈ lines, Similar d q l → q ∈ counted arrQuery) ∧
        ∀ p ∈ st.pointers q, (st.heap p).iCnt.toInt = lines.count (st.heap p).str := by
  have hmem : ∀ l, l ∈ result.map SData.str ↔ Listed arrQuery d lines q l := by
    intro l
    rw [(hsorted.perm.map SData.str).mem_iff, ← h.lines]
    simp [State.entries]
  have hnumbers : (∀ data ∈ result, data.iCnt.toInt = lines.count data.str) ↔
      ∀ p ∈ st.pointers q, (st.heap p).iCnt.toInt = lines.count (st.heap p).str := by
    simp [hsorted.perm.mem_iff, State.entries]
  constructor
  · intro hanswers
    exact ⟨fun l hl hsimilar => ((hmem l).mp ((hanswers.similar l).mpr ⟨hl, hsimilar⟩)).2.1,
      hnumbers.mp hanswers.numbers⟩
  · rintro ⟨hcompared, hentries⟩
    refine ⟨?_, fun l => (hmem l).trans ?_, hnumbers.mpr hentries, hsorted.sorted.imp fun hle => ?_⟩
    · rw [(hsorted.perm.map SData.str).nodup_iff, State.entries, List.map_map]
      exact h.nodup q
    · exact ⟨fun hl => ⟨hl.1, hl.2.2⟩, fun hl => ⟨hl.1, hcompared l hl.1 hl.2, hl.2⟩⟩
    · exact mayPrecede_iff.mp (by simpa [mayPrecede] using hle)

/-- **The entries** have the numbers of the lines where no line is shared that occurs twice. -/
theorem numbers_iff (h : Counted (Listed arrQuery d lines) (fun l => lines.count l) st) :
    (∀ q ∈ arrQuery, (∀ l ∈ lines, Similar d q l → q ∈ counted arrQuery) ∧
      ∀ p ∈ st.pointers q, (st.heap p).iCnt.toInt = lines.count (st.heap p).str) ↔ Apart arrQuery lines d := by
  constructor
  · intro hall
    have hlisted : ∀ l ∈ lines, ∀ q ∈ arrQuery, Similar d q l → Listed arrQuery d lines q l :=
      fun l hl q hq hsimilar => ⟨hl, (hall q hq).1 l hl hsimilar, hsimilar⟩
    refine ⟨fun l hl q hq hsimilar => ⟨(hall q hq).1 l hl hsimilar, ?_⟩,
      fun l hl q hq q' hq' hne hsimilar hsimilar' => ?_⟩
    · obtain ⟨p, hp, rfl⟩ := (h.lines q l).mpr (hlisted l hl q hq hsimilar)
      have hnumber := (hall q hq).2 p hp
      have hlt := (st.heap p).iCnt.toInt_lt
      omega
    · obtain ⟨p, hp, hstr⟩ := (h.lines q l).mpr (hlisted l hl q hq hsimilar)
      obtain ⟨p', hp', hstr'⟩ := (h.lines q' l).mpr (hlisted l hl q' hq' hsimilar')
      have hnumber := (hall q hq).2 p hp
      have hnumber' := (hall q' hq').2 p' hp'
      rw [h.counts q p hp, hstr] at hnumber
      rw [h.counts q' p' hp', hstr'] at hnumber'
      by_cases hcnt : st.mCnt l = some p
      · have hcnt' : st.mCnt l ≠ some p' := by
          rw [hcnt]
          exact fun heq => hne (h.owner q q' p hp (Option.some.inj heq ▸ hp'))
        rw [if_neg hcnt'] at hnumber'
        exact Int.ofNat_inj.mp (hnumber'.symm.trans rfl)
      · rw [if_neg hcnt] at hnumber
        exact Int.ofNat_inj.mp (hnumber.symm.trans rfl)
  · intro hapart q hq
    refine ⟨fun l hl hsimilar => (hapart.compared l hl q hq hsimilar).1, fun p hp => ?_⟩
    have hlisted := (h.lines q _).mp ⟨p, hp, rfl⟩
    rw [h.counts q p hp]
    split_ifs with hcnt
    · exact Int32.toInt_ofNat_of_lt (hapart.compared _ hlisted.1 q hq hlisted.2.2).2
    · obtain ⟨p', hcnt'⟩ := Option.ne_none_iff_exists'.mp
        (mt (h.uncounted _).mp fun hnone => hnone q hlisted)
      obtain ⟨hstr, q', hp'⟩ := h.counter _ p' hcnt'
      have hlisted' := (h.lines q' _).mp ⟨p', hp', hstr⟩
      have hne : q ≠ q' := by
        rintro rfl
        exact hcnt (List.inj_on_of_nodup_map (h.nodup q) hp' hp hstr ▸ hcnt')
      rw [hapart.once _ hlisted.1 q hq q' (List.mem_of_mem_take hlisted'.2.1) hne hlisted.2.2 hlisted'.2.2]
      rfl

/-- There is a sorted list. -/
theorem exists_sortedBy (arr : List SData) : ∃ sorted, SortedBy arr sorted := by
  have htrans : ∀ a b c, mayPrecede a b = true → mayPrecede b c = true → mayPrecede a c = true := by
    intro a b c
    rw [mayPrecede_iff, mayPrecede_iff, mayPrecede_iff]
    exact fun hab hbc => hbc.trans hab
  have htotal : ∀ a b, (mayPrecede a b || mayPrecede b a) = true := by
    intro a b
    rw [Bool.or_eq_true, mayPrecede_iff, mayPrecede_iff]
    exact le_total _ _
  refine ⟨arr.mergeSort mayPrecede, List.mergeSort_perm .., ?_⟩
  simpa [mayPrecede] using List.pairwise_mergeSort htrans htotal arr

/-- **When each query has its lines with their numbers**: where no line that occurs twice is similar to two
queries. The numbers, and the number of the queries, are an `int`. -/
theorem analysisQuery_iff (arrQuery : List Bytes) (file : Bytes) (d : Int32) (hnodup : arrQuery.Nodup)
    (hqueries : ∀ q ∈ arrQuery, (getWord q).length ≤ 255) (hlines : ∀ l ∈ getlines file, (getWord l).length ≤ 255) :
    (∃ mRes, AnalysisQuery arrQuery file d.toInt mRes) ∧ ∀ mRes, AnalysisQuery arrQuery file d.toInt mRes →
      ((∀ q ∈ arrQuery, Answers (getlines file) d q (mRes q)) ↔ Apart arrQuery (getlines file) d) := by
  obtain ⟨st, hloop, hcounted⟩ := analysisLoop_counted (d := d) hnodup hqueries hlines
  constructor
  · choose mRes hsorted using fun q => exists_sortedBy (st.entries q)
    exact ⟨mRes, st, hloop, hsorted⟩
  · rintro mRes ⟨st', hloop', hsorted⟩
    obtain rfl := Option.some.inj (hloop.symm.trans hloop')
    rw [← numbers_iff hcounted]
    exact forall₂_congr fun q _ => answers_iff hcounted (hsorted q)

/-- One query, and a line that occurs twice. -/
theorem analysisQuery_iff_single : ∃ mRes,
    AnalysisQuery [ascii "red car"] (ascii "red cat\nsky\nred cat\n") (1 : Int32).toInt mRes ∧
      ∀ q ∈ [ascii "red car"], Answers [ascii "red cat", ascii "sky", ascii "red cat"] 1 q (mRes q) := by
  have hlines : getlines (ascii "red cat\nsky\nred cat\n") = [ascii "red cat", ascii "sky", ascii "red cat"] := by
    decide +kernel
  obtain ⟨⟨mRes, hres⟩, hiff⟩ := analysisQuery_iff [ascii "red car"] (ascii "red cat\nsky\nred cat\n") 1
    (List.nodup_singleton _) (by decide +kernel) (by decide +kernel)
  refine ⟨mRes, hres, ?_⟩
  have hanswers := hiff mRes hres
  rw [hlines] at hanswers
  refine hanswers.mpr ⟨fun l hl q hq _ => ⟨?_, ?_⟩, fun l _ q hq q' hq' hne => ?_⟩
  · rw [List.mem_singleton.mp hq]
    decide
  · exact Nat.lt_of_le_of_lt List.count_le_length (by decide)
  · exact absurd ((List.mem_singleton.mp hq).trans (List.mem_singleton.mp hq').symm) hne

/-- A line that occurs twice and is similar to two queries is counted once for the second one. -/
theorem analysisQuery_shared : ¬ ∀ (arrQuery : List Bytes) (file : Bytes) (d : Int32), arrQuery.Nodup →
    (∀ q ∈ arrQuery, (getWord q).length ≤ 255) → (∀ l ∈ getlines file, (getWord l).length ≤ 255) →
    ∀ mRes, AnalysisQuery arrQuery file d.toInt mRes → ∀ q ∈ arrQuery, Answers (getlines file) d q (mRes q) := by
  intro h
  have hnodup : [ascii "a", ascii "b"].Nodup := by decide
  have hqueries : ∀ q ∈ [ascii "a", ascii "b"], (getWord q).length ≤ 255 := by decide +kernel
  have hlines : ∀ l ∈ getlines (ascii "c\nc\n"), (getWord l).length ≤ 255 := by decide +kernel
  obtain ⟨st, hloop, hcounted⟩ := analysisLoop_counted (d := 2) hnodup hqueries hlines
  choose mRes hsorted using fun q => exists_sortedBy (st.entries q)
  have hanswers := h _ _ 2 hnodup hqueries hlines mRes ⟨st, hloop, hsorted⟩
  have hapart := (numbers_iff hcounted).mp fun q hq => (answers_iff hcounted (hsorted q)).mp (hanswers q hq)
  have hsimilar : ∀ x y : Bytes, wordList x = [x] → wordList y = [y] → Similar 2 x y := by
    intro x y hx hy
    refine ⟨1, by decide, ?_⟩
    rw [hx, hy]
    exact (Lib.EditDistance.Edits.refl [x]).step (.replace [] [] x y)
  have hone := hapart.once (ascii "c") (by decide +kernel) (ascii "a") (by decide) (ascii "b") (by decide) (by decide)
    (hsimilar _ _ (by decide) (by decide)) (hsimilar _ _ (by decide) (by decide))
  exact absurd hone (by decide +kernel)

end Asenal.Acm
