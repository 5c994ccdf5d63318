import Asenal.Comlog.Layout

/-!
# What a log line shows

A pattern is a list of items, each with the text it prints in full. The position of the code is followed
over the items: pairs and messages are cut by their own writers, which report less than the full text, and
pairs that fill the room at the end of one of their own items report nothing.

* `fmtField_spec` — one field of the `switch`.
* `fmtLoop_spec` — the pattern.
* `fmtLine_spec` — the line that is cut from the buffer.
-/

namespace Asenal.Comlog

open Asenal.Lib.Text Asenal.Lib.Memory Asenal.Lib.Bounded

/-! ## Items -/

/-- A character of a pattern, or what stands behind a `%`. -/
inductive Item
  | lit (c : UInt8)
  | spec (s : Spec)
  deriving DecidableEq

/-- The items of a pattern. A `%` at its end prints nothing. -/
def items : Bytes → List Item
  | [] => []
  | c :: pattern =>
      if c ≠ 37 then .lit c :: items pattern
      else
        match pattern with
        | [] => [.spec .other]
        | d :: pattern => .spec (specOf d) :: items pattern

/-- The texts that the items of the second pattern print for a pair. -/
def ndcTexts (ndc : Bytes × Bytes) : Bytes → List Bytes
  | [] => []
  | c :: pattern =>
      if c ≠ 37 then [c] :: ndcTexts ndc pattern
      else
        match pattern with
        | [] => [[]]
        | d :: pattern =>
            (if d = 75 ∨ d = 86 then if d = 75 then ndc.1 else ndc.2
              else if d = 37 then [37] else []) :: ndcTexts ndc pattern

theorem ndcTexts_lit {ndc : Bytes × Bytes} {c : UInt8} (hc : c ≠ 37) (pattern : Bytes) :
    ndcTexts ndc (c :: pattern) = [c] :: ndcTexts ndc pattern := by
  cases pattern <;> exact if_pos hc

theorem items_lit {c : UInt8} (hc : c ≠ 37) (pattern : Bytes) :
    items (c :: pattern) = .lit c :: items pattern := by
  cases pattern <;> exact if_pos hc

/-- The texts of all pairs. -/
def pairTexts (lay : Layout) (evt : Event) : List Bytes :=
  evt.ndcs.flatMap fun ndc => ndcTexts ndc lay.ndcPattern

/-- What a field prints in full. -/
def specText (env : Env) (lay : Layout) (evt : Event) : Spec → Bytes
  | .level => getLogName env evt.logLevel
  | .fullTime => xfmtimeval env evt.printTime
  | .thread => dec evt.threadId.toUInt32.toNat
  | .time => xfmtime env evt.printTime.tvSec
  | .customTime => env.strftime env.timeFormat evt.printTime.tvSec
  | .millis => dec (evt.printTime.tvUsec / 1000).toUInt64.toNat
  | .process => evt.procName
  | .ndc => (pairTexts lay evt).flatten
  | .host => env.hostname
  | .message => evt.msgbuf
  | .other => []

/-- What an item prints in full. -/
def itemText (env : Env) (lay : Layout) (evt : Event) : Item → Bytes
  | .lit c => [c]
  | .spec s => specText env lay evt s

/-- The full expansion of items. -/
def expand (env : Env) (lay : Layout) (evt : Event) (is : List Item) : Bytes :=
  is.flatMap (itemText env lay evt)

/-! ## Positions -/

/-- Texts fill a room exactly, with others to follow. -/
def GivesUp (ts : List Bytes) (size : ℕ) : Prop :=
  ∃ us vs, ts = us ++ vs ∧ vs ≠ [] ∧ us.flatten.length = size

/-- The end of a text that begins in the room is no `int`. -/
def Overruns (ts : List Bytes) (size : ℕ) : Prop :=
  ∃ us t vs, ts = us ++ t :: vs ∧ us.flatten.length < size ∧ 2 ^ 31 ≤ t.length + us.flatten.length

/-- The item at the position reports nothing, though it has a text: pairs that are given up, or a time
that does not fit. -/
def Dropped (env : Env) (lay : Layout) (evt : Event) (n ptr : ℕ) : Item → Prop
  | .spec .ndc => GivesUp (pairTexts lay evt) (n - ptr)
  | .spec .customTime => n ≤ ptr + (specText env lay evt .customTime).length
  | _ => False

/-- The end of the item at the position is no `int`. -/
def Overflows (env : Env) (lay : Layout) (evt : Event) (n ptr : ℕ) : Item → Prop
  | .spec .ndc => Overruns (pairTexts lay evt) (n - ptr)
  | .spec .customTime | .spec .host | .spec .message | .lit _ => False
  | .spec s => 2 ^ 31 ≤ (specText env lay evt s).length + ptr

open Classical in
/-- What an item at the position prints, unless it is dropped. -/
noncomputable def keptText (env : Env) (lay : Layout) (evt : Event) (n ptr : ℕ) (i : Item) : Bytes :=
  if Dropped env lay evt n ptr i then [] else itemText env lay evt i

/-- The position behind an item. -/
noncomputable def place (env : Env) (lay : Layout) (evt : Event) (n ptr : ℕ) (i : Item) : ℕ :=
  let ptr' := ptr + (keptText env lay evt n ptr i).length
  match i with
  | .spec .ndc | .spec .host | .spec .message => min ptr' (n - 1)
  | _ => ptr'

/-- What items print from the position on. -/
noncomputable def kept (env : Env) (lay : Layout) (evt : Event) (n : ℕ) : ℕ → List Item → Bytes
  | _, [] => []
  | ptr, i :: is => keptText env lay evt n ptr i ++ kept env lay evt n (place env lay evt n ptr i) is

/-- No addition overflows, as long as there is room. -/
def InRange (env : Env) (lay : Layout) (evt : Event) (n : ℕ) : ℕ → List Item → Prop
  | _, [] => True
  | ptr, i :: is => ptr < n →
      ¬ Overflows env lay evt n ptr i ∧ InRange env lay evt n (place env lay evt n ptr i) is

/-- How texts fill a room. -/
inductive TextFlow
  | overflow
  | full
  | stop
  | next (ptr : ℕ)
  deriving DecidableEq

/-- Texts that are printed one behind the other. -/
def textFlow (size : ℕ) : List Bytes → ℕ → TextFlow
  | [], ptr => .next ptr
  | t :: ts, ptr =>
      if size ≤ ptr then .full
      else if 2 ^ 31 ≤ t.length + ptr then .overflow
      else if size < t.length + ptr then .stop
      else textFlow size ts (ptr + t.length)

/-- Texts behind others. -/
theorem textFlow_append (size : ℕ) (us vs : List Bytes) (ptr : ℕ) :
    textFlow size (us ++ vs) ptr =
      match textFlow size us ptr with
      | .next ptr => textFlow size vs ptr
      | flow => flow := by
  induction us generalizing ptr with
  | nil => rfl
  | cons u us ih =>
      rw [List.cons_append, textFlow, textFlow]
      split_ifs
      · rfl
      · rfl
      · rfl
      · exact ih _

/-- Texts that fit end behind the last one. -/
theorem textFlow_next {size ptr ptr' : ℕ} {ts : List Bytes} (h : textFlow size ts ptr = .next ptr') :
    ptr' = ptr + ts.flatten.length := by
  induction ts generalizing ptr with
  | nil =>
      rw [← TextFlow.next.inj h]
      rfl
  | cons t ts ih =>
      rw [textFlow] at h
      split_ifs at h
      have hptr := ih h
      rw [List.flatten_cons, List.length_append]
      omega

/-- Texts that stop do not fit. -/
theorem textFlow_stop {size ptr : ℕ} {ts : List Bytes} (h : textFlow size ts ptr = .stop) :
    size < ptr + ts.flatten.length := by
  induction ts generalizing ptr with
  | nil => exact absurd h nofun
  | cons t ts ih =>
      rw [textFlow] at h
      rw [List.flatten_cons, List.length_append]
      split_ifs at h
      · omega
      · have hptr := ih h
        omega

/-- Texts are given up where they fill the room. -/
theorem textFlow_full_iff {size ptr : ℕ} {ts : List Bytes} (hsize : size < 2 ^ 31) (hptr : ptr ≤ size) :
    textFlow size ts ptr = .full ↔ GivesUp ts (size - ptr) := by
  induction ts generalizing ptr with
  | nil =>
      constructor
      · exact nofun
      · rintro ⟨us, vs, hts, hvs, -⟩
        exact absurd (List.append_eq_nil_iff.mp hts.symm).2 hvs
  | cons t ts ih =>
      rw [textFlow]
      by_cases hfull : size ≤ ptr
      · rw [if_pos hfull]
        refine ⟨fun _ => ⟨[], t :: ts, rfl, List.cons_ne_nil t ts, ?_⟩, fun _ => rfl⟩
        rw [List.flatten_nil, List.length_nil]
        omega
      · rw [if_neg hfull]
        -- the first of the texts that fill the room is `t`
        have hsplit : GivesUp (t :: ts) (size - ptr) ↔
            t.length + ptr ≤ size ∧ GivesUp ts (size - (ptr + t.length)) := by
          constructor
          · rintro ⟨us, vs, hts, hvs, hlen⟩
            cases us with
            | nil =>
                rw [List.flatten_nil, List.length_nil] at hlen
                omega
            | cons u us =>
                obtain ⟨rfl, hrest⟩ := List.cons.inj hts
                rw [List.flatten_cons, List.length_append] at hlen
                exact ⟨by omega, us, vs, hrest, hvs, by omega⟩
          · rintro ⟨hfit, us, vs, rfl, hvs, hlen⟩
            refine ⟨t :: us, vs, rfl, hvs, ?_⟩
            rw [List.flatten_cons, List.length_append]
            omega
        rw [hsplit]
        by_cases hover : 2 ^ 31 ≤ t.length + ptr
        · rw [if_pos hover]
          exact ⟨nofun, fun h => absurd h.1 (by omega)⟩
        · rw [if_neg hover]
          by_cases hstop : size < t.length + ptr
          · rw [if_pos hstop]
            exact ⟨nofun, fun h => absurd h.1 (by omega)⟩
          · rw [if_neg hstop, ih (by omega)]
            exact ⟨fun h => ⟨by omega, h⟩, fun h => h.2⟩

/-- An addition overflows at the text whose end is no `int`. -/
theorem textFlow_overflow_iff {size ptr : ℕ} {ts : List Bytes} :
    textFlow size ts ptr = .overflow ↔
      ∃ us t vs, ts = us ++ t :: vs ∧ ptr + us.flatten.length < size ∧
        2 ^ 31 ≤ t.length + (ptr + us.flatten.length) := by
  induction ts generalizing ptr with
  | nil =>
      constructor
      · exact nofun
      · rintro ⟨us, t, vs, hts, -⟩
        exact absurd (List.append_eq_nil_iff.mp hts.symm).2 (List.cons_ne_nil t vs)
  | cons t ts ih =>
      have hsplit : (∃ us t' vs, t :: ts = us ++ t' :: vs ∧ ptr + us.flatten.length < size ∧
          2 ^ 31 ≤ t'.length + (ptr + us.flatten.length)) ↔
          (ptr < size ∧ 2 ^ 31 ≤ t.length + ptr) ∨
          ∃ us t' vs, ts = us ++ t' :: vs ∧ ptr + t.length + us.flatten.length < size ∧
            2 ^ 31 ≤ t'.length + (ptr + t.length + us.flatten.length) := by
        constructor
        · rintro ⟨us, t', vs, hts, hlt, hle⟩
          cases us with
          | nil =>
              obtain ⟨rfl, -⟩ := List.cons.inj hts
              exact Or.inl ⟨hlt, hle⟩
          | cons u us =>
              obtain ⟨rfl, hrest⟩ := List.cons.inj hts
              rw [List.flatten_cons, List.length_append] at hlt hle
              exact Or.inr ⟨us, t', vs, hrest, by omega, by omega⟩
        · rintro (⟨hlt, hle⟩ | ⟨us, t', vs, rfl, hlt, hle⟩)
          · exact ⟨[], t, ts, rfl, hlt, hle⟩
          · refine ⟨t :: us, t', vs, rfl, ?_, ?_⟩
            · rw [List.flatten_cons, List.length_append]
              omega
            · rw [List.flatten_cons, List.length_append]
              omega
      rw [hsplit, ← ih, textFlow]
      by_cases hfull : size ≤ ptr
      · rw [if_pos hfull]
        refine ⟨nofun, ?_⟩
        rintro (⟨hlt, -⟩ | hlater)
        · omega
        · obtain ⟨us, t', vs, -, hlt, -⟩ := ih.mp hlater
          omega
      · rw [if_neg hfull]
        by_cases hover : 2 ^ 31 ≤ t.length + ptr
        · rw [if_pos hover]
          exact ⟨fun _ => Or.inl ⟨by omega, hover⟩, fun _ => rfl⟩
        · rw [if_neg hover]
          by_cases hstop : size < t.length + ptr
          · rw [if_pos hstop]
            refine ⟨nofun, ?_⟩
            rintro (⟨-, hle⟩ | hlater)
            · omega
            · obtain ⟨us, t', vs, -, hlt, -⟩ := ih.mp hlater
              omega
          · rw [if_neg hstop]
            exact ⟨Or.inr, fun h => h.resolve_left fun h' => hover h'.2⟩

/-! ## The pairs -/

variable {b : Buffer} {n ptr : ℕ} {t : Bytes}

/-- A flow of the code prints texts as their flow says. -/
def Follows (n base size : ℕ) (t text : Bytes) : Flow → TextFlow → Prop
  | .overflow, .overflow => True
  | .full b, .full => Shows b n t
  | .stop ptr b, .stop => ptr = size ∧ Writing b n n (t ++ text)
  | .next ptr b, .next ptr' => ptr = ptr' ∧ ptr ≤ size ∧ Writing b n (base + ptr) (t ++ text)
  | _, _ => False

/-- The texts behind a first one. -/
theorem follows_cons {base size : ℕ} {u text : Bytes} {flow : Flow} {flow' : TextFlow}
    (h : Follows n base size (t ++ u) text flow flow') :
    Follows n base size t (u ++ text) flow flow' := by
  cases flow with
  | overflow => cases flow' <;> exact h
  | full b =>
      cases flow' with
      | full => exact Shows.shorten h ((List.take_prefix _ _).trans (List.prefix_append _ _))
      | _ => exact h
  | stop ptr b =>
      cases flow' with
      | stop =>
          rw [Follows, ← List.append_assoc]
          exact h
      | _ => exact h
  | next ptr b =>
      cases flow' with
      | next ptr' =>
          rw [Follows, ← List.append_assoc]
          exact h
      | _ => exact h

/-- A text that is printed in a pair. -/
theorem follows_checkTail {base size ret : ℕ} {u text : Bytes} {ts : List Bytes} {b' : Buffer}
    {rest : ℕ → Flow} (hn : n = base + size) (hroom : ptr < size) (hret : ret = u.length)
    (hw : ∀ ptr', ptr' = base + ptr + u.length ∨ n ≤ ptr' + 1 ∧ n ≤ base + ptr + u.length + 1 →
      Writing b' n ptr' (t ++ u))
    (hrest : ptr + u.length ≤ size → Writing b' n (base + (ptr + u.length)) (t ++ u) →
      Follows n base size (t ++ u) text (rest (ptr + u.length)) (textFlow size ts (ptr + u.length))) :
    Follows n base size t (u ++ text)
      (match checkTail size ptr ret with
        | .overflow => .overflow
        | .stop => .stop size b'
        | .go ptr => rest ptr)
      (textFlow size (u :: ts) ptr) := by
  rw [hret, textFlow, if_neg (by omega)]
  unfold checkTail
  split_ifs with hover hstop
  · trivial
  · have hfull := hw n (Or.inr ⟨by omega, by omega⟩)
    refine ⟨rfl, ?_⟩
    rw [← List.append_assoc]
    exact hfull.append (by omega) text
  · exact follows_cons (hrest (by omega) (hw _ (Or.inl (by omega))))

theorem fmtNode_lit {ndc : Bytes × Bytes} {base size : ℕ} {c : UInt8} (hc : c ≠ 37) (pattern : Bytes) :
    fmtNode ndc base size (c :: pattern) ptr b =
      if size ≤ ptr then .full b
      else fmtNode ndc base size pattern (ptr + 1) (b.put (base + ptr) [c]) := by
  cases pattern <;> simp only [fmtNode, if_pos hc]

/-- One pair prints its texts. -/
theorem fmtNode_follows {ndc : Bytes × Bytes} {base size : ℕ} (hn : n = base + size)
    (hsize : size < 2 ^ 31) {pattern : Bytes} (hptr : ptr ≤ size) (hw : Writing b n (base + ptr) t) :
    Follows n base size t (ndcTexts ndc pattern).flatten (fmtNode ndc base size pattern ptr b)
      (textFlow size (ndcTexts ndc pattern) ptr) := by
  induction pattern using ndcTexts.induct generalizing ptr b t with
  | case1 =>
      refine ⟨rfl, hptr, ?_⟩
      rw [ndcTexts, List.flatten_nil, List.append_nil]
      exact hw
  | case2 c pattern hc ih =>
      rw [ndcTexts_lit hc, fmtNode_lit hc, textFlow]
      by_cases hfull : size ≤ ptr
      · rw [if_pos hfull, if_pos hfull]
        exact hw.shows
      · have hput := hw.put (by omega) c
        rw [if_neg hfull, if_neg hfull, List.length_singleton, if_neg (by omega), if_neg (by omega)]
        exact follows_cons (ih (by omega) hput)
  | case3 c hc =>
      rw [ndcTexts, if_neg hc, fmtNode, if_neg hc, textFlow]
      by_cases hfull : size ≤ ptr
      · rw [if_pos hfull, if_pos hfull]
        exact hw.shows
      · rw [if_neg hfull, if_neg hfull, List.length_nil, if_neg (by omega), if_neg (by omega)]
        refine ⟨rfl, hptr, ?_⟩
        rw [List.flatten_singleton, List.append_nil]
        exact hw
  | case4 c hc d pattern ih =>
      rw [ndcTexts, if_neg hc, fmtNode, if_neg hc]
      by_cases hfull : size ≤ ptr
      · rw [if_pos hfull, textFlow, if_pos hfull]
        exact hw.shows
      · rw [if_neg hfull]
        have hpos : base + ptr < n := by omega
        have hroom : size - ptr = n - (base + ptr) := by omega
        split_ifs with hkey hfirst hpercent
        · -- the key
          refine follows_checkTail hn (by omega) rfl (fun ptr' hptr' => ?_) fun hfit hw' => ih hfit hw'
          rw [hroom]
          exact hw.snprintf hpos _ hptr'
        · -- the value
          refine follows_checkTail hn (by omega) rfl (fun ptr' hptr' => ?_) fun hfit hw' => ih hfit hw'
          rw [hroom]
          exact hw.snprintf hpos _ hptr'
        · -- a percent sign
          have hput := hw.put hpos 37
          refine follows_checkTail hn (by omega) rfl (fun ptr' hptr' => ?_) fun hfit hw' => ih hfit hw'
          rcases hptr' with heq | hbehind
          · rw [heq]
            exact hput
          · have hfull := hbehind.2
            rw [List.length_singleton] at hfull
            exact hput.move hfull hbehind.1
        · -- nothing
          rw [textFlow, if_neg hfull, List.length_nil, if_neg (by omega), if_neg (by omega)]
          have hrest := ih hptr hw
          rw [← List.append_nil t] at hrest
          exact follows_cons hrest

/-- All pairs print their texts. -/
theorem fmtNodes_follows {pattern : Bytes} {base size : ℕ} (hn : n = base + size)
    (hsize : size < 2 ^ 31) {ndcs : List (Bytes × Bytes)} (hptr : ptr ≤ size)
    (hw : Writing b n (base + ptr) t) :
    Follows n base size t (ndcs.flatMap fun ndc => ndcTexts ndc pattern).flatten
      (fmtNodes pattern base size ndcs ptr b)
      (textFlow size (ndcs.flatMap fun ndc => ndcTexts ndc pattern) ptr) := by
  induction ndcs generalizing ptr b t with
  | nil =>
      refine ⟨rfl, hptr, ?_⟩
      rw [List.flatMap_nil, List.flatten_nil, List.append_nil]
      exact hw
  | cons ndc ndcs ih =>
      have hnode : Follows n base size t (ndcTexts ndc pattern).flatten
          (fmtNode ndc base size pattern ptr b) (textFlow size (ndcTexts ndc pattern) ptr) :=
        fmtNode_follows hn hsize hptr hw
      rw [List.flatMap_cons, textFlow_append, List.flatten_append, fmtNodes]
      generalize fmtNode ndc base size pattern ptr b = flow at hnode ⊢
      generalize textFlow size (ndcTexts ndc pattern) ptr = flow' at hnode ⊢
      cases flow with
      | overflow => cases flow' <;> first | exact hnode | exact absurd hnode id
      | full b' =>
          cases flow' <;> first | exact hnode | exact absurd hnode id
      | stop ptr' b' =>
          cases flow' with
          | stop =>
              refine ⟨hnode.1, ?_⟩
              rw [← List.append_assoc]
              exact hnode.2.append (by omega) _
          | _ => exact absurd hnode id
      | next ptr' b' =>
          cases flow' with
          | next ptr'' =>
              obtain ⟨rfl, hptr', hw'⟩ := hnode
              exact follows_cons (ih hptr' hw')
          | _ => exact absurd hnode id

/-- A writer that fills the room is taken back by one. -/
theorem fmtEnd_spec {base size : ℕ} (hn : n = base + size) (hsize : 0 < size) (hptr : ptr ≤ size)
    (hw : Writing b n (base + ptr) t) :
    (fmtEnd base size ptr b).1 = min ptr (size - 1) ∧
      Writing (fmtEnd base size ptr b).2 n (base + min ptr (size - 1)) t := by
  unfold fmtEnd
  dsimp only
  by_cases hfull : size ≤ ptr
  · have hmin : min ptr (size - 1) = ptr - 1 := by omega
    rw [if_pos hfull, hmin]
    exact ⟨rfl, (hw.move (by omega) (by omega)).mark (by omega) 0⟩
  · have hmin : min ptr (size - 1) = ptr := by omega
    rw [if_neg hfull, hmin]
    exact ⟨rfl, hw.mark (by omega) 0⟩

/-- **The pairs of an event**: an addition overflows, or the pairs are given up and nothing is reported,
or they are shown and reported as far as there is room. -/
theorem fmtpattern_spec {lay : Layout} {evt : Event} (hn : n < 2 ^ 31) (hptr : ptr < n)
    (hw : Writing b n ptr t) :
    (Overruns (pairTexts lay evt) (n - ptr) ∧ lay.fmtpattern evt b ptr (n - ptr) = none) ∨
    (¬ Overruns (pairTexts lay evt) (n - ptr) ∧ GivesUp (pairTexts lay evt) (n - ptr) ∧
      ∃ b', lay.fmtpattern evt b ptr (n - ptr) = some (0, b') ∧ Shows b' n t) ∨
    (¬ Overruns (pairTexts lay evt) (n - ptr) ∧ ¬ GivesUp (pairTexts lay evt) (n - ptr) ∧
      ∃ b', lay.fmtpattern evt b ptr (n - ptr) =
        some (min (pairTexts lay evt).flatten.length (n - ptr - 1), b') ∧
        Writing b' n (min (ptr + (pairTexts lay evt).flatten.length) (n - 1))
          (t ++ (pairTexts lay evt).flatten)) := by
  have hsplit : n = ptr + (n - ptr) := by omega
  have hover : textFlow (n - ptr) (pairTexts lay evt) 0 = .overflow ↔
      Overruns (pairTexts lay evt) (n - ptr) := by
    rw [textFlow_overflow_iff]
    simp only [Nat.zero_add]
    rfl
  have hfull : textFlow (n - ptr) (pairTexts lay evt) 0 = .full ↔
      GivesUp (pairTexts lay evt) (n - ptr) := textFlow_full_iff (by omega) (Nat.zero_le _)
  have hflow : Follows n ptr (n - ptr) t (pairTexts lay evt).flatten
      (fmtNodes lay.ndcPattern ptr (n - ptr) evt.ndcs 0 b)
      (textFlow (n - ptr) (pairTexts lay evt) 0) :=
    fmtNodes_follows hsplit (by omega) (Nat.zero_le _) hw
  -- the two places where the writer of the pairs is reported
  have hend : ∀ {ptr' : ℕ} {b' : Buffer}, ptr' ≤ n - ptr →
      Writing b' n (ptr + ptr') (t ++ (pairTexts lay evt).flatten) →
      (ptr' = (pairTexts lay evt).flatten.length ∨
        ptr' = n - ptr ∧ n - ptr < (pairTexts lay evt).flatten.length) →
      ∃ b'', some (fmtEnd ptr (n - ptr) ptr' b') =
        some (min (pairTexts lay evt).flatten.length (n - ptr - 1), b'') ∧
        Writing b'' n (min (ptr + (pairTexts lay evt).flatten.length) (n - 1))
          (t ++ (pairTexts lay evt).flatten) := by
    intro ptr' b' hle hw' hlen
    obtain ⟨hret, hfinal⟩ := fmtEnd_spec hsplit (by omega) hle hw'
    have hmin : min ptr' (n - ptr - 1) = min (pairTexts lay evt).flatten.length (n - ptr - 1) := by
      omega
    have hpos : ptr + min ptr' (n - ptr - 1) =
        min (ptr + (pairTexts lay evt).flatten.length) (n - 1) := by omega
    rw [hmin] at hret
    rw [hpos] at hfinal
    exact ⟨_, congrArg some (Prod.ext hret rfl), hfinal⟩
  rw [← hover, ← hfull]
  unfold Layout.fmtpattern
  generalize fmtNodes lay.ndcPattern ptr (n - ptr) evt.ndcs 0 b = flow at hflow ⊢
  cases hcase : textFlow (n - ptr) (pairTexts lay evt) 0 with
  | overflow =>
      rw [hcase] at hflow
      cases flow with
      | overflow => exact Or.inl ⟨rfl, rfl⟩
      | _ => exact absurd hflow id
  | full =>
      rw [hcase] at hflow
      cases flow with
      | full b' => exact Or.inr (Or.inl ⟨nofun, rfl, b', rfl, hflow⟩)
      | _ => exact absurd hflow id
  | stop =>
      rw [hcase] at hflow
      cases flow with
      | stop ptr' b' =>
          obtain ⟨rfl, hw'⟩ := hflow
          have hlen := textFlow_stop hcase
          rw [Nat.zero_add] at hlen
          have hpos : ptr + (n - ptr) = n := by omega
          exact Or.inr (Or.inr ⟨nofun, nofun,
            hend (Nat.le_refl _) (hpos.symm ▸ hw') (Or.inr ⟨rfl, hlen⟩)⟩)
      | _ => exact absurd hflow id
  | next ptr'' =>
      rw [hcase] at hflow
      cases flow with
      | next ptr' b' =>
          obtain ⟨rfl, hle, hw'⟩ := hflow
          have hlen := textFlow_next hcase
          exact Or.inr (Or.inr ⟨nofun, nofun, hend hle hw' (Or.inl (by omega))⟩)
      | _ => exact absurd hflow id

/-! ## The pattern -/

variable {env : Env} {lay : Layout} {evt : Event}

/-- What becomes of an item in the room: an addition overflows, or the position goes behind the item, and
the buffer shows its text. -/
def Advances (env : Env) (lay : Layout) (evt : Event) (n ptr : ℕ) (t : Bytes) (i : Item)
    (r : Option (ℕ × Buffer)) : Prop :=
  (Overflows env lay evt n ptr i ∧ ∀ ret b, r = some (ret, b) → checkTail n ptr ret = .overflow) ∨
  ¬ Overflows env lay evt n ptr i ∧ ∃ ret b, r = some (ret, b) ∧
    (checkTail n ptr ret = .stop ∧ n < place env lay evt n ptr i ∧
      Writing b n n (t ++ keptText env lay evt n ptr i) ∨
    checkTail n ptr ret = .go (place env lay evt n ptr i) ∧
      Writing b n (place env lay evt n ptr i) (t ++ keptText env lay evt n ptr i))

theorem room_of_lt (h : ptr < n) : room n ptr = n - ptr := if_pos (Nat.le_of_lt h)

/-- A field that is printed. -/
theorem advances_printField {i : Item} (hdrop : ¬ Dropped env lay evt n ptr i)
    (hplace : place env lay evt n ptr i = ptr + (keptText env lay evt n ptr i).length)
    (hover : Overflows env lay evt n ptr i ↔ 2 ^ 31 ≤ (itemText env lay evt i).length + ptr)
    (hptr : ptr < n) (hw : Writing b n ptr t) :
    Advances env lay evt n ptr t i (some (printField n ptr b (itemText env lay evt i))) := by
  have hkept : keptText env lay evt n ptr i = itemText env lay evt i := if_neg hdrop
  unfold Advances printField
  rw [hplace, hkept, hover, room_of_lt hptr]
  unfold checkTail
  by_cases hlen : 2 ^ 31 ≤ (itemText env lay evt i).length + ptr
  · refine Or.inl ⟨hlen, fun ret b' hr => ?_⟩
    rw [← (Prod.mk.inj (Option.some.inj hr)).1, if_pos hlen]
  · refine Or.inr ⟨hlen, _, _, rfl, ?_⟩
    rw [if_neg hlen]
    by_cases hstop : n < (itemText env lay evt i).length + ptr
    · rw [if_pos hstop]
      exact Or.inl ⟨rfl, by omega, hw.snprintf hptr _ (Or.inr ⟨by omega, by omega⟩)⟩
    · rw [if_neg hstop]
      exact Or.inr ⟨rfl, hw.snprintf hptr _ (Or.inl rfl)⟩

/-- A copy within the room is what is printed there. -/
theorem xstrcpy_eq {size : ℕ} (hsize : 0 < size) (b : Buffer) (pos : ℕ) (s : Bytes) :
    xstrcpy b pos size s = (min s.length (size - 1), snprintf b pos size s) := by
  have hpos : size ≠ 0 := Nat.ne_of_gt hsize
  unfold xstrcpy snprintf
  dsimp only
  rw [if_neg hpos]
  by_cases hlen : size ≤ s.length
  · have hmin : min s.length (size - 1) = size - 1 := by omega
    rw [if_pos hlen, hmin]
  · have hmin : min s.length (size - 1) = s.length := by omega
    rw [if_neg hlen, hmin, List.take_of_length_le (Nat.le_refl _), List.take_of_length_le (by omega)]

/-- A field that is copied. -/
theorem advances_xstrcpy {i : Item} (hdrop : ¬ Dropped env lay evt n ptr i)
    (hplace : place env lay evt n ptr i =
      min (ptr + (keptText env lay evt n ptr i).length) (n - 1))
    (hover : ¬ Overflows env lay evt n ptr i) (hn : n < 2 ^ 31) (hptr : ptr < n)
    (hw : Writing b n ptr t) :
    Advances env lay evt n ptr t i (some (xstrcpy b ptr (n - ptr) (itemText env lay evt i))) := by
  have hkept : keptText env lay evt n ptr i = itemText env lay evt i := if_neg hdrop
  refine Or.inr ⟨hover, _, _, congrArg some (xstrcpy_eq (by omega) b ptr _), Or.inr ?_⟩
  rw [hplace, hkept]
  unfold checkTail
  rw [if_neg (by omega), if_neg (by omega)]
  have hpos : ptr + min (itemText env lay evt i).length (n - ptr - 1) =
      min (ptr + (itemText env lay evt i).length) (n - 1) := by omega
  rw [hpos]
  refine ⟨rfl, hw.snprintf hptr _ ?_⟩
  omega

/-- The pairs. -/
theorem advances_fmtpattern (hn : n < 2 ^ 31) (hptr : ptr < n) (hw : Writing b n ptr t) :
    Advances env lay evt n ptr t (.spec .ndc) (lay.fmtpattern evt b ptr (n - ptr)) := by
  have hpairs := @fmtpattern_spec b n ptr t lay evt hn hptr hw
  rcases hpairs with
    ⟨hover, hnone⟩ | ⟨hover, hgive, b', hret, hshows⟩ | ⟨hover, hgive, b', hret, hw'⟩
  · refine Or.inl ⟨hover, fun ret b' hr => ?_⟩
    rw [hnone] at hr
    exact absurd hr nofun
  · have hkept : keptText env lay evt n ptr (.spec .ndc) = [] := if_pos hgive
    have hplace : place env lay evt n ptr (.spec .ndc) = ptr := by
      unfold place
      dsimp only
      rw [hkept, List.length_nil]
      omega
    refine Or.inr ⟨hover, 0, b', hret, Or.inr ?_⟩
    rw [hplace, hkept, List.append_nil]
    unfold checkTail
    rw [if_neg (by omega), if_neg (by omega)]
    exact ⟨rfl, hshows, hw.ptr_eq⟩
  · have hkept : keptText env lay evt n ptr (.spec .ndc) = (pairTexts lay evt).flatten := if_neg hgive
    have hplace : place env lay evt n ptr (.spec .ndc) =
        min (ptr + (pairTexts lay evt).flatten.length) (n - 1) := by
      unfold place
      dsimp only
      rw [hkept]
    refine Or.inr ⟨hover, _, b', hret, Or.inr ?_⟩
    rw [hplace, hkept]
    unfold checkTail
    rw [if_neg (by omega), if_neg (by omega)]
    have hpos : ptr + min (pairTexts lay evt).flatten.length (n - ptr - 1) =
        min (ptr + (pairTexts lay evt).flatten.length) (n - 1) := by omega
    rw [hpos]
    exact ⟨rfl, hw'⟩

/-- A time in the format that was set. -/
theorem advances_strftime (hn : n < 2 ^ 31) (hptr : ptr < n) (hw : Writing b n ptr t) :
    Advances env lay evt n ptr t (.spec .customTime)
      (some (strftime env b ptr (n - ptr) evt.printTime.tvSec)) := by
  unfold strftime
  dsimp only
  by_cases hfit : (env.strftime env.timeFormat evt.printTime.tvSec).length < n - ptr
  · have hdrop : ¬ Dropped env lay evt n ptr (.spec .customTime) := by
      intro (h : n ≤ ptr + (env.strftime env.timeFormat evt.printTime.tvSec).length)
      omega
    have hkept : keptText env lay evt n ptr (.spec .customTime) =
        env.strftime env.timeFormat evt.printTime.tvSec := if_neg hdrop
    have hput : b.put ptr (env.strftime env.timeFormat evt.printTime.tvSec ++ [0]) =
        snprintf b ptr (n - ptr) (env.strftime env.timeFormat evt.printTime.tvSec) := by
      unfold snprintf
      rw [if_neg (by omega), List.take_of_length_le (by omega)]
    rw [if_pos hfit]
    refine Or.inr ⟨id, _, _, rfl, Or.inr ?_⟩
    unfold place checkTail
    dsimp only
    rw [hkept, hput, if_neg (by omega), if_neg (by omega)]
    exact ⟨rfl, hw.snprintf hptr _ (Or.inl rfl)⟩
  · have hdrop : Dropped env lay evt n ptr (.spec .customTime) := by
      change n ≤ ptr + (env.strftime env.timeFormat evt.printTime.tvSec).length
      omega
    have hkept : keptText env lay evt n ptr (.spec .customTime) = [] := if_pos hdrop
    rw [if_neg hfit]
    refine Or.inr ⟨id, _, _, rfl, Or.inr ?_⟩
    unfold place checkTail
    dsimp only
    rw [hkept, List.append_nil, if_neg (by omega), if_neg (by omega)]
    refine ⟨rfl, hw.shows.put_behind ?_ ?_, hw.ptr_eq⟩
    · rcases hw.ptr_eq with rfl | ⟨hbehind, -⟩
      · exact Or.inl (Nat.le_refl _)
      · exact Or.inr hbehind
    · rw [List.length_take]
      omega

/-- **One field.** -/
theorem fmtField_spec (hn : n < 2 ^ 31) (hptr : ptr < n) (hw : Writing b n ptr t) (s : Spec) :
    Advances env lay evt n ptr t (.spec s) (fmtField env lay evt n ptr b s) := by
  cases s with
  | customTime => exact advances_strftime hn hptr hw
  | ndc => exact advances_fmtpattern hn hptr hw
  | host => exact advances_xstrcpy id rfl id hn hptr hw
  | message => exact advances_xstrcpy id rfl id hn hptr hw
  | other =>
      refine Or.inr ⟨?_, 0, b, rfl, Or.inr ?_⟩
      · intro (h : 2 ^ 31 ≤ 0 + ptr)
        omega
      · have hkept : keptText env lay evt n ptr (.spec .other) = [] := if_neg id
        unfold place checkTail
        dsimp only
        rw [hkept, List.append_nil, if_neg (by omega), if_neg (by omega)]
        exact ⟨rfl, hw⟩
  | _ => exact advances_printField id rfl Iff.rfl hptr hw

theorem fmtLoop_lit {c : UInt8} (hc : c ≠ 37) (pattern : Bytes) :
    fmtLoop env lay evt n (c :: pattern) ptr b =
      if n ≤ ptr then some (ptr, b)
      else fmtLoop env lay evt n pattern (ptr + 1) (b.put ptr [c]) := by
  cases pattern <;> simp only [fmtLoop, if_pos hc]

/-- Without room nothing happens. -/
theorem fmtLoop_full (pattern : Bytes) (h : n ≤ ptr) :
    fmtLoop env lay evt n pattern ptr b = some (ptr, b) := by
  cases pattern with
  | nil => rfl
  | cons c pattern =>
      by_cases hc : c = 37
      · cases pattern <;> simp only [fmtLoop, if_pos h]
      · rw [fmtLoop_lit hc, if_pos h]

theorem inRange_full (is : List Item) (h : n ≤ ptr) : InRange env lay evt n ptr is := by
  cases is with
  | nil => trivial
  | cons i is => exact fun hptr => absurd hptr (Nat.not_lt_of_le h)

/-- What becomes of a pattern: an addition overflows, or the buffer shows what the items print. -/
def Renders (env : Env) (lay : Layout) (evt : Event) (n ptr : ℕ) (t : Bytes) (is : List Item)
    (r : Option (ℕ × Buffer)) : Prop :=
  (¬ InRange env lay evt n ptr is ∧ r = none) ∨
  InRange env lay evt n ptr is ∧ ∃ ptr' b, r = some (ptr', b) ∧
    Writing b n ptr' (t ++ kept env lay evt n ptr is)

/-- Without room anything may follow. -/
theorem renders_full (is : List Item) (hptr : n ≤ ptr) {ptr' : ℕ} (hptr' : n ≤ ptr')
    (hw : Writing b n ptr' t) : Renders env lay evt n ptr t is (some (ptr', b)) :=
  Or.inr ⟨inRange_full is hptr, ptr', b, rfl, hw.append (by omega) _⟩

/-- The items behind a first one. -/
theorem renders_cons {i : Item} {is : List Item} {r : Option (ℕ × Buffer)} (hptr : ptr < n)
    (hover : ¬ Overflows env lay evt n ptr i)
    (h : Renders env lay evt n (place env lay evt n ptr i) (t ++ keptText env lay evt n ptr i) is r) :
    Renders env lay evt n ptr t (i :: is) r := by
  rcases h with ⟨hrange, hr⟩ | ⟨hrange, ptr', b, hr, hw⟩
  · exact Or.inl ⟨fun h => hrange (h hptr).2, hr⟩
  · refine Or.inr ⟨fun _ => ⟨hover, hrange⟩, ptr', b, hr, ?_⟩
    rw [kept, ← List.append_assoc]
    exact hw

/-- **The pattern.** -/
theorem fmtLoop_spec (hn : n < 2 ^ 31) {pattern : Bytes} (hw : Writing b n ptr t) :
    Renders env lay evt n ptr t (items pattern) (fmtLoop env lay evt n pattern ptr b) := by
  have hfull : ∀ {pattern : Bytes} {ptr : ℕ} {b : Buffer} {t : Bytes}, n ≤ ptr → Writing b n ptr t →
      Renders env lay evt n ptr t (items pattern) (fmtLoop env lay evt n pattern ptr b) := by
    intro pattern ptr b t hptr hw
    rw [fmtLoop_full pattern hptr]
    exact renders_full _ hptr hptr hw
  induction pattern using items.induct generalizing ptr b t with
  | case1 =>
      refine Or.inr ⟨trivial, ptr, b, rfl, ?_⟩
      rw [items, kept, List.append_nil]
      exact hw
  | case2 c pattern hc ih =>
      rcases Nat.lt_or_ge ptr n with hptr | hptr
      · have hkept : keptText env lay evt n ptr (.lit c) = [c] := if_neg id
        rw [items_lit hc, fmtLoop_lit hc, if_neg (Nat.not_le_of_lt hptr)]
        apply renders_cons hptr id
        unfold place
        dsimp only
        rw [hkept]
        exact ih (hw.put hptr c)
      · exact hfull hptr hw
  | case3 c hc =>
      rcases Nat.lt_or_ge ptr n with hptr | hptr
      · rw [items, if_neg hc, fmtLoop, if_neg (Nat.not_le_of_lt hptr), if_neg hc]
        have hkept : keptText env lay evt n ptr (.spec .other) = [] := if_neg id
        refine Or.inr ⟨fun _ => ⟨fun (h : 2 ^ 31 ≤ 0 + ptr) => by omega, trivial⟩, ptr, b, rfl, ?_⟩
        rw [kept, kept, hkept, List.append_nil, List.append_nil]
        exact hw
      · exact hfull hptr hw
  | case4 c hc d pattern ih =>
      rcases Nat.lt_or_ge ptr n with hptr | hptr
      · rw [items, if_neg hc, fmtLoop, if_neg (Nat.not_le_of_lt hptr), if_neg hc]
        have hfield : Advances env lay evt n ptr t (.spec (specOf d))
            (fmtField env lay evt n ptr b (specOf d)) := fmtField_spec hn hptr hw (specOf d)
        rcases hfield with ⟨hover, hnone⟩ | ⟨hover, ret, b', hret, hgo⟩
        · refine Or.inl ⟨fun h => (h hptr).1 hover, ?_⟩
          cases hr : fmtField env lay evt n ptr b (specOf d) with
          | none => rfl
          | some r =>
              dsimp only
              rw [hnone r.1 r.2 hr]
        · rw [hret]
          dsimp only
          apply renders_cons hptr hover
          rcases hgo with ⟨htail, hplace, hw'⟩ | ⟨htail, hw'⟩
          · rw [htail]
            exact renders_full _ (Nat.le_of_lt hplace) (Nat.le_refl n) hw'
          · rw [htail]
            exact ih hw'
      · exact hfull hptr hw

/-! ## The line -/

/-- **The line** is what the buffer shows, cut for the line feed and the NUL. -/
theorem fmtLine_spec (hn : 2 ≤ n) (hw : Writing b n ptr t) :
    ∃ len b', fmtLine n ptr b = .line len b' ∧ b'.reach ≤ n ∧
      peek b'.cells 0 len = t.take (n - 2) ++ [10] := by
  have hlen : (if n - 1 ≤ ptr then n - 2 else ptr) = (t.take (n - 2)).length := by
    rw [List.length_take]
    rcases hw.ptr_eq with rfl | ⟨hptr, hfull⟩
    · split_ifs <;> omega
    · rw [if_pos (by omega)]
      omega
  have hshort : (t.take (n - 2)).length ≤ n - 2 := by
    rw [List.length_take]
    omega
  have hcut : Shows b n (t.take (n - 2)) :=
    hw.shows.shorten ((List.take_prefix _ _).trans (List.take_prefix _ _))
  have hroom : ∀ c : UInt8, (t.take (n - 2)).length + [c].length ≤ n - 1 := by
    intro c
    rw [List.length_singleton]
    omega
  have hfeed := hcut.put (Nat.le_trans (hroom 10) (Nat.sub_le n 1))
  have hlen' : (t.take (n - 2) ++ [10]).length = (t.take (n - 2)).length + 1 := List.length_append
  have hnul := hfeed.put_behind (Or.inl (Nat.le_of_eq hlen')) (show _ + [(0 : UInt8)].length ≤ n by
    have := hroom 0
    omega)
  unfold fmtLine
  dsimp only
  rw [hlen]
  refine ⟨_, _, rfl, hnul.reach_le, ?_⟩
  rw [hnul.peek (Nat.le_of_eq hlen'.symm) (by omega), List.take_of_length_le (Nat.le_of_eq hlen')]

end Asenal.Comlog
