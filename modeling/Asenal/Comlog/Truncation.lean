import Asenal.Comlog.Render

/-!
# Where a log line is cut

The prefix and its spaces are written before the room is compared with the position again, so a part that
fits exactly is followed by a space behind the buffer. Pairs that fill the room exactly are left out, and
what follows them is printed in their place.

* `format_inBounds_iff` — which events stay in their buffer.
* `format_line_iff` — which lines are the beginning of the expansion.
-/

namespace Asenal.Comlog

open Asenal.Lib.Text Asenal.Lib.Memory Asenal.Lib.Scan Asenal.Lib.Bounded

variable {env : Env} {lay : Layout} {evt : Event} {b : Buffer} {n ptr : ℕ} {t s : Bytes}

/-! ## What is claimed of a line -/

/-- Nothing was written behind the buffer. -/
def Formatted.InBounds (n : ℕ) : Formatted → Prop
  | .refused => True
  | .undefined => False
  | .line _ b => b.reach ≤ n

/-- The line that is handed on. -/
def Formatted.text : Formatted → Option Bytes
  | .line len b => some (peek b.cells 0 len)
  | _ => none

/-- The length of the render buffer. -/
def Event.bufsiz (evt : Event) : ℕ := evt.renderMsgbufSize.toInt.toNat

/-- Neither part of the prefix fills the buffer exactly, and the end of the second one is an `int`. -/
def PrefixFits (evt : Event) (n : ℕ) : Prop :=
  evt.hasPrefix → evt.version.length ≠ n ∧ evt.version.length + 1 + evt.logType.length ≠ n ∧
    (evt.version.length < n → evt.version.length + 1 + evt.logType.length < 2 ^ 31)

/-- The position behind the prefix. -/
def prefixLength (evt : Event) : ℕ :=
  if evt.hasPrefix then evt.version.length + 1 + evt.logType.length + 1 else 0

/-! ## The prefix -/

/-- One part of the prefix: an addition overflows, or it is cut, or the space behind it is written behind
the buffer, or both are shown. -/
theorem fmtPart_spec (hptr : ptr ≤ n) (hs : s ≠ []) (hw : Writing b n ptr t) :
    (2 ^ 31 ≤ s.length + ptr ∧ (fmtPart n ptr b s).1 = .overflow) ∨
    (n < s.length + ptr ∧ s.length + ptr < 2 ^ 31 ∧
      ∃ b', fmtPart n ptr b s = (.stop, b') ∧ Writing b' n n (t ++ s)) ∨
    (s.length + ptr = n ∧ s.length + ptr < 2 ^ 31 ∧
      ∃ b', fmtPart n ptr b s = (.go (n + 1), b') ∧ n < b'.reach) ∨
    (s.length + ptr < n ∧ s.length + ptr < 2 ^ 31 ∧
      ∃ b', fmtPart n ptr b s = (.go (ptr + s.length + 1), b') ∧
        Writing b' n (ptr + s.length + 1) (t ++ s ++ [32])) := by
  have hpos := List.length_pos_iff.mpr hs
  unfold fmtPart printField checkTail
  dsimp only
  by_cases hover : 2 ^ 31 ≤ s.length + ptr
  · rw [if_pos hover]
    exact Or.inl ⟨hover, rfl⟩
  rw [if_neg hover]
  apply Or.inr
  by_cases hstop : n < s.length + ptr
  · rw [if_pos hstop]
    refine Or.inl ⟨hstop, by omega, _, rfl, ?_⟩
    rcases Nat.lt_or_eq_of_le hptr with hroom | rfl
    · rw [room_of_lt hroom]
      exact hw.snprintf hroom s (Or.inr ⟨by omega, by omega⟩)
    · -- without room nothing is printed
      have hzero : room ptr ptr = 0 := by rw [room, if_pos (Nat.le_refl _), Nat.sub_self]
      unfold snprintf
      rw [hzero, if_pos rfl]
      exact hw.append (by omega) s
  rw [if_neg hstop]
  dsimp only
  apply Or.inr
  have hroom : ptr < n := by omega
  rw [room_of_lt hroom]
  by_cases hexact : s.length + ptr = n
  · have hend : ptr + s.length = n := by omega
    rw [hend]
    exact Or.inl ⟨hexact, by omega, _, rfl, lt_reach_put _ n 32⟩
  · exact Or.inr ⟨by omega, by omega, _, rfl,
      (hw.snprintf hroom s (Or.inl rfl)).put (by omega) 32⟩

/-- A line does not take writes back. -/
theorem not_inBounds_of_reach (h : n < b.reach) : ¬ (fmtLine n ptr b).InBounds n := by
  intro hle
  have h₁ := reach_le_put b (if n - 1 ≤ ptr then n - 2 else ptr) [10]
  have h₂ := reach_le_put (b.put (if n - 1 ≤ ptr then n - 2 else ptr) [10])
    ((if n - 1 ≤ ptr then n - 2 else ptr) + 1) [0]
  have hle' : ((b.put (if n - 1 ≤ ptr then n - 2 else ptr) [10]).put
    ((if n - 1 ≤ ptr then n - 2 else ptr) + 1) [0]).reach ≤ n := hle
  omega

/-- The text of an event before it is cut. -/
def lineOfText (n : ℕ) : Option (ℕ × Buffer) → Formatted
  | none => .undefined
  | some (ptr, b) => fmtLine n ptr b

theorem format_eq (h : 2 ≤ evt.bufsiz) (b : Buffer) :
    lay.format env evt b = lineOfText evt.bufsiz (fmtText env lay evt evt.bufsiz b) := by
  unfold Layout.format
  rw [← Event.bufsiz, if_neg (Nat.not_lt_of_le h)]
  unfold lineOfText
  cases fmtText env lay evt evt.bufsiz b <;> rfl

/-- What is rendered from a position in the buffer. -/
theorem inBounds_of_renders (hn : 2 ≤ n) {is : List Item} {r : Option (ℕ × Buffer)}
    (h : Renders env lay evt n ptr t is r) :
    (lineOfText n r).InBounds n ↔ InRange env lay evt n ptr is := by
  rcases h with ⟨hrange, rfl⟩ | ⟨hrange, ptr', b', rfl, hw⟩
  · exact ⟨False.elim, fun h => hrange h⟩
  · obtain ⟨len, b'', hline, hreach, -⟩ := fmtLine_spec hn hw
    refine ⟨fun _ => hrange, fun _ => ?_⟩
    unfold lineOfText
    dsimp only
    rw [hline]
    exact hreach

/-- A prefix that is cut, or a text behind it, stays in the buffer. -/
theorem inBounds_of_stop (hn : 2 ≤ n) (hw : Writing b n n t) :
    (lineOfText n (some (n, b))).InBounds n := by
  obtain ⟨len, b', hline, hreach, -⟩ := fmtLine_spec hn hw
  unfold lineOfText
  dsimp only
  rw [hline]
  exact hreach

/-- A part of the prefix behind the buffer. -/
theorem fmtPart_behind (b : Buffer) (s : Bytes) (h : n < ptr) :
    (∃ b', fmtPart n ptr b s = (.overflow, b')) ∨
      ∃ b', fmtPart n ptr b s = (.stop, b') ∧ b.reach ≤ b'.reach := by
  unfold fmtPart printField checkTail
  dsimp only
  by_cases hover : 2 ^ 31 ≤ s.length + ptr
  · rw [if_pos hover]
    exact Or.inl ⟨_, rfl⟩
  · rw [if_neg hover, if_pos (by omega)]
    exact Or.inr ⟨_, rfl, reach_le_snprintf b _ _ _⟩

theorem version_ne_nil (evt : Event) : evt.version ≠ [] := by
  unfold Event.version decInt
  split_ifs
  · exact List.cons_ne_nil _ _
  · exact dec_ne_nil _

/-- A version has ten digits and a sign at most. -/
theorem length_version_le (evt : Event) : evt.version.length ≤ 11 := by
  have h₁ := evt.logVersion.le_toInt
  have h₂ := evt.logVersion.toInt_lt
  have hdec : (dec evt.logVersion.toInt.natAbs).length ≤ 10 :=
    length_dec_le (by omega) (by decide)
  unfold Event.version decInt
  split_ifs
  · exact Nat.succ_le_succ hdec
  · exact Nat.le_succ_of_le hdec

/-- **The prefix and the pattern** stay in the buffer if the prefix does not fill it exactly, and no
addition overflows. -/
theorem fmtText_inBounds (hn : 2 ≤ n) (hint : n < 2 ^ 31) (hb : b.reach = 0) :
    (lineOfText n (fmtText env lay evt n b)).InBounds n ↔
      PrefixFits evt n ∧ InRange env lay evt n (prefixLength evt) (items lay.pattern) := by
  have hstart : Writing b n 0 [] := ⟨shows_nil (by omega), Or.inl rfl⟩
  have hversion := length_version_le evt
  unfold fmtText PrefixFits prefixLength
  by_cases hpre : evt.hasPrefix
  swap
  · rw [if_neg hpre, if_neg hpre, inBounds_of_renders hn (fmtLoop_spec hint hstart)]
    exact ⟨fun h => ⟨fun hp => absurd hp hpre, h⟩, fun h => h.2⟩
  rw [if_pos hpre, if_pos hpre]
  rcases fmtPart_spec (Nat.zero_le n) (version_ne_nil evt) hstart with
    ⟨hover, -⟩ | ⟨hcut, -, b', hpart, hw⟩ | ⟨hexact, -, b', hpart, hreach⟩ |
    ⟨hfits, -, b', hpart, hw⟩
  · omega
  · -- the version is cut
    rw [hpart]
    refine ⟨fun _ => ⟨fun _ => ⟨by omega, by omega, by omega⟩, inRange_full _ (by omega)⟩,
      fun _ => inBounds_of_stop hn hw⟩
  · -- the version fills the buffer
    refine ⟨fun h => absurd h ?_, fun h => absurd hexact (h.1 hpre).1⟩
    rw [hpart]
    dsimp only
    rcases fmtPart_behind b' evt.logType (Nat.lt_succ_self n) with ⟨b'', hpart'⟩ | ⟨b'', hpart', hle⟩
    · rw [hpart']
      exact id
    · rw [hpart']
      exact not_inBounds_of_reach (Nat.lt_of_lt_of_le hreach hle)
  · rw [hpart]
    dsimp only
    rcases fmtPart_spec (by omega) hpre.2 hw with
      ⟨hover, hnone⟩ | ⟨hcut, hlt, b'', hpart', hw'⟩ | ⟨hexact, hlt, b'', hpart', hreach⟩ |
      ⟨hfits', hlt, b'', hpart', hw'⟩
    · refine ⟨fun h => absurd h ?_, fun h => ?_⟩
      · generalize fmtPart n (0 + evt.version.length + 1) b' evt.logType = r at hnone ⊢
        obtain ⟨tail, b''⟩ := r
        rw [show tail = .overflow from hnone]
        exact id
      · have hlt := (h.1 hpre).2.2
        omega
    · rw [hpart']
      refine ⟨fun _ => ⟨fun _ => ⟨by omega, by omega, by omega⟩, inRange_full _ (by omega)⟩,
        fun _ => inBounds_of_stop hn hw'⟩
    · refine ⟨fun h => absurd h ?_, fun h => ?_⟩
      · rw [hpart']
        dsimp only
        rw [fmtLoop_full _ (Nat.le_succ n)]
        exact not_inBounds_of_reach hreach
      · have hne := (h.1 hpre).2.1
        omega
    · rw [hpart']
      dsimp only
      rw [Nat.zero_add] at hw' ⊢
      rw [inBounds_of_renders hn (fmtLoop_spec hint hw')]
      exact ⟨fun h => ⟨fun _ => ⟨by omega, by omega, fun _ => by omega⟩, h⟩, fun h => h.2⟩

/-- A format whose texts all end before the largest `int` behind the buffer is in range. -/
theorem inRange_of_le {is : List Item}
    (h : ∀ i ∈ is, n + (itemText env lay evt i).length ≤ 2 ^ 31) : InRange env lay evt n ptr is := by
  induction is generalizing ptr with
  | nil => trivial
  | cons i is ih =>
      rw [List.forall_mem_cons] at h
      refine fun hptr => ⟨fun hover => ?_, ih h.2⟩
      have hlen := h.1
      cases i with
      | lit c => exact hover
      | spec s =>
          cases s with
          | ndc =>
              obtain ⟨us, u, vs, hts, hlt, hle⟩ := hover
              have htext : itemText env lay evt (.spec .ndc) = (us ++ u :: vs).flatten := by
                rw [← hts]
                rfl
              rw [htext, List.flatten_append, List.flatten_cons, List.length_append,
                List.length_append] at hlen
              omega
          | customTime => exact hover
          | host => exact hover
          | message => exact hover
          | _ =>
              rw [itemText] at hlen
              unfold Overflows at hover
              omega

/-- **Which events stay in their buffer**: those whose prefix, if there is one, does not fill it exactly,
as long as no addition overflows. -/
theorem format_inBounds_iff (env : Env) (lay : Layout) (evt : Event) (cells : Mem UInt8)
    (h : 2 ≤ evt.bufsiz) :
    (lay.format env evt ⟨cells, 0⟩).InBounds evt.bufsiz ↔
      PrefixFits evt evt.bufsiz ∧
        InRange env lay evt evt.bufsiz (prefixLength evt) (items lay.pattern) := by
  have hint : evt.bufsiz < 2 ^ 31 := by
    have := evt.renderMsgbufSize.toInt_lt
    unfold Event.bufsiz
    omega
  rw [format_eq h]
  exact fmtText_inBounds h hint rfl

/-- The process of the examples: no texts but those of the event. -/
def quiet : Env := ⟨fun _ => [], [], [], fun _ => ⟨0, 0, 0, 0, 0⟩, fun _ _ => [], fun _ => []⟩

/-- An event of version 5 and type `abcdefg`, in a buffer of 9 bytes: the space behind the type is the
tenth byte. -/
theorem format_inBounds_exact : ¬ ∀ (env : Env) (lay : Layout) (evt : Event) (cells : Mem UInt8),
    2 ≤ evt.bufsiz → (lay.format env evt ⟨cells, 0⟩).InBounds evt.bufsiz := by
  intro hclaim
  have hline := hclaim quiet ⟨ascii "%R", []⟩
    ⟨16, 5, ascii "abcdefg", ⟨0, 0⟩, [], 1, [], ascii "m", 9⟩ (fun _ => 0) (by decide)
  have hreach : ¬ (10 : ℕ) ≤ 9 := by decide
  exact hreach hline

/-- A version and a type that leave room for the message. -/
theorem format_inBounds_short :
    (Layout.format quiet ⟨ascii "%R", []⟩
      ⟨16, 5, ascii "abc", ⟨0, 0⟩, [], 1, [], ascii "m", 9⟩ ⟨fun _ => 0, 0⟩).InBounds 9 := by
  refine (format_inBounds_iff quiet ⟨ascii "%R", []⟩
    ⟨16, 5, ascii "abc", ⟨0, 0⟩, [], 1, [], ascii "m", 9⟩ (fun _ => 0) (by decide)).mpr ⟨?_, ?_⟩
  · exact fun _ => by decide
  · exact inRange_of_le (by decide)

/-! ## The beginning of the expansion -/

/-- A dropped item has a text that reaches the end of the buffer. -/
theorem length_of_dropped {i : Item} (h : Dropped env lay evt n ptr i) :
    n - ptr ≤ (itemText env lay evt i).length := by
  cases i with
  | lit c => exact absurd h id
  | spec s =>
      cases s with
      | ndc =>
          obtain ⟨us, vs, hts, -, hlen⟩ := h
          have htext : itemText env lay evt (.spec .ndc) = (us ++ vs).flatten := by
            rw [← hts]
            rfl
          rw [htext, List.flatten_append, List.length_append]
          omega
      | customTime =>
          have hlen : n ≤ ptr + (itemText env lay evt (.spec .customTime)).length := h
          omega
      | _ => exact absurd h id

/-- An item that is not dropped moves the position behind its text, unless that is behind the room. -/
theorem place_of_not_dropped {i : Item} (h : ¬ Dropped env lay evt n ptr i)
    (hroom : ptr + (itemText env lay evt i).length + 2 ≤ n) :
    place env lay evt n ptr i = ptr + (itemText env lay evt i).length := by
  have hkept : keptText env lay evt n ptr i = itemText env lay evt i := if_neg h
  have hmin : min (ptr + (itemText env lay evt i).length) (n - 1) =
      ptr + (itemText env lay evt i).length := by omega
  unfold place
  dsimp only
  rw [hkept]
  split
  · exact hmin
  · exact hmin
  · exact hmin
  · rfl

/-- What is kept begins like the expansion if, behind the first item that is dropped, the same bytes
happen to follow. -/
theorem kept_take_iff {is : List Item} :
    (kept env lay evt n ptr is).take (n - 2 - ptr) = (expand env lay evt is).take (n - 2 - ptr) ↔
      ∀ us i vs, is = us ++ i :: vs → ptr + (expand env lay evt us).length + 2 < n →
        Dropped env lay evt n (ptr + (expand env lay evt us).length) i →
        (itemText env lay evt i).take (n - 2 - (ptr + (expand env lay evt us).length)) =
          (kept env lay evt n (ptr + (expand env lay evt us).length) vs).take
            (n - 2 - (ptr + (expand env lay evt us).length)) := by
  induction is generalizing ptr with
  | nil =>
      refine ⟨fun _ us i vs his => ?_, fun _ => rfl⟩
      exact absurd his.symm (List.append_ne_nil_of_right_ne_nil us (List.cons_ne_nil i vs))
  | cons i is ih =>
      have hexpand : ∀ us, expand env lay evt (i :: us) = itemText env lay evt i ++ expand env lay evt us :=
        fun us => List.flatMap_cons
      rcases Nat.lt_or_ge (ptr + 2) n with hroom | hfull
      swap
      · have hzero : n - 2 - ptr = 0 := by omega
        rw [hzero, List.take_zero, List.take_zero]
        refine ⟨fun _ us i vs _ hlt => ?_, fun _ => rfl⟩
        omega
      by_cases hdrop : Dropped env lay evt n ptr i
      · -- nothing else can be dropped in the room
        have hlen := length_of_dropped hdrop
        have hkept : keptText env lay evt n ptr i = [] := if_pos hdrop
        have hplace : place env lay evt n ptr i = ptr := by
          unfold place
          dsimp only
          rw [hkept, List.length_nil, Nat.add_zero]
          split
          · omega
          · omega
          · omega
          · rfl
        rw [kept, hplace, hkept, List.nil_append, hexpand, List.take_append_of_le_length (by omega)]
        constructor
        · intro heq us i' vs his hlt _
          cases us with
          | nil =>
              obtain ⟨rfl, rfl⟩ := List.cons.inj his
              exact heq.symm
          | cons u us =>
              obtain ⟨rfl, -⟩ := List.cons.inj his
              rw [hexpand, List.length_append] at hlt
              omega
        · exact fun h => (h [] i is rfl hroom hdrop).symm
      · have hkept : keptText env lay evt n ptr i = itemText env lay evt i := if_neg hdrop
        rw [kept, hkept, hexpand]
        by_cases hfit : ptr + (itemText env lay evt i).length + 2 ≤ n
        · rw [place_of_not_dropped hdrop hfit, List.take_append, List.take_append,
            List.append_right_inj]
          have hrest : n - 2 - ptr - (itemText env lay evt i).length =
              n - 2 - (ptr + (itemText env lay evt i).length) := by omega
          rw [hrest, ih]
          constructor
          · intro h us i' vs his hlt hdrop'
            cases us with
            | nil =>
                obtain ⟨rfl, -⟩ := List.cons.inj his
                exact absurd hdrop' hdrop
            | cons u us =>
                obtain ⟨rfl, hrest⟩ := List.cons.inj his
                rw [hexpand, List.length_append, ← Nat.add_assoc] at hlt hdrop' ⊢
                exact h us i' vs hrest hlt hdrop'
          · intro h us i' vs his hlt hdrop'
            have hus := h (i :: us) i' vs (by rw [his, List.cons_append])
            rw [hexpand, List.length_append, ← Nat.add_assoc] at hus
            exact hus hlt hdrop'
        · rw [List.take_append_of_le_length (by omega), List.take_append_of_le_length (by omega)]
          refine ⟨fun _ us i' vs his hlt hdrop' => ?_, fun _ => rfl⟩
          cases us with
          | nil =>
              obtain ⟨rfl, -⟩ := List.cons.inj his
              exact absurd hdrop' hdrop
          | cons u us =>
              obtain ⟨rfl, -⟩ := List.cons.inj his
              rw [hexpand, List.length_append] at hlt
              omega

/-- **Which lines begin like the expansion of the pattern**: those whose pairs are not given up in the
room, as long as no addition overflows. -/
theorem format_line_iff (env : Env) (lay : Layout) (evt : Event) (cells : Mem UInt8)
    (h : 2 ≤ evt.bufsiz) (hpre : ¬ evt.hasPrefix) :
    (lay.format env evt ⟨cells, 0⟩).text =
        some ((expand env lay evt (items lay.pattern)).take (evt.bufsiz - 2) ++ [10]) ↔
      InRange env lay evt evt.bufsiz 0 (items lay.pattern) ∧
        ∀ us i vs, items lay.pattern = us ++ i :: vs →
          (expand env lay evt us).length + 2 < evt.bufsiz →
          Dropped env lay evt evt.bufsiz (expand env lay evt us).length i →
          (itemText env lay evt i).take (evt.bufsiz - 2 - (expand env lay evt us).length) =
            (kept env lay evt evt.bufsiz (expand env lay evt us).length vs).take
              (evt.bufsiz - 2 - (expand env lay evt us).length) := by
  have hint : evt.bufsiz < 2 ^ 31 := by
    have := evt.renderMsgbufSize.toInt_lt
    unfold Event.bufsiz
    omega
  have hstart : Writing ⟨cells, 0⟩ evt.bufsiz 0 [] := ⟨shows_nil (Nat.zero_le _), Or.inl rfl⟩
  have hkept := @kept_take_iff env lay evt evt.bufsiz 0 (items lay.pattern)
  simp only [Nat.zero_add, Nat.sub_zero] at hkept
  rw [format_eq h, ← hkept]
  unfold fmtText
  rw [if_neg hpre]
  rcases fmtLoop_spec hint hstart with ⟨hrange, hnone⟩ | ⟨hrange, ptr', b', hsome, hw⟩
  · rw [hnone]
    exact ⟨nofun, fun h => absurd h.1 hrange⟩
  · obtain ⟨len, b'', hline, -, hread⟩ := fmtLine_spec h hw
    rw [hsome]
    unfold lineOfText
    dsimp only
    rw [hline, Formatted.text, hread, Option.some_inj, List.append_left_inj, List.nil_append]
    exact ⟨fun h => ⟨hrange, h⟩, fun h => h.2⟩

/-- The pair `abcdefg:h,` fills a buffer of 9 bytes before its comma: nothing is left of it. -/
theorem format_line_dropped : ¬ ∀ (env : Env) (lay : Layout) (evt : Event) (cells : Mem UInt8),
    2 ≤ evt.bufsiz → ¬ evt.hasPrefix →
    (∀ s, Item.spec s ∈ items lay.pattern →
      s ∈ [Spec.level, .thread, .millis, .process, .ndc, .message]) →
    (lay.format env evt ⟨cells, 0⟩).text =
      some ((expand env lay evt (items lay.pattern)).take (evt.bufsiz - 2) ++ [10]) := by
  intro hclaim
  have hline := hclaim quiet ⟨ascii "%N", ascii "%K:%V,"⟩
    ⟨16, -1, [], ⟨0, 0⟩, [], 1, [(ascii "abcdefg", ascii "h")], [], 9⟩ (fun _ => 0)
    (by decide) (by decide) ?_
  · exact absurd hline (by decide +kernel)
  · intro s hs
    have hpattern : items (ascii "%N") = [.spec .ndc] := by decide
    rw [hpattern, List.mem_singleton] at hs
    rw [Item.spec.inj hs]
    decide

/-- A pair and a message that is cut. -/
theorem format_line_cut :
    (Layout.format quiet ⟨ascii "%N%R", ascii "%K:%V,"⟩
      ⟨16, -1, [], ⟨0, 0⟩, [], 1, [(ascii "a", ascii "b")], ascii "message", 9⟩
      ⟨fun _ => 0, 0⟩).text = some (ascii "a:b,mes" ++ [10]) := by
  have hline := (format_line_iff quiet ⟨ascii "%N%R", ascii "%K:%V,"⟩
    ⟨16, -1, [], ⟨0, 0⟩, [], 1, [(ascii "a", ascii "b")], ascii "message", 9⟩ (fun _ => 0)
    (by decide) (by decide)).mpr ⟨inRange_of_le (by decide +kernel), fun us i vs his hlt hdrop => ?_⟩
  · exact hline.trans (by decide +kernel)
  have hitems : items (ascii "%N%R") = [.spec .ndc, .spec .message] := by decide
  rw [hitems] at his
  cases us with
  | nil =>
      -- the pair has 4 bytes, and the room more
      obtain ⟨rfl, -⟩ := List.cons.inj his
      exact absurd (length_of_dropped hdrop) (by decide +kernel)
  | cons u us =>
      cases us with
      | nil =>
          obtain ⟨rfl, -⟩ := List.cons.inj (List.cons.inj his).2
          exact absurd hdrop id
      | cons u' us =>
          have hlength := congrArg List.length his
          simp at hlength

end Asenal.Comlog
