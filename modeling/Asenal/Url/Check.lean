import Asenal.Url.Host
import Asenal.Url.Parse
import Asenal.Url.SinglePath

/-!
# Checking URLs

`ul_check_url` and its copies check a URL and clean it in place: the host is put into small letters,
a default port and escapes in the host are taken out, and blanks are escaped. The first function
differs from its copies in two places: it does not write the terminator behind a host without a
path, and it does not copy a default port that is then written over.

* `checkPath_eq` — without blanks the limits do not matter.
* `hostRun_took` — what the host leaves behind.
* `ulCheckUrl_eq_iff` — when the two leave the same string.
-/

namespace Asenal.Url

open Asenal.Lib.Text Asenal.Lib.CString Asenal.Lib.Segments

/-! ## The checks -/

/-- A `memcpy` into the URL. -/
def overwrite (mem : Bytes) (pos : ℕ) (s : Bytes) : Bytes :=
  mem.take pos ++ s ++ mem.drop (pos + s.length)

/-- The string from the host on, when a run has come so far. -/
def Run.text (r : Run) : Bytes := r.out ++ r.mem.drop r.out.length ++ r.rest

/-- The path, which is copied to `pout`: the verdict, and the string that is left. The string in front
of the host is `front`, and `mem` is the rest of it. -/
def checkPath (lim : Limits) (len : ℕ) (front mem : Bytes) (pout : ℕ) (pin : Bytes) :
    Bool × Bytes :=
  let r := copyScanner.scanPath pin
  let mem := overwrite mem pout r.1
  if r.2 ≠ [] then (false, front ++ mem)
  else
    let url := front ++ mem.take (pout + r.1.length)
    if len < url.length then (false, url)
    else if 32 ∈ r.1 then
      match ulSpaceEscape url lim with
      | some tmp => (true, tmp)
      | none => (false, url)
    else (true, url)

/-- What `ul_check_url` does behind a host that it accepts. -/
def checkBehind (len : ℕ) (front : Bytes) (r : Run) : Bool × Bytes :=
  let pout := r.out.length
  if r.rest.head? = some 58 then
    let pin := r.rest.tail
    if pin.head? = some 47 then checkPath limits len front r.text pout pin
    else
      let port := pin.takeWhile isDigit
      let pin := pin.dropWhile isDigit
      if 5 < port.length ∨ pin.head? ≠ some 47 then (false, front ++ r.text)
      else if port ≠ ascii "80" then
        checkPath limits len front (overwrite r.text pout (58 :: port)) (pout + port.length + 1) pin
      else checkPath limits len front r.text pout pin
  else if r.rest.head? = some 47 then checkPath limits len front r.text pout r.rest
  else if r.rest ≠ [] then (false, front ++ r.text)
  -- no terminator is written
  else (true, front ++ r.text)

/-- The verdict, and the string that is left. Source: `ul_url.cpp` `ul_check_url`. -/
def ulCheckUrl (url : Bytes) : Bool × Bytes :=
  let url := ulDeleteInter url
  let front := url.take (schemeLength url)
  let r := hostRun (url.drop (schemeLength url))
  if r.ok then checkBehind url.length front r else (false, front ++ r.text)

/-- What the copies of `ul_check_url` do behind a host that they accept. -/
def checkBehindEx (lim : Limits) (len : ℕ) (front : Bytes) (r : Run) : Bool × Bytes :=
  let pout := r.out.length
  if r.rest.head? = some 58 then
    let pin := r.rest.tail
    if pin.head? = some 47 then checkPath lim len front r.text pout pin
    else
      let port := pin.takeWhile isDigit
      let pin := pin.dropWhile isDigit
      if 5 < port.length ∨ pin.head? ≠ some 47 then (false, front ++ r.text)
      else
        -- a default port is copied, too, but the path is written over it
        let mem := overwrite r.text pout (58 :: port)
        if port ≠ ascii "80" then checkPath lim len front mem (pout + port.length + 1) pin
        else checkPath lim len front mem pout pin
  else if r.rest.head? = some 47 then checkPath lim len front r.text pout r.rest
  else if r.rest ≠ [] then (false, front ++ r.text)
  else (true, front ++ r.out)

/-- The copies of `ul_check_url`. -/
def checkUrl (lim : Limits) (url : Bytes) : Bool × Bytes :=
  let url := ulDeleteInter url
  let front := url.take (schemeLength url)
  let r := hostRun (url.drop (schemeLength url))
  if r.ok then checkBehindEx lim url.length front r else (false, front ++ r.text)

/-- Source: `ul_url.cpp` `ul_check_url_ex`. -/
def ulCheckUrlEx (url : Bytes) : Bool × Bytes := checkUrl limitsEx url

/-- Source: `ul_url.cpp` `ul_check_url_ex2`. -/
def ulCheckUrlEx2 (url : Bytes) : Bool × Bytes := checkUrl limitsEx2 url

/-! ## What the host leaves behind -/

/-- A host with small letters, and with the last digit of each escape replaced by its character. -/
def editHost : Bytes → Bytes
  | [] => []
  | b :: s =>
      if b = 37 then
        match s with
        | h₁ :: h₂ :: s' => 37 :: h₁ :: toLower (ulToChar h₁ h₂) :: editHost s'
        | s => 37 :: s
      else toLower b :: editHost s

/-- The host of a URL. -/
def urlHost (url : Bytes) : Bytes := (stripUrl url).takeWhile hostChar

/-- What stands behind the host of a URL. -/
def afterHost (url : Bytes) : Bytes := (stripUrl url).dropWhile hostChar

/-- How long the host is when its escapes are taken out. -/
def shortLength (host : Bytes) : ℕ := host.length - 2 * host.count 37

/-- A part of a URL that has been read: it belongs to the host, it is left edited, and what is
written of it has two bytes less for each escape. -/
structure Took (c s : Bytes) (r : Run) : Prop where
  split : s = c ++ r.rest
  char : ∀ b ∈ c, hostChar b = true
  edit : ∀ d, editHost (c ++ d) = r.mem ++ editHost d
  length : r.mem.length = c.length
  short : r.out.length + 2 * c.count 37 = c.length

/-- One part behind another. -/
theorem Took.push {c c' s s' out mem : Bytes} {r : Run} {ok : Bool}
    (h : Took c' s' ⟨ok, out, mem, s⟩) (h' : Took c s r) : Took (c' ++ c) s' (r.push out mem) where
  split := by
    have hs := h.split
    dsimp only at hs
    rw [hs, h'.split, Run.push, List.append_assoc]
  char := by
    intro b hb
    exact (List.mem_append.mp hb).elim (h.char b) (h'.char b)
  edit d := by rw [List.append_assoc, h.edit, h'.edit, Run.push, List.append_assoc]
  length := by rw [Run.push, List.length_append, List.length_append, h.length, h'.length]
  short := by
    have h₁ := h.short
    have h₂ := h'.short
    simp only [Run.push, List.length_append, List.count_append] at h₁ ⊢
    omega

/-- Nothing has been read. -/
theorem Took.nil (ok : Bool) (s : Bytes) : Took [] s ⟨ok, [], [], s⟩ :=
  ⟨rfl, by simp, fun _ => rfl, rfl, rfl⟩

/-- A character has been read that is no `%`. -/
theorem Took.single (ok : Bool) {b : UInt8} (hb : hostChar b = true) (hne : b ≠ 37) (s : Bytes) :
    Took [b] (b :: s) ⟨ok, [toLower b], [toLower b], s⟩ where
  split := rfl
  char := by simpa using hb
  edit d := by rcases d with _ | ⟨h₁, _ | ⟨h₂, d⟩⟩ <;> simp [editHost, hne]
  length := rfl
  short := by simp [hne]

/-- An escape has been read. -/
theorem Took.escape (ok : Bool) {h₁ h₂ : UInt8} (hc : letDigHy (ulToChar h₁ h₂) = true)
    (s : Bytes) : Took [37, h₁, h₂] (37 :: h₁ :: h₂ :: s)
      ⟨ok, [toLower (ulToChar h₁ h₂)], [37, h₁, toLower (ulToChar h₁ h₂)], s⟩ := by
  have hne : ulToChar h₁ h₂ ≠ 0 := by
    intro h
    rw [h] at hc
    exact absurd hc (by decide)
  have hletter := letDigit_of_ulToChar hne
  have hdigit : ∀ b, letDigit b = true → hostChar b = true ∧ b ≠ 37 := by
    intro b hb
    refine ⟨by simp [hostChar, letDigHy, hb], ?_⟩
    rintro rfl
    exact absurd hb (by decide)
  obtain ⟨hchar₁, hne₁⟩ := hdigit h₁ hletter.1
  obtain ⟨hchar₂, hne₂⟩ := hdigit h₂ hletter.2
  refine ⟨rfl, ?_, fun d => by simp [editHost], rfl, by simp [hne₁, hne₂]⟩
  simp [hchar₁, hchar₂]
  rfl

/-- What a run over a label has read. -/
theorem LabelRan.took {s : Bytes} {r : Run} (h : LabelRan s r) : ∃ c, Took c s r := by
  induction h with
  | nil => exact ⟨[], .nil true []⟩
  | stop b s _ _ => exact ⟨[], .nil true (b :: s)⟩
  | char b s r hb _ ih =>
      obtain ⟨c, hc⟩ := ih
      have hne : b ≠ 37 := by
        rintro rfl
        exact absurd hb (by decide)
      exact ⟨_, (Took.single true (by simp [hostChar, hb]) hne s).push hc⟩
  | escape h₁ h₂ s r hchar _ ih =>
      obtain ⟨c, hc⟩ := ih
      exact ⟨_, (Took.escape true hchar s).push hc⟩

/-- What a run over the other labels has read. -/
theorem LabelsRan.took {s : Bytes} {r : Run} (h : LabelsRan s r) : ∃ c, Took c s r := by
  induction h with
  | stop s _ => exact ⟨[], .nil true s⟩
  | label s r t hr _ _ ih =>
      obtain ⟨c, hc⟩ := hr.took
      obtain ⟨c', hc'⟩ := ih
      have hdot : Took ([46] ++ c) (46 :: s) ⟨r.ok, 46 :: r.out, 46 :: r.mem, r.rest⟩ :=
        (Took.single true rfl (by decide) s).push hc
      exact ⟨_, hdot.push hc'⟩

/-- **What the host leaves behind.** -/
theorem hostRun_took {s : Bytes} (h : (hostRun s).ok = true) :
    Took (s.takeWhile hostChar) s (hostRun s) ∧ (hostRun s).rest = s.dropWhile hostChar := by
  obtain ⟨first, others, hfirst, -, -, hothers, heq⟩ := hostRun_ok_iff.mp h
  obtain ⟨c, hc⟩ := hfirst.took
  obtain ⟨c', hc'⟩ := hothers.took
  have hfirst' : Took c s ⟨first.ok, first.out, first.mem, first.rest⟩ := hc
  have htook := hfirst'.push hc'
  rw [← heq] at htook
  have hstop := (hostRun_out h).2
  have htake : (c ++ c' ++ (hostRun s).rest).takeWhile hostChar = c ++ c' := by
    rw [List.takeWhile_append_of_pos htook.char]
    cases hrest : (hostRun s).rest with
    | nil => simp
    | cons b t => simp [hstop b (by rw [hrest]; rfl)]
  have hdrop : (c ++ c' ++ (hostRun s).rest).dropWhile hostChar = (hostRun s).rest := by
    rw [List.dropWhile_append_of_pos htook.char]
    cases hrest : (hostRun s).rest with
    | nil => simp
    | cons b t => simp [hstop b (by rw [hrest]; rfl)]
  rw [← htook.split] at htake hdrop
  rw [htake, hdrop]
  exact ⟨htook, rfl⟩

/-! ## When the two leave the same string -/

/-- Without blanks the limits do not matter. -/
theorem checkPath_eq (lim lim' : Limits) {pin : Bytes} (h : 32 ∉ pin) (len : ℕ)
    (front mem : Bytes) (pout : ℕ) :
    checkPath lim len front mem pout pin = checkPath lim' len front mem pout pin := by
  have hblank : 32 ∉ pin.takeWhile uchRes := fun hmem => h ((List.takeWhile_sublist _).subset hmem)
  unfold checkPath
  rw [scanPath_copy]
  simp only [if_neg hblank]

/-- What is in front of a copy stays. -/
theorem take_overwrite {mem : Bytes} {pos : ℕ} (h : pos ≤ mem.length) (s : Bytes) :
    (overwrite mem pos s).take (pos + s.length) = mem.take pos ++ s := by
  have hlen : (mem.take pos ++ s).length = pos + s.length := by
    rw [List.length_append, List.length_take, Nat.min_eq_left h]
  rw [overwrite, List.take_left' hlen]

theorem take_overwrite_before {mem : Bytes} {pos : ℕ} (h : pos ≤ mem.length) (s : Bytes) :
    (overwrite mem pos s).take pos = mem.take pos := by
  have hlen : (mem.take pos).length = pos := by rw [List.length_take, Nat.min_eq_left h]
  rw [overwrite, List.append_assoc, List.take_left' hlen]

/-- A copy that is written over shows only where it is longer and differs from what was there. -/
theorem overwrite_overwrite_iff {mem : Bytes} {pos : ℕ} {p : Bytes}
    (h : pos + p.length ≤ mem.length) (s : Bytes) :
    overwrite mem pos s = overwrite (overwrite mem pos p) pos s ↔
      (mem.drop (pos + s.length)).take (p.length - s.length) = p.drop s.length := by
  have hpos : (mem.take pos).length = pos := by rw [List.length_take]; omega
  have hbehind : (overwrite mem pos p).drop (pos + s.length) =
      p.drop s.length ++ (mem.drop (pos + p.length)).drop (s.length - p.length) := by
    rw [← List.drop_drop, overwrite, List.append_assoc, List.drop_left' hpos, List.drop_append]
  have hmem : mem.drop (pos + s.length) =
      (mem.drop (pos + s.length)).take (p.length - s.length) ++
        (mem.drop (pos + p.length)).drop (s.length - p.length) := by
    have hsplit := List.take_append_drop p.length (mem.drop pos)
    have hlen : ((mem.drop pos).take p.length).length = p.length := by
      rw [List.length_take, List.length_drop]
      omega
    calc mem.drop (pos + s.length)
        = ((mem.drop pos).take p.length ++ (mem.drop pos).drop p.length).drop s.length := by
          rw [hsplit, List.drop_drop]
      _ = _ := by
          simp only [List.drop_append, List.drop_take, List.drop_drop, hlen, Nat.add_assoc]
  have htake := take_overwrite_before (show pos ≤ mem.length by omega) p
  conv_lhs => rw [overwrite, overwrite, htake, hbehind, List.append_cancel_left_eq, hmem]
  rw [List.append_left_inj]

/-- What a default port that is copied does to the string. -/
theorem checkPath_default {mem pin : Bytes} {pout : ℕ} (h : 32 ∉ pin)
    (hlen : pout + 3 ≤ mem.length) (lim lim' : Limits) (len : ℕ) (front : Bytes) :
    (checkPath lim len front mem pout pin).1 =
        (checkPath lim' len front (overwrite mem pout (ascii ":80")) pout pin).1 ∧
      (checkPath lim len front mem pout pin =
          checkPath lim' len front (overwrite mem pout (ascii ":80")) pout pin ↔
        (pin.dropWhile uchRes ≠ [] →
          (mem.drop (pout + (pin.takeWhile uchRes).length)).take
              (3 - (pin.takeWhile uchRes).length) =
            (ascii ":80").drop (pin.takeWhile uchRes).length)) := by
  rw [checkPath_eq lim' lim h]
  have hblank : 32 ∉ pin.takeWhile uchRes := fun hmem => h ((List.takeWhile_sublist _).subset hmem)
  have hlen' : pout ≤ (overwrite mem pout (ascii ":80")).length := by
    have h80 : (ascii ":80").length = 3 := rfl
    simp only [overwrite, List.length_append, List.length_take, List.length_drop, h80]
    omega
  have htake := take_overwrite_before (show pout ≤ mem.length by omega) (ascii ":80")
  unfold checkPath
  rw [scanPath_copy]
  dsimp only
  by_cases hrest : pin.dropWhile uchRes = []
  · simp only [hrest, ne_eq, not_true_eq_false, if_false]
    rw [take_overwrite (by omega), take_overwrite hlen', htake]
    exact ⟨rfl, iff_of_true rfl fun h => h.elim⟩
  · rw [if_pos hrest, if_pos hrest]
    refine ⟨rfl, ?_⟩
    have hiff := overwrite_overwrite_iff (p := ascii ":80") hlen (pin.takeWhile uchRes)
    rw [Prod.mk.injEq, List.append_cancel_left_eq, hiff]
    simp [hrest]
    rfl

/-- The two functions leave the same string behind a host `host` that they accept, with `rest` behind
it: the host stands alone and has no escape; or, in front of a default port and a path that ends in
a character it must not have, what stands behind the shortened host agrees with `:80` where the path
has not been written over it. -/
def SameBehind (host rest : Bytes) : Prop :=
  (rest = [] → 37 ∉ host) ∧
    ∀ path, rest = ascii ":80" ++ path → path.head? = some 47 → path.dropWhile uchRes ≠ [] →
      let m := (path.takeWhile uchRes).length
      ((editHost host ++ rest).drop (shortLength host + m)).take (3 - m) = (ascii ":80").drop m

/-- The functions leave the same string. -/
def SameString (url : Bytes) : Prop :=
  (hostRun (stripUrl url)).ok = true → SameBehind (urlHost url) (afterHost url)

/-- The lengths and the text of a host that has been accepted. -/
theorem Took.text_drop {c s : Bytes} {r : Run} (h : Took c s r) :
    r.out.length = shortLength c ∧ r.mem = editHost c ∧
      ∀ m, r.text.drop (r.out.length + m) = (r.mem ++ r.rest).drop (r.out.length + m) := by
  have hedit := h.edit []
  have hshort := h.short
  have hlen := h.length
  rw [List.append_nil, editHost, List.append_nil] at hedit
  refine ⟨by unfold shortLength; omega, hedit.symm, fun m => ?_⟩
  have htext : r.text.drop r.out.length = (r.mem ++ r.rest).drop r.out.length := by
    rw [Run.text, List.append_assoc, List.drop_left, List.drop_append_of_le_length (by omega)]
  calc r.text.drop (r.out.length + m) = (r.text.drop r.out.length).drop m := by rw [List.drop_drop]
    _ = (r.mem ++ r.rest).drop (r.out.length + m) := by rw [htext, List.drop_drop]

/-- The condition holds where no default port stands behind the host. -/
theorem sameBehind_of_port {host rest : Bytes} (hne : rest ≠ [])
    (h : ∀ path, rest = ascii ":80" ++ path → path.head? ≠ some 47) : SameBehind host rest :=
  ⟨fun hnil => absurd hnil hne, fun path hpath hhead => absurd hhead (h path hpath)⟩

/-- When the two agree behind a host that they accept. -/
theorem checkBehind_eq_iff {c s : Bytes} {r : Run} (htook : Took c s r) (hblank : 32 ∉ r.rest)
    (lim : Limits) (len : ℕ) (front : Bytes) :
    (checkBehind len front r).1 = (checkBehindEx lim len front r).1 ∧
      (checkBehind len front r = checkBehindEx lim len front r ↔ SameBehind c r.rest) := by
  obtain ⟨hout, hmem, hdrop⟩ := htook.text_drop
  have hlen := htook.length
  have hshort := htook.short
  have hsame : ∀ a b : Bool × Bytes, a = b → SameBehind c r.rest →
      a.1 = b.1 ∧ (a = b ↔ SameBehind c r.rest) := by
    rintro a _ rfl hS
    exact ⟨rfl, iff_of_true rfl hS⟩
  unfold checkBehind checkBehindEx
  dsimp only
  by_cases hcolon : r.rest.head? = some 58
  · obtain ⟨pin, hrest⟩ := List.head?_eq_some_iff.mp hcolon
    have hne : r.rest ≠ [] := by rw [hrest]; exact List.cons_ne_nil _ _
    rw [hrest] at hblank
    have hpin : 32 ∉ pin := fun hmem => hblank (List.mem_cons_of_mem _ hmem)
    have hport : ∀ path, r.rest = ascii ":80" ++ path → pin = ascii "80" ++ path := by
      intro path hpath
      rw [hrest] at hpath
      exact (List.cons.inj hpath).2
    rw [if_pos hcolon, if_pos hcolon, hrest, List.tail_cons]
    rw [hrest] at hsame hne hport
    by_cases hslash : pin.head? = some 47
    · rw [if_pos hslash, if_pos hslash]
      refine hsame _ _ (checkPath_eq limits lim hpin len front r.text _) (sameBehind_of_port hne ?_)
      intro path hpath hhead
      have hhead : (ascii "80" ++ path).head? = some 56 := rfl
      rw [hport path hpath, hhead] at hslash
      exact absurd hslash (by decide)
    rw [if_neg hslash, if_neg hslash]
    have hnext : 32 ∉ pin.dropWhile isDigit :=
      fun hmem => hpin ((List.dropWhile_sublist _).subset hmem)
    -- a default port has two digits and a path behind it
    have hdefault : ∀ path, 58 :: pin = ascii ":80" ++ path → path.head? = some 47 →
        pin.takeWhile isDigit = ascii "80" ∧ pin.dropWhile isDigit = path := by
      intro path hpath hhead
      obtain ⟨p, rfl⟩ := List.head?_eq_some_iff.mp hhead
      rw [hport _ hpath]
      exact ⟨rfl, rfl⟩
    by_cases hbad : 5 < (pin.takeWhile isDigit).length ∨ (pin.dropWhile isDigit).head? ≠ some 47
    · rw [if_pos hbad, if_pos hbad]
      refine hsame _ _ rfl (sameBehind_of_port hne ?_)
      intro path hpath hhead
      obtain ⟨htake, hdrop⟩ := hdefault path hpath hhead
      rw [htake, hdrop] at hbad
      exact hbad.elim (fun h => absurd h (by decide)) (fun h => h hhead)
    rw [if_neg hbad, if_neg hbad]
    rw [not_or, not_not] at hbad
    by_cases h80 : pin.takeWhile isDigit = ascii "80"
    · rw [if_neg (not_not.mpr h80), if_neg (not_not.mpr h80), h80]
      have hpath : 58 :: pin = ascii ":80" ++ pin.dropWhile isDigit := by
        conv_lhs => rw [← List.takeWhile_append_dropWhile (p := isDigit) (l := pin), h80]
        rfl
      have htext : r.out.length + 3 ≤ r.text.length := by
        rw [Run.text, hrest, hpath]
        simp only [List.length_append, List.length_drop]
        have h80 : (ascii ":80").length = 3 := rfl
        omega
      have hdef := checkPath_default hnext htext limits lim len front
      refine ⟨hdef.1, hdef.2.trans ?_⟩
      rw [hdrop, hrest, hmem, hout]
      constructor
      · intro h
        refine ⟨fun hnil => absurd hnil (List.cons_ne_nil _ _), fun path hpath' hhead hcut => ?_⟩
        rw [← (hdefault path hpath' hhead).2] at hcut ⊢
        exact h hcut
      · intro h hcut
        exact h.2 _ hpath hbad.2 hcut
    · rw [if_pos h80, if_pos h80]
      refine hsame _ _ (checkPath_eq limits lim hnext len front _ _) (sameBehind_of_port hne ?_)
      intro path hpath hhead
      exact h80 (hdefault path hpath hhead).1
  · have hcolon' : ∀ path, r.rest ≠ ascii ":80" ++ path := by
      intro path hpath
      rw [hpath] at hcolon
      exact hcolon rfl
    rw [if_neg hcolon, if_neg hcolon]
    by_cases hslash : r.rest.head? = some 47
    · rw [if_pos hslash, if_pos hslash]
      refine hsame _ _ (checkPath_eq limits lim hblank len front _ _) (sameBehind_of_port ?_ ?_)
      · rintro h
        rw [h] at hslash
        cases hslash
      · exact fun path hpath => absurd hpath (hcolon' path)
    rw [if_neg hslash, if_neg hslash]
    by_cases hnil : r.rest = []
    · rw [if_neg (not_not.mpr hnil), if_neg (not_not.mpr hnil)]
      refine ⟨rfl, ?_⟩
      have htext : r.text = r.out ++ r.mem.drop r.out.length := by
        rw [Run.text, hnil, List.append_nil]
      have hescape : r.mem.drop r.out.length = [] ↔ 37 ∉ c := by
        rw [List.drop_eq_nil_iff, ← List.count_eq_zero]
        omega
      rw [htext, ← List.append_assoc, Prod.mk.injEq, List.append_right_eq_self, hescape]
      constructor
      · rintro ⟨-, h⟩
        exact ⟨fun _ => h, fun path hpath => absurd hpath (hcolon' path)⟩
      · exact fun h => ⟨rfl, h.1 hnil⟩
    · rw [if_pos hnil, if_pos hnil]
      exact hsame _ _ rfl (sameBehind_of_port hnil fun path hpath => absurd hpath (hcolon' path))

/-- **When the two checks agree**, for URLs without blanks: their verdicts always do, and the strings
that they leave do exactly then. -/
theorem ulCheckUrl_eq_iff (url : Bytes) (h : 32 ∉ url) :
    (ulCheckUrl url).1 = (ulCheckUrlEx url).1 ∧
      (ulCheckUrl url = ulCheckUrlEx url ↔ SameString url) := by
  have hstrip : 32 ∉ stripUrl url := by
    intro hmem
    exact h (List.mem_filter.mp (List.mem_of_mem_drop hmem)).1
  have hfold : (ulDeleteInter url).drop (schemeLength (ulDeleteInter url)) = stripUrl url := rfl
  unfold ulCheckUrl ulCheckUrlEx checkUrl SameString
  dsimp only
  rw [hfold]
  by_cases hok : (hostRun (stripUrl url)).ok = true
  · obtain ⟨htook, hrest⟩ := hostRun_took hok
    have hblank : 32 ∉ (hostRun (stripUrl url)).rest := by
      rw [hrest]
      exact fun hmem => hstrip ((List.dropWhile_sublist _).subset hmem)
    have hbehind := checkBehind_eq_iff htook hblank limitsEx (ulDeleteInter url).length
      ((ulDeleteInter url).take (schemeLength (ulDeleteInter url)))
    rw [if_pos hok, if_pos hok]
    refine ⟨hbehind.1, hbehind.2.trans ?_⟩
    rw [hrest]
    exact ⟨fun h _ => h, fun h => h hok⟩
  · rw [if_neg hok, if_neg hok]
    exact ⟨rfl, iff_of_true rfl fun htrue => absurd htrue hok⟩

/-- A host that is shortened and has no path behind it keeps its end. -/
theorem ulCheckUrl_ne_ulCheckUrlEx :
    ¬ ∀ url : Bytes, url.length < limits.url → 32 ∉ url → ulCheckUrl url = ulCheckUrlEx url := by
  intro h
  have hbase : ulCheckUrl (ascii "%41.com") = (true, ascii "a.comom") := by decide +kernel
  have hex : ulCheckUrlEx (ascii "%41.com") = (true, ascii "a.com") := by decide +kernel
  have := h (ascii "%41.com") (by decide +kernel) (by decide +kernel)
  rw [hbase, hex] at this
  exact absurd this (by decide)

/-- A host with an escape, a default port and a path. -/
theorem ulCheckUrl_eq_iff_port :
    (ulCheckUrl (ascii "Www.%45x.com:80/a")).1 = (ulCheckUrlEx (ascii "Www.%45x.com:80/a")).1 ∧
      (ulCheckUrl (ascii "Www.%45x.com:80/a") = ulCheckUrlEx (ascii "Www.%45x.com:80/a") ↔
        SameString (ascii "Www.%45x.com:80/a")) :=
  ulCheckUrl_eq_iff (ascii "Www.%45x.com:80/a") (by decide +kernel)

end Asenal.Url
