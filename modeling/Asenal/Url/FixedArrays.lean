import Asenal.Lib.Trace
import Asenal.Url.Check

/-!
# The arrays of the functions for links

`ul_check_url_vhplink` and `ul_parse_url_vhplink` work on copies of the URL in arrays of 256 bytes. The first
copies it without a look at its length; the second turns away what is too long, but may put a `/` in front of
the query or the fragment, which makes the copy longer by one byte.

* `all_modifyUrl` — behind the copy, checking stays in the arrays.
* `checkUrlVhplink_inside_iff`, `parseUrlVhplink_inside_iff` — when each function does.
* `inside_iff` — when both do.
-/

namespace Asenal.Url

open Asenal.Lib.Text Asenal.Lib.CString Asenal.Lib.Trace

/-! ## Writes -/

/-- The arrays: those of `ul_check_url_vhplink` with its `port` and the one of `ul_space_escape`, the two of
`ul_parse_url_vhplink`, and the ones that are passed to it. -/
inductive Arr
  | tmpUrl
  | digits
  | urlTmp
  | tmp
  | tmp2
  | site
  | port
  | path
  | frag

/-- `UL_MAX_FRAG_LEN`. Source: `ul_url.h`. -/
def maxFragLen : ℕ := 203

/-- How long they are. -/
def Arr.size : Arr → ℕ
  | .tmpUrl | .tmp | .tmp2 => limits.url
  | .digits => 6
  | .urlTmp => limitsEx.url
  | .site => limits.site
  | .port => limits.port
  | .path => limits.path
  | .frag => maxFragLen

/-- A write of `len` bytes. -/
structure Write where
  arr : Arr
  pos : ℕ
  len : ℕ

/-- It stays in its array. -/
def Write.Inside (w : Write) : Prop := w.pos + w.len ≤ w.arr.size

instance (w : Write) : Decidable w.Inside := inferInstanceAs (Decidable (_ ≤ _))

/-- What a function writes, until it returns a value, or `0`. -/
abbrev Call (α : Type) := Traced Write Unit α

/-- `strcpy` to a position of an array. -/
def strcpy (a : Arr) (pos : ℕ) (s : Bytes) : Write := ⟨a, pos, s.length + 1⟩

/-- A loop that writes `n` bytes, one after the other. -/
def putBytes (a : Arr) (pos n : ℕ) : List Write := (List.range n).map fun i => ⟨a, pos + i, 1⟩

/-- The loop of `ul_delete_inter`. -/
def deleteLoop (a : Arr) (p₁ : ℕ) : Bytes → List Write
  | [] => [⟨a, p₁, 1⟩]
  | b :: s => if lfcr b then deleteLoop a p₁ s else ⟨a, p₁, 1⟩ :: deleteLoop a (p₁ + 1) s

/-- What `ul_delete_inter` writes: it begins at the first line end. -/
def deleteWrites (a : Arr) (str : Bytes) : List Write :=
  deleteLoop a (str.takeWhile fun b => !lfcr b).length (str.dropWhile fun b => !lfcr b)

/-! ## Checking -/

/-- What the loop over a label writes: a capital is replaced where it stands, and so is the last digit of an
escape. -/
def labelWrites (pin pout : ℕ) : Bytes → List Write
  | [] => []
  | b :: s =>
      if letDigHy b || b == 37 then
        if b = 37 then
          match s with
          | h₁ :: h₂ :: s' =>
              if letDigHy (ulToChar h₁ h₂) then
                ⟨.tmpUrl, pin + 2, 1⟩ :: ⟨.tmpUrl, pout, 1⟩ :: labelWrites (pin + 3) (pout + 1) s'
              else []
          | _ => []
        else
          (if upLet b then [⟨.tmpUrl, pin, 1⟩] else []) ++
            ⟨.tmpUrl, pout, 1⟩ :: labelWrites (pin + 1) (pout + 1) s
      else []

/-- What the loop over the other labels writes. -/
def labelsWrites (pin pout : ℕ) (s : Bytes) : List Write :=
  match s with
  | [] => []
  | b :: s =>
      if b = 46 then
        let r := (labelRun s).push [46] [46]
        ⟨.tmpUrl, pout, 1⟩ :: labelWrites (pin + 1) (pout + 1) s ++
          if r.ok && r.mem.getLast?.any letDigit then
            labelsWrites (pin + r.mem.length) (pout + r.out.length) r.rest
          else []
      else []
termination_by s.length
decreasing_by
  have := length_labelRun_le s
  simp only [Run.push, List.length_cons]
  omega

/-- What the loops over a host at `start` write. -/
def hostWrites (start : ℕ) (s : Bytes) : List Write :=
  let r := labelRun s
  labelWrites start start s ++
    if r.ok && r.mem.getLast?.any letDigit then
      labelsWrites (start + r.mem.length) (start + r.out.length) r.rest
    else []

/-- The port, which is copied to `pout`: what is copied, and what stands behind the port. -/
def checkPort (pout : ℕ) (rest : Bytes) : Call (Bytes × Bytes) :=
  if rest.head? = some 58 then
    let pin := rest.tail
    if pin.head? = some 47 then pure ([], pin)
    else
      let port := pin.takeWhile isDigit
      let pin := pin.dropWhile isDigit
      -- the loop returns when there are more than five digits
      emits (putBytes .digits 0 (min port.length 6)) >>= fun _ =>
        if 5 < port.length then stop ()
        else
          emit ⟨.digits, port.length, 1⟩ >>= fun _ =>
            if pin.head? ≠ some 47 then stop ()
            else if port ≠ ascii "80" then
              emit ⟨.tmpUrl, pout, port.length + 1⟩ >>= fun _ => pure (58 :: port, pin)
            else pure ([], pin)
  else if rest = [] ∨ rest.head? = some 47 ∨ rest.head? = some 63 ∨ rest.head? = some 35 then pure ([], rest)
  else stop ()

/-- What the loops over the path copy, and where they stop; a URL may go on with its query or its fragment. -/
def scanVhplink (pin : Bytes) : Bytes × Bytes :=
  let query := if pin.head? = some 47 then copyScanner.scanPath pin else copyScanner.sepLoop 63 uchRes pin
  let frag := copyScanner.sepLoop 35 uchRes query.2
  (query.1 ++ frag.1, frag.2)

/-- The loop of `ul_space_escape`. -/
def escapeWrites (maxLen : ℤ) (pout : ℕ) : Bytes → List Write
  | [] => if maxLen ≤ pout then [] else [⟨.urlTmp, pout, 1⟩]
  | b :: s =>
      if b ≠ 32 then
        if maxLen - 1 ≤ pout then [] else ⟨.urlTmp, pout, 1⟩ :: escapeWrites maxLen (pout + 1) s
      else if maxLen - 3 ≤ pout then []
      else putBytes .urlTmp pout 3 ++ escapeWrites maxLen (pout + 3) s

/-- `ul_space_escape`, which copies the URL back. -/
def spaceEscape (url : Bytes) : Call Unit :=
  emits (escapeWrites limits.url 0 url) >>= fun _ =>
    match ulSpaceEscape url limits with
    | none => stop ()
    | some tmp => emit ⟨.tmpUrl, 0, tmp.length + 1⟩

/-- The path, which is copied behind `out`. -/
def checkRest (len : ℕ) (out pin : Bytes) : Call Unit :=
  if pin = [] then pure ()
  else
    let r := scanVhplink pin
    emits (putBytes .tmpUrl out.length r.1.length) >>= fun _ =>
      if r.2 ≠ [] then stop ()
      else
        let url := out ++ r.1
        emit ⟨.tmpUrl, url.length, 1⟩ >>= fun _ =>
          if len < url.length then stop ()
          else if 32 ∈ r.1 then spaceEscape url
          else pure ()

/-- Source: `ul_url.cpp` `ul_check_url_vhplink_modify_url`. -/
def checkUrlVhplinkModifyUrl (str : Bytes) : Call Unit :=
  let url := ulDeleteInter str
  let start := schemeLength url
  let r := hostRun (url.drop start)
  emits (deleteWrites .tmpUrl str ++ hostWrites start (url.drop start)) >>= fun _ =>
    if r.ok then
      checkPort (start + r.out.length) r.rest >>= fun p =>
        checkRest url.length (url.take start ++ r.out ++ p.1) p.2
    else stop ()

/-- Source: `ul_url.cpp` `ul_check_url_vhplink`. -/
def ulCheckUrlVhplink (url : Bytes) : Call Unit :=
  emit (strcpy .tmpUrl 0 url) >>= fun _ => checkUrlVhplinkModifyUrl url

/-! ## Parsing -/

/-- The parts of a URL that are asked for. -/
structure VhParts where
  site : Option Bytes
  port : Option Bytes
  path : Option Bytes
  frag : Option Bytes

/-- `p_front`: the first `?` or `#`. -/
def firstMark (pin : Bytes) : Option ℕ :=
  match strchr pin 63, strchr pin 35 with
  | some query, some frag => if frag < query then some frag else some query
  | query, frag => query.or frag

/-- A `/` is put in front of a query or a fragment that comes before the path. The URL begins at `start`. -/
def insertSlash (start : ℕ) (pin : Bytes) : Call Bytes :=
  match firstMark pin with
  | some front =>
      if (strchr pin 47).all (front ≤ ·) then
        emits [strcpy .tmp2 0 (pin.drop front), ⟨.tmp, start + front, 1⟩,
          strcpy .tmp (start + front + 1) (pin.drop front)] >>= fun _ =>
            pure (pin.take front ++ 47 :: pin.drop front)
      else pure pin
  | none => pure pin

/-- The path, which is cut off. In front of a query it is written in two steps. -/
def parsePath (start : ℕ) (pin : Bytes) (path : Bool) : Call (Option Bytes) :=
  let cut := (pathStart pin).map fun i => ⟨.tmp, start + i, 1⟩
  if path then
    let empty := (pathStart pin).map fun _ => ⟨.path, 0, 1⟩
    match getPath pin limits.path with
    | none => emits empty.toList >>= fun _ => stop ()
    | some p => emits (empty.toList ++ strcpy .path 0 p :: cut.toList) >>= fun _ => pure (some p)
  else emits cut.toList >>= fun _ => pure none

/-- The fragment, which is split off the path. -/
def parseFrag (path : Option Bytes) (frag : Bool) : Call (Option Bytes × Option Bytes) :=
  match path, frag with
  | some p, true =>
      match strchr p 35 with
      | some fg =>
          if (p.drop fg).length < maxFragLen then
            emits [strcpy .frag 0 (p.drop fg), ⟨.path, fg, 1⟩] >>= fun _ =>
              pure (some (p.take fg), some (p.drop fg))
          else stop ()
      | none => emit ⟨.frag, 0, 1⟩ >>= fun _ => pure (some p, some [])
  | path, _ => pure (path, none)

/-- The port, which is cut off. -/
def parsePort (start : ℕ) (host : Bytes) (port : Bool) : Call (Option Bytes) :=
  let cut := (strchr host 58).map fun i => ⟨.tmp, start + i, 1⟩
  if port then
    match getPort host limits.port with
    | none => emit ⟨.port, 0, 1⟩ >>= fun _ => stop ()
    | some p =>
        let copied := (strchr host 58).map fun i => host.drop (i + 1)
        -- a default port is copied, and then taken away
        let empty := if copied = some (ascii "80") then [⟨.port, 0, 1⟩] else []
        emits (⟨.port, 0, 1⟩ :: (copied.map (strcpy .port 0)).toList ++ cut.toList ++ empty) >>= fun _ =>
          pure (some p)
  else emits cut.toList >>= fun _ => pure none

/-- The site. -/
def parseSite (host : Bytes) (site : Bool) : Call (Option Bytes) :=
  if site then
    emit ⟨.site, 0, 1⟩ >>= fun _ =>
      match getSite host limits.site with
      | none => stop ()
      | some s => emit (strcpy .site 0 s) >>= fun _ => pure (some s)
  else pure none

/-- The parts of a URL whose arrays are passed. Source: `ul_url.cpp` `ul_parse_url_vhplink`. -/
def ulParseUrlVhplink (input : Bytes) (site port path frag : Bool) : Call VhParts :=
  if limits.url ≤ input.length then stop ()
  else
    let start := schemeLength (ulDeleteInter input)
    emits (strcpy .tmp 0 input :: deleteWrites .tmp input) >>= fun _ =>
      insertSlash start (stripUrl input) >>= fun pin =>
        parsePath start pin path >>= fun p =>
          parseFrag p frag >>= fun f =>
            parsePort start (authority pin) port >>= fun q =>
              parseSite (authority pin) site >>= fun s => pure ⟨s, q, f.1, f.2⟩

/-! ## What stays in the arrays -/

section loops

variable {a : Arr} {pos n pin pout : ℕ} {s : Bytes}

theorem inside_putBytes (h : pos + n ≤ a.size) : ∀ w ∈ putBytes a pos n, w.Inside := by
  intro w hw
  obtain ⟨i, hi, rfl⟩ := List.mem_map.mp hw
  rw [List.mem_range] at hi
  show pos + i + 1 ≤ a.size
  omega

theorem inside_deleteLoop (h : pos + s.length + 1 ≤ a.size) : ∀ w ∈ deleteLoop a pos s, w.Inside := by
  induction s generalizing pos with
  | nil =>
      rw [deleteLoop, List.forall_mem_singleton]
      exact h
  | cons b s ih =>
      rw [List.length_cons] at h
      rw [deleteLoop]
      split_ifs
      · exact ih (by omega)
      · rw [List.forall_mem_cons]
        refine ⟨?_, ih (by omega)⟩
        show pos + 1 ≤ a.size
        omega

/-- Deleting line ends stays in the copy of the string. -/
theorem inside_deleteWrites (h : s.length + 1 ≤ a.size) : ∀ w ∈ deleteWrites a s, w.Inside := by
  apply inside_deleteLoop
  rw [← List.length_append, List.takeWhile_append_dropWhile]
  exact h

/-- A byte that is written in front of where the URL is read. -/
theorem inside_tmpUrl (h : pos < limits.url) : Write.Inside ⟨.tmpUrl, pos, 1⟩ := h

/-- The loop over a label writes where it has read. -/
theorem inside_labelWrites (hle : pout ≤ pin) (h : pin + s.length ≤ limits.url) :
    ∀ w ∈ labelWrites pin pout s, w.Inside := by
  fun_induction labelWrites pin pout s with
  | case1 => simp
  | case2 pin pout h₁ h₂ s _ _ ih =>
      simp only [List.length_cons] at h
      simp only [List.forall_mem_cons]
      exact ⟨inside_tmpUrl (by omega), inside_tmpUrl (by omega), ih (by omega) (by omega)⟩
  | case3 => simp
  | case4 => simp
  | case5 pin pout b s _ _ ih =>
      rw [List.length_cons] at h
      rw [List.forall_mem_append, List.forall_mem_cons]
      refine ⟨?_, inside_tmpUrl (by omega), ih (by omega) (by omega)⟩
      split_ifs
      · rw [List.forall_mem_singleton]
        exact inside_tmpUrl (by omega)
      · exact fun w hw => absurd hw List.not_mem_nil
  | case6 => simp

/-- A label that is accepted: what is written is not longer than what is read. -/
theorem length_labelRun {s : Bytes} (h : (labelRun s).ok = true) :
    (labelRun s).out.length ≤ (labelRun s).mem.length ∧
      (labelRun s).mem.length + (labelRun s).rest.length = s.length := by
  obtain ⟨c, htook⟩ := (labelRan_of_ok h).took
  have hsplit := congrArg List.length htook.split
  have hlen := htook.length
  have hshort := htook.short
  rw [List.length_append] at hsplit
  omega

theorem inside_labelsWrites (hle : pout ≤ pin) (h : pin + s.length ≤ limits.url) :
    ∀ w ∈ labelsWrites pin pout s, w.Inside := by
  fun_induction labelsWrites pin pout s with
  | case1 => simp
  | case2 pin pout s r ih =>
      simp only [List.length_cons] at h
      rw [List.forall_mem_append, List.forall_mem_cons]
      refine ⟨⟨inside_tmpUrl (by omega), inside_labelWrites (by omega) (by omega)⟩, ?_⟩
      split_ifs with hok
      · rw [Bool.and_eq_true] at hok
        have hlabel := length_labelRun hok.1
        simp only [r, Run.push, List.length_append, List.length_singleton] at ih ⊢
        exact ih (by omega) (by omega)
      · exact fun w hw => absurd hw List.not_mem_nil
  | case3 => simp

/-- The loops over a host write where they have read. -/
theorem inside_hostWrites (h : pin + s.length ≤ limits.url) : ∀ w ∈ hostWrites pin s, w.Inside := by
  unfold hostWrites
  dsimp only
  rw [List.forall_mem_append]
  refine ⟨inside_labelWrites (Nat.le_refl pin) h, ?_⟩
  split_ifs with hok
  · rw [Bool.and_eq_true] at hok
    have hlabel := length_labelRun hok.1
    exact inside_labelsWrites (by omega) (by omega)
  · exact fun w hw => absurd hw List.not_mem_nil

/-- Escaping blanks stays in its array. -/
theorem inside_escapeWrites {maxLen : ℤ} (h : maxLen ≤ Arr.urlTmp.size) :
    ∀ w ∈ escapeWrites maxLen pout s, w.Inside := by
  induction s generalizing pout with
  | nil =>
      rw [escapeWrites]
      split_ifs
      · simp
      · rw [List.forall_mem_singleton]
        show pout + 1 ≤ Arr.urlTmp.size
        omega
  | cons b s ih =>
      rw [escapeWrites]
      split_ifs
      · simp
      · rw [List.forall_mem_cons]
        refine ⟨?_, ih⟩
        show pout + 1 ≤ Arr.urlTmp.size
        omega
      · simp
      · rw [List.forall_mem_append]
        exact ⟨inside_putBytes (by omega), ih⟩

end loops

/-! ## The check -/

/-- Escaping blanks stays in the arrays. -/
theorem all_spaceEscape (url : Bytes) : All Write.Inside (spaceEscape url) := by
  rw [spaceEscape, all_emits_bind]
  refine ⟨inside_escapeWrites (by decide), ?_⟩
  split
  · exact all_stop _ _
  · next tmp hsome =>
      have hlen : tmp.length < limits.url := by
        unfold ulSpaceEscape at hsome
        rw [escapeLoop_eq] at hsome
        split_ifs at hsome with hfits
        · dsimp only at hsome
          split_ifs at hsome <;> exact Option.some.inj hsome ▸ hfits
      rw [all_emit]
      show 0 + (tmp.length + 1) ≤ limits.url
      omega

/-- What is copied of a port is not longer than the port. -/
theorem all_checkPort (pout : ℕ) (rest : Bytes) (h : pout + rest.length ≤ limits.url) :
    All Write.Inside (checkPort pout rest) ∧ ∀ r, (checkPort pout rest).result = .ok r →
      r.1.length + r.2.length ≤ rest.length := by
  unfold checkPort
  by_cases hcolon : rest.head? = some 58
  · obtain ⟨t, rfl⟩ := List.head?_eq_some_iff.mp hcolon
    have hsplit := congrArg List.length (List.takeWhile_append_dropWhile (p := isDigit) (l := t))
    rw [List.length_append] at hsplit
    rw [List.length_cons] at h
    have hcopied : ∀ w ∈ putBytes .digits 0 (min (t.takeWhile isDigit).length 6), w.Inside :=
      inside_putBytes (show 0 + min (t.takeWhile isDigit).length 6 ≤ 6 by omega)
    rw [if_pos hcolon, List.tail_cons]
    dsimp only
    split_ifs with hslash hlong hhead hport
    · refine ⟨all_pure _ _, ?_⟩
      rintro _ ⟨⟩
      simp
    · exact ⟨all_emits_bind.mpr ⟨hcopied, all_stop _ _⟩, fun r hr => by cases hr⟩
    · have hend : Write.Inside ⟨.digits, (t.takeWhile isDigit).length, 1⟩ :=
        show (t.takeWhile isDigit).length + 1 ≤ 6 by omega
      exact ⟨all_emits_bind.mpr ⟨hcopied, all_emit_bind.mpr ⟨hend, all_stop _ _⟩⟩, fun r hr => by cases hr⟩
    · have hend : Write.Inside ⟨.digits, (t.takeWhile isDigit).length, 1⟩ :=
        show (t.takeWhile isDigit).length + 1 ≤ 6 by omega
      have hmove : Write.Inside ⟨.tmpUrl, pout, (t.takeWhile isDigit).length + 1⟩ :=
        show pout + ((t.takeWhile isDigit).length + 1) ≤ limits.url by omega
      refine ⟨all_emits_bind.mpr ⟨hcopied, all_emit_bind.mpr ⟨hend, all_emit_bind.mpr ⟨hmove, all_pure _ _⟩⟩⟩, ?_⟩
      rintro _ ⟨⟩
      simp only [List.length_cons]
      omega
    · have hend : Write.Inside ⟨.digits, (t.takeWhile isDigit).length, 1⟩ :=
        show (t.takeWhile isDigit).length + 1 ≤ 6 by omega
      refine ⟨all_emits_bind.mpr ⟨hcopied, all_emit_bind.mpr ⟨hend, all_pure _ _⟩⟩, ?_⟩
      rintro _ ⟨⟩
      simp only [List.length_cons, List.length_nil]
      omega
  · rw [if_neg hcolon]
    split_ifs
    · refine ⟨all_pure _ _, ?_⟩
      rintro _ ⟨⟩
      exact (Nat.zero_add _).le
    · exact ⟨all_stop _ _, fun r hr => by cases hr⟩

theorem sepLoop_copy (sep : UInt8) (table : UInt8 → Bool) (pin : Bytes) :
    (copyScanner.sepLoop sep table pin).1 ++ (copyScanner.sepLoop sep table pin).2 = pin := by
  induction hn : pin.length using Nat.strongRecOn generalizing pin with
  | ind n ih =>
      cases pin with
      | nil =>
          rw [Scanner.sepLoop]
          rfl
      | cons b s =>
          rw [Scanner.sepLoop]
          split_ifs with hb
          · have hlen := copyScanner.length_le table s
            rw [List.length_cons] at hn
            have hrest := ih _ (by omega) (copyScanner.run table s).2 rfl
            have hsplit : (copyScanner.run table s).1 ++ (copyScanner.run table s).2 = s :=
              List.takeWhile_append_dropWhile
            dsimp only
            rw [List.cons_append, List.append_assoc, hrest, hsplit]
          · rfl

/-- Only what is read is copied. -/
theorem length_scanVhplink (pin : Bytes) : (scanVhplink pin).1.length ≤ pin.length := by
  have hfrag := sepLoop_copy 35 uchRes
    (if pin.head? = some 47 then copyScanner.scanPath pin else copyScanner.sepLoop 63 uchRes pin).2
  have hquery : (if pin.head? = some 47 then copyScanner.scanPath pin else copyScanner.sepLoop 63 uchRes pin).1 ++
      (if pin.head? = some 47 then copyScanner.scanPath pin else copyScanner.sepLoop 63 uchRes pin).2 = pin := by
    split_ifs
    · rw [scanPath_copy]
      exact List.takeWhile_append_dropWhile
    · exact sepLoop_copy 63 uchRes pin
  have hfrag := congrArg List.length hfrag
  have hquery := congrArg List.length hquery
  rw [List.length_append] at hfrag hquery
  unfold scanVhplink
  dsimp only
  rw [List.length_append]
  omega

theorem all_checkRest {len : ℕ} {out pin : Bytes} (h : out.length + pin.length < limits.url) :
    All Write.Inside (checkRest len out pin) := by
  have hlen := length_scanVhplink pin
  unfold checkRest
  split_ifs
  · exact all_pure _ _
  · dsimp only
    rw [all_emits_bind]
    refine ⟨inside_putBytes (show out.length + _ ≤ limits.url by omega), ?_⟩
    have hend : Write.Inside ⟨.tmpUrl, (out ++ (scanVhplink pin).1).length, 1⟩ :=
      inside_tmpUrl (by rw [List.length_append]; omega)
    split_ifs
    · exact all_stop _ _
    · exact all_emit_bind.mpr ⟨hend, all_stop _ _⟩
    · exact all_emit_bind.mpr ⟨hend, all_spaceEscape _⟩
    · exact all_emit_bind.mpr ⟨hend, all_pure _ _⟩

/-- Behind the copy, checking stays in the arrays. -/
theorem all_modifyUrl {str : Bytes} (h : str.length < limits.url) :
    All Write.Inside (checkUrlVhplinkModifyUrl str) := by
  have hdelete : (ulDeleteInter str).length ≤ str.length := List.length_filter_le _ _
  have hstart := schemeLength_le (ulDeleteInter str)
  have hdrop := List.length_drop (i := schemeLength (ulDeleteInter str)) (l := ulDeleteInter str)
  unfold checkUrlVhplinkModifyUrl
  dsimp only
  rw [all_emits_bind, List.forall_mem_append]
  refine ⟨⟨inside_deleteWrites (show str.length + 1 ≤ limits.url by omega), inside_hostWrites (by omega)⟩, ?_⟩
  split_ifs with hok
  · have hhost := length_hostRun_le hok
    obtain ⟨hport, hlen⟩ := all_checkPort (schemeLength (ulDeleteInter str) +
      (hostRun ((ulDeleteInter str).drop (schemeLength (ulDeleteInter str)))).out.length)
      (hostRun ((ulDeleteInter str).drop (schemeLength (ulDeleteInter str)))).rest (by omega)
    refine all_bind.mpr ⟨hport, fun p hp => all_checkRest ?_⟩
    have hp := hlen p hp
    rw [List.length_append, List.length_append, List.length_take]
    omega
  · exact all_stop _ _

/-- **When checking stays in the arrays.** -/
theorem checkUrlVhplink_inside_iff (url : Bytes) :
    All Write.Inside (ulCheckUrlVhplink url) ↔ url.length < limits.url := by
  rw [ulCheckUrlVhplink, all_emit_bind]
  have hcopy : (strcpy .tmpUrl 0 url).Inside ↔ url.length < limits.url := by
    show 0 + (url.length + 1) ≤ limits.url ↔ _
    omega
  rw [hcopy]
  exact ⟨fun h => h.1, fun h => ⟨h, all_modifyUrl h⟩⟩

/-! ## Parsing -/

/-- A query or a fragment comes before the path. -/
def MarkFirst (pin : Bytes) : Prop :=
  ∃ b, pin.find? (fun b => b == 47 || b == 63 || b == 35) = some b ∧ b ≠ 47

instance (pin : Bytes) : Decidable (MarkFirst pin) :=
  decidable_of_iff ((pin.find? fun b => b == 47 || b == 63 || b == 35).any (· ≠ 47) = true) (by
    rw [MarkFirst, Option.any_eq_true]
    simp)

/-- Behind another character the first mark is the first one of what follows. -/
theorem firstMark_cons {b : UInt8} (hquery : b ≠ 63) (hfrag : b ≠ 35) (s : Bytes) :
    firstMark (b :: s) = (firstMark s).map (· + 1) := by
  unfold firstMark
  rw [strchr_cons_ne hquery, strchr_cons_ne hfrag]
  cases strchr s 63 <;> cases strchr s 35 <;> simp only [Option.map_some, Option.map_none, Option.or]
  split_ifs <;> first | rfl | omega

/-- A mark at the beginning is the first one. -/
theorem firstMark_self {b : UInt8} (h : b = 63 ∨ b = 35) (s : Bytes) : firstMark (b :: s) = some 0 := by
  unfold firstMark
  rcases h with rfl | rfl
  · rw [strchr_cons_self, strchr_cons_ne (by decide)]
    cases strchr s 35 <;> rfl
  · rw [strchr_cons_self, strchr_cons_ne (by decide)]
    cases strchr s 63 <;> rfl

/-- When a `/` is put in. -/
theorem markFirst_iff (pin : Bytes) :
    MarkFirst pin ↔ ∃ front, firstMark pin = some front ∧ (strchr pin 47).all (front ≤ ·) = true := by
  unfold MarkFirst
  induction pin with
  | nil => simp [firstMark, strchr]
  | cons b s ih =>
      by_cases hslash : b = 47
      · subst hslash
        rw [firstMark_cons (by decide) (by decide), strchr_cons_self]
        simp
      by_cases hmark : b = 63 ∨ b = 35
      · rw [firstMark_self hmark]
        simp [hslash, hmark]
      · rw [not_or] at hmark
        rw [firstMark_cons hmark.1 hmark.2, strchr_cons_ne hslash, List.find?_cons_of_neg (by simp [hslash, hmark]), ih]
        cases strchr s 47 <;> simp

/-- A mark is in the string. -/
theorem firstMark_lt {pin : Bytes} {front : ℕ} (h : firstMark pin = some front) : front < pin.length := by
  unfold firstMark at h
  split at h
  · next query frag hquery hfrag =>
      have hquery := strchr_lt hquery
      have hfrag := strchr_lt hfrag
      split_ifs at h <;> cases h <;> assumption
  · rcases Option.or_eq_some_iff.mp h with h | ⟨-, h⟩ <;> exact strchr_lt h

/-- **A `/` is put in within the arrays**, unless there is no room for it; then there is one byte more. -/
theorem all_insertSlash (start : ℕ) (pin : Bytes) (h : start + pin.length < limits.url) :
    (All Write.Inside (insertSlash start pin) ↔ ¬ (start + pin.length + 1 = limits.url ∧ MarkFirst pin)) ∧
      ∀ r, (insertSlash start pin).result = .ok r →
        r.length = pin.length + if MarkFirst pin then 1 else 0 := by
  by_cases hmark : MarkFirst pin
  · obtain ⟨front, hfront, hslash⟩ := (markFirst_iff pin).mp hmark
    have hlt := firstMark_lt hfront
    have hwrites : (∀ w ∈ [strcpy .tmp2 0 (pin.drop front), ⟨.tmp, start + front, 1⟩,
        strcpy .tmp (start + front + 1) (pin.drop front)], w.Inside) ↔ start + pin.length + 1 ≠ limits.url := by
      simp only [List.forall_mem_cons, strcpy, Write.Inside, Arr.size, List.length_drop]
      constructor
      · rintro ⟨-, -, hlast, -⟩
        omega
      · intro hroom
        refine ⟨by omega, by omega, by omega, fun w hw => absurd hw List.not_mem_nil⟩
    unfold insertSlash
    rw [hfront]
    simp only [hslash, if_true, all_emits_bind, hwrites, hmark, and_true, all_pure, ne_eq, true_and]
    rintro _ ⟨⟩
    simp only [List.length_append, List.length_take, List.length_cons, List.length_drop]
    omega
  · have hpure : insertSlash start pin = pure pin := by
      unfold insertSlash
      cases hfront : firstMark pin with
      | none => rfl
      | some front =>
          have hslash : ¬ (strchr pin 47).all (front ≤ ·) = true := fun hall =>
            hmark ((markFirst_iff pin).mpr ⟨front, hfront, hall⟩)
          exact if_neg hslash
    rw [hpure, if_neg hmark]
    refine ⟨iff_of_true (all_pure _ _) fun hboth => hmark hboth.2, ?_⟩
    rintro _ ⟨⟩
    rfl

/-- A path that is taken fits. -/
theorem getPath_length {pin p : Bytes} {size : ℕ} (h : getPath pin size = some p) (hsize : 1 < size)
    (hlt : size < 2 ^ 64) : p.length < size := by
  unfold getPath at h
  rw [sizePred_eq (by omega) hlt] at h
  split at h
  · split_ifs at h
    · cases h
      rw [List.length_cons]
      omega
    · cases h
      assumption
  · split_ifs at h
    cases h
    assumption
  · cases h
    exact hsize

theorem pathStart_lt {pin : Bytes} {i : ℕ} (h : pathStart pin = some i) : i < pin.length := by
  have hslash : ∀ p, firstSlash pin = some p → p < pin.length := by
    intro p hp
    rcases Option.or_eq_some_iff.mp hp with hp | ⟨-, hp⟩ <;> exact strchr_lt hp
  unfold pathStart at h
  split at h
  · next query p hquery hp =>
      have hquery := strchr_lt hquery
      have hp := hslash p hp
      split_ifs at h <;> cases h <;> assumption
  · exact hslash i h

/-- A write for a position that may have been found. -/
theorem inside_map_toList {α : Type} {o : Option α} {f : α → Write} (h : ∀ i, o = some i → (f i).Inside) :
    ∀ w ∈ (o.map f).toList, w.Inside := by
  cases o with
  | none => exact fun w hw => absurd hw List.not_mem_nil
  | some i => exact fun w hw => List.mem_singleton.mp hw ▸ h i rfl

/-- The path is written within the arrays. -/
theorem all_parsePath {start : ℕ} {pin : Bytes} (path : Bool) (h : start + pin.length ≤ limits.url) :
    All Write.Inside (parsePath start pin path) ∧ ∀ r, (parsePath start pin path).result = .ok r →
      ∀ p ∈ r, p.length < limits.path := by
  have hcut : ∀ w ∈ ((pathStart pin).map fun i => (⟨.tmp, start + i, 1⟩ : Write)).toList, w.Inside := by
    apply inside_map_toList
    intro i hi
    have hi := pathStart_lt hi
    show start + i + 1 ≤ limits.url
    omega
  have hempty : ∀ w ∈ ((pathStart pin).map fun _ => (⟨.path, 0, 1⟩ : Write)).toList, w.Inside :=
    inside_map_toList fun i _ => (by decide : Write.Inside ⟨.path, 0, 1⟩)
  unfold parsePath
  dsimp only
  cases path with
  | false =>
      refine ⟨all_emits_bind.mpr ⟨hcut, all_pure _ _⟩, ?_⟩
      rintro _ ⟨⟩ p hp
      cases hp
  | true =>
      rw [if_pos rfl]
      cases hpath : getPath pin limits.path with
      | none => exact ⟨all_emits_bind.mpr ⟨hempty, all_stop _ _⟩, fun r hr => by cases hr⟩
      | some p =>
          have hlen := getPath_length hpath (by decide) (by decide)
          refine ⟨all_emits_bind.mpr ⟨?_, all_pure _ _⟩, ?_⟩
          · rw [List.forall_mem_append, List.forall_mem_cons]
            refine ⟨hempty, ?_, hcut⟩
            show 0 + (p.length + 1) ≤ limits.path
            omega
          · rintro _ ⟨⟩ q hq
            cases hq
            exact hlen

/-- The fragment is written within the arrays. -/
theorem all_parseFrag {path : Option Bytes} (frag : Bool) (h : ∀ p ∈ path, p.length < limits.path) :
    All Write.Inside (parseFrag path frag) := by
  unfold parseFrag
  split
  · next p =>
      have hlen := h p rfl
      split
      · next fg hfg =>
          have hfg := strchr_lt hfg
          split_ifs with hfits
          · rw [all_emits_bind, List.forall_mem_cons, List.forall_mem_singleton]
            refine ⟨⟨?_, ?_⟩, all_pure _ _⟩
            · show 0 + ((p.drop fg).length + 1) ≤ maxFragLen
              omega
            · show fg + 1 ≤ limits.path
              omega
          · exact all_stop _ _
      · exact all_emit_bind.mpr ⟨by decide, all_pure _ _⟩
  · exact all_pure _ _

/-- The port is written within the arrays. -/
theorem all_parsePort {start : ℕ} {host : Bytes} (port : Bool) (h : start + host.length ≤ limits.url) :
    All Write.Inside (parsePort start host port) := by
  have hcut : ∀ w ∈ ((strchr host 58).map fun i => (⟨.tmp, start + i, 1⟩ : Write)).toList, w.Inside := by
    apply inside_map_toList
    intro i hi
    have hi := strchr_lt hi
    show start + i + 1 ≤ limits.url
    omega
  unfold parsePort
  dsimp only
  cases port with
  | false => exact all_emits_bind.mpr ⟨hcut, all_pure _ _⟩
  | true =>
      rw [if_pos rfl]
      split
      · exact all_emit_bind.mpr ⟨by decide, all_stop _ _⟩
      · next p hport =>
          have hcopied : ∀ w ∈ (((strchr host 58).map fun i => host.drop (i + 1)).map (strcpy .port 0)).toList,
              w.Inside := by
            rw [Option.map_map]
            apply inside_map_toList
            intro i hi
            have hlt := strchr_lt hi
            unfold getPort at hport
            rw [hi] at hport
            dsimp only at hport
            have hlen : (host.drop i).length < limits.port := by
              by_contra hno
              rw [if_neg fun h => hno h.1] at hport
              cases hport
            simp only [Function.comp_apply, strcpy, Write.Inside, Arr.size, List.length_drop] at hlen ⊢
            omega
          rw [all_emits_bind, List.forall_mem_append, List.cons_append, List.forall_mem_cons,
            List.forall_mem_append]
          refine ⟨⟨⟨by decide, hcopied, hcut⟩, ?_⟩, all_pure _ _⟩
          split_ifs
          · rw [List.forall_mem_singleton]
            decide
          · exact fun w hw => absurd hw List.not_mem_nil

/-- The site is written within its array. -/
theorem all_parseSite (host : Bytes) (site : Bool) : All Write.Inside (parseSite host site) := by
  unfold parseSite
  split_ifs
  · rw [all_emit_bind]
    refine ⟨by decide, ?_⟩
    split
    · exact all_stop _ _
    · next s hsite =>
        refine all_emit_bind.mpr ⟨?_, all_pure _ _⟩
        unfold getSite at hsite
        dsimp only at hsite
        split_ifs at hsite with hfits
        cases hsite
        show 0 + (_ + 1) ≤ limits.site
        have hlen := hfits.2
        omega
  · exact all_pure _ _

/-- **When parsing stays in the arrays.** -/
theorem parseUrlVhplink_inside_iff (url : Bytes) (site port path frag : Bool) :
    All Write.Inside (ulParseUrlVhplink url site port path frag) ↔
      ¬ (url.length + 1 = limits.url ∧ (∀ b ∈ url, lfcr b = false) ∧ MarkFirst (stripUrl url)) := by
  unfold ulParseUrlVhplink
  split_ifs with hlong
  · exact iff_of_true (all_stop _ _) fun h => by omega
  · have hlen : (ulDeleteInter url).length ≤ url.length := List.length_filter_le _ _
    have hstart := schemeLength_le (ulDeleteInter url)
    have hstrip : schemeLength (ulDeleteInter url) + (stripUrl url).length = (ulDeleteInter url).length := by
      rw [stripUrl, List.length_drop]
      omega
    obtain ⟨hslash, hpin⟩ := all_insertSlash (schemeLength (ulDeleteInter url)) (stripUrl url) (by omega)
    have hfull : schemeLength (ulDeleteInter url) + (stripUrl url).length + 1 = limits.url ↔
        url.length + 1 = limits.url ∧ ∀ b ∈ url, lfcr b = false := by
      have hfilter : (ulDeleteInter url).length = url.length ↔ ∀ b ∈ url, lfcr b = false := by
        rw [ulDeleteInter, List.length_filter_eq_length_iff]
        simp only [Bool.not_eq_true']
      rw [← hfilter, hstrip]
      omega
    have hcopy : ∀ w ∈ strcpy .tmp 0 url :: deleteWrites .tmp url, w.Inside := by
      rw [List.forall_mem_cons]
      refine ⟨?_, inside_deleteWrites (show url.length + 1 ≤ limits.url by omega)⟩
      show 0 + (url.length + 1) ≤ limits.url
      omega
    rw [← and_assoc, ← hfull, ← hslash, all_emits_bind, all_bind]
    refine ⟨fun h => h.2.1, fun h => ⟨hcopy, h, fun pin hresult => ?_⟩⟩
    have hroom : schemeLength (ulDeleteInter url) + pin.length < limits.url := by
      have hno := hslash.mp h
      rw [hpin pin hresult]
      split_ifs with hmark
      · have hne : schemeLength (ulDeleteInter url) + (stripUrl url).length + 1 ≠ limits.url :=
          fun heq => hno ⟨heq, hmark⟩
        omega
      · omega
    have hhost : (authority pin).length ≤ pin.length := List.length_take_le' _ _
    obtain ⟨hpath, hfits⟩ := all_parsePath path hroom.le
    refine all_bind.mpr ⟨hpath, fun p hp => all_bind.mpr ⟨all_parseFrag frag (hfits p hp), fun f _ => ?_⟩⟩
    refine all_bind.mpr ⟨all_parsePort port (by omega), fun q _ => ?_⟩
    exact all_bind.mpr ⟨all_parseSite _ site, fun s _ => all_pure _ _⟩

/-- **When both functions stay in their arrays**: the URL fits into the copy; and if it fills it, without line ends,
then its path comes before its query and its fragment. -/
theorem inside_iff (url : Bytes) (site port path frag : Bool) :
    (All Write.Inside (ulCheckUrlVhplink url) ∧ All Write.Inside (ulParseUrlVhplink url site port path frag)) ↔
      url.length < limits.url ∧
        ¬ (url.length + 1 = limits.url ∧ (∀ b ∈ url, lfcr b = false) ∧ MarkFirst (stripUrl url)) := by
  rw [checkUrlVhplink_inside_iff, parseUrlVhplink_inside_iff]

/-- A URL of 256 bytes is checked, and a query of 255 bytes is parsed with a `/` in front of it. -/
theorem not_inside : ¬ All Write.Inside (ulCheckUrlVhplink (List.replicate 256 97)) ∧
    ¬ All Write.Inside (ulParseUrlVhplink (63 :: List.replicate 254 97) true true true true) ∧
    ¬ ∀ url : Bytes, All Write.Inside (ulCheckUrlVhplink url) ∧
      ∀ site port path frag, All Write.Inside (ulParseUrlVhplink url site port path frag) := by
  have hcheck : ¬ All Write.Inside (ulCheckUrlVhplink (List.replicate 256 97)) := by
    intro h
    have hcopy := h (strcpy .tmpUrl 0 (List.replicate 256 97)) (List.mem_append_left _ List.mem_cons_self)
    rw [strcpy, List.length_replicate] at hcopy
    exact absurd hcopy (by decide)
  refine ⟨hcheck, fun h => ?_, fun h => hcheck (h _).1⟩
  exact (parseUrlVhplink_inside_iff _ true true true true).mp h (by decide +kernel)

end Asenal.Url
