import Asenal.Url.Normalize

/-!
# Normalising URLs with their fragments

`ul_normalize_url_ex2_special_for_ps_20110221` keeps what stands behind a `#`: its path routine puts the
fragment behind the clean path. The segments are resolved afterwards, by a function that does not know of
fragments.

* `labelRun_char`, `siteLabels_char` — what is written of a site.
* `singlePathSpecial_fragment` — what the path routine makes of a path with a fragment.
* `keepsFragment_escapeBlanks` — blanks change nothing in where a path ends.
* `fragment_kept_iff` — when the fragment is left alone.
-/

namespace Asenal.Url

open Asenal.Lib.Text Asenal.Lib.CString Asenal.Lib.Segments

/-! ## The functions -/

/-- The loop `while (*pin == '.')` over the labels of a site, which may end in `-` or `_`. -/
def siteLabels (s : Bytes) : Run :=
  match s with
  | [] => ⟨true, [], [], []⟩
  | b :: s =>
      if b = 46 then
        let r := (labelRun s).push [46] [46]
        if r.ok && r.mem.getLast?.any letDigHy then (siteLabels r.rest).push r.out r.mem
        else { r with ok := false }
      else ⟨true, [], [], b :: s⟩
termination_by s.length
decreasing_by
  have := length_labelRun_le s
  simp only [Run.push, List.length_cons]
  omega

/-- Source: `ul_url.cpp` `ul_normalize_site_special_for_ps_20101026`. -/
def ulNormalizeSiteSpecialForPs20101026 (site : Bytes) : Option Bytes :=
  if site.head?.any letDigHy then
    let first := labelRun site
    if first.ok && first.mem.getLast?.any letDigHy then
      let others := siteLabels first.rest
      -- `dotcount` is not 0
      if others.ok && first.rest.head? == some 46 && others.rest == [] then some (first.out ++ others.out)
      else none
    else none
  else none

/-- The clean path with its fragment behind it, in an array of `len` bytes. Source: `ul_url.cpp`
`ul_single_path_ex2_nointer_special_for_ps_20110221`. -/
def ulSinglePathEx2NointerSpecialForPs20110221 (path : Bytes) (len : ℕ) : Option Bytes :=
  let r := cleanScanner.scanPath path
  if r.2.head?.any (· != 35) then none
  else
    let out := r.1 ++ r.2.take (len - r.1.length)
    if len ≤ out.length then none
    else if 32 ∈ r.1 then ulSpaceEscapePath out limitsEx2.path
    else some out

/-- The text of the URL that is printed. -/
def specialText (url : Bytes) : Option Bytes :=
  match ulParseUrlEx2 url limitsEx2.site limitsEx2.port limitsEx2.path with
  | some ⟨some site, some port, some path⟩ => do
      let site ← ulNormalizeSiteSpecialForPs20101026 site
      let port ← ulNormalizePort port
      let path ← ulSinglePathEx2NointerSpecialForPs20110221 path limitsEx2.path
      let path ← ulNormalizePathEx2 path
      return if port = [] then site ++ path else site ++ 58 :: port ++ path
  | _ => none

/-- The URL, normalised into a buffer of `bufSize` bytes that holds `buf`. Source: `ul_url.cpp`
`ul_normalize_url_ex2_special_for_ps_20110221`. -/
def ulNormalizeUrlEx2SpecialForPs20110221 (url buf : Bytes) (bufSize : ℕ) : Option Bytes :=
  (specialText url).map (printTo buf bufSize)

example : specialText (ascii "http://A-.b:8080/x/../%7Ey?q#/../ z") =
    some (ascii "a-.b:8080/~y?q#/../ z") := by decide +kernel

/-- When the segments are resolved and the fragment behind the `#` is left alone: they end in front of the
`#`, or what stands of the fragment in front of their end has no `\`, no segment `.` or `..` behind a `/`,
and no empty one between two. -/
def KeepsFragment (front frag : Bytes) : Prop :=
  63 ∈ front ∨ (63 ∉ frag ∧ 59 ∈ front) ∨
    (92 ∉ frag.take (pathEnd frag) ∧ Resolved 46 ((frag.take (pathEnd frag)).splitOn 47).tail)

instance (front frag : Bytes) : Decidable (KeepsFragment front frag) :=
  inferInstanceAs (Decidable (_ ∨ _))

/-! ## What is written of a site -/

/-- What is written of a label. -/
theorem labelRun_char (s : Bytes) : ∀ b ∈ (labelRun s).out, letDigHy b = true := by
  fun_induction labelRun s with
  | case1 => simp
  | case2 h₁ h₂ s _ hc =>
      rename_i ih
      rw [Run.push, List.forall_mem_append, List.forall_mem_singleton]
      exact ⟨(letDigHy_toLower hc).1, ih⟩
  | case3 => simp
  | case4 => simp
  | case5 b s hb hne ih =>
      have hb : letDigHy b = true := by simpa [hne] using hb
      rw [Run.push, List.forall_mem_append, List.forall_mem_singleton]
      exact ⟨(letDigHy_toLower hb).1, ih⟩
  | case6 => simp

/-- What is written of the labels of a site. -/
theorem siteLabels_char (s : Bytes) : ∀ b ∈ (siteLabels s).out, letDigHy b = true ∨ b = 46 := by
  have hlabel : ∀ s, ∀ b ∈ ((labelRun s).push [46] [46]).out, letDigHy b = true ∨ b = 46 := by
    intro s
    rw [Run.push, List.forall_mem_append, List.forall_mem_singleton]
    exact ⟨Or.inr rfl, fun b hb => Or.inl (labelRun_char s b hb)⟩
  fun_induction siteLabels s with
  | case1 => simp
  | case2 s r hr ih =>
      rw [Run.push, List.forall_mem_append]
      exact ⟨hlabel s, ih⟩
  | case3 s r hr => exact hlabel s
  | case4 => simp

/-- No site has a `#`. -/
theorem not_mem_site {site out : Bytes} (h : ulNormalizeSiteSpecialForPs20101026 site = some out) :
    35 ∉ out := by
  unfold ulNormalizeSiteSpecialForPs20101026 at h
  dsimp only at h
  split_ifs at h
  obtain rfl := Option.some.inj h
  intro hmem
  rcases List.mem_append.mp hmem with hmem | hmem
  · exact absurd (labelRun_char _ _ hmem) (by decide)
  · exact absurd (siteLabels_char _ _ hmem) (by decide)

/-! ## What the path routine makes of a fragment -/

/-- A character that is no blank and is not in `%20` is there iff it was. -/
theorem mem_escapeBlanks {c : UInt8} (hblank : c ≠ 32) (hescape : c ∉ ascii "%20") (s : Bytes) :
    c ∈ escapeBlanks s ↔ c ∈ s := by
  have hone : ∀ b : UInt8, c ∈ (if b = 32 then [37, 50, 48] else [b]) ↔ c = b := by
    intro b
    split_ifs with hb
    · rw [hb]
      exact iff_of_false hescape hblank
    · exact List.mem_singleton
  rw [escapeBlanks, List.mem_flatMap]
  simp only [hone, exists_eq_right']

/-- Cleaning neither adds nor takes away a `?` or a `;`. -/
theorem mem_cleanRun {c : UInt8} (hc : c = 63 ∨ c = 59) (s : Bytes) :
    c ∈ (cleanRun uchRes s).1 ↔ c ∈ s.takeWhile uchRes := by
  have huch : IsTable uchRes := Or.inr (Or.inr rfl)
  have hpercent : c ≠ 37 := by rcases hc with rfl | rfl <;> decide
  have hdigit : ∀ b, letDigit b = true → c ≠ b := by
    rintro b hb rfl
    rcases hc with rfl | rfl <;> cases hb
  induction s using chunk_induction with
  | nil => exact Iff.rfl
  | stray h₁ h₂ s h ih =>
      rw [cleanRun_stray huch h, List.takeWhile_cons_of_pos rfl, List.mem_cons, List.mem_cons]
      exact or_congr_right ih
  | escape h₁ h₂ s h ih =>
      obtain ⟨hone, htwo⟩ := letDigit_of_ulToChar h
      have htext : c ∉ escapeText h₁ h₂ := by
        unfold escapeText
        dsimp only
        split_ifs with hkeep
        · rw [List.mem_singleton]
          rintro rfl
          rcases hc with hc | hc <;> rw [hc] at hkeep <;> cases hkeep
        · simp [hpercent, hdigit _ hone, hdigit _ htwo]
      rw [cleanRun_escape huch h, List.takeWhile_cons_of_pos rfl,
        List.takeWhile_cons_of_pos (uchRes_letDigit hone), List.takeWhile_cons_of_pos (uchRes_letDigit htwo),
        List.mem_append]
      apply (or_congr_right ih).trans
      simp [htext, hpercent, hdigit _ hone, hdigit _ htwo]
  | short s h ih =>
      rw [cleanRun_short huch h, List.takeWhile_cons_of_pos rfl, List.mem_cons, List.mem_cons]
      exact or_congr_right ih
  | char b s hb ih =>
      cases h : uchRes b with
      | false => rw [cleanRun_stop h, List.takeWhile_cons_of_neg (by simp [h])]
      | true =>
          rw [cleanRun_char hb h, List.takeWhile_cons_of_pos h, List.mem_cons, List.mem_cons]
          exact or_congr_right ih

/-- The clean path has no `#`. -/
theorem not_mem_cleanRun (s : Bytes) : 35 ∉ (cleanRun uchRes s).1 := by
  intro hmem
  have htext : 35 ∈ cleanText s := by
    rw [cleanText, ← (cleanRun_tokens s).1]
    exact (mem_escapeBlanks (by decide) (by decide) _).mpr hmem
  cases uchRes_of_mem_cleanText htext

/-- What is put behind a text in an array and does not fill it is all of it. -/
theorem take_of_length_lt {len : ℕ} {a b : Bytes} (h : ¬ len ≤ (a ++ b.take (len - a.length)).length) :
    b.take (len - a.length) = b := by
  rw [List.length_append, List.length_take] at h
  exact List.take_of_length_le (by omega)

/-- The loops over a path with a fragment stop at the `#`. -/
theorem IsPath.cut {front frag : Bytes} (hfront : 35 ∉ front) (h : IsPath (front ++ 35 :: frag)) :
    (front ++ 35 :: frag).takeWhile uchRes = front ∧
      (front ++ 35 :: frag).dropWhile uchRes = 35 :: frag := by
  have hmark : 35 ∈ front ++ 35 :: frag := List.mem_append_right front List.mem_cons_self
  unfold IsPath at h
  generalize hs : front ++ 35 :: frag = s at h hmark ⊢
  have hsplit := List.takeWhile_append_dropWhile (p := uchRes) (l := s)
  have htake : 35 ∉ s.takeWhile uchRes := by
    intro hmem
    cases List.mem_takeWhile_imp hmem
  cases hdrop : s.dropWhile uchRes with
  | nil =>
      rw [hdrop, List.append_nil] at hsplit
      rw [hsplit] at htake
      exact absurd hmark htake
  | cons b r =>
      obtain rfl := h b (by rw [hdrop]; rfl)
      rw [hdrop, ← hs] at hsplit
      obtain ⟨hcut, rfl⟩ := append_cons_inj (hs ▸ htake) hfront hsplit
      exact ⟨hs ▸ hcut, rfl⟩

/-- **What the path routine makes of a path with a fragment**: the path is cleaned, and the fragment stands
behind it, with its blanks escaped if the path has one. -/
theorem singlePathSpecial_fragment {front frag path : Bytes} (hfront : 35 ∉ front)
    (hhead : front.head? = some 47)
    (h : ulSinglePathEx2NointerSpecialForPs20110221 (front ++ 35 :: frag) limitsEx2.path = some path) :
    ∃ clean kept, path = clean ++ 35 :: kept ∧ 35 ∉ clean ∧ clean.head? = some 47 ∧
      path.length < limitsEx2.path ∧ (∀ c, c = 63 ∨ c = 59 → (c ∈ clean ↔ c ∈ front)) ∧
      (kept = frag ∨ kept = escapeBlanks frag) := by
  have hrun : cleanScanner.scanPath (front ++ 35 :: frag) =
      ((cleanRun uchRes (front ++ 35 :: frag)).1, (front ++ 35 :: frag).dropWhile uchRes) :=
    (cleanScanner_lawful.scanPath_eq _).trans (Prod.ext rfl (cleanRun_tokens _).2)
  have hmem : ∀ c, c = 63 ∨ c = 59 → (c ∈ (cleanRun uchRes (front ++ 35 :: frag)).1 ↔
      c ∈ (front ++ 35 :: frag).takeWhile uchRes) := fun c hc => mem_cleanRun hc _
  have hclean := not_mem_cleanRun (front ++ 35 :: frag)
  have hroot : (cleanRun uchRes (front ++ 35 :: frag)).1.head? = some 47 := by
    obtain ⟨t, rfl⟩ := List.head?_eq_some_iff.mp hhead
    rw [List.cons_append, cleanRun_char (by decide) rfl]
    rfl
  have hispath : IsPath (front ++ 35 :: frag) := by
    rw [← isPath_iff, Bool.eq_false_iff]
    intro hreject
    rw [ulSinglePathEx2NointerSpecialForPs20110221, hrun] at h
    dsimp only at h
    rw [if_pos hreject] at h
    cases h
  obtain ⟨hcut, hrest⟩ := hispath.cut hfront
  rw [ulSinglePathEx2NointerSpecialForPs20110221, hrun, hrest] at h
  rw [hcut] at hmem
  generalize (cleanRun uchRes (front ++ 35 :: frag)).1 = clean at h hmem hclean hroot
  dsimp only at h
  rw [if_neg (by simp)] at h
  split_ifs at h with hlong hblank
  · rw [take_of_length_lt hlong, ulSpaceEscapePath, escapeLoop_eq, List.nil_append] at h
    split_ifs at h with hfit
    obtain rfl := Option.some.inj h
    refine ⟨escapeBlanks clean, escapeBlanks frag, ?_, ?_, ?_, hfit, ?_, Or.inr rfl⟩
    · rw [escapeBlanks_append]
      rfl
    · rwa [mem_escapeBlanks (by decide) (by decide)]
    · obtain ⟨t, rfl⟩ := List.head?_eq_some_iff.mp hroot
      rfl
    · intro c hc
      rw [mem_escapeBlanks, hmem c hc] <;> rcases hc with rfl | rfl <;> decide
  · rw [take_of_length_lt hlong] at h hlong
    obtain rfl := Option.some.inj h
    exact ⟨clean, frag, rfl, hclean, hroot, Nat.not_le.mp hlong, hmem, Or.inl rfl⟩

/-! ## Where the path ends -/

/-- The blanks of a path as tokens. -/
theorem blankRendering :
    Rendering (fun b : UInt8 => if b = 32 then [37, 50, 48] else [b]) 47 46 47 46 where
  text_slash := rfl
  text_dot := rfl
  ne_nil b := by
    split_ifs
    · exact List.cons_ne_nil _ _
    · exact List.cons_ne_nil _ _
  head b h := by
    split_ifs at h
    · cases h
    · exact Option.some.inj h

/-- Escaping the blanks of a path changes nothing in where it ends. -/
theorem take_pathEnd_escapeBlanks (s : Bytes) :
    (escapeBlanks s).take (pathEnd (escapeBlanks s)) = escapeBlanks (s.take (pathEnd s)) := by
  obtain ⟨body, suffix, rfl, hends⟩ := exists_ends 63 59 s
  have hquery : ∀ t, 63 ∈ escapeBlanks t ↔ 63 ∈ t := mem_escapeBlanks (by decide) (by decide)
  have hparam : ∀ t, 59 ∈ escapeBlanks t ↔ 59 ∈ t := mem_escapeBlanks (by decide) (by decide)
  have hends' : Ends 63 59 (escapeBlanks body) (escapeBlanks suffix) := by
    refine ⟨mt (hquery body).mp hends.body_query, ?_⟩
    rcases hends.rest with hhead | ⟨hnoquery, hnoparam, hhead⟩
    · obtain ⟨t, rfl⟩ := List.head?_eq_some_iff.mp hhead
      exact Or.inl rfl
    · refine Or.inr ⟨mt (hquery suffix).mp hnoquery, mt (hparam body).mp hnoparam, ?_⟩
      cases suffix with
      | nil => simp [escapeBlanks]
      | cons b t =>
          obtain rfl := hhead b rfl
          rintro _ ⟨⟩
          rfl
  rw [pathEnd_append hends, List.take_left, escapeBlanks_append, pathEnd_append hends', List.take_left]

/-- So it does not matter for a fragment. -/
theorem keepsFragment_escapeBlanks (front frag : Bytes) :
    KeepsFragment front (escapeBlanks frag) ↔ KeepsFragment front frag := by
  have hresolved : ∀ f : Bytes, Resolved 46 ((escapeBlanks f).splitOn 47).tail ↔
      Resolved 46 (f.splitOn 47).tail := by
    intro f
    have hsplit : (escapeBlanks f).splitOn 47 = (f.splitOn 47).map escapeBlanks := by
      apply splitOn_flatMap blankRendering
      intro b _ hb
      split_ifs at hb
      · exact absurd hb (by decide)
      · exact (List.mem_singleton.mp hb).symm
    rw [hsplit, ← List.map_tail]
    exact resolved_map blankRendering _
  unfold KeepsFragment
  rw [take_pathEnd_escapeBlanks, hresolved, mem_escapeBlanks (by decide) (by decide),
    mem_escapeBlanks (by decide) (by decide)]

/-! ## The fragment and the segments -/

theorem not_mem_mark {c : UInt8} (hc : c ≠ 35) {a b : Bytes} (ha : c ∉ a) (hb : c ∉ b) :
    c ∉ a ++ 35 :: b := by
  rw [List.mem_append, List.mem_cons]
  rintro (hmem | hmem | hmem)
  · exact ha hmem
  · exact hc hmem
  · exact hb hmem

/-- `\` is no `#`. -/
theorem count_map_toSlash (s : Bytes) : (s.map toSlash).count 35 = s.count 35 := by
  rw [List.count, List.countP_map]
  apply List.countP_congr
  intro b _
  rw [Function.comp_apply, toSlash]
  split_ifs with hb
  · rw [hb]
    decide
  · rfl

/-- A text without `\` stays as it is. -/
theorem map_toSlash {s : Bytes} (h : 92 ∉ s) : s.map toSlash = s := by
  refine (List.map_congr_left fun b hb => ?_).trans (List.map_id s)
  exact if_neg (ne_of_mem_of_not_mem hb h)

/-- The segments end in front of the `#`. -/
theorem normalizePath_of_ends {clean kept : Bytes} (hhead : clean.head? = some 47) (hclean : 35 ∉ clean)
    (h : 63 ∈ clean ∨ (63 ∉ kept ∧ 59 ∈ clean)) :
    ∃ before, 35 ∉ before ∧ normalizePath (clean ++ 35 :: kept) = before ++ 35 :: kept := by
  obtain ⟨body, suffix, rfl, hends⟩ := ends_cons hhead
  have hends' : Ends 63 59 (47 :: body) (suffix ++ 35 :: kept) := by
    refine ⟨hends.body_query, ?_⟩
    rcases hends.rest with hquery | ⟨hnoquery, hnoparam, hparam⟩
    · obtain ⟨t, rfl⟩ := List.head?_eq_some_iff.mp hquery
      exact Or.inl rfl
    · have hfree : 63 ∉ 47 :: body ++ suffix := by
        rw [List.mem_append, not_or]
        exact ⟨hends.body_query, hnoquery⟩
      obtain ⟨hkept, hmem⟩ := h.resolve_left hfree
      have hsuffix := (List.mem_append.mp hmem).resolve_left hnoparam
      obtain ⟨b, t, rfl⟩ := List.exists_cons_of_ne_nil (List.ne_nil_of_mem hsuffix)
      obtain rfl := hparam b rfl
      exact Or.inr ⟨not_mem_mark (by decide) hnoquery hkept, hnoparam, by simp⟩
  refine ⟨pathText 47 (cleanSegs 46 ((body.map toSlash).splitOn 47)) ++ suffix, ?_, ?_⟩
  · rw [← normalizePath_append hends]
    intro hmem
    rcases mem_normalizePath hmem with hmem | hmem
    · cases hmem
    · exact hclean hmem
  · rw [List.append_assoc, normalizePath_append hends', List.append_assoc]

/-- The segments of a text in which `\` is read as `/`. -/
theorem splitOn_toSlash {f s : Bytes} {rest : List Bytes} (h : (f.map toSlash).splitOn 47 = s :: rest) :
    f.map toSlash = s ++ pathText 47 rest ∧ ∀ t ∈ s :: rest, 92 ∉ t ∧ 47 ∉ t := by
  constructor
  · have hjoin := pathText_split 47 (f.map toSlash)
    rw [h] at hjoin
    exact (List.cons.inj hjoin).2
  · intro t ht
    rw [← h] at ht
    refine ⟨fun hmem => ?_, not_mem_split ht⟩
    obtain ⟨b, -, hb⟩ := List.mem_map.mp (mem_of_mem_split ht hmem)
    unfold toSlash at hb
    split_ifs at hb with hslash
    · cases hb
    · exact hslash hb

/-- What the segments are resolved to when they end behind the `#`. -/
theorem normalizePath_mark {front frag suffix s : Bytes} {rest : List Bytes} (hfront : 35 ∉ front)
    (hends : Ends 63 59 (47 :: (front ++ 35 :: frag)) suffix) (hrest : (frag.map toSlash).splitOn 47 = s :: rest) :
    ∃ init x, (∀ t ∈ init, 35 ∉ t) ∧ 35 ∉ x ∧
      normalizePath (47 :: front ++ 35 :: (frag ++ suffix)) =
        pathText 47 (cleanSegs 46 (init ++ (x ++ 35 :: s) :: rest)) ++ suffix := by
  obtain ⟨init, x, hinit⟩ : ∃ init x, (front.map toSlash).splitOn 47 = init ++ [x] := by
    rcases List.eq_nil_or_concat ((front.map toSlash).splitOn 47) with hnil | ⟨init, x, hinit⟩
    · exact absurd hnil (List.splitOn_ne_nil 47 _)
    · exact ⟨init, x, hinit.trans (List.concat_eq_append ..)⟩
  have hfree : 35 ∉ front.map toSlash := by
    rw [← List.count_eq_zero, count_map_toSlash, List.count_eq_zero]
    exact hfront
  have hfirst : ∀ t ∈ init ++ [x], 35 ∉ t := by
    intro t ht hmem
    exact hfree (mem_of_mem_split (hinit ▸ ht) hmem)
  rw [List.forall_mem_append, List.forall_mem_singleton] at hfirst
  refine ⟨init, x, hfirst.1, hfirst.2, ?_⟩
  have hpath : 47 :: front ++ 35 :: (frag ++ suffix) = 47 :: (front ++ 35 :: frag) ++ suffix := by simp
  rw [hpath, normalizePath_append hends, List.map_append, List.map_cons]
  exact congrArg (fun segs => pathText 47 (cleanSegs 46 segs) ++ suffix)
    (splitOn_append_cons (show toSlash 35 ≠ 47 by decide) hinit hrest)

/-- The segments end behind the `#`. -/
theorem normalizePath_fragment {front kept : Bytes} (hfront : 35 ∉ front) (h₁ : 63 ∉ 47 :: front)
    (h₂ : 63 ∈ kept ∨ 59 ∉ 47 :: front) :
    (∃ before, 35 ∉ before ∧ normalizePath (47 :: front ++ 35 :: kept) = before ++ 35 :: kept) ↔
      92 ∉ kept.take (pathEnd kept) ∧ Resolved 46 ((kept.take (pathEnd kept)).splitOn 47).tail := by
  obtain ⟨frag, suffix, rfl, hends⟩ := exists_ends 63 59 kept
  have hends' : Ends 63 59 (47 :: (front ++ 35 :: frag)) suffix := by
    rw [← List.cons_append]
    refine ⟨not_mem_mark (by decide) h₁ hends.body_query, ?_⟩
    refine hends.rest.imp_right fun ⟨hquery, hparam, hhead⟩ => ⟨hquery, ?_, hhead⟩
    have hnone : 63 ∉ frag ++ suffix := by
      rw [List.mem_append, not_or]
      exact ⟨hends.body_query, hquery⟩
    exact not_mem_mark (by decide) (h₂.resolve_left hnone) hparam
  obtain ⟨s, rest, hrest⟩ := List.exists_cons_of_ne_nil (List.splitOn_ne_nil 47 (frag.map toSlash))
  obtain ⟨hfrag, hbody⟩ := splitOn_toSlash hrest
  obtain ⟨init, x, hinit, hx, htext⟩ := normalizePath_mark hfront hends' hrest
  rw [htext, pathEnd_append hends, List.take_left]
  constructor
  · rintro ⟨before, hbefore, heq⟩
    have hcount : (frag ++ suffix).count 35 = (s ++ pathText 47 rest ++ suffix).count 35 := by
      rw [← hfrag, List.count_append, List.count_append, count_map_toSlash]
    obtain ⟨segs, hresolved, hsegs, hkept⟩ :=
      resolved_of_mark (by decide) (by decide) hinit hx hbefore hcount heq
    have hsame : frag = s ++ pathText 47 segs := List.append_cancel_right hkept
    have hfree : ∀ t ∈ segs, 92 ∉ t ∧ 47 ∉ t := by
      intro t ht
      rcases hsegs t ht with ht | rfl
      · exact hbody t (List.mem_cons_of_mem s ht)
      · simp
    -- what is kept has no `\`, and so the fragment has none
    have hslash : 92 ∉ frag := by
      rw [hsame, List.mem_append, not_or, pathText, List.mem_flatMap]
      refine ⟨(hbody s List.mem_cons_self).1, ?_⟩
      rintro ⟨t, ht, hmem⟩
      exact (hfree t ht).1 ((List.mem_cons.mp hmem).resolve_left (by decide))
    rw [map_toSlash hslash] at hfrag hrest
    have hsegs : segs = rest := by
      refine pathText_inj (fun t ht => (hfree t ht).2) (fun t ht => ?_)
        (List.append_cancel_left (hsame.symm.trans hfrag))
      exact (hbody t (List.mem_cons_of_mem s ht)).2
    rw [hrest, List.tail_cons, ← hsegs]
    exact ⟨hslash, hresolved⟩
  · rintro ⟨hslash, hresolved⟩
    rw [map_toSlash hslash] at hfrag hrest
    rw [hrest, List.tail_cons] at hresolved
    obtain ⟨before, hbefore, hclean⟩ := mark_kept (show (35 : UInt8) ≠ 47 by decide) (by decide) hinit hx hresolved
    exact ⟨before, hbefore, by rw [hclean, hfrag, List.append_assoc, List.cons_append]⟩

/-- **When the segments are resolved and the fragment is left alone.** -/
theorem normalizePath_fragment_iff {clean kept : Bytes} (hhead : clean.head? = some 47) (hclean : 35 ∉ clean) :
    (∃ before, 35 ∉ before ∧ normalizePath (clean ++ 35 :: kept) = before ++ 35 :: kept) ↔
      KeepsFragment clean kept := by
  unfold KeepsFragment
  by_cases h : 63 ∈ clean ∨ (63 ∉ kept ∧ 59 ∈ clean)
  · exact iff_of_true (normalizePath_of_ends hhead hclean h) (or_assoc.mp (Or.inl h))
  · obtain ⟨front, rfl⟩ := List.head?_eq_some_iff.mp hhead
    have hfront : 35 ∉ front := fun hmem => hclean (List.mem_cons_of_mem 47 hmem)
    rw [not_or, not_and_or, not_not] at h
    rw [normalizePath_fragment hfront h.1 h.2]
    exact ⟨fun hkeep => Or.inr (Or.inr hkeep), fun hkeep => by tauto⟩

/-! ## The fragment of a URL -/

/-- What stands behind the first `#` is behind it whatever stands in front. -/
theorem exists_behind {a text kept : Bytes} (ha : 35 ∉ a) :
    (∃ before, 35 ∉ before ∧ a ++ text = before ++ 35 :: kept) ↔
      ∃ before, 35 ∉ before ∧ text = before ++ 35 :: kept := by
  constructor
  · rintro ⟨before, hbefore, heq⟩
    rcases List.append_eq_append_iff.mp heq with ⟨b, rfl, rfl⟩ | ⟨b, rfl, hb⟩
    · exact ⟨b, fun hmem => hbefore (List.mem_append_right a hmem), rfl⟩
    · cases b with
      | nil => exact ⟨[], List.not_mem_nil, hb.symm⟩
      | cons c b =>
          obtain ⟨rfl, -⟩ := List.cons.inj hb
          exact absurd (List.mem_append_right before List.mem_cons_self) ha
  · rintro ⟨before, hbefore, rfl⟩
    refine ⟨a ++ before, ?_, (List.append_assoc a before _).symm⟩
    rw [List.mem_append, not_or]
    exact ⟨ha, hbefore⟩

/-- What a URL becomes: its site and its port, which have no `#`, and its path. -/
theorem specialText_eq_some {url text : Bytes} (h : specialText url = some text) :
    ∃ authority path, 35 ∉ authority ∧
      ulSinglePathEx2NointerSpecialForPs20110221 (urlPath url) limitsEx2.path = some path ∧
      text = authority ++ normalizePath path := by
  unfold specialText at h
  split at h
  · next site port path hparse =>
      obtain ⟨-, site', port', path', -, -, hpath, hparts⟩ := parseUrl_eq_some_iff.mp hparse
      cases hparts
      rw [getPath_stripUrl url (by decide) (by decide)] at hpath
      split_ifs at hpath with hshort
      cases hpath
      simp only [Option.bind_eq_bind, Option.bind_eq_some_iff, Option.pure_def,
        Option.some.injEq] at h
      obtain ⟨site', hsite, port', hport, path, hsingle, norm, hnorm, rfl⟩ := h
      have hnosite := not_mem_site hsite
      have hnoport : 35 ∉ portText port' :=
        (ulNormalizePort_eq_some hport).portPart.not_mem (by decide) (by decide)
      unfold ulNormalizePathEx2 at hnorm
      split_ifs at hnorm
      obtain rfl := Option.some.inj hnorm
      refine ⟨site' ++ portText port', path, ?_, hsingle, ?_⟩
      · rw [List.mem_append, not_or]
        exact ⟨hnosite, hnoport⟩
      · unfold portText
        split_ifs
        · rw [List.append_nil]
        · simp
  · cases h

/-- **When the fragment is left alone.** The path of a URL that is normalised with its fragment is cleaned, with
the fragment behind it; the fragment stands behind the first `#` of what is printed exactly if `KeepsFragment`. -/
theorem fragment_kept_iff {url buf out front frag : Bytes} {bufSize : ℕ}
    (h : ulNormalizeUrlEx2SpecialForPs20110221 url buf bufSize = some out)
    (hpath : urlPath url = front ++ 35 :: frag) (hfront : 35 ∉ front) :
    ∃ text clean kept, specialText url = some text ∧ out = printTo buf bufSize text ∧
      ulSinglePathEx2NointerSpecialForPs20110221 (urlPath url) limitsEx2.path = some (clean ++ 35 :: kept) ∧
      35 ∉ clean ∧ (kept = frag ∨ kept = escapeBlanks frag) ∧
      ((∃ before, 35 ∉ before ∧ text = before ++ 35 :: kept) ↔ KeepsFragment front frag) := by
  obtain ⟨text, htext, rfl⟩ := Option.map_eq_some_iff.mp h
  obtain ⟨authority, path, hauthority, hsingle, rfl⟩ := specialText_eq_some htext
  have hhead : front.head? = some 47 := by
    have hhead := urlPath_head url
    rw [hpath] at hhead
    cases front with
    | nil => cases hhead
    | cons b t => exact hhead
  have hspecial := hsingle
  rw [hpath] at hspecial
  obtain ⟨clean, kept, rfl, hclean, hroot, -, hmem, hkept⟩ := singlePathSpecial_fragment hfront hhead hspecial
  refine ⟨_, clean, kept, htext, rfl, hsingle, hclean, hkept, ?_⟩
  have hsame : KeepsFragment clean kept ↔ KeepsFragment front frag := by
    have hchar : KeepsFragment clean kept ↔ KeepsFragment front kept := by
      unfold KeepsFragment
      rw [hmem 63 (Or.inl rfl), hmem 59 (Or.inr rfl)]
    rw [hchar]
    rcases hkept with rfl | rfl
    · rfl
    · exact keepsFragment_escapeBlanks front frag
  rw [exists_behind hauthority, normalizePath_fragment_iff hroot hclean, hsame]

/-- A fragment of names behind a path with a `..`. -/
theorem fragment_kept_iff_names :
    ∃ before, 35 ∉ before ∧ ascii "a.b/y#top/z" = before ++ 35 :: ascii "top/z" := by
  have hnormal : ulNormalizeUrlEx2SpecialForPs20110221 (ascii "http://a.b/x/../y#top/z") [] 2048 =
      some (ascii "a.b/y#top/z") := by decide +kernel
  have hpath : urlPath (ascii "http://a.b/x/../y#top/z") = ascii "/x/../y" ++ 35 :: ascii "top/z" := by
    decide +kernel
  have hsame : specialText (ascii "http://a.b/x/../y#top/z") = some (ascii "a.b/y#top/z") := by
    decide +kernel
  obtain ⟨text, clean, kept, htext, -, -, -, hkept, hiff⟩ := fragment_kept_iff hnormal hpath (by decide)
  obtain rfl : text = ascii "a.b/y#top/z" := Option.some.inj (htext.symm.trans hsame)
  have hfrag : kept = ascii "top/z" := by
    rcases hkept with rfl | rfl
    · rfl
    · decide
  rw [← hfrag]
  exact hiff.mpr (by decide +kernel)

/-- A `..` behind the `#` takes the `#` away. -/
theorem fragment_lost :
    ulSinglePathEx2NointerSpecialForPs20110221 (urlPath (ascii "http://a.b/a#/../b")) limitsEx2.path =
      some (ascii "/a#/../b") ∧
    ulNormalizeUrlEx2SpecialForPs20110221 (ascii "http://a.b/a#/../b") [] 2048 = some (ascii "a.b/b") ∧
    ¬ ∀ url text clean kept : Bytes, specialText url = some text →
      ulSinglePathEx2NointerSpecialForPs20110221 (urlPath url) limitsEx2.path = some (clean ++ 35 :: kept) →
      35 ∉ clean → ∃ before, 35 ∉ before ∧ text = before ++ 35 :: kept := by
  have hsingle : ulSinglePathEx2NointerSpecialForPs20110221 (urlPath (ascii "http://a.b/a#/../b"))
      limitsEx2.path = some (ascii "/a#/../b") := by decide +kernel
  have htext : specialText (ascii "http://a.b/a#/../b") = some (ascii "a.b/b") := by decide +kernel
  refine ⟨hsingle, ?_, fun h => ?_⟩
  · rw [ulNormalizeUrlEx2SpecialForPs20110221, htext]
    decide
  · obtain ⟨before, -, heq⟩ := h _ _ (ascii "/a") (ascii "/../b") htext hsingle (by decide)
    have hmem : 35 ∈ ascii "a.b/b" := heq ▸ List.mem_append_right before List.mem_cons_self
    exact absurd hmem (by decide)

end Asenal.Url
