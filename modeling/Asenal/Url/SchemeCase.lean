import Asenal.Url.Family

/-!
# Schemes in capital letters

`ul_check_url` takes a scheme in letters of either case. `ul_space_escape`, which it calls when there is a
blank in the path, knows the scheme in small letters only: behind any other it takes the slashes of the
scheme for the beginning of the path, and what is in front of its colon for the site.

* `ulSpaceEscape_scheme` — what is measured behind the two kinds of schemes.
* `checkBehind_eq` — all that is done behind a host is to check a path.
* `alike_iff` — when the case of the scheme makes no difference.
-/

namespace Asenal.Url

open Asenal.Lib.Text Asenal.Lib.CString Asenal.Lib.Segments

/-! ## Schemes -/

/-- What stands behind two schemes is treated alike: the verdicts are the same, and so are the strings that
are left behind the schemes. -/
def Alike (p q rest : Bytes) : Prop :=
  (ulCheckUrl (p ++ rest)).1 = (ulCheckUrl (q ++ rest)).1 ∧
    (ulCheckUrl (p ++ rest)).2.drop scheme.length = (ulCheckUrl (q ++ rest)).2.drop scheme.length

/-- The digits of the port that stands in front of the rest of a URL. -/
def portDigits (s : Bytes) : Bytes := if s.head? = some 58 then s.tail.takeWhile isDigit else []

/-- What stands behind the port. -/
def behindPort (s : Bytes) : Bytes := if s.head? = some 58 then s.tail.dropWhile isDigit else s

/-- The port as it is written, with its colon: a default port is not, nor is a colon without digits. -/
def keptPort (s : Bytes) : Bytes :=
  if portDigits s = [] ∨ portDigits s = ascii "80" then [] else 58 :: portDigits s

/-- Behind the scheme stand a host and a port that are accepted, and a path with a blank and without characters
that it must not have: the blank is to be escaped. -/
structure ToEscape (s : Bytes) : Prop where
  host : (hostRun s).ok = true
  port : (portDigits (s.dropWhile hostChar)).length ≤ 5
  slash : (behindPort (s.dropWhile hostChar)).head? = some 47
  char : ∀ b ∈ behindPort (s.dropWhile hostChar), uchRes b = true
  blank : 32 ∈ behindPort (s.dropWhile hostChar)

/-- What stands behind the scheme is within both kinds of limits, or in none of them: within those behind a
scheme in small letters, for the URL, its site and its path; and within the one behind any other scheme, for
the URL from the slashes of the scheme on. -/
def CaseFree (s : Bytes) : Prop :=
  ToEscape s →
    let site := shortLength (s.takeWhile hostChar)
    let port := (keptPort (s.dropWhile hostChar)).length
    let path := (escapeBlanks (behindPort (s.dropWhile hostChar))).length
    if 2 + (site + port + path) < limits.path then site ≤ limits.site
    else limits.url ≤ 7 + (site + port + path) ∨ limits.path ≤ path ∨ limits.site < site

variable {p q s host port path : Bytes}

/-- The scheme is read, whatever its letters are. -/
theorem IsScheme.delete (h : IsScheme p) (rest : Bytes) :
    ulDeleteInter (p ++ rest) = p ++ ulDeleteInter rest ∧
      schemeLength (p ++ ulDeleteInter rest) = scheme.length := by
  have hline : p.filter (fun b => !lfcr b) = p := by
    rw [List.filter_eq_self]
    intro b hb
    by_contra hlfcr
    have hend : b = 10 ∨ b = 13 := by
      simp only [lfcr] at hlfcr
      grind
    rcases hend with rfl | rfl
    · exact h.not_mem rfl (by decide) (by decide) hb
    · exact h.not_mem rfl (by decide) (by decide) hb
  have hlen : p.length = scheme.length := h.length
  constructor
  · rw [ulDeleteInter, List.filter_append, hline, ulDeleteInter]
  · rw [schemeLength, hasScheme, ← hlen, List.take_left, h]
    rfl

/-! ## Blanks -/

/-- A URL is within the limits behind the scheme `p`, when its blanks are escaped. -/
def Fits (p : Bytes) (site port path : ℕ) : Prop :=
  7 + (site + port + path) < limits.url ∧
    if p = scheme then path < limits.path ∧ site ≤ limits.site
    else 2 + (site + port + path) < limits.path

instance (p : Bytes) (site port path : ℕ) : Decidable (Fits p site port path) :=
  inferInstanceAs (Decidable (_ ∧ _))

/-- Behind the scheme only the path has blanks. -/
theorem escapeBlanks_scheme (hp : IsScheme p) (hhost : IsHost host) (hport : PortPart port) (path : Bytes) :
    escapeBlanks (p ++ (host ++ port ++ path)) = p ++ (host ++ port ++ escapeBlanks path) := by
  have hfront := escapeBlanks_of_not_mem (hp.not_mem rfl (by decide) (by decide))
  have hauthority := escapeBlanks_of_not_mem
    (hhost.not_mem_append hport (b := 32) rfl rfl (by decide) (by decide))
  rw [escapeBlanks_append, escapeBlanks_append, hfront, hauthority]

/-- Behind a scheme that is not in small letters its slashes are taken for those of the path. -/
theorem ulSpaceEscape_capital (hp : IsScheme p) (hne : p ≠ scheme) (t : Bytes) :
    ulSpaceEscape (p ++ t) limits =
      if (escapeBlanks (p ++ t)).length < limits.url ∧ (escapeBlanks (p ++ t)).length < 5 + limits.path then
        some (escapeBlanks (p ++ t))
      else none := by
  obtain ⟨letters, hsplit, hlen, hletters⟩ := hp.split
  have hfree : ∀ c : UInt8, letDigit c = false → c ∉ letters := by
    intro c hc hmem
    rw [hletters c hmem] at hc
    cases hc
  have htext : escapeBlanks (p ++ t) = p ++ escapeBlanks t := by
    rw [escapeBlanks_append, escapeBlanks_of_not_mem (hp.not_mem rfl (by decide) (by decide))]
  have htake : (p ++ escapeBlanks t).take scheme.length = p := List.take_left' hp.length
  have hslash : strchr (p ++ escapeBlanks t) 47 = some 5 := by
    rw [hsplit, List.append_assoc, strchr_append (hfree 47 rfl), hlen]
    rfl
  have hcolon : strchr (p ++ escapeBlanks t) 58 = some 4 := by
    rw [hsplit, List.append_assoc, strchr_append (hfree 58 rfl), hlen]
    rfl
  rw [ulSpaceEscape, escapeLoop_eq, List.nil_append, htext]
  by_cases htotal : (p ++ escapeBlanks t).length < limits.url
  · rw [if_pos htotal]
    dsimp only
    rw [htake, if_neg hne, hslash, hcolon, if_neg (by decide), Option.any_some]
    simp only [htotal, true_and, decide_eq_true_eq]
    by_cases hpath : (p ++ escapeBlanks t).length < 5 + limits.path
    · have hpos : 0 < limits.path := by decide
      rw [if_neg (by omega), if_neg (by decide), if_neg (by decide), if_neg (fun h => absurd h.1 (by decide)),
        if_pos hpath]
    · rw [if_pos (by omega), if_neg hpath]
  · rw [if_neg htotal, if_neg fun h => htotal h.1]

/-- **What is measured behind a scheme.** -/
theorem ulSpaceEscape_scheme (hp : IsScheme p) (hhost : IsHost host) (hport : PortPart port)
    (hpath : path.head? = some 47) : ulSpaceEscape (p ++ (host ++ port ++ path)) limits =
      if Fits p host.length port.length (escapeBlanks path).length then
        some (p ++ (host ++ port ++ escapeBlanks path))
      else none := by
  have hescaped := escapeBlanks_scheme hp hhost hport path
  have hlen : (escapeBlanks (p ++ (host ++ port ++ path))).length =
      7 + (host.length + port.length + (escapeBlanks path).length) := by
    rw [hescaped, List.length_append, List.length_append, List.length_append, hp.length]
  by_cases hne : p = scheme
  · rw [ulSpaceEscape_eq (Or.inr hne) hhost hport hpath, hescaped, ← hescaped, hlen]
    simp only [Fits, if_pos hne]
  · rw [ulSpaceEscape_capital hp hne, hescaped, ← hescaped, hlen]
    simp only [Fits, if_neg hne]
    have hiff : 7 + (host.length + port.length + (escapeBlanks path).length) < 5 + limits.path ↔
        2 + (host.length + port.length + (escapeBlanks path).length) < limits.path := by omega
    simp only [hiff]

/-! ## Behind the host -/

section port

variable {t : Bytes} (hs : s.head? ≠ some 58)

theorem portDigits_colon : portDigits (58 :: t) = t.takeWhile isDigit := rfl

theorem behindPort_colon : behindPort (58 :: t) = t.dropWhile isDigit := rfl

include hs

theorem portDigits_noColon : portDigits s = [] := if_neg hs

theorem behindPort_noColon : behindPort s = s := if_neg hs

theorem keptPort_noColon : keptPort s = [] := if_pos (Or.inl (portDigits_noColon hs))

end port

theorem portPart_keptPort (s : Bytes) : PortPart (keptPort s) := by
  by_cases hcolon : s.head? = some 58
  · obtain ⟨t, rfl⟩ := List.head?_eq_some_iff.mp hcolon
    rw [keptPort, portDigits_colon]
    split_ifs
    · exact .nil
    · exact .cons fun b hb => List.mem_takeWhile_imp hb
  · rw [keptPort_noColon hcolon]
    exact .nil

/-- What is written of a port is not longer than what is read. -/
theorem length_keptPort_le (s : Bytes) : (keptPort s).length + (behindPort s).length ≤ s.length := by
  by_cases hcolon : s.head? = some 58
  · obtain ⟨t, rfl⟩ := List.head?_eq_some_iff.mp hcolon
    have hdigits := congrArg List.length (List.takeWhile_append_dropWhile (p := isDigit) (l := t))
    rw [List.length_append] at hdigits
    rw [keptPort, portDigits_colon, behindPort_colon, List.length_cons]
    split_ifs
    · simp only [List.length_nil]
      omega
    · simp only [List.length_cons]
      omega
  · rw [keptPort_noColon hcolon, behindPort_noColon hcolon, List.length_nil, Nat.zero_add]

/-- The path behind a colon. -/
theorem checkBehind_colon {r : Run} {t : Bytes} (ht : r.rest = 58 :: t) (len : ℕ) (front : Bytes) :
    checkBehind len front r =
      if (t.takeWhile isDigit).length ≤ 5 ∧ (t.dropWhile isDigit).head? = some 47 then
        if t.takeWhile isDigit = [] ∨ t.takeWhile isDigit = ascii "80" then
          checkPath limits len front r.text r.out.length (t.dropWhile isDigit)
        else checkPath limits len front (overwrite r.text r.out.length (58 :: t.takeWhile isDigit))
          (r.out.length + (58 :: t.takeWhile isDigit).length) (t.dropWhile isDigit)
      else (false, front ++ r.text) := by
  have hcolon : r.rest.head? = some 58 := by rw [ht, List.head?_cons]
  unfold checkBehind
  dsimp only
  rw [if_pos hcolon, ht, List.tail_cons]
  by_cases hslash : t.head? = some 47
  · obtain ⟨u, rfl⟩ := List.head?_eq_some_iff.mp hslash
    have hdigits : (47 :: u).takeWhile isDigit = [] ∧ (47 :: u).dropWhile isDigit = 47 :: u := ⟨rfl, rfl⟩
    rw [if_pos hslash, hdigits.1, hdigits.2, if_pos ⟨Nat.zero_le 5, hslash⟩, if_pos (Or.inl rfl)]
  · rw [if_neg hslash]
    by_cases hgood : (t.takeWhile isDigit).length ≤ 5 ∧ (t.dropWhile isDigit).head? = some 47
    · -- no digits in front of the path would mean that the path comes first
      have hne : t.takeWhile isDigit ≠ [] := by
        intro hnil
        have hsplit := List.takeWhile_append_dropWhile (p := isDigit) (l := t)
        rw [hnil, List.nil_append] at hsplit
        exact hslash (hsplit ▸ hgood.2)
      rw [if_pos hgood, if_neg (by rw [not_or, not_not]; exact ⟨by omega, hgood.2⟩)]
      by_cases h80 : t.takeWhile isDigit = ascii "80"
      · rw [if_neg (not_not.mpr h80), if_pos (Or.inr h80)]
      · rw [if_pos h80, if_neg (not_or.mpr ⟨hne, h80⟩), List.length_cons, Nat.add_assoc]
    · rw [if_neg hgood, if_pos]
      rw [not_and_or, Nat.not_le] at hgood
      exact hgood

/-- **All that is done behind a host is to check a path**, which is written behind the host and the port. -/
theorem checkBehind_eq (r : Run) : ∃ mem pout, pout ≤ mem.length ∧
    mem.take pout = r.out ++ keptPort r.rest ∧ ∀ len front, checkBehind len front r =
      if (portDigits r.rest).length ≤ 5 ∧ (behindPort r.rest).head? = some 47 then
        checkPath limits len front mem pout (behindPort r.rest)
      else (decide (r.rest = []), front ++ r.text) := by
  have hout : r.text.take r.out.length = r.out := by rw [Run.text, List.append_assoc, List.take_left]
  have hlen : r.out.length ≤ r.text.length := by
    rw [Run.text, List.append_assoc, List.length_append]
    exact Nat.le_add_right _ _
  by_cases hcolon : r.rest.head? = some 58
  · obtain ⟨t, ht⟩ := List.head?_eq_some_iff.mp hcolon
    simp only [checkBehind_colon ht]
    rw [keptPort, ht, portDigits_colon, behindPort_colon]
    by_cases h80 : t.takeWhile isDigit = [] ∨ t.takeWhile isDigit = ascii "80"
    · simp only [if_pos h80, List.append_nil]
      exact ⟨r.text, r.out.length, hlen, hout, fun len front => rfl⟩
    · simp only [if_neg h80]
      refine ⟨_, _, ?_, ?_, fun len front => rfl⟩
      · simp only [overwrite, List.length_append, List.length_take]
        omega
      · rw [take_overwrite hlen, hout]
  · rw [keptPort_noColon hcolon, behindPort_noColon hcolon, portDigits_noColon hcolon, List.append_nil]
    refine ⟨r.text, r.out.length, hlen, hout, ?_⟩
    intro len front
    unfold checkBehind
    dsimp only
    rw [if_neg hcolon]
    by_cases hslash : r.rest.head? = some 47
    · rw [if_pos hslash, if_pos ⟨Nat.zero_le 5, hslash⟩]
    · rw [if_neg hslash, if_neg fun h => hslash (And.right h)]
      by_cases hnil : r.rest = []
      · rw [if_neg (not_not.mpr hnil), decide_eq_true hnil]
      · rw [if_pos hnil, decide_eq_false hnil]

/-- What is left of a path behind a scheme. -/
theorem checkPath_scheme {mem : Bytes} {pout len : ℕ} (hp : IsScheme p) (hhost : IsHost host)
    (hport : PortPart port) (hpath : path.head? = some 47) (hpout : pout ≤ mem.length)
    (hmem : mem.take pout = host ++ port) (hlen : 7 + (host ++ port ++ path).length ≤ len) :
    checkPath limits len p mem pout path =
      if path.dropWhile uchRes ≠ [] then (false, p ++ overwrite mem pout (path.takeWhile uchRes))
      else if 32 ∈ path ∧ ¬ Fits p host.length port.length (escapeBlanks path).length then
        (false, p ++ (host ++ port ++ path))
      else (true, p ++ (host ++ port ++ escapeBlanks path)) := by
  unfold checkPath
  rw [scanPath_copy]
  dsimp only
  by_cases hrest : path.dropWhile uchRes = []
  · have htake : path.takeWhile uchRes = path := by
      have hsplit := List.takeWhile_append_dropWhile (p := uchRes) (l := path)
      rwa [hrest, List.append_nil] at hsplit
    have hshort : ¬ len < (p ++ (host ++ port ++ path)).length := by
      rw [List.length_append, hp.length]
      omega
    rw [if_neg (not_not.mpr hrest), if_neg (not_not.mpr hrest), htake, take_overwrite hpout, hmem, if_neg hshort,
      ulSpaceEscape_scheme hp hhost hport hpath]
    by_cases hblank : 32 ∈ path
    · rw [if_pos hblank]
      by_cases hfits : Fits p host.length port.length (escapeBlanks path).length
      · rw [if_pos hfits, if_neg fun h => h.2 hfits]
      · rw [if_neg hfits, if_pos ⟨hblank, hfits⟩]
    · rw [if_neg hblank, if_neg fun h => hblank h.1, escapeBlanks_of_not_mem hblank]
  · rw [if_pos hrest, if_pos hrest]

/-! ## Whole URLs -/

/-- What is checked behind a scheme. -/
theorem ulCheckUrl_scheme (hp : IsScheme p) (rest : Bytes) : ulCheckUrl (p ++ rest) =
    if (hostRun (ulDeleteInter rest)).ok then
      checkBehind (7 + (ulDeleteInter rest).length) p (hostRun (ulDeleteInter rest))
    else (false, p ++ (hostRun (ulDeleteInter rest)).text) := by
  obtain ⟨hdelete, hscheme⟩ := hp.delete rest
  have hlen : p.length = scheme.length := hp.length
  unfold ulCheckUrl
  dsimp only
  rw [hdelete, hscheme, ← hlen, List.take_left, List.drop_left, List.length_append, hp.length]

/-- The limits for what stands behind the scheme. -/
abbrev FitsBehind (p s : Bytes) : Prop :=
  Fits p (shortLength (s.takeWhile hostChar)) (keptPort (s.dropWhile hostChar)).length
    (escapeBlanks (behindPort (s.dropWhile hostChar))).length

/-- What is left when the host and the port are accepted and there is a path. -/
theorem ulCheckUrl_path {rest : Bytes} (hs : ulDeleteInter rest = s) (hok : (hostRun s).ok = true)
    (hport : (portDigits (s.dropWhile hostChar)).length ≤ 5)
    (hslash : (behindPort (s.dropWhile hostChar)).head? = some 47) :
    ∃ cut kept t, ∀ p, IsScheme p → ulCheckUrl (p ++ rest) =
      if (behindPort (s.dropWhile hostChar)).dropWhile uchRes ≠ [] then (false, p ++ cut)
      else if 32 ∈ behindPort (s.dropWhile hostChar) ∧ ¬ FitsBehind p s then (false, p ++ kept)
      else (true, p ++ t) := by
  obtain ⟨htook, hrest⟩ := hostRun_took hok
  have hlen := length_hostRun_le hok
  have hsite := htook.text_drop.1
  obtain ⟨mem, pout, hpout, hmem, hcheck⟩ := checkBehind_eq (hostRun s)
  have hshort := length_keptPort_le (hostRun s).rest
  rw [hrest] at hmem hlen hshort
  simp only [hrest, hport, hslash, and_self, if_true] at hcheck
  have htotal : 7 + ((hostRun s).out ++ keptPort (s.dropWhile hostChar) ++
      behindPort (s.dropWhile hostChar)).length ≤ 7 + s.length := by
    simp only [List.length_append]
    omega
  refine ⟨overwrite mem pout ((behindPort (s.dropWhile hostChar)).takeWhile uchRes),
    (hostRun s).out ++ keptPort (s.dropWhile hostChar) ++ behindPort (s.dropWhile hostChar),
    (hostRun s).out ++ keptPort (s.dropWhile hostChar) ++ escapeBlanks (behindPort (s.dropWhile hostChar)),
    fun p hp => ?_⟩
  rw [ulCheckUrl_scheme hp, hs, if_pos hok, hcheck, checkPath_scheme hp (hostRun_out hok).1
    (portPart_keptPort _) hslash hpout hmem htotal, hsite]

/-- A blank is escaped if the URL is within the limits behind its scheme. -/
theorem ulCheckUrl_toEscape {rest : Bytes} (hs : ulDeleteInter rest = s) (h : ToEscape s) :
    ∃ t kept, ∀ p, IsScheme p →
      ulCheckUrl (p ++ rest) = if FitsBehind p s then (true, p ++ t) else (false, p ++ kept) := by
  obtain ⟨_, kept, t, hcheck⟩ := ulCheckUrl_path hs h.host h.port h.slash
  refine ⟨t, kept, fun p hp => ?_⟩
  have hchar : (behindPort (s.dropWhile hostChar)).dropWhile uchRes = [] :=
    List.dropWhile_eq_nil_iff.mpr h.char
  rw [hcheck p hp, if_neg (not_not.mpr hchar)]
  by_cases hfits : FitsBehind p s
  · rw [if_pos hfits, if_neg fun hne => hne.2 hfits]
  · rw [if_neg hfits, if_pos ⟨h.blank, hfits⟩]

/-- Without a blank to be escaped the scheme does not matter. -/
theorem ulCheckUrl_noEscape {rest : Bytes} (hs : ulDeleteInter rest = s) (h : ¬ ToEscape s) :
    ∃ v t, ∀ p, IsScheme p → ulCheckUrl (p ++ rest) = (v, p ++ t) := by
  by_cases hok : (hostRun s).ok = true
  · by_cases hfork : (portDigits (s.dropWhile hostChar)).length ≤ 5 ∧
        (behindPort (s.dropWhile hostChar)).head? = some 47
    · obtain ⟨cut, _, t, hcheck⟩ := ulCheckUrl_path hs hok hfork.1 hfork.2
      by_cases hchar : (behindPort (s.dropWhile hostChar)).dropWhile uchRes = []
      · refine ⟨true, t, fun p hp => ?_⟩
        rw [hcheck p hp, if_neg (not_not.mpr hchar), if_neg]
        exact fun hblank => h ⟨hok, hfork.1, hfork.2, List.dropWhile_eq_nil_iff.mp hchar, hblank.1⟩
      · refine ⟨false, cut, fun p hp => ?_⟩
        rw [hcheck p hp, if_pos hchar]
    · obtain ⟨mem, pout, -, -, hcheck⟩ := checkBehind_eq (hostRun s)
      simp only [(hostRun_took hok).2, if_neg hfork] at hcheck
      refine ⟨decide (s.dropWhile hostChar = []), (hostRun s).text, fun p hp => ?_⟩
      rw [ulCheckUrl_scheme hp, hs, if_pos hok, hcheck]
  · refine ⟨false, (hostRun s).text, fun p hp => ?_⟩
    rw [ulCheckUrl_scheme hp, hs, if_neg hok]

/-- Results that differ in the case of the scheme alone. -/
theorem drop_scheme {t : Bytes} (hp : IsScheme p) : (p ++ t).drop scheme.length = t :=
  List.drop_left' hp.length

/-- When a scheme in small letters and another one have the same limits. -/
theorem fits_iff_fits {site port path : ℕ} (hp : p = scheme) (hq : q ≠ scheme) :
    (Fits p site port path ↔ Fits q site port path) ↔
      if 2 + (site + port + path) < limits.path then site ≤ limits.site
      else limits.url ≤ 7 + (site + port + path) ∨ limits.path ≤ path ∨ limits.site < site := by
  unfold Fits limits
  rw [if_pos hp, if_neg hq]
  dsimp only
  split_ifs <;> omega

/-- **When the case of the scheme makes no difference.** -/
theorem alike_iff (hp : IsScheme p) (hq : IsScheme q) (rest : Bytes) :
    Alike p q rest ↔ (p = scheme ↔ q = scheme) ∨ CaseFree (ulDeleteInter rest) := by
  by_cases hescape : ToEscape (ulDeleteInter rest)
  · obtain ⟨t, kept, hcheck⟩ := ulCheckUrl_toEscape rfl hescape
    -- the results are the same iff both are within the limits, or none is
    have halike : Alike p q rest ↔
        (FitsBehind p (ulDeleteInter rest) ↔ FitsBehind q (ulDeleteInter rest)) := by
      rw [Alike, hcheck p hp, hcheck q hq]
      by_cases hfits : FitsBehind p (ulDeleteInter rest) <;>
        by_cases hfits' : FitsBehind q (ulDeleteInter rest) <;>
        simp [hfits, hfits', drop_scheme hp, drop_scheme hq]
    have hfree : CaseFree (ulDeleteInter rest) ↔ _ := forall_prop_of_true hescape
    rw [halike, hfree]
    by_cases hps : p = scheme <;> by_cases hqs : q = scheme
    · simp only [hps, hqs, true_or]
    · rw [fits_iff_fits hps hqs]
      simp only [hps, hqs, iff_false, not_true_eq_false, false_or]
    · rw [iff_comm, iff_comm (a := FitsBehind p _), fits_iff_fits hqs hps]
      simp only [hps, hqs, iff_true, false_or]
    · simp only [FitsBehind, Fits, hps, hqs, if_false, true_or]
  · obtain ⟨v, t, hcheck⟩ := ulCheckUrl_noEscape rfl hescape
    refine iff_of_true ?_ (Or.inr fun h => absurd h hescape)
    rw [Alike, hcheck p hp, hcheck q hq, drop_scheme hp, drop_scheme hq]
    exact ⟨rfl, rfl⟩

/-- A blank behind a short host. -/
theorem alike_iff_short : Alike (ascii "HTTP://") scheme (ascii "a.b/ x") ↔
    (ascii "HTTP://" = scheme ↔ scheme = scheme) ∨ CaseFree (ulDeleteInter (ascii "a.b/ x")) :=
  alike_iff (by decide +kernel) (by decide +kernel) (ascii "a.b/ x")

/-- A host of 49 bytes with a blank in the path behind it is accepted only if the scheme is in capital letters. -/
theorem not_alike : ¬ ∀ p rest : Bytes, IsScheme p → Alike p scheme rest := by
  intro h
  have halike := h (ascii "HTTP://") (ascii "a." ++ List.replicate 47 98 ++ ascii "/ ") (by decide +kernel)
  have hcapital : (ulCheckUrl (ascii "HTTP://" ++ (ascii "a." ++ List.replicate 47 98 ++ ascii "/ "))).1 = true := by
    decide +kernel
  have hsmall : (ulCheckUrl (scheme ++ (ascii "a." ++ List.replicate 47 98 ++ ascii "/ "))).1 = false := by
    decide +kernel
  rw [halike.1, hsmall] at hcapital
  cases hcapital

end Asenal.Url
