import Asenal.Url.Check
import Asenal.Url.Normalize

/-!
# The two families with sizes

The functions with the suffixes `_ex` and `_ex2` differ in their limits only, so they agree on URLs
that stay within the smaller limits. Parsing looks at the URL as it is; the functions that escape
blanks look at the length of the path that comes out.

* `ulParseUrlEx_within`, `ulNormalizeUrlEx_within`, `ulCheckUrlEx_within` — function by function, what
  must stay within the limits for the two families to agree.
* `ulSpaceEscape_parts` — blanks are escaped in a URL that is within the limits.
* `families_agree` — the two families agree.
-/

namespace Asenal.Url

open Asenal.Lib.Text Asenal.Lib.CString Asenal.Lib.Segments

/-! ## The limits -/

/-- The site of a URL. -/
def urlSite (url : Bytes) : Bytes := ((stripUrl url).takeWhile inAuthority).takeWhile (· != 58)

/-- A URL, its site and its path stay within the limits. -/
structure Within (lim : Limits) (url : Bytes) : Prop where
  total : url.length < lim.url
  site : (urlSite url).length < lim.site
  path : (urlPath url).length < lim.path

/-- Each byte leaves one byte or more when blanks are escaped. -/
theorem length_escapeBlanks_cons (b : UInt8) (s : Bytes) :
    (escapeBlanks s).length + 1 ≤ (escapeBlanks (b :: s)).length := by
  rw [escapeBlanks_cons, List.length_append, ofChar]
  split_ifs <;> simp only [Token.text, List.length_cons, List.length_nil] <;> omega

/-- The text of a path is not longer than the path with its blanks escaped. -/
theorem length_cleanText_le (s : Bytes) : (cleanText s).length ≤ (escapeBlanks s).length := by
  induction s using chunk_induction with
  | nil => exact Nat.le_refl _
  | stray h₁ h₂ s h ih =>
      have hlen := length_escapeBlanks_cons 37 (h₁ :: h₂ :: s)
      rw [cleanText, tokens_stray h, List.flatMap_cons, List.length_append, ← cleanText]
      simp only [Token.text, List.length_cons, List.length_nil]
      omega
  | escape h₁ h₂ s h ih =>
      have hlen₁ := length_escapeBlanks_cons 37 (h₁ :: h₂ :: s)
      have hlen₂ := length_escapeBlanks_cons h₁ (h₂ :: s)
      have hlen₃ := length_escapeBlanks_cons h₂ s
      have htext : (ofEscape h₁ h₂).text.length ≤ 3 := by
        unfold ofEscape ofChar
        dsimp only
        split_ifs <;> simp [Token.text]
      rw [cleanText, tokens_escape h, List.flatMap_cons, List.length_append, ← cleanText]
      omega
  | short s h ih =>
      have hlen := length_escapeBlanks_cons 37 s
      rw [cleanText, tokens_short h, List.flatMap_cons, List.length_append, ← cleanText]
      simp only [Token.text, List.length_cons, List.length_nil]
      omega
  | char b s hb ih =>
      cases h : uchRes b with
      | false =>
          rw [cleanText, tokens_stop h]
          exact Nat.zero_le _
      | true =>
          rw [cleanText, tokens_char hb h, List.flatMap_cons, List.length_append, ← cleanText,
            escapeBlanks_cons, List.length_append]
          omega

/-! ## Parsing and normalising -/

/-- With the same sizes the URL is all that is measured. -/
theorem parseUrl_eq {m m' : ℕ} {url : Bytes} (h : url.length < m) (h' : url.length < m')
    (siteSize portSize pathSize : Option ℕ) :
    parseUrl m url siteSize portSize pathSize = parseUrl m' url siteSize portSize pathSize := by
  unfold parseUrl
  rw [if_neg (Nat.not_le.mpr h), if_neg (Nat.not_le.mpr h')]

/-- What is within the smaller limits is within the greater ones. -/
theorem limitsEx_lt : limitsEx.url < limitsEx2.url ∧ limitsEx.site < limitsEx2.site ∧
    limitsEx.port = limitsEx2.port ∧ limitsEx.path < limitsEx2.path := by decide

/-- The parts of a URL that is within the limits are not measured. -/
theorem getSite_getPath {url : Bytes} {lim : Limits} (h : Within lim url)
    (hpath : lim.path < 2 ^ 64) (hpos : 1 < lim.path) :
    getSite (authority (stripUrl url)) lim.site =
        (if urlSite url ≠ [] then some (urlSite url) else none) ∧
      getPath (stripUrl url) lim.path = some (urlPath url) := by
  have hcut := (cut_takeWhile (stripUrl url)).authority_eq
  rw [List.takeWhile_append_dropWhile] at hcut
  constructor
  · rw [hcut, getSite_eq]
    change (if urlSite url ≠ [] ∧ (urlSite url).length < lim.site then _ else _) = _
    simp only [h.site, and_true]
    rfl
  · rw [getPath_stripUrl url hpos hpath, if_pos h.path]

/-- The parts of a URL that is within the smaller limits. -/
theorem ulParseUrlEx_within {url : Bytes} (h : Within limitsEx url) :
    ulParseUrlEx url limitsEx.site limitsEx.port limitsEx.path =
      ulParseUrlEx2 url limitsEx2.site limitsEx2.port limitsEx2.path := by
  obtain ⟨hlturl, hltsite, hport, hltpath⟩ := limitsEx_lt
  have h' : Within limitsEx2 url :=
    ⟨h.total.trans hlturl, h.site.trans hltsite, h.path.trans hltpath⟩
  obtain ⟨hsite, hpath⟩ := getSite_getPath h (by decide) (by decide)
  obtain ⟨hsite', hpath'⟩ := getSite_getPath h' (by decide) (by decide)
  unfold ulParseUrlEx ulParseUrlEx2 parseUrl
  rw [if_neg (Nat.not_le.mpr h.total), if_neg (Nat.not_le.mpr h'.total)]
  simp only [Option.mapM_some, hsite, hsite', hpath, hpath', hport]

/-- A URL that is within the smaller limits is normalised alike, if its path is, too, with its blanks
escaped. -/
theorem ulNormalizeUrlEx_within {url : Bytes} (hwithin : Within limitsEx url)
    (h : (escapeBlanks (urlPath url)).length < limitsEx.path) (buf : Bytes) (bufSize : ℕ) :
    ulNormalizeUrlEx url buf bufSize = ulNormalizeUrlEx2 url buf bufSize := by
  obtain ⟨hlturl, hltsite, hport, hltpath⟩ := limitsEx_lt
  have hclean : (cleanText (urlPath url)).length < limitsEx.path :=
    (length_cleanText_le _).trans_lt h
  have hsingle : ulSinglePathExNointer (urlPath url) limitsEx.path =
      ulSinglePathEx2Nointer (urlPath url) limitsEx2.path := by
    rw [ulSinglePathExNointer, ulSinglePathEx2Nointer,
      singlePath_eq hwithin.path (Nat.le_succ _),
      singlePath_eq (hwithin.path.trans hltpath) (Nat.le_succ _)]
    simp only [hclean, hclean.trans hltpath]
  have hnorm : ∀ clean, ulSinglePathExNointer (urlPath url) limitsEx.path = some clean →
      ulNormalizePathEx clean = ulNormalizePathEx2 clean := by
    intro clean hsome
    rw [ulSinglePathExNointer, singlePath_eq hwithin.path (Nat.le_succ _)] at hsome
    split_ifs at hsome
    cases hsome
    have hlen : (cleanText (urlPath url)).length < limitsEx.url := hclean.trans (by decide)
    simp only [ulNormalizePathEx, ulNormalizePathEx2, hlen, hlen.trans hlturl]
  unfold ulNormalizeUrlEx ulNormalizeUrlEx2 normalizeUrl
  rw [ulParseUrlEx_within hwithin]
  split
  · next site port path hparse =>
      rw [← ulParseUrlEx_within hwithin] at hparse
      obtain ⟨-, _, _, _, -, -, hpath, hparts⟩ := parseUrl_eq_some_iff.mp hparse
      cases hparts
      rw [(getSite_getPath hwithin (by decide) (by decide)).2] at hpath
      cases hpath
      simp only [← hsingle]
      cases hclean : ulSinglePathExNointer (urlPath url) limitsEx.path with
      | none => rfl
      | some clean => simp only [Option.bind_eq_bind, Option.bind_some, hnorm clean hclean]
  · rfl

/-! ## Checking -/

/-- Blanks are escaped in a URL that has a scheme in small letters or none, if the URL, its site and its
path are short enough. -/
theorem ulSpaceEscape_eq {front host port path : Bytes} {lim : Limits}
    (hfront : front = [] ∨ front = scheme) (hhost : IsHost host)
    (hport : PortPart port) (hpath : path.head? = some 47) :
    ulSpaceEscape (front ++ (host ++ port ++ path)) lim =
      if (escapeBlanks (front ++ (host ++ port ++ path))).length < lim.url ∧
          (escapeBlanks path).length < lim.path ∧ host.length ≤ lim.site then
        some (escapeBlanks (front ++ (host ++ port ++ path)))
      else none := by
  have hpos := List.length_pos_of_ne_nil hhost.ne_nil
  have hfree : ∀ b, letDigHy b = false → isDigit b = false → b ≠ 46 → b ≠ 58 →
      b ∉ host ++ port := fun b => hhost.not_mem_append hport
  have hnoblank : 32 ∉ front ++ (host ++ port) := by
    intro hmem
    rcases List.mem_append.mp hmem with hmem | hmem
    · rcases hfront with rfl | rfl
      · exact absurd hmem List.not_mem_nil
      · exact absurd hmem (by decide)
    · exact hfree 32 rfl rfl (by decide) (by decide) hmem
  obtain ⟨p, rfl⟩ := List.head?_eq_some_iff.mp hpath
  have hfirst : escapeBlanks (47 :: p) = 47 :: escapeBlanks p := escapeBlanks_cons 47 p
  have htext : escapeBlanks (front ++ (host ++ port ++ 47 :: p)) =
      front ++ (host ++ port ++ 47 :: escapeBlanks p) := by
    rw [← List.append_assoc, escapeBlanks_append, escapeBlanks_of_not_mem hnoblank, hfirst,
      List.append_assoc]
  -- behind the scheme comes the host, which is not taken for one
  have hpin : (if (front ++ (host ++ port ++ 47 :: escapeBlanks p)).take scheme.length = scheme then
      (front ++ (host ++ port ++ 47 :: escapeBlanks p)).drop scheme.length else
      front ++ (host ++ port ++ 47 :: escapeBlanks p)) = host ++ port ++ 47 :: escapeBlanks p := by
    rcases hfront with rfl | rfl
    · have hno := hasScheme_isHost hhost (port ++ 47 :: escapeBlanks p)
      rw [if_neg, List.nil_append]
      rintro htake
      rw [List.nil_append, List.append_assoc] at htake
      rw [hasScheme, htake] at hno
      exact absurd hno (by decide)
    · rw [List.take_left, if_pos rfl, List.drop_left]
  have hslash : strchr (host ++ port ++ 47 :: escapeBlanks p) 47 = some (host ++ port).length := by
    rw [strchr_append (hfree 47 rfl rfl (by decide) (by decide)), strchr_cons_self, Option.map_some,
      Nat.zero_add]
  have h58 : 58 ∉ host := hhost.not_mem rfl (by decide)
  have hend : strchr (host ++ port ++ 47 :: escapeBlanks p) 58 ≠ some 0 ∧
      siteEnd (strchr (host ++ port ++ 47 :: escapeBlanks p) 58) (some (host ++ port).length) =
        some (host.length - 1) := by
    rw [List.append_assoc, strchr_append h58]
    cases port with
    | nil =>
        rw [List.nil_append, List.append_nil]
        cases strchr (47 :: escapeBlanks p) 58 with
        | none => exact ⟨by simp, rfl⟩
        | some j =>
            rw [Option.map_some]
            refine ⟨fun h => ?_, if_neg (by omega)⟩
            have := Option.some.inj h
            omega
    | cons b port =>
        rw [hport.head b rfl, List.cons_append, strchr_cons_self, Option.map_some, Nat.zero_add]
        refine ⟨fun h => ?_, if_pos (by simp)⟩
        have := Option.some.inj h
        omega
  have hlen : (host ++ port ++ 47 :: escapeBlanks p).length - (host ++ port).length =
      (47 :: escapeBlanks p).length := by
    rw [List.length_append, Nat.add_sub_cancel_left]
  have hpath0 : some (host ++ port).length ≠ some 0 := by
    intro h
    have := Option.some.inj h
    rw [List.length_append] at this
    omega
  rw [ulSpaceEscape, escapeLoop_eq, List.nil_append]
  by_cases htotal : (escapeBlanks (front ++ (host ++ port ++ 47 :: p))).length < lim.url
  · rw [if_pos htotal, htext]
    dsimp only
    rw [hpin, hslash, hend.2, if_neg hpath0, if_neg hend.1, Option.any_some, Option.any_some, hlen]
    simp only [hfirst, htext ▸ htotal, true_and, decide_eq_true_eq]
    by_cases hpathlen : (47 :: escapeBlanks p).length < lim.path
    · rw [if_neg (Nat.not_le.mpr hpathlen)]
      by_cases hsite : host.length ≤ lim.site
      · rw [if_neg (by omega), if_neg (by simp), if_pos ⟨hpathlen, hsite⟩]
      · rw [if_pos (by omega), if_neg fun h => hsite h.2]
    · rw [if_pos (Nat.not_lt.mp hpathlen), if_neg fun h => hpathlen h.1]
  · rw [if_neg htotal, if_neg fun h => htotal h.1]

/-- **Blanks are escaped in a URL that is within the limits.** -/
theorem ulSpaceEscape_parts {front host port path : Bytes} {lim : Limits}
    (hfront : front = [] ∨ front = scheme) (hhost : IsHost host)
    (hport : PortPart port) (hpath : path.head? = some 47)
    (htotal : (escapeBlanks (front ++ (host ++ port ++ path))).length < lim.url)
    (hsitelen : host.length < lim.site) (hpathlen : (escapeBlanks path).length < lim.path) :
    ulSpaceEscape (front ++ (host ++ port ++ path)) lim =
      some (escapeBlanks (front ++ (host ++ port ++ path))) := by
  rw [ulSpaceEscape_eq hfront hhost hport hpath, if_pos ⟨htotal, hpathlen, hsitelen.le⟩]

/-- The characters of a host are neither separators nor the colon of a port. -/
theorem inAuthority_hostChar {b : UInt8} : hostChar b = true →
    inAuthority b = true ∧ (b != 58) = true := by
  revert b
  apply forall_byte
  decide +kernel

theorem inAuthority_isDigit {b : UInt8} : isDigit b = true → inAuthority b = true := by
  revert b
  apply forall_byte
  decide +kernel

/-- The site and the path of a URL that has been cut up to its path. -/
theorem urlSite_urlPath {url c p next : Bytes} (hstrip : stripUrl url = c ++ p ++ next)
    (hc : ∀ b ∈ c, hostChar b = true) (hp : PortPart p) (hnext : next.head? = some 47) :
    urlSite url = c ∧ urlPath url = next := by
  have hfront : ∀ b ∈ c ++ p, inAuthority b = true := by
    intro b hb
    rcases List.mem_append.mp hb with hb | hb
    · exact (inAuthority_hostChar (hc b hb)).1
    · rcases hp.char b hb with rfl | hdigit
      · rfl
      · exact inAuthority_isDigit hdigit
  obtain ⟨t, rfl⟩ := List.head?_eq_some_iff.mp hnext
  have htake : (stripUrl url).takeWhile inAuthority = c ++ p := by
    rw [hstrip, List.takeWhile_append_of_pos hfront]
    exact List.append_nil _
  have hdrop : (stripUrl url).dropWhile inAuthority = 47 :: t := by
    rw [hstrip, List.dropWhile_append_of_pos hfront]
    rfl
  constructor
  · rw [urlSite, htake, List.takeWhile_append_of_pos fun b hb => (inAuthority_hostChar (hc b hb)).2]
    cases p with
    | nil => exact List.append_nil _
    | cons b p =>
        rw [hp.head b rfl]
        exact List.append_nil _
  · rw [urlPath, hdrop]
    rfl

/-- Escaping blanks keeps the order of two texts, one of which is in the other. -/
theorem length_escapeBlanks_le {s t : Bytes} (h : s.Sublist t) :
    (escapeBlanks s).length ≤ (escapeBlanks t).length :=
  (h.flatMap _).length_le

/-- **A path is checked alike by both families**, when it stands behind the host `host` and the port
`port` that are written for the host `c` and the port `p`. -/
theorem checkPath_families {url front c p next host port mem : Bytes} {pout : ℕ}
    (hwithin : Within limitsEx url) (h : (escapeBlanks (urlPath url)).length < limitsEx.path)
    (htext : ulDeleteInter url = front ++ (c ++ p ++ next))
    (hstrip : stripUrl url = c ++ p ++ next) (hfront : 32 ∈ url → front = [] ∨ front = scheme)
    (hc : ∀ b ∈ c, hostChar b = true) (hp : PortPart p) (hnext : next.head? = some 47)
    (hhost : IsHost host) (hhostlen : host.length ≤ c.length) (hport : PortPart port)
    (hportlen : port.length ≤ 6) (hmem : mem.take pout = host ++ port)
    (hpout : pout ≤ mem.length) (len : ℕ) :
    checkPath limitsEx len front mem pout next = checkPath limitsEx2 len front mem pout next := by
  obtain ⟨hsite, hpath⟩ := urlSite_urlPath hstrip hc hp hnext
  obtain ⟨hlturl, hltsite, -, hltpath⟩ := limitsEx_lt
  unfold checkPath
  rw [scanPath_copy]
  dsimp only
  split_ifs with hrest hlong hblank
  · rfl
  · rfl
  · have hurl : 32 ∈ url := by
      have hdelete : 32 ∈ ulDeleteInter url := by
        rw [htext]
        simp [(List.takeWhile_sublist _).subset hblank]
      exact (List.mem_filter.mp hdelete).1
    have hhead : (next.takeWhile uchRes).head? = some 47 := by
      cases next with
      | nil => cases hnext
      | cons b t =>
          cases hnext
          rfl
    have hpathlen : (escapeBlanks (next.takeWhile uchRes)).length < limitsEx.path := by
      rw [hpath] at h
      exact (length_escapeBlanks_le (List.takeWhile_sublist _)).trans_lt h
    have hsitelen : host.length < limitsEx.site := by
      have := hwithin.site
      rw [hsite] at this
      exact hhostlen.trans_lt this
    have htotal : (escapeBlanks (front ++ (host ++ port ++ next.takeWhile uchRes))).length <
        limitsEx.url := by
      have hnofront : escapeBlanks front = front ∧ front.length ≤ 7 := by
        rcases hfront hurl with rfl | rfl
        · exact ⟨rfl, Nat.zero_le 7⟩
        · exact ⟨escapeBlanks_of_not_mem (by decide), Nat.le_refl 7⟩
      have hnohost := escapeBlanks_of_not_mem (hhost.not_mem (b := 32) rfl (by decide))
      have hnoport := escapeBlanks_of_not_mem (hport.not_mem (b := 32) rfl (by decide))
      simp only [limitsEx] at hsitelen hpathlen ⊢
      simp only [escapeBlanks_append, List.length_append, hnofront.1, hnohost, hnoport]
      omega
    rw [take_overwrite hpout, hmem,
      ulSpaceEscape_parts (hfront hurl) hhost hport hhead htotal hsitelen hpathlen,
      ulSpaceEscape_parts (hfront hurl) hhost hport hhead (htotal.trans hlturl)
        (hsitelen.trans hltsite) (hpathlen.trans hltpath)]
  · rfl

/-- What is done behind a host is the same in both families. -/
theorem checkBehindEx_families {url front : Bytes} (hwithin : Within limitsEx url)
    (h : (escapeBlanks (urlPath url)).length < limitsEx.path)
    (htext : ulDeleteInter url = front ++ stripUrl url)
    (hfront : 32 ∈ url → front = [] ∨ front = scheme) (hok : (hostRun (stripUrl url)).ok = true)
    (len : ℕ) :
    checkBehindEx limitsEx len front (hostRun (stripUrl url)) =
      checkBehindEx limitsEx2 len front (hostRun (stripUrl url)) := by
  obtain ⟨htook, -⟩ := hostRun_took hok
  have hhost := (hostRun_out hok).1
  have hhostlen : (hostRun (stripUrl url)).out.length ≤
      ((stripUrl url).takeWhile hostChar).length := by
    have := htook.short
    omega
  generalize hostRun (stripUrl url) = r at htook hhost hhostlen ⊢
  generalize (stripUrl url).takeWhile hostChar = c at htook hhostlen
  have hout : r.text.take r.out.length = r.out := by
    rw [Run.text, List.append_assoc, List.take_left]
  have hlen : r.out.length ≤ r.text.length := by
    rw [Run.text, List.append_assoc, List.length_append]
    exact Nat.le_add_right _ _
  -- the path is `next`, and `p` stands between it and the host
  have hcheck : ∀ p next port mem pout, r.rest = p ++ next → PortPart p → next.head? = some 47 →
      PortPart port → port.length ≤ 6 → mem.take pout = r.out ++ port → pout ≤ mem.length →
      checkPath limitsEx len front mem pout next = checkPath limitsEx2 len front mem pout next := by
    intro p next port mem pout hrest hp hnext hport hportlen hmem hpout
    have hstrip : stripUrl url = c ++ p ++ next := by
      rw [htook.split, hrest, List.append_assoc]
    exact checkPath_families hwithin h (hstrip ▸ htext) hstrip hfront htook.char hp hnext hhost
      hhostlen hport hportlen hmem hpout len
  unfold checkBehindEx
  dsimp only
  split_ifs with hcolon hslash hbad h80 hslash hrest
  · exact hcheck [58] _ [] _ _ (List.eq_cons_of_mem_head? hcolon) (.cons (by simp)) hslash .nil
      (Nat.zero_le _) (by rw [hout, List.append_nil]) hlen
  · rfl
  · have hrest := List.eq_cons_of_mem_head? hcolon
    rw [not_or, not_not] at hbad
    have hport : PortPart (58 :: r.rest.tail.takeWhile isDigit) :=
      .cons fun b hb => List.mem_takeWhile_imp hb
    rw [← List.takeWhile_append_dropWhile (p := isDigit) (l := r.rest.tail)] at hrest
    refine hcheck _ _ _ _ _ hrest hport hbad.2 hport (Nat.succ_le_succ (not_lt.mp hbad.1)) ?_ ?_
    · have := take_overwrite hlen (58 :: r.rest.tail.takeWhile isDigit)
      rwa [hout] at this
    · simp only [overwrite, List.length_append, List.length_take, List.length_cons]
      omega
  · have hrest := List.eq_cons_of_mem_head? hcolon
    rw [not_or, not_not] at hbad
    have hport : PortPart (58 :: r.rest.tail.takeWhile isDigit) :=
      .cons fun b hb => List.mem_takeWhile_imp hb
    rw [← List.takeWhile_append_dropWhile (p := isDigit) (l := r.rest.tail)] at hrest
    refine hcheck _ _ [] _ _ hrest hport hbad.2 .nil (Nat.zero_le _) ?_ ?_
    · rw [take_overwrite_before hlen, hout, List.append_nil]
    · simp only [overwrite, List.length_append, List.length_take, List.length_cons]
      omega
  · exact hcheck [] _ [] _ _ rfl .nil hslash .nil (Nat.zero_le _)
      (by rw [hout, List.append_nil]) hlen
  · rfl
  · rfl

/-- A URL that is within the smaller limits is checked alike, if its path is, too, with its blanks
escaped, and its scheme is in small letters or it has no blanks. -/
theorem ulCheckUrlEx_within {url : Bytes} (hwithin : Within limitsEx url)
    (h : (escapeBlanks (urlPath url)).length < limitsEx.path)
    (hscheme : 32 ∈ url → hasScheme (ulDeleteInter url) = true →
      (ulDeleteInter url).take scheme.length = scheme) : ulCheckUrlEx url = ulCheckUrlEx2 url := by
  have hfold : (ulDeleteInter url).drop (schemeLength (ulDeleteInter url)) = stripUrl url := rfl
  have htext : ulDeleteInter url =
      (ulDeleteInter url).take (schemeLength (ulDeleteInter url)) ++ stripUrl url := by
    rw [← hfold, List.take_append_drop]
  have hfront : 32 ∈ url → (ulDeleteInter url).take (schemeLength (ulDeleteInter url)) = [] ∨
      (ulDeleteInter url).take (schemeLength (ulDeleteInter url)) = scheme := by
    intro hblank
    rw [schemeLength]
    split_ifs with hhas
    · exact Or.inr (hscheme hblank hhas)
    · exact Or.inl rfl
  unfold ulCheckUrlEx ulCheckUrlEx2 checkUrl
  dsimp only
  rw [hfold]
  split_ifs with hok
  · exact checkBehindEx_families hwithin h htext hfront hok _
  · rfl

/-- **The families agree on URLs within the smaller limits.** -/
theorem families_agree (url : Bytes) (h : Within limitsEx url) :
    (∀ siteSize portSize pathSize,
      ulParseUrlEx url siteSize portSize pathSize = ulParseUrlEx2 url siteSize portSize pathSize) ∧
    ulParseUrlEx url limitsEx.site limitsEx.port limitsEx.path =
      ulParseUrlEx2 url limitsEx2.site limitsEx2.port limitsEx2.path ∧
    ((escapeBlanks (urlPath url)).length < limitsEx.path →
      (∀ buf bufSize, ulNormalizeUrlEx url buf bufSize = ulNormalizeUrlEx2 url buf bufSize) ∧
      ((32 ∈ url → hasScheme (ulDeleteInter url) = true →
          (ulDeleteInter url).take scheme.length = scheme) →
        ulCheckUrlEx url = ulCheckUrlEx2 url)) := by
  refine ⟨fun siteSize portSize pathSize => parseUrl_eq h.total (h.total.trans limitsEx_lt.1) _ _ _,
    ulParseUrlEx_within h, fun hescaped => ⟨ulNormalizeUrlEx_within h hescaped, fun hscheme => ?_⟩⟩
  exact ulCheckUrlEx_within h hescaped hscheme

/-- A URL with a blank that stays within the limits, also when the blank is escaped. -/
theorem families_agree_blank :
    (∀ siteSize portSize pathSize,
      ulParseUrlEx (ascii "http://A.b/x y") siteSize portSize pathSize =
        ulParseUrlEx2 (ascii "http://A.b/x y") siteSize portSize pathSize) ∧
    ulParseUrlEx (ascii "http://A.b/x y") limitsEx.site limitsEx.port limitsEx.path =
      ulParseUrlEx2 (ascii "http://A.b/x y") limitsEx2.site limitsEx2.port limitsEx2.path ∧
    (∀ buf bufSize, ulNormalizeUrlEx (ascii "http://A.b/x y") buf bufSize =
      ulNormalizeUrlEx2 (ascii "http://A.b/x y") buf bufSize) ∧
    ulCheckUrlEx (ascii "http://A.b/x y") = ulCheckUrlEx2 (ascii "http://A.b/x y") := by
  have hwithin : Within limitsEx (ascii "http://A.b/x y") :=
    ⟨by decide +kernel, by decide +kernel, by decide +kernel⟩
  have hescaped : (escapeBlanks (urlPath (ascii "http://A.b/x y"))).length < limitsEx.path := by
    decide +kernel
  obtain ⟨hparse, hsizes, hothers⟩ := families_agree (ascii "http://A.b/x y") hwithin
  obtain ⟨hnormalize, hcheck⟩ := hothers hescaped
  exact ⟨hparse, hsizes, hnormalize, hcheck fun _ _ => by decide +kernel⟩

/-- A path of 300 blanks is within the limits, but not when they are escaped; and behind a scheme in
capital letters the check measures the path from the slashes of the scheme on. -/
theorem families_differ :
    (¬ ∀ url buf bufSize, Within limitsEx url →
      ulNormalizeUrlEx url buf bufSize = ulNormalizeUrlEx2 url buf bufSize) ∧
    ¬ ∀ url, Within limitsEx url → (escapeBlanks (urlPath url)).length < limitsEx.path →
      ulCheckUrlEx url = ulCheckUrlEx2 url := by
  constructor
  · intro h
    have hsame := h (ascii "a.b/" ++ List.replicate 300 32) [] 2048
      ⟨by decide +kernel, by decide +kernel, by decide +kernel⟩
    have hex : ulNormalizeUrlEx (ascii "a.b/" ++ List.replicate 300 32) [] 2048 = none := by
      decide +kernel
    have hex2 :
        (ulNormalizeUrlEx2 (ascii "a.b/" ++ List.replicate 300 32) [] 2048).isSome = true := by
      decide +kernel
    rw [← hsame, hex] at hex2
    cases hex2
  · intro h
    have hsame := h (ascii "HTTP://a.b/ " ++ List.replicate 793 120)
      ⟨by decide +kernel, by decide +kernel, by decide +kernel⟩ (by decide +kernel)
    -- the blanks are escaped in one piece here, and not character by character
    have hex : (ulCheckUrlEx (ascii "HTTP://a.b/ " ++ List.replicate 793 120)).1 = false := by
      simp -zeta only [ulCheckUrlEx, checkUrl, checkBehindEx, checkPath, ulSpaceEscape, escapeLoop_eq]
      decide +kernel
    have hex2 : (ulCheckUrlEx2 (ascii "HTTP://a.b/ " ++ List.replicate 793 120)).1 = true := by
      simp -zeta only [ulCheckUrlEx2, checkUrl, checkBehindEx, checkPath, ulSpaceEscape, escapeLoop_eq]
      decide +kernel
    rw [hsame, hex2] at hex
    cases hex

end Asenal.Url
