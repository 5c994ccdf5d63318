import Asenal.Url.Host
import Asenal.Url.NormalizePath
import Asenal.Url.Parse

/-!
# Normalising URLs

The parts of a URL are normalised one by one and written behind one another.

* `ulNormalizePort_eq_some` — what a port becomes.
* `ulNormalizeUrl_eq_some` — what a URL becomes, part by part.
* `ulNormalizeUrl_parts` — what a URL becomes whose site and port are normal.
-/

namespace Asenal.Url

open Asenal.Lib.Text Asenal.Lib.CString Asenal.Lib.Segments

/-! ## Ports -/

/-- Source: `ul_url.cpp` `ul_normalize_port`. -/
def ulNormalizePort (port : Bytes) : Option Bytes :=
  if port = [] then some []
  else
    let k := (port.takeWhile isDigit).length
    if 5 < k then none
    else if port.drop k ≠ [] then none
    else
      let uport := atoi port
      if uport ≤ 0 ∨ 65535 < uport then none
      else if uport ≠ 80 then some (decInt uport)
      else some []

/-! ## Whole URLs -/

/-- `snprintf(buf, size, "%s", s)`, where `buf` is what the buffer held. -/
def printTo (buf : Bytes) (size : ℕ) (s : Bytes) : Bytes :=
  if size = 0 then buf else s.take (size - 1)

/-- The parts of a URL, normalised one by one and printed. -/
def normalizeUrl (parse : Option Parts) (single norm : Bytes → Option Bytes) (buf : Bytes)
    (bufSize : ℕ) : Option Bytes :=
  match parse with
  | some ⟨some site, some port, some path⟩ => do
      let site ← ulNormalizeSite site
      let port ← ulNormalizePort port
      let path ← single path
      let path ← norm path
      return printTo buf bufSize (if port = [] then site ++ path else site ++ 58 :: port ++ path)
  | _ => none

/-- Source: `ul_url.cpp` `ul_normalize_url`. -/
def ulNormalizeUrl (url : Bytes) : Option Bytes :=
  normalizeUrl (ulParseUrl url true true true) ulSinglePathNointer ulNormalizePath [] limits.url

/-- The URL, normalised into a buffer of `bufSize` bytes that holds `buf`. Source: `ul_url.cpp`
`ul_normalize_url_ex`. -/
def ulNormalizeUrlEx (url buf : Bytes) (bufSize : ℕ) : Option Bytes :=
  normalizeUrl (ulParseUrlEx url limitsEx.site limitsEx.port limitsEx.path)
    (ulSinglePathExNointer · limitsEx.path) ulNormalizePathEx buf bufSize

/-- The URL, normalised into a buffer of `bufSize` bytes that holds `buf`. Source: `ul_url.cpp`
`ul_normalize_url_ex2`. -/
def ulNormalizeUrlEx2 (url buf : Bytes) (bufSize : ℕ) : Option Bytes :=
  normalizeUrl (ulParseUrlEx2 url limitsEx2.site limitsEx2.port limitsEx2.path)
    (ulSinglePathEx2Nointer · limitsEx2.path) ulNormalizePathEx2 buf bufSize

example : ulNormalizeUrl (ascii "HTTP://Www.%45xample.com:080/a/./b%2e/../%7Ec%2F\\d?x=/../y") =
    some (ascii "www.example.com/a/~c%2F/d?x=/../y") := by decide +kernel

/-! ## Ports -/

/-- A port that is written: none, or a number that is not 80. -/
def IsPort (port : Bytes) : Prop := port = [] ∨ ∃ n, port = dec n ∧ 0 < n ∧ n ≤ 65535 ∧ n ≠ 80

/-- `atoi` reads back a port. -/
theorem atoi_dec {n : ℕ} (h : n ≤ 65535) : atoi (dec n) = n := by
  have hscan := scanD_dec n (r := []) (by simp)
  rw [List.append_nil] at hscan
  have hclamp : max (-2 ^ 63) (min (n : ℤ) (2 ^ 63 - 1)) = n := by omega
  rw [atoi, hscan]
  dsimp only
  rw [toInt32, hclamp, Int32.toInt_ofInt_of_le (by omega) (by omega)]

/-- A port has at most five digits. -/
theorem length_dec_le {n : ℕ} (h : n ≤ 65535) : (dec n).length ≤ 5 := by
  unfold dec
  split_ifs with hn
  · exact Nat.le_of_ble_eq_true rfl
  · rw [List.length_map, List.length_reverse, Nat.digits_length_le_iff (by decide)]
    omega

/-- **What a port becomes.** -/
theorem ulNormalizePort_eq_some {port q : Bytes} (h : ulNormalizePort port = some q) :
    IsPort q := by
  unfold ulNormalizePort at h
  dsimp only at h
  split_ifs at h with hnil hlong hrest hrange h80
  · cases h
    exact Or.inl rfl
  · cases h
    rw [not_or, not_le, not_lt] at hrange
    refine Or.inr ⟨(atoi port).natAbs, ?_, by omega, by omega, by omega⟩
    rw [decInt, if_neg (by omega)]
  · cases h
    exact Or.inl rfl

/-- A port that is written is normal. -/
theorem ulNormalizePort_isPort {port : Bytes} (h : IsPort port) :
    ulNormalizePort port = some port := by
  rcases h with rfl | ⟨n, rfl, hpos, hle, hne⟩
  · rfl
  · have hdigits : (dec n).takeWhile isDigit = dec n :=
      List.takeWhile_eq_self_iff.mpr fun b hb => isDigit_of_mem_dec hb
    have hlen := length_dec_le hle
    unfold ulNormalizePort
    dsimp only
    rw [if_neg (dec_ne_nil n), hdigits, if_neg (by omega), List.drop_length, if_neg (by simp),
      atoi_dec hle, if_neg (by omega), if_pos (by omega), decInt, if_neg (by omega),
      Int.natAbs_natCast]

/-! ## Whole URLs -/

/-- How a port is written. -/
def portText (port : Bytes) : Bytes := if port = [] then [] else 58 :: port

/-- The path of a URL; it is the root if there is none. -/
def urlPath (url : Bytes) : Bytes :=
  let r := (stripUrl url).dropWhile inAuthority
  if r = [] then [47] else if r.head? = some 63 then 47 :: r else r

theorem urlPath_head (url : Bytes) : (urlPath url).head? = some 47 := by
  have hcut := cut_takeWhile (stripUrl url)
  unfold urlPath
  dsimp only
  split_ifs with hnil hquery
  · rfl
  · rfl
  · obtain ⟨b, r, hr⟩ := List.exists_cons_of_ne_nil hnil
    have hb := hcut.head b (by rw [hr]; rfl)
    rw [hr, List.head?_cons] at hquery ⊢
    rcases hb with rfl | rfl
    · rfl
    · exact absurd rfl hquery

/-- The path that is parsed is the path of the URL, if it is short enough. -/
theorem getPath_stripUrl (url : Bytes) {size : ℕ} (h₁ : 1 < size) (h₂ : size < 2 ^ 64) :
    getPath (stripUrl url) size =
      if (urlPath url).length < size then some (urlPath url) else none := by
  have hcut := cut_takeWhile (stripUrl url)
  have hget := hcut.getPath_eq size
  rw [List.takeWhile_append_dropWhile] at hget
  rw [hget, pathFrom, urlPath, sizePred_eq (by omega) h₂]
  generalize (stripUrl url).dropWhile inAuthority = r
  by_cases hnil : r = []
  · rw [if_pos hnil, if_pos hnil]
    exact (if_pos h₁).symm
  rw [if_neg hnil, if_neg hnil]
  by_cases hquery : r.head? = some 63
  · rw [if_pos hquery, if_pos hquery, List.length_cons]
    by_cases hshort : r.length + 1 < size
    · rw [if_pos hshort, if_pos (by omega)]
    · rw [if_neg hshort, if_neg (by omega)]
  · rw [if_neg hquery, if_neg hquery]

/-- Cleaning keeps the `/` at the beginning of a path. -/
theorem cleanText_head {path : Bytes} (h : path.head? = some 47) :
    (cleanText path).head? = some 47 := by
  obtain ⟨s, rfl⟩ := List.head?_eq_some_iff.mp h
  rw [cleanText, tokens_char (by decide) rfl]
  rfl

/-- What is printed of a URL whose parts are short. -/
theorem printTo_parts {site port path : Bytes} (hsite : site.length < limits.site)
    (hport : IsPort port) (hpath : path.length < limits.path) :
    printTo [] limits.url (if port = [] then site ++ path else site ++ 58 :: port ++ path) =
      site ++ portText port ++ path ∧ (site ++ portText port ++ path).length < limits.url := by
  have hlen : (portText port).length ≤ 6 := by
    unfold portText
    rcases hport with rfl | ⟨n, rfl, -, hle, -⟩
    · exact Nat.zero_le 6
    · rw [if_neg (dec_ne_nil n), List.length_cons]
      exact Nat.succ_le_succ (length_dec_le hle)
  have htext : (if port = [] then site ++ path else site ++ 58 :: port ++ path) =
      site ++ portText port ++ path := by
    unfold portText
    split_ifs
    · rw [List.append_nil]
    · rfl
  simp only [limits] at hsite hpath ⊢
  have htotal : (site ++ portText port ++ path).length < 256 := by
    simp only [List.length_append]
    omega
  refine ⟨?_, htotal⟩
  rw [htext, printTo, if_neg (by decide), List.take_of_length_le (Nat.le_sub_one_of_lt htotal)]

/-- **What a URL becomes**, part by part. -/
theorem ulNormalizeUrl_eq_some {url v : Bytes} (h : ulNormalizeUrl url = some v) :
    ∃ site port, IsHost site ∧ site.length < limits.site ∧ IsPort port ∧
      (cleanText (urlPath url)).length < limits.path ∧
      v = site ++ portText port ++ normalizePath (cleanText (urlPath url)) := by
  unfold ulNormalizeUrl normalizeUrl at h
  split at h
  · next site port path hparse =>
      obtain ⟨-, site', port', path', hsite, -, hpath, hparts⟩ := parseUrl_eq_some_iff.mp hparse
      cases hparts
      rw [getPath_stripUrl url (by decide) (by decide)] at hpath
      rw [getSite_eq] at hsite
      split_ifs at hpath hsite with hshort hsite'
      cases hpath
      cases hsite
      simp only [Option.bind_eq_bind, Option.bind_eq_some_iff, Option.pure_def,
        Option.some.injEq] at h
      obtain ⟨host, hhost, q, hq, clean, hclean, norm, hnorm, rfl⟩ := h
      obtain ⟨hishost, hhostlen⟩ := ulNormalizeSite_eq_some hhost
      have hisport := ulNormalizePort_eq_some hq
      rw [ulSinglePathNointer, singlePath_eq hshort (by decide)] at hclean
      split_ifs at hclean with haccept
      cases hclean
      have hhead := cleanText_head (urlPath_head url)
      rw [ulNormalizePath, if_pos hhead, Option.some.injEq] at hnorm
      subst hnorm
      have hsitelen : host.length < limits.site := hhostlen.trans_lt hsite'.2
      have hpathlen := (length_normalizePath_le hhead).trans_lt haccept.2
      exact ⟨host, q, hishost, hsitelen, hisport, haccept.2,
        (printTo_parts hsitelen hisport hpathlen).1⟩
  · cases h

/-- A host that is followed by a label is no scheme. -/
theorem hasScheme_isHost {host : Bytes} (h : IsHost host) (t : Bytes) :
    hasScheme (host ++ t) = false := by
  obtain ⟨l, ls, hl, -, hne, rfl⟩ := h
  obtain ⟨m, ls, rfl⟩ := List.exists_cons_of_ne_nil hne
  have hscheme : scheme = [104, 116, 116, 112, 58, 47, 47] := rfl
  have hcolon : ∀ b, letDigHy b = true → toLower b ≠ 58 := by
    intro b hb h58
    have := (letDigHy_toLower hb).1
    rw [h58] at this
    exact absurd this (by decide)
  have hdot : toLower 46 = 46 := by decide
  unfold hasScheme
  rw [hscheme]
  rcases l with _ | ⟨a, _ | ⟨b, _ | ⟨c, _ | ⟨d, _ | ⟨e, l⟩⟩⟩⟩⟩
  · simp [hdot]
  · simp [hdot]
  · simp [hdot]
  · simp [hdot]
  · simp [hdot]
  · have he := hcolon e (hl.char e (by simp)).1
    simp [he]

/-- A port with the colon in front of it, or nothing. -/
structure PortPart (port : Bytes) : Prop where
  char : ∀ b ∈ port, b = 58 ∨ isDigit b = true
  head : ∀ b ∈ port.head?, b = 58

theorem PortPart.nil : PortPart [] := ⟨by simp, by simp⟩

theorem PortPart.cons {digits : Bytes} (h : ∀ b ∈ digits, isDigit b = true) :
    PortPart (58 :: digits) where
  char := by
    rw [List.forall_mem_cons]
    exact ⟨Or.inl rfl, fun b hb => Or.inr (h b hb)⟩
  head := by simp

/-- A port is written so. -/
theorem IsPort.portPart {port : Bytes} (h : IsPort port) : PortPart (portText port) := by
  rcases h with rfl | ⟨n, rfl, -⟩
  · exact .nil
  · rw [portText, if_neg (dec_ne_nil n)]
    exact .cons fun b hb => isDigit_of_mem_dec hb

/-- A byte that neither a port nor a host has. -/
theorem PortPart.not_mem {port : Bytes} (h : PortPart port) {b : UInt8} (hdigit : isDigit b = false)
    (hcolon : b ≠ 58) : b ∉ port := by
  intro hmem
  rcases h.char b hmem with hmem | hmem
  · exact hcolon hmem
  · rw [hdigit] at hmem
    cases hmem

theorem IsHost.not_mem_append {host port : Bytes} (hhost : IsHost host) (hport : PortPart port)
    {b : UInt8} (hletter : letDigHy b = false) (hdigit : isDigit b = false) (hdot : b ≠ 46)
    (hcolon : b ≠ 58) : b ∉ host ++ port := by
  rw [List.mem_append, not_or]
  exact ⟨hhost.not_mem hletter hdot, hport.not_mem hdigit hcolon⟩

/-- What is normalised may stand in a URL. -/
theorem uchRes_of_mem_normalizePath {path : Bytes} {b : UInt8}
    (hb : b ∈ normalizePath (cleanText path)) : uchRes b = true := by
  rcases mem_normalizePath hb with rfl | hb
  · rfl
  · exact uchRes_of_mem_cleanText hb

/-- **What a URL becomes whose site and port are normal.** -/
theorem ulNormalizeUrl_parts {site port path : Bytes} (hsite : IsHost site)
    (hsitelen : site.length < limits.site) (hport : IsPort port) (hhead : path.head? = some 47)
    (hchar : ∀ b ∈ path, uchRes b = true) (hpathlen : path.length < limits.path)
    (hclean : (cleanText path).length < limits.path) :
    ulNormalizeUrl (site ++ portText port ++ path) =
      some (site ++ portText port ++ normalizePath (cleanText path)) := by
  have hline : ∀ b ∈ site ++ portText port ++ path, (!lfcr b) = true := by
    intro b hb
    apply not_lfcr_of_uchRes
    simp only [List.mem_append, or_assoc] at hb
    rcases hb with hb | hb | hb
    · rcases hsite.char hb with hb | rfl
      · exact uchRes_letDigHy hb
      · rfl
    · rcases hport.portPart.char b hb with rfl | hb
      · rfl
      · exact uchRes_isDigit hb
    · exact hchar b hb
  have hstrip : stripUrl (site ++ portText port ++ path) = site ++ portText port ++ path := by
    rw [stripUrl, ulDeleteInter, List.filter_eq_self.mpr hline, schemeLength, List.append_assoc,
      hasScheme_isHost hsite]
    rfl
  have hfree : ∀ c, letDigHy c = false → isDigit c = false → c ≠ 46 → c ≠ 58 →
      c ∉ site ++ portText port := fun c => hsite.not_mem_append hport.portPart
  have hcut : Cut (site ++ portText port) path := by
    refine ⟨hfree 47 rfl rfl (by decide) (by decide), hfree 63 rfl rfl (by decide) (by decide), ?_⟩
    intro b hb
    rw [hhead] at hb
    cases hb
    exact Or.inl rfl
  have hpath : getPath (site ++ portText port ++ path) limits.path = some path := by
    rw [hcut.getPath_eq, pathFrom, if_neg (by rintro rfl; cases hhead),
      if_neg (by rw [hhead]; decide), if_pos hpathlen]
  have hcolon : 58 ∉ site := hsite.not_mem rfl (by decide)
  have hne := hsite.ne_nil
  have hparts : getSite (site ++ portText port) limits.site = some site ∧
      getPort (site ++ portText port) limits.port = some port := by
    rcases hport with rfl | ⟨n, rfl, hpos, hle, h80⟩
    · obtain ⟨h₁, -⟩ := getSite_noPort hcolon limits.site
      obtain ⟨-, h₂⟩ := getSite_noPort hcolon limits.port
      rw [portText, if_pos rfl, List.append_nil]
      exact ⟨h₁.trans (if_pos ⟨hne, hsitelen⟩), h₂⟩
    · obtain ⟨h₁, -⟩ := getSite_port hcolon (dec n) limits.site
      obtain ⟨-, h₂⟩ := getSite_port hcolon (dec n) limits.port
      have hlen := length_dec_le hle
      have hother : dec n ≠ ascii "80" := by
        intro h
        have := congrArg digitsVal h
        rw [digitsVal_dec] at this
        exact h80 this
      rw [portText, if_neg (dec_ne_nil n)]
      refine ⟨h₁.trans (if_pos ⟨hne, hsitelen⟩), h₂.trans ?_⟩
      rw [atoi_dec hle, if_pos ⟨Nat.lt_succ_of_le (Nat.succ_le_succ hlen), by omega⟩, if_neg hother]
  have hcleanhead := cleanText_head hhead
  obtain ⟨hprint, -⟩ := printTo_parts hsitelen hport
    ((length_normalizePath_le hcleanhead).trans_lt hclean)
  obtain ⟨-, hlen⟩ := printTo_parts hsitelen hport hpathlen
  have hparse : ulParseUrl (site ++ portText port ++ path) true true true =
      some ⟨some site, some port, some path⟩ := by
    refine parseUrl_eq_some_iff.mpr ⟨hlen, site, port, path, ?_, ?_, ?_, rfl⟩
    · rw [hstrip, hcut.authority_eq]
      exact hparts.1
    · rw [hstrip, hcut.authority_eq]
      exact hparts.2
    · rw [hstrip]
      exact hpath
  have hispath : IsPath path := by
    rw [IsPath, List.dropWhile_eq_nil_iff.mpr hchar]
    simp
  have hsingle : ulSinglePathNointer path = some (cleanText path) := by
    rw [ulSinglePathNointer, singlePath_eq hpathlen (by decide), if_pos ⟨hispath, hclean⟩]
  rw [ulNormalizeUrl, hparse]
  simp only [normalizeUrl, ulNormalizeSite_isHost hsite, ulNormalizePort_isPort hport, hsingle,
    ulNormalizePath, hcleanhead, if_true, Option.bind_eq_bind, Option.bind_some, Option.pure_def, hprint]

end Asenal.Url
