import Asenal.Url.Chars

/-!
# Taking URLs apart

The path of a URL begins at the first `/` or `?`, and its port behind the first `:` in front of the
path; the rest is its site. The three families of functions do the same with other limits.

* `Cut.getPath_eq`, `Cut.authority_eq` — where a URL is cut.
* `getSite_port`, `getSite_noPort` — the site and the port.
* `ulParseUrl_parts` — the parts of a URL, behind one another, are the URL.
-/

namespace Asenal.Url

open Asenal.Lib.Text Asenal.Lib.CString

/-! ## Parsing -/

/-- The parts of a URL that are asked for. -/
structure Parts where
  site : Option Bytes
  port : Option Bytes
  path : Option Bytes
  deriving DecidableEq

/-- `p`: the first `/`, or else the first `?`. -/
def firstSlash (pin : Bytes) : Option ℕ := (strchr pin 47).or (strchr pin 63)

/-- `size - 1`, which is a `size_t`. -/
def sizePred (size : ℕ) : ℕ := (size + (2 ^ 64 - 1)) % 2 ^ 64

/-- The path, in an array of `size` bytes. -/
def getPath (pin : Bytes) (size : ℕ) : Option Bytes :=
  match strchr pin 63, firstSlash pin with
  | some query, some p =>
      if query ≤ p then
        if (pin.drop query).length < sizePred size then some (47 :: pin.drop query)
        else none
      else if (pin.drop p).length < size then some (pin.drop p)
      else none
  | _, some p => if (pin.drop p).length < size then some (pin.drop p) else none
  | _, none => some [47]

/-- Where the terminator is written that cuts the path off. -/
def pathStart (pin : Bytes) : Option ℕ :=
  match strchr pin 63, firstSlash pin with
  | some query, some p => some (if query ≤ p then query else p)
  | _, p => p

/-- What stands in front of the path. -/
def authority (pin : Bytes) : Bytes := pin.take ((pathStart pin).getD pin.length)

/-- The port, in an array of `size` bytes; port 80 is not written. -/
def getPort (host : Bytes) (size : ℕ) : Option Bytes :=
  match strchr host 58 with
  | none => some []
  | some q =>
      let port := host.drop (q + 1)
      if (host.drop q).length < size ∧ 0 < atoi port then
        some (if port = ascii "80" then [] else port)
      else none

/-- The site, in an array of `size` bytes. -/
def getSite (host : Bytes) (size : ℕ) : Option Bytes :=
  let site := host.take ((strchr host 58).getD host.length)
  if site ≠ [] ∧ site.length < size then some site else none

/-- The URL without line ends and without its scheme. -/
def stripUrl (url : Bytes) : Bytes :=
  (ulDeleteInter url).drop (schemeLength (ulDeleteInter url))

/-- The parts of a URL of less than `maxUrlLen` bytes: those whose arrays, of the given sizes, are
there. -/
def parseUrl (maxUrlLen : ℕ) (input : Bytes) (siteSize portSize pathSize : Option ℕ) :
    Option Parts :=
  if maxUrlLen ≤ input.length then none
  else do
    let pin := stripUrl input
    let path ← pathSize.mapM (getPath pin)
    let port ← portSize.mapM (getPort (authority pin))
    let site ← siteSize.mapM (getSite (authority pin))
    return ⟨site, port, path⟩

/-- Source: `ul_url.cpp` `ul_parse_url`. -/
def ulParseUrl (input : Bytes) (site port path : Bool) : Option Parts :=
  parseUrl limits.url input (if site then some limits.site else none)
    (if port then some limits.port else none) (if path then some limits.path else none)

/-- Source: `ul_url.cpp` `ul_parse_url_ex`. -/
def ulParseUrlEx (input : Bytes) (siteSize portSize pathSize : Option ℕ) : Option Parts :=
  parseUrl limitsEx.url input siteSize portSize pathSize

/-- Source: `ul_url.cpp` `ul_parse_url_ex2`. -/
def ulParseUrlEx2 (input : Bytes) (siteSize portSize pathSize : Option ℕ) : Option Parts :=
  parseUrl limitsEx2.url input siteSize portSize pathSize

/-! ## The parts, without the searches -/

theorem sizePred_eq {size : ℕ} (h₁ : 0 < size) (h₂ : size < 2 ^ 64) : sizePred size = size - 1 := by
  have hsum : size + (2 ^ 64 - 1) = size - 1 + 2 ^ 64 := by omega
  rw [sizePred, hsum, Nat.add_mod_right, Nat.mod_eq_of_lt ((Nat.sub_le size 1).trans_lt h₂)]

/-- The string is cut in front of the path: it begins with `/` or `?`, and these are not in front
of it. -/
structure Cut (a r : Bytes) : Prop where
  slash : 47 ∉ a
  query : 63 ∉ a
  head : ∀ b ∈ r.head?, b = 47 ∨ b = 63

/-- Neither `/` nor `?`. -/
def inAuthority (b : UInt8) : Bool := b != 47 && b != 63

/-- Every string can be cut. -/
theorem cut_takeWhile (pin : Bytes) :
    Cut (pin.takeWhile inAuthority) (pin.dropWhile inAuthority) := by
  refine ⟨?_, ?_, ?_⟩
  · intro h
    exact absurd (List.mem_takeWhile_imp h) (by decide)
  · intro h
    exact absurd (List.mem_takeWhile_imp h) (by decide)
  · intro b hb
    have h := List.head?_dropWhile_not inAuthority pin
    rw [Option.mem_def.mp hb] at h
    by_contra hne
    rw [not_or] at hne
    simp [inAuthority, hne.1, hne.2] at h

/-- The first `/` and the first `?` of a string that is cut. -/
theorem Cut.strchr_cases {a r : Bytes} (h : Cut a r) :
    (r = [] ∧ strchr (a ++ r) 63 = none ∧ firstSlash (a ++ r) = none) ∨
      (r.head? = some 63 ∧ strchr (a ++ r) 63 = some a.length ∧
        ∃ p, firstSlash (a ++ r) = some p ∧ a.length ≤ p) ∨
      (r.head? = some 47 ∧ firstSlash (a ++ r) = some a.length ∧
        ∀ query ∈ strchr (a ++ r) 63, a.length < query) := by
  rw [firstSlash, strchr_append h.slash, strchr_append h.query]
  cases r with
  | nil => exact Or.inl ⟨rfl, rfl, rfl⟩
  | cons b r =>
      rcases h.head b rfl with rfl | rfl
      · refine Or.inr (Or.inr ⟨rfl, ?_, ?_⟩)
        · rw [strchr_cons_self, Option.map_some, Nat.zero_add]
          rfl
        · intro query hquery
          rw [strchr_cons_ne (by decide), Option.mem_def, Option.map_map,
            Option.map_eq_some_iff] at hquery
          obtain ⟨j, -, rfl⟩ := hquery
          simp only [Function.comp_apply]
          omega
      · refine Or.inr (Or.inl ⟨rfl, ?_, ?_⟩)
        · rw [strchr_cons_self, Option.map_some, Nat.zero_add]
        · rw [strchr_cons_self, strchr_cons_ne (by decide), Option.map_map]
          cases strchr r 47 with
          | none => exact ⟨_, rfl, Nat.le_add_left _ _⟩
          | some i => exact ⟨_, rfl, by simp only [Function.comp_apply]; omega⟩

/-- The path of a URL, in an array of `size` bytes, from where it begins. -/
def pathFrom (r : Bytes) (size : ℕ) : Option Bytes :=
  if r = [] then some [47]
  else if r.head? = some 63 then
    if r.length < sizePred size then some (47 :: r) else none
  else if r.length < size then some r
  else none

/-- **The path of a URL** begins at the first `/` or `?`. -/
theorem Cut.getPath_eq {a r : Bytes} (h : Cut a r) (size : ℕ) :
    getPath (a ++ r) size = pathFrom r size := by
  unfold getPath pathFrom
  rcases h.strchr_cases with ⟨rfl, hquery, hp⟩ | ⟨hhead, hquery, p, hp, hle⟩ | ⟨hhead, hp, hlt⟩
  · rw [hquery, hp, if_pos rfl]
  · have hne : r ≠ [] := by
      rintro rfl
      cases hhead
    rw [hquery, hp, if_neg hne, if_pos hhead]
    simp only [hle, if_true, List.drop_left]
  · have hne : r ≠ [] := by
      rintro rfl
      cases hhead
    rw [hp, if_neg hne, if_neg (by rw [hhead]; decide)]
    cases hquery : strchr (a ++ r) 63 with
    | none => simp only [List.drop_left]
    | some query =>
        have hlt := hlt query hquery
        simp only [Nat.not_le.mpr hlt, if_false, List.drop_left]

/-- **What stands in front of the path.** -/
theorem Cut.authority_eq {a r : Bytes} (h : Cut a r) : authority (a ++ r) = a := by
  unfold authority pathStart
  rcases h.strchr_cases with ⟨rfl, hquery, hp⟩ | ⟨hhead, hquery, p, hp, hle⟩ | ⟨hhead, hp, hlt⟩
  · rw [hquery, hp]
    simp
  · rw [hquery, hp]
    simp [hle]
  · rw [hp]
    cases hquery : strchr (a ++ r) 63 with
    | none => simp
    | some query =>
        have hlt := hlt query hquery
        simp [Nat.not_le.mpr hlt]

/-- The site and the port of what stands in front of the path, when there is a port. -/
theorem getSite_port {site : Bytes} (h : 58 ∉ site) (port : Bytes) (size : ℕ) :
    getSite (site ++ 58 :: port) size =
      (if site ≠ [] ∧ site.length < size then some site else none) ∧
    getPort (site ++ 58 :: port) size =
      if port.length + 1 < size ∧ 0 < atoi port then
        some (if port = ascii "80" then [] else port) else none := by
  have hfind : strchr (site ++ 58 :: port) 58 = some site.length := by
    rw [strchr_append h, strchr_cons_self, Option.map_some, Nat.zero_add]
  constructor
  · rw [getSite, hfind]
    simp only [Option.getD_some, List.take_left]
  · have hdrop : (site ++ 58 :: port).drop (site.length + 1) = port := by
      rw [← List.drop_drop, List.drop_left, List.drop_one, List.tail_cons]
    rw [getPort, hfind]
    simp only [hdrop, List.drop_left, List.length_cons]

/-- The site and the port of what stands in front of the path, when there is no port. -/
theorem getSite_noPort {site : Bytes} (h : 58 ∉ site) (size : ℕ) :
    getSite site size = (if site ≠ [] ∧ site.length < size then some site else none) ∧
      getPort site size = some [] := by
  have hfind := strchr_of_not_mem h
  constructor
  · rw [getSite, hfind]
    simp only [Option.getD_none, List.take_length]
  · rw [getPort, hfind]

/-- The site of what stands in front of the path. -/
theorem getSite_eq (host : Bytes) (size : ℕ) : getSite host size =
    if host.takeWhile (· != 58) ≠ [] ∧ (host.takeWhile (· != 58)).length < size then
      some (host.takeWhile (· != 58)) else none := by
  have hsite : 58 ∉ host.takeWhile (· != 58) := by
    intro h
    exact absurd (List.mem_takeWhile_imp h) (by decide)
  have hsplit := List.takeWhile_append_dropWhile (p := (· != 58)) (l := host)
  have hhead := List.head?_dropWhile_not (· != 58) host
  generalize host.takeWhile (· != 58) = site at hsite hsplit ⊢
  generalize host.dropWhile (· != 58) = rest at hsplit hhead
  subst hsplit
  cases rest with
  | nil => rw [List.append_nil, (getSite_noPort hsite size).1]
  | cons b port =>
      rw [List.head?_cons] at hhead
      have hb : b = 58 := by simpa using hhead
      rw [hb, (getSite_port hsite port size).1]

/-- When all parts of a URL are asked for. -/
theorem parseUrl_eq_some_iff {maxUrlLen siteSize portSize pathSize : ℕ} {url : Bytes}
    {parts : Parts} :
    parseUrl maxUrlLen url (some siteSize) (some portSize) (some pathSize) = some parts ↔
      url.length < maxUrlLen ∧ ∃ site port path,
        getSite (authority (stripUrl url)) siteSize = some site ∧
        getPort (authority (stripUrl url)) portSize = some port ∧
        getPath (stripUrl url) pathSize = some path ∧
        parts = ⟨some site, some port, some path⟩ := by
  unfold parseUrl
  by_cases hlen : maxUrlLen ≤ url.length
  · rw [if_pos hlen]
    constructor
    · intro h
      cases h
    · intro h
      omega
  · rw [if_neg hlen]
    simp only [Option.mapM_some, Option.bind_eq_bind, Option.pure_def]
    cases getPath (stripUrl url) pathSize <;> cases getPort (authority (stripUrl url)) portSize <;>
      cases getSite (authority (stripUrl url)) siteSize <;> simp [Nat.not_le.mp hlen, eq_comm]

/-! ## The parts together again -/

/-- The text of a port behind a site. -/
def PortTail (port tail : Bytes) : Prop :=
  (port ≠ [] ∧ tail = 58 :: port) ∨ (port = [] ∧ (tail = [] ∨ tail = ascii ":80"))

/-- The path that stands for the rest of a URL. -/
def pathOf (rest : Bytes) : Bytes :=
  if rest = [] then [47] else if rest.head? = some 63 then 47 :: rest else rest

theorem pathFrom_eq_some {r path : Bytes} {size : ℕ} (hsize : 1 < size) (hlt : size < 2 ^ 64)
    (h : pathFrom r size = some path) : path = pathOf r ∧ path.length < size := by
  have hpred := sizePred_eq (Nat.zero_lt_of_lt hsize) hlt
  unfold pathFrom at h
  unfold pathOf
  split_ifs at h ⊢ with hnil hquery hlen hlen
  · obtain rfl := Option.some.inj h
    exact ⟨rfl, hsize⟩
  · obtain rfl := Option.some.inj h
    rw [List.length_cons]
    exact ⟨rfl, by omega⟩
  · obtain rfl := Option.some.inj h
    exact ⟨rfl, hlen⟩

/-- The site and the port of what stands in front of the path. -/
theorem getSite_getPort {host site port : Bytes} {siteSize portSize : ℕ} (hsite : getSite host siteSize = some site)
    (hport : getPort host portSize = some port) (hpos : 0 < portSize) :
    ∃ tail, host = site ++ tail ∧ PortTail port tail ∧ 58 ∉ site ∧ site.length < siteSize ∧
      port.length < portSize := by
  by_cases hcolon : 58 ∈ host
  · obtain ⟨a, p, rfl, ha⟩ := List.eq_append_cons_of_mem hcolon
    obtain ⟨hsite', hport'⟩ := And.intro (getSite_port ha p siteSize).1 (getSite_port ha p portSize).2
    rw [hsite'] at hsite
    rw [hport'] at hport
    obtain ⟨⟨-, hlen⟩, hsite⟩ := Option.ite_none_right_eq_some.mp hsite
    obtain ⟨⟨hportlen, hnum⟩, hport⟩ := Option.ite_none_right_eq_some.mp hport
    obtain rfl := Option.some.inj hsite
    refine ⟨58 :: p, rfl, ?_, ha, hlen, ?_⟩
    · split_ifs at hport with hdefault
      · obtain rfl := Option.some.inj hport
        rw [hdefault]
        exact Or.inr ⟨rfl, Or.inr rfl⟩
      · obtain rfl := Option.some.inj hport
        refine Or.inl ⟨?_, rfl⟩
        rintro rfl
        exact absurd hnum (by decide)
    · split_ifs at hport
      · obtain rfl := Option.some.inj hport
        exact hpos
      · obtain rfl := Option.some.inj hport
        omega
  · obtain ⟨hsite', hport'⟩ := And.intro (getSite_noPort hcolon siteSize).1 (getSite_noPort hcolon portSize).2
    rw [hsite'] at hsite
    rw [hport'] at hport
    obtain ⟨⟨-, hlen⟩, hsite⟩ := Option.ite_none_right_eq_some.mp hsite
    obtain rfl := Option.some.inj hsite
    obtain rfl := Option.some.inj hport
    exact ⟨[], (List.append_nil _).symm, Or.inr ⟨rfl, Or.inl rfl⟩, hcolon, hlen, hpos⟩

/-- The scheme of a URL, if there is one, and what is behind it. -/
theorem exists_scheme (url : Bytes) :
    ∃ front, ulDeleteInter url = front ++ stripUrl url ∧ (front = [] ∨ front.map toLower = scheme) := by
  refine ⟨(ulDeleteInter url).take (schemeLength (ulDeleteInter url)), (List.take_append_drop _ _).symm, ?_⟩
  unfold schemeLength
  split_ifs with hscheme
  · exact Or.inr (beq_iff_eq.mp hscheme)
  · exact Or.inl rfl

/-- **Parsing loses nothing**: the site, the port and the path of a URL, behind one another, are the URL, but for
its scheme, a default port, and the `/` of a path that has none. -/
theorem ulParseUrl_parts {url site port path : Bytes}
    (h : ulParseUrl url true true true = some ⟨some site, some port, some path⟩) :
    ∃ front tail rest, ulDeleteInter url = front ++ (site ++ (tail ++ rest)) ∧
      (front = [] ∨ front.map toLower = scheme) ∧ PortTail port tail ∧
      (path = pathOf rest ∧ ∀ b ∈ rest.head?, b = 47 ∨ b = 63) ∧
      (47 ∉ site ∧ 63 ∉ site ∧ 58 ∉ site) ∧
      site.length < limits.site ∧ port.length < limits.port ∧ path.length < limits.path := by
  obtain ⟨-, site', port', path', hsite, hport, hpath, heq⟩ := parseUrl_eq_some_iff.mp h
  obtain ⟨rfl, rfl, rfl⟩ : site = site' ∧ port = port' ∧ path = path' := by simpa using heq
  obtain ⟨front, hfront, hscheme⟩ := exists_scheme url
  have hcut := cut_takeWhile (stripUrl url)
  have hsplit := List.takeWhile_append_dropWhile (p := inAuthority) (l := stripUrl url)
  generalize (stripUrl url).takeWhile inAuthority = a at hcut hsplit
  generalize (stripUrl url).dropWhile inAuthority = rest at hcut hsplit
  rw [← hsplit] at hsite hport hpath hfront
  rw [hcut.authority_eq] at hsite hport
  rw [hcut.getPath_eq] at hpath
  obtain ⟨tail, rfl, htail, hcolon, hsitelen, hportlen⟩ := getSite_getPort hsite hport (by decide)
  obtain ⟨hrest, hpathlen⟩ := pathFrom_eq_some (by decide) (by decide) hpath
  refine ⟨front, tail, rest, ?_, hscheme, htail, ⟨hrest, hcut.head⟩, ⟨?_, ?_, hcolon⟩, hsitelen, hportlen, hpathlen⟩
  · rw [hfront, List.append_assoc]
  · exact fun hmem => hcut.slash (List.mem_append_left tail hmem)
  · exact fun hmem => hcut.query (List.mem_append_left tail hmem)

/-- A URL with a port and a query, and no path. -/
theorem ulParseUrl_parts_query : ∃ front tail rest,
    ascii "HTTP://a.b:8080?x" = front ++ (ascii "a.b" ++ (tail ++ rest)) ∧
      PortTail (ascii "8080") tail ∧ ascii "/?x" = pathOf rest := by
  have hparse : ulParseUrl (ascii "HTTP://a.b:8080?x") true true true =
      some ⟨some (ascii "a.b"), some (ascii "8080"), some (ascii "/?x")⟩ := by decide +kernel
  have hsame : ulDeleteInter (ascii "HTTP://a.b:8080?x") = ascii "HTTP://a.b:8080?x" := by decide +kernel
  obtain ⟨front, tail, rest, hurl, -, htail, ⟨hpath, -⟩, -⟩ := ulParseUrl_parts hparse
  exact ⟨front, tail, rest, hsame.symm.trans hurl, htail, hpath⟩

end Asenal.Url
