import Asenal.Lib.Segments
import Mathlib.Data.List.Infix

/-!
# Main domains of sites

`ul_fetch_maindomain_ex2` looks for the main domain of a site: it matches the patterns of a dictionary against
the end of the site, and goes on to the `.` in front of what was matched. The patterns are stored backwards. If
there is none, the last two labels of the site are taken.

* `getDomainFromSite_boundary` — a domain begins where a label does.
* `fetchMaindomain_eq`, `ulFetchMaindomainEx2_boundary` — what the domain and the trunk of a site are.
* `isSome_revMatch_iff` — when a pattern is matched.
* `getLastTwoParts_two`, `getLastTwoParts_short` — the last two labels of a site.
* `fallback_iff` — when a site that is not in the dictionary has them as its domain.
-/

namespace Asenal.Url

open Asenal.Lib.Text Asenal.Lib.Segments

/-! ## The dictionary -/

/-- A dictionary of domains, with its patterns backwards. The second domains of the countries are in a map, in
the order of its keys. Source: `ul_url.h` `DomainDict`. -/
structure DomainDict where
  topDomain : List Bytes
  topCountry : List Bytes
  general2ndDomain : List Bytes
  countryDomainMap : List (Bytes × List Bytes)
  sorted : countryDomainMap.Pairwise fun e e' => e.1 < e'.1

namespace DomainDict

/-- Source: `ul_url2.cpp` `DomainDict::clear`. -/
def empty : DomainDict := ⟨[], [], [], [], .nil⟩

/-- Source: `ul_url2.cpp` `DomainDict::add_top_domain`. -/
def addTopDomain (dict : DomainDict) (s : Bytes) : DomainDict :=
  { dict with topDomain := dict.topDomain ++ [s.reverse] }

/-- Source: `ul_url2.cpp` `DomainDict::add_top_country`. -/
def addTopCountry (dict : DomainDict) (s : Bytes) : DomainDict :=
  { dict with topCountry := dict.topCountry ++ [s.reverse] }

/-- Source: `ul_url2.cpp` `DomainDict::add_general_2nd_domain`. -/
def addGeneral2ndDomain (dict : DomainDict) (s : Bytes) : DomainDict :=
  { dict with general2ndDomain := dict.general2ndDomain ++ [s.reverse] }

/-- `country_domain_map_[t1].push_back(t2)`. -/
def pushSecond (t₁ t₂ : Bytes) : List (Bytes × List Bytes) → List (Bytes × List Bytes)
  | [] => [(t₁, [t₂])]
  | e :: m =>
      if t₁ < e.1 then (t₁, [t₂]) :: e :: m
      else if t₁ = e.1 then (e.1, e.2 ++ [t₂]) :: m
      else e :: pushSecond t₁ t₂ m

/-- The keys are those that were there, and the new one. -/
theorem key_of_mem_pushSecond {t₁ t₂ : Bytes} {m : List (Bytes × List Bytes)} {e : Bytes × List Bytes}
    (h : e ∈ pushSecond t₁ t₂ m) : e.1 = t₁ ∨ ∃ e' ∈ m, e.1 = e'.1 := by
  induction m with
  | nil =>
      rw [pushSecond, List.mem_singleton] at h
      exact Or.inl (by rw [h])
  | cons a m ih =>
      unfold pushSecond at h
      split_ifs at h with hlt heq
      · rcases List.mem_cons.mp h with rfl | h
        · exact Or.inl rfl
        · exact Or.inr ⟨e, h, rfl⟩
      · rcases List.mem_cons.mp h with rfl | h
        · exact Or.inl heq.symm
        · exact Or.inr ⟨e, List.mem_cons_of_mem a h, rfl⟩
      · rcases List.mem_cons.mp h with rfl | h
        · exact Or.inr ⟨e, List.mem_cons_self, rfl⟩
        · exact (ih h).imp_right fun ⟨e', he', hkey⟩ => ⟨e', List.mem_cons_of_mem a he', hkey⟩

/-- The keys stay in their order. -/
theorem sorted_pushSecond {t₁ t₂ : Bytes} {m : List (Bytes × List Bytes)}
    (h : m.Pairwise fun e e' => e.1 < e'.1) : (pushSecond t₁ t₂ m).Pairwise fun e e' => e.1 < e'.1 := by
  induction m with
  | nil => exact List.pairwise_singleton _ _
  | cons a m ih =>
      have hcons := h
      rw [List.pairwise_cons] at hcons
      unfold pushSecond
      split_ifs with hlt heq
      · refine List.pairwise_cons.mpr ⟨?_, h⟩
        rw [List.forall_mem_cons]
        exact ⟨hlt, fun e he => List.lt_trans hlt (hcons.1 e he)⟩
      · exact List.pairwise_cons.mpr hcons
      · refine List.pairwise_cons.mpr ⟨fun e he => ?_, ih hcons.2⟩
        rcases key_of_mem_pushSecond he with hkey | ⟨e', he', hkey⟩
        · rw [hkey]
          exact Std.lt_of_le_of_ne (List.not_lt.mp hlt) (Ne.symm heq)
        · rw [hkey]
          exact hcons.1 e' he'

/-- Source: `ul_url2.cpp` `DomainDict::add_country_domain`. -/
def addCountryDomain (dict : DomainDict) (s w : Bytes) : DomainDict :=
  { dict with
    countryDomainMap := pushSecond s.reverse (w ++ s).reverse dict.countryDomainMap
    sorted := sorted_pushSecond dict.sorted }

end DomainDict

/-! ## The functions -/

/-- Where the pattern, which is read backwards, begins if the first `len` bytes end in it. Source: `ul_url2.cpp`
`rev_match`. -/
def revMatch (str : Bytes) : ℕ → Bytes → Option ℕ
  | len, [] => some len
  | 0, _ :: _ => none
  | len + 1, c :: pattern => if str[len]? = some c then revMatch str len pattern else none

/-- The loop of `rev_dot`, which does not look at the first byte. -/
def dotLoop (str : Bytes) : ℕ → Option ℕ
  | 0 => none
  | dot + 1 => if str[dot + 1]? = some 46 then some (dot + 2) else dotLoop str dot

/-- What stands behind the last `.` in front of `dot`. Source: `ul_url2.cpp` `rev_dot`. -/
def revDot (str : Bytes) (dot : ℕ) : Option ℕ := dotLoop str (dot - 1)

/-- The loop of `get_last_two_parts`, over the first bytes of the URL. -/
def partsLoop (url : Bytes) : ℕ → ℕ → Option ℕ
  | _, 0 => none
  | dotcount, i + 1 =>
      let dotcount := if url[i]? = some 46 then dotcount + 1 else dotcount
      if dotcount = 2 then some (i + 1) else partsLoop url dotcount i

/-- Source: `ul_url2.cpp` `get_last_two_parts`. -/
def getLastTwoParts (url : Bytes) : Option ℕ := partsLoop url 0 url.length

/-- Where the domain begins behind a match: at the label in front of it, or at the site if there is none. -/
def labelBefore (site : Bytes) (found : ℕ) : ℕ := (revDot site found).getD 0

/-- The second domain of the first country of the map that the site ends in. -/
def secondDomain (dict : DomainDict) (site : Bytes) : Option ℕ :=
  match dict.countryDomainMap.find? fun e => (revMatch site site.length e.1).isSome with
  | some e => e.2.findSome? (revMatch site site.length)
  | none => none

/-- Where the domain of a site begins. Source: `ul_url2.cpp` `get_domain_from_site`. -/
def getDomainFromSite (dict : DomainDict) (site : Bytes) : Option ℕ :=
  if site = [] then none
  else
    match dict.topDomain.findSome? (revMatch site site.length) with
    | some found => some (labelBefore site found)
    | none =>
        match secondDomain dict site with
        | some found => some (labelBefore site found)
        | none =>
            match dict.topCountry.findSome? (revMatch site site.length) with
            | some found =>
                match dict.general2ndDomain.findSome? (revMatch site found) with
                | some second => some (labelBefore site second)
                | none => some (labelBefore site found)
            | none => getLastTwoParts site

/-- The trunk of a domain, in a buffer of `trunkSize` bytes. Source: `ul_url2.cpp` `get_trunk_from_domain`. -/
def getTrunkFromDomain (domain : Bytes) (trunkSize : ℕ) : Option Bytes :=
  let size := (domain.takeWhile (· != 46)).length
  if trunkSize ≤ size then none
  else if size < domain.length then some (domain.take size)
  else some []

/-- Digits and dots, with three dots. Source: `ul_url2.cpp` `guess_is_dotip2`. -/
def guessIsDotip2 (site : Bytes) : Bool :=
  site.all (fun b => isDigit b || b == 46) && site.count 46 == 3

/-- What is done to the buffer of the trunk: nothing, a string is written, or something outside of it is. -/
inductive TrunkWrite
  | nothing
  | text (s : Bytes)
  | outside
  deriving DecidableEq

/-- What `ul_fetch_trunk_and_domain` returns; the domain is a position in the site. -/
inductive Fetch
  | success (domain : ℕ) (trunk : TrunkWrite)
  | trunkBufferSmall (trunk : TrunkWrite)
  | illegalDomain
  deriving DecidableEq

/-- The domain and the trunk of a site; there may be no buffer for the trunk. Source: `ul_url2.cpp`
`ul_fetch_trunk_and_domain`. -/
def ulFetchTrunkAndDomain (dict : DomainDict) (site : Bytes) (trunk : Option ℕ) : Fetch :=
  if guessIsDotip2 site then
    match trunk with
    | none => .success 0 .nothing
    | some 0 => .trunkBufferSmall .nothing
    | some (size + 1) =>
        if size < site.length then .trunkBufferSmall (.text (site.take size)) else .success 0 (.text site)
  else
    match getDomainFromSite dict site with
    | none => .illegalDomain
    | some i =>
        let domain := i + ((site.drop i).takeWhile (· == 46)).length
        match trunk with
        | none => .success domain .nothing
        | some size =>
            match getTrunkFromDomain (site.drop domain) size with
            | none => .trunkBufferSmall .nothing
            | some t => .success domain (.text t)

/-- The domain, as a position in the site, if there is one, and what is done to the buffer of the trunk. -/
structure Fetched where
  domain : Option ℕ
  trunk : TrunkWrite
  deriving DecidableEq

/-- `strncpy(trunk, site, trunk_size - 1)` and its terminator. -/
def copySite (site : Bytes) : Option ℕ → TrunkWrite
  | some (size + 1) => .text (site.take size)
  | _ => .outside

/-- What the two functions do with a dictionary. -/
def fetchMaindomain (dict : DomainDict) (site : Bytes) (trunk : Option ℕ) (recoveryMode : Bool) : Fetched :=
  match ulFetchTrunkAndDomain dict site trunk with
  | .success domain t => ⟨some domain, t⟩
  | .trunkBufferSmall t => if recoveryMode then ⟨some 0, copySite site trunk⟩ else ⟨none, t⟩
  | .illegalDomain => if recoveryMode then ⟨some 0, copySite site trunk⟩ else ⟨none, .nothing⟩

/-- With the dictionary of the default lists. Source: `ul_url2.cpp` `ul_fetch_maindomain_ex`. -/
def ulFetchMaindomainEx (defaults : DomainDict) (site : Bytes) (trunk : Option ℕ) (recoveryMode : Bool) :
    Fetched :=
  fetchMaindomain defaults site trunk recoveryMode

/-- Source: `ul_url2.cpp` `ul_fetch_maindomain_ex2`. -/
def ulFetchMaindomainEx2 (defaults : DomainDict) (site : Bytes) (trunk : Option ℕ) (dict : Option DomainDict)
    (recoveryMode : Bool) : Fetched :=
  match dict with
  | none => ulFetchMaindomainEx defaults site trunk true
  | some dict => fetchMaindomain dict site trunk recoveryMode

example : fetchMaindomain ((DomainDict.empty.addTopCountry (ascii ".uk")).addGeneral2ndDomain (ascii ".co"))
    (ascii "www.abc.co.uk") (some 16) false = ⟨some 4, .text (ascii "abc")⟩ := by decide

/-! ## Where a domain begins -/

/-- The beginning of the site, or right behind a `.`. -/
def IsBoundary (site : Bytes) (i : ℕ) : Prop := i = 0 ∨ ∃ j, i = j + 1 ∧ site[j]? = some 46

theorem dotLoop_boundary {str : Bytes} {dot i : ℕ} (h : dotLoop str dot = some i) : IsBoundary str i := by
  induction dot with
  | zero => cases h
  | succ dot ih =>
      unfold dotLoop at h
      split_ifs at h with hdot
      · obtain rfl := Option.some.inj h
        exact Or.inr ⟨dot + 1, rfl, hdot⟩
      · exact ih h

theorem labelBefore_boundary (site : Bytes) (found : ℕ) : IsBoundary site (labelBefore site found) := by
  unfold labelBefore
  cases h : revDot site found with
  | none => exact Or.inl rfl
  | some i => exact dotLoop_boundary h

theorem partsLoop_boundary {url : Bytes} {dotcount k i : ℕ} (hcount : dotcount < 2)
    (h : partsLoop url dotcount k = some i) : IsBoundary url i := by
  induction k generalizing dotcount with
  | zero => cases h
  | succ k ih =>
      unfold partsLoop at h
      dsimp only at h
      by_cases hdot : url[k]? = some 46
      · rw [if_pos hdot] at h
        split_ifs at h
        · obtain rfl := Option.some.inj h
          exact Or.inr ⟨k, rfl, hdot⟩
        · exact ih (by omega) h
      · rw [if_neg hdot, if_neg (by omega)] at h
        exact ih hcount h

/-- **A domain begins where a label does**, whatever the dictionary has. -/
theorem getDomainFromSite_boundary {dict : DomainDict} {site : Bytes} {i : ℕ}
    (h : getDomainFromSite dict site = some i) : IsBoundary site i := by
  have hlabel : ∀ found, some (labelBefore site found) = some i → IsBoundary site i := by
    intro found hfound
    exact Option.some.inj hfound ▸ labelBefore_boundary site found
  unfold getDomainFromSite at h
  split_ifs at h
  split at h
  · exact hlabel _ h
  · split at h
    · exact hlabel _ h
    · split at h
      · split at h
        · exact hlabel _ h
        · exact hlabel _ h
      · exact partsLoop_boundary (by decide) h

/-! ## Labels -/

/-- A site of labels: they are joined by dots, and none is empty. -/
structure SiteOf (labels : List Bytes) (site : Bytes) : Prop where
  ne_nil : labels ≠ []
  label : ∀ l ∈ labels, l ≠ [] ∧ 46 ∉ l
  text : site = [46].intercalate labels

theorem SiteOf.pathText {labels : List Bytes} {site : Bytes} (h : SiteOf labels site) :
    pathText 46 labels = 46 :: site := by
  rw [pathText_eq 46 h.ne_nil, h.text]

/-- At the beginning of a label stands no dot. -/
theorem SiteOf.head {labels : List Bytes} {site : Bytes} (h : SiteOf labels site) {i : ℕ}
    (hi : IsBoundary site i) : ∃ c, (site.drop i).head? = some c ∧ c ≠ 46 := by
  rcases hi with rfl | ⟨j, rfl, hj⟩
  · exact head_behind_slash h.label (a := []) h.pathText
  · obtain ⟨hlt, hget⟩ := List.getElem?_eq_some_iff.mp hj
    have hsplit : 46 :: site = (46 :: site.take j) ++ 46 :: site.drop (j + 1) := by
      rw [List.cons_append, ← hget, List.getElem_cons_drop, List.take_append_drop]
    exact head_behind_slash h.label (h.pathText.trans hsplit)

/-- The first label of a domain. -/
def trunkOf (domain : Bytes) : Bytes := if 46 ∈ domain then domain.takeWhile (· != 46) else []

/-- A trunk that fits is the first label. -/
theorem getTrunkFromDomain_eq {domain : Bytes} {trunkSize : ℕ} (h : domain.length < trunkSize) :
    getTrunkFromDomain domain trunkSize = some (trunkOf domain) := by
  have hstart : domain.takeWhile (· != 46) <+: domain := List.takeWhile_prefix _
  have hle := hstart.length_le
  have hmem : (domain.takeWhile (· != 46)).length < domain.length ↔ 46 ∈ domain := by
    constructor
    · intro hlt
      by_contra hfree
      have hself : domain.takeWhile (· != 46) = domain :=
        List.takeWhile_eq_self_iff.mpr fun b hb => bne_iff_ne.mpr (ne_of_mem_of_not_mem hb hfree)
      rw [hself] at hlt
      exact Nat.lt_irrefl _ hlt
    · intro hmem
      apply Nat.lt_of_le_of_ne hle
      intro heq
      have hself := List.takeWhile_eq_self_iff.mp (hstart.eq_of_length heq) 46 hmem
      cases hself
  unfold getTrunkFromDomain trunkOf
  dsimp only
  rw [if_neg (by omega), ← List.prefix_iff_eq_take.mp hstart]
  by_cases hdot : 46 ∈ domain
  · rw [if_pos (hmem.mpr hdot), if_pos hdot]
  · rw [if_neg (mt hmem.mp hdot), if_neg hdot]

/-- What is fetched for a site of labels with room for the trunk: where the domain begins no dot is skipped. -/
theorem fetchMaindomain_eq {dict : DomainDict} {labels : List Bytes} {site : Bytes} {trunkSize : ℕ}
    (hsite : SiteOf labels site) (hip : guessIsDotip2 site = false) (hsize : site.length < trunkSize)
    (recoveryMode : Bool) :
    fetchMaindomain dict site (some trunkSize) recoveryMode =
      match getDomainFromSite dict site with
      | some i => ⟨some i, .text (trunkOf (site.drop i))⟩
      | none => if recoveryMode then ⟨some 0, copySite site (some trunkSize)⟩ else ⟨none, .nothing⟩ := by
  unfold fetchMaindomain ulFetchTrunkAndDomain
  rw [hip, if_neg Bool.false_ne_true]
  cases h : getDomainFromSite dict site with
  | none => rfl
  | some i =>
      obtain ⟨c, hhead, hc⟩ := hsite.head (getDomainFromSite_boundary h)
      have hskip : (site.drop i).takeWhile (· == 46) = [] := by
        obtain ⟨t, ht⟩ := List.head?_eq_some_iff.mp hhead
        rw [ht, List.takeWhile_cons_of_neg (by simpa using hc)]
      have hfit : (site.drop i).length < trunkSize := by
        rw [List.length_drop]
        omega
      simp only [hskip, List.length_nil, Nat.add_zero, getTrunkFromDomain_eq hfit]

/-- **The domain of a site** begins where a label does, and its first label is the trunk if there is another one
behind it. -/
theorem ulFetchMaindomainEx2_boundary {defaults dict : DomainDict} {labels : List Bytes} {site : Bytes}
    {trunkSize i : ℕ} {trunk : TrunkWrite} (hsite : SiteOf labels site) (hip : guessIsDotip2 site = false)
    (hsize : site.length < trunkSize)
    (h : ulFetchMaindomainEx2 defaults site (some trunkSize) (some dict) false = ⟨some i, trunk⟩) :
    i < site.length ∧ IsBoundary site i ∧ (site.drop i).head? ≠ some 46 ∧
      trunk = .text (if 46 ∈ site.drop i then (site.drop i).takeWhile (· != 46) else []) := by
  rw [ulFetchMaindomainEx2, fetchMaindomain_eq hsite hip hsize] at h
  cases hdomain : getDomainFromSite dict site with
  | none =>
      rw [hdomain] at h
      cases h
  | some k =>
      rw [hdomain] at h
      cases h
      have hboundary := getDomainFromSite_boundary hdomain
      obtain ⟨c, hhead, hc⟩ := hsite.head hboundary
      refine ⟨?_, hboundary, ?_, rfl⟩
      · by_contra hlong
        rw [List.drop_of_length_le (Nat.not_lt.mp hlong)] at hhead
        cases hhead
      · rw [hhead, ne_eq, Option.some.injEq]
        exact hc

/-- A site under a second domain of a country. -/
theorem ulFetchMaindomainEx2_boundary_country :
    IsBoundary (ascii "www.abc.bj.cn") 4 ∧ ((ascii "www.abc.bj.cn").drop 4).head? ≠ some 46 ∧
      TrunkWrite.text (ascii "abc") = .text (if 46 ∈ (ascii "www.abc.bj.cn").drop 4 then
        ((ascii "www.abc.bj.cn").drop 4).takeWhile (· != 46) else []) := by
  have hsite : SiteOf [ascii "www", ascii "abc", ascii "bj", ascii "cn"] (ascii "www.abc.bj.cn") :=
    ⟨by decide, by decide, by decide⟩
  have hfetch : ulFetchMaindomainEx2 .empty (ascii "www.abc.bj.cn") (some 16)
      (some (DomainDict.empty.addCountryDomain (ascii ".cn") (ascii ".bj"))) false =
        ⟨some 4, .text (ascii "abc")⟩ := by decide
  exact (ulFetchMaindomainEx2_boundary hsite (by decide) (by decide) hfetch).2

/-! ## Sites that are not in the dictionary -/

/-- **When a pattern is matched**: the first `len` bytes end in it. -/
theorem isSome_revMatch_iff {str : Bytes} {len : ℕ} (h : len ≤ str.length) (pattern : Bytes) :
    (revMatch str len pattern).isSome ↔ pattern.reverse <:+ str.take len := by
  induction pattern generalizing len with
  | nil => simp [revMatch]
  | cons c pattern ih =>
      cases len with
      | zero => simp [revMatch]
      | succ len =>
          have hget : str[len]? = some str[len] := List.getElem?_eq_getElem h
          have hlast : (str.take (len + 1)).reverse = str[len] :: (str.take len).reverse := by
            rw [List.take_succ_eq_append_getElem h, List.reverse_append]
            rfl
          rw [← List.reverse_prefix, List.reverse_reverse, hlast, List.cons_prefix_cons, revMatch, hget]
          split_ifs with hc
          · rw [ih (Nat.le_of_succ_le h), ← List.reverse_prefix, List.reverse_reverse]
            exact ⟨fun hp => ⟨(Option.some.inj hc).symm, hp⟩, fun hp => hp.2⟩
          · exact iff_of_false Bool.false_ne_true fun hp => hc (congrArg some hp.1.symm)

/-- A site that ends in no top domain and in no country; the other patterns are looked for in front of these
only. -/
def Unmatched (dict : DomainDict) (site : Bytes) : Prop :=
  ∀ pattern ∈ dict.topDomain ++ dict.countryDomainMap.map Prod.fst ++ dict.topCountry,
    ¬ pattern.reverse <:+ site

/-- Such a site comes to its last two labels. -/
theorem getDomainFromSite_unmatched {dict : DomainDict} {site : Bytes} (h : Unmatched dict site) :
    getDomainFromSite dict site = getLastTwoParts site := by
  have hnone : ∀ pattern ∈ dict.topDomain ++ dict.countryDomainMap.map Prod.fst ++ dict.topCountry,
      revMatch site site.length pattern = none := by
    intro pattern hp
    rw [← Option.not_isSome_iff_eq_none, isSome_revMatch_iff (Nat.le_refl _), List.take_length]
    exact h pattern hp
  simp only [List.mem_append, or_assoc] at hnone
  have htop : dict.topDomain.findSome? (revMatch site site.length) = none :=
    List.findSome?_eq_none_iff.mpr fun p hp => hnone p (Or.inl hp)
  have hcountry : dict.topCountry.findSome? (revMatch site site.length) = none :=
    List.findSome?_eq_none_iff.mpr fun p hp => hnone p (Or.inr (Or.inr hp))
  have hsecond : secondDomain dict site = none := by
    have hfind : dict.countryDomainMap.find? (fun e => (revMatch site site.length e.1).isSome) = none := by
      refine List.find?_eq_none.mpr fun e he => ?_
      rw [hnone e.1 (Or.inr (Or.inl (List.mem_map_of_mem he)))]
      exact Bool.false_ne_true
    rw [secondDomain, hfind]
  unfold getDomainFromSite
  rw [htop, hsecond, hcountry]
  split_ifs with hnil
  · rw [hnil]
    rfl
  · rfl

/-- A label is passed over. -/
theorem partsLoop_label {url a l r : Bytes} (hurl : url = a ++ (l ++ r)) (hl : 46 ∉ l) {dotcount : ℕ}
    (h : dotcount < 2) : partsLoop url dotcount (a.length + l.length) = partsLoop url dotcount a.length := by
  induction l using List.reverseRecOn generalizing r with
  | nil => rfl
  | append_singleton l b ih =>
      rw [List.mem_append, List.mem_singleton, not_or] at hl
      rw [List.append_assoc] at hurl
      have hget : url[a.length + l.length]? = some b := by
        rw [hurl, List.getElem?_append_right (Nat.le_add_right _ _), Nat.add_sub_cancel_left,
          List.getElem?_append_right (Nat.le_refl _), Nat.sub_self]
        rfl
      have hb : some b ≠ some 46 := fun heq => hl.2 (Option.some.inj heq).symm
      rw [List.length_append, List.length_singleton, ← Nat.add_assoc, partsLoop, hget, if_neg hb,
        if_neg (by omega), ih hurl hl.1]

/-- A dot is counted. -/
theorem partsLoop_dot {url a r : Bytes} (hurl : url = a ++ 46 :: r) (dotcount : ℕ) :
    partsLoop url dotcount (a.length + 1) =
      if dotcount + 1 = 2 then some (a.length + 1) else partsLoop url (dotcount + 1) a.length := by
  have hget : url[a.length]? = some 46 := by
    rw [hurl, List.getElem?_append_right (Nat.le_refl _), Nat.sub_self]
    rfl
  rw [partsLoop, hget, if_pos rfl]

/-- The last label of a site, and the dot in front of it. -/
theorem getLastTwoParts_dot {url a m : Bytes} (hurl : url = a ++ 46 :: m) (hm : 46 ∉ m) :
    getLastTwoParts url = partsLoop url 1 a.length := by
  have hlast : url = (a ++ [46]) ++ (m ++ []) := by rw [hurl]; simp
  have hlen : url.length = (a ++ [46]).length + m.length := by
    rw [hlast, List.append_nil, List.length_append]
  rw [getLastTwoParts, hlen, partsLoop_label hlast hm (by decide), List.length_append, List.length_singleton,
    partsLoop_dot hurl, if_neg (by decide)]

/-- **The last two labels of a site** with another one in front of them. -/
theorem getLastTwoParts_two {a l m : Bytes} (hl : 46 ∉ l) (hm : 46 ∉ m) :
    getLastTwoParts (a ++ 46 :: (l ++ 46 :: m)) = some (a.length + 1) := by
  generalize hurl : a ++ 46 :: (l ++ 46 :: m) = url
  have hlast : url = (a ++ 46 :: l) ++ 46 :: m := by rw [← hurl]; simp
  have hlabel : url = (a ++ [46]) ++ (l ++ 46 :: m) := by rw [← hurl]; simp
  have hlen : (a ++ 46 :: l).length = (a ++ [46]).length + l.length := by
    simp only [List.length_append, List.length_cons, List.length_nil]
    omega
  rw [getLastTwoParts_dot hlast hm, hlen, partsLoop_label hlabel hl (by decide), List.length_append,
    List.length_singleton, partsLoop_dot hurl.symm, if_pos rfl]

/-- **A site of one label or two** has no second dot. -/
theorem getLastTwoParts_short {labels : List Bytes} {site : Bytes} (h : SiteOf labels site)
    (hlen : labels.length < 3) : getLastTwoParts site = none := by
  have hfree : ∀ l ∈ labels, 46 ∉ l := fun l hl => (h.label l hl).2
  have hpass : ∀ {url l r : Bytes} {dotcount : ℕ}, url = l ++ r → 46 ∉ l → dotcount < 2 →
      partsLoop url dotcount l.length = none := by
    intro url l r dotcount hurl hl hcount
    have hlabel := partsLoop_label (a := []) hurl hl hcount
    rw [List.length_nil, Nat.zero_add] at hlabel
    exact hlabel
  have htext := h.text
  match labels, h.ne_nil, hlen, hfree with
  | [m], _, _, hfree =>
      rw [List.intercalate_singleton] at htext
      rw [htext]
      exact hpass (List.append_nil m).symm (hfree m List.mem_cons_self) (by decide)
  | [l, m], _, _, hfree =>
      rw [List.forall_mem_cons, List.forall_mem_singleton] at hfree
      rw [List.intercalate_cons_cons, List.intercalate_singleton, List.append_assoc] at htext
      rw [getLastTwoParts_dot htext hfree.2]
      exact hpass htext hfree.1 (by decide)

/-- The last two labels of a site of three or more. -/
theorem getLastTwoParts_long {labels : List Bytes} {site : Bytes} (h : SiteOf labels site)
    (hlen : 3 ≤ labels.length) : ∃ i, getLastTwoParts site = some i ∧
      site.drop i = [46].intercalate (labels.drop (labels.length - 2)) := by
  have htwo : (labels.drop (labels.length - 2)).length = 2 := by
    rw [List.length_drop]
    omega
  have hne : labels.take (labels.length - 2) ≠ [] := by
    rw [← List.length_pos_iff, List.length_take]
    omega
  have hsplit := List.take_append_drop (labels.length - 2) labels
  obtain ⟨l, m, hlm⟩ := List.length_eq_two.mp htwo
  rw [hlm] at hsplit ⊢
  generalize labels.take (labels.length - 2) = init at hsplit hne
  have htext : site = [46].intercalate init ++ 46 :: (l ++ 46 :: m) := by
    have hpath := h.pathText
    rw [← hsplit, pathText_append, pathText_eq 46 hne] at hpath
    simpa using (List.cons.inj hpath).2.symm
  have hl : 46 ∉ l := (h.label l (by rw [← hsplit]; simp)).2
  have hm : 46 ∉ m := (h.label m (by rw [← hsplit]; simp)).2
  refine ⟨_, htext ▸ getLastTwoParts_two hl hm, ?_⟩
  rw [htext, ← List.drop_drop, List.drop_left, List.drop_one, List.tail_cons]
  simp

/-- **The domain of a site that is not in the dictionary** is its last two labels, or the whole site if there are
fewer than three, exactly if there are three or `recoveryMode` is on. -/
theorem fallback_iff {defaults dict : DomainDict} {labels : List Bytes} {site : Bytes} {trunkSize : ℕ}
    (hsite : SiteOf labels site) (hip : guessIsDotip2 site = false) (hsize : site.length < trunkSize)
    (hmatch : Unmatched dict site) (recoveryMode : Bool) :
    (ulFetchMaindomainEx2 defaults site (some trunkSize) (some dict) recoveryMode).domain.map (site.drop ·) =
        some ([46].intercalate (labels.drop (labels.length - 2))) ↔
      3 ≤ labels.length ∨ recoveryMode = true := by
  rw [ulFetchMaindomainEx2, fetchMaindomain_eq hsite hip hsize, getDomainFromSite_unmatched hmatch]
  by_cases hlen : 3 ≤ labels.length
  · obtain ⟨i, hparts, hdrop⟩ := getLastTwoParts_long hsite hlen
    rw [hparts]
    exact iff_of_true (congrArg some hdrop) (Or.inl hlen)
  · have hall : labels.length - 2 = 0 := by omega
    rw [getLastTwoParts_short hsite (Nat.not_le.mp hlen), hall, List.drop_zero, ← hsite.text]
    cases recoveryMode with
    | true => exact iff_of_true rfl (Or.inr rfl)
    | false => simp [hlen]

/-- A site of three labels. -/
theorem fallback_iff_three :
    (ulFetchMaindomainEx2 .empty (ascii "www.abc.xyz") (some 16) (some (DomainDict.empty.addTopDomain (ascii ".com")))
      false).domain.map ((ascii "www.abc.xyz").drop ·) = some (ascii "abc.xyz") := by
  have hsite : SiteOf [ascii "www", ascii "abc", ascii "xyz"] (ascii "www.abc.xyz") :=
    ⟨by decide, by decide, by decide⟩
  have hmatch : Unmatched (DomainDict.empty.addTopDomain (ascii ".com")) (ascii "www.abc.xyz") := by
    intro pattern hp
    obtain rfl : pattern = (ascii ".com").reverse := by simpa [DomainDict.addTopDomain, DomainDict.empty] using hp
    decide
  exact (fallback_iff hsite (by decide) (by decide) hmatch false).mpr (Or.inl (by decide))

/-- A site of two labels that ends in no pattern has no domain. -/
theorem fallback_none :
    ulFetchMaindomainEx2 .empty (ascii "abc.xyz") (some 16) (some (DomainDict.empty.addTopDomain (ascii ".com")))
      false = ⟨none, .nothing⟩ ∧
    ¬ ∀ (dict : DomainDict) (labels : List Bytes) (site : Bytes) (trunkSize : ℕ) (recoveryMode : Bool),
      SiteOf labels site → guessIsDotip2 site = false → site.length < trunkSize → Unmatched dict site →
      (ulFetchMaindomainEx2 .empty site (some trunkSize) (some dict) recoveryMode).domain.map (site.drop ·) =
        some ([46].intercalate (labels.drop (labels.length - 2))) := by
  have hnone : ulFetchMaindomainEx2 .empty (ascii "abc.xyz") (some 16)
      (some (DomainDict.empty.addTopDomain (ascii ".com"))) false = ⟨none, .nothing⟩ := by decide
  refine ⟨hnone, fun h => ?_⟩
  have hsite : SiteOf [ascii "abc", ascii "xyz"] (ascii "abc.xyz") := ⟨by decide, by decide, by decide⟩
  have hmatch : Unmatched (DomainDict.empty.addTopDomain (ascii ".com")) (ascii "abc.xyz") := by
    intro pattern hp
    obtain rfl : pattern = (ascii ".com").reverse := by simpa [DomainDict.addTopDomain, DomainDict.empty] using hp
    decide
  have hdomain := h _ _ _ 16 false hsite (by decide) (by decide) hmatch
  rw [hnone] at hdomain
  cases hdomain

end Asenal.Url
