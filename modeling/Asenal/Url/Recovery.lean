import Asenal.Url.Domain

/-!
# The mode for recovery

`ul_fetch_maindomain_ex` works with the default lists, and `ul_fetch_maindomain_ex2` with a dictionary of the
caller, or with the default lists if there is none. When no domain is found, or the trunk does not fit its
buffer, the mode says whether the whole site is taken in its place. Without a dictionary the mode is not handed
on, and the default of the parameter, which is `true`, stands in for it.

* `isSome_getDomainFromSite_iff` — which sites have a domain.
* `isSuccess_iff` — when the core of both functions succeeds.
* `same_fetch_iff` — when the three calls do the same.
-/

namespace Asenal.Url

open Asenal.Lib.Text

/-! ## When a domain is found -/

/-- A site that is not empty and ends in a pattern of the dictionary, or has two dots. -/
def HasDomain (dict : DomainDict) (site : Bytes) : Prop :=
  site ≠ [] ∧ ((∃ pattern ∈ dict.topDomain ++ dict.topCountry, pattern.reverse <:+ site) ∨
    (secondDomain dict site).isSome ∨ 2 ≤ site.count 46)

/-- The loop over the first `k` bytes comes to a second dot iff there is one. -/
theorem isSome_partsLoop_iff {url : Bytes} {dotcount k : ℕ} (hcount : dotcount < 2) (hk : k ≤ url.length) :
    (partsLoop url dotcount k).isSome ↔ 2 ≤ dotcount + (url.take k).count 46 := by
  induction k generalizing dotcount with
  | zero => simp [partsLoop, hcount]
  | succ k ih =>
      have htake : url.take (k + 1) = url.take k ++ [url[k]] := List.take_succ_eq_append_getElem hk
      rw [partsLoop, htake, List.count_append, List.getElem?_eq_getElem hk]
      by_cases hdot : url[k] = 46
      · rw [hdot, if_pos rfl, List.count_singleton_self]
        split_ifs with htwo
        · exact iff_of_true rfl (by omega)
        · rw [ih (by omega) (Nat.le_of_succ_le hk)]
          omega
      · have hne : some url[k] ≠ some 46 := fun h => hdot (Option.some.inj h)
        have hzero : [url[k]].count 46 = 0 :=
          List.count_eq_zero_of_not_mem fun h => hdot (List.mem_singleton.mp h).symm
        rw [if_neg hne, if_neg (by omega), ih hcount (Nat.le_of_succ_le hk), hzero, Nat.add_zero]

/-- One of the patterns is matched iff the site ends in one. -/
theorem isSome_findSome_iff (patterns : List Bytes) (site : Bytes) :
    (patterns.findSome? (revMatch site site.length)).isSome ↔ ∃ p ∈ patterns, p.reverse <:+ site := by
  rw [List.findSome?_isSome_iff]
  refine exists_congr fun p => and_congr_right fun _ => ?_
  rw [isSome_revMatch_iff (Nat.le_refl _), List.take_length]

/-- **Which sites have a domain.** -/
theorem isSome_getDomainFromSite_iff (dict : DomainDict) (site : Bytes) :
    (getDomainFromSite dict site).isSome ↔ HasDomain dict site := by
  have htop := isSome_findSome_iff dict.topDomain site
  have hcountry := isSome_findSome_iff dict.topCountry site
  have hparts := @isSome_partsLoop_iff site 0 site.length (by decide) (Nat.le_refl _)
  rw [List.take_length, Nat.zero_add] at hparts
  unfold getDomainFromSite HasDomain
  simp only [List.mem_append, or_and_right, exists_or]
  rw [← htop, ← hcountry, ← hparts, getLastTwoParts]
  by_cases hnil : site = []
  · simp [hnil]
  · rw [if_neg hnil]
    simp only [ne_eq, hnil, not_false_eq_true, true_and]
    cases dict.topDomain.findSome? (revMatch site site.length) with
    | some found => simp
    | none =>
        cases secondDomain dict site with
        | some found => simp
        | none =>
            cases dict.topCountry.findSome? (revMatch site site.length) with
            | none => simp
            | some found =>
                simp only [Option.isSome_some, Option.isSome_none, Bool.false_eq_true,
                  false_or, true_or, iff_true]
                split <;> rfl

/-! ## When the trunk fits -/

/-- The trunk of a domain, or the whole site if it is an IP, fits the buffer that there is. -/
def TrunkFits (dict : DomainDict) (site : Bytes) (trunk : Option ℕ) : Prop :=
  if guessIsDotip2 site then ∀ size ∈ trunk, site.length < size
  else ∀ i ∈ getDomainFromSite dict site, ∀ size ∈ trunk,
    (((site.drop i).dropWhile (· == 46)).takeWhile (· != 46)).length < size

/-- An IP, or a site with a domain, and a trunk that fits. -/
def Fetchable (dict : DomainDict) (site : Bytes) (trunk : Option ℕ) : Prop :=
  (guessIsDotip2 site = true ∨ HasDomain dict site) ∧ TrunkFits dict site trunk

/-- What `ul_fetch_trunk_and_domain` returns is `SUCCESS`. -/
def Fetch.isSuccess : Fetch → Bool
  | .success _ _ => true
  | _ => false

/-- What stands behind the first symbols that satisfy `p`. -/
theorem drop_length_takeWhile (p : UInt8 → Bool) (t : Bytes) :
    t.drop (t.takeWhile p).length = t.dropWhile p := by
  calc t.drop (t.takeWhile p).length
      = (t.takeWhile p ++ t.dropWhile p).drop (t.takeWhile p).length := by
        rw [List.takeWhile_append_dropWhile]
    _ = t.dropWhile p := List.drop_left

theorem isSome_getTrunkFromDomain_iff (domain : Bytes) (size : ℕ) :
    (getTrunkFromDomain domain size).isSome ↔ (domain.takeWhile (· != 46)).length < size := by
  unfold getTrunkFromDomain
  dsimp only
  split_ifs with hsmall
  · exact iff_of_false Bool.false_ne_true (Nat.not_lt.mpr hsmall)
  · exact iff_of_true rfl (Nat.not_le.mp hsmall)
  · exact iff_of_true rfl (Nat.not_le.mp hsmall)

/-- **When the core of both functions succeeds.** -/
theorem isSuccess_iff (dict : DomainDict) (site : Bytes) (trunk : Option ℕ) :
    (ulFetchTrunkAndDomain dict site trunk).isSuccess = true ↔ Fetchable dict site trunk := by
  unfold ulFetchTrunkAndDomain Fetchable TrunkFits
  rw [← isSome_getDomainFromSite_iff]
  by_cases hip : guessIsDotip2 site = true
  · rw [if_pos hip, if_pos hip]
    match trunk with
    | none => simp [Fetch.isSuccess, hip]
    | some 0 => simp [Fetch.isSuccess]
    | some (size + 1) =>
        by_cases hlong : size < site.length
        · simp [Fetch.isSuccess, hlong]
        · simp [Fetch.isSuccess, hip, hlong, Nat.not_lt.mp hlong]
  · rw [if_neg hip, if_neg hip]
    cases hdomain : getDomainFromSite dict site with
    | none => simp [Fetch.isSuccess, hip]
    | some i =>
        have hdrop : site.drop (i + ((site.drop i).takeWhile (· == 46)).length) =
            (site.drop i).dropWhile (· == 46) := by
          rw [← List.drop_drop]
          exact drop_length_takeWhile (· == 46) (site.drop i)
        cases trunk with
        | none => simp [Fetch.isSuccess]
        | some size =>
            dsimp only
            simp only [Option.mem_def, Option.some.injEq, forall_eq', hdrop]
            rw [← isSome_getTrunkFromDomain_iff]
            cases getTrunkFromDomain ((site.drop i).dropWhile (· == 46)) size <;> simp [Fetch.isSuccess]

/-! ## The three calls -/

/-- **The three calls do the same** exactly if the mode is on or the site can be fetched. -/
theorem same_fetch_iff (defaults : DomainDict) (site : Bytes) (trunk : Option ℕ) (recoveryMode : Bool) :
    (ulFetchMaindomainEx2 defaults site trunk none recoveryMode =
        ulFetchMaindomainEx defaults site trunk recoveryMode ∧
      ulFetchMaindomainEx2 defaults site trunk (some defaults) recoveryMode =
        ulFetchMaindomainEx defaults site trunk recoveryMode) ↔
      recoveryMode = true ∨ Fetchable defaults site trunk := by
  have hsecond : ulFetchMaindomainEx2 defaults site trunk (some defaults) recoveryMode =
      ulFetchMaindomainEx defaults site trunk recoveryMode := rfl
  rw [← isSuccess_iff, and_iff_left hsecond]
  unfold ulFetchMaindomainEx2 ulFetchMaindomainEx fetchMaindomain
  cases recoveryMode with
  | true => simp
  | false => cases ulFetchTrunkAndDomain defaults site trunk <;> simp [Fetch.isSuccess]

/-- Whatever the default lists are, an IP that does not fit the buffer is recovered although the mode is off. -/
theorem same_fetch_not : ¬ ∃ defaults : DomainDict, ∀ (site : Bytes) (trunk : Option ℕ) (recoveryMode : Bool),
    ulFetchMaindomainEx2 defaults site trunk none recoveryMode =
        ulFetchMaindomainEx defaults site trunk recoveryMode ∧
      ulFetchMaindomainEx2 defaults site trunk (some defaults) recoveryMode =
        ulFetchMaindomainEx defaults site trunk recoveryMode := by
  rintro ⟨defaults, h⟩
  have hsame := congrArg Fetched.domain (h (ascii "1.2.3.4") (some 4) false).1
  have hfirst : (ulFetchMaindomainEx2 defaults (ascii "1.2.3.4") (some 4) none false).domain = some 0 := rfl
  rw [hfirst] at hsame
  cases hsame

end Asenal.Url
