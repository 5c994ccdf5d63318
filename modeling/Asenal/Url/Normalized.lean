import Asenal.Url.Normalize

/-!
# The check for normal URLs

`ul_isnormalized_url` runs over a URL and accepts it if its host has two labels or more in small
letters, its port is a number other than 80, and its path has characters only.

* `lowerHost_isHost`, `portCheck_isPort` — it accepts the hosts and the ports that are written.
* `ulIsnormalizedUrl_ulNormalizeUrl` — what is normalised is accepted.
-/

namespace Asenal.Url

open Asenal.Lib.Text Asenal.Lib.CString Asenal.Lib.Segments

/-! ## The check -/

/-- The loop over a label: the label and what is left, unless there is a capital. -/
def lowerRun : Bytes → Option (Bytes × Bytes)
  | [] => some ([], [])
  | b :: s =>
      if letDigHy b then
        if upLet b then none else (lowerRun s).map fun r => (b :: r.1, r.2)
      else some ([], b :: s)

/-- The loop reads forward. -/
theorem length_lowerRun_le {s : Bytes} {r : Bytes × Bytes} (h : lowerRun s = some r) :
    r.2.length ≤ s.length := by
  induction s generalizing r with
  | nil =>
      cases h
      exact Nat.le_refl _
  | cons b s ih =>
      unfold lowerRun at h
      split_ifs at h
      · obtain ⟨t, ht, rfl⟩ := Option.map_eq_some_iff.mp h
        exact (ih ht).trans (Nat.le_succ _)
      · cases h
        exact Nat.le_refl _

/-- The loop `while (*pin == '.')` over the other labels; behind the `.` of an empty one stands no
letter and no digit. -/
def lowerLabels (s : Bytes) : Option Bytes :=
  match s with
  | [] => some []
  | b :: s =>
      if b = 46 then
        match _h : lowerRun s with
        | none => none
        | some r => if letDigit (r.1.getLastD 46) then lowerLabels r.2 else none
      else some (b :: s)
termination_by s.length
decreasing_by
  have := length_lowerRun_le _h
  simp only [List.length_cons]
  omega

/-- A whole host: what is behind it. The byte in front of the URL is read if the host is empty. -/
def lowerHost (before : UInt8) (url : Bytes) : Option Bytes :=
  match lowerRun url with
  | none => none
  | some r =>
      if letDigit (r.1.getLastD before) && r.2.head? == some 46 then lowerLabels r.2 else none

/-- The port, and the `/` behind it or behind the host: what begins with that `/`. -/
def portCheck (pin : Bytes) : Option Bytes :=
  if pin.head? = some 58 then
    let pin := pin.tail
    if pin.head? = some 47 then none
    else
      let port := pin.takeWhile isDigit
      let rest := pin.dropWhile isDigit
      if 5 < port.length then none
      else if rest.head? ≠ some 47 then none
      else if atoi port ≤ 0 ∨ 65535 < atoi port then none
      else if atoi port = 80 then none
      else some rest
  else if pin.head? = some 47 then some pin
  else none

/-- The check, for URLs of less than `maxUrlLen` bytes. -/
def isnormalizedUrl (maxUrlLen : ℕ) (before : UInt8) (url : Bytes) : Bool :=
  if hasScheme url then false
  else
    match (lowerHost before url).bind portCheck with
    | none => false
    | some path =>
        let rest := (copyScanner.scanPath path).2
        rest == [] && decide (url.length - rest.length < maxUrlLen)

/-- The check, when the byte in front of the URL is `before`. Source: `ul_url.cpp`
`ul_isnormalized_url`. -/
def ulIsnormalizedUrl (before : UInt8) (url : Bytes) : Bool :=
  isnormalizedUrl limits.url before url

/-! ## What it accepts -/

/-- A label in small letters is read to its end. -/
theorem lowerRun_append {l t : Bytes} (hl : ∀ b ∈ l, letDigHy b = true ∧ upLet b = false)
    (ht : ∀ b ∈ t.head?, letDigHy b = false) : lowerRun (l ++ t) = some (l, t) := by
  induction l with
  | nil =>
      cases t with
      | nil => rfl
      | cons b t => simp [lowerRun, ht b rfl]
  | cons b l ih =>
      rw [List.forall_mem_cons] at hl
      simp [lowerRun, hl.1.1, hl.1.2, ih hl.2]

/-- A label ends in a letter or a digit, whatever stands in front of it. -/
theorem IsLabel.getLastD {l : Bytes} (h : IsLabel l) (before : UInt8) :
    letDigit (l.getLastD before) = true := by
  have hlast := h.last
  rw [List.getLastD_eq_getLast?]
  cases hl : l.getLast? with
  | none =>
      rw [hl] at hlast
      cases hlast
  | some b =>
      rw [hl] at hlast
      exact hlast

/-- The other labels are read to their end. -/
theorem lowerLabels_pathText {ls : List Bytes} (hls : ∀ m ∈ ls, IsLabel m) {t : Bytes}
    (ht : ∀ b ∈ t.head?, hostChar b = false) : lowerLabels (pathText 46 ls ++ t) = some t := by
  have hstop : ∀ b ∈ t.head?, b ≠ 46 ∧ letDigHy b = false := by
    intro b hb
    have := ht b hb
    simp only [hostChar, Bool.or_eq_false_iff, beq_eq_false_iff_ne] at this
    exact ⟨this.2, this.1.1⟩
  induction ls with
  | nil =>
      rw [pathText_nil, List.nil_append]
      cases t with
      | nil => rw [lowerLabels]
      | cons b t => rw [lowerLabels, if_neg (hstop b rfl).1]
  | cons l ls ih =>
      rw [List.forall_mem_cons] at hls
      have hnext : ∀ b ∈ (pathText 46 ls ++ t).head?, letDigHy b = false := by
        intro b hb
        cases ls with
        | nil => exact (hstop b hb).2
        | cons m ls =>
            cases hb
            rfl
      have hrun := lowerRun_append hls.1.char hnext
      rw [pathText_cons, List.cons_append, List.append_assoc, lowerLabels, if_pos rfl]
      split
      · next hnone =>
          rw [hrun] at hnone
          cases hnone
      · next r hr =>
          rw [hrun, Option.some.injEq] at hr
          rw [← hr, if_pos (hls.1.getLastD 46), ih hls.2]

/-- **It accepts the hosts that are written.** -/
theorem lowerHost_isHost {host : Bytes} (h : IsHost host) (before : UInt8) {t : Bytes}
    (ht : ∀ b ∈ t.head?, hostChar b = false) : lowerHost before (host ++ t) = some t := by
  obtain ⟨l, ls, hl, hls, hne, rfl⟩ := h
  obtain ⟨m, ls, rfl⟩ := List.exists_cons_of_ne_nil hne
  have hrun : lowerRun (l ++ (pathText 46 (m :: ls) ++ t)) =
      some (l, pathText 46 (m :: ls) ++ t) := by
    apply lowerRun_append hl.char
    intro b hb
    cases hb
    rfl
  have hhead : (pathText 46 (m :: ls) ++ t).head? = some 46 := rfl
  rw [lowerHost, List.append_assoc, hrun]
  simp only [hl.getLastD before, lowerLabels_pathText hls ht, hhead, beq_self_eq_true,
    Bool.and_self, if_true]

/-- **It accepts the ports that are written.** -/
theorem portCheck_isPort {port path : Bytes} (hport : IsPort port) (hhead : path.head? = some 47) :
    portCheck (portText port ++ path) = some path := by
  have hne : path.head? ≠ some 58 := by
    rw [hhead]
    decide
  rcases hport with rfl | ⟨n, rfl, hpos, hle, h80⟩
  · rw [portText, if_pos rfl, List.nil_append, portCheck, if_neg hne, if_pos hhead]
  · obtain ⟨path, rfl⟩ := List.head?_eq_some_iff.mp hhead
    have htake : (dec n ++ 47 :: path).takeWhile isDigit = dec n := by
      rw [List.takeWhile_append_of_pos fun b hb => isDigit_of_mem_dec hb,
        List.takeWhile_cons_of_neg (by decide), List.append_nil]
    have hdrop : (dec n ++ 47 :: path).dropWhile isDigit = 47 :: path := by
      rw [List.dropWhile_append_of_pos fun b hb => isDigit_of_mem_dec hb,
        List.dropWhile_cons_of_neg (by decide)]
    have hslash : (dec n ++ 47 :: path).head? ≠ some 47 := by
      obtain ⟨b, t, hb⟩ := List.exists_cons_of_ne_nil (dec_ne_nil n)
      have hdigit : isDigit b = true := isDigit_of_mem_dec (n := n) (hb ▸ List.mem_cons_self)
      rw [hb, List.cons_append, List.head?_cons, ne_eq, Option.some.injEq]
      rintro rfl
      exact absurd hdigit (by decide)
    have hlen := length_dec_le hle
    rw [portText, if_neg (dec_ne_nil n), List.cons_append, portCheck, List.head?_cons, if_pos rfl,
      List.tail_cons]
    simp only [htake, hdrop, atoi_dec hle, if_neg hslash, List.head?_cons, ne_eq, not_true_eq_false,
      if_false]
    rw [if_neg (by omega), if_neg (by omega), if_neg (by omega)]

/-- **What is normalised is accepted.** -/
theorem ulIsnormalizedUrl_ulNormalizeUrl (url v : Bytes) (h : ulNormalizeUrl url = some v)
    (before : UInt8) : ulIsnormalizedUrl before v = true := by
  obtain ⟨site, port, hsite, hsitelen, hport, hclean, rfl⟩ := ulNormalizeUrl_eq_some h
  have hcleanhead := cleanText_head (urlPath_head url)
  have hhead := normalizePath_head (cleanText (urlPath url))
  have hlen := (printTo_parts hsitelen hport
    ((length_normalizePath_le hcleanhead).trans_lt hclean)).2
  have hchar : ∀ b ∈ normalizePath (cleanText (urlPath url)), uchRes b = true :=
    fun b hb => uchRes_of_mem_normalizePath hb
  generalize normalizePath (cleanText (urlPath url)) = path at *
  have hstop : ∀ b ∈ (portText port ++ path).head?, hostChar b = false := by
    intro b hb
    unfold portText at hb
    split_ifs at hb
    · rw [List.nil_append, hhead] at hb
      cases hb
      rfl
    · cases hb
      rfl
  have hscan : (copyScanner.scanPath path).2 = [] := by
    rw [scanPath_copy]
    exact List.dropWhile_eq_nil_iff.mpr hchar
  rw [List.append_assoc] at hlen ⊢
  rw [ulIsnormalizedUrl, isnormalizedUrl, hasScheme_isHost hsite,
    lowerHost_isHost hsite before hstop]
  simp only [Option.bind_some, portCheck_isPort hport hhead, hscan, Bool.false_eq_true, if_false,
    List.length_nil, Nat.sub_zero, hlen, decide_true, Bool.and_true]
  rfl

/-- A URL with a capital, an escape, a default port and dots. -/
theorem ulIsnormalizedUrl_ulNormalizeUrl_www :
    ulIsnormalizedUrl 0 (ascii "www.example.com/a/~c") = true :=
  ulIsnormalizedUrl_ulNormalizeUrl (ascii "http://Www.example.com:80/a/b/../%7ec") _
    (by decide +kernel) 0

end Asenal.Url
