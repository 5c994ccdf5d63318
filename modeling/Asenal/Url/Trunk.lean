import Asenal.Lib.Bounded
import Asenal.Lib.Scan
import Asenal.Lib.Search

/-!
# Trunks of sites

The older functions for the main part of a site. They go back from the last dot, label by label, as long as the
label with its dot is in a list of labels to ignore, which is searched by bisection. `ul_fetch_trunk` gives the
label, and `ul_fetch_maindomain` also the rest of the site from it on.

* `ulIsIgnore_iff` — the bisection finds what is in the list.
* `labelLoop_spec` — where the loop over the labels ends.
* `fetch_agree` — both functions find the same label, and stay inside their buffers.
-/

namespace Asenal.Url

open Asenal.Lib.Text Asenal.Lib.Memory Asenal.Lib.Bounded Asenal.Lib.Scan Asenal.Lib.Search

/-! ## The ignore list -/

/-- Source: `ul_url.cpp` `ul_ilist_t`. -/
structure UlIlist where
  name : Bytes
  length : ℕ
  deriving DecidableEq

/-- Source: `ul_url.cpp` `ul_ignore_list`. -/
def ulIgnoreList : List UlIlist :=
  [⟨ascii "ac.", 3⟩, ⟨ascii "ah.", 3⟩, ⟨ascii "bj.", 3⟩, ⟨ascii "co.", 3⟩, ⟨ascii "com.", 4⟩,
   ⟨ascii "cq.", 3⟩, ⟨ascii "ed.", 3⟩, ⟨ascii "edu.", 4⟩, ⟨ascii "fj.", 3⟩, ⟨ascii "gd.", 3⟩,
   ⟨ascii "go.", 3⟩, ⟨ascii "gov.", 4⟩, ⟨ascii "gs.", 3⟩, ⟨ascii "gx.", 3⟩, ⟨ascii "gz.", 3⟩,
   ⟨ascii "ha.", 3⟩, ⟨ascii "hb.", 3⟩, ⟨ascii "he.", 3⟩, ⟨ascii "hi.", 3⟩, ⟨ascii "hk.", 3⟩,
   ⟨ascii "hl.", 3⟩, ⟨ascii "hn.", 3⟩, ⟨ascii "jl.", 3⟩, ⟨ascii "js.", 3⟩, ⟨ascii "jx.", 3⟩,
   ⟨ascii "ln.", 3⟩, ⟨ascii "mo.", 3⟩, ⟨ascii "ne.", 3⟩, ⟨ascii "net.", 4⟩, ⟨ascii "nm.", 3⟩,
   ⟨ascii "nx.", 3⟩, ⟨ascii "or.", 3⟩, ⟨ascii "org.", 4⟩, ⟨ascii "pe.", 3⟩, ⟨ascii "qh.", 3⟩,
   ⟨ascii "sc.", 3⟩, ⟨ascii "sd.", 3⟩, ⟨ascii "sh.", 3⟩, ⟨ascii "sn.", 3⟩, ⟨ascii "sx.", 3⟩,
   ⟨ascii "tj.", 3⟩, ⟨ascii "tw.", 3⟩, ⟨ascii "www.", 4⟩, ⟨ascii "xj.", 3⟩, ⟨ascii "xz.", 3⟩,
   ⟨ascii "yn.", 3⟩, ⟨ascii "zj.", 3⟩]

/-- `UL_IGNORE_COUNT`. Source: `ul_url.cpp`. -/
def ulIgnoreCount : ℤ := 47

/-- How a string compares with an entry of the list. -/
def compareEntry (slip : Bytes) (cur : ℤ) : Ordering :=
  let e := ulIgnoreList.getD cur.toNat ⟨[], 0⟩
  strncmp e.length slip e.name

/-- Source: `ul_url.cpp` `ul_is_ignore`. -/
def ulIsIgnore (slip : Bytes) : Bool := (bisect (compareEntry slip) 0 (ulIgnoreCount - 1)).isSome

/-! ## The functions -/

/-- A number at a digit, in the base that its first bytes tell, and what stands behind it. Source: `strtoul` with
the base 0. -/
def strtoulAny (s : Bytes) : ℕ × Bytes :=
  let hex := hexPrefix s && (s.drop 2).head?.any fun b => digitVal b < 16
  let base := if hex then 16 else if s.head? = some 48 then 8 else 10
  let t := if hex then s.drop 2 else s
  ((t.takeWhile fun b => digitVal b < base).foldl (fun n d => base * n + digitVal d) 0,
    t.dropWhile fun b => digitVal b < base)

/-- The numbers of an address, when `left` more may follow the first one: all but the last fit a byte, the last
one what is left of the four bytes, and only white space may stand right behind it. -/
def inetParts : ℕ → Bytes → Bool
  | left, s =>
      if s.head?.any isDigit then
        match left, strtoulAny s with
        | left + 1, (v, 46 :: r) => v < 256 && inetParts left r
        | left, (v, r) => r.head?.all isSpace && v < 256 ^ (left + 1)
      else false

/-- Whether a text is an address of one to four numbers. Source: `inet_aton`. -/
def inetAton (s : Bytes) : Bool := inetParts 3 s

/-- Source: `ul_url.cpp` `ul_is_dotip`. -/
def ulIsDotip (sitename : Bytes) : Bool := inetAton sitename

/-- The position of the last `c`. -/
def strrchr (c : UInt8) : Bytes → Option ℕ
  | [] => none
  | b :: s =>
      match strrchr c s with
      | some i => some (i + 1)
      | none => if b = c then some 0 else none

/-- The loop over a site from `pfirst + 1` down to its beginning: the label in front of `ptail` that is not to be
ignored, from where to where. -/
def labelLoop (site : Bytes) : ℕ → ℕ → Option (ℕ × ℕ)
  | 0, ptail => if ulIsIgnore site then none else some (0, ptail)
  | pfirst + 1, ptail =>
      if site[pfirst]? = some 46 then
        if ulIsIgnore (site.drop (pfirst + 1)) then labelLoop site pfirst pfirst else some (pfirst + 1, ptail)
      else labelLoop site pfirst ptail

/-- Copy a label into a buffer of `size` bytes, as far as it fits, and end it. -/
def copyLabel (buf : Buffer) (label : Bytes) (size : ℕ) : Buffer :=
  let len := if label.length < size - 1 then label.length else size - 1
  (buf.put 0 (label.take len)).put len [0]

/-- `strncpy(buf, site, size - 1)` and its end. -/
def strncpyEnd (buf : Buffer) (site : Bytes) (size : ℕ) : Buffer :=
  (buf.put 0 (site.take (size - 1) ++ List.replicate (size - 1 - site.length) 0)).put (size - 1) [0]

/-- The return value, and the buffer of the trunk. Source: `ul_url.cpp` `ul_fetch_trunk`. -/
def ulFetchTrunk (site : Bytes) (trunk : Buffer) (size : ℕ) : ℤ × Buffer :=
  if ulIsDotip site then (1, strncpyEnd trunk site size)
  else
    match strrchr 46 site with
    | none => (-3, trunk)
    | some ptail =>
        match labelLoop site ptail ptail with
        | some (first, last) => (1, copyLabel trunk ((site.take last).drop first) size)
        | none => (-2, trunk)

/-- Where the domain begins in the site, and its buffer. Source: `ul_url.cpp` `ul_fetch_maindomain`. -/
def ulFetchMaindomain (site : Bytes) (domain : Buffer) (size : ℕ) : ℕ × Buffer :=
  if ulIsDotip site then (0, strncpyEnd domain site size)
  else
    match strrchr 46 site with
    | none => (0, strncpyEnd domain site size)
    | some ptail =>
        match labelLoop site ptail ptail with
        | some (first, last) => (first, copyLabel domain ((site.take last).drop first) size)
        | none => (0, strncpyEnd domain site size)

/-! ## What is in the list -/

/-- The names of the entries. -/
def ignoreNames : List Bytes := ulIgnoreList.map UlIlist.name

theorem pairwise_ignoreNames : ignoreNames.Pairwise fun v w => before v w = true :=
  pairwise_before (by decide +kernel)

theorem length_of_mem_ignoreList : ∀ e ∈ ulIgnoreList, e.length = e.name.length := by decide +kernel

theorem compareEntry_eq (slip : Bytes) :
    compareEntry slip = fun i => strncmp (ignoreNames.getD i.toNat []).length slip (ignoreNames.getD i.toNat []) := by
  funext i
  have hname : ignoreNames.getD i.toNat [] = (ulIgnoreList.getD i.toNat ⟨[], 0⟩).name := by
    exact @List.getD_map _ _ ulIgnoreList ⟨[], 0⟩ i.toNat UlIlist.name
  have hlength : (ulIgnoreList.getD i.toNat ⟨[], 0⟩).length = (ulIgnoreList.getD i.toNat ⟨[], 0⟩).name.length := by
    rcases Nat.lt_or_ge i.toNat ulIgnoreList.length with hi | hi
    · rw [List.getD_eq_getElem _ _ hi]
      exact length_of_mem_ignoreList _ (List.getElem_mem hi)
    · rw [List.getD_eq_default _ _ hi]
      rfl
  rw [hname, ← hlength]
  rfl

/-- A string is ignored iff it begins with an entry. -/
theorem ulIsIgnore_eq (slip : Bytes) : ulIsIgnore slip = true ↔ ∃ w ∈ ignoreNames, w <+: slip := by
  have hcount : ulIgnoreCount - 1 = ignoreNames.length - 1 := rfl
  rw [ulIsIgnore, compareEntry_eq, hcount]
  exact isSome_bisect_words_iff pairwise_ignoreNames slip

/-- **The bisection finds an entry iff one is a beginning of the string**, and the list is in the order of the
comparison that it uses. -/
theorem ulIsIgnore_iff (slip : Bytes) :
    (ulIsIgnore slip = true ↔ ∃ e ∈ ulIgnoreList, slip.take e.length = e.name) ∧
      Ordered (compareEntry slip) 0 (ulIgnoreCount - 1) := by
  constructor
  · rw [ulIsIgnore_eq]
    simp only [ignoreNames, List.mem_map, exists_exists_and_eq_and]
    refine exists_congr fun e => and_congr_right fun he => ?_
    rw [length_of_mem_ignoreList e he, List.prefix_iff_eq_take, eq_comm]
  · rw [compareEntry_eq]
    exact ordered_strncmp pairwise_ignoreNames slip

/-! ## Labels -/

/-- The label is in the list, with a dot behind it. -/
def Ignored (label : Bytes) : Prop := label ++ [46] ∈ ignoreNames

/-- The only dot of an entry is at its end. -/
theorem dot_of_mem_ignoreNames : ∀ w ∈ ignoreNames, w = w.dropLast ++ [46] ∧ 46 ∉ w.dropLast := by
  decide +kernel

/-- Where a label begins the string is ignored iff the label is. -/
theorem ulIsIgnore_label {label : Bytes} (h : 46 ∉ label) (r : Bytes) :
    ulIsIgnore (label ++ 46 :: r) = true ↔ Ignored label := by
  rw [ulIsIgnore_eq]
  constructor
  · rintro ⟨w, hw, t, ht⟩
    obtain ⟨hdot, hfree⟩ := dot_of_mem_ignoreNames w hw
    rw [hdot, List.append_assoc, List.singleton_append] at ht
    rw [Ignored, ← (append_cons_inj hfree h ht).1, ← hdot]
    exact hw
  · intro hign
    refine ⟨_, hign, r, ?_⟩
    rw [List.append_assoc, List.singleton_append]

/-- Labels with a dot behind each of them. -/
def dots (labels : List Bytes) : Bytes := labels.flatMap (· ++ [46])

/-- The right-most label in front of the last dot that is not ignored, what stands in front of it, and what stands
behind its dot. -/
structure TrunkOf (site front label behind : Bytes) : Prop where
  text : site = front ++ (label ++ 46 :: behind)
  boundary : front = [] ∨ ∃ t, front = t ++ [46]
  not_mem_dot : 46 ∉ label
  not_ignored : ¬ Ignored label
  skipped : ∃ labels last, behind = dots labels ++ last ∧ (∀ l ∈ labels, Ignored l) ∧ 46 ∉ last

/-- All labels in front of the last dot are ignored. -/
def AllIgnored (site : Bytes) : Prop :=
  ∃ labels last, site = dots labels ++ last ∧ labels ≠ [] ∧ (∀ l ∈ labels, Ignored l) ∧ 46 ∉ last

/-- The last `c` of a text, if there is one. -/
theorem strrchr_cases (c : UInt8) (s : Bytes) : (strrchr c s = none ∧ c ∉ s) ∨
    ∃ a b, s = a ++ c :: b ∧ c ∉ b ∧ strrchr c s = some a.length := by
  induction s with
  | nil => exact Or.inl ⟨rfl, List.not_mem_nil⟩
  | cons d s ih =>
      rcases ih with ⟨hnone, hfree⟩ | ⟨a, b, rfl, hb, hsome⟩
      · rw [strrchr, hnone]
        by_cases hd : d = c
        · exact Or.inr ⟨[], s, by rw [hd]; rfl, hfree, if_pos hd⟩
        · exact Or.inl ⟨if_neg hd, List.not_mem_cons_of_ne_of_not_mem (Ne.symm hd) hfree⟩
      · refine Or.inr ⟨d :: a, b, rfl, hb, ?_⟩
        rw [strrchr, hsome]
        rfl

/-- **Where the loop over the labels ends**: at the right-most label that is not ignored, or nowhere. The loop has
come down to `a.length`, in the label `m` in front of `ptail`. -/
theorem labelLoop_spec {site a m behind last : Bytes} {labels : List Bytes}
    (hsite : site = a ++ (m ++ 46 :: behind)) (hm : 46 ∉ m) (hbehind : behind = dots labels ++ last)
    (hign : ∀ l ∈ labels, Ignored l) (hlast : 46 ∉ last) :
    (∃ front label behind', labelLoop site a.length (a.length + m.length) =
        some (front.length, front.length + label.length) ∧ TrunkOf site front label behind') ∨
      labelLoop site a.length (a.length + m.length) = none ∧ AllIgnored site := by
  induction a using List.reverseRecOn generalizing m behind labels with
  | nil =>
      rw [List.nil_append] at hsite
      rw [List.length_nil, labelLoop, hsite]
      by_cases hm' : Ignored m
      · rw [if_pos ((ulIsIgnore_label hm _).mpr hm')]
        refine Or.inr ⟨rfl, m :: labels, last, ?_, List.cons_ne_nil _ _, List.forall_mem_cons.mpr ⟨hm', hign⟩, hlast⟩
        rw [hbehind, dots, dots, List.flatMap_cons, List.append_assoc, List.append_assoc, List.singleton_append]
      · rw [if_neg (mt (ulIsIgnore_label hm _).mp hm')]
        exact Or.inl ⟨[], m, behind, rfl, rfl, Or.inl rfl, hm, hm', labels, last, hbehind, hign, hlast⟩
  | append_singleton a b ih =>
      have hget : site[a.length]? = some b := by
        rw [hsite, List.append_assoc, List.getElem?_append_right (Nat.le_refl _), Nat.sub_self]
        rfl
      have hdrop : site.drop (a.length + 1) = m ++ 46 :: behind := by
        rw [hsite]
        exact List.drop_left' (by rw [List.length_append, List.length_singleton])
      rw [List.length_append, List.length_singleton, labelLoop, hget]
      by_cases hb : b = 46
      · subst hb
        rw [if_pos rfl, hdrop]
        by_cases hm' : Ignored m
        · rw [if_pos ((ulIsIgnore_label hm _).mpr hm')]
          refine @ih [] (m ++ 46 :: behind) (m :: labels) ?_ List.not_mem_nil ?_
            (List.forall_mem_cons.mpr ⟨hm', hign⟩)
          · rw [hsite, List.append_assoc]
            rfl
          · rw [hbehind, dots, dots, List.flatMap_cons, List.append_assoc, List.append_assoc, List.singleton_append]
        · rw [if_neg (mt (ulIsIgnore_label hm _).mp hm')]
          refine Or.inl ⟨a ++ [46], m, behind, ?_, hsite, Or.inr ⟨a, rfl⟩, hm, hm', labels, last, hbehind, hign, hlast⟩
          rw [List.length_append, List.length_singleton]
      · have hne : some b ≠ some 46 := fun h => hb (Option.some.inj h)
        have hlen : a.length + 1 + m.length = a.length + (b :: m).length := by
          rw [List.length_cons]
          omega
        rw [if_neg hne, hlen]
        refine @ih (b :: m) behind labels ?_ ?_ hbehind hign
        · rw [hsite, List.append_assoc]
          rfl
        · rw [List.mem_cons, not_or]
          exact ⟨Ne.symm hb, hm⟩

/-! ## The buffers -/

/-- The buffer begins with the string and its end. -/
structure HoldsString (buf : Buffer) (s : Bytes) : Prop where
  text : peek buf.cells 0 s.length = s
  stop : buf.cells s.length = 0

/-- A string and its end are written. -/
theorem holdsString_put (buf : Buffer) (s : Bytes) : HoldsString ((buf.put 0 s).put s.length [0]) s := by
  constructor
  · exact (peek_poke_before _ _ (Nat.le_of_eq (Nat.zero_add _))).trans (peek_poke_self buf.cells 0 s)
  · simp [Buffer.put, poke]

theorem copyLabel_spec (m : Mem UInt8) (label : Bytes) {size : ℕ} (hsize : 1 ≤ size) :
    (copyLabel ⟨m, 0⟩ label size).reach ≤ size ∧
      HoldsString (copyLabel ⟨m, 0⟩ label size) (label.take (size - 1)) := by
  have hcopy : copyLabel ⟨m, 0⟩ label size =
      ((⟨m, 0⟩ : Buffer).put 0 (label.take (size - 1))).put (label.take (size - 1)).length [0] := by
    unfold copyLabel
    dsimp only
    rw [List.length_take]
    split_ifs with hfit
    · rw [List.take_of_length_le (Nat.le_refl _), List.take_of_length_le (Nat.le_of_lt hfit),
        Nat.min_eq_right (Nat.le_of_lt hfit)]
    · rw [Nat.min_eq_left (Nat.not_lt.mp hfit)]
  have hlen := List.length_take_le (size - 1) label
  rw [hcopy]
  refine ⟨reach_put_le (reach_put_le (Nat.zero_le _) (by omega)) ?_, holdsString_put _ _⟩
  rw [List.length_singleton]
  omega

theorem strncpyEnd_spec (m : Mem UInt8) (site : Bytes) {size : ℕ} (hsize : 1 ≤ size) :
    (strncpyEnd ⟨m, 0⟩ site size).reach ≤ size ∧
      HoldsString (strncpyEnd ⟨m, 0⟩ site size) (site.take (size - 1)) := by
  have hlen : (site.take (size - 1) ++ List.replicate (size - 1 - site.length) (0 : UInt8)).length = size - 1 := by
    rw [List.length_append, List.length_take, List.length_replicate]
    omega
  have htake := List.length_take_le (size - 1) site
  unfold strncpyEnd
  refine ⟨reach_put_le (reach_put_le (Nat.zero_le _) (by omega)) ?_, ?_, ?_⟩
  · rw [List.length_singleton]
    omega
  · exact (peek_poke_before _ _ (by omega)).trans (peek_poke_append m 0 _ _)
  · rw [cells_put]
    by_cases hfull : size - 1 ≤ site.length
    · have hend : (site.take (size - 1)).length = size - 1 := by
        rw [List.length_take]
        omega
      rw [hend, if_pos (Nat.le_refl _), Nat.sub_self]
      rfl
    · have hend : (site.take (size - 1)).length = site.length := by
        rw [List.length_take]
        omega
      rw [hend, if_neg (by omega), cells_put, if_pos (Nat.zero_le _), Nat.sub_zero,
        List.getD_append_right _ _ _ _ (Nat.le_of_eq hend), hend, Nat.sub_self,
        List.getD_eq_getElem _ _ (by rw [List.length_replicate]; omega), List.getElem_replicate]

/-- **Both functions find the same label**: for a site that is no address they copy the right-most label in front of
the last dot that is not ignored, and the domain begins at it; if there is none the domain is the site, and the
site is copied. -/
theorem fetch_agree {site : Bytes} (hip : ulIsDotip site = false) {size : ℕ} (hsize : 1 ≤ size)
    (m m' : Mem UInt8) :
    ((ulFetchTrunk site ⟨m, 0⟩ size).2.reach ≤ size ∧ (ulFetchMaindomain site ⟨m', 0⟩ size).2.reach ≤ size) ∧
      (((ulFetchTrunk site ⟨m, 0⟩ size).1 = 1 ∧ ∃ front label behind, TrunkOf site front label behind ∧
          (ulFetchMaindomain site ⟨m', 0⟩ size).1 = front.length ∧
          HoldsString (ulFetchTrunk site ⟨m, 0⟩ size).2 (label.take (size - 1)) ∧
          HoldsString (ulFetchMaindomain site ⟨m', 0⟩ size).2 (label.take (size - 1))) ∨
        (((ulFetchTrunk site ⟨m, 0⟩ size).1 = -2 ∧ AllIgnored site ∨
            (ulFetchTrunk site ⟨m, 0⟩ size).1 = -3 ∧ 46 ∉ site) ∧
          (ulFetchMaindomain site ⟨m', 0⟩ size).1 = 0 ∧
          HoldsString (ulFetchMaindomain site ⟨m', 0⟩ size).2 (site.take (size - 1)))) := by
  have hcopied := strncpyEnd_spec m' site hsize
  unfold ulFetchTrunk ulFetchMaindomain
  rw [hip, if_neg Bool.false_ne_true, if_neg Bool.false_ne_true]
  rcases strrchr_cases 46 site with ⟨hnone, hdot⟩ | ⟨a, last, hsite, hlast, hsome⟩
  · rw [hnone]
    exact ⟨⟨Nat.zero_le _, hcopied.1⟩, Or.inr ⟨Or.inr ⟨rfl, hdot⟩, rfl, hcopied.2⟩⟩
  · rw [hsome]
    dsimp only
    have hloop := @labelLoop_spec site a [] last last [] hsite List.not_mem_nil rfl
      (fun l hl => absurd hl List.not_mem_nil) hlast
    rw [List.length_nil, Nat.add_zero] at hloop
    rcases hloop with ⟨front, label, behind, hfound, htrunk⟩ | ⟨hnone, hall⟩
    · have hlabel : (site.take (front.length + label.length)).drop front.length = label := by
        rw [htrunk.text, ← List.append_assoc, List.take_left' List.length_append, List.drop_left]
      rw [hfound]
      dsimp only
      rw [hlabel]
      obtain ⟨hreach, hholds⟩ := copyLabel_spec m label hsize
      obtain ⟨hreach', hholds'⟩ := copyLabel_spec m' label hsize
      exact ⟨⟨hreach, hreach'⟩, Or.inl ⟨rfl, front, label, behind, htrunk, rfl, hholds, hholds'⟩⟩
    · rw [hnone]
      exact ⟨⟨Nat.zero_le _, hcopied.1⟩, Or.inr ⟨Or.inl ⟨rfl, hall⟩, rfl, hcopied.2⟩⟩

/-- A site in a country. -/
theorem fetch_agree_country :
    (ulFetchTrunk (ascii "www.abc.com.cn") ⟨fun _ => 0, 0⟩ 16).2.reach ≤ 16 ∧
      (ulFetchMaindomain (ascii "www.abc.com.cn") ⟨fun _ => 0, 0⟩ 16).2.reach ≤ 16 :=
  (fetch_agree (by decide) (by decide) _ _).1

end Asenal.Url
