import Asenal.Lib.Segments
import Asenal.Url.Chars

/-!
# Hosts

The functions that normalise a site and those that check a URL run over its host with one and the
same loop, in place: capitals become small, escapes become what they stand for.

* `hostRun_out` — what is written is a host in small letters.
* `hostRun_isHost` — the loop leaves such a host as it is.
-/

namespace Asenal.Url

open Asenal.Lib.Text Asenal.Lib.CString Asenal.Lib.Segments

/-! ## The loop -/

/-- What a loop over a host has done: whether the function goes on, what it has written, what it
leaves in the place of what it has read, and what is left. -/
structure Run where
  ok : Bool
  out : Bytes
  mem : Bytes
  rest : Bytes
  deriving DecidableEq

/-- A step in front of a run. -/
def Run.push (out mem : Bytes) (r : Run) : Run := ⟨r.ok, out ++ r.out, mem ++ r.mem, r.rest⟩

/-- The loop over a label of a host: capitals are turned into small letters where they stand, and
so is the character of an escape, which is put in the place of its last digit. Source: `ul_url.cpp`
`ul_normalize_site`, `ul_check_url` and its copies. -/
def labelRun : Bytes → Run
  | [] => ⟨true, [], [], []⟩
  | b :: s =>
      if letDigHy b || b == 37 then
        if b = 37 then
          match s with
          | h₁ :: h₂ :: s' =>
              let escapeChar := ulToChar h₁ h₂
              if letDigHy escapeChar then
                (labelRun s').push [toLower escapeChar] [37, h₁, toLower escapeChar]
              else ⟨false, [], [], 37 :: h₁ :: h₂ :: s'⟩
          | s => ⟨false, [], [], 37 :: s⟩
        else (labelRun s).push [toLower b] [toLower b]
      else ⟨true, [], [], b :: s⟩

/-- The runs over a label that go on, step by step. -/
inductive LabelRan : Bytes → Run → Prop
  | nil : LabelRan [] ⟨true, [], [], []⟩
  | stop (b : UInt8) (s : Bytes) : letDigHy b = false → b ≠ 37 →
      LabelRan (b :: s) ⟨true, [], [], b :: s⟩
  | char (b : UInt8) (s : Bytes) (r : Run) : letDigHy b = true → LabelRan s r →
      LabelRan (b :: s) (r.push [toLower b] [toLower b])
  | escape (h₁ h₂ : UInt8) (s : Bytes) (r : Run) : letDigHy (ulToChar h₁ h₂) = true →
      LabelRan s r → LabelRan (37 :: h₁ :: h₂ :: s)
        (r.push [toLower (ulToChar h₁ h₂)] [37, h₁, toLower (ulToChar h₁ h₂)])

/-- A loop that goes on has made such a run. -/
theorem labelRan_of_ok {s : Bytes} (h : (labelRun s).ok = true) : LabelRan s (labelRun s) := by
  fun_induction labelRun s with
  | case1 => exact .nil
  | case2 h₁ h₂ s _ hc =>
      rename_i ih
      exact .escape h₁ h₂ s _ hc (ih h)
  | case3 => cases h
  | case4 => cases h
  | case5 b s hb hne ih => exact .char b s _ (by simpa [hne] using hb) (ih h)
  | case6 b s hb =>
      rw [Bool.not_eq_true, Bool.or_eq_false_iff] at hb
      exact .stop b s hb.1 (by simpa using hb.2)

/-- The loop makes these runs. -/
theorem LabelRan.eq {s : Bytes} {r : Run} (h : LabelRan s r) : labelRun s = r ∧ r.ok = true := by
  induction h with
  | nil => exact ⟨rfl, rfl⟩
  | stop b s hb hne =>
      refine ⟨?_, rfl⟩
      rcases s with _ | ⟨h₁, _ | ⟨h₂, s⟩⟩ <;> simp [labelRun, hb, hne]
  | char b s r hb _ ih =>
      have hne : b ≠ 37 := by
        rintro rfl
        exact absurd hb (by decide)
      refine ⟨?_, ih.2⟩
      rcases s with _ | ⟨h₁, _ | ⟨h₂, s⟩⟩ <;> simp_all [labelRun]
  | escape h₁ h₂ s r hc _ ih =>
      refine ⟨?_, ih.2⟩
      simp [labelRun, hc, ih.1]

/-- The loop reads forward. -/
theorem length_labelRun_le (s : Bytes) : (labelRun s).rest.length ≤ s.length := by
  fun_induction labelRun s with
  | case1 => exact Nat.le_refl _
  | case2 h₁ h₂ s _ hc =>
      rename_i ih
      simp only [Run.push, List.length_cons]
      omega
  | case3 => exact Nat.le_refl _
  | case4 => exact Nat.le_refl _
  | case5 b s hb hne ih => exact ih.trans (Nat.le_succ _)
  | case6 => exact Nat.le_refl _

/-- The loop `while (*pin == '.')` over the other labels: a label ends in a letter or a digit, which
is looked up in front of `pin`. -/
def labelsRun (s : Bytes) : Run :=
  match s with
  | [] => ⟨true, [], [], []⟩
  | b :: s =>
      if b = 46 then
        let r := (labelRun s).push [46] [46]
        if r.ok && r.mem.getLast?.any letDigit then (labelsRun r.rest).push r.out r.mem
        else { r with ok := false }
      else ⟨true, [], [], b :: s⟩
termination_by s.length
decreasing_by
  have := length_labelRun_le s
  simp only [Run.push, List.length_cons]
  omega

/-- A whole host. It has a `.` (`dotcount`). -/
def hostRun (s : Bytes) : Run :=
  let r := labelRun s
  if r.ok && r.mem.getLast?.any letDigit && r.rest.head? == some 46 then
    (labelsRun r.rest).push r.out r.mem
  else { r with ok := false }

/-- Source: `ul_url.cpp` `ul_normalize_site`. -/
def ulNormalizeSite (site : Bytes) : Option Bytes :=
  if site.head?.any letDigHy then
    let r := hostRun site
    if r.ok && r.rest == [] then some r.out else none
  else none

/-- The runs over the other labels that go on, label by label. -/
inductive LabelsRan : Bytes → Run → Prop
  | stop (s : Bytes) : (∀ b ∈ s.head?, b ≠ 46) → LabelsRan s ⟨true, [], [], s⟩
  | label (s : Bytes) (r t : Run) : LabelRan s r → r.mem.getLast?.any letDigit = true →
      LabelsRan r.rest t → LabelsRan (46 :: s) (t.push (46 :: r.out) (46 :: r.mem))

/-- Behind the `.` of an empty label stands no letter and no digit. -/
theorem getLast?_dot_cons (mem : Bytes) :
    (46 :: mem).getLast?.any letDigit = mem.getLast?.any letDigit := by
  cases mem with
  | nil => rfl
  | cons b mem => rw [List.getLast?_cons_cons]

/-- A loop that goes on has made such a run. -/
theorem labelsRan_of_ok {s : Bytes} (h : (labelsRun s).ok = true) :
    LabelsRan s (labelsRun s) := by
  fun_induction labelsRun s with
  | case1 => exact .stop [] (by simp)
  | case2 s r hr ih =>
      rw [Bool.and_eq_true] at hr
      refine .label s (labelRun s) _ (labelRan_of_ok hr.1) ?_ (ih h)
      rw [← getLast?_dot_cons]
      exact hr.2
  | case3 => cases h
  | case4 b s hb => exact .stop (b :: s) (by simpa using hb)

/-- The loop makes these runs. -/
theorem LabelsRan.eq {s : Bytes} {r : Run} (h : LabelsRan s r) :
    labelsRun s = r ∧ r.ok = true := by
  induction h with
  | stop s hs =>
      refine ⟨?_, rfl⟩
      cases s with
      | nil => rw [labelsRun]
      | cons b s => rw [labelsRun, if_neg (hs b rfl)]
  | label s r t hr hlast _ ih =>
      refine ⟨?_, ih.2⟩
      have hok : ((labelRun s).push [46] [46]).ok &&
          ((labelRun s).push [46] [46]).mem.getLast?.any letDigit := by
        rw [hr.eq.1, Bool.and_eq_true]
        exact ⟨hr.eq.2, (getLast?_dot_cons r.mem).trans hlast⟩
      rw [labelsRun, if_pos rfl]
      dsimp only
      rw [if_pos hok, hr.eq.1]
      exact congrArg _ ih.1

/-- The runs over a host. -/
theorem hostRun_ok_iff {s : Bytes} : (hostRun s).ok = true ↔
    ∃ first others, LabelRan s first ∧ first.mem.getLast?.any letDigit = true ∧
      first.rest.head? = some 46 ∧ LabelsRan first.rest others ∧
      hostRun s = others.push first.out first.mem := by
  unfold hostRun
  dsimp only
  constructor
  · intro h
    split_ifs at h ⊢ with hok
    rw [Bool.and_eq_true, Bool.and_eq_true, beq_iff_eq] at hok
    exact ⟨labelRun s, _, labelRan_of_ok hok.1.1, hok.1.2, hok.2, labelsRan_of_ok h, rfl⟩
  · rintro ⟨first, others, hfirst, hlast, hhead, hothers, -⟩
    rw [hfirst.eq.1]
    simp only [hfirst.eq.2, hlast, hhead, Bool.and_self, beq_self_eq_true, if_true, hothers.eq.1]
    exact hothers.eq.2

/-- A host that is run over. -/
theorem hostRun_eq {s : Bytes} {first others : Run} (hfirst : LabelRan s first)
    (hlast : first.mem.getLast?.any letDigit = true) (hhead : first.rest.head? = some 46)
    (hothers : LabelsRan first.rest others) :
    hostRun s = others.push first.out first.mem := by
  unfold hostRun
  rw [hfirst.eq.1]
  simp only [hfirst.eq.2, hlast, hhead, Bool.and_self, beq_self_eq_true, if_true, hothers.eq.1]

/-! ## What is written -/

/-- What a host may be written with. -/
def hostChar (b : UInt8) : Bool := letDigHy b || b == 37 || b == 46

/-- A label in small letters, with a letter or a digit at its end. -/
structure IsLabel (l : Bytes) : Prop where
  char : ∀ b ∈ l, letDigHy b = true ∧ upLet b = false
  last : l.getLast?.any letDigit = true

/-- A host in small letters: two labels or more, with a `.` between them. -/
def IsHost (host : Bytes) : Prop := ∃ l ls, IsLabel l ∧ (∀ m ∈ ls, IsLabel m) ∧ ls ≠ [] ∧
  host = l ++ pathText 46 ls

/-- The characters of a host. -/
theorem IsHost.char {host : Bytes} (h : IsHost host) {b : UInt8} (hb : b ∈ host) :
    letDigHy b = true ∨ b = 46 := by
  obtain ⟨l, ls, hl, hls, -, rfl⟩ := h
  rcases List.mem_append.mp hb with hb | hb
  · exact Or.inl (hl.char b hb).1
  · obtain ⟨m, hm, hb⟩ := List.mem_flatMap.mp hb
    rcases List.mem_cons.mp hb with rfl | hb
    · exact Or.inr rfl
    · exact Or.inl ((hls m hm).char b hb).1

/-- A byte that no host has. -/
theorem IsHost.not_mem {host : Bytes} (h : IsHost host) {b : UInt8} (hb : letDigHy b = false)
    (hdot : b ≠ 46) : b ∉ host := by
  intro hmem
  rcases h.char hmem with hmem | hmem
  · rw [hb] at hmem
    cases hmem
  · exact hdot hmem

/-- A host is not empty. -/
theorem IsHost.ne_nil {host : Bytes} (h : IsHost host) : host ≠ [] := by
  obtain ⟨l, ls, hl, -, -, rfl⟩ := h
  cases l with
  | nil => exact absurd hl.last (by decide)
  | cons b l => exact List.cons_ne_nil _ _

/-- What is written of a label is in small letters, it ends as the label does, and the loop stops
at what is in no label. -/
theorem LabelRan.spec {s : Bytes} {r : Run} (h : LabelRan s r) :
    (∀ b ∈ r.out, letDigHy b = true ∧ upLet b = false) ∧ r.mem.getLast? = r.out.getLast? ∧
      ∀ b ∈ r.rest.head?, letDigHy b = false ∧ b ≠ 37 := by
  have hlower : ∀ b, letDigHy b = true → letDigHy (toLower b) = true ∧ upLet (toLower b) = false :=
    fun b hb => ⟨(letDigHy_toLower hb).1, (letDigHy_toLower hb).2.1⟩
  induction h with
  | nil => exact ⟨by simp, rfl, by simp⟩
  | stop b s hb hne => exact ⟨by simp, rfl, by simp [hb, hne]⟩
  | char b s r hb _ ih =>
      obtain ⟨hout, hlast, hrest⟩ := ih
      refine ⟨?_, ?_, hrest⟩
      · simp only [Run.push, List.singleton_append, List.forall_mem_cons]
        exact ⟨hlower b hb, hout⟩
      · simp only [Run.push, List.getLast?_append, hlast]
  | escape h₁ h₂ s r hc _ ih =>
      obtain ⟨hout, hlast, hrest⟩ := ih
      refine ⟨?_, ?_, hrest⟩
      · simp only [Run.push, List.singleton_append, List.forall_mem_cons]
        exact ⟨hlower _ hc, hout⟩
      · simp only [Run.push, List.getLast?_append, hlast]
        rfl

/-- What is written of the other labels. -/
theorem LabelsRan.spec {s : Bytes} {r : Run} (h : LabelsRan s r) :
    (∃ ls, (∀ m ∈ ls, IsLabel m) ∧ r.out = pathText 46 ls ∧ (s.head? = some 46 → ls ≠ [])) ∧
      ((∀ b ∈ s.head?, letDigHy b = false ∧ b ≠ 37) → ∀ b ∈ r.rest.head?, hostChar b = false) := by
  induction h with
  | stop s hs =>
      refine ⟨⟨[], by simp, rfl, fun hhead => absurd rfl (hs 46 hhead)⟩, ?_⟩
      intro hrest b hb
      simp [hostChar, hrest b hb, hs b hb]
  | label s r t hr hlast _ ih =>
      obtain ⟨hout, hend, hrest⟩ := hr.spec
      obtain ⟨⟨ls, hls, htext, -⟩, hstop⟩ := ih
      have hlabel : IsLabel r.out := ⟨hout, hend ▸ hlast⟩
      refine ⟨⟨r.out :: ls, ?_, ?_, fun _ => List.cons_ne_nil _ _⟩, fun _ => hstop hrest⟩
      · rw [List.forall_mem_cons]
        exact ⟨hlabel, hls⟩
      · simp only [Run.push, htext, pathText_cons, List.cons_append]

/-- What is written is not longer than what is read. -/
theorem LabelRan.length_le {s : Bytes} {r : Run} (h : LabelRan s r) :
    r.out.length + r.rest.length ≤ s.length := by
  induction h with
  | nil => exact Nat.le_refl _
  | stop b s _ _ => simp
  | char b s r _ _ ih =>
      simp only [Run.push, List.length_append, List.length_cons, List.length_nil]
      omega
  | escape h₁ h₂ s r _ _ ih =>
      simp only [Run.push, List.length_append, List.length_cons, List.length_nil]
      omega

theorem LabelsRan.length_le {s : Bytes} {r : Run} (h : LabelsRan s r) :
    r.out.length + r.rest.length ≤ s.length := by
  induction h with
  | stop s _ => simp
  | label s r t hr _ _ ih =>
      have := hr.length_le
      simp only [Run.push, List.length_append, List.length_cons]
      omega

theorem length_hostRun_le {s : Bytes} (h : (hostRun s).ok = true) :
    (hostRun s).out.length + (hostRun s).rest.length ≤ s.length := by
  obtain ⟨first, others, hfirst, -, -, hothers, heq⟩ := hostRun_ok_iff.mp h
  have h₁ := hfirst.length_le
  have h₂ := hothers.length_le
  simp only [heq, Run.push, List.length_append]
  omega

/-- **What is written is a host in small letters**, and the loop stops at what is in no host. -/
theorem hostRun_out {s : Bytes} (h : (hostRun s).ok = true) :
    IsHost (hostRun s).out ∧ ∀ b ∈ (hostRun s).rest.head?, hostChar b = false := by
  obtain ⟨first, others, hfirst, hlast, hhead, hothers, heq⟩ := hostRun_ok_iff.mp h
  obtain ⟨hout, hend, hrest⟩ := hfirst.spec
  obtain ⟨⟨ls, hls, htext, hne⟩, hstop⟩ := hothers.spec
  rw [heq]
  refine ⟨⟨first.out, ls, ⟨hout, hend ▸ hlast⟩, hls, hne hhead, ?_⟩, hstop hrest⟩
  rw [Run.push, htext]

/-- The loop leaves small letters as they are. -/
theorem LabelRan.refl {l t : Bytes} (hl : ∀ b ∈ l, letDigHy b = true ∧ upLet b = false)
    (ht : ∀ b ∈ t.head?, letDigHy b = false ∧ b ≠ 37) : LabelRan (l ++ t) ⟨true, l, l, t⟩ := by
  induction l with
  | nil =>
      cases t with
      | nil => exact .nil
      | cons b t => exact .stop b t (ht b rfl).1 (ht b rfl).2
  | cons b l ih =>
      rw [List.forall_mem_cons] at hl
      have hlower : toLower b = b := by
        rw [toLower, hl.1.2]
        rfl
      have := LabelRan.char b (l ++ t) _ hl.1.1 (ih hl.2)
      rwa [hlower] at this

/-- The loop leaves labels in small letters as they are. -/
theorem LabelsRan.refl {ls : List Bytes} (hls : ∀ m ∈ ls, IsLabel m) {t : Bytes}
    (ht : ∀ b ∈ t.head?, hostChar b = false) :
    LabelsRan (pathText 46 ls ++ t) ⟨true, pathText 46 ls, pathText 46 ls, t⟩ := by
  induction ls with
  | nil =>
      refine .stop t ?_
      rintro b hb rfl
      exact absurd (ht 46 hb) (by decide)
  | cons l ls ih =>
      rw [List.forall_mem_cons] at hls
      have hnext : ∀ b ∈ (pathText 46 ls ++ t).head?, letDigHy b = false ∧ b ≠ 37 := by
        intro b hb
        cases ls with
        | nil =>
            have := ht b hb
            simp only [hostChar, Bool.or_eq_false_iff, beq_eq_false_iff_ne] at this
            exact this.1
        | cons m ls =>
            cases hb
            decide
      have hlabel := LabelRan.refl hls.1.char hnext
      have := LabelsRan.label _ _ _ hlabel hls.1.last (ih hls.2)
      simpa [Run.push] using this

/-- **The loop leaves a host in small letters as it is.** -/
theorem hostRun_isHost {host : Bytes} (h : IsHost host) {t : Bytes}
    (ht : ∀ b ∈ t.head?, hostChar b = false) : hostRun (host ++ t) = ⟨true, host, host, t⟩ := by
  obtain ⟨l, ls, hl, hls, hne, rfl⟩ := h
  obtain ⟨m, ls, rfl⟩ := List.exists_cons_of_ne_nil hne
  have hfirst : LabelRan (l ++ pathText 46 (m :: ls) ++ t)
      ⟨true, l, l, pathText 46 (m :: ls) ++ t⟩ := by
    rw [List.append_assoc]
    apply LabelRan.refl hl.char
    intro b hb
    cases hb
    decide
  exact hostRun_eq hfirst hl.last rfl (LabelsRan.refl hls ht)

/-- A site that is a host in small letters is normal. -/
theorem ulNormalizeSite_isHost {host : Bytes} (h : IsHost host) :
    ulNormalizeSite host = some host := by
  have hrun := hostRun_isHost (t := []) h (by simp)
  rw [List.append_nil] at hrun
  obtain ⟨l, ls, hl, -, -, rfl⟩ := h
  have hhead : (l ++ pathText 46 ls).head?.any letDigHy = true := by
    cases l with
    | nil => exact absurd hl.last (by decide)
    | cons b l => exact (hl.char b List.mem_cons_self).1
  rw [ulNormalizeSite, if_pos hhead, hrun]
  rfl

/-- **What a site becomes** is a host in small letters. -/
theorem ulNormalizeSite_eq_some {site host : Bytes} (h : ulNormalizeSite site = some host) :
    IsHost host ∧ host.length ≤ site.length := by
  unfold ulNormalizeSite at h
  dsimp only at h
  split_ifs at h with hhead hok
  cases h
  rw [Bool.and_eq_true] at hok
  have hlen := length_hostRun_le hok.1
  exact ⟨(hostRun_out hok.1).1, by omega⟩

end Asenal.Url
