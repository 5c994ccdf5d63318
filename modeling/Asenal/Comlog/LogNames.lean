import Asenal.Lib.Machine
import Asenal.Lib.Memory
import Asenal.Lib.Text

/-!
# The names of log levels

The levels a program defines itself get the ids from 32 on, and their names stand in a table of 64 slots of
1024 characters. A name is cut when it is stored, but it is compared as it is.

* `Levels.getLogName`, `Levels.getLogId`, `Levels.createSelfLog` — the three functions of the table.
* `levelNames_iff` — names and ids stand for each other in all states of a run exactly when no name that is
  added is cut; `levelNames_longName` — a name that gets two ids.
-/

namespace Asenal.Comlog

open Asenal.Lib.Text Asenal.Lib.Memory Asenal.Lib.Machine

/-! ## The table -/

/-- The names of the levels that are there from the beginning. Source: `logcore.cpp` `g_levelName`. -/
def definedName : ℕ → Bytes
  | 1 => ascii "FATAL"
  | 2 => ascii "WARNING"
  | 4 => ascii "NOTICE"
  | 8 => ascii "TRACE"
  | 16 => ascii "DEBUG"
  | _ => []

/-- The table and the number of its slots that are in use. Source: `logcore.cpp` `g_levelName`,
`g_seflog`. -/
structure Levels where
  levelName : Mem Bytes
  seflog : ℕ

/-- The table at the beginning. -/
def Levels.start : Levels := ⟨definedName, 32⟩

/-- Source: `logcore.cpp` `getLogName`. -/
def Levels.getLogName (t : Levels) (logid : ℕ) : Bytes := t.levelName (logid % 64)

/-- Source: `logcore.cpp` `getLogId`. -/
def Levels.getLogId (t : Levels) (logname : Bytes) : ℕ :=
  ((List.range t.seflog).find? fun i => logname = t.levelName i).getD 0

/-- Source: `logcore.cpp` `createSelfLog`. -/
def Levels.createSelfLog (t : Levels) (lvlname : Bytes) : ℕ × Levels :=
  let id := t.getLogId lvlname
  if id ≠ 0 then (id, t)
  else if 64 ≤ t.seflog then (0, t)
  else (t.seflog, ⟨Function.update t.levelName t.seflog (lvlname.take 1023), t.seflog + 1⟩)

/-! ## Runs -/

/-- A name of a level is not empty. -/
abbrev LevelName := {name : Bytes // name ≠ []}

/-- A call of one of the three functions. -/
inductive LevelCall
  | createSelfLog (lvlname : LevelName)
  | getLogId (logname : LevelName)
  | getLogName (logid : ℕ)

/-- The table, and the ids `createSelfLog` gave for names the program defines. -/
structure LevelRun where
  levels : Levels
  given : List (Bytes × ℕ)

/-- One call. -/
def LevelRun.step (s : LevelRun) : LevelCall → LevelRun
  | .createSelfLog name =>
      let r := s.levels.createSelfLog name
      ⟨r.2, if 32 ≤ r.1 then s.given ++ [(name.1, r.1)] else s.given⟩
  | .getLogId _ => s
  | .getLogName _ => s

/-- The calls of a program, from the beginning on. -/
def LevelRun.run (calls : List LevelCall) : LevelRun := calls.foldl LevelRun.step ⟨Levels.start, []⟩

/-- A name of the levels that are there from the beginning. -/
def Defined (name : Bytes) : Prop := ∃ i < 32, definedName i = name

/-- A name that has no id yet. -/
def LevelRun.New (s : LevelRun) (name : Bytes) : Prop := ¬ Defined name ∧ ∀ p ∈ s.given, p.1 ≠ name

/-- Names and ids stand for each other: what was given is found and is one-to-one, a name that is known keeps
its id, a new one gets a fresh id, and nothing changes when the table is full. -/
structure LevelRun.OneToOne (s : LevelRun) : Prop where
  lookup : ∀ p ∈ s.given, s.levels.getLogId p.1 = p.2 ∧ s.levels.getLogName p.2 = p.1
  inj : ∀ p ∈ s.given, ∀ r ∈ s.given, p.1 = r.1 ↔ p.2 = r.2
  known : ∀ p ∈ s.given, s.levels.createSelfLog p.1 = (p.2, s.levels)
  fresh : ∀ name : LevelName, s.New name → s.levels.seflog < 64 →
    32 ≤ (s.levels.createSelfLog name).1 ∧ ∀ p ∈ s.given, p.2 ≠ (s.levels.createSelfLog name).1
  full : ∀ name : LevelName, 64 ≤ s.levels.seflog → (s.levels.createSelfLog name).2 = s.levels

/-- A name that is added is not cut. -/
def LevelRun.Fits (s : LevelRun) : LevelCall → Prop
  | .createSelfLog name => s.New name → s.levels.seflog < 64 → name.1.length ≤ 1023
  | .getLogId _ => True
  | .getLogName _ => True

/-! ## What the table holds -/

variable {t : Levels} {name : Bytes} {id : ℕ} {s : LevelRun}

/-- The id that is found is that of the first slot with the name. -/
theorem getLogId_eq_iff (hid : id ≠ 0) :
    t.getLogId name = id ↔ id < t.seflog ∧ t.levelName id = name ∧ ∀ j < id, t.levelName j ≠ name := by
  have hfound : (List.range t.seflog).find? (fun i => name = t.levelName i) = some id ↔
      id < t.seflog ∧ t.levelName id = name ∧ ∀ j < id, t.levelName j ≠ name := by
    rw [List.find?_range_eq_some]
    simp only [decide_eq_true_iff, List.mem_range, Bool.not_eq_true', decide_eq_false_iff_not]
    refine ⟨fun ⟨heq, hlt, hnot⟩ => ⟨hlt, heq.symm, fun j hj => Ne.symm (hnot j hj)⟩, ?_⟩
    exact fun ⟨hlt, heq, hnot⟩ => ⟨heq.symm, hlt, fun j hj => Ne.symm (hnot j hj)⟩
  rw [← hfound, Levels.getLogId]
  cases (List.range t.seflog).find? fun i => name = t.levelName i with
  | none => exact iff_of_false (fun h => hid h.symm) (Option.some_ne_none id).symm
  | some i => exact (Option.some_inj).symm

/-- No id is found for a name that is not there. -/
theorem getLogId_of_not_mem (h : ∀ i < t.seflog, t.levelName i ≠ name) : t.getLogId name = 0 := by
  have hnone : (List.range t.seflog).find? (fun i => name = t.levelName i) = none := by
    rw [List.find?_range_eq_none]
    intro i hi
    simpa using Ne.symm (h i hi)
  rw [Levels.getLogId, hnone, Option.getD_none]

/-- What every call keeps: the first slots, and a name that was given an id for each of the others. -/
structure LevelRun.Sound (s : LevelRun) : Prop where
  defined : ∀ i < 32, s.levels.levelName i = definedName i
  ge : 32 ≤ s.levels.seflog
  le : s.levels.seflog ≤ 64
  own : ∀ p ∈ s.given, ¬ Defined p.1
  ids : ∀ p ∈ s.given, 32 ≤ p.2 ∧ p.2 < s.levels.seflog
  slots : ∀ i, 32 ≤ i → i < s.levels.seflog → ∃ name, (name, i) ∈ s.given ∧
    s.levels.levelName i = name.take 1023

/-- What was given an id is found under it. -/
def LevelRun.Lookup (s : LevelRun) : Prop :=
  ∀ p ∈ s.given, s.levels.getLogId p.1 = p.2 ∧ s.levels.getLogName p.2 = p.1

/-- If no id is found, the name is in no slot. -/
theorem LevelRun.Sound.not_mem (h : s.Sound) (hname : name ≠ []) (hzero : s.levels.getLogId name = 0) :
    ∀ i < s.levels.seflog, s.levels.levelName i ≠ name := by
  intro i
  induction i using Nat.strong_induction_on with
  | _ i ih =>
      intro hi heq
      by_cases hpos : i = 0
      · subst hpos
        rw [h.defined 0 (by omega)] at heq
        exact hname heq.symm
      · have hfound := (getLogId_eq_iff hpos).mpr ⟨hi, heq, fun j hj => ih j hj (by omega)⟩
        exact hpos (hfound.symm.trans hzero)

/-- The slot of an id that was given. -/
theorem getLogName_of_lt (h : id < 64) : t.getLogName id = t.levelName id := by
  rw [Levels.getLogName, Nat.mod_eq_of_lt h]

/-- Where lookups work, the slots hold the names that were given. -/
theorem LevelRun.Sound.slot (h : s.Sound) (hlookup : s.Lookup) {i : ℕ} (hi : 32 ≤ i)
    (hlt : i < s.levels.seflog) : (s.levels.levelName i, i) ∈ s.given := by
  obtain ⟨name, hmem, -⟩ := h.slots i hi hlt
  have hle := h.le
  have hslot := (hlookup _ hmem).2
  rw [getLogName_of_lt (by dsimp only; omega)] at hslot
  rwa [hslot]

/-- Where lookups work, a new name is in no slot. -/
theorem LevelRun.Sound.new (h : s.Sound) (hlookup : s.Lookup) (hnew : s.New name) :
    s.levels.getLogId name = 0 := by
  apply getLogId_of_not_mem
  intro i hi heq
  rcases Nat.lt_or_ge i 32 with hlow | hhigh
  · exact hnew.1 ⟨i, hlow, (h.defined i hlow).symm.trans heq⟩
  · exact hnew.2 _ (h.slot hlookup hhigh hi) heq

/-- **What follows from the lookups.** -/
theorem LevelRun.Sound.oneToOne (h : s.Sound) (hlookup : s.Lookup) : s.OneToOne where
  lookup := hlookup
  inj p hp r hr := by
    constructor
    · intro heq
      rw [← (hlookup p hp).1, heq, (hlookup r hr).1]
    · intro heq
      rw [← (hlookup p hp).2, heq, (hlookup r hr).2]
  known p hp := by
    have hid := (hlookup p hp).1
    have hge := (h.ids p hp).1
    rw [Levels.createSelfLog, hid]
    rw [if_pos (by omega)]
  fresh name hnew hlt := by
    have hzero := h.new hlookup hnew
    rw [Levels.createSelfLog, hzero]
    rw [if_neg (by omega), if_neg (by omega)]
    exact ⟨h.ge, fun p hp => Nat.ne_of_lt (h.ids p hp).2⟩
  full name hfull := by
    rw [Levels.createSelfLog]
    split_ifs <;> rfl

/-! ## What a call does -/

/-- The name has an id. -/
theorem step_known {lvlname : LevelName} (hid : s.levels.getLogId lvlname ≠ 0) :
    s.step (.createSelfLog lvlname) =
      ⟨s.levels, if 32 ≤ s.levels.getLogId lvlname then s.given ++ [(lvlname.1, s.levels.getLogId lvlname)]
        else s.given⟩ := by
  rw [LevelRun.step, Levels.createSelfLog]
  rw [if_pos hid]

/-- The table is full. -/
theorem step_full {lvlname : LevelName} (hid : s.levels.getLogId lvlname = 0) (hfull : 64 ≤ s.levels.seflog) :
    s.step (.createSelfLog lvlname) = s := by
  rw [LevelRun.step, Levels.createSelfLog]
  rw [if_neg (not_not.mpr hid), if_pos hfull]
  rfl

/-- The name gets the next slot. -/
theorem step_new {lvlname : LevelName} (h : s.Sound) (hid : s.levels.getLogId lvlname = 0)
    (hlt : s.levels.seflog < 64) :
    s.step (.createSelfLog lvlname) =
      ⟨⟨Function.update s.levels.levelName s.levels.seflog (lvlname.1.take 1023), s.levels.seflog + 1⟩,
        s.given ++ [(lvlname.1, s.levels.seflog)]⟩ := by
  rw [LevelRun.step, Levels.createSelfLog]
  rw [if_neg (not_not.mpr hid), if_neg (Nat.not_le.mpr hlt)]
  dsimp only
  rw [if_pos h.ge]

/-- A name that is found in a slot behind the first ones is none of the defined ones. -/
theorem LevelRun.Sound.not_defined (h : s.Sound) (hid : 32 ≤ s.levels.getLogId name) : ¬ Defined name := by
  rintro ⟨i, hi, heq⟩
  have hfound := (getLogId_eq_iff (show s.levels.getLogId name ≠ 0 by omega)).mp rfl
  exact hfound.2.2 i (by omega) ((h.defined i hi).trans heq)

/-- A name that is in no slot is none of the defined ones. -/
theorem LevelRun.Sound.not_defined_of_not_mem (h : s.Sound)
    (hnot : ∀ i < s.levels.seflog, s.levels.levelName i ≠ name) : ¬ Defined name := by
  rintro ⟨i, hi, heq⟩
  have hge := h.ge
  exact hnot i (by omega) ((h.defined i hi).trans heq)

/-- An id is given again. -/
theorem LevelRun.Sound.give_known (h : s.Sound) (hown : 32 ≤ s.levels.getLogId name) :
    LevelRun.Sound ⟨s.levels, s.given ++ [(name, s.levels.getLogId name)]⟩ := by
  have hfound := (getLogId_eq_iff (show s.levels.getLogId name ≠ 0 by omega)).mp rfl
  exact
    { defined := h.defined
      ge := h.ge
      le := h.le
      own := List.forall_mem_append.mpr ⟨h.own, List.forall_mem_singleton.mpr (h.not_defined hown)⟩
      ids := List.forall_mem_append.mpr ⟨h.ids, List.forall_mem_singleton.mpr ⟨hown, hfound.1⟩⟩
      slots := fun i hi hlt => by
        obtain ⟨old, hmem, hslot⟩ := h.slots i hi hlt
        exact ⟨old, List.mem_append_left _ hmem, hslot⟩ }

/-- The next slot is taken. -/
theorem LevelRun.Sound.give_new (h : s.Sound) (hnot : ∀ i < s.levels.seflog, s.levels.levelName i ≠ name)
    (hlt : s.levels.seflog < 64) :
    LevelRun.Sound ⟨⟨Function.update s.levels.levelName s.levels.seflog (name.take 1023),
      s.levels.seflog + 1⟩, s.given ++ [(name, s.levels.seflog)]⟩ := by
  have hge := h.ge
  exact
    { defined := fun i hi => by
        dsimp only
        rw [Function.update_of_ne (by omega), h.defined i hi]
      ge := Nat.le_succ_of_le hge
      le := hlt
      own := List.forall_mem_append.mpr
        ⟨h.own, List.forall_mem_singleton.mpr (h.not_defined_of_not_mem hnot)⟩
      ids := List.forall_mem_append.mpr
        ⟨fun p hp => ⟨(h.ids p hp).1, Nat.lt_succ_of_lt (h.ids p hp).2⟩,
          List.forall_mem_singleton.mpr ⟨hge, Nat.lt_succ_self _⟩⟩
      slots := fun i hi hlast => by
        dsimp only at hlast ⊢
        by_cases hcell : i = s.levels.seflog
        · subst hcell
          rw [Function.update_self]
          exact ⟨name, List.mem_append_right _ (List.mem_singleton_self _), rfl⟩
        · obtain ⟨old, hmem, hslot⟩ := h.slots i hi (by omega)
          rw [Function.update_of_ne hcell]
          exact ⟨old, List.mem_append_left _ hmem, hslot⟩ }

/-- **Each call** keeps the table sound. -/
theorem LevelRun.sound_step (call : LevelCall) (h : s.Sound) : (s.step call).Sound := by
  cases call with
  | getLogId logname => exact h
  | getLogName logid => exact h
  | createSelfLog lvlname =>
      by_cases hid : s.levels.getLogId lvlname = 0
      · rcases Nat.lt_or_ge s.levels.seflog 64 with hlt | hfull
        · rw [step_new h hid hlt]
          exact h.give_new (h.not_mem lvlname.2 hid) hlt
        · rwa [step_full hid hfull]
      · rw [step_known hid]
        split_ifs with hown
        · exact h.give_known hown
        · exact h

/-- An id that is given again is found as before. -/
theorem LevelRun.Sound.lookup_known (h : s.Sound) (hlookup : s.Lookup)
    (hown : 32 ≤ s.levels.getLogId name) :
    LevelRun.Lookup ⟨s.levels, s.given ++ [(name, s.levels.getLogId name)]⟩ := by
  have hle := h.le
  have hfound := (getLogId_eq_iff (show s.levels.getLogId name ≠ 0 by omega)).mp rfl
  refine List.forall_mem_append.mpr ⟨hlookup, List.forall_mem_singleton.mpr ⟨rfl, ?_⟩⟩
  rw [getLogName_of_lt (by dsimp only; omega)]
  exact hfound.2.1

/-- The names in the other slots are found as before, and the one in the next slot exactly if it fits. -/
theorem LevelRun.Sound.lookup_new (h : s.Sound) (hlookup : s.Lookup)
    (hnot : ∀ i < s.levels.seflog, s.levels.levelName i ≠ name) (hlt : s.levels.seflog < 64) :
    LevelRun.Lookup ⟨⟨Function.update s.levels.levelName s.levels.seflog (name.take 1023),
      s.levels.seflog + 1⟩, s.given ++ [(name, s.levels.seflog)]⟩ ↔ name.length ≤ 1023 := by
  have hge := h.ge
  apply List.forall_mem_append.trans
  rw [List.forall_mem_singleton, getLogName_of_lt hlt]
  dsimp only
  rw [Function.update_self]
  refine ⟨fun hall => ?_, fun hshort => ⟨fun p hp => ?_, ?_⟩⟩
  · have hlen := congrArg List.length hall.2.2
    rw [List.length_take] at hlen
    omega
  · have hids := h.ids p hp
    obtain ⟨hfound, hslot⟩ := hlookup p hp
    rw [getLogId_eq_iff (by omega)] at hfound
    rw [getLogName_of_lt (by omega)] at hslot
    rw [getLogId_eq_iff (by omega), getLogName_of_lt (by omega)]
    dsimp only
    rw [Function.update_of_ne (by omega)]
    refine ⟨⟨by omega, hslot, fun j hj => ?_⟩, hslot⟩
    rw [Function.update_of_ne (by omega)]
    exact hfound.2.2 j hj
  · rw [getLogId_eq_iff (by omega), List.take_of_length_le hshort]
    dsimp only
    rw [Function.update_self]
    refine ⟨⟨Nat.lt_succ_self _, rfl, fun j hj => ?_⟩, rfl⟩
    rw [Function.update_of_ne (by omega)]
    exact hnot j hj

/-- **Each call** keeps the lookups working exactly when it does not cut a name. -/
theorem lookup_step (call : LevelCall) (h : s.Sound) (hlookup : s.Lookup) :
    (s.step call).Lookup ↔ s.Fits call := by
  cases call with
  | getLogId logname => exact iff_of_true hlookup trivial
  | getLogName logid => exact iff_of_true hlookup trivial
  | createSelfLog lvlname =>
      by_cases hid : s.levels.getLogId lvlname = 0
      · rcases Nat.lt_or_ge s.levels.seflog 64 with hlt | hfull
        · have hnot := h.not_mem lvlname.2 hid
          have hnew : s.New lvlname := by
            refine ⟨h.not_defined_of_not_mem hnot, fun p hp heq => ?_⟩
            have hfound := (hlookup p hp).1
            have hge := (h.ids p hp).1
            rw [heq, hid] at hfound
            omega
          rw [step_new h hid hlt]
          exact (h.lookup_new hlookup hnot hlt).trans ⟨fun hshort _ _ => hshort, fun hfits => hfits hnew hlt⟩
        · rw [step_full hid hfull]
          exact iff_of_true hlookup fun _ hlt => absurd hlt (by omega)
      · have hfits : s.Fits (.createSelfLog lvlname) := fun hnew _ => absurd (h.new hlookup hnew) hid
        refine iff_of_true ?_ hfits
        rw [step_known hid]
        split_ifs with hown
        · exact h.lookup_known hlookup hown
        · exact hlookup

/-! ## The main result -/

/-- **Names and ids** stand for each other in all states of a run exactly when every name that gets a slot
fits in it. -/
theorem levelNames_iff (calls : List LevelCall) :
    (∀ pre, pre <+: calls → (LevelRun.run pre).OneToOne) ↔
      ∀ pre call, pre ++ [call] <+: calls → (LevelRun.run pre).Fits call := by
  have hstart : LevelRun.Sound ⟨Levels.start, []⟩ :=
    { defined := fun _ _ => rfl
      ge := Nat.le_refl _
      le := by decide
      own := fun _ hp => absurd hp List.not_mem_nil
      ids := fun _ hp => absurd hp List.not_mem_nil
      slots := fun _ hi hlt => absurd hlt (Nat.not_lt.mpr hi) }
  have hlookup : LevelRun.Lookup ⟨Levels.start, []⟩ := fun _ hp => absurd hp List.not_mem_nil
  have hsound : ∀ pre, (LevelRun.run pre).Sound := fun pre =>
    foldl_invariant (fun _ call => LevelRun.sound_step call) pre hstart
  refine Iff.trans ?_ (holds_along_iff (fun _ call => LevelRun.sound_step call)
    (fun _ call => lookup_step call) calls hstart hlookup)
  exact forall₂_congr fun pre _ => ⟨fun h => h.lookup, (hsound pre).oneToOne⟩

/-- A name of 1024 characters. -/
def longName : LevelName :=
  ⟨List.replicate 1024 97, fun h => absurd ((List.replicate_eq_nil_iff _).mp h) (by decide)⟩

/-- The same name is added twice: it gets two ids, and it is not the name of the first one. -/
theorem levelNames_longName :
    (LevelRun.run [.createSelfLog longName, .createSelfLog longName]).given =
        [(longName.1, 32), (longName.1, 33)] ∧
      ¬ (LevelRun.run [.createSelfLog longName]).OneToOne := by
  refine ⟨by decide +kernel, fun h => ?_⟩
  have hslot := (h.lookup (longName.1, 32) (by decide +kernel)).2
  exact absurd hslot (by decide +kernel)

end Asenal.Comlog
