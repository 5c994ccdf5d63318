import Asenal.Lib.Machine
import Asenal.Lib.Memory
import Asenal.Lib.Text

/-!
# Categories and the masks of their appenders

A category prints an event to each of its appenders, or to the backup of an appender that is masked.
Appenders and mask bits stand in two arrays. Removing an appender moves the ones behind it to the front and
leaves the bits where they are; clearing resets the number of appenders only.

* `Category.addAppender`, `Category.removeAppender`, `Category.clearAppender`, `Category.addAppenderMask`,
  `Category.print` — the operations.
* `category_masks_iff` — when each appender keeps its bit; `category_masks_two` — a run,
  `category_masks_lost` — a removal in the middle.
-/

namespace Asenal.Comlog

open Asenal.Lib.Text Asenal.Lib.Memory Asenal.Lib.Machine

/-! ## The operations -/

/-- `COM_MAXDEVICENUM`. Source: `comlog.h`. -/
def comMaxDeviceNum : ℕ := 1024

/-- What a category reads of an appender: the type of its device, whether it is open, and the address of
its backup. Source: `appender.h` `Appender`. -/
structure Device where
  devType : Bytes
  opened : Bool
  bkappender : ℕ

/-- Appenders are addresses. Source: `category.h` `Category`. -/
structure Category where
  appenders : Mem ℕ
  appnum : ℕ
  appenderMask : Mem Bool
  maskFlag : Bool

/-- The attached appenders. -/
def Category.attached (c : Category) : List ℕ := peek c.appenders 0 c.appnum

/-- A category and its parent, if there is one. Source: `category.cpp` `Category::Category`. -/
def Category.new (parent : Option Category) : Category :=
  match parent with
  | none => ⟨fun _ => 0, 0, fun _ => false, false⟩
  | some p => ⟨fun i => if i < p.appnum then p.appenders i else 0, p.appnum, fun _ => false, false⟩

/-- Source: `category.cpp` `Category::addAppender`. -/
def Category.addAppender (c : Category) (app : ℕ) : ℤ × Category :=
  if comMaxDeviceNum ≤ c.appnum then (-1, c)
  else if app = 0 then (-1, c)
  else if app ∈ c.attached then (0, c)
  else (0, { c with appenders := Function.update c.appenders c.appnum app, appnum := c.appnum + 1 })

/-- Source: `category.cpp` `Category::removeAppender`. -/
def Category.removeAppender (c : Category) (app : ℕ) : ℤ × Category :=
  let r := compact (· ≠ app) c.appnum 0 0 c.appenders
  (0, { c with appenders := r.1, appnum := r.2 })

/-- Source: `category.cpp` `Category::clearAppender`. -/
def Category.clearAppender (c : Category) : ℤ × Category := (0, { c with appnum := 0 })

/-- Source: `category.cpp` `Category::addAppenderMask`. -/
def Category.addAppenderMask (devices : ℕ → Device) (c : Category) (appenderType : Bytes) : ℤ × Category :=
  if c.maskFlag then (0, c)
  else
    (0, { c with
      appenderMask := fun i =>
        if i < c.appnum ∧ (devices (c.appenders i)).devType = appenderType then true else c.appenderMask i
      maskFlag := true })

/-- The appenders that are visited, and to which one each of them hands the event on. Source:
`category.cpp` `Category::print`, the loop. -/
def Category.print (devices : ℕ → Device) (c : Category) : List (ℕ × Option ℕ) :=
  (List.range c.appnum).filterMap fun i =>
    let app := c.appenders i
    if (devices app).opened then
      if c.appenderMask i = false then some (app, some app)
      else if (devices app).bkappender ≠ 0 then some (app, some (devices app).bkappender)
      else some (app, none)
    else none

/-! ## Runs -/

/-- A call. -/
inductive CategoryOp
  | add (app : ℕ)
  | remove (app : ℕ)
  | clear
  | mask (appenderType : Bytes)

/-- A category and the appenders that the first `addAppenderMask` found with its type. -/
structure Masking where
  cat : Category
  chosen : Option (List ℕ)

/-- The state after a call. -/
def Masking.step (devices : ℕ → Device) (s : Masking) : CategoryOp → Masking
  | .add app => { s with cat := (s.cat.addAppender app).2 }
  | .remove app => { s with cat := (s.cat.removeAppender app).2 }
  | .clear => { s with cat := s.cat.clearAppender.2 }
  | .mask appenderType =>
      { cat := (s.cat.addAppenderMask devices appenderType).2
        chosen := some (s.chosen.getD (s.cat.attached.filter fun a => (devices a).devType = appenderType)) }

/-- A category without calls. -/
def Masking.start (parent : Option Category) : Masking := ⟨.new parent, none⟩

/-- The state after some calls. -/
def Masking.run (devices : ℕ → Device) (parent : Option Category) (ops : List CategoryOp) : Masking :=
  ops.foldl (Masking.step devices) (.start parent)

/-- The categories of a process. -/
inductive Made (devices : ℕ → Device) : Category → Prop
  | new : Made devices (.new none)
  | child (parent : Category) (hparent : Made devices parent) : Made devices (.new (some parent))
  | call (s : Masking) (op : CategoryOp) (hs : Made devices s.cat) : Made devices (s.step devices op).cat

/-- The event goes to the backup. -/
def Category.Masked (c : Category) (app : ℕ) : Prop :=
  ∃ i < c.appnum, c.appenders i = app ∧ c.appenderMask i = true

/-- The mask belongs to the appenders that were chosen. -/
def Masking.Kept (s : Masking) : Prop :=
  ∀ app ∈ s.cat.attached, s.cat.Masked app ↔ app ∈ s.chosen.getD []

/-- A call that leaves the bits with their appenders: an appender is removed where the bits from its slot on
are all the same, and a new one is added at a slot with its bit. -/
def Masking.Keeps (s : Masking) : CategoryOp → Prop
  | .add app =>
      s.cat.appnum < comMaxDeviceNum → app ≠ 0 → app ∉ s.cat.attached →
        (s.cat.appenderMask s.cat.appnum = true ↔ app ∈ s.chosen.getD [])
  | .remove app =>
      ∀ k < s.cat.appnum, s.cat.appenders k = app →
        ∀ j, k ≤ j → j < s.cat.appnum → s.cat.appenderMask j = s.cat.appenderMask k
  | .clear | .mask _ => True

/-! ## The attached appenders -/

variable {devices : ℕ → Device} {c : Category} {s : Masking} {app : ℕ}

theorem mem_attached : app ∈ c.attached ↔ ∃ i < c.appnum, c.appenders i = app := by
  unfold Category.attached peek
  simp only [List.mem_map, List.mem_range, Nat.zero_add]

theorem getElem_attached {i : ℕ} (h : i < c.attached.length) : c.attached[i] = c.appenders i :=
  (getElem_peek c.appenders h).trans (congrArg c.appenders (Nat.zero_add i))

/-- Different slots have different appenders. -/
theorem slot_inj (h : c.attached.Nodup) {i j : ℕ} (hi : i < c.appnum) (hj : j < c.appnum)
    (heq : c.appenders i = c.appenders j) : i = j := by
  have hlen : c.attached.length = c.appnum := length_peek _ _ _
  rw [← getElem_attached (hlen.symm ▸ hi), ← getElem_attached (hlen.symm ▸ hj)] at heq
  exact (h.getElem_inj_iff).mp heq

/-- An appender is added. -/
theorem addAppender_new (hnum : c.appnum < comMaxDeviceNum) (hne : app ≠ 0) (hnew : app ∉ c.attached) :
    (c.addAppender app).2 =
      { c with appenders := Function.update c.appenders c.appnum app, appnum := c.appnum + 1 } := by
  rw [Category.addAppender, if_neg (Nat.not_le.mpr hnum), if_neg hne, if_neg hnew]

/-- Nothing is added. -/
theorem addAppender_old (h : ¬ (c.appnum < comMaxDeviceNum ∧ app ≠ 0 ∧ app ∉ c.attached)) :
    (c.addAppender app).2 = c := by
  unfold Category.addAppender
  split_ifs with hnum hzero hold
  · rfl
  · rfl
  · rfl
  · exact absurd ⟨Nat.not_le.mp hnum, hzero, hold⟩ h

theorem attached_remove : (c.removeAppender app).2.attached = c.attached.filter (· ≠ app) := by
  have hcompact := peek_compact (· ≠ app) (n := c.appnum) c.appenders (Nat.le_refl 0)
  rwa [peek_zero, List.nil_append] at hcompact

/-- The appenders behind the one that is removed move to the front. -/
theorem removeAppender_slot (h : c.attached.Nodup) {k : ℕ} (hk : k < c.appnum) :
    (c.removeAppender (c.appenders k)).2.appnum = c.appnum - 1 ∧
      ∀ i < c.appnum - 1, (c.removeAppender (c.appenders k)).2.appenders i =
        if i < k then c.appenders i else c.appenders (i + 1) := by
  have hlen : c.attached.length = c.appnum := length_peek _ _ _
  have hk' : k < c.attached.length := hlen.symm ▸ hk
  have hlist : (c.removeAppender (c.appenders k)).2.attached = c.attached.eraseIdx k := by
    rw [attached_remove, ← h.erase_getElem k hk', h.erase_eq_filter, getElem_attached]
    exact List.filter_congr fun a _ => by by_cases heq : a = c.appenders k <;> simp [heq]
  have hnum : (c.removeAppender (c.appenders k)).2.appnum = c.appnum - 1 := by
    have hlen' : (c.removeAppender (c.appenders k)).2.attached.length = _ := length_peek _ _ _
    rw [← hlen', hlist, List.length_eraseIdx_of_lt hk', hlen]
  refine ⟨hnum, fun i hi => ?_⟩
  have hi' : i < (c.removeAppender (c.appenders k)).2.attached.length := by
    rw [hlist, List.length_eraseIdx_of_lt hk', hlen]
    exact hi
  rw [← getElem_attached hi']
  simp only [hlist]
  rw [List.getElem_eraseIdx]
  split_ifs
  · exact getElem_attached _
  · exact getElem_attached _

/-- No appender is attached twice. -/
theorem nodup_step (op : CategoryOp) (h : s.cat.attached.Nodup) :
    (s.step devices op).cat.attached.Nodup := by
  cases op with
  | add app =>
      by_cases hnew : s.cat.appnum < comMaxDeviceNum ∧ app ≠ 0 ∧ app ∉ s.cat.attached
      · obtain ⟨hnum, hne, hmem⟩ := hnew
        have hadd : (s.step devices (.add app)).cat.attached = s.cat.attached ++ [app] := by
          rw [Masking.step, addAppender_new hnum hne hmem]
          have hupdate := peek_update_succ s.cat.appenders 0 s.cat.appnum app
          rwa [Nat.zero_add] at hupdate
        rw [hadd]
        exact h.append (List.nodup_singleton app) (by simpa using hmem)
      · rwa [Masking.step, addAppender_old hnew]
  | remove app =>
      rw [Masking.step, attached_remove]
      exact h.filter _
  | clear => exact List.nodup_nil
  | mask appenderType =>
      rw [Masking.step, Category.addAppenderMask]
      split_ifs <;> exact h

theorem attached_new (parent : Category) : (Category.new (some parent)).attached = parent.attached :=
  peek_congr fun i hi => if_pos (by rwa [Nat.zero_add])

theorem Made.nodup (h : Made devices c) : c.attached.Nodup := by
  induction h with
  | new => exact List.nodup_nil
  | child parent hparent ih => rwa [attached_new]
  | call s op hs ih => exact nodup_step op ih

/-! ## Mask bits -/

/-- What holds in every run. -/
structure Masking.Sound (s : Masking) : Prop where
  nodup : s.cat.attached.Nodup
  flag : s.cat.maskFlag = s.chosen.isSome
  unset : s.chosen = none → ∀ i, s.cat.appenderMask i = false

theorem sound_start {parent : Option Category} (hparent : ∀ p ∈ parent, Made devices p) :
    (Masking.start parent).Sound := by
  cases parent with
  | none => exact ⟨List.nodup_nil, rfl, fun _ _ => rfl⟩
  | some p =>
      refine ⟨?_, rfl, fun _ _ => rfl⟩
      rw [Masking.start, attached_new]
      exact (hparent p rfl).nodup

/-- Adding an appender leaves the bits as they are. -/
theorem addAppender_mask : (c.addAppender app).2.appenderMask = c.appenderMask ∧
    (c.addAppender app).2.maskFlag = c.maskFlag := by
  unfold Category.addAppender
  split_ifs <;> exact ⟨rfl, rfl⟩

theorem Masking.sound_step (op : CategoryOp) (h : s.Sound) : (s.step devices op).Sound := by
  refine ⟨nodup_step op h.nodup, ?_, ?_⟩
  · cases op with
    | add app => exact addAppender_mask.2.trans h.flag
    | remove app => exact h.flag
    | clear => exact h.flag
    | mask appenderType =>
        rw [Masking.step, Category.addAppenderMask]
        split_ifs with hflag
        · exact hflag
        · rfl
  · intro hnone i
    cases op with
    | add app =>
        rw [Masking.step, addAppender_mask.1]
        exact h.unset hnone i
    | remove app => exact h.unset hnone i
    | clear => exact h.unset hnone i
    | mask appenderType => exact absurd hnone (Option.some_ne_none _)

/-- The bit of a slot tells whether its appender is masked. -/
theorem masked_iff (h : c.attached.Nodup) {i : ℕ} (hi : i < c.appnum) :
    c.Masked (c.appenders i) ↔ c.appenderMask i = true := by
  refine ⟨fun hmasked => ?_, fun hmask => ⟨i, hi, rfl, hmask⟩⟩
  obtain ⟨j, hj, heq, hmask⟩ := hmasked
  rwa [slot_inj h hj hi heq] at hmask

/-- The masks, slot by slot. -/
theorem kept_iff (h : s.cat.attached.Nodup) :
    s.Kept ↔ ∀ i < s.cat.appnum, s.cat.appenderMask i = true ↔ s.cat.appenders i ∈ s.chosen.getD [] := by
  constructor
  · intro hkept i hi
    rw [← masked_iff h hi]
    exact hkept _ (mem_attached.mpr ⟨i, hi, rfl⟩)
  · intro hslots app hmem
    obtain ⟨i, hi, rfl⟩ := mem_attached.mp hmem
    rw [masked_iff h hi]
    exact hslots i hi

/-- A new appender takes the bit of its slot. -/
theorem kept_add (h : s.Sound) (hkept : s.Kept) :
    (s.step devices (.add app)).Kept ↔ s.Keeps (.add app) := by
  have hslots := (kept_iff h.nodup).mp hkept
  by_cases hnew : s.cat.appnum < comMaxDeviceNum ∧ app ≠ 0 ∧ app ∉ s.cat.attached
  · obtain ⟨hnum, hne, hmem⟩ := hnew
    rw [kept_iff (nodup_step _ h.nodup), Masking.step, addAppender_new hnum hne hmem]
    dsimp only
    constructor
    · intro hall _ _ _
      have hslot := hall s.cat.appnum (Nat.lt_succ_self _)
      rwa [Function.update_self] at hslot
    · intro hlast i hi
      rcases Nat.lt_succ_iff_lt_or_eq.mp hi with hlt | rfl
      · rw [Function.update_of_ne (Nat.ne_of_lt hlt)]
        exact hslots i hlt
      · rw [Function.update_self]
        exact hlast hnum hne hmem
  · rw [Masking.step, addAppender_old hnew]
    exact iff_of_true hkept fun hnum hne hmem => absurd ⟨hnum, hne, hmem⟩ hnew

/-- The appenders behind the one that is removed take the bits in front of theirs. -/
theorem kept_remove (h : s.Sound) (hkept : s.Kept) :
    (s.step devices (.remove app)).Kept ↔ s.Keeps (.remove app) := by
  have hslots := (kept_iff h.nodup).mp hkept
  by_cases hmem : app ∈ s.cat.attached
  · obtain ⟨k, hk, rfl⟩ := mem_attached.mp hmem
    obtain ⟨hnum, hslot⟩ := removeAppender_slot h.nodup hk
    rw [kept_iff (nodup_step _ h.nodup), Masking.step, hnum]
    -- behind the slot, each bit must be the next one
    have hnext : (∀ i < s.cat.appnum - 1, s.cat.appenderMask i = true ↔
        (s.cat.removeAppender (s.cat.appenders k)).2.appenders i ∈ s.chosen.getD []) ↔
        ∀ i, k ≤ i → i < s.cat.appnum - 1 → s.cat.appenderMask (i + 1) = s.cat.appenderMask i := by
      constructor
      · intro hall i hki hi
        have hi' := hall i hi
        rw [hslot i hi, if_neg (Nat.not_lt.mpr hki), ← hslots (i + 1) (by omega)] at hi'
        exact (Bool.eq_iff_iff.mpr hi').symm
      · intro hall i hi
        rw [hslot i hi]
        split_ifs with hlt
        · exact hslots i (by omega)
        · rw [← hslots (i + 1) (by omega), hall i (Nat.not_lt.mp hlt) hi]
    refine hnext.trans ⟨fun hall k' hk' heq j hj hjn => ?_, fun hall i hki hi => ?_⟩
    · obtain rfl := slot_inj h.nodup hk' hk heq
      induction j, hj using Nat.le_induction with
      | base => rfl
      | succ j hj ih => exact (hall j hj (by omega)).trans (ih (by omega))
    · have hconst := hall k hk rfl
      exact (hconst (i + 1) (by omega) (by omega)).trans (hconst i hki (by omega)).symm
  · have hnone : (s.step devices (.remove app)).cat.attached = s.cat.attached := by
      rw [Masking.step, attached_remove, List.filter_eq_self]
      exact fun a ha => decide_eq_true fun heq => hmem (heq ▸ ha)
    have hkeeps : s.Keeps (.remove app) := fun k hk heq => absurd (mem_attached.mpr ⟨k, hk, heq⟩) hmem
    refine iff_of_true ?_ hkeeps
    have hlen : (s.step devices (.remove app)).cat.appnum = s.cat.appnum := by
      have hlength := congrArg List.length hnone
      rwa [Category.attached, Category.attached, length_peek, length_peek] at hlength
    rw [kept_iff (nodup_step _ h.nodup), hlen]
    intro i hi
    have hcell : (s.step devices (.remove app)).cat.appenders i = s.cat.appenders i := by
      have hi₁ : i < (s.step devices (.remove app)).cat.attached.length := by
        rw [hnone]
        exact (length_peek _ _ _).symm ▸ hi
      rw [← getElem_attached hi₁]
      simp only [hnone]
      exact getElem_attached _
    rw [hcell]
    exact hslots i hi

/-- The first call of `addAppenderMask` chooses the appenders; later ones change nothing. -/
theorem kept_mask (appenderType : Bytes) (h : s.Sound) (hkept : s.Kept) :
    (s.step devices (.mask appenderType)).Kept := by
  have hflag := h.flag
  cases hchosen : s.chosen with
  | some apps =>
      rw [hchosen] at hflag
      have hset : s.cat.maskFlag = true := hflag
      have hstep : s.step devices (.mask appenderType) = s := by
        rw [Masking.step, Category.addAppenderMask, if_pos hset, hchosen, Option.getD_some]
        cases s
        subst hchosen
        rfl
      rwa [hstep]
  | none =>
      rw [hchosen] at hflag
      rw [kept_iff (nodup_step _ h.nodup), Masking.step, Category.addAppenderMask,
        if_neg (Bool.eq_false_iff.mp hflag), hchosen]
      intro i hi
      dsimp only at hi ⊢
      rw [h.unset hchosen i, Option.getD_some, Option.getD_none, List.mem_filter, decide_eq_true_iff]
      have hmem := mem_attached.mpr ⟨i, hi, rfl⟩
      split_ifs with htype
      · exact iff_of_true rfl ⟨hmem, htype.2⟩
      · exact iff_of_false (by simp) fun hin => htype ⟨hi, hin.2⟩

/-- The backup of a device. -/
def Device.backup (d : Device) : Option ℕ := if d.bkappender ≠ 0 then some d.bkappender else none

/-- The attached appenders that are open are visited, each one once, and the event goes to the backup of an
appender that is masked. -/
structure Category.PrintsOnce (devices : ℕ → Device) (c : Category) : Prop where
  visits : (c.print devices).map Prod.fst = c.attached.filter (fun a => (devices a).opened)
  once : ((c.print devices).map Prod.fst).Nodup
  receiver : ∀ app r, (app, r) ∈ c.print devices →
    (c.Masked app → r = (devices app).backup) ∧ (¬ c.Masked app → r = some app)

theorem print_visits (devices : ℕ → Device) (h : c.attached.Nodup) :
    (c.print devices).map Prod.fst = c.attached.filter (fun a => (devices a).opened) ∧
      ((c.print devices).map Prod.fst).Nodup := by
  have hvisits : (c.print devices).map Prod.fst = c.attached.filter (fun a => (devices a).opened) := by
    rw [Category.print, List.map_filterMap, ← List.filterMap_eq_filter, Category.attached, peek,
      List.filterMap_map]
    apply List.filterMap_congr
    intro i _
    rw [Function.comp_apply, Nat.zero_add, Option.guard]
    dsimp only
    split_ifs <;> rfl
  refine ⟨hvisits, ?_⟩
  rw [hvisits]
  exact h.filter _

/-- The event goes to the backup of an appender that is masked. -/
theorem print_receiver (h : c.attached.Nodup) {r : Option ℕ} (hmem : (app, r) ∈ c.print devices) :
    (c.Masked app → r = (devices app).backup) ∧ (¬ c.Masked app → r = some app) := by
  obtain ⟨i, hi, hvisit⟩ := List.mem_filterMap.mp hmem
  rw [List.mem_range] at hi
  dsimp only at hvisit
  split_ifs at hvisit with hopened hmask hbackup
  · obtain ⟨rfl, rfl⟩ := Prod.mk.inj (Option.some.inj hvisit)
    rw [masked_iff h hi]
    exact ⟨fun hset => absurd (hset.symm.trans hmask) (by decide), fun _ => rfl⟩
  · obtain ⟨rfl, rfl⟩ := Prod.mk.inj (Option.some.inj hvisit)
    rw [masked_iff h hi]
    exact ⟨fun _ => (if_pos hbackup).symm, fun hset => absurd (Bool.not_eq_false _ ▸ hmask) hset⟩
  · obtain ⟨rfl, rfl⟩ := Prod.mk.inj (Option.some.inj hvisit)
    rw [masked_iff h hi]
    exact ⟨fun _ => (if_neg hbackup).symm, fun hset => absurd (Bool.not_eq_false _ ▸ hmask) hset⟩

/-! ## The main result -/

/-- **Masks along a run**: the mask belongs to the appenders that were chosen in every state of a run exactly
when every call leaves the bits with their appenders. Each attached appender that is open is visited once
in any case. -/
theorem category_masks_iff (devices : ℕ → Device) {parent : Option Category}
    (hparent : ∀ p ∈ parent, Made devices p) (ops : List CategoryOp) :
    ((∀ pre, pre <+: ops → (Masking.run devices parent pre).Kept) ↔
      ∀ pre op, pre ++ [op] <+: ops → (Masking.run devices parent pre).Keeps op) ∧
    (Masking.run devices parent ops).cat.PrintsOnce devices := by
  have hsound := sound_start hparent
  have hkept : (Masking.start parent).Kept :=
    (kept_iff hsound.nodup).mpr fun i _ => by
      rw [hsound.unset rfl i]
      exact iff_of_false Bool.false_ne_true List.not_mem_nil
  have hstep : ∀ (s : Masking) (op : CategoryOp), s.Sound → s.Kept →
      ((s.step devices op).Kept ↔ s.Keeps op) := by
    intro s op hs hk
    cases op with
    | add app => exact kept_add hs hk
    | remove app => exact kept_remove hs hk
    | clear => exact iff_of_true (fun app hmem => absurd hmem List.not_mem_nil) trivial
    | mask appenderType => exact iff_of_true (kept_mask appenderType hs hk) trivial
  have hnodup : (Masking.run devices parent ops).cat.attached.Nodup :=
    (foldl_invariant (fun s op => Masking.sound_step op) ops hsound).nodup
  obtain ⟨hvisits, honce⟩ := print_visits devices hnodup
  exact ⟨holds_along_iff (fun s op => Masking.sound_step op) hstep ops hsound hkept, hvisits, honce,
    fun app r => print_receiver hnodup⟩

/-- Two files, the backup of the second one, and a terminal in front of them. -/
def someDevices : ℕ → Device
  | 2 => ⟨ascii "FILE", true, 9⟩
  | 3 => ⟨ascii "FILE", true, 0⟩
  | _ => ⟨ascii "TTY", true, 0⟩

/-- Files that are masked, one of them with a backup. -/
theorem category_masks_two :
    (Masking.run someDevices none [.add 2, .add 3, .mask (ascii "FILE")]).cat.print someDevices =
        [(2, some 9), (3, none)] ∧
      (Masking.run someDevices none [.add 2, .add 3, .mask (ascii "FILE")]).cat.PrintsOnce someDevices := by
  refine ⟨by decide, (category_masks_iff someDevices (fun p hp => ?_) _).2⟩
  exact absurd hp (by simp)

/-- A file that is masked, and not any more when the terminal in front of it is removed. -/
theorem category_masks_lost :
    2 ∈ (Masking.run someDevices none [.add 1, .add 2, .mask (ascii "FILE"), .remove 1]).cat.attached ∧
      ¬ (Masking.run someDevices none [.add 1, .add 2, .mask (ascii "FILE"), .remove 1]).Kept := by
  refine ⟨by decide, fun hkept => ?_⟩
  obtain ⟨i, hi, happ, hmask⟩ := (hkept 2 (by decide)).mpr (by decide)
  obtain rfl : i = 0 := Nat.lt_one_iff.mp hi
  exact absurd hmask (by decide)

end Asenal.Comlog
