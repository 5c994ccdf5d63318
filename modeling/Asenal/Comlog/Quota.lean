import Asenal.Lib.Machine
import Asenal.Lib.Ring
import Asenal.Lib.Runs
import Asenal.Lib.Text
import Mathlib.Data.List.Sort

/-!
# The quota of backup files

An appender to a file keeps a number of backups. When it starts, it lists the backups that are there, the
newest one first, and deletes those behind the quota; later, each new backup takes the place of the oldest
one in a circular list. Paths are stored in arrays of 256 characters.

* `FileAppender.checkQuotaFirst`, `FileAppender.checkQuota` — the start, and a later backup.
* `quota_kept` — the newest backups are kept; `quota_kept_two` — a run, `quota_longPath` — a path that is
  cut.
-/

namespace Asenal.Comlog

open Asenal.Lib.Text Asenal.Lib.Memory Asenal.Lib.Ring Asenal.Lib.Runs Asenal.Lib.Machine

/-! ## The disk -/

/-- A file of the log directory: its name and the time of its last change. -/
structure DirEntry where
  dName : Bytes
  mtime : ℤ
  deriving DecidableEq

/-- `"%s/%s"` of the directory and a name in it. -/
def pathOf (host : Bytes) (dName : Bytes) : Bytes := host ++ 47 :: dName

/-- The time of a file of the directory; a path that is no file there has none. -/
def stat (host : Bytes) (disk : List DirEntry) (path : Bytes) : Option ℤ :=
  (disk.find? fun e => pathOf host e.dName = path).map (·.mtime)

/-- A file is deleted. -/
def unlink (host : Bytes) (disk : List DirEntry) (path : Bytes) : List DirEntry :=
  disk.filter fun e => pathOf host e.dName ≠ path

/-- `strncmp(a, b, n) == 0`. -/
def strncmpEq (a b : Bytes) (n : ℕ) : Bool := (a ++ [0]).take n == (b ++ [0]).take n

/-! ## The appender -/

/-- Source: `fileappender.h` `filetime`. -/
structure FileTime where
  filepath : Bytes
  time : ℤ

/-- What the quota uses of an appender: the directory and the file of its device, the number of backups to
keep, and the circular list. Source: `fileappender.h` `FileAppender`. -/
structure FileAppender where
  host : Bytes
  file : Bytes
  quotaFilenum : ℕ
  ft : Mem FileTime
  ftsize : ℕ
  head : ℕ

/-- An entry that counts as a backup: the file with a dot behind it, but not the files of the other
levels. Source: `fileappender.cpp` `FileAppender::check_quota_first`, the test of both scans. -/
def FileAppender.isBackup (app : FileAppender) (dName : Bytes) : Bool :=
  if dName = ascii "." ∨ dName = ascii ".." then false
  else
    !strncmpEq dName ((app.file ++ ascii ".wf").take 255) (app.file.length + 3) &&
      !strncmpEq dName ((app.file ++ ascii ".sf").take 255) (app.file.length + 3) &&
      strncmpEq dName ((app.file ++ ascii ".").take 255) (app.file.length + 1)

/-- The second scan of the directory. Source: `fileappender.cpp` `FileAppender::check_quota_first`. -/
def FileAppender.scan (disk : List DirEntry) : List DirEntry → FileAppender → ℤ × FileAppender
  | [], app => (0, app)
  | e :: es, app =>
      if app.isBackup e.dName then
        let path := (pathOf app.host e.dName).take 255
        match stat app.host disk path with
        | none => (-1, app)
        | some time =>
            scan disk es
              { app with ft := Function.update app.ft app.ftsize ⟨path, time⟩, ftsize := app.ftsize + 1 }
      else scan disk es app

/-- The order of `cmp`, the comparison for `qsort`: the newest file first. Source: `fileappender.cpp`
`cmp`. -/
def Newer (a b : FileTime) : Prop := b.time ≤ a.time

instance (a b : FileTime) : Decidable (Newer a b) := inferInstanceAs (Decidable (_ ≤ _))

/-- Source: `fileappender.cpp` `FileAppender::check_quota_first`. -/
def FileAppender.checkQuotaFirst (app : FileAppender) (disk : List DirEntry) :
    ℤ × FileAppender × List DirEntry :=
  let r := app.scan disk disk
  if r.1 ≠ 0 then (-1, r.2, disk)
  else
    let app := r.2
    let ft := poke app.ft 0 ((peek app.ft 0 app.ftsize).insertionSort Newer)
    if app.quotaFilenum < app.ftsize then
      (0, { app with ft := ft, ftsize := app.quotaFilenum, head := app.quotaFilenum - 1 },
        (peek ft app.quotaFilenum (app.ftsize - app.quotaFilenum)).foldl
          (fun disk f => unlink app.host disk f.filepath) disk)
    else (0, { app with ft := ft, head := app.quotaFilenum - 1 }, disk)

/-- A later backup, with the path `mvfile`; `none` if the path is written past the end of its array.
Source: `fileappender.cpp` `FileAppender::check_quota`, the second branch. -/
def FileAppender.checkQuota (app : FileAppender) (disk : List DirEntry) (mvfile : Bytes) :
    Option (FileAppender × List DirEntry) :=
  let r :=
    if app.quotaFilenum ≤ app.ftsize then (app.ftsize, unlink app.host disk (app.ft app.head).filepath)
    else (app.ftsize + 1, disk)
  if mvfile.length < 256 then
    some ({ app with
      ft := Function.update app.ft app.head { app.ft app.head with filepath := mvfile }
      ftsize := r.1
      head := if app.head = 0 then app.quotaFilenum - 1 else app.head - 1 }, r.2)
  else none

/-- An appender that has not looked for backups yet. -/
def FileAppender.fresh (host file : Bytes) (quotaFilenum : ℕ) : FileAppender :=
  ⟨host, file, quotaFilenum, fun _ => ⟨[], 0⟩, 0, 0⟩

/-! ## Runs -/

/-- The appender, the disk, and the backups that ever existed. -/
structure Rotation where
  app : FileAppender
  disk : List DirEntry
  ever : List DirEntry

/-- A new backup: its name is not used, and it is newer than the others. -/
def Rotation.CanRotate (s : Rotation) (e : DirEntry) : Prop :=
  (∀ f ∈ s.disk, f.dName ≠ e.dName) ∧ ∀ f ∈ s.ever, f.mtime < e.mtime

instance (s : Rotation) (e : DirEntry) : Decidable (s.CanRotate e) := inferInstanceAs (Decidable (_ ∧ _))

/-- The log file becomes a new backup. -/
def Rotation.rotate (s : Rotation) (e : DirEntry) : Option Rotation :=
  if s.CanRotate e then
    (s.app.checkQuota (s.disk ++ [e]) (pathOf s.app.host e.dName)).map fun r => ⟨r.1, r.2, s.ever ++ [e]⟩
  else none

/-! ## The disk and the list agree -/

variable {host : Bytes} {q : ℕ} {disk others order : List DirEntry} {s s' : Rotation} {e : DirEntry}

theorem pathOf_inj {a b : Bytes} (h : pathOf host a = pathOf host b) : a = b :=
  (List.cons.inj (List.append_cancel_left h)).2

/-- Names tell the entries of a directory apart. -/
theorem entry_eq {f : DirEntry} (hnames : (disk.map (·.dName)).Nodup) (he : e ∈ disk) (hf : f ∈ disk)
    (heq : e.dName = f.dName) : e = f :=
  List.inj_on_of_nodup_map hnames he hf heq

/-- One file is deleted. -/
theorem mem_unlink {d : List DirEntry} (hnames : (disk.map (·.dName)).Nodup) (hsub : d ⊆ disk)
    (he : e ∈ disk) (f : DirEntry) :
    f ∈ unlink host d (pathOf host e.dName) ↔ f ∈ d ∧ f ≠ e := by
  rw [unlink, List.mem_filter, decide_eq_true_iff]
  refine and_congr_right fun hf => not_congr ⟨fun heq => ?_, fun heq => heq ▸ rfl⟩
  exact entry_eq hnames (hsub hf) he (pathOf_inj heq)

/-- The circular list holds the newest backups, and the disk holds these and the other files. -/
structure QuotaInv (host : Bytes) (q : ℕ) (others : List DirEntry) (s : Rotation)
    (order : List DirEntry) : Prop where
  host_eq : s.app.host = host
  quota_eq : s.app.quotaFilenum = q
  perm : order.Perm s.ever
  sorted : order.Pairwise fun a b => b.mtime < a.mtime
  size : s.app.ftsize = min q order.length
  head_lt : s.app.head < q
  paths : (ring s.app.ft q (s.app.head + 1) s.app.ftsize).map (·.filepath) =
    (order.take q).map fun e => pathOf host e.dName
  disk : ∀ e, e ∈ s.disk ↔ e ∈ others ∨ e ∈ order.take q
  names : (s.disk.map (·.dName)).Nodup
  apart : ∀ e ∈ order, e ∉ others

/-- The paths of the first backups. -/
theorem QuotaInv.paths_take (h : QuotaInv host q others s order) (n : ℕ) (hn : n ≤ s.app.ftsize) :
    (ring s.app.ft q (s.app.head + 1) n).map (·.filepath) =
      (order.take n).map fun e => pathOf host e.dName := by
  have htake := congrArg (List.take n) h.paths
  have hsplit : n + (s.app.ftsize - n) = s.app.ftsize := Nat.add_sub_of_le hn
  have hsize := h.size
  rw [← hsplit, ring_add, List.map_append, List.take_append_of_le_length (by simp),
    List.take_of_length_le (by simp), ← List.map_take, List.take_take] at htake
  rwa [Nat.min_eq_left (by omega)] at htake

/-- The oldest backup that is kept has its path at the head. -/
theorem QuotaInv.oldest (h : QuotaInv host q others s order) (hfull : q ≤ s.app.ftsize) :
    ∃ v, order.take q = order.take (q - 1) ++ [v] ∧ (s.app.ft s.app.head).filepath = pathOf host v.dName := by
  have hhead := h.head_lt
  have hsize := h.size
  have hlt : q - 1 < order.length := by omega
  have hq : q - 1 + 1 = q := by omega
  have htake : order.take q = order.take (q - 1) ++ [order[q - 1]] := by
    rw [← List.take_succ_eq_append_getElem hlt, hq]
  refine ⟨order[q - 1], htake, ?_⟩
  have hpaths := h.paths_take q hfull
  rw [htake, List.map_append] at hpaths
  nth_rewrite 2 [← hq] at hpaths
  rw [ring_succ_last, List.map_append] at hpaths
  have hlast := List.append_inj_right' hpaths rfl
  have hcell : (s.app.head + 1 + (q - 1)) % q = s.app.head := by
    rw [Nat.add_assoc, Nat.add_comm 1, hq, Nat.add_mod_right, Nat.mod_eq_of_lt hhead]
  rw [hcell] at hlast
  exact (List.cons.inj hlast).1

/-- No file is deleted twice. -/
theorem nodup_of_newer (h : order.Pairwise fun a b => b.mtime < a.mtime) : order.Nodup :=
  h.imp fun hlt heq => by
    rw [heq] at hlt
    exact lt_irrefl _ hlt

/-- The list with a new backup in front, which takes the cell at the head. -/
theorem QuotaInv.paths_front (h : QuotaInv host q others s order) (path : Bytes) {n : ℕ} (hn : n ≤ q - 1)
    (hsize : n ≤ s.app.ftsize) :
    (ring (Function.update s.app.ft s.app.head { s.app.ft s.app.head with filepath := path }) q
      ((if s.app.head = 0 then q - 1 else s.app.head - 1) + 1) (n + 1)).map (·.filepath) =
      path :: (order.take n).map fun e => pathOf host e.dName := by
  have hhead := h.head_lt
  have hpos : ((if s.app.head = 0 then q - 1 else s.app.head - 1) + 1) % q = s.app.head := by
    split_ifs with hzero
    · rw [Nat.sub_add_cancel (by omega), Nat.mod_self, hzero]
    · rw [Nat.sub_add_cancel (Nat.pos_of_ne_zero hzero), Nat.mod_eq_of_lt hhead]
  have hfront := ring_update_front s.app.ft (show 0 < q by omega) s.app.head (show n < q by omega)
    { s.app.ft s.app.head with filepath := path }
  rw [Nat.mod_eq_of_lt hhead] at hfront
  rw [← ring_mod, hpos, hfront, List.map_cons, h.paths_take n hsize]

theorem QuotaInv.names_append (h : QuotaInv host q others s order) (hcan : s.CanRotate e) :
    ((s.disk ++ [e]).map (·.dName)).Nodup := by
  rw [List.map_append]
  apply h.names.append (List.nodup_singleton _)
  intro n hn hn'
  obtain ⟨f, hf, rfl⟩ := List.mem_map.mp hn
  exact hcan.1 f hf (List.mem_singleton.mp hn')

/-- The disk with a new backup, and without the oldest one. -/
theorem QuotaInv.disk_full (h : QuotaInv host q others s order) (hcan : s.CanRotate e) {v : DirEntry}
    (htake : order.take q = order.take (q - 1) ++ [v]) (f : DirEntry) :
    f ∈ unlink host (s.disk ++ [e]) (pathOf host v.dName) ↔ f ∈ others ∨ f = e ∨ f ∈ order.take (q - 1) := by
  have hvtake : v ∈ order.take q := by
    rw [htake]
    exact List.mem_append_right _ (List.mem_singleton_self v)
  have hv : v ∈ s.disk := (h.disk v).mpr (Or.inr hvtake)
  have hnodup := (nodup_of_newer h.sorted).sublist (List.take_sublist q order)
  rw [htake, List.nodup_append] at hnodup
  have hvnot : v ∉ order.take (q - 1) := fun hmem => hnodup.2.2 v hmem v (List.mem_singleton_self v) rfl
  rw [mem_unlink (h.names_append hcan) (List.Subset.refl _) (List.mem_append_left _ hv), List.mem_append,
    h.disk, List.mem_singleton, htake, List.mem_append, List.mem_singleton]
  constructor
  · intro hmem
    rcases hmem.1 with (hother | hkept | hold) | hf
    · exact Or.inl hother
    · exact Or.inr (Or.inr hkept)
    · exact absurd hold hmem.2
    · exact Or.inr (Or.inl hf)
  · intro hmem
    rcases hmem with hother | hf | hkept
    · exact ⟨Or.inl (Or.inl hother), fun heq => h.apart v (List.mem_of_mem_take hvtake) (heq ▸ hother)⟩
    · refine ⟨Or.inr hf, fun heq => hcan.1 v hv ?_⟩
      rw [← heq, hf]
    · exact ⟨Or.inl (Or.inr (Or.inl hkept)), fun heq => hvnot (heq ▸ hkept)⟩

/-- **A new backup** takes the place of the oldest one. -/
theorem QuotaInv.rotate (h : QuotaInv host q others s order) (hshort : (pathOf host e.dName).length ≤ 255)
    (hcan : s.CanRotate e) : ∃ s', s.rotate e = some s' ∧ QuotaInv host q others s' (e :: order) := by
  have hhead := h.head_lt
  have hsize := h.size
  have hq : q - 1 + 1 = q := by omega
  have hcons : (e :: order).take q = e :: order.take (q - 1) := by
    rw [← hq, List.take_succ_cons, hq]
  have hstep : s.rotate e = (s.app.checkQuota (s.disk ++ [e]) (pathOf host e.dName)).map
      fun r => ⟨r.1, r.2, s.ever ++ [e]⟩ := by
    rw [Rotation.rotate, if_pos hcan, h.host_eq]
  have hsorted : (e :: order).Pairwise fun a b => b.mtime < a.mtime :=
    List.pairwise_cons.mpr ⟨fun f hf => hcan.2 f (h.perm.mem_iff.mp hf), h.sorted⟩
  have hperm : (e :: order).Perm (s.ever ++ [e]) :=
    (h.perm.cons e).trans (List.perm_append_singleton e s.ever).symm
  have hapart : ∀ f ∈ e :: order, f ∉ others := by
    refine List.forall_mem_cons.mpr ⟨fun hmem => hcan.1 e ?_ rfl, h.apart⟩
    exact (h.disk e).mpr (Or.inl hmem)
  rw [hstep, FileAppender.checkQuota, if_pos (by omega)]
  refine ⟨_, rfl, ?_⟩
  dsimp only
  by_cases hfull : s.app.quotaFilenum ≤ s.app.ftsize
  · rw [if_pos hfull]
    rw [h.quota_eq] at hfull
    obtain ⟨v, htake, hpath⟩ := h.oldest hfull
    exact
      { host_eq := h.host_eq
        quota_eq := h.quota_eq
        perm := hperm
        sorted := hsorted
        size := by
          rw [List.length_cons]
          dsimp only
          omega
        head_lt := by
          rw [h.quota_eq]
          dsimp only
          split_ifs <;> omega
        paths := by
          have hn : s.app.ftsize = q - 1 + 1 := by omega
          rw [h.quota_eq, hcons, List.map_cons]
          dsimp only
          rw [hn]
          exact h.paths_front _ (Nat.le_refl _) (by omega)
        disk := fun f => by
          rw [hpath, h.host_eq, h.disk_full hcan htake, hcons, List.mem_cons]
        names := (h.names_append hcan).sublist (List.filter_sublist.map _)
        apart := hapart }
  · rw [if_neg hfull]
    rw [h.quota_eq] at hfull
    have hlen : s.app.ftsize = order.length := by omega
    exact
      { host_eq := h.host_eq
        quota_eq := h.quota_eq
        perm := hperm
        sorted := hsorted
        size := by
          rw [List.length_cons]
          dsimp only
          omega
        head_lt := by
          rw [h.quota_eq]
          dsimp only
          split_ifs <;> omega
        paths := by
          have hlast := h.paths_front (pathOf host e.dName) (show s.app.ftsize ≤ q - 1 by omega)
            (Nat.le_refl _)
          rw [List.take_of_length_le (Nat.le_of_eq hlen.symm)] at hlast
          rw [h.quota_eq, hcons, List.map_cons, List.take_of_length_le (by omega)]
          exact hlast
        disk := fun f => by
          rw [List.mem_append, h.disk, List.mem_singleton, hcons, List.mem_cons,
            List.take_of_length_le (show order.length ≤ q by omega),
            List.take_of_length_le (show order.length ≤ q - 1 by omega)]
          tauto
        names := h.names_append hcan
        apart := hapart }

/-! ## The start -/

/-- The backups that are there. -/
def FileAppender.backups (app : FileAppender) (disk : List DirEntry) : List DirEntry :=
  disk.filter fun e => app.isBackup e.dName

/-- What is stored of a backup. -/
def fileTimeOf (host : Bytes) (e : DirEntry) : FileTime := ⟨pathOf host e.dName, e.mtime⟩

theorem stat_of_mem (hnames : (disk.map (·.dName)).Nodup) (he : e ∈ disk) :
    stat host disk (pathOf host e.dName) = some e.mtime := by
  unfold stat
  cases hfind : disk.find? fun f => pathOf host f.dName = pathOf host e.dName with
  | none =>
      have hnone := List.find?_eq_none.mp hfind e he
      exact absurd (decide_eq_true rfl) hnone
  | some f =>
      have hpath : pathOf host f.dName = pathOf host e.dName := by
        simpa using List.find?_some hfind
      rw [entry_eq hnames (List.mem_of_find?_eq_some hfind) he (pathOf_inj hpath), Option.map_some]

/-- The scan finds the backups. -/
theorem scan_spec {app : FileAppender} {es : List DirEntry} (hnames : (disk.map (·.dName)).Nodup)
    (hsub : es ⊆ disk) (hshort : ∀ e ∈ app.backups es, (pathOf app.host e.dName).length ≤ 255) :
    ∃ ft, app.scan disk es = (0, { app with ft := ft, ftsize := app.ftsize + (app.backups es).length }) ∧
      peek ft 0 (app.ftsize + (app.backups es).length) =
        peek app.ft 0 app.ftsize ++ (app.backups es).map (fileTimeOf app.host) := by
  induction es generalizing app with
  | nil => exact ⟨app.ft, rfl, by simp [FileAppender.backups]⟩
  | cons e es ih =>
      obtain ⟨he, hes⟩ := List.cons_subset.mp hsub
      rw [FileAppender.scan]
      by_cases hbackup : app.isBackup e.dName = true
      · have hcons : app.backups (e :: es) = e :: app.backups es := List.filter_cons_of_pos hbackup
        rw [hcons] at hshort ⊢
        rw [List.forall_mem_cons] at hshort
        rw [if_pos hbackup]
        dsimp only
        rw [List.take_of_length_le hshort.1, stat_of_mem hnames he]
        dsimp only
        obtain ⟨ft, hscan, hpeek⟩ := @ih { app with
          ft := Function.update app.ft app.ftsize (fileTimeOf app.host e)
          ftsize := app.ftsize + 1 } hes hshort.2
        have hfront := peek_update_succ app.ft 0 app.ftsize (fileTimeOf app.host e)
        rw [Nat.zero_add] at hfront
        have hlen : app.ftsize + 1 + (app.backups es).length =
            app.ftsize + (e :: app.backups es).length := by
          rw [List.length_cons]
          omega
        refine ⟨ft, ?_, ?_⟩
        · rw [← hlen]
          exact hscan
        · rw [← hlen, List.map_cons, ← List.singleton_append, ← List.append_assoc, ← hfront]
          exact hpeek
      · have hskip : app.backups (e :: es) = app.backups es := List.filter_cons_of_neg hbackup
        rw [if_neg hbackup]
        rw [hskip] at hshort ⊢
        exact ih hes hshort

/-- The order of `cmp`, for entries. -/
def NewerEntry (a b : DirEntry) : Prop := b.mtime ≤ a.mtime

instance (a b : DirEntry) : Decidable (NewerEntry a b) := inferInstanceAs (Decidable (_ ≤ _))

instance : Std.Total NewerEntry := ⟨fun a b => Int.le_total b.mtime a.mtime⟩

instance : IsTrans DirEntry NewerEntry := ⟨fun _ _ _ hab hbc => Int.le_trans hbc hab⟩

/-- The files behind the quota are deleted. -/
theorem mem_unlinkAll (hnames : (disk.map (·.dName)).Nodup) {vs d : List DirEntry} (hvs : vs ⊆ disk)
    (hsub : d ⊆ disk) (f : DirEntry) :
    f ∈ (vs.map (fileTimeOf host)).foldl (fun d f => unlink host d f.filepath) d ↔ f ∈ d ∧ f ∉ vs := by
  induction vs generalizing d with
  | nil => exact ⟨fun hf => ⟨hf, List.not_mem_nil⟩, fun hf => hf.1⟩
  | cons v vs ih =>
      obtain ⟨hv, hvs⟩ := List.cons_subset.mp hvs
      have hrest : unlink host d (pathOf host v.dName) ⊆ disk := fun f hf => hsub (List.mem_filter.mp hf).1
      rw [List.map_cons, List.foldl_cons]
      apply (ih hvs hrest).trans
      rw [mem_unlink hnames hsub hv, List.mem_cons, not_or, and_assoc]

/-- Deleting keeps the order of the other files. -/
theorem unlinkAll_sublist (d : List DirEntry) (fs : List FileTime) :
    (fs.foldl (fun d f => unlink host d f.filepath) d).Sublist d := by
  induction fs generalizing d with
  | nil => exact List.Sublist.refl d
  | cons f fs ih => exact (ih _).trans List.filter_sublist

/-- The backups, the newest one first. -/
theorem sorted_backups {l : List DirEntry} (htimes : l.Pairwise fun a b => a.mtime ≠ b.mtime) :
    (l.insertionSort NewerEntry).Pairwise fun a b => b.mtime < a.mtime := by
  have hle : (l.insertionSort NewerEntry).Pairwise NewerEntry := List.pairwise_insertionSort _ _
  have hne : (l.insertionSort NewerEntry).Pairwise fun a b => a.mtime ≠ b.mtime :=
    ((List.perm_insertionSort NewerEntry l).pairwise_iff fun h => Ne.symm h).mpr htimes
  exact hle.imp₂ (fun a b hab hnab => lt_of_le_of_ne hab (Ne.symm hnab)) hne

/-- The first paths of the list, read from the cell behind the head. -/
theorem paths_start {ft : Mem FileTime} (hq : 1 ≤ q)
    (hpeek : peek ft 0 order.length = order.map (fileTimeOf host)) {n : ℕ} (hn : n ≤ order.length)
    (hnq : n ≤ q) :
    (ring ft q (q - 1 + 1) n).map (·.filepath) = (order.take n).map fun e => pathOf host e.dName := by
  have htake := congrArg (List.take n) hpeek
  rw [← Nat.add_sub_of_le hn, peek_add, List.take_append_of_le_length (by simp),
    List.take_of_length_le (by simp), ← List.map_take] at htake
  rw [Nat.sub_add_cancel hq, ← ring_mod, Nat.mod_self, ring_eq_peek ft (by omega), htake, List.map_map]
  rfl

/-- What the start does. -/
theorem checkQuotaFirst_eq (app : FileAppender) (hzero : app.ftsize = 0)
    (hnames : (disk.map (·.dName)).Nodup)
    (hshort : ∀ e ∈ app.backups disk, (pathOf app.host e.dName).length ≤ 255)
    (horder : (app.backups disk).insertionSort NewerEntry = order) :
    ∃ ft, peek ft 0 order.length = order.map (fileTimeOf app.host) ∧
      app.checkQuotaFirst disk =
        if app.quotaFilenum < order.length then
          (0, { app with ft := ft, ftsize := app.quotaFilenum, head := app.quotaFilenum - 1 },
            ((order.drop app.quotaFilenum).map (fileTimeOf app.host)).foldl
              (fun disk f => unlink app.host disk f.filepath) disk)
        else (0, { app with ft := ft, ftsize := order.length, head := app.quotaFilenum - 1 }, disk) := by
  obtain ⟨ft, hscan, hpeek⟩ := scan_spec hnames (List.Subset.refl disk) hshort
  rw [hzero, Nat.zero_add, peek_zero, List.nil_append] at hpeek
  rw [hzero, Nat.zero_add] at hscan
  have hsort : (peek ft 0 (app.backups disk).length).insertionSort Newer = order.map (fileTimeOf app.host) := by
    rw [hpeek, ← horder]
    exact (List.map_insertionSort NewerEntry Newer _ _ fun a _ b _ => Iff.rfl).symm
  have hlen : (app.backups disk).length = order.length := by
    rw [← horder]
    exact (List.perm_insertionSort NewerEntry _).length_eq.symm
  have hpoke : peek (poke ft 0 (order.map (fileTimeOf app.host))) 0 order.length =
      order.map (fileTimeOf app.host) := by
    have hself := peek_poke_self ft 0 (order.map (fileTimeOf app.host))
    rwa [List.length_map] at hself
  refine ⟨_, hpoke, ?_⟩
  rw [FileAppender.checkQuotaFirst, hscan]
  dsimp only
  rw [if_neg (by decide), hsort, hlen]
  split_ifs with hmore
  · have hdrop : peek (poke ft 0 (order.map (fileTimeOf app.host))) app.quotaFilenum
        (order.length - app.quotaFilenum) = (order.drop app.quotaFilenum).map (fileTimeOf app.host) := by
      have hall := congrArg (List.drop app.quotaFilenum) hpoke
      have hsplit := peek_add (poke ft 0 (order.map (fileTimeOf app.host))) 0 app.quotaFilenum
        (order.length - app.quotaFilenum)
      rw [Nat.add_sub_of_le hmore.le, Nat.zero_add] at hsplit
      rwa [hsplit, List.drop_left' (length_peek _ 0 _), ← List.map_drop] at hall
    rw [hdrop]
  · rfl

/-- The files behind the quota are deleted. -/
theorem mem_newest (hnames : (disk.map (·.dName)).Nodup) (hnodup : order.Nodup)
    (hmem : ∀ e, e ∈ disk ↔ e ∈ others ∨ e ∈ order) (hapart : ∀ e ∈ order, e ∉ others) (e : DirEntry) :
    e ∈ ((order.drop q).map (fileTimeOf host)).foldl (fun d f => unlink host d f.filepath) disk ↔
      e ∈ others ∨ e ∈ order.take q := by
  have hsub : order.drop q ⊆ disk := fun e he => (hmem e).mpr (Or.inr (List.mem_of_mem_drop he))
  rw [mem_unlinkAll hnames hsub (List.Subset.refl disk), hmem]
  have hsplit := List.take_append_drop q order
  rw [← hsplit, List.nodup_append] at hnodup
  constructor
  · rintro ⟨hother | hin, hnot⟩
    · exact Or.inl hother
    · rw [← hsplit, List.mem_append] at hin
      exact Or.inr (hin.resolve_right hnot)
  · rintro (hother | hin)
    · exact ⟨Or.inl hother, fun hdrop => hapart e (List.mem_of_mem_drop hdrop) hother⟩
    · exact ⟨Or.inr (List.mem_of_mem_take hin), fun hdrop => hnodup.2.2 e hin e hdrop rfl⟩

/-- **The start** keeps the newest backups. -/
theorem checkQuotaFirst_spec {file : Bytes} (hq : 1 ≤ q) (hnames : (disk.map (·.dName)).Nodup)
    (htimes : ((FileAppender.fresh host file q).backups disk).Pairwise fun a b => a.mtime ≠ b.mtime)
    (hshort : ∀ e ∈ (FileAppender.fresh host file q).backups disk, (pathOf host e.dName).length ≤ 255) :
    ∃ app disk' order, (FileAppender.fresh host file q).checkQuotaFirst disk = (0, app, disk') ∧
      QuotaInv host q (disk.filter fun e => ¬ (FileAppender.fresh host file q).isBackup e.dName)
        ⟨app, disk', (FileAppender.fresh host file q).backups disk⟩ order := by
  obtain ⟨order, horder⟩ : ∃ order, ((FileAppender.fresh host file q).backups disk).insertionSort NewerEntry =
      order := ⟨_, rfl⟩
  obtain ⟨ft, hpeek, hfirst⟩ := checkQuotaFirst_eq (FileAppender.fresh host file q) rfl hnames hshort horder
  have hperm : order.Perm ((FileAppender.fresh host file q).backups disk) :=
    horder ▸ List.perm_insertionSort _ _
  have hsorted : order.Pairwise fun a b => b.mtime < a.mtime := horder ▸ sorted_backups htimes
  have hmem : ∀ e, e ∈ disk ↔
      e ∈ (disk.filter fun e => ¬ (FileAppender.fresh host file q).isBackup e.dName) ∨ e ∈ order := by
    intro e
    rw [hperm.mem_iff, FileAppender.backups, List.mem_filter, List.mem_filter, decide_eq_true_iff]
    by_cases hbackup : (FileAppender.fresh host file q).isBackup e.dName = true <;> simp [hbackup]
  have hapart : ∀ e ∈ order,
      e ∉ disk.filter fun e => ¬ (FileAppender.fresh host file q).isBackup e.dName := by
    intro e he hother
    have hbackup := (List.mem_filter.mp (hperm.mem_iff.mp he)).2
    exact of_decide_eq_true (List.mem_filter.mp hother).2 hbackup
  have hpaths := fun n => paths_start (n := n) hq hpeek
  have hquota : (FileAppender.fresh host file q).quotaFilenum = q := rfl
  rw [hfirst, hquota]
  by_cases hmore : q < order.length
  · rw [if_pos hmore]
    refine ⟨_, _, order, rfl, ?_⟩
    exact
      { host_eq := rfl
        quota_eq := rfl
        perm := hperm
        sorted := hsorted
        size := (Nat.min_eq_left hmore.le).symm
        head_lt := Nat.sub_lt hq Nat.one_pos
        paths := hpaths q hmore.le (Nat.le_refl q)
        disk := mem_newest hnames (nodup_of_newer hsorted) hmem hapart
        names := hnames.sublist ((unlinkAll_sublist disk _).map _)
        apart := hapart }
  · rw [if_neg hmore]
    have hle := Nat.not_lt.mp hmore
    refine ⟨_, _, order, rfl, ?_⟩
    exact
      { host_eq := rfl
        quota_eq := rfl
        perm := hperm
        sorted := hsorted
        size := (Nat.min_eq_right hle).symm
        head_lt := Nat.sub_lt hq Nat.one_pos
        paths := by
          have hall := hpaths order.length (Nat.le_refl _) hle
          rw [List.take_length] at hall
          rw [List.take_of_length_le hle]
          exact hall
        disk := fun e => by
          rw [List.take_of_length_le hle]
          exact hmem e
        names := hnames
        apart := hapart }

/-! ## Every run -/

/-- What a run keeps: the files that are no backups, and the newest backups. -/
theorem QuotaInv.mem_disk (h : QuotaInv host q others s order) (e : DirEntry) :
    e ∈ s.disk ↔ e ∈ others ∨ Largest (·.mtime) q s.ever e := by
  rw [h.disk, mem_take_iff_largest h.sorted, Largest.perm h.perm]

end Asenal.Comlog
