import Asenal.Lib.Segments
import Asenal.Url.SinglePath

/-!
# Resolving the segments of a path

`ul_normalize_path` and its copies turn `\` into `/`, and resolve the segments `.` and `..` and the
empty ones; the parameters and the query, which begin at the first `?`, or else at the first `;`,
stay as they are.

* `normLoop_pathText` — the loop keeps a stack of names.
* `normalizePath_eq`, `normalizePath_append` — what a path becomes.
* `normalizePath_normalizePath`, `length_normalizePath_le` — it is resolved once and for all, and is
  not longer.
* `normalizePathCall_iff` — when a call keeps the stack of names of `resolvePath`.
-/

namespace Asenal.Url

open Asenal.Lib.Text Asenal.Lib.CString Asenal.Lib.Segments

/-! ## The function -/

/-- Where the segments end: at the first `?`, or else at the first `;`. -/
def pathEnd (path : Bytes) : ℕ :=
  (strchr path 63).getD ((strchr path 59).getD path.length)

/-- `\` is read as `/`. -/
def toSlash (b : UInt8) : UInt8 := if b = 92 then 47 else b

/-- Source: `ul_url.cpp` `replace_slash`. -/
def replaceSlash (path : Bytes) : Bytes :=
  (path.take (pathEnd path)).map toSlash ++ path.drop (pathEnd path)

/-- `q` goes back to the `/` in front, unless it is at the root. -/
def upOne (out : Bytes) : Bytes :=
  if out.length = 1 then out else out.tail.dropWhile (· != 47)

/-- The loop of `ul_normalize_path`, with what is written so far in reverse order, so that its head
is `*q`, and what is left in front of `pend`. A `strncmp` up to `pend` compares all that is left. -/
def normLoop (out : Bytes) : Bytes → Bytes
  | [] => out
  | b :: p =>
      if out.head? ≠ some 47 then normLoop (b :: out) p
      else if (b :: p).take 2 = [46, 47] then normLoop out (p.drop 1)
      else if (b :: p).take 3 = [46, 46, 47] then normLoop (upOne out) (p.drop 2)
      else if b = 47 then normLoop out p
      else if b :: p = [46] then normLoop out p
      else if b :: p = [46, 46] then normLoop (upOne out) (p.drop 1)
      else normLoop (b :: out) p
termination_by p => p.length

/-- What `ul_normalize_path` and its copies write. -/
def normalizePath (path : Bytes) : Bytes :=
  let tmp := replaceSlash path
  let pend := pathEnd tmp
  (normLoop [47] ((tmp.take pend).drop 1)).reverse ++ tmp.drop pend

/-- `assert(*path == '/')`. Source: `ul_url.cpp` `ul_normalize_path`. -/
def ulNormalizePath (path : Bytes) : Option Bytes :=
  if path.head? = some 47 then some (normalizePath path) else none

/-- What a call comes to: an assertion fails, the copy of the path is longer than its array, or a path is
written. -/
inductive PathCall
  | aborts
  | overruns
  | writes (path : Bytes)
  deriving DecidableEq

/-- `ul_normalize_path` with its `char tmp[UL_MAX_URL_LEN]`, into which the path is copied. Its copies assert
that it fits. -/
def normalizePathCall (path : Bytes) : PathCall :=
  match ulNormalizePath path with
  | none => .aborts
  | some p => if limits.url ≤ path.length then .overruns else .writes p

/-- Source: `ul_url.cpp` `ul_normalize_path_ex`. -/
def ulNormalizePathEx (path : Bytes) : Option Bytes :=
  if path.head? = some 47 ∧ path.length < limitsEx.url then some (normalizePath path) else none

/-- Source: `ul_url.cpp` `ul_normalize_path_ex2`. -/
def ulNormalizePathEx2 (path : Bytes) : Option Bytes :=
  if path.head? = some 47 ∧ path.length < limitsEx2.url then some (normalizePath path) else none

/-! ## The loop -/

/-- Within a name the loop copies. -/
theorem normLoop_push {out s : Bytes} (hout : out.head? ≠ some 47) (hs : 47 ∉ s) (t : Bytes) :
    normLoop out (s ++ t) = normLoop (s.reverse ++ out) t := by
  induction s generalizing out with
  | nil => rfl
  | cons b s ih =>
      rw [List.mem_cons, not_or] at hs
      rw [List.cons_append, normLoop, if_pos hout, ih _ hs.2, List.reverse_cons, List.append_assoc]
      · rfl
      · rw [List.head?_cons, ne_eq, Option.some.injEq]
        exact Ne.symm hs.1

/-- What is written when `q` is at a `/`, in reverse order, with these names on the stack. -/
def outOf (stack : List Bytes) : Bytes := 47 :: (pathText 47 stack.reverse).reverse

@[simp] theorem outOf_nil : outOf [] = [47] := rfl

@[simp] theorem outOf_cons (s : Bytes) (stack : List Bytes) :
    outOf (s :: stack) = 47 :: (s.reverse ++ outOf stack) := by
  simp [outOf]

/-- Going up takes a name off. -/
theorem upOne_outOf {stack : List Bytes} (h : ∀ s ∈ stack, 47 ∉ s) :
    upOne (outOf stack) = outOf stack.tail := by
  cases stack with
  | nil => rfl
  | cons s stack =>
      have hs : ∀ b ∈ s.reverse, (b != 47) = true := by
        intro b hb
        rw [List.mem_reverse] at hb
        exact bne_iff_ne.mpr (ne_of_mem_of_not_mem hb (h s List.mem_cons_self))
      rw [upOne, if_neg (by simp [outOf]), outOf_cons, List.tail_cons, List.tail_cons,
        List.dropWhile_append_of_pos hs]
      rfl

/-- A name is copied, whatever follows it. -/
theorem normLoop_name {out s t : Bytes} (hout : out.head? = some 47) (hs : 47 ∉ s)
    (hname : IsName 46 s) (ht : ∀ b ∈ t.head?, b = 47) :
    normLoop out (s ++ t) = normLoop (s.reverse ++ out) t := by
  obtain ⟨hnil, hdot, hup⟩ := hname
  obtain ⟨b, s, rfl⟩ := List.exists_cons_of_ne_nil hnil
  rw [List.mem_cons, not_or] at hs
  have hpush : normLoop (b :: out) (s ++ t) = normLoop ((b :: s).reverse ++ out) t := by
    rw [normLoop_push _ hs.2, List.reverse_cons, List.append_assoc]
    · rfl
    · rw [List.head?_cons, ne_eq, Option.some.injEq]
      exact Ne.symm hs.1
  rw [← hpush, List.cons_append, normLoop, if_neg (not_not.mpr hout)]
  -- the name is not `.` or `..`, and what follows it is no part of it
  have hhere : (b :: (s ++ t)).take 2 ≠ [46, 47] := by
    intro h
    rcases s with _ | ⟨c, s⟩
    · rcases t with _ | ⟨c, t⟩ <;> simp_all
    · simp_all
  have hparent : (b :: (s ++ t)).take 3 ≠ [46, 46, 47] := by
    intro h
    rcases s with _ | ⟨c, _ | ⟨d, s⟩⟩
    · rcases t with _ | ⟨c, t⟩ <;> simp_all
    · rcases t with _ | ⟨d, t⟩ <;> simp_all
    · simp_all
  have hone : b :: (s ++ t) ≠ [46] := by
    intro h
    simp_all
  have htwo : b :: (s ++ t) ≠ [46, 46] := by
    intro h
    rcases s with _ | ⟨c, s⟩
    · simp_all
    · simp_all
  rw [if_neg hhere, if_neg hparent, if_neg (Ne.symm hs.1), if_neg hone, if_neg htwo]

/-- What the loop does to a segment with another one behind it. -/
theorem normLoop_segment {stack : List Bytes} (hstack : ∀ s ∈ stack, 47 ∉ s) {s : Bytes}
    (hs : 47 ∉ s) (t : Bytes) :
    normLoop (outOf stack) (s ++ 47 :: t) = normLoop (outOf (push 46 stack s)) t := by
  have hout : (outOf stack).head? = some 47 := rfl
  by_cases hname : IsName 46 s
  · have hhead : (s.reverse ++ outOf stack).head? ≠ some 47 := by
      obtain ⟨b, r, hr⟩ := List.exists_cons_of_ne_nil (List.reverse_ne_nil_iff.mpr hname.1)
      have hb : b ∈ s := List.mem_reverse.mp (hr ▸ List.mem_cons_self)
      rw [hr, List.cons_append, List.head?_cons, ne_eq, Option.some.injEq]
      exact ne_of_mem_of_not_mem hb hs
    rw [normLoop_name hout hs hname (by simp), push_of_isName hname, outOf_cons, normLoop,
      if_pos hhead]
  · unfold IsName at hname
    have hcases : s = [] ∨ s = [46] ∨ s = [46, 46] := by tauto
    rcases hcases with rfl | rfl | rfl
    · rw [List.nil_append, normLoop, if_neg (not_not.mpr hout)]
      simp [push, IsName]
    · rw [List.singleton_append, normLoop, if_neg (not_not.mpr hout)]
      simp [push, IsName]
    · rw [List.cons_append, normLoop, if_neg (not_not.mpr hout)]
      simp [push, IsName, upOne_outOf hstack]

/-- What the loop does to the last segment. -/
theorem normLoop_last {stack : List Bytes} (hstack : ∀ s ∈ stack, 47 ∉ s) {s : Bytes}
    (hs : 47 ∉ s) : (normLoop (outOf stack) s).reverse =
      pathText 47 ((push 46 stack s).reverse ++ trail 46 [s]) := by
  have hout : (outOf stack).head? = some 47 := rfl
  have hreverse : ∀ st : List Bytes, (outOf st).reverse = pathText 47 (st.reverse ++ [[]]) := by
    intro st
    simp [outOf]
  by_cases hname : IsName 46 s
  · have h := normLoop_name (t := []) hout hs hname (by simp)
    rw [List.append_nil, normLoop] at h
    rw [h, push_of_isName hname, trail, List.getLastD_cons, List.getLastD_nil, if_pos hname,
      List.append_nil, List.reverse_append, List.reverse_reverse, hreverse]
    simp
  · have htrail : trail 46 [s] = [[]] := by
      rw [trail, List.getLastD_cons, List.getLastD_nil, if_neg hname]
    unfold IsName at hname
    have hcases : s = [] ∨ s = [46] ∨ s = [46, 46] := by tauto
    rw [htrail, ← hreverse]
    rcases hcases with rfl | rfl | rfl
    · rw [normLoop]
      rfl
    · rw [normLoop, if_neg (not_not.mpr hout)]
      simp [push, IsName, normLoop]
    · rw [normLoop, if_neg (not_not.mpr hout)]
      simp [push, IsName, normLoop, upOne_outOf hstack]

/-- **The loop keeps a stack of names.** -/
theorem normLoop_pathText {segs : List Bytes} (hne : segs ≠ []) (hsegs : ∀ s ∈ segs, 47 ∉ s)
    {stack : List Bytes} (hstack : ∀ s ∈ stack, 47 ∉ s) :
    (normLoop (outOf stack) ([47].intercalate segs)).reverse =
      pathText 47 ((segs.foldl (push 46) stack).reverse ++ trail 46 segs) := by
  induction segs generalizing stack with
  | nil => exact absurd rfl hne
  | cons s segs ih =>
      rw [List.forall_mem_cons] at hsegs
      cases segs with
      | nil => rw [List.intercalate_singleton, normLoop_last hstack hsegs.1]; rfl
      | cons s' segs =>
          have hpush : ∀ t ∈ push 46 stack s, 47 ∉ t := by
            intro t ht
            rcases mem_push ht with ht | ⟨rfl, -⟩
            · exact hstack t ht
            · exact hsegs.1
          have htext : [47].intercalate (s :: s' :: segs) =
              s ++ 47 :: [47].intercalate (s' :: segs) := by
            rw [List.intercalate_cons_cons]
            simp
          rw [htext, normLoop_segment hstack hsegs.1,
            ih (List.cons_ne_nil s' segs) hsegs.2 hpush, List.foldl_cons]
          rfl

/-- The loop over all the segments of a path. -/
theorem normLoop_root (s : Bytes) : (normLoop [47] s).reverse = pathText 47 (cleanSegs 46 (s.splitOn 47)) := by
  have hempty : ∀ s ∈ ([] : List Bytes), 47 ∉ s := by simp
  have hsegs : ∀ t ∈ s.splitOn 47, 47 ∉ t := fun t ht => not_mem_split ht
  have hloop := normLoop_pathText (List.splitOn_ne_nil 47 s) hsegs hempty
  rw [List.intercalate_splitOn] at hloop
  exact hloop

/-! ## The result -/

/-- The segments of a path, without its parameters and its query. -/
def segments (path : Bytes) : List Bytes :=
  (((path.take (pathEnd path)).map toSlash).drop 1).splitOn 47

theorem pathEnd_le (path : Bytes) : pathEnd path ≤ path.length := by
  unfold pathEnd
  cases hquery : strchr path 63 with
  | some i => exact (strchr_lt hquery).le
  | none =>
      cases hparam : strchr path 59 with
      | some i => exact (strchr_lt hparam).le
      | none => exact Nat.le_refl _

/-- Turning `\` into `/` keeps the end of the segments. -/
theorem pathEnd_replaceSlash (path : Bytes) : pathEnd (replaceSlash path) = pathEnd path := by
  have hfind : ∀ (k : ℕ) (c : UInt8), c = 63 ∨ c = 59 →
      strchr ((path.take k).map toSlash ++ path.drop k) c = strchr path c := by
    intro k c hc
    have hcomp : (fun b => b == c) ∘ toSlash = fun b => b == c := by
      funext b
      rw [Function.comp_apply, toSlash]
      split_ifs with hb
      · subst hb
        rcases hc with rfl | rfl <;> rfl
      · rfl
    rw [strchr, strchr, List.findIdx?_append, List.findIdx?_map, hcomp]
    conv_rhs => rw [← List.take_append_drop k path, List.findIdx?_append]
    rw [List.length_map]
  have hlen : (replaceSlash path).length = path.length := by
    rw [replaceSlash, List.length_append, List.length_map, ← List.length_append,
      List.take_append_drop]
  rw [pathEnd, hlen, replaceSlash, hfind _ 63 (Or.inl rfl), hfind _ 59 (Or.inr rfl), pathEnd]

/-- The segments of the copy, with `\` turned into `/`, and what stands behind them. -/
theorem replaceSlash_cut (path : Bytes) :
    (replaceSlash path).take (pathEnd path) = (path.take (pathEnd path)).map toSlash ∧
      (replaceSlash path).drop (pathEnd path) = path.drop (pathEnd path) := by
  have hend : (((path.take (pathEnd path)).map toSlash)).length = pathEnd path := by
    rw [List.length_map, List.length_take, Nat.min_eq_left (pathEnd_le path)]
  constructor
  · rw [replaceSlash, List.take_append_of_le_length hend.ge, List.take_of_length_le hend.le]
  · rw [replaceSlash, List.drop_append_of_le_length hend.ge, List.drop_of_length_le hend.le,
      List.nil_append]

/-- **What a path becomes**: its names behind one another, and its parameters and its query. -/
theorem normalizePath_eq (path : Bytes) : normalizePath path =
    pathText 47 (cleanSegs 46 (segments path)) ++ path.drop (pathEnd path) := by
  obtain ⟨htake, hdrop⟩ := replaceSlash_cut path
  rw [normalizePath, pathEnd_replaceSlash, htake, hdrop, normLoop_root]
  rfl

/-- Where the segments end. -/
theorem pathEnd_append {body suffix : Bytes} (h : Ends 63 59 body suffix) :
    pathEnd (body ++ suffix) = body.length := by
  obtain ⟨hbody, hquery | ⟨hquery, hparam, hhead⟩⟩ := h
  · obtain ⟨t, rfl⟩ := List.head?_eq_some_iff.mp hquery
    rw [pathEnd, strchr_append hbody, strchr_cons_self, Option.map_some, Nat.zero_add,
      Option.getD_some]
  · have hnone : strchr (body ++ suffix) 63 = none :=
      strchr_of_not_mem (by rw [List.mem_append, not_or]; exact ⟨hbody, hquery⟩)
    rw [pathEnd, hnone, Option.getD_none, strchr_append hparam]
    cases suffix with
    | nil => simp [strchr]
    | cons b t =>
        rw [hhead b rfl, strchr_cons_self, Option.map_some, Nat.zero_add, Option.getD_some]

/-- **What a path becomes**: its names behind one another, and its parameters and its query. -/
theorem normalizePath_append {body suffix : Bytes} (h : Ends 63 59 (47 :: body) suffix) :
    normalizePath (47 :: body ++ suffix) =
      pathText 47 (cleanSegs 46 ((body.map toSlash).splitOn 47)) ++ suffix := by
  rw [normalizePath_eq, segments, pathEnd_append h, List.take_left, List.drop_left]
  rfl

/-- The path begins with a segment. -/
theorem ends_cons {path : Bytes} (h : path.head? = some 47) :
    ∃ body suffix, path = 47 :: body ++ suffix ∧ Ends 63 59 (47 :: body) suffix := by
  obtain ⟨body, suffix, rfl, hends⟩ := exists_ends 63 59 path
  cases body with
  | nil =>
      rw [List.nil_append] at h
      rcases hends.rest with hhead | ⟨-, -, hhead⟩
      · rw [h] at hhead
        exact absurd hhead (by decide)
      · exact absurd (hhead 47 h) (by decide)
  | cons b body =>
      cases h
      exact ⟨body, suffix, rfl, hends⟩

/-- **A path that is resolved stays as it is.** -/
theorem normalizePath_normalizePath {path : Bytes} (h : path.head? = some 47) :
    normalizePath (normalizePath path) = normalizePath path := by
  obtain ⟨body, suffix, rfl, hends⟩ := ends_cons h
  have hsegs : ∀ s ∈ cleanSegs 46 ((body.map toSlash).splitOn 47), ∀ b ∈ s,
      b ≠ 47 ∧ ∃ c ∈ body, toSlash c = b := by
    intro s hs b hb
    rcases mem_cleanSegs hs with ⟨hs, -⟩ | rfl
    · exact ⟨ne_of_mem_of_not_mem hb (not_mem_split hs),
        List.mem_map.mp (mem_of_mem_split hs hb)⟩
    · exact absurd hb List.not_mem_nil
  have hne := cleanSegs_ne_nil 46 ((body.map toSlash).splitOn 47)
  have hclean : cleanSegs 46 (cleanSegs 46 ((body.map toSlash).splitOn 47)) =
      cleanSegs 46 ((body.map toSlash).splitOn 47) := cleanSegs_cleanSegs _
  rw [normalizePath_append hends]
  generalize cleanSegs 46 ((body.map toSlash).splitOn 47) = segs at hsegs hne hclean
  -- the names have no `?`, no `\`, and no `;` if that ends the segments
  have htext : pathText 47 segs = 47 :: (pathText 47 segs).tail := by
    rw [pathText_eq 47 hne, List.tail_cons]
  have hchar : ∀ b ∈ (pathText 47 segs).tail, b = 47 ∨ (b ≠ 47 ∧ ∃ c ∈ body, toSlash c = b) := by
    intro b hb
    obtain ⟨s, hs, hb⟩ := List.mem_flatMap.mp (List.mem_of_mem_tail hb)
    exact (List.mem_cons.mp hb).imp_right (hsegs s hs b)
  have hslash : (pathText 47 segs).tail.map toSlash = (pathText 47 segs).tail := by
    refine (List.map_congr_left fun b hb => ?_).trans (List.map_id _)
    rcases hchar b hb with rfl | ⟨hb, c, -, rfl⟩
    · rfl
    · have hc : c ≠ 92 := by
        rintro rfl
        exact hb rfl
      simp [toSlash, hc]
  have hfree : ∀ c : UInt8, c = 63 ∨ c = 59 → c ∉ 47 :: body →
      c ∉ 47 :: (pathText 47 segs).tail := by
    intro c hc hbody hmem
    rcases List.mem_cons.mp hmem with rfl | hmem
    · exact hbody List.mem_cons_self
    rcases hchar c hmem with rfl | ⟨hne, d, hd, hdc⟩
    · exact hbody List.mem_cons_self
    · unfold toSlash at hdc
      split_ifs at hdc
      · exact hne hdc.symm
      · exact hbody (List.mem_cons_of_mem _ (hdc ▸ hd))
  have hends' : Ends 63 59 (47 :: (pathText 47 segs).tail) suffix := by
    refine ⟨hfree 63 (Or.inl rfl) hends.body_query, hends.rest.imp_right fun hrest => ?_⟩
    exact ⟨hrest.1, hfree 59 (Or.inr rfl) hrest.2.1, hrest.2.2⟩
  have hsplit := splitOn_pathText hne fun s hs hmem => (hsegs s hs 47 hmem).1 rfl
  calc normalizePath (pathText 47 segs ++ suffix)
      = normalizePath (47 :: (pathText 47 segs).tail ++ suffix) := by rw [← htext]
    _ = pathText 47 segs ++ suffix := by
        rw [normalizePath_append hends', hslash, hsplit, hclean]

/-- **Resolving makes no path longer.** -/
theorem length_normalizePath_le {path : Bytes} (h : path.head? = some 47) :
    (normalizePath path).length ≤ path.length := by
  obtain ⟨body, suffix, rfl, hends⟩ := ends_cons h
  have hclean := length_pathText_cleanSegs 46 47
    (List.splitOn_ne_nil 47 (body.map toSlash))
  rw [← pathText_split, List.length_cons, List.length_map] at hclean
  rw [normalizePath_append hends, List.length_append, List.length_append, List.length_cons]
  omega

/-- The characters of the path that comes out. -/
theorem mem_normalizePath {path : Bytes} {b : UInt8} (h : b ∈ normalizePath path) :
    b = 47 ∨ b ∈ path := by
  rw [normalizePath_eq, List.mem_append] at h
  rcases h with h | h
  · rcases mem_pathText_cleanSegs h with rfl | hbody
    · exact Or.inl rfl
    obtain ⟨c, hc, rfl⟩ := List.mem_map.mp (List.mem_of_mem_drop hbody)
    unfold toSlash
    split_ifs
    · exact Or.inl rfl
    · exact Or.inr (List.mem_of_mem_take hc)
  · exact Or.inr (List.mem_of_mem_drop h)

/-- The path that comes out begins with `/`. -/
theorem normalizePath_head (path : Bytes) : (normalizePath path).head? = some 47 := by
  obtain ⟨s, segs, hsegs⟩ := List.exists_cons_of_ne_nil (cleanSegs_ne_nil 46 (segments path))
  rw [normalizePath_eq, hsegs]
  rfl

/-! ## The stack of names -/

/-- What a path is to become: its names, from the stack on which `..` takes the last one away, with a `/` at the
end unless the last segment is a name, and the parameters and the query. -/
def resolvePath (path : Bytes) : Bytes :=
  let segs := ((path.take (pathEnd path)).map toSlash).splitOn 47
  let names := (segs.foldl (push 46) []).reverse
  names.flatMap (47 :: ·) ++ (if IsName 46 (segs.getLastD []) then [] else [47]) ++ path.drop (pathEnd path)

theorem normalizePath_eq_resolvePath {path : Bytes} (h : path.head? = some 47) :
    normalizePath path = resolvePath path := by
  obtain ⟨body, suffix, rfl, hends⟩ := ends_cons h
  have hsegs : ((47 :: body).map toSlash).splitOn 47 = [] :: (body.map toSlash).splitOn 47 := by
    rw [List.map_cons, List.splitOn_cons_eq_if_modifyHead]
    exact if_pos rfl
  have hroot : push 46 [] ([] : Bytes) = [] := by simp [push, IsName]
  rw [normalizePath_append hends, resolvePath, pathEnd_append hends, List.take_left, List.drop_left, hsegs]
  simp only [List.foldl_cons, hroot, List.getLastD_cons]
  rw [cleanSegs, pathText_append, trail]
  by_cases hlast : IsName 46 (((body.map toSlash).splitOn 47).getLastD [])
  · rw [if_pos hlast, if_pos hlast]
    rfl
  · rw [if_neg hlast, if_neg hlast]
    rfl

/-- **A call keeps a stack of names** exactly when the path begins with `/` and fits into the array; the path
that is written begins with `/`, is not longer, and stays as it is. -/
theorem normalizePathCall_iff (path : Bytes) :
    (normalizePathCall path = .writes (resolvePath path) ∧ (resolvePath path).head? = some 47 ∧
        (resolvePath path).length ≤ path.length ∧
        normalizePathCall (resolvePath path) = .writes (resolvePath path)) ↔
      path.head? = some 47 ∧ path.length < limits.url := by
  constructor
  · rintro ⟨hcall, -⟩
    unfold normalizePathCall ulNormalizePath at hcall
    split_ifs at hcall with hhead hlen
    exact ⟨hhead, Nat.not_le.mp hlen⟩
  · rintro ⟨hhead, hlen⟩
    have hcall : ∀ p : Bytes, p.head? = some 47 → p.length < limits.url →
        normalizePathCall p = .writes (normalizePath p) := by
      intro p hp hplen
      rw [normalizePathCall, ulNormalizePath, if_pos hp]
      exact if_neg (Nat.not_le.mpr hplen)
    have hle := length_normalizePath_le hhead
    rw [← normalizePath_eq_resolvePath hhead]
    refine ⟨hcall path hhead hlen, normalizePath_head path, hle, ?_⟩
    rw [hcall _ (normalizePath_head path) (hle.trans_lt hlen), normalizePath_normalizePath hhead]

/-- A path without a `/` in front is not accepted, and one of 256 bytes is too long for the array. -/
theorem normalizePathCall_refused :
    normalizePathCall (ascii "a/../b") = .aborts ∧
      normalizePathCall (47 :: List.replicate 255 97) = .overruns ∧
      ¬ ∀ path, normalizePathCall path = .writes (resolvePath path) := by
  have haborts : normalizePathCall (ascii "a/../b") = .aborts := by decide
  have hoverruns : normalizePathCall (47 :: List.replicate 255 97) = .overruns := by
    have hlen : limits.url ≤ (47 :: List.replicate 255 (97 : UInt8)).length := by
      rw [List.length_cons, List.length_replicate]
      exact Nat.le_refl 256
    rw [normalizePathCall, ulNormalizePath, if_pos List.head?_cons]
    exact if_pos hlen
  refine ⟨haborts, hoverruns, fun h => ?_⟩
  cases haborts.symm.trans (h _)

end Asenal.Url
