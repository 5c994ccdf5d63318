import Asenal.Url.NormalizePath

/-!
# Paths with links in them

`ul_normalize_path_vhplink` resolves the segments of a path like `ul_normalize_path`, but keeps each `http://`
that is in the path, and makes its last slash the root for what follows: `..` does not go above it. Only the `..`
that ends a path looks at the root of the path instead.

* `vhLoop_link` — a link is copied, and becomes the root for what is behind it.
* `vhLoop_eq_normLoop` — behind a link the loop is that of `ul_normalize_path`.
* `cutAtLinks_cases` — the path, cut between the two slashes of each link.
* `ulNormalizePathVhplink_link` — what any path becomes: its pieces are resolved one by one.
-/

namespace Asenal.Url

open Asenal.Lib.Text Asenal.Lib.CString Asenal.Lib.Segments

/-! ## The function -/

/-- `p-6 >= tmp` and `strncasecmp(p-6, "http://", 7) == 0`: the copy up to `*p`, in reverse order, ends in a
link. -/
def endsInLink (done : Bytes) : Bool := 7 ≤ done.length && (done.take 7).reverse.map toLower == scheme

/-- `q` goes back to the `/` in front, unless it is at the root, which is the last of `root` bytes. -/
def upTo (root : ℕ) (out : Bytes) : Bytes :=
  if out.length = root then out else out.tail.dropWhile (· != 47)

/-- The loop of `ul_normalize_path_vhplink`: `cur_root` is the last of the first `root` bytes that are written,
what is written is `out`, and what has been read of the copy is `done`, both in reverse order. -/
def vhLoop (root : ℕ) (out done : Bytes) : Bytes → Bytes
  | [] => out
  | b :: p =>
      if out.head? ≠ some 47 then vhLoop root (b :: out) (b :: done) p
      else if (b :: p).take 2 = [46, 47] then vhLoop root out (47 :: 46 :: done) (p.drop 1)
      else if (b :: p).take 3 = [46, 46, 47] then
        vhLoop root (upTo root out) (47 :: 46 :: 46 :: done) (p.drop 2)
      else if b = 47 then
        if endsInLink (b :: done) then vhLoop (out.length + 1) (b :: out) (b :: done) p
        else vhLoop root out (b :: done) p
      else if b :: p = [46] then vhLoop root out (b :: done) p
      -- the root that is looked at here is that of the path
      else if b :: p = [46, 46] then vhLoop root (upTo 1 out) (46 :: b :: done) (p.drop 1)
      else vhLoop root (b :: out) (b :: done) p
termination_by p => p.length

/-- Source: `ul_url.cpp` `ul_normalize_path_vhplink`. -/
def ulNormalizePathVhplink (path : Bytes) : PathCall :=
  if path.head? ≠ some 47 then .aborts
  else if limits.url ≤ path.length then .overruns
  else
    let tmp := replaceSlash path
    let pend := pathEnd tmp
    .writes ((vhLoop 1 [47] [47] ((tmp.take pend).drop 1)).reverse ++ tmp.drop pend)

example : ulNormalizePathVhplink (ascii "/a/./K~http://./../../b?c") = .writes (ascii "/a/K~http://b?c") := by
  decide +kernel

/-! ## The steps of the loop -/

section steps

variable {root : ℕ} {out done p : Bytes} {b : UInt8}

/-- Within a name the loop copies. -/
theorem vhLoop_push (h : out.head? ≠ some 47) :
    vhLoop root out done (b :: p) = vhLoop root (b :: out) (b :: done) p := by
  rw [vhLoop, if_pos h]

variable (h : out.head? = some 47)
include h

/-- A segment `.` is left out. -/
theorem vhLoop_here : vhLoop root out done (46 :: 47 :: p) = vhLoop root out (47 :: 46 :: done) p := by
  rw [vhLoop, if_neg (not_not.mpr h), if_pos (by simp)]
  rfl

/-- A segment `..` leads back to its parent. -/
theorem vhLoop_parent :
    vhLoop root out done (46 :: 46 :: 47 :: p) = vhLoop root (upTo root out) (47 :: 46 :: 46 :: done) p := by
  rw [vhLoop, if_neg (not_not.mpr h), if_neg (by simp), if_pos (by simp)]
  rfl

/-- A slash that ends a link begins a new root. -/
theorem vhLoop_slash : vhLoop root out done (47 :: p) =
    if endsInLink (47 :: done) then vhLoop (out.length + 1) (47 :: out) (47 :: done) p
    else vhLoop root out (47 :: done) p := by
  rw [vhLoop, if_neg (not_not.mpr h), if_neg (by simp), if_neg (by simp), if_pos rfl]

/-- The first character of a name is copied. -/
theorem vhLoop_name (hb : b ≠ 47) (hhere : (b :: p).take 2 ≠ [46, 47]) (hparent : (b :: p).take 3 ≠ [46, 46, 47])
    (hone : b :: p ≠ [46]) (htwo : b :: p ≠ [46, 46]) :
    vhLoop root out done (b :: p) = vhLoop root (b :: out) (b :: done) p := by
  rw [vhLoop, if_neg (not_not.mpr h), if_neg hhere, if_neg hparent, if_neg hb, if_neg hone, if_neg htwo]

/-- A `.` at the end is left out. -/
theorem vhLoop_dot : vhLoop root out done [46] = out := by
  rw [vhLoop, if_neg (not_not.mpr h), if_neg (by simp), if_neg (by simp), if_neg (by simp), if_pos rfl, vhLoop]

/-- A `..` at the end leads back beyond the root of a link. -/
theorem vhLoop_dots : vhLoop root out done [46, 46] = upTo 1 out := by
  rw [vhLoop, if_neg (not_not.mpr h), if_neg (by simp), if_neg (by simp), if_neg (by simp), if_neg (by simp),
    if_pos rfl]
  exact vhLoop.eq_1 ..

end steps

/-! ## Links -/

variable {root : ℕ} {out done : Bytes}

/-- Characters that are neither `.` nor `/` are copied. -/
theorem vhLoop_letters {s : Bytes} (h : ∀ b ∈ s, b ≠ 46 ∧ b ≠ 47) (p : Bytes) :
    vhLoop root out done (s ++ p) = vhLoop root (s.reverse ++ out) (s.reverse ++ done) p := by
  induction s generalizing out done with
  | nil => rfl
  | cons b s ih =>
      rw [List.forall_mem_cons] at h
      have hstep : vhLoop root out done (b :: (s ++ p)) = vhLoop root (b :: out) (b :: done) (s ++ p) := by
        by_cases hout : out.head? = some 47
        · exact vhLoop_name hout h.1.2 (by simp [h.1.1]) (by simp [h.1.1]) (by simp [h.1.1]) (by simp [h.1.1])
        · exact vhLoop_push hout
      rw [List.cons_append, hstep, ih h.2, List.reverse_cons, List.append_assoc, List.append_assoc]
      rfl

/-- In front of a word only whole segments are `.` and `..`. -/
theorem not_dots_word {w : Bytes} (hw : ∀ b ∈ w, b ≠ 46 ∧ b ≠ 47) (hne : w ≠ []) (b : UInt8) (a p : Bytes) :
    b :: (a ++ w ++ p) ≠ [46] ∧ b :: (a ++ w ++ p) ≠ [46, 46] ∧
      ((b :: (a ++ w ++ p)).take 2 = [46, 47] → ∃ t, b :: a = 46 :: 47 :: t) ∧
      ((b :: (a ++ w ++ p)).take 3 = [46, 46, 47] → ∃ t, b :: a = 46 :: 46 :: 47 :: t) := by
  obtain ⟨l, s, rfl⟩ := List.exists_cons_of_ne_nil hne
  obtain ⟨hdot, hslash⟩ := hw l List.mem_cons_self
  refine ⟨?_, ?_, ?_, ?_⟩
  · intro htext
    simp at htext
  · intro htext
    rcases a with _ | ⟨c, a⟩
    · simp [hdot] at htext
    · simp at htext
  · intro htake
    rcases a with _ | ⟨c, a⟩
    · simp [hslash] at htake
    · simp at htake
      simp [htake]
  · intro htake
    rcases a with _ | ⟨c, _ | ⟨d, a⟩⟩
    · simp [hdot] at htake
    · simp [hslash] at htake
    · simp at htake
      simp [htake]

/-- **A word behind other segments**: they are resolved without what is behind the word. -/
theorem vhLoop_word {w : Bytes} (hw : ∀ b ∈ w, b ≠ 46 ∧ b ≠ 47) (hne : w ≠ []) (root : ℕ) (out done a : Bytes) :
    ∃ root' front, ∀ p, vhLoop root out done (a ++ w ++ p) =
      vhLoop root' (w.reverse ++ front) (w.reverse ++ (a.reverse ++ done)) p := by
  induction hlen : a.length using Nat.strongRecOn generalizing a root out done with
  | ind n ih =>
      -- what has been read of the segments is `c`, and `t` is left
      have hlift : ∀ (c t : Bytes) (root' : ℕ) (out' : Bytes), a = c ++ t → c ≠ [] →
          (∀ p, vhLoop root out done (a ++ w ++ p) = vhLoop root' out' (c.reverse ++ done) (t ++ w ++ p)) →
          ∃ root' front, ∀ p, vhLoop root out done (a ++ w ++ p) =
            vhLoop root' (w.reverse ++ front) (w.reverse ++ (a.reverse ++ done)) p := by
        intro c t root' out' ha hc hstep
        have hpos := List.length_pos_of_ne_nil hc
        have hlen' := congrArg List.length ha
        rw [List.length_append] at hlen'
        obtain ⟨root'', front, hloop⟩ := ih t.length (by omega) root' out' (c.reverse ++ done) t rfl
        refine ⟨root'', front, fun p => ?_⟩
        rw [hstep, hloop, ha, List.reverse_append, List.append_assoc]
      rcases a with _ | ⟨b, a⟩
      · exact ⟨root, out, vhLoop_letters hw⟩
      by_cases hout : out.head? = some 47
      · by_cases hhere : ∃ t, b :: a = 46 :: 47 :: t
        · obtain ⟨t, ht⟩ := hhere
          rw [ht] at hlift ⊢
          exact hlift [46, 47] t root out rfl (by simp) fun p => vhLoop_here hout
        by_cases hparent : ∃ t, b :: a = 46 :: 46 :: 47 :: t
        · obtain ⟨t, ht⟩ := hparent
          rw [ht] at hlift ⊢
          exact hlift [46, 46, 47] t root (upTo root out) rfl (by simp) fun p => vhLoop_parent hout
        by_cases hb : b = 47
        · subst hb
          by_cases hends : endsInLink (47 :: done) = true
          · apply hlift [47] a (out.length + 1) (47 :: out) rfl (by simp)
            intro p
            exact (vhLoop_slash hout).trans (if_pos hends)
          · apply hlift [47] a root out rfl (by simp)
            intro p
            exact (vhLoop_slash hout).trans (if_neg hends)
        · apply hlift [b] a root (b :: out) rfl (by simp)
          intro p
          -- `.` and `..` in front of the word are the beginning of a name
          obtain ⟨hone, htwo, htake, hthree⟩ := not_dots_word hw hne b a p
          exact vhLoop_name hout hb (fun heq => hhere (htake heq)) (fun heq => hparent (hthree heq)) hone htwo
      · exact hlift [b] a root (b :: out) rfl (by simp) fun p => vhLoop_push hout

/-- A link is a word with two slashes. -/
theorem IsScheme.word {link : Bytes} (h : IsScheme link) : ∃ w, link = w ++ [47, 47] ∧ w ≠ [] ∧
    w.length = 5 ∧ ∀ b ∈ w, b ≠ 46 ∧ b ≠ 47 := by
  obtain ⟨letters, hlink, hlen, hletters⟩ := h.split
  refine ⟨letters ++ [58], by rw [hlink, List.append_assoc]; rfl, by simp, by simp [hlen], ?_⟩
  intro b hb
  rcases List.mem_append.mp hb with hb | hb
  · constructor
    · rintro rfl
      exact absurd (hletters 46 hb) (by decide)
    · rintro rfl
      exact absurd (hletters 47 hb) (by decide)
  · rw [List.mem_singleton.mp hb]
    decide

/-- **A link behind other segments** is copied, and becomes the root for what is behind it; without its last slash
it is copied, too. -/
theorem vhLoop_link {link : Bytes} (h : IsScheme link) (root : ℕ) (out done a : Bytes) : ∃ front,
    vhLoop root out done (a ++ link.dropLast) = link.dropLast.reverse ++ front ∧
      ∀ p, vhLoop root out done (a ++ link ++ p) =
        vhLoop (front.length + 7) (link.reverse ++ front) (link.reverse ++ (a.reverse ++ done)) p := by
  obtain ⟨w, hlink, hne, hlen, hw⟩ := h.word
  obtain ⟨root', front, hloop⟩ := vhLoop_word hw hne root out done a
  obtain ⟨b, s, hbs⟩ := List.exists_cons_of_ne_nil (List.reverse_ne_nil_iff.mpr hne)
  have hhead : (w.reverse ++ front).head? ≠ some 47 := by
    have hb : b ∈ w := List.mem_reverse.mp (hbs ▸ List.mem_cons_self)
    rw [hbs, List.cons_append, List.head?_cons, ne_eq, Option.some.injEq]
    exact (hw b hb).2
  have hreverse : link.reverse = 47 :: 47 :: w.reverse := by
    rw [hlink, List.reverse_append]
    rfl
  have hdrop : link.dropLast = w ++ [47] := by
    rw [hlink, List.dropLast_append_of_ne_nil (by simp)]
    rfl
  refine ⟨front, ?_, fun p => ?_⟩
  · have hone := hloop [47]
    rw [vhLoop_push hhead, vhLoop] at hone
    rw [hdrop, ← List.append_assoc, hone, List.reverse_append]
    rfl
  · have hends : endsInLink (47 :: 47 :: (w.reverse ++ (a.reverse ++ done))) = true := by
      have hcons : 47 :: 47 :: (w.reverse ++ (a.reverse ++ done)) = link.reverse ++ (a.reverse ++ done) := by
        rw [hreverse]
        rfl
      have htake : (link.reverse ++ (a.reverse ++ done)).take 7 = link.reverse :=
        List.take_left' (by rw [List.length_reverse, h.length])
      rw [hcons, endsInLink, htake, List.reverse_reverse, h, List.length_append, List.length_reverse, h.length]
      simp
    have htext : a ++ link ++ p = a ++ w ++ 47 :: 47 :: p := by
      rw [hlink]
      simp
    rw [htext, hloop, vhLoop_push hhead, vhLoop_slash List.head?_cons, if_pos hends, hreverse]
    simp only [List.length_cons, List.length_append, List.length_reverse, hlen, List.cons_append]
    congr 1
    omega

/-! ## Behind a link -/

/-- No link ends in `p`, behind what has been read. -/
def NoLinkIn (done p : Bytes) : Prop := ∀ r, r ≠ [] → r <+: p → endsInLink (r.reverse ++ done) = false

/-- No link ends at the next character, nor behind it. -/
theorem NoLinkIn.cons {b : UInt8} {p : Bytes} (h : NoLinkIn done (b :: p)) :
    endsInLink (b :: done) = false ∧ NoLinkIn (b :: done) p := by
  constructor
  · exact h [b] (by simp) (by simp)
  · intro r _ hr
    have hcons := h (b :: r) (by simp) ((List.prefix_cons_inj b).mpr hr)
    rwa [List.reverse_cons, List.append_assoc] at hcons

/-- A `..` ends the path, and nothing is in front of it that it could take away. -/
def UpAtRoot (out p : Bytes) : Prop :=
  ∃ r, p = r ++ [46, 46] ∧ (∀ b ∈ r.getLast?, b = 47) ∧ normLoop out r = [47]

/-- A step that the loop of `ul_normalize_path` takes in front of a last `..`, too. -/
theorem UpAtRoot.step {out out' c p : Bytes} (h : UpAtRoot out' p) (hc : out' = [47] → ∀ b ∈ c.getLast?, b = 47)
    (hstep : ∀ r, p = r ++ [46, 46] → (∀ b ∈ (c ++ r).getLast?, b = 47) →
      normLoop out (c ++ r) = normLoop out' r) :
    UpAtRoot out (c ++ p) := by
  obtain ⟨r, rfl, hlast, hroot⟩ := h
  have hlast' : ∀ b ∈ (c ++ r).getLast?, b = 47 := by
    intro b hb
    rw [List.getLast?_append] at hb
    cases r with
    | nil =>
        rw [normLoop] at hroot
        exact hc hroot b (by simpa using hb)
    | cons d r =>
        exact hlast b (by simpa [List.getLast?_cons] using hb)
  exact ⟨c ++ r, (List.append_assoc c r _).symm, hlast', (hstep r rfl hlast').trans hroot⟩

/-- Going up stays behind the link. -/
theorem upTo_append {o : Bytes} (hlast : o.getLast? = some 47) (t : Bytes) :
    upTo (t.length + 1) (o ++ t) = upOne o ++ t ∧ (upOne o).getLast? = some 47 := by
  obtain ⟨o, rfl⟩ := List.getLast?_eq_some_iff.mp hlast
  have hback : ∀ s : Bytes, (s ++ [47] ++ t).dropWhile (· != 47) = (s ++ [47]).dropWhile (· != 47) ++ t ∧
      ((s ++ [47]).dropWhile (· != 47)).getLast? = some 47 := by
    intro s
    induction s with
    | nil => exact ⟨rfl, rfl⟩
    | cons b s ih =>
        by_cases hb : b = 47
        · subst hb
          exact ⟨rfl, by simp [List.getLast?_cons]⟩
        · simpa [hb] using ih
  unfold upTo upOne
  cases o with
  | nil =>
      rw [if_pos (by simp), if_pos (by simp)]
      exact ⟨rfl, rfl⟩
  | cons b o =>
      rw [if_neg (by simp; omega), if_neg (by simp)]
      exact hback o

/-- What is written behind a root, with one more character. -/
theorem getLast?_push {o : Bytes} (hlast : o.getLast? = some 47) (b : UInt8) :
    (b :: o).getLast? = some 47 ∧ b :: o ≠ [47] := by
  constructor
  · rw [List.getLast?_cons, hlast]
    rfl
  · intro heq
    cases o with
    | nil => cases hlast
    | cons c o => cases heq

/-- What begins with the characters of a dot segment. -/
theorem eq_of_take {b : UInt8} {p : Bytes} :
    ((b :: p).take 2 = [46, 47] → ∃ q, b :: p = 46 :: 47 :: q) ∧
      ((b :: p).take 3 = [46, 46, 47] → ∃ q, b :: p = 46 :: 46 :: 47 :: q) := by
  constructor
  · intro h
    rcases p with _ | ⟨c, p⟩
    · simp at h
    · exact ⟨p, by simpa using h⟩
  · intro h
    rcases p with _ | ⟨c, _ | ⟨d, p⟩⟩
    · simp at h
    · simp at h
    · exact ⟨p, by simpa using h⟩

/-- **Behind a link the loop is that of `ul_normalize_path`**, and leaves what is in front of it as it is, unless
the path ends in a `..` that has nothing to take away. -/
theorem vhLoop_eq_normLoop {o p : Bytes} (t : Bytes) (hlast : o.getLast? = some 47) (hno : NoLinkIn done p) :
    vhLoop (t.length + 1) (o ++ t) done p = normLoop o p ++ t ∨ (t ≠ [] ∧ UpAtRoot o p) := by
  have hhead : ∀ {o : Bytes}, o.getLast? = some 47 → (o ++ t).head? = o.head? := by
    intro o hlast
    cases o with
    | nil => cases hlast
    | cons b o => rfl
  fun_induction normLoop o p generalizing done with
  | case1 o =>
      rw [vhLoop]
      exact Or.inl rfl
  | case2 o b p hout ih =>
      rw [vhLoop_push (by rwa [hhead hlast])]
      refine (ih (getLast?_push hlast b).1 hno.cons.2).imp_right fun h => ⟨h.1, ?_⟩
      apply h.2.step (c := [b]) (fun heq => absurd heq (getLast?_push hlast b).2)
      intro r _ _
      rw [List.singleton_append, normLoop, if_pos hout]
  | case3 o b p hout hhere ih =>
      rw [not_not] at hout
      obtain ⟨q, hq⟩ := eq_of_take.1 hhere
      obtain ⟨rfl, rfl⟩ := List.cons.inj hq
      rw [vhLoop_here (by rwa [hhead hlast])]
      refine (ih hlast hno.cons.2.cons.2).imp_right fun h => ⟨h.1, ?_⟩
      apply h.2.step (c := [46, 47]) (fun _ => by simp)
      intro r _ _
      rw [List.cons_append, normLoop, if_neg (not_not.mpr hout), if_pos (by simp)]
      rfl
  | case4 o b p hout hhere hparent ih =>
      rw [not_not] at hout
      obtain ⟨q, hq⟩ := eq_of_take.2 hparent
      obtain ⟨rfl, rfl⟩ := List.cons.inj hq
      obtain ⟨hup, hlast'⟩ := upTo_append hlast t
      rw [vhLoop_parent (by rwa [hhead hlast]), hup]
      refine (ih hlast' hno.cons.2.cons.2.cons.2).imp_right fun h => ⟨h.1, ?_⟩
      apply h.2.step (c := [46, 46, 47]) (fun _ => by simp)
      intro r _ _
      rw [List.cons_append, normLoop, if_neg (not_not.mpr hout), if_neg (by simp), if_pos (by simp)]
      rfl
  | case5 o p hout hhere hparent ih =>
      rw [not_not] at hout
      obtain ⟨hends, hno⟩ := hno.cons
      rw [vhLoop_slash (by rwa [hhead hlast]), if_neg (by simp [hends])]
      refine (ih hlast hno).imp_right fun h => ⟨h.1, ?_⟩
      apply h.2.step (c := [47]) (fun _ => by simp)
      intro r _ _
      rw [List.singleton_append, normLoop, if_neg (not_not.mpr hout), if_neg (by simp), if_neg (by simp), if_pos rfl]
  | case6 o b p hout hhere hparent hb hone ih =>
      rw [not_not] at hout
      obtain ⟨rfl, rfl⟩ := List.cons.inj hone
      rw [vhLoop_dot (by rwa [hhead hlast]), normLoop]
      exact Or.inl rfl
  | case7 o b p hout hhere hparent hb hone htwo ih =>
      rw [not_not] at hout
      obtain ⟨rfl, rfl⟩ := List.cons.inj htwo
      rw [vhLoop_dots (by rwa [hhead hlast]), List.drop_one, List.tail_cons, normLoop]
      by_cases ht : t = []
      · subst ht
        have hup := (upTo_append hlast []).1
        exact Or.inl hup
      · by_cases hroot : o.length = 1
        · refine Or.inr ⟨ht, [], rfl, by simp, ?_⟩
          obtain ⟨b, rfl⟩ := List.length_eq_one_iff.mp hroot
          rw [normLoop]
          simpa using hlast
        · left
          rw [← (upTo_append hlast t).1, upTo, upTo, if_neg, if_neg]
          · rw [List.length_append]
            omega
          · have hpos := List.length_pos_of_ne_nil ht
            have hpos' : 0 < o.length := List.length_pos_of_ne_nil (fun hnil => by rw [hnil] at hlast; cases hlast)
            rw [List.length_append]
            omega
  | case8 o b p hout hhere hparent hb hone htwo ih =>
      rw [not_not] at hout
      rw [vhLoop_name (by rwa [hhead hlast]) hb hhere hparent hone htwo]
      refine (ih (getLast?_push hlast b).1 hno.cons.2).imp_right fun h => ⟨h.1, ?_⟩
      apply h.2.step (c := [b]) (fun heq => absurd heq (getLast?_push hlast b).2)
      rintro r rfl hr
      -- a `/` ends what is in front of the last `..`, so that the name does not begin with it
      have hlong : ∃ c s, r = c :: s ∧ (s = [] → c = 47) := by
        rcases r with _ | ⟨c, s⟩
        · exact absurd (hr b rfl) hb
        · refine ⟨c, s, rfl, ?_⟩
          rintro rfl
          exact hr c rfl
      obtain ⟨c, s, rfl, hc⟩ := hlong
      have hhere' : (b :: c :: s).take 2 ≠ [46, 47] := hhere
      rw [List.singleton_append, normLoop, if_neg (not_not.mpr hout), if_neg hhere', if_neg, if_neg hb,
        if_neg (by simp), if_neg]
      · intro htext
        simp only [List.cons.injEq] at htext
        exact absurd (hc htext.2.2 ▸ htext.2.1) (by decide)
      · intro htake
        apply hparent
        rcases s with _ | ⟨d, s⟩
        · simp at htake
        · exact htake

/-! ## Paths with links -/

/-- `http://` in a path, in letters of either case and with slashes of either kind. -/
def IsLink (link : Bytes) : Prop := IsScheme (link.map toSlash)

instance (link : Bytes) : Decidable (IsLink link) := inferInstanceAs (Decidable (IsScheme _))

/-- A link has seven characters. -/
theorem length_link {link : Bytes} (h : IsLink link) : link.length = 7 :=
  List.length_map toSlash ▸ IsScheme.length h

/-- There is no link in it. -/
def NoLink (s : Bytes) : Prop := ∀ l, l <:+: s → ¬ IsLink l

/-- No part of the text is a link. -/
theorem noLink_iff (s : Bytes) : NoLink s ↔ ∀ t ∈ s.tails, ¬ IsLink (t.take 7) := by
  constructor
  · intro h t ht
    exact h _ ((List.take_prefix 7 t).isInfix.trans ((List.mem_tails t s).mp ht).isInfix)
  · intro h l hl hlink
    obtain ⟨t, hlt, hts⟩ := List.infix_iff_prefix_suffix.mp hl
    have hlen := IsScheme.length hlink
    rw [List.length_map] at hlen
    apply h t ((List.mem_tails t s).mpr hts)
    rwa [← hlen, ← List.prefix_iff_eq_take.mp hlt]

instance (s : Bytes) : Decidable (NoLink s) := decidable_of_iff _ (noLink_iff s).symm

/-- A link at the end is a scheme. -/
theorem endsInLink_spec {d : Bytes} (h : endsInLink d = true) : ∃ x, x <:+ d.reverse ∧ IsScheme x := by
  rw [endsInLink, Bool.and_eq_true, beq_iff_eq] at h
  refine ⟨(d.take 7).reverse, ?_, h.2⟩
  rw [List.reverse_suffix]
  exact List.take_prefix 7 d

/-- A link in the copy is one in the path. -/
theorem NoLink.map {s x : Bytes} (h : NoLink s) (hx : x <:+: s.map toSlash) : ¬ IsScheme x := by
  obtain ⟨l, hl, rfl⟩ := List.infix_map_iff.mp hx
  exact h l hl

/-- No link ends behind the last one. -/
theorem NoLink.behind {link rest : Bytes} (hlink : IsLink link) (h : NoLink (link.tail ++ rest)) (d : Bytes) :
    NoLinkIn ((link.map toSlash).reverse ++ d) (rest.map toSlash) := by
  intro r hr hprefix
  by_contra hends
  rw [Bool.not_eq_false] at hends
  obtain ⟨x, hx, hscheme⟩ := endsInLink_spec hends
  have hlen := hlink.length
  obtain ⟨b, s, hbs⟩ := List.exists_cons_of_ne_nil (show link.map toSlash ≠ [] from fun hnil => by
    rw [hnil] at hlen
    cases hlen)
  have htail : (link.tail ++ rest).map toSlash = s ++ rest.map toSlash := by
    rw [List.map_append, List.map_tail, hbs, List.tail_cons]
  rw [hbs, List.length_cons] at hlen
  have hpos := List.length_pos_of_ne_nil hr
  -- the link ends behind the first character of the last one, so it begins behind it, too
  have hsuffix : x <:+ s ++ r := by
    refine List.suffix_of_suffix_length_le hx ?_ ?_
    · rw [List.reverse_append, List.reverse_append, List.reverse_reverse, List.reverse_reverse, hbs]
      exact ⟨d.reverse ++ [b], by simp⟩
    · rw [hscheme.length, List.length_append]
      omega
  apply h.map _ hscheme
  rw [htail]
  exact hsuffix.isInfix.trans ((List.prefix_append_right_inj s).mpr hprefix).isInfix

/-- No link ends in front of the first one. -/
theorem NoLink.front {s : Bytes} (h : NoLink s) : NoLinkIn [47] (s.map toSlash) := by
  intro r hr hprefix
  by_contra hends
  rw [Bool.not_eq_false] at hends
  obtain ⟨x, hx, hscheme⟩ := endsInLink_spec hends
  rw [List.reverse_append, List.reverse_reverse, List.reverse_singleton, List.singleton_append] at hx
  rcases List.suffix_cons_iff.mp hx with rfl | hx
  · obtain ⟨w, hlink, hne, -, hw⟩ := hscheme.word
    obtain ⟨l, t, rfl⟩ := List.exists_cons_of_ne_nil hne
    exact (hw l List.mem_cons_self).2 (List.cons.inj hlink).1.symm
  · exact h.map (hx.isInfix.trans hprefix.isInfix) hscheme

/-! ## The pieces of a path -/

/-- A path, cut between the two slashes of each link; `cur` is what stands in front of the place that is looked
at, behind the last cut and in reverse order. -/
def cutAtLinks (cur : Bytes) : Bytes → List Bytes
  | [] => [cur.reverse]
  | b :: p =>
      if toSlash b = 47 ∧ endsInLink (47 :: cur.map toSlash) then cur.reverse :: cutAtLinks [] p
      else cutAtLinks (b :: cur) p

/-- No other character becomes a slash. -/
theorem toLower_eq_slash (b : UInt8) : toLower b = 47 ↔ b = 47 :=
  forall_byte (p := fun b => toLower b = 47 ↔ b = 47) (by decide +kernel) b

/-- A link that ends with a character, behind what is read. -/
theorem endsInLink_cons {b : UInt8} {cur : Bytes} :
    (toSlash b = 47 ∧ endsInLink (47 :: cur.map toSlash) = true) ↔
      6 ≤ cur.length ∧ IsLink ((b :: cur).take 7).reverse := by
  have htake : ((47 :: cur.map toSlash).take 7).reverse.map toLower =
      ((cur.take 6).reverse.map toSlash).map toLower ++ [47] := by
    simp [List.map_take, (toLower_eq_slash 47).mpr rfl]
  have hlink : ((((b :: cur).take 7).reverse).map toSlash).map toLower =
      ((cur.take 6).reverse.map toSlash).map toLower ++ [toLower (toSlash b)] := by
    simp
  have hscheme : scheme = scheme.dropLast ++ [47] := by decide
  rw [endsInLink, Bool.and_eq_true, beq_iff_eq, decide_eq_true_eq, htake, IsLink, IsScheme, hlink, hscheme,
    List.length_cons, List.length_map]
  constructor
  · rintro ⟨hb, hlen, htext⟩
    refine ⟨by omega, ?_⟩
    rw [(toLower_eq_slash _).mpr hb, htext]
  · rintro ⟨hlen, htext⟩
    obtain ⟨htext, hb⟩ := List.append_inj' htext rfl
    exact ⟨(toLower_eq_slash _).mp (List.singleton_inj.mp hb), by omega, by rw [htext]⟩

/-- **Where a path is cut**: nowhere, or between the two slashes of its first link. -/
theorem cutAtLinks_cases {cur : Bytes} (hcur : NoLink cur.reverse) (p : Bytes) :
    (NoLink (cur.reverse ++ p) ∧ cutAtLinks cur p = [cur.reverse ++ p]) ∨
      ∃ a link q, cur.reverse ++ p = a ++ link ++ q ∧ IsLink link ∧ NoLink (a ++ link.dropLast) ∧
        cutAtLinks cur p = (a ++ link.dropLast) :: cutAtLinks [] q := by
  induction p generalizing cur with
  | nil =>
      rw [List.append_nil]
      exact Or.inl ⟨hcur, rfl⟩
  | cons b p ih =>
      rw [cutAtLinks]
      by_cases hcut : toSlash b = 47 ∧ endsInLink (47 :: cur.map toSlash) = true
      · rw [if_pos hcut]
        obtain ⟨hlen, hlink⟩ := endsInLink_cons.mp hcut
        have htake : ((b :: cur).take 7).reverse = (cur.take 6).reverse ++ [b] := by simp
        have hsplit : (cur.drop 6).reverse ++ (cur.take 6).reverse = cur.reverse := by
          rw [← List.reverse_append, List.take_append_drop]
        rw [htake] at hlink
        refine Or.inr ⟨(cur.drop 6).reverse, (cur.take 6).reverse ++ [b], p, ?_, hlink, ?_, ?_⟩
        · rw [← List.append_assoc, hsplit, List.append_assoc]
          rfl
        · rw [List.dropLast_concat, hsplit]
          exact hcur
        · rw [List.dropLast_concat, hsplit]
      · rw [if_neg hcut]
        have hnext : NoLink (b :: cur).reverse := by
          intro l hl hlink
          rw [List.reverse_cons, List.infix_concat_iff] at hl
          rcases hl with hl | hl
          · -- the link would end with this character
            have hlen := IsScheme.length hlink
            rw [List.length_map] at hlen
            have hprefix : l.reverse <+: b :: cur := by
              rw [← List.reverse_suffix, List.reverse_reverse, List.reverse_cons]
              exact hl
            have htake := List.prefix_iff_eq_take.mp hprefix
            rw [List.length_reverse, hlen] at htake
            have hlong := hprefix.length_le
            rw [List.length_reverse, List.length_cons] at hlong
            refine hcut (endsInLink_cons.mpr ⟨by omega, ?_⟩)
            rw [← htake, List.reverse_reverse]
            exact hlink
          · exact hcur l hl hlink
        have hrest := ih hnext
        rw [List.reverse_cons, List.append_assoc, List.singleton_append] at hrest
        exact hrest

/-- No link begins within characters that are no `h`. -/
theorem NoLink.behind_letters {u s : Bytes} (hu : ∀ b ∈ u, toLower (toSlash b) ≠ 104) (h : NoLink s) :
    NoLink (u ++ s) := by
  induction u with
  | nil => exact h
  | cons b u ih =>
      rw [List.forall_mem_cons] at hu
      intro l hl hlink
      rw [List.cons_append, List.infix_cons_iff] at hl
      rcases hl with hl | hl
      · cases l with
        | nil => exact absurd (IsScheme.length hlink) (by decide)
        | cons c l =>
            have hc : c = b := (List.cons_prefix_cons.mp hl).1
            have hfirst : toLower (toSlash c) = 104 := (List.cons.inj hlink).1
            exact hu.1 (hc ▸ hfirst)
      · exact ih hu.2 l hl hlink

/-- No link begins behind the first character of a link. -/
theorem NoLink.behind_tail {link s : Bytes} (hlink : IsLink link) (h : NoLink s) : NoLink (link.tail ++ s) := by
  refine h.behind_letters fun b hb => ?_
  have hmem : toLower (toSlash b) ∈ scheme.tail := by
    have htail : ((link.map toSlash).map toLower).tail = scheme.tail := congrArg List.tail hlink
    rw [← List.map_tail, ← List.map_tail] at htail
    rw [← htail]
    exact List.mem_map_of_mem (List.mem_map_of_mem hb)
  intro heq
  rw [heq] at hmem
  exact absurd hmem (by decide)

/-- What a piece becomes. -/
def resolved (piece : Bytes) : Bytes := (normLoop [47] (piece.map toSlash)).reverse

/-- The path ends in a `..` that stands at the root of a link. -/
def EndsAtLinkRoot (body : Bytes) : Prop :=
  ∃ piece, (cutAtLinks [] body).tail.getLast? = some piece ∧ UpAtRoot [47] (piece.map toSlash)

/-- No piece of a path is missing. -/
theorem cutAtLinks_ne_nil (cur p : Bytes) : cutAtLinks cur p ≠ [] := by
  induction p generalizing cur with
  | nil => exact List.cons_ne_nil _ _
  | cons b p ih =>
      rw [cutAtLinks]
      split_ifs
      · exact List.cons_ne_nil _ _
      · exact ih _

/-- **The loop resolves piece after piece**, behind a root below which `t` is written. -/
theorem vhLoop_pieces (body t done : Bytes) (hdone : ∀ s, NoLink s → NoLinkIn done (s.map toSlash))
    (hup : ∀ piece, (cutAtLinks [] body).getLast? = some piece → (t ≠ [] ∨ 1 < (cutAtLinks [] body).length) →
      ¬ UpAtRoot [47] (piece.map toSlash)) :
    (vhLoop (t.length + 1) (47 :: t) done (body.map toSlash)).reverse =
      t.reverse ++ (cutAtLinks [] body).flatMap resolved := by
  induction hlen : body.length using Nat.strongRecOn generalizing body t done with
  | ind n ih =>
      have hempty : NoLink [] := (noLink_iff []).mpr (by decide)
      rcases @cutAtLinks_cases [] hempty body with ⟨hno, hcut⟩ | ⟨a, link, q, hbody, hlink, hno, hcut⟩
      · -- the last piece
        rw [List.reverse_nil, List.nil_append] at hno hcut
        rw [hcut] at hup ⊢
        have hloop := vhLoop_eq_normLoop (o := [47]) t rfl (hdone body hno)
        have hnot : ¬ (t ≠ [] ∧ UpAtRoot [47] (body.map toSlash)) := fun h => hup body rfl (Or.inl h.1) h.2
        rw [List.singleton_append] at hloop
        rw [hloop.resolve_right hnot, List.reverse_append, List.flatMap_singleton]
        rfl
      · rw [List.reverse_nil, List.nil_append] at hbody
        subst hbody
        obtain ⟨front, hfront, hrest⟩ := vhLoop_link hlink (t.length + 1) (47 :: t) done (a.map toSlash)
        -- what is written of the piece
        have hpiece := vhLoop_eq_normLoop (o := [47]) t rfl (hdone _ hno)
        have hnot : ¬ UpAtRoot [47] ((a ++ link.dropLast).map toSlash) := by
          rintro ⟨r, hr, -⟩
          obtain ⟨w, hw, -⟩ := IsScheme.word hlink
          have hend : (a ++ link.dropLast).map toSlash = a.map toSlash ++ w ++ [47] := by
            rw [List.map_append, List.map_dropLast, hw, List.dropLast_append_of_ne_nil (by simp)]
            simp
          rw [hend] at hr
          have hlast := congrArg List.getLast? hr
          simp at hlast
        rw [List.singleton_append, or_iff_left fun h => hnot h.2, List.map_append, List.map_dropLast] at hpiece
        have hwritten : (link.map toSlash).dropLast.reverse ++ front =
            normLoop [47] ((a ++ link.dropLast).map toSlash) ++ t := by
          rw [← hfront, List.map_append, List.map_dropLast, hpiece]
        have hreverse : (link.map toSlash).reverse = 47 :: (link.map toSlash).dropLast.reverse := by
          obtain ⟨w, hw, -⟩ := IsScheme.word hlink
          rw [hw, List.dropLast_append_of_ne_nil (by simp), List.reverse_append, List.reverse_append]
          rfl
        have hlength : front.length + 7 =
            (normLoop [47] ((a ++ link.dropLast).map toSlash) ++ t).length + 1 := by
          rw [← hwritten, List.length_append, List.length_reverse, List.length_dropLast, IsScheme.length hlink]
          omega
        have hq : q.length < n := by
          rw [← hlen, List.length_append, List.length_append, length_link hlink]
          omega
        have hne := List.length_pos_of_ne_nil (cutAtLinks_ne_nil [] q)
        have hbehind := ih q.length hq q (normLoop [47] ((a ++ link.dropLast).map toSlash) ++ t)
          ((link.map toSlash).reverse ++ ((a.map toSlash).reverse ++ done))
          (fun s hs => (hs.behind_tail hlink).behind hlink _)
          (fun piece hpiece _ => hup piece (by
            rw [hcut, List.getLast?_cons_of_ne_nil (cutAtLinks_ne_nil [] q)]
            exact hpiece) (Or.inr (by
            rw [hcut, List.length_cons]
            omega))) rfl
        rw [List.map_append, List.map_append, hrest, hreverse, List.cons_append, hwritten, hlength, hcut,
          List.flatMap_cons, ← hreverse, hbehind, List.reverse_append, List.append_assoc]
        rfl

section calls

variable {body suffix : Bytes} (h : Ends 63 59 (47 :: body) suffix)
include h

/-- What is written is the result of the loop, with the rest behind it. -/
theorem ulNormalizePathVhplink_eq (hlen : (47 :: body ++ suffix).length < limits.url) :
    ulNormalizePathVhplink (47 :: body ++ suffix) =
      .writes ((vhLoop 1 [47] [47] (body.map toSlash)).reverse ++ suffix) := by
  obtain ⟨htake, hdrop⟩ := replaceSlash_cut (47 :: body ++ suffix)
  rw [ulNormalizePathVhplink, if_neg (by simp), if_neg (Nat.not_le.mpr hlen)]
  dsimp only
  rw [pathEnd_replaceSlash, htake, hdrop, pathEnd_append h, List.take_left, List.drop_left]
  rfl

/-- So it is without links. -/
theorem ulNormalizePath_eq : ulNormalizePath (47 :: body ++ suffix) =
    some ((normLoop [47] (body.map toSlash)).reverse ++ suffix) := by
  obtain ⟨htake, hdrop⟩ := replaceSlash_cut (47 :: body ++ suffix)
  rw [ulNormalizePath, if_pos (by simp), normalizePath, pathEnd_replaceSlash, htake, hdrop,
    pathEnd_append h, List.take_left, List.drop_left]
  rfl

end calls

/-- A piece in front of a cut ends with its link, without the second slash, and so does what it becomes. -/
def LinkStays (piece part : Bytes) : Prop :=
  ∃ a link front : Bytes, IsLink link ∧ piece = a ++ link.dropLast ∧
    part = 47 :: (front ++ (link.map toSlash).dropLast)

/-- Every piece that is resolved begins at its root. -/
theorem resolved_root (piece : Bytes) : ∃ names, resolved piece = 47 :: names := by
  rw [resolved, normLoop_root, pathText_eq 47 (cleanSegs_ne_nil 46 _)]
  exact ⟨_, rfl⟩

/-- The link that a piece ends with stays. -/
theorem linkStays_resolved {a link : Bytes} (hlink : IsLink link) (hno : NoLink (a ++ link.dropLast)) :
    LinkStays (a ++ link.dropLast) (resolved (a ++ link.dropLast)) := by
  obtain ⟨front, hfront, -⟩ := vhLoop_link hlink 1 [47] [47] (a.map toSlash)
  have hloop := (vhLoop_eq_normLoop (o := [47]) [] rfl hno.front).resolve_right fun h => h.1 rfl
  rw [List.append_nil, List.append_nil, List.length_nil, Nat.zero_add, List.map_append, List.map_dropLast,
    hfront, ← List.map_dropLast, ← List.map_append] at hloop
  obtain ⟨names, hnames⟩ := resolved_root (a ++ link.dropLast)
  have hpart : resolved (a ++ link.dropLast) = front.reverse ++ (link.map toSlash).dropLast := by
    rw [resolved, ← hloop, List.reverse_append, List.reverse_reverse, List.map_dropLast]
  -- the root is not part of the link, which begins with a letter
  cases hfirst : front.reverse with
  | nil =>
      rw [hpart, hfirst, List.nil_append] at hnames
      obtain ⟨w, hw, hne, -, hletters⟩ := IsScheme.word hlink
      obtain ⟨b, w, rfl⟩ := List.exists_cons_of_ne_nil hne
      rw [hw, List.dropLast_append_of_ne_nil (by simp)] at hnames
      exact absurd (List.cons.inj hnames).1 (hletters b List.mem_cons_self).2
  | cons c front' =>
      rw [hfirst] at hpart
      rw [hpart, List.cons_append] at hnames
      refine ⟨a, link, front', hlink, rfl, ?_⟩
      rw [hpart, List.cons_append, (List.cons.inj hnames).1]

/-- The links of all pieces but the last stay. -/
theorem linkStays_of_mem (body : Bytes) : ∀ piece ∈ (cutAtLinks [] body).dropLast,
    LinkStays piece (resolved piece) := by
  induction hlen : body.length using Nat.strongRecOn generalizing body with
  | ind n ih =>
      have hempty : NoLink [] := (noLink_iff []).mpr (by decide)
      rcases @cutAtLinks_cases [] hempty body with ⟨-, hcut⟩ | ⟨a, link, q, hbody, hlink, hno, hcut⟩
      · rw [hcut]
        exact fun piece hpiece => absurd hpiece List.not_mem_nil
      · rw [List.reverse_nil, List.nil_append] at hbody
        have hq : q.length < n := by
          rw [← hlen, hbody, List.length_append, List.length_append, length_link hlink]
          omega
        rw [hcut, List.dropLast_cons_of_ne_nil (cutAtLinks_ne_nil [] q), List.forall_mem_cons]
        exact ⟨linkStays_resolved hlink hno, ih q.length hq q rfl⟩

/-- The characters of a piece are characters of the path. -/
theorem mem_of_mem_cutAtLinks {cur p piece : Bytes} (h : piece ∈ cutAtLinks cur p) :
    piece ⊆ cur.reverse ++ p := by
  induction p generalizing cur with
  | nil =>
      rw [List.mem_singleton.mp h, List.append_nil]
      exact List.Subset.refl _
  | cons b p ih =>
      rw [cutAtLinks] at h
      split_ifs at h
      · rcases List.mem_cons.mp h with rfl | h
        · exact List.subset_append_left _ _
        · intro c hc
          exact List.mem_append_right _ (List.mem_cons_of_mem b (ih h hc))
      · have hsub := ih h
        rwa [List.reverse_cons, List.append_assoc] at hsub

/-- **What any path becomes.** It is cut between the two slashes of each link in it, and its pieces are resolved as
`ul_normalize_path` resolves paths of their own, and written one behind the other; the links stay. So nothing behind a
link takes away anything of what is in front of its root. -/
theorem ulNormalizePathVhplink_link {body suffix : Bytes} (hends : Ends 63 59 (47 :: body) suffix)
    (hlen : (47 :: body ++ suffix).length < limits.url) (hup : ¬ EndsAtLinkRoot body) :
    ∃ part : Bytes → Bytes,
      ulNormalizePathVhplink (47 :: body ++ suffix) = .writes ((cutAtLinks [] body).flatMap part ++ suffix) ∧
      (∀ piece ∈ cutAtLinks [] body, ulNormalizePath (47 :: piece ++ suffix) = some (part piece ++ suffix)) ∧
      (∀ piece ∈ cutAtLinks [] body, ∃ names, part piece = 47 :: names) ∧
      ∀ piece ∈ (cutAtLinks [] body).dropLast, LinkStays piece (part piece) := by
  refine ⟨resolved, ?_, fun piece hpiece => ?_, fun piece _ => resolved_root piece, linkStays_of_mem body⟩
  · have hloop := vhLoop_pieces body [] [47] (fun s hs => hs.front) fun piece hpiece hmore hroot => ?_
    · rw [List.length_nil, Nat.zero_add, List.reverse_nil, List.nil_append] at hloop
      rw [ulNormalizePathVhplink_eq hends hlen, hloop]
    · -- there is a link in front of the last piece
      have hlong := hmore.resolve_left fun h => h rfl
      refine hup ⟨piece, ?_, hroot⟩
      obtain ⟨x, l, hl⟩ := List.exists_cons_of_ne_nil (cutAtLinks_ne_nil [] body)
      rw [hl, List.length_cons] at hlong
      rw [hl, List.getLast?_cons_of_ne_nil (List.ne_nil_of_length_pos (by omega))] at hpiece
      rwa [hl]
  · refine ulNormalizePath_eq (hends.subset ?_)
    exact List.cons_subset_cons 47 (mem_of_mem_cutAtLinks hpiece)

/-- Two links, the first one behind a segment that is resolved, and the second one with `..` behind it. -/
theorem ulNormalizePathVhplink_link_site : ∃ part : Bytes → Bytes,
    ulNormalizePathVhplink (47 :: ascii "a/../K~http://b/../c/http://./../../ad/c/.." ++ ascii "?b") =
      .writes ([ascii "a/../K~http:/", ascii "b/../c/http:/", ascii "./../../ad/c/.."].flatMap part ++ ascii "?b") ∧
    ∀ piece ∈ [ascii "a/../K~http:/", ascii "b/../c/http:/", ascii "./../../ad/c/.."],
      ulNormalizePath (47 :: piece ++ ascii "?b") = some (part piece ++ ascii "?b") := by
  have hcut : cutAtLinks [] (ascii "a/../K~http://b/../c/http://./../../ad/c/..") =
      [ascii "a/../K~http:/", ascii "b/../c/http:/", ascii "./../../ad/c/.."] := by decide +kernel
  have hup : ¬ EndsAtLinkRoot (ascii "a/../K~http://b/../c/http://./../../ad/c/..") := by
    rintro ⟨piece, hpiece, r, hr, -, hroot⟩
    rw [hcut] at hpiece
    obtain rfl := Option.some.inj hpiece
    have hsplit : (ascii "./../../ad/c/..").map toSlash = ascii "./../../ad/c/" ++ [46, 46] := by decide +kernel
    rw [← List.append_cancel_right (hsplit.symm.trans hr)] at hroot
    exact absurd hroot (by decide +kernel)
  have hends : Ends 63 59 (47 :: ascii "a/../K~http://b/../c/http://./../../ad/c/..") (ascii "?b") :=
    ⟨by decide +kernel, Or.inl rfl⟩
  obtain ⟨part, hwhole, hpieces, -⟩ := ulNormalizePathVhplink_link hends (by decide +kernel) hup
  rw [hcut] at hwhole hpieces
  exact ⟨part, hwhole, hpieces⟩

/-- The segments in front of a link are resolved. -/
theorem ulNormalizePathVhplink_front :
    ulNormalizePathVhplink (ascii "/a/../http://b") = .writes (ascii "/http://b") ∧
      ¬ ∀ a link rest suffix : Bytes, IsLink link → NoLink (link.tail ++ rest) →
        Ends 63 59 (47 :: (a ++ link ++ rest)) suffix →
        (47 :: (a ++ link ++ rest) ++ suffix).length < limits.url →
        ∃ names, ulNormalizePathVhplink (47 :: (a ++ link ++ rest) ++ suffix) =
          .writes (47 :: (a ++ link) ++ names ++ suffix) := by
  have hcall : ulNormalizePathVhplink (ascii "/a/../http://b") = .writes (ascii "/http://b") := by decide +kernel
  refine ⟨hcall, fun h => ?_⟩
  obtain ⟨names, hnames⟩ := h (ascii "a/../") (ascii "http://") (ascii "b") [] (by decide +kernel)
    (by decide +kernel) ⟨by decide +kernel, Or.inr ⟨by decide, by decide +kernel, by simp⟩⟩ (by decide +kernel)
  have hwrites := congrArg (List.take 2) (PathCall.writes.inj (hcall.symm.trans hnames))
  have htake : (47 :: (ascii "a/../" ++ ascii "http://") ++ names ++ []).take 2 = ascii "/a" := rfl
  rw [htake] at hwrites
  exact absurd hwrites (by decide +kernel)

end Asenal.Url
