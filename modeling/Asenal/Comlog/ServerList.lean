import Asenal.Comlog.Server

/-!
# Blanks in a list of servers

The parser skips blanks in front of a server and one character behind it. Blanks between servers are in
front of the next one; behind the last one there is none, and what is left of the blanks is read as a
server without a port. The index into the text is an `int`, so the part of the list that is read must have
less than `2 ^ 31` characters.

* `svrConfLoop_item` — one server, with the blanks in front of it.
* `svrConfLoop_items` — what is read of a list, and where the index ends.
* `svrConf_blanks_iff` — when a list is returned as it was written.
-/

namespace Asenal.Comlog

open Asenal.Lib.Text Asenal.Lib.Scan

/-! ## Lists as they are written -/

/-- Some blanks. -/
def blanks (n : ℕ) : Bytes := List.replicate n 32

/-- The servers of a list, each with the number of the blanks in front of it. -/
abbrev Items := List (ℕ × Server)

/-- `host:port host:port`. -/
def itemsText (items : Items) : Bytes := items.flatMap fun p => blanks p.1 ++ serverText p.2

/-- Blanks separate the servers. -/
def Separated (items : Items) : Prop := ∀ p ∈ items.tail, 0 < p.1

/-- A server that can be written in a list without paths. -/
structure Listed (s : Server) : Prop where
  host_ne_nil : s.host ≠ []
  host_lt : s.host.length < comMaxHostName
  colon : 58 ∉ s.host
  blank : 32 ∉ s.host
  nul : 0 ∉ s.host
  port_pos : 1 ≤ s.port.toInt
  port_le : s.port.toInt ≤ 65535
  path : s.path = []

theorem Listed.valid {s : Server} (h : Listed s) : Valid s where
  host_lt := h.host_lt
  colon := h.colon
  nul := h.nul
  blank := fun hhead => h.blank (List.mem_of_mem_head? hhead)
  port_pos := h.port_pos

theorem itemsText_cons (n : ℕ) (s : Server) (items : Items) :
    itemsText ((n, s) :: items) = blanks n ++ (serverText s ++ itemsText items) := by
  rw [itemsText, List.flatMap_cons, List.append_assoc]
  rfl

/-! ## What the parser returns -/

variable {siz : ℕ} {rest : Bytes}

/-- Blanks in front of a server are skipped. -/
theorem parseServer_blanks (n : ℕ) (ip : Bytes) : parseServer (blanks n ++ ip) = parseServer ip := by
  have hskip : (blanks n ++ ip).dropWhile (· == 32) = ip.dropWhile (· == 32) :=
    List.dropWhile_append_of_pos fun b hb => beq_iff_eq.mpr (List.eq_of_mem_replicate hb)
  unfold parseServer
  rw [hskip]

/-- Blanks are no server, and they are read to their end to see that, if there is room for one. -/
theorem svrConfLoop_only_blanks (siz n : ℕ) :
    svrConfLoop siz (blanks n) =
      if n = 0 then (some [], []) else if siz = 0 then (some [], blanks n) else (none, []) := by
  cases n with
  | zero => cases siz <;> rfl
  | succ n =>
      cases siz with
      | zero => rfl
      | succ siz =>
          have hnone : parseServer (blanks (n + 1)) = (none, []) := by
            have hskip := parseServer_blanks (n + 1) []
            rw [List.append_nil] at hskip
            rw [hskip]
            rfl
          rw [blanks, List.replicate_succ] at hnone ⊢
          rw [if_neg (by omega), if_neg (by omega), svrConfLoop, hnone]

/-- **One server**, and the blanks in front of it. -/
theorem svrConfLoop_item {s : Server} (h : Listed s) (n : ℕ) (hrest : rest = [] ∨ rest.head? = some 32) :
    svrConfLoop (siz + 1) (blanks n ++ (serverText s ++ rest)) =
      ((svrConfLoop siz rest.tail).1.map (s :: ·), (svrConfLoop siz rest.tail).2) := by
  have hparse : parseServer (blanks n ++ (serverText s ++ rest)) = (some s, rest) := by
    rw [parseServer_blanks, parseServer_serverText h.valid hrest, ← h.path]
  have hne : blanks n ++ (serverText s ++ rest) ≠ [] :=
    List.append_ne_nil_of_right_ne_nil _ (List.append_ne_nil_of_left_ne_nil (serverText_ne_nil s) _)
  obtain ⟨b, ip, hcons⟩ := List.exists_cons_of_ne_nil hne
  rw [hcons] at hparse ⊢
  rw [svrConfLoop, hparse]
  cases rest with
  | nil => cases siz <;> rfl
  | cons c rest => rfl

/-- What stands behind a server. -/
theorem rest_cases {items : Items} (hsep : ∀ p ∈ items.head?, 0 < p.1) (t : ℕ) :
    itemsText items ++ blanks t = [] ∨ (itemsText items ++ blanks t).head? = some 32 := by
  cases items with
  | nil =>
      cases t with
      | zero => exact Or.inl rfl
      | succ t => exact Or.inr rfl
  | cons p items =>
      obtain ⟨n, hn⟩ := Nat.exists_eq_succ_of_ne_zero (Nat.ne_of_gt (hsep p rfl))
      obtain ⟨m, s⟩ := p
      dsimp only at hn
      rw [hn, itemsText_cons]
      exact Or.inr rfl

/-- **What is read** of a list with at least one server. -/
theorem svrConfLoop_items {n : ℕ} {s : Server} {items : Items} (hlisted : ∀ p ∈ (n, s) :: items, Listed p.2)
    (hsep : ∀ p ∈ items, 0 < p.1) (hlen : items.length + 1 ≤ siz) (t : ℕ) :
    svrConfLoop siz (itemsText ((n, s) :: items) ++ blanks t) =
      if t ≤ 1 ∨ items.length + 1 = siz then (some (s :: items.map Prod.snd), blanks (t - 1))
      else (none, []) := by
  induction items generalizing siz n s with
  | nil =>
      obtain ⟨siz, rfl⟩ := Nat.exists_eq_succ_of_ne_zero (show siz ≠ 0 by omega)
      have hend : itemsText [] ++ blanks t = [] ∨ (itemsText [] ++ blanks t).head? = some 32 :=
        @rest_cases [] (fun q hq => absurd hq (Option.not_mem_none q)) t
      have htail : (itemsText [] ++ blanks t).tail = blanks (t - 1) := List.tail_replicate
      rw [itemsText_cons, List.append_assoc, List.append_assoc,
        svrConfLoop_item (hlisted _ List.mem_cons_self) n hend, htail, svrConfLoop_only_blanks, List.length_nil]
      by_cases hone : t ≤ 1
      · rw [if_pos (by omega), if_pos (Or.inl hone), show t - 1 = 0 by omega]
        rfl
      · rw [if_neg (by omega)]
        by_cases hfull : siz = 0
        · rw [if_pos hfull, if_pos (by omega)]
          rfl
        · rw [if_neg hfull, if_neg (by omega)]
          rfl
  | cons p items ih =>
      obtain ⟨n', s'⟩ := p
      obtain ⟨siz, rfl⟩ := Nat.exists_eq_succ_of_ne_zero (show siz ≠ 0 by omega)
      obtain ⟨hs, hrest⟩ := List.forall_mem_cons.mp hlisted
      obtain ⟨hn', hsep'⟩ := List.forall_mem_cons.mp hsep
      obtain ⟨k, rfl⟩ := Nat.exists_eq_succ_of_ne_zero (Nat.ne_of_gt hn')
      -- one of the blanks is skipped behind the server, the others in front of the next one
      have htail : (itemsText ((k + 1, s') :: items) ++ blanks t).tail =
          itemsText ((k, s') :: items) ++ blanks t := by
        rw [itemsText_cons, itemsText_cons]
        rfl
      have hnext : ∀ p ∈ (k, s') :: items, Listed p.2 :=
        List.forall_mem_cons.mpr (List.forall_mem_cons.mp hrest)
      rw [List.length_cons] at hlen ⊢
      rw [itemsText_cons, List.append_assoc, List.append_assoc,
        svrConfLoop_item hs n (rest_cases (fun q hq => hsep q (List.mem_of_mem_head? hq)) t), htail,
        ih hnext hsep' (Nat.le_of_succ_le_succ hlen)]
      simp only [Nat.succ_eq_add_one, Nat.add_right_cancel_iff]
      split_ifs <;> rfl

/-- The parser returns the servers, each as it was written. It returns their number, which is `0` for a list
that it refuses. -/
def ReadsServers (siz : ℕ) (ip : Bytes) (svrs : List Server) : Prop :=
  (xparserSvrConf siz ip).map (·.getD []) = some svrs

/-- No servers are read from blanks, as long as the index can pass them. -/
theorem readsServers_blanks (siz t : ℕ) : ReadsServers siz (blanks t) [] ↔ siz = 0 ∨ t < 2 ^ 31 := by
  have hlen : (blanks t).length = t := List.length_replicate
  rw [ReadsServers, xparserSvrConf_eq (by rw [svrConfLoop_only_blanks]) (by split_ifs <;> simp [blanks])]
  by_cases hnil : t = 0
  · simp [hnil, blanks]
  by_cases hsiz : siz = 0
  · simp [hnil, hsiz]
  · simp [hnil, hsiz, hlen]

/-- **When a list is returned as it was written**: one blank at most stands behind it, unless there are no
servers, or as many as there is room for; and what is read of the list, with the first blank behind it, has
less than `2 ^ 31` characters. -/
theorem svrConf_blanks_iff {items : Items} (hlisted : ∀ p ∈ items, Listed p.2) (hsep : Separated items)
    (hlen : items.length ≤ siz) (t : ℕ) :
    ReadsServers siz (itemsText items ++ blanks t) (items.map Prod.snd) ↔
      (t ≤ 1 ∨ items.length = siz) ∧ (itemsText items).length + min t 1 < 2 ^ 31 ∨
        items = [] ∧ t < 2 ^ 31 := by
  cases items with
  | nil =>
      show ReadsServers siz (blanks t) [] ↔ _
      rw [readsServers_blanks]
      have hnil : (itemsText []).length = 0 := rfl
      rw [hnil, List.length_nil]
      simp only [true_and]
      omega
  | cons p items =>
      obtain ⟨n, s⟩ := p
      have hne : ¬ ((n, s) :: items = [] ∧ t < 2 ^ 31) := fun h => absurd h.1 (List.cons_ne_nil _ _)
      have hloop := svrConfLoop_items hlisted hsep hlen t
      have hrest : (blanks (t - 1)).length = t - 1 := List.length_replicate
      have htext : (itemsText ((n, s) :: items) ++ blanks t).length = (itemsText ((n, s) :: items)).length + t := by
        rw [List.length_append, blanks, List.length_replicate]
      rw [or_iff_left hne, ReadsServers, List.length_cons]
      by_cases hend : t ≤ 1 ∨ items.length + 1 = siz
      · rw [if_pos hend] at hloop
        rw [xparserSvrConf_eq hloop (by omega), hrest, htext, and_iff_right hend,
          show (itemsText ((n, s) :: items)).length + t - (t - 1) =
            (itemsText ((n, s) :: items)).length + min t 1 by omega]
        split_ifs with hint
        · exact iff_of_true rfl hint
        · exact iff_of_false (fun h => absurd h nofun) hint
      · rw [if_neg hend] at hloop
        rw [xparserSvrConf_eq hloop (Nat.zero_le _)]
        refine iff_of_false (fun h => ?_) fun h => hend h.1
        split_ifs at h
        · exact absurd (Option.some.inj h) nofun
        · exact absurd h nofun

/-- The server `a:80`. -/
def oneServer : Server := ⟨[97], [], 80⟩

theorem listed_oneServer : Listed oneServer where
  host_ne_nil := by decide
  host_lt := by decide
  colon := by decide
  blank := by decide
  nul := by decide
  port_pos := by decide
  port_le := by decide
  path := rfl

/-- A list with blanks in front of it and in the middle, and one behind it. -/
theorem svrConf_one_blank :
    ReadsServers 32 (itemsText [(2, oneServer), (3, oneServer)] ++ blanks 1) [oneServer, oneServer] :=
  (svrConf_blanks_iff (List.forall_mem_cons.mpr ⟨listed_oneServer, List.forall_mem_singleton.mpr listed_oneServer⟩)
    (by unfold Separated; decide) (by decide) 1).mpr (Or.inl ⟨Or.inl (Nat.le_refl 1), by decide⟩)

/-- A list with two blanks behind it is refused. -/
theorem svrConf_two_blanks : ¬ ∀ (items : Items) (siz t : ℕ), (∀ p ∈ items, Listed p.2) → Separated items →
    items.length ≤ siz → ReadsServers siz (itemsText items ++ blanks t) (items.map Prod.snd) := by
  intro h
  have hread := h [(0, oneServer)] 32 2 (List.forall_mem_singleton.mpr listed_oneServer) nofun (by decide)
  have hloop : svrConfLoop 32 (itemsText [(0, oneServer)] ++ blanks 2) = (none, []) :=
    (svrConfLoop_items (List.forall_mem_singleton.mpr listed_oneServer) nofun (by decide) 2).trans
      (if_neg (by decide))
  rw [ReadsServers, xparserSvrConf_eq hloop (Nat.zero_le _), if_pos (by decide)] at hread
  exact absurd (Option.some.inj hread) nofun

end Asenal.Comlog
