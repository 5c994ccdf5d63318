import Asenal.Ad.LdapTokens

/-!
# The tables and the grammar

The tables of `ldapfilter_tab.py` parse what the grammar of `ldapfilter.py` derives.

* `Spelled.reduce` — what is on the stack derives what was read, before and after a reduction.
* `Derives.runs` — what is derived is reduced to its symbol.
* `run_eq_ok_iff` — what the tables accept.
* `parse_spec` — which texts are parsed, and what is raised for the others.
-/

namespace Asenal.Ad

open Asenal.Lib.ShiftReduce Asenal.Lib.Raised

/-! ## What is on the stack -/

/-- An entry of the stack above a state: a token that was shifted, or a symbol behind which the tables go on. -/
inductive Entry : ℕ → ℕ → List Token → Val → Prop
  | token {s q t} (h : lrAction s (some t) = some (.shift q)) : Entry s q [t] (.token t)
  | symbol {s q n ts v} (h : entryAt (lrGotoItems n) s = some q) (hd : Derives n ts v) : Entry s q ts v

/-- The tokens that a stack derives. -/
inductive Spelled : List (ℕ × Val) → List Token → Prop
  | nil : Spelled [] []
  | cons {stack ts q us v} (h : Spelled stack ts) (he : Entry (stateOf stack) q us v) :
      Spelled ((q, v) :: stack) (ts ++ us)

variable {s q p : ℕ} {t : Token} {ts us : List Token} {v : Val} {look : Option Token} {stack : List (ℕ × Val)}

/-- An entry that is found stands in the table. -/
theorem mem_of_entryAt {α : Type} {items : List ℕ × List α} {a : α} (h : entryAt items s = some a) :
    (s, a) ∈ items.1.zip items.2 := by
  obtain ⟨⟨s', a'⟩, hfind, rfl⟩ := Option.map_eq_some_iff.mp h
  have hs : s' = s := by simpa using List.find?_some hfind
  rw [← hs]
  exact List.mem_of_find?_eq_some hfind

/-- The states and actions of a token. -/
def lrActions (look : Option Token) : List (ℕ × Act) :=
  ((lrActionItems look).1.zip (lrActionItems look).2).map fun e => (e.1, actOf e.2)

/-- An action that is found is one of the token. -/
theorem mem_of_lrAction {act : Act} (h : lrAction s look = some act) : (s, act) ∈ lrActions look := by
  obtain ⟨a, ha, rfl⟩ := Option.map_eq_some_iff.mp h
  exact List.mem_map.mpr ⟨(s, a), mem_of_entryAt ha, rfl⟩

/-- What stands on a stack with a state on top of it. -/
def Shape (q s : ℕ) (us : List Token) (v : Val) : Prop :=
  match q with
  | 1 => s = 0 ∧ Derives .filter us v
  | 2 => (s = 0 ∨ s = 4 ∨ s = 6 ∨ s = 8 ∨ s = 13) ∧ us = [.lparen]
  | 3 => s = 2 ∧ Derives .and us v
  | 4 => s = 2 ∧ us = [.and]
  | 5 => s = 2 ∧ ∃ a, us = [.string a] ∧ v = .token (.string a)
  | 6 => s = 2 ∧ us = [.or]
  | 7 => s = 2 ∧ Derives .item us v
  | 8 => s = 2 ∧ us = [.not]
  | 9 => s = 2 ∧ Derives .not us v
  | 10 => s = 2 ∧ Derives .or us v
  | 11 => s = 3 ∧ us = [.rparen]
  | 12 => s = 4 ∧ Derives .filterlist us v
  | 13 => (s = 4 ∨ s = 6 ∨ s = 13) ∧ Derives .filter us v
  | 14 => s = 5 ∧ us = [.approx] ∧ v = .token .approx
  | 15 => s = 5 ∧ us = [.gte] ∧ v = .token .gte
  | 16 => s = 5 ∧ us = [.equals] ∧ v = .token .equals
  | 17 => s = 5 ∧ us = [.lte] ∧ v = .token .lte
  | 18 => s = 5 ∧ us = [.present] ∧ v = .token .present
  | 19 => s = 6 ∧ Derives .filterlist us v
  | 20 => s = 7 ∧ us = [.rparen]
  | 21 => s = 8 ∧ Derives .filter us v
  | 22 => s = 9 ∧ us = [.rparen]
  | 23 => s = 10 ∧ us = [.rparen]
  | 24 => s = 13 ∧ Derives .filterlist us v
  | 25 => s = 14 ∧ ∃ a, us = [.string a] ∧ v = .token (.string a)
  | 26 => s = 15 ∧ ∃ a, us = [.string a] ∧ v = .token (.string a)
  | 27 => s = 16 ∧ ∃ a, us = [.string a] ∧ v = .token (.string a)
  | 28 => s = 17 ∧ ∃ a, us = [.string a] ∧ v = .token (.string a)
  | _ => False

/-- A token that was shifted. -/
theorem shape_token (h : lrAction s (some t) = some (.shift q)) : Shape q s [t] (.token t) := by
  have hmem := mem_of_lrAction h
  cases t <;> simp [lrActions, lrActionItems, actOf] at hmem
  case lparen => rcases hmem with ⟨rfl, rfl⟩ | ⟨rfl, rfl⟩ | ⟨rfl, rfl⟩ | ⟨rfl, rfl⟩ | ⟨rfl, rfl⟩ <;> simp [Shape]
  case rparen => rcases hmem with ⟨rfl, rfl⟩ | ⟨rfl, rfl⟩ | ⟨rfl, rfl⟩ | ⟨rfl, rfl⟩ <;> simp [Shape]
  case string => rcases hmem with ⟨rfl, rfl⟩ | ⟨rfl, rfl⟩ | ⟨rfl, rfl⟩ | ⟨rfl, rfl⟩ | ⟨rfl, rfl⟩ <;> simp [Shape]
  all_goals
    obtain ⟨rfl, rfl⟩ := hmem
    simp [Shape]

/-- A symbol behind which the tables go on. -/
theorem shape_symbol {n : Nonterminal} (h : entryAt (lrGotoItems n) s = some q) (hd : Derives n ts v) :
    Shape q s ts v := by
  have hmem := mem_of_entryAt h
  cases n <;> simp [lrGotoItems] at hmem
  case filter => rcases hmem with ⟨rfl, rfl⟩ | ⟨rfl, rfl⟩ | ⟨rfl, rfl⟩ | ⟨rfl, rfl⟩ | ⟨rfl, rfl⟩ <;> simp [Shape, hd]
  case filterlist => rcases hmem with ⟨rfl, rfl⟩ | ⟨rfl, rfl⟩ | ⟨rfl, rfl⟩ <;> simp [Shape, hd]
  all_goals
    obtain ⟨rfl, rfl⟩ := hmem
    simp [Shape, hd]

/-- Each state has its symbol, and its states in front. -/
theorem Entry.shape (h : Entry s q us v) : Shape q s us v := by
  cases h with
  | token h => exact shape_token h
  | symbol h hd => exact shape_symbol h hd

/-- What is on top of a stack that is not empty. -/
theorem Spelled.top (h : Spelled stack ts) (hq : stateOf stack = q) (hne : q ≠ 0) :
    ∃ below us us' v, stack = (q, v) :: below ∧ ts = us ++ us' ∧ Spelled below us ∧ Shape q (stateOf below) us' v := by
  cases h with
  | nil => exact absurd hq.symm hne
  | cons h he =>
      obtain rfl := hq
      exact ⟨_, _, _, _, rfl, rfl, h, he.shape⟩

/-- The states in which there is a reduction, and by which production. -/
def reductions : List (ℕ × ℕ) :=
  [(11, 1), (23, 2), (22, 3), (20, 4), (12, 5), (19, 6), (21, 7), (13, 8), (24, 9), (27, 10), (28, 11), (26, 12),
    (25, 13), (18, 14)]

/-- An action is no reduction, or one of these. -/
def Listed (e : ℕ × Act) : Bool :=
  match e.2 with
  | .reduce p => reductions.contains (e.1, p)
  | _ => true

/-- The reductions of the tables are listed. -/
theorem listed_of_mem (look : Option Token) : (lrActions look).all Listed = true := by
  match look with
  | none => decide
  | some t => cases t <;> rfl

/-- A state in which the tables reduce. -/
theorem reduce_state (h : lrAction s look = some (.reduce p)) : (s, p) ∈ reductions := by
  have hlisted := List.all_eq_true.mp (listed_of_mem look) _ (mem_of_lrAction h)
  simpa [Listed] using hlisted

/-! ## Reductions -/

/-- The states in front of a filter. -/
theorem goto_filter (h : s = 0 ∨ s = 4 ∨ s = 6 ∨ s = 8 ∨ s = 13) : ∃ g, entryAt (lrGotoItems .filter) s = some g := by
  rcases h with rfl | rfl | rfl | rfl | rfl <;> exact ⟨_, rfl⟩

/-- The states in front of a list of filters. -/
theorem goto_filterlist (h : s = 4 ∨ s = 6 ∨ s = 13) : ∃ g, entryAt (lrGotoItems .filterlist) s = some g := by
  rcases h with rfl | rfl | rfl <;> exact ⟨_, rfl⟩

/-- A production with three symbols on its right. -/
theorem Spelled.filter {mid : ℕ} {n : Nonterminal} (h : Spelled stack ts) (hq : stateOf stack = q) (hne : q ≠ 0)
    (hmid : mid ≠ 0) (hn : n = .and ∨ n = .or ∨ n = .not ∨ n = .item)
    (hclose : ∀ s us v, Shape q s us v → s = mid ∧ us = [.rparen])
    (hopen : ∀ s us v, Shape mid s us v → s = 2 ∧ Derives n us v) :
    ∃ v₁ v₂ v₃ below s', stack = [(q, v₁), (mid, v₂), (2, v₃)] ++ below ∧
      entryAt (lrGotoItems .filter) (stateOf below) = some s' ∧ Spelled ((s', v₂) :: below) ts := by
  obtain ⟨below₁, us₁, ws₁, v₁, rfl, rfl, h₁, hshape₁⟩ := h.top hq hne
  obtain ⟨hs₁, rfl⟩ := hclose _ _ _ hshape₁
  obtain ⟨below₂, us₂, ws₂, v₂, rfl, rfl, h₂, hshape₂⟩ := h₁.top hs₁ hmid
  obtain ⟨hs₂, hd⟩ := hopen _ _ _ hshape₂
  obtain ⟨below₃, us₃, ws₃, v₃, rfl, rfl, h₃, hs₃, rfl⟩ := h₂.top hs₂ (by decide)
  obtain ⟨s', hgoto⟩ := goto_filter hs₃
  refine ⟨v₁, v₂, v₃, below₃, s', rfl, hgoto, ?_⟩
  have hspelled := Spelled.cons h₃ (.symbol hgoto (.filter hn hd))
  simpa using hspelled

/-- Values of the symbols. -/
theorem Derives.val {n : Nonterminal} (h : Derives n ts v) :
    (n = .filterlist → ∃ fs, v = .terms fs) ∧ (n ≠ .filterlist → ∃ f, v = .filter f) := by
  induction h with
  | filter hn h ih => exact ⟨nofun, fun _ => ih.2 (by rcases hn with rfl | rfl | rfl | rfl <;> decide)⟩
  | one h ih => exact ⟨fun _ => ⟨_, rfl⟩, fun h => absurd rfl h⟩
  | cons h hs ih ihs => exact ⟨fun _ => ⟨_, rfl⟩, fun h => absurd rfl h⟩
  | _ => exact ⟨nofun, fun _ => ⟨_, rfl⟩⟩

/-- An operator with its two sides. -/
theorem Spelled.item {mid : ℕ} {op : Token} (h : Spelled stack ts) (hq : stateOf stack = q) (hne : q ≠ 0)
    (hmid : mid ≠ 0) (hright : ∀ s us v, Shape q s us v → s = mid ∧ ∃ b, us = [.string b] ∧ v = .token (.string b))
    (hop : ∀ s us v, Shape mid s us v → s = 5 ∧ us = [op] ∧ v = .token op) {node : List UInt8 → List UInt8 → Filter}
    (hd : ∀ a b, Derives .item [.string a, op, .string b] (.filter (node a b))) :
    ∃ a b below, stack = [(q, .token (.string b)), (mid, .token op), (5, .token (.string a))] ++ below ∧
      entryAt (lrGotoItems .item) (stateOf below) = some 7 ∧ Spelled ((7, .filter (node a b)) :: below) ts := by
  obtain ⟨below₁, us₁, ws₁, v₁, rfl, rfl, h₁, hshape₁⟩ := h.top hq hne
  obtain ⟨hs₁, b, rfl, rfl⟩ := hright _ _ _ hshape₁
  obtain ⟨below₂, us₂, ws₂, v₂, rfl, rfl, h₂, hshape₂⟩ := h₁.top hs₁ hmid
  obtain ⟨hs₂, rfl, rfl⟩ := hop _ _ _ hshape₂
  obtain ⟨below₃, us₃, ws₃, v₃, rfl, rfl, h₃, hs₃, a, rfl, rfl⟩ := h₂.top hs₂ (by decide)
  have hgoto : entryAt (lrGotoItems .item) (stateOf below₃) = some 7 := by rw [hs₃]; rfl
  refine ⟨a, b, below₃, rfl, hgoto, ?_⟩
  have hspelled := Spelled.cons h₃ (.symbol hgoto (hd a b))
  simpa using hspelled

/-- A list of filters behind an operator. -/
theorem Spelled.terms {mid g : ℕ} {n : Nonterminal} {op : Token} {node : Terms → Filter} (h : Spelled stack ts)
    (hq : stateOf stack = q) (hne : q ≠ 0) (hmid : mid ≠ 0)
    (hlist : ∀ s us v, Shape q s us v → s = mid ∧ Derives .filterlist us v)
    (hop : ∀ s us v, Shape mid s us v → s = 2 ∧ us = [op])
    (hgoto : ∀ s, s = 2 → entryAt (lrGotoItems n) s = some g)
    (hd : ∀ us fs, Derives .filterlist us (.terms fs) → Derives n (op :: us) (.filter (node fs))) :
    ∃ fs v below, stack = [(q, .terms fs), (mid, v)] ++ below ∧ entryAt (lrGotoItems n) (stateOf below) = some g ∧
      Spelled ((g, .filter (node fs)) :: below) ts := by
  obtain ⟨below₁, us₁, ws₁, v₁, rfl, rfl, h₁, hshape₁⟩ := h.top hq hne
  obtain ⟨hs₁, hlist₁⟩ := hlist _ _ _ hshape₁
  obtain ⟨fs, rfl⟩ := hlist₁.val.1 rfl
  obtain ⟨below₂, us₂, ws₂, v₂, rfl, rfl, h₂, hshape₂⟩ := h₁.top hs₁ hmid
  obtain ⟨hs₂, rfl⟩ := hop _ _ _ hshape₂
  refine ⟨fs, v₂, below₂, rfl, hgoto _ hs₂, ?_⟩
  have hspelled := Spelled.cons h₂ (.symbol (hgoto _ hs₂) (hd _ _ hlist₁))
  simpa using hspelled

/-- **A reduction** replaces symbols by one that derives the same tokens; the tables say where to go on. -/
theorem Spelled.reduce (h : Spelled stack ts) (hact : lrAction (stateOf stack) look = some (.reduce p)) :
    ∃ popped below s', stack = popped ++ below ∧ popped.length = parser.length p ∧
      lrGoto (stateOf below) p = some s' ∧
      Spelled ((s', parser.reduce p (popped.reverse.map Prod.snd)) :: below) ts := by
  have hmem := reduce_state hact
  simp only [reductions, List.mem_cons, Prod.mk.injEq, List.not_mem_nil, or_false] at hmem
  rcases hmem with ⟨hq, rfl⟩ | ⟨hq, rfl⟩ | ⟨hq, rfl⟩ | ⟨hq, rfl⟩ | ⟨hq, rfl⟩ | ⟨hq, rfl⟩ | ⟨hq, rfl⟩ | ⟨hq, rfl⟩ |
    ⟨hq, rfl⟩ | ⟨hq, rfl⟩ | ⟨hq, rfl⟩ | ⟨hq, rfl⟩ | ⟨hq, rfl⟩ | ⟨hq, rfl⟩
  · obtain ⟨v₁, v₂, v₃, below, s', rfl, hgoto, hs⟩ := h.filter hq (by decide) (by decide)
      (.inl rfl) (fun _ _ _ hsh => hsh) fun _ _ _ hsh => hsh
    exact ⟨_, below, s', rfl, rfl, hgoto, hs⟩
  · obtain ⟨v₁, v₂, v₃, below, s', rfl, hgoto, hs⟩ := h.filter hq (by decide) (by decide)
      (.inr (.inl rfl)) (fun _ _ _ hsh => hsh) fun _ _ _ hsh => hsh
    exact ⟨_, below, s', rfl, rfl, hgoto, hs⟩
  · obtain ⟨v₁, v₂, v₃, below, s', rfl, hgoto, hs⟩ := h.filter hq (by decide) (by decide)
      (.inr (.inr (.inl rfl))) (fun _ _ _ hsh => hsh) fun _ _ _ hsh => hsh
    exact ⟨_, below, s', rfl, rfl, hgoto, hs⟩
  · obtain ⟨v₁, v₂, v₃, below, s', rfl, hgoto, hs⟩ := h.filter hq (by decide) (by decide)
      (.inr (.inr (.inr rfl))) (fun _ _ _ hsh => hsh) fun _ _ _ hsh => hsh
    exact ⟨_, below, s', rfl, rfl, hgoto, hs⟩
  · obtain ⟨fs, v, below, rfl, hgoto, hs⟩ := h.terms (n := .and) hq (by decide) (by decide)
      (fun _ _ _ hsh => hsh) (fun _ _ _ hsh => hsh) (fun s hs => by rw [hs]; rfl) fun _ _ hd => .and hd
    exact ⟨_, below, _, rfl, rfl, hgoto, hs⟩
  · obtain ⟨fs, v, below, rfl, hgoto, hs⟩ := h.terms (n := .or) hq (by decide) (by decide)
      (fun _ _ _ hsh => hsh) (fun _ _ _ hsh => hsh) (fun s hs => by rw [hs]; rfl) fun _ _ hd => .or hd
    exact ⟨_, below, _, rfl, rfl, hgoto, hs⟩
  · obtain ⟨below₁, us₁, ws₁, v₁, rfl, rfl, h₁, hs₁, hd⟩ := h.top hq (by decide)
    obtain ⟨f, rfl⟩ := hd.val.2 (by decide)
    obtain ⟨below₂, us₂, ws₂, v₂, rfl, rfl, h₂, hs₂, rfl⟩ := h₁.top hs₁ (by decide)
    have hgoto : entryAt (lrGotoItems .not) (stateOf below₂) = some 9 := by rw [hs₂]; rfl
    refine ⟨[(21, .filter f), (8, v₂)], below₂, 9, rfl, rfl, hgoto, ?_⟩
    rw [List.append_assoc]
    exact .cons h₂ (.symbol hgoto (.not hd))
  · obtain ⟨below₁, us₁, ws₁, v₁, rfl, rfl, h₁, hs₁, hd⟩ := h.top hq (by decide)
    obtain ⟨f, rfl⟩ := hd.val.2 (by decide)
    obtain ⟨g, hgoto⟩ := goto_filterlist hs₁
    exact ⟨[(13, .filter f)], below₁, g, rfl, rfl, hgoto, .cons h₁ (.symbol hgoto (.one hd))⟩
  · obtain ⟨below₁, us₁, ws₁, v₁, rfl, rfl, h₁, hs₁, hd₁⟩ := h.top hq (by decide)
    obtain ⟨fs, rfl⟩ := hd₁.val.1 rfl
    obtain ⟨below₂, us₂, ws₂, v₂, rfl, rfl, h₂, hs₂, hd₂⟩ := h₁.top hs₁ (by decide)
    obtain ⟨f, rfl⟩ := hd₂.val.2 (by decide)
    obtain ⟨g, hgoto⟩ := goto_filterlist hs₂
    refine ⟨[(24, .terms fs), (13, .filter f)], below₂, g, rfl, rfl, hgoto, ?_⟩
    rw [List.append_assoc]
    exact .cons h₂ (.symbol hgoto (.cons hd₂ hd₁))
  · obtain ⟨a, b, below, rfl, hgoto, hs⟩ := h.item hq (by decide) (by decide) (fun _ _ _ hsh => hsh)
      (fun _ _ _ hsh => hsh) .equals
    exact ⟨_, below, 7, rfl, rfl, hgoto, hs⟩
  · obtain ⟨a, b, below, rfl, hgoto, hs⟩ := h.item hq (by decide) (by decide) (fun _ _ _ hsh => hsh)
      (fun _ _ _ hsh => hsh) .lte
    exact ⟨_, below, 7, rfl, rfl, hgoto, hs⟩
  · obtain ⟨a, b, below, rfl, hgoto, hs⟩ := h.item hq (by decide) (by decide) (fun _ _ _ hsh => hsh)
      (fun _ _ _ hsh => hsh) .gte
    exact ⟨_, below, 7, rfl, rfl, hgoto, hs⟩
  · obtain ⟨a, b, below, rfl, hgoto, hs⟩ := h.item hq (by decide) (by decide) (fun _ _ _ hsh => hsh)
      (fun _ _ _ hsh => hsh) .approx
    exact ⟨_, below, 7, rfl, rfl, hgoto, hs⟩
  · obtain ⟨below₁, us₁, ws₁, v₁, rfl, rfl, h₁, hs₁, rfl, rfl⟩ := h.top hq (by decide)
    obtain ⟨below₂, us₂, ws₂, v₂, rfl, rfl, h₂, hs₂, a, rfl, rfl⟩ := h₁.top hs₁ (by decide)
    have hgoto : entryAt (lrGotoItems .item) (stateOf below₂) = some 7 := by rw [hs₂]; rfl
    refine ⟨[(18, .token .present), (5, .token (.string a))], below₂, 7, rfl, rfl, hgoto, ?_⟩
    rw [List.append_assoc]
    exact .cons h₂ (.symbol hgoto (.present a))

/-! ## Runs -/

variable {tokens : List Token} {ending : Option PyError} {c c' : Config Token Val PyError}

/-- What was read is on the stack. -/
def Reading (tokens : List Token) (ending : Option PyError) (c : Config Token Val PyError) : Prop :=
  c.ending = ending ∧ ∃ ts, Spelled c.stack ts ∧ ts ++ c.input = tokens

/-- A step keeps what was read on the stack. -/
theorem Reading.next (h : Reading tokens ending c) (hstep : step parser c = .ok (.inl c')) :
    Reading tokens ending c' := by
  obtain ⟨hending, ts, hs, htokens⟩ := h
  obtain ⟨look, hlook, ⟨_, _, _, _, hr⟩ | ⟨t, rest, q, hinput, hact, hr⟩ |
    ⟨p, g, popped, below, hact, hstack, hlen, hgoto, hr⟩⟩ := step_cases hstep
  · exact absurd hr nofun
  · obtain rfl := Sum.inl.inj hr
    have hnext : look = some t := by
      rw [lookahead, hinput] at hlook
      exact (Except.ok.inj hlook).symm
    rw [hnext] at hact
    refine ⟨hending, ts ++ [t], .cons hs (.token hact), ?_⟩
    rw [List.append_assoc, ← htokens, hinput]
    rfl
  · obtain rfl := Sum.inl.inj hr
    obtain ⟨popped', below', g', heq, hlen', hgoto', hs'⟩ := hs.reduce hact
    obtain ⟨rfl, rfl⟩ := List.append_inj (hstack.symm.trans heq) (hlen.trans hlen'.symm)
    obtain rfl : g = g' := Option.some.inj (hgoto.symm.trans hgoto')
    exact ⟨hending, ts, hs', htokens⟩

/-- The parser accepts in one state only, and never shifts the end. -/
theorem accept_state (h : lrAction s look = some .accept) : s = 1 ∧ look = none := by
  have hmem := mem_of_lrAction h
  match look with
  | none => simpa [lrActions, lrActionItems, actOf] using hmem
  | some t => cases t <;> simp [lrActions, lrActionItems, actOf] at hmem

/-- The end is not shifted. -/
theorem not_shift_end : lrAction s none ≠ some (.shift q) := by
  intro h
  have hmem := mem_of_lrAction h
  simp [lrActions, lrActionItems, actOf] at hmem

/-- Where no token is left, the end is next. -/
theorem lookahead_nil (hinput : c.input = []) (hlook : lookahead c = .ok look) : look = none := by
  rw [lookahead, hinput] at hlook
  cases hend : c.ending with
  | none =>
      rw [hend] at hlook
      exact (Except.ok.inj hlook).symm
  | some e =>
      rw [hend] at hlook
      simp at hlook

/-- The parser is never stuck. -/
theorem Reading.not_stuck (h : Reading tokens ending c) : ¬ Stuck parser c := by
  obtain ⟨-, ts, hs, -⟩ := h
  rintro ⟨look, hlook, ⟨hact, hnil⟩ | ⟨q, hact, hnil⟩ | ⟨p, hact, hnot⟩⟩
  · have hstate := (accept_state hact).1
    rw [hnil] at hstate
    exact absurd hstate (by decide)
  · rw [lookahead_nil hnil hlook] at hact
    exact absurd hact not_shift_end
  · obtain ⟨popped, below, g, heq, hlen, hgoto, -⟩ := hs.reduce hact
    exact absurd hgoto (hnot popped below g heq hlen)

/-- What may be raised. -/
theorem Reading.raises {e : PyError} (h : Reading tokens ending c) (hstep : step parser c = .error e) :
    e = .ldapfilter "syntax error" ∨ ending = some e := by
  rcases step_error_cases hstep with herr | ⟨look, -, -, rfl⟩ | hstuck
  · rw [lookahead] at herr
    split at herr
    next => simp at herr
    next => simp at herr
    next _ _ hinput hend =>
      obtain rfl := Except.error.inj herr
      exact .inr (h.1.symm.trans hend)
  · exact .inl rfl
  · exact absurd hstuck h.not_stuck

/-- Nothing was read where the stack is empty. -/
theorem Spelled.eq_nil (h : Spelled stack ts) (hs : stateOf stack = 0) : ts = [] := by
  cases h with
  | nil => rfl
  | cons h he =>
      obtain rfl := hs
      exact he.shape.elim

/-- The end is next where nothing is left. -/
theorem lookahead_eq_none (h : lookahead c = .ok none) : c.input = [] ∧ c.ending = none := by
  rw [lookahead] at h
  split at h
  next => simp at h
  next hinput hend => exact ⟨hinput, hend⟩
  next => simp at h

/-- What is accepted is derived. -/
theorem Reading.accepts (h : Reading tokens ending c) (hstep : step parser c = .ok (.inr v)) :
    ending = none ∧ Derives .filter tokens v := by
  obtain ⟨hending, ts, hs, htokens⟩ := h
  obtain ⟨look, hlook, ⟨q, w, hact, hhead, hr⟩ | ⟨_, _, _, _, _, hr⟩ | ⟨_, _, _, _, _, _, _, _, hr⟩⟩ :=
    step_cases hstep
  · obtain rfl := Sum.inr.inj hr
    obtain ⟨hstate, rfl⟩ := accept_state hact
    obtain ⟨below, us, us', w', hstack, rfl, hbelow, hs0, hd⟩ := hs.top hstate (by decide)
    rw [hstack] at hhead
    obtain ⟨rfl, rfl⟩ := Prod.mk.inj (Option.some.inj hhead)
    obtain ⟨hinput, hend⟩ := lookahead_eq_none hlook
    rw [hbelow.eq_nil hs0, hinput, List.nil_append, List.append_nil] at htokens
    exact ⟨hending.symm.trans hend, htokens ▸ hd⟩
  · exact absurd hr nofun
  · exact absurd hr nofun

/-! ## What is derived is reduced -/

/-- What may stand behind a symbol. -/
def Follow : Nonterminal → Option Token → Prop
  | .filter, look => look = none ∨ look = some .lparen ∨ look = some .rparen
  | _, look => look = some .rparen

/-- From a stack on which the symbol may come, its tokens are read and reduced to it. -/
def Runs (n : Nonterminal) (ts : List Token) (v : Val) : Prop :=
  ∀ (stack : List (ℕ × Val)) (g : ℕ) (rest : List Token) (ending : Option PyError) (look : Option Token),
    entryAt (lrGotoItems n) (stateOf stack) = some g → lookahead ⟨stack, rest, ending⟩ = .ok look → Follow n look →
      Steps parser ⟨stack, ts ++ rest, ending⟩ ⟨(g, v) :: stack, rest, ending⟩

variable {rest : List Token} {n : Nonterminal} {g : ℕ}

/-- A shift in front of some steps. -/
theorem shift_steps (hact : lrAction (stateOf stack) (some t) = some (.shift q))
    (h : Steps parser ⟨(q, .token t) :: stack, rest, ending⟩ c) : Steps parser ⟨stack, t :: rest, ending⟩ c :=
  .head (step_shift rfl hact) h

/-- A reduction as one step. -/
theorem reduce_steps {popped below : List (ℕ × Val)} (hlook : lookahead ⟨popped ++ below, rest, ending⟩ = .ok look)
    (hact : lrAction (stateOf (popped ++ below)) look = some (.reduce p)) (hlen : popped.length = parser.length p)
    (hgoto : lrGoto (stateOf below) p = some g) : Steps parser ⟨popped ++ below, rest, ending⟩
      ⟨(g, parser.reduce p (popped.reverse.map Prod.snd)) :: below, rest, ending⟩ :=
  .head (step_reduce hlook hact rfl hlen hgoto) (.refl _)

/-- A symbol in parentheses. -/
theorem runs_filter {mid : ℕ} (h : Runs n ts v) (hmid : entryAt (lrGotoItems n) 2 = some mid)
    (hfollow : Follow n (some .rparen)) (hclose : lrAction mid (some .rparen) = some (.shift q))
    (hreduce : ∀ look, Follow .filter look → lrAction q look = some (.reduce p)) (hlen : parser.length p = 3)
    (hval : ∀ a b, parser.reduce p [a, v, b] = v) (hname : ∀ s, lrGoto s p = entryAt (lrGotoItems .filter) s) :
    Runs .filter (.lparen :: (ts ++ [.rparen])) v := by
  intro stack g rest ending look hg hlook hf
  have hopen : lrAction (stateOf stack) (some .lparen) = some (.shift 2) := by
    have hs := mem_of_entryAt hg
    simp [lrGotoItems] at hs
    rcases hs with ⟨hs, -⟩ | ⟨hs, -⟩ | ⟨hs, -⟩ | ⟨hs, -⟩ | ⟨hs, -⟩ <;> rw [hs] <;> rfl
  rw [List.cons_append, List.append_assoc]
  refine shift_steps hopen ((h ((2, .token .lparen) :: stack) mid _ ending _ hmid rfl hfollow).trans ?_)
  refine shift_steps hclose ?_
  have hsteps := @reduce_steps p _ ending rest g [(q, .token .rparen), (mid, v), (2, .token .lparen)] stack hlook
    (hreduce look hf) hlen.symm ((hname _).trans hg)
  rwa [show ([(q, Val.token .rparen), (mid, v), (2, .token .lparen)].reverse.map Prod.snd) =
    [.token .lparen, v, .token .rparen] from rfl, hval] at hsteps

/-- The symbols in parentheses stand behind the state 2. -/
theorem state_two (hg : entryAt (lrGotoItems n) s = some g) (hn : n ≠ .filter) (hlist : n ≠ .filterlist) : s = 2 := by
  have hs := mem_of_entryAt hg
  cases n <;> simp [lrGotoItems] at hs hn hlist <;> exact hs.1

/-- An operator in front of a list. -/
theorem runs_terms {op : Token} {mid : ℕ} {fs : Terms} {f : Filter} (h : Runs .filterlist ts (.terms fs))
    (hn : n ≠ .filter) (hlist : n ≠ .filterlist) (hop : lrAction 2 (some op) = some (.shift mid))
    (hmid : entryAt (lrGotoItems .filterlist) mid = some q)
    (hreduce : lrAction q (some .rparen) = some (.reduce p)) (hlen : parser.length p = 2)
    (hval : ∀ a, parser.reduce p [a, .terms fs] = .filter f) (hname : ∀ s, lrGoto s p = entryAt (lrGotoItems n) s)
    (hfollow : ∀ look, Follow n look → look = some .rparen) : Runs n (op :: ts) (.filter f) := by
  intro stack g rest ending look hg hlook hf
  obtain rfl := hfollow look hf
  have hstate := state_two hg hn hlist
  rw [List.cons_append]
  refine shift_steps (hstate ▸ hop) ((h ((mid, .token op) :: stack) q rest ending _ hmid hlook rfl).trans ?_)
  have hsteps := @reduce_steps p _ ending rest g [(q, .terms fs), (mid, .token op)] stack hlook hreduce hlen.symm
    ((hname _).trans hg)
  rwa [show ([(q, Val.terms fs), (mid, .token op)].reverse.map Prod.snd) = [.token op, .terms fs] from rfl,
    hval] at hsteps

/-- Two sides of an operator. -/
theorem runs_item {op : Token} {mid : ℕ} {a b : List UInt8} {f : Filter}
    (hop : lrAction 5 (some op) = some (.shift mid)) (hright : lrAction mid (some (.string b)) = some (.shift q))
    (hreduce : lrAction q (some .rparen) = some (.reduce p)) (hlen : parser.length p = 3)
    (hval : parser.reduce p [.token (.string a), .token op, .token (.string b)] = .filter f)
    (hname : ∀ s, lrGoto s p = entryAt (lrGotoItems .item) s) :
    Runs .item [.string a, op, .string b] (.filter f) := by
  intro stack g rest ending look hg hlook hf
  obtain rfl : look = some .rparen := hf
  have hstate := state_two hg nofun nofun
  have hleft : lrAction (stateOf stack) (some (.string a)) = some (.shift 5) := by rw [hstate]; rfl
  refine shift_steps hleft (shift_steps hop (shift_steps hright ?_))
  have hsteps := @reduce_steps p _ ending rest g [(q, .token (.string b)), (mid, .token op), (5, .token (.string a))]
    stack hlook hreduce hlen.symm ((hname _).trans hg)
  rwa [show ([(q, Val.token (.string b)), (mid, .token op), (5, .token (.string a))].reverse.map Prod.snd) =
    [.token (.string a), .token op, .token (.string b)] from rfl, hval] at hsteps

/-- A list of filters begins with a parenthesis. -/
theorem Derives.head (h : Derives n ts v) (hn : n = .filter ∨ n = .filterlist) : ∃ us, ts = .lparen :: us := by
  induction h with
  | filter hn h ih => exact ⟨_, rfl⟩
  | one h ih => exact ih (.inl rfl)
  | cons h hs ih ihs =>
      obtain ⟨us, rfl⟩ := ih (.inl rfl)
      exact ⟨_, rfl⟩
  | _ => rcases hn with hn | hn <;> exact absurd hn nofun

/-- The states in front of a list of filters. -/
theorem state_filterlist (hg : entryAt (lrGotoItems .filterlist) s = some g) : s = 4 ∨ s = 6 ∨ s = 13 := by
  have hs := mem_of_entryAt hg
  simp [lrGotoItems] at hs
  omega

/-- In front of a list of filters a filter leads to the state 13. -/
theorem goto_thirteen (hg : entryAt (lrGotoItems .filterlist) s = some g) :
    entryAt (lrGotoItems .filter) s = some 13 := by
  rcases state_filterlist hg with rfl | rfl | rfl <;> rfl

/-- **What is derived** is reduced to its symbol. -/
theorem Derives.runs (h : Derives n ts v) : Runs n ts v := by
  induction h with
  | filter hn h ih =>
      rcases hn with rfl | rfl | rfl | rfl
      · refine @runs_filter 11 1 _ _ _ 3 ih rfl rfl rfl ?_ rfl (fun _ _ => rfl) fun _ => rfl
        rintro look (rfl | rfl | rfl) <;> rfl
      · refine @runs_filter 23 2 _ _ _ 10 ih rfl rfl rfl ?_ rfl (fun _ _ => rfl) fun _ => rfl
        rintro look (rfl | rfl | rfl) <;> rfl
      · refine @runs_filter 22 3 _ _ _ 9 ih rfl rfl rfl ?_ rfl (fun _ _ => rfl) fun _ => rfl
        rintro look (rfl | rfl | rfl) <;> rfl
      · refine @runs_filter 20 4 _ _ _ 7 ih rfl rfl rfl ?_ rfl (fun _ _ => rfl) fun _ => rfl
        rintro look (rfl | rfl | rfl) <;> rfl
  | and h ih => exact runs_terms (p := 5) ih nofun nofun rfl rfl rfl rfl (fun _ => rfl) (fun _ => rfl) fun _ h => h
  | or h ih => exact runs_terms (p := 6) ih nofun nofun rfl rfl rfl rfl (fun _ => rfl) (fun _ => rfl) fun _ h => h
  | @not ts f h ih =>
      intro stack g rest ending look hg hlook hf
      obtain rfl : look = some .rparen := hf
      have hstate := state_two hg nofun nofun
      have hop : lrAction (stateOf stack) (some .not) = some (.shift 8) := by rw [hstate]; rfl
      refine shift_steps hop ((ih ((8, .token .not) :: stack) 21 rest ending _ rfl hlook (.inr (.inr rfl))).trans ?_)
      exact @reduce_steps 7 _ _ _ _ [(21, .filter f), (8, .token .not)] _ hlook rfl rfl hg
  | @one ts f h ih =>
      intro stack g rest ending look hg hlook hf
      obtain rfl : look = some .rparen := hf
      refine (ih stack 13 rest ending _ (goto_thirteen hg) hlook (.inr (.inr rfl))).trans ?_
      exact @reduce_steps 8 _ _ _ _ [(13, .filter f)] _ hlook rfl rfl hg
  | @cons ts us f fs h hs ih ihs =>
      intro stack g rest ending look hg hlook hf
      obtain rfl : look = some .rparen := hf
      obtain ⟨ws, rfl⟩ := hs.head (.inr rfl)
      rw [List.append_assoc]
      refine (ih stack 13 _ ending (some .lparen) (goto_thirteen hg) rfl (.inr (.inl rfl))).trans ?_
      refine (ihs ((13, .filter f) :: stack) 24 rest ending _ rfl hlook rfl).trans ?_
      exact @reduce_steps 9 _ _ _ _ [(24, .terms fs), (13, .filter f)] _ hlook rfl rfl hg
  | equals a b => exact runs_item (p := 10) rfl rfl rfl rfl rfl fun _ => rfl
  | lte a b => exact runs_item (p := 11) rfl rfl rfl rfl rfl fun _ => rfl
  | gte a b => exact runs_item (p := 12) rfl rfl rfl rfl rfl fun _ => rfl
  | approx a b => exact runs_item (p := 13) rfl rfl rfl rfl rfl fun _ => rfl
  | present a =>
      intro stack g rest ending look hg hlook hf
      obtain rfl : look = some .rparen := hf
      have hstate := state_two hg nofun nofun
      have hleft : lrAction (stateOf stack) (some (.string a)) = some (.shift 5) := by rw [hstate]; rfl
      refine shift_steps hleft (shift_steps rfl ?_)
      exact @reduce_steps 14 _ _ _ _ [(18, .token .present), (5, .token (.string a))] _ hlook rfl rfl hg

/-! ## How long a run is -/

/-- How much is left to be done with an entry. -/
def weight (q : ℕ) : ℕ := if q ∈ [1, 13, 21] then 2 else if q ∈ [3, 7, 9, 10, 12, 19, 24] then 1 else 3

/-- How much is left to be done with a stack. -/
def weights (stack : List (ℕ × Val)) : ℕ := (stack.map fun e => weight e.1).sum

/-- How much is left to be done. -/
def work (c : Config Token Val PyError) : ℕ := 4 * c.input.length + weights c.stack

/-- An entry weighs from one to three. -/
theorem weight_bounds (q : ℕ) : 1 ≤ weight q ∧ weight q ≤ 3 := by
  unfold weight
  split_ifs <;> omega

/-- The weight of one entry more. -/
theorem weights_cons (e : ℕ × Val) (stack : List (ℕ × Val)) : weights (e :: stack) = weight e.1 + weights stack := rfl

/-- The weights of two stacks add up. -/
theorem weights_append (stack stack' : List (ℕ × Val)) : weights (stack ++ stack') = weights stack + weights stack' := by
  rw [weights, weights, weights, List.map_append, List.sum_append]

/-- Each entry weighs one at least. -/
theorem length_le_weights (stack : List (ℕ × Val)) : stack.length ≤ weights stack := by
  induction stack with
  | nil => rfl
  | cons e stack ih =>
      have hone := (weight_bounds e.1).1
      rw [weights_cons, List.length_cons]
      omega

/-- The states behind the symbol of a production. -/
def gotoStates (p : ℕ) : List ℕ := (lrProductions[p]?.map fun e => (lrGotoItems e.1).2).getD []

/-- Where the tables go on behind a production is one of its states. -/
theorem mem_gotoStates (h : lrGoto s p = some q) : q ∈ gotoStates p := by
  obtain ⟨e, hprod, hentry⟩ := Option.bind_eq_some_iff.mp h
  rw [gotoStates, hprod]
  exact (List.of_mem_zip (mem_of_entryAt hentry)).2

/-- A symbol weighs less than what is reduced to it, if each entry below the topmost weighs one at least. -/
theorem weight_gotoStates : ∀ e ∈ reductions, 0 < parser.length e.2 ∧
    ∀ g ∈ gotoStates e.2, weight g + 1 < weight e.1 + parser.length e.2 := by
  decide

/-- **A step** leaves less to be done. -/
theorem work_step (hstep : step parser c = .ok (.inl c')) : work c' < work c := by
  obtain ⟨look, -, ⟨_, _, _, _, hr⟩ | ⟨t, rest, q, hinput, -, hr⟩ |
    ⟨p, g, popped, below, hact, hstack, hlen, hgoto, hr⟩⟩ := step_cases hstep
  · exact absurd hr nofun
  · obtain rfl := Sum.inl.inj hr
    have hweight := (weight_bounds q).2
    simp only [work, hinput, weights_cons, List.length_cons]
    omega
  · obtain rfl := Sum.inl.inj hr
    obtain ⟨hpos, hlight⟩ := weight_gotoStates _ (reduce_state hact)
    obtain ⟨e, popped, rfl⟩ := List.exists_cons_of_length_pos (hlen ▸ hpos)
    have hrest := length_le_weights popped
    have htop : stateOf c.stack = e.1 := by rw [hstack]; rfl
    have hlt : weight g + 1 < weight e.1 + parser.length p := htop ▸ hlight g (mem_gotoStates hgoto)
    rw [List.length_cons] at hlen
    simp only [work, hstack, weights_append, weights_cons]
    omega

/-- A PLY that does what is documented: a lexer that reads token after token, and steps by the tables. -/
def Ply.plain : Ply := ⟨.plain, .ofMeasure work fun _ _ => work_step⟩

/-! ## The parser -/

/-- With its fuel the parser comes to an end, and is never stuck. -/
theorem exists_run (tokens : List Token) (ending : Option PyError) :
    ∃ r, run parser (4 * tokens.length + 4) ⟨[], tokens, ending⟩ = some r := by
  refine run_isSome (fun c c' _ hstep => ⟨trivial, work_step hstep⟩) trivial ?_
  show 4 * tokens.length + 0 < _
  omega

/-- **The tables** accept what the grammar derives, with its value. -/
theorem run_eq_ok_iff : run parser (4 * tokens.length + 4) ⟨[], tokens, ending⟩ = some (.ok v) ↔
    ending = none ∧ Derives .filter tokens v := by
  constructor
  · intro hrun
    obtain ⟨c, hc, hstep⟩ := run_invariant (I := Reading tokens ending) (fun c c' hc hstep => hc.next hstep)
      ⟨rfl, [], .nil, rfl⟩ hrun
    exact hc.accepts hstep
  · rintro ⟨rfl, hd⟩
    obtain ⟨r, hr⟩ := exists_run tokens none
    have hsteps := hd.runs [] 1 [] none none rfl rfl (.inl rfl)
    rw [List.append_nil] at hsteps
    rw [hr, run_of_steps hsteps hr rfl]

/-- **What PLY returns**: a filter, or the exception of a run. -/
theorem parse_eq (ply : Ply) (input : List UInt8) : ∃ r, run parser (4 * (ply.lex input).1.length + 4)
    ⟨[], (ply.lex input).1, (ply.lex input).2⟩ = some r ∧ (parse ply input).map Val.filter = r := by
  obtain ⟨r, hr⟩ := exists_run (ply.lex input).1 (ply.lex input).2
  have hengine : ply.engine.parse ⟨[], (ply.lex input).1, (ply.lex input).2⟩ = r :=
    ply.engine.parse_eq (I := Reading (ply.lex input).1 (ply.lex input).2) (fun c c' hc hstep => hc.next hstep)
      (fun c hc => hc.not_stuck) ⟨rfl, [], .nil, rfl⟩ hr
  refine ⟨r, hr, ?_⟩
  unfold parse
  cases r with
  | error e =>
      simp only [hengine]
      rfl
  | ok v =>
      obtain ⟨f, rfl⟩ := (run_eq_ok_iff.mp hr).2.val.2 nofun
      simp only [hengine]
      rfl

/-- **A text is parsed** exactly if the grammar derives its tokens: the parser returns the filter that they derive. -/
theorem parse_eq_ok_iff {ply : Ply} {input : List UInt8} {f : Filter} :
    parse ply input = .ok f ↔ (ply.lex input).2 = none ∧ Derives .filter (ply.lex input).1 (.filter f) := by
  obtain ⟨r, hr, hmap⟩ := parse_eq ply input
  rw [← run_eq_ok_iff, hr, ← hmap]
  cases parse ply input with
  | error e => simp [Except.map]
  | ok f' => simp [Except.map]

/-- For any other text one of two messages is raised. -/
theorem parse_error {ply : Ply} {input : List UInt8} {e : PyError} (h : parse ply input = .error e) :
    e = .ldapfilter "syntax error" ∨ e = .ldapfilter "illegal token" := by
  obtain ⟨r, hr, hmap⟩ := parse_eq ply input
  rw [h] at hmap
  obtain rfl := hmap
  obtain ⟨c, hc, hstep⟩ := run_invariant (I := Reading (ply.lex input).1 (ply.lex input).2)
    (fun c c' hc hstep => hc.next hstep) ⟨rfl, [], .nil, rfl⟩ hr
  rcases hc.raises hstep with herr | hend
  · exact .inl herr
  · rw [ply.lex_eq] at hend
    rcases lexLoop_ending [] input with hnone | hillegal
    · exact absurd (hend.symm.trans hnone) nofun
    · exact .inr (Option.some.inj (hend.symm.trans hillegal))

/-- **The parser** returns what the grammar derives from the tokens of a text; for any other text it raises one of
two messages. The tokens are those that are read character by character, whatever PLY does. -/
theorem parse_spec (ply : Ply) (input : List UInt8) :
    ply.lex input = lexLoop [] input ∧
      (∀ f, parse ply input = .ok f ↔ (ply.lex input).2 = none ∧ Derives .filter (ply.lex input).1 (.filter f)) ∧
      ((∃ f, parse ply input = .ok f) ∨ parse ply input = .error (.ldapfilter "syntax error") ∨
        parse ply input = .error (.ldapfilter "illegal token")) := by
  refine ⟨ply.lex_eq input, fun f => parse_eq_ok_iff, ?_⟩
  cases hres : parse ply input with
  | ok f => exact .inl ⟨f, rfl⟩
  | error e =>
      rcases parse_error hres with rfl | rfl
      · exact .inr (.inl rfl)
      · exact .inr (.inr rfl)

end Asenal.Ad
