import Asenal.Comlog.Chains

/-!
# The hash table as a finite map

* `step_spec` — an operation does to the table what it does to the finite map.
* `run_spec` — so do any operations one after the other.
* `hashMap_refines` — a table that is created answers as the empty map does, in every run.
-/

namespace Asenal.Comlog

open Asenal.Lib.Linked

variable {K V : Type} [DecidableEq K]

/-! ## The map -/

/-- A call. -/
inductive HashOp (K V : Type)
  | get (k : K)
  | set (k : K) (val : V) (flag : ℤ)
  | erase (k : K)

/-- A call on a table, with memory left. -/
def HashMap.step (t : HashMap K V) (fuel : ℕ) : HashOp K V → Option (Answer V × HashMap K V)
  | .get k => (t.get fuel k).map fun a => (a, t)
  | .set k val flag => t.set fuel true k val flag
  | .erase k => t.erase fuel k

/-- Calls one after the other, with the answers to them. -/
def HashMap.run (fuel : ℕ) : HashMap K V → List (HashOp K V) → Option (List (Answer V) × HashMap K V)
  | t, [] => some ([], t)
  | t, op :: ops =>
      (t.step fuel op).bind fun r => (r.2.run fuel ops).map fun s => (r.1 :: s.1, s.2)

/-- What `get` is meant to answer. -/
def mapGet (m : Finmap fun _ : K => V) (k : K) : Answer V :=
  match m.lookup k with
  | some v => ⟨0, some v⟩
  | none => ⟨hashValNoExist, none⟩

/-- What `set` is meant to answer, and to do to the map. -/
def mapSet (m : Finmap fun _ : K => V) (k : K) (val : V) (flag : ℤ) :
    Answer V × Finmap fun _ : K => V :=
  match m.lookup k with
  | some _ => if flag ≠ 0 then (⟨0, none⟩, m.insert k val) else (⟨hashValExist, none⟩, m)
  | none => (⟨0, none⟩, m.insert k val)

/-- What `erase` is meant to answer, and to do to the map. -/
def mapErase (m : Finmap fun _ : K => V) (k : K) : Answer V × Finmap fun _ : K => V :=
  match m.lookup k with
  | some _ => (⟨0, none⟩, m.erase k)
  | none => (⟨hashValNoExist, none⟩, m)

/-- What a call is meant to answer, and to do to the map. -/
def mapStep (m : Finmap fun _ : K => V) : HashOp K V → Answer V × Finmap fun _ : K => V
  | .get k => (mapGet m k, m)
  | .set k val flag => mapSet m k val flag
  | .erase k => mapErase m k

/-- What calls one after the other are meant to do. -/
def mapRun (m : Finmap fun _ : K => V) : List (HashOp K V) → List (Answer V) × Finmap fun _ : K => V
  | [] => ([], m)
  | op :: ops =>
      let r := mapStep m op
      let s := mapRun r.2 ops
      (r.1 :: s.1, s.2)

variable {t : HashMap K V} {m : Finmap fun _ : K => V} {place : Option UInt32 → List NodeAddr}

/-- The table holds the map, and counts its keys. -/
structure Holds (t : HashMap K V) (m : Finmap fun _ : K => V) : Prop where
  represents : ∃ place, Represents t m place
  nodeNum : t.nodeNum = Int32.ofNat m.keys.card

theorem keys_insert (m : Finmap fun _ : K => V) (k : K) (v : V) :
    (m.insert k v).keys = insert k m.keys := by
  ext a
  rw [Finmap.mem_keys, Finmap.mem_insert, Finset.mem_insert, Finmap.mem_keys]

/-! ## The operations -/

theorem lookup_mapSet (m : Finmap fun _ : K => V) (k : K) (v : V) (flag : ℤ) (a : K) :
    (mapSet m k v flag).2.lookup a =
      if a = k then (if flag = 0 then (m.lookup k).or (some v) else some v) else m.lookup a := by
  unfold mapSet
  cases hlookup : m.lookup k with
  | none =>
      dsimp only
      split_ifs with heq
      · rw [heq, Finmap.lookup_insert]
        rfl
      · rw [heq, Finmap.lookup_insert]
      · rw [Finmap.lookup_insert_of_ne m heq]
  | some w =>
      dsimp only
      by_cases hflag : flag = 0
      · rw [if_neg (not_not.mpr hflag), if_pos hflag]
        split_ifs with heq
        · rw [heq, hlookup]
          rfl
        · rfl
      · rw [if_pos hflag, if_neg hflag]
        split_ifs with heq
        · rw [heq, Finmap.lookup_insert]
        · rw [Finmap.lookup_insert_of_ne m heq]

/-- **The search** finds the node of a key that is in the map, and comes to the end of the chain of one
that is not. -/
theorem Represents.walk (h : Represents t m place) (k : K) :
    (∃ pre p post, place (some (t.getHashKey k)) = pre ++ p :: post ∧ t.key p = k ∧
      m.lookup k = some (t.value p) ∧
      ∀ fuel, (place (some (t.getHashKey k))).length ≤ fuel →
        t.walk fuel k = some (pre.getLast?, some p)) ∨
    (m.lookup k = none ∧
      ∀ fuel, (place (some (t.getHashKey k))).length ≤ fuel →
        t.walk fuel k = some ((place (some (t.getHashKey k))).getLast?, none)) := by
  have hlinked := h.lists.linked (some (t.getHashKey k))
  by_cases hthere : ∃ p ∈ place (some (t.getHashKey k)), t.key p = k
  · left
    obtain ⟨p, hp, hpk⟩ := hthere
    obtain ⟨pre, post, hplace⟩ := List.append_of_mem hp
    have hdistinct := h.distinct (t.getHashKey k)
    rw [hplace] at hlinked
    rw [hplace, List.map_append, List.map_cons] at hdistinct
    have hpre : ∀ b ∈ pre, (t.node b).key ≠ k := by
      intro b hb heq
      apply (List.nodup_cons.mp (List.nodup_middle.mp hdistinct)).1
      rw [hpk, ← heq]
      exact List.mem_append_left _ (List.mem_map_of_mem hb)
    refine ⟨pre, p, post, hplace, hpk, (h.holds k _).mpr ⟨p, hp, hpk, rfl⟩, fun fuel hfuel => ?_⟩
    rw [hplace] at hfuel
    exact (walk_found hpre hpk hlinked hfuel).trans (by rw [Option.or_none])
  · right
    constructor
    · cases hlookup : m.lookup k with
      | none => rfl
      | some v =>
          obtain ⟨p, hp, hpk, -⟩ := (h.holds k v).mp hlookup
          exact absurd ⟨p, hp, hpk⟩ hthere
    · intro fuel hfuel
      have habsent : ∀ a ∈ place (some (t.getHashKey k)), (t.node a).key ≠ k :=
        fun a ha heq => hthere ⟨a, ha, heq⟩
      exact (walk_absent habsent hlinked hfuel).trans (by rw [Option.or_none])

theorem get_spec (h : Holds t m) (k : K) :
    ∃ bound, ∀ fuel, bound ≤ fuel → t.get fuel k = some (mapGet m k) := by
  obtain ⟨place, hrep⟩ := h.represents
  refine ⟨(place (some (t.getHashKey k))).length, fun fuel hfuel => ?_⟩
  unfold HashMap.get mapGet
  rcases hrep.walk k with ⟨pre, p, post, -, -, hlookup, hwalk⟩ | ⟨hlookup, hwalk⟩
  · rw [hwalk fuel hfuel, hlookup]
    rfl
  · rw [hwalk fuel hfuel, hlookup]
    rfl

/-- A key that is in the map gets its new value. -/
theorem set_present (hrep : Represents t m place) (hnum : t.nodeNum = Int32.ofNat m.keys.card) (k : K)
    (val : V) {p : NodeAddr} (hin : p ∈ place (some (t.getHashKey k))) (hpk : t.key p = k) :
    Holds (t.write p { t.node p with value := val }) (m.insert k val) := by
  have hover := hrep.overwrite hin val
  rw [hpk] at hover
  refine ⟨⟨place, hover⟩, ?_⟩
  have hlookup : m.lookup k = some (t.value p) := (hrep.holds k _).mpr ⟨p, hin, hpk, rfl⟩
  have hkey : k ∈ m.keys := Finmap.mem_keys.mpr (Finmap.mem_of_lookup_eq_some hlookup)
  rw [keys_insert, Finset.insert_eq_of_mem hkey]
  exact hnum

/-- A key that is not in the map gets a node at the end of its chain. -/
theorem set_absent (hrep : Represents t m place) (hnum : t.nodeNum = Int32.ofNat m.keys.card) (k : K)
    (val : V) (hlookup : m.lookup k = none) :
    ∃ p s, t.getNodeSpace true = some (p, s) ∧
      ∀ u, (s.write p ⟨k, val, none⟩).link (t.getHashKey k)
          (place (some (t.getHashKey k))).getLast? (some p) = u →
        Holds { u with nodeNum := u.nodeNum + 1 } (m.insert k val) := by
  obtain ⟨p, s, place', hspace, hnew, hp, hhanded, hchains, hhash, hsnum⟩ := hrep.getNodeSpace
  refine ⟨p, s, hspace, fun u hu => ?_⟩
  have hwrite := hnew.write hp ⟨k, val, none⟩
  have hnode : (s.write p ⟨k, val, none⟩).node p = ⟨k, val, none⟩ := Function.update_self ..
  have happend := hwrite.append hp hhanded hnode (congrFun hhash k) hlookup
  rw [hchains, hu] at happend
  have hcount : u.nodeNum = t.nodeNum := by
    rw [← hu, nodeNum_link]
    exact hsnum
  refine ⟨⟨_, happend.counted _⟩, ?_⟩
  have hkey : k ∉ m.keys := fun hk => Finmap.lookup_eq_none.mp hlookup (Finmap.mem_keys.mp hk)
  rw [keys_insert, Finset.card_insert_of_notMem hkey, Int32.ofNat_add, ← hnum, ← hcount]
  rfl

theorem set_spec (h : Holds t m) (k : K) (val : V) (flag : ℤ) :
    ∃ s, Holds s (mapSet m k val flag).2 ∧ ∃ bound, ∀ fuel, bound ≤ fuel →
      t.set fuel true k val flag = some ((mapSet m k val flag).1, s) := by
  obtain ⟨⟨place, hrep⟩, hnum⟩ := h
  let bound := (place (some (t.getHashKey k))).length
  unfold mapSet
  rcases hrep.walk k with ⟨pre, p, post, hplace, hpk, hlookup, hwalk⟩ | ⟨hlookup, hwalk⟩
  · rw [hlookup]
    dsimp only
    split_ifs with hflag
    · have hin : p ∈ place (some (t.getHashKey k)) := by
        rw [hplace]
        simp
      refine ⟨_, set_present hrep hnum k val hin hpk, bound, fun fuel hfuel => ?_⟩
      unfold HashMap.set
      rw [hwalk fuel hfuel]
      exact if_pos hflag
    · refine ⟨t, ⟨⟨place, hrep⟩, hnum⟩, bound, fun fuel hfuel => ?_⟩
      unfold HashMap.set
      rw [hwalk fuel hfuel]
      exact if_neg hflag
  · rw [hlookup]
    obtain ⟨p, s, hspace, hholds⟩ := set_absent hrep hnum k val hlookup
    refine ⟨_, hholds _ rfl, bound, fun fuel hfuel => ?_⟩
    unfold HashMap.set
    rw [hwalk fuel hfuel, Option.bind_eq_bind, Option.bind_some]
    dsimp only
    rw [hspace]

section

omit [DecidableEq K]

/-- A block that was there is gone on to whatever `malloc` answers. -/
theorem nextBlock_malloc {s : HashMap K V} (h : t.nextBlock false = some s) : t.nextBlock true = some s := by
  unfold HashMap.nextBlock at h ⊢
  split at h
  next => exact h
  next => exact absurd h nofun

/-- Where `malloc` gives no memory, a node is handed out as if it did, or none is. -/
theorem getNodeSpace_malloc {p : NodeAddr} {s : HashMap K V} {malloc : Bool}
    (h : t.getNodeSpace malloc = some (p, s)) : t.getNodeSpace true = some (p, s) := by
  unfold HashMap.getNodeSpace at h ⊢
  split at h
  next => exact h
  next =>
    split_ifs at h ⊢
    · cases malloc with
      | true => exact h
      | false =>
          obtain ⟨u, hnext, hu⟩ := Option.map_eq_some_iff.mp h
          rw [nextBlock_malloc hnext, Option.map_some, hu]
    · exact h

end

/-- **Whatever `malloc` answers**, a key is set as in a map, or it is new and the table is left as it was. -/
theorem set_malloc (h : Holds t m) (malloc : Bool) (k : K) (val : V) (flag : ℤ) :
    (∃ bound, ∀ fuel, bound ≤ fuel → t.set fuel malloc k val flag = t.set fuel true k val flag) ∨
      malloc = false ∧ m.lookup k = none ∧
        ∃ bound, ∀ fuel, bound ≤ fuel → t.set fuel malloc k val flag = some (⟨hashAcllomemError, none⟩, t) := by
  obtain ⟨⟨place, hrep⟩, hnum⟩ := h
  let bound := (place (some (t.getHashKey k))).length
  rcases hrep.walk k with ⟨pre, p, post, -, -, -, hwalk⟩ | ⟨hlookup, hwalk⟩
  · refine .inl ⟨bound, fun fuel hfuel => ?_⟩
    unfold HashMap.set
    rw [hwalk fuel hfuel]
    rfl
  · cases hspace : t.getNodeSpace malloc with
    | some r =>
        refine .inl ⟨bound, fun fuel hfuel => ?_⟩
        unfold HashMap.set
        rw [hwalk fuel hfuel, Option.bind_eq_bind, Option.bind_some]
        dsimp only
        rw [hspace, getNodeSpace_malloc hspace]
        rfl
    | none =>
        have hfalse : malloc = false := by
          obtain ⟨p, s, hgranted, -⟩ := set_absent hrep hnum k val hlookup
          rw [Bool.eq_false_iff]
          rintro rfl
          exact absurd (hspace.symm.trans hgranted) nofun
        refine .inr ⟨hfalse, hlookup, bound, fun fuel hfuel => ?_⟩
        unfold HashMap.set
        rw [hwalk fuel hfuel, Option.bind_eq_bind, Option.bind_some]
        dsimp only
        rw [hspace]

theorem erase_spec (h : Holds t m) (k : K) :
    ∃ s, Holds s (mapErase m k).2 ∧ ∃ bound, ∀ fuel, bound ≤ fuel →
      t.erase fuel k = some ((mapErase m k).1, s) := by
  obtain ⟨⟨place, hrep⟩, hnum⟩ := h
  let bound := (place (some (t.getHashKey k))).length
  unfold mapErase
  rcases hrep.walk k with ⟨pre, p, post, hplace, hpk, hlookup, hwalk⟩ | ⟨hlookup, hwalk⟩
  · rw [hlookup]
    have hin : p ∈ place (some (t.getHashKey k)) := by
      rw [hplace]
      simp
    obtain ⟨hremove, hp⟩ := hrep.remove hplace
    have hhanded : (t.link (t.getHashKey k) pre.getLast? (t.next p)).Handed p := by
      rw [handed_link]
      exact hrep.handed hin
    obtain ⟨place', hrecycle⟩ := hremove.recycle hp hhanded
    obtain ⟨u, hu⟩ : ∃ u, (t.link (t.getHashKey k) pre.getLast? (t.next p)).recycle p = u := ⟨_, rfl⟩
    have hcount : u.nodeNum = t.nodeNum := by
      rw [← hu, nodeNum_recycle, nodeNum_link]
    rw [hu, hpk] at hrecycle
    refine ⟨{ u with nodeNum := u.nodeNum - 1 }, ⟨⟨place', hrecycle.counted _⟩, ?_⟩, bound,
      fun fuel hfuel => ?_⟩
    · have hkey : k ∈ m.keys := Finmap.mem_keys.mpr (Finmap.mem_of_lookup_eq_some hlookup)
      have hpos : 1 ≤ m.keys.card := Finset.card_pos.mpr ⟨k, hkey⟩
      dsimp only
      rw [Finmap.keys_erase, Finset.card_erase_of_mem hkey, Int32.ofNat_sub _ _ hpos, ← hnum, hcount]
      rfl
    · unfold HashMap.erase
      rw [hwalk fuel hfuel, ← hu]
      rfl
  · rw [hlookup]
    refine ⟨t, ⟨⟨place, hrep⟩, hnum⟩, bound, fun fuel hfuel => ?_⟩
    unfold HashMap.erase
    rw [hwalk fuel hfuel]
    rfl

/-- **An operation** does to the table what it is meant to do to the map, if it may take enough steps. -/
theorem step_spec (h : Holds t m) (op : HashOp K V) :
    ∃ s, Holds s (mapStep m op).2 ∧ ∃ bound, ∀ fuel, bound ≤ fuel →
      t.step fuel op = some ((mapStep m op).1, s) := by
  cases op with
  | get k =>
      obtain ⟨bound, hget⟩ := get_spec h k
      refine ⟨t, h, bound, fun fuel hfuel => ?_⟩
      exact congrArg (Option.map fun a => (a, t)) (hget fuel hfuel)
  | set k val flag => exact set_spec h k val flag
  | erase k => exact erase_spec h k

/-! ## Runs -/

/-- **Any operations** do to the table what they are meant to do to the map. -/
theorem run_spec (h : Holds t m) (ops : List (HashOp K V)) :
    ∃ s, Holds s (mapRun m ops).2 ∧ ∃ bound, ∀ fuel, bound ≤ fuel →
      t.run fuel ops = some ((mapRun m ops).1, s) := by
  induction ops generalizing t m with
  | nil => exact ⟨t, h, 0, fun fuel _ => rfl⟩
  | cons op ops ih =>
      obtain ⟨u, hu, boundStep, hstep⟩ := step_spec h op
      obtain ⟨s, hs, boundRun, hrun⟩ := ih hu
      refine ⟨s, hs, max boundStep boundRun, fun fuel hfuel => ?_⟩
      rw [HashMap.run, hstep fuel (le_of_max_le_left hfuel), Option.bind_some,
        hrun fuel (le_of_max_le_right hfuel)]
      rfl

/-- A new table holds the empty map. -/
theorem create_spec (threadSafe : Bool) (junk : NodeAddr → HashNode K V) (blockNext : ℕ → Option ℕ)
    {hn : Int32} (hpos : 0 < hn) (fcn : K → UInt32) :
    ∃ t, HashMap.create threadSafe junk blockNext hn fcn = some t ∧ Holds t ∅ := by
  refine ⟨_, if_neg (Int32.not_le.mpr hpos), ⟨fun _ => [], ?_⟩, rfl⟩
  refine ⟨⟨fun i => ?_, fun _ => List.nodup_nil, fun ha _ => absurd ha List.not_mem_nil⟩,
    fun _ => List.nodup_nil, fun hp => absurd hp List.not_mem_nil, fun k v => ?_,
    fun hp => absurd hp List.not_mem_nil, ?_, rfl⟩
  · cases i <;> rfl
  · rw [Finmap.lookup_empty]
    constructor
    · exact fun hnone => absurd hnone.symm (Option.some_ne_none v)
    · rintro ⟨p, hp, -⟩
      exact absurd hp List.not_mem_nil
  · show Function.update blockNext 0 none 0 = none
    rw [Function.update_self]

/-- **The table is a finite map**: it answers any calls as the map does, its size is the number of keys
(as long as that is an `int`), and no node is in two places. -/
theorem hashMap_refines (threadSafe : Bool) (junk : NodeAddr → HashNode K V) (blockNext : ℕ → Option ℕ)
    (hn : Int32) (hpos : 0 < hn) (fcn : K → UInt32) (ops : List (HashOp K V)) :
    ∃ t s bound, HashMap.create threadSafe junk blockNext hn fcn = some t ∧
      (∀ fuel, bound ≤ fuel → t.run fuel ops = some ((mapRun ∅ ops).1, s)) ∧
      ((mapRun ∅ ops).2.keys.card < 2 ^ 31 → s.size.toInt = (mapRun ∅ ops).2.keys.card) ∧
      ∃ place, Represents s (mapRun ∅ ops).2 place := by
  obtain ⟨t, hcreate, ht⟩ := create_spec threadSafe junk blockNext hpos fcn
  obtain ⟨s, ⟨hrep, hnum⟩, bound, hrun⟩ := run_spec ht ops
  refine ⟨t, s, bound, hcreate, hrun, fun hcard => ?_, hrep⟩
  unfold HashMap.size
  rw [hnum, Int32.toInt_ofNat_of_lt hcard]

/-- A key is set, asked for, set again, and erased. -/
theorem hashMap_refines_four : ∃ (t s : HashMap ℕ ℕ) (bound : ℕ),
    HashMap.create true (fun _ => ⟨0, 0, none⟩) (fun _ => none) 2 (fun k => UInt32.ofNat k) = some t ∧
      ∀ fuel, bound ≤ fuel → t.run fuel [.set 3 5 0, .get 3, .set 3 6 0, .erase 3] =
        some ([⟨0, none⟩, ⟨0, some 5⟩, ⟨1, none⟩, ⟨0, none⟩], s) := by
  obtain ⟨t, s, bound, hcreate, hrun, -⟩ := hashMap_refines true (fun _ => ⟨0, 0, none⟩)
    (fun _ => none) 2 (by decide) (fun k => UInt32.ofNat k) [.set 3 5 0, .get 3, .set 3 6 0, .erase 3]
  exact ⟨t, s, bound, hcreate, hrun⟩

/-- Calls that set the keys below `n`. -/
def setKeys : ℕ → List (HashOp ℕ Unit)
  | 0 => []
  | n + 1 => .set n () 0 :: setKeys n

theorem card_setKeys (n : ℕ) (m : Finmap fun _ : ℕ => Unit) (hm : ∀ k ∈ m, n ≤ k) :
    (mapRun m (setKeys n)).2.keys.card = m.keys.card + n := by
  induction n generalizing m with
  | zero => rfl
  | succ n ih =>
      have hnew : n ∉ m := fun hn => Nat.not_succ_le_self n (hm n hn)
      have hset : mapSet m n () 0 = (⟨0, none⟩, m.insert n ()) := by
        unfold mapSet
        rw [Finmap.lookup_eq_none.mpr hnew]
      have hkeys : n ∉ m.keys := fun hn => hnew (Finmap.mem_keys.mp hn)
      have hih := ih (m.insert n ()) (by
        intro k hk
        rcases Finmap.mem_insert.mp hk with rfl | hold
        · exact le_refl _
        · exact Nat.le_of_succ_le (hm k hold))
      rw [setKeys, mapRun]
      dsimp only [mapStep]
      rw [hset, hih, keys_insert, Finset.card_insert_of_notMem hkeys, Nat.add_assoc, Nat.add_comm 1 n]

/-- The size of a table of `2 ^ 31` keys is not their number: it is an `int`. -/
theorem hashMap_size_int : ¬ ∀ ops : List (HashOp ℕ Unit), ∃ t s bound,
    HashMap.create false (fun _ => ⟨0, (), none⟩) (fun _ => none) 1 (fun _ => 0) = some t ∧
      (∀ fuel, bound ≤ fuel → t.run fuel ops = some ((mapRun ∅ ops).1, s)) ∧
      s.size.toInt = (mapRun ∅ ops).2.keys.card := by
  intro h
  obtain ⟨t, s, bound, -, -, hsize⟩ := h (setKeys (2 ^ 31))
  rw [card_setKeys (2 ^ 31) ∅ fun k hk => absurd hk Finmap.notMem_empty] at hsize
  have hlt : s.size.toInt < 2 ^ 31 := Int32.toInt_lt s.size
  rw [hsize, Finmap.keys_empty, Finset.card_empty] at hlt
  omega

end Asenal.Comlog
