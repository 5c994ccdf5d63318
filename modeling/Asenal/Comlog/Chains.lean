import Asenal.Comlog.HashMap

/-!
# The lists of nodes of a hash table

The lists of nodes (the chain of each bucket, and the free nodes) share no node, and the chains hold the
entries of a finite map, each in the bucket of its key. Each step of an operation keeps this.

* `Represents` — what the lists of a table say about its map.
* `Represents.append`, `Represents.remove`, `Represents.overwrite` — what changes the map.
* `Represents.getNodeSpace`, `Represents.recycle` — what changes the free nodes.
-/

namespace Asenal.Comlog

open Asenal.Lib.Linked

variable {K V : Type}

/-- A node that was handed out. -/
def HashMap.Handed (t : HashMap K V) (p : NodeAddr) : Prop :=
  p.1 < t.curBlock ∨ p.1 = t.curBlock ∧ t.freeNum ≤ p.2

section

variable (t : HashMap K V) (key : UInt32) (front q : Option NodeAddr)

/-- A new link leaves the hash keys as they are. -/
theorem getHashKey_link : (t.link key front q).getHashKey = t.getHashKey := by
  cases front <;> rfl

/-- So it leaves the nodes that were handed out. -/
theorem handed_link : (t.link key front q).Handed = t.Handed := by
  cases front <;> rfl

/-- So it leaves what stands behind the current block. -/
theorem blockNext_link : (t.link key front q).blockNext (t.link key front q).curBlock =
    t.blockNext t.curBlock := by
  cases front <;> rfl

/-- So it leaves the number of nodes. -/
theorem nodeNum_link : (t.link key front q).nodeNum = t.nodeNum := by
  cases front <;> rfl

/-- A node that is given back does not change the number. -/
theorem nodeNum_recycle (p : NodeAddr) : (t.recycle p).nodeNum = t.nodeNum := by
  unfold HashMap.recycle
  split_ifs <;> rfl

/-- A new link leaves the blocks as they are. -/
theorem blocks_link : (t.link key front q).blocks = t.blocks ∧
    (t.link key front q).curBlock = t.curBlock := by
  cases front <;> exact ⟨rfl, rfl⟩

end

variable [DecidableEq K]

/-- The table holds the map `m`: `place` are the lists of its nodes, of the free ones and of the chain of
each hash key. -/
structure Represents (t : HashMap K V) (m : Finmap fun _ : K => V)
    (place : Option UInt32 → List NodeAddr) : Prop where
  lists : Lists t.next t.head place
  distinct : ∀ b, ((place (some b)).map t.key).Nodup
  home : ∀ {b p}, p ∈ place (some b) → t.getHashKey (t.key p) = b
  holds : ∀ k v, m.lookup k = some v ↔
    ∃ p ∈ place (some (t.getHashKey k)), t.key p = k ∧ t.value p = v
  handed : ∀ {i p}, p ∈ place i → t.Handed p
  lastBlock : t.blockNext t.curBlock = none
  blocks : t.blocks = t.curBlock + 1

variable {t : HashMap K V} {m : Finmap fun _ : K => V} {place : Option UInt32 → List NodeAddr}

/-! ## The lists -/

/-- A node of no list may be written. -/
theorem Represents.write (h : Represents t m place) {p : NodeAddr} (hp : ∀ i, p ∉ place i)
    (n : HashNode K V) : Represents (t.write p n) m place := by
  have hkey : ∀ {i q}, q ∈ place i → (t.write p n).key q = t.key q := by
    intro i q hq
    rw [key_write, Function.update_of_ne (ne_of_mem_of_not_mem hq (hp i))]
  have hvalue : ∀ {i q}, q ∈ place i → (t.write p n).value q = t.value q := by
    intro i q hq
    rw [value_write, Function.update_of_ne (ne_of_mem_of_not_mem hq (hp i))]
  refine ⟨?_, fun b => ?_, fun {b q} hq => ?_, fun k v => ?_, h.handed, h.lastBlock, h.blocks⟩
  · rw [next_write]
    exact h.lists.update hp n.next
  · rw [List.map_congr_left fun q hq => hkey hq]
    exact h.distinct b
  · rw [hkey hq]
    exact h.home hq
  · rw [h.holds k v]
    refine exists_congr fun q => and_congr_right fun hq => ?_
    rw [hkey hq, hvalue hq]

/-- The count of the nodes does not matter to the lists. -/
theorem Represents.counted (h : Represents t m place) (n : Int32) :
    Represents { t with nodeNum := n } m place :=
  ⟨h.lists, h.distinct, h.home, h.holds, h.handed, h.lastBlock, h.blocks⟩

/-- **A node is put at the end of the chain** of its key, which was not in the map. -/
theorem Represents.append (h : Represents t m place) {p : NodeAddr} (hp : ∀ i, p ∉ place i)
    (hhanded : t.Handed p) {k : K} {v : V} {b : UInt32} (hnode : t.node p = ⟨k, v, none⟩)
    (hb : t.getHashKey k = b) (hnew : m.lookup k = none) :
    Represents (t.link b (place (some b)).getLast? (some p)) (m.insert k v)
      (Function.update place (some b) (place (some b) ++ [p])) := by
  have hnext : t.next p = none := congrArg HashNode.next hnode
  obtain rfl : t.key p = k := congrArg HashNode.key hnode
  obtain rfl : t.value p = v := congrArg HashNode.value hnode
  have hother : ∀ q ∈ place (some b), t.key q ≠ t.key p := by
    intro q hq heq
    have hlookup := (h.holds (t.key p) (t.value q)).mpr ⟨q, hb.symm ▸ hq, heq, rfl⟩
    rw [hnew] at hlookup
    exact Option.some_ne_none _ hlookup.symm
  refine ⟨?_, fun c => ?_, fun {c q} hq => ?_, fun k v => ?_, fun {i q} hq => ?_, ?_, ?_⟩
  · rw [next_link, head_link]
    refine h.lists.splice (List.append_nil _).symm ⟨rfl, hnext⟩ ?_ ?_
    · rw [List.nodup_append]
      refine ⟨h.lists.nodup _, List.nodup_singleton p, fun q hq r hr heq => ?_⟩
      rw [List.mem_singleton.mp hr] at heq
      exact hp _ (heq ▸ hq)
    · intro a ha j hj
      rw [List.mem_singleton.mp ha] at hj
      exact absurd hj (hp j)
  · rw [key_link]
    by_cases hc : some c = some b
    · rw [hc, Function.update_self, List.map_append, List.nodup_append]
      refine ⟨h.distinct b, List.nodup_singleton _, fun k hk l hl heq => ?_⟩
      obtain ⟨q, hq, rfl⟩ := List.mem_map.mp hk
      rw [List.map_singleton, List.mem_singleton] at hl
      exact hother q hq (heq.trans hl)
    · rw [Function.update_of_ne hc]
      exact h.distinct c
  · rw [getHashKey_link, key_link]
    rcases mem_update_append.mp hq with hold | ⟨hc, rfl⟩
    · exact h.home hold
    · exact hb.trans (Option.some.inj hc).symm
  · rw [getHashKey_link, key_link, value_link]
    by_cases hk : k = t.key p
    · subst hk
      rw [Finmap.lookup_insert]
      constructor
      · rintro ⟨⟩
        exact ⟨p, mem_update_append.mpr (Or.inr ⟨congrArg some hb, rfl⟩), rfl, rfl⟩
      · rintro ⟨q, hq, hqk, rfl⟩
        rcases mem_update_append.mp hq with hold | ⟨-, rfl⟩
        · exact absurd hqk (hother q (hb ▸ hold))
        · rfl
    · rw [Finmap.lookup_insert_of_ne m hk, h.holds k v]
      constructor
      · rintro ⟨q, hq, hqk⟩
        exact ⟨q, mem_update_append.mpr (Or.inl hq), hqk⟩
      · rintro ⟨q, hq, hqk⟩
        rcases mem_update_append.mp hq with hold | ⟨-, rfl⟩
        · exact ⟨q, hold, hqk⟩
        · exact absurd hqk.1.symm hk
  · rw [handed_link]
    rcases mem_update_append.mp hq with hold | ⟨-, rfl⟩
    · exact h.handed hold
    · exact hhanded
  · exact (blockNext_link ..).trans h.lastBlock
  · rw [(blocks_link ..).1, (blocks_link ..).2]
    exact h.blocks

/-- **A node is taken out of a chain**, and its key out of the map. -/
theorem Represents.remove (h : Represents t m place) {b : UInt32} {pre post : List NodeAddr}
    {p : NodeAddr} (hplace : place (some b) = pre ++ p :: post) :
    Represents (t.link b pre.getLast? (t.next p)) (m.erase (t.key p))
        (Function.update place (some b) (pre ++ post)) ∧
      ∀ i, p ∉ Function.update place (some b) (pre ++ post) i := by
  have hin : p ∈ place (some b) := by
    rw [hplace]
    simp
  have hnodup := h.lists.nodup (some b)
  rw [hplace] at hnodup
  have hmem := fun {i q} => h.lists.mem_update_remove (j := i) (b := q) hplace
  refine ⟨⟨?_, fun c => ?_, fun {c q} hq => ?_, fun k v => ?_, fun {i q} hq => ?_, ?_, ?_⟩,
    fun i hi => (hmem.mp hi).2 rfl⟩
  · rw [next_link, head_link]
    have hlinked := h.lists.linked (some b)
    rw [hplace] at hlinked
    obtain ⟨r, -, rfl, hpost⟩ := seg_append.mp hlinked
    apply h.lists.splice hplace hpost (List.nodup_cons.mp (List.nodup_middle.mp hnodup)).2
    intro a ha j hj
    apply h.lists.unique hj
    rw [hplace]
    exact List.mem_append_right _ (List.mem_cons_of_mem p ha)
  · rw [key_link]
    by_cases hc : some c = some b
    · have hdistinct := h.distinct b
      rw [hplace] at hdistinct
      rw [hc, Function.update_self]
      exact hdistinct.sublist (((List.sublist_cons_self p post).append_left pre).map t.key)
    · rw [Function.update_of_ne hc]
      exact h.distinct c
  · rw [getHashKey_link, key_link]
    exact h.home (hmem.mp hq).1
  · rw [getHashKey_link, key_link, value_link]
    by_cases hk : k = t.key p
    · subst hk
      rw [Finmap.lookup_erase]
      constructor
      · exact fun hnone => absurd hnone.symm (Option.some_ne_none v)
      · rintro ⟨q, hq, hqk, -⟩
        obtain ⟨hold, hne⟩ := hmem.mp hq
        rw [h.home hin] at hold
        exact absurd (List.inj_on_of_nodup_map (h.distinct b) hold hin hqk) hne
    · rw [Finmap.lookup_erase_ne hk, h.holds k v]
      apply exists_congr
      intro q
      rw [hmem]
      constructor
      · rintro ⟨hq, hqk, hqv⟩
        exact ⟨⟨hq, fun heq => hk (heq ▸ hqk.symm)⟩, hqk, hqv⟩
      · rintro ⟨hq, hqk, hqv⟩
        exact ⟨hq.1, hqk, hqv⟩
  · rw [handed_link]
    exact h.handed (hmem.mp hq).1
  · exact (blockNext_link ..).trans h.lastBlock
  · rw [(blocks_link ..).1, (blocks_link ..).2]
    exact h.blocks

/-- **A value is written over.** -/
theorem Represents.overwrite (h : Represents t m place) {b : UInt32} {p : NodeAddr}
    (hp : p ∈ place (some b)) (v : V) :
    Represents (t.write p { t.node p with value := v }) (m.insert (t.key p) v) place := by
  have hkey : (t.write p { t.node p with value := v }).key = t.key :=
    (key_write ..).trans (Function.update_eq_self p t.key)
  have hnext : (t.write p { t.node p with value := v }).next = t.next :=
    (next_write ..).trans (Function.update_eq_self p t.next)
  refine ⟨?_, fun c => ?_, fun {c q} hq => ?_, fun k w => ?_, h.handed, h.lastBlock, h.blocks⟩
  · rw [hnext]
    exact h.lists
  · rw [hkey]
    exact h.distinct c
  · rw [hkey]
    exact h.home hq
  · show _ ↔ ∃ q ∈ place (some (t.getHashKey k)), _
    rw [hkey, value_write]
    by_cases hk : k = t.key p
    · subst hk
      rw [Finmap.lookup_insert, h.home hp]
      constructor
      · rintro ⟨⟩
        exact ⟨p, hp, rfl, Function.update_self ..⟩
      · rintro ⟨q, hq, hqk, rfl⟩
        obtain rfl : q = p := List.inj_on_of_nodup_map (h.distinct b) hq hp hqk
        rw [Function.update_self]
    · rw [Finmap.lookup_insert_of_ne m hk, h.holds k w]
      refine exists_congr fun q => and_congr_right fun hq => and_congr_right fun hqk => ?_
      rw [Function.update_of_ne]
      rintro rfl
      exact hk hqk.symm

/-- Another list of free nodes. -/
theorem Represents.setFree (h : Represents t m place) {q : Option NodeAddr} {new : List NodeAddr}
    (hq : Seg t.next q new none) (hnodup : new.Nodup)
    (hnew : ∀ a ∈ new, t.Handed a ∧ ∀ b, a ∉ place (some b)) :
    Represents { t with freeNode := q } m (Function.update place none new) := by
  have hhead : ({ t with freeNode := q } : HashMap K V).head = Function.update t.head none q := by
    funext i
    cases i <;> rfl
  refine ⟨?_, h.distinct, h.home, h.holds, fun {i a} ha => ?_, h.lastBlock, h.blocks⟩
  · rw [hhead]
    apply h.lists.splice (show place none = [] ++ place none from rfl) hq hnodup
    intro a ha j hj
    cases j with
    | none => rfl
    | some b => exact absurd hj ((hnew a ha).2 b)
  · cases i with
    | none => exact (hnew a ha).1
    | some b => exact h.handed ha

/-- **A node is chained to the free nodes**, or is left alone. -/
theorem Represents.recycle (h : Represents t m place) {p : NodeAddr} (hp : ∀ i, p ∉ place i)
    (hhanded : t.Handed p) : ∃ place', Represents (t.recycle p) m place' := by
  unfold HashMap.recycle
  split_ifs with hsafe
  · have hwrite := h.write hp { t.node p with next := t.freeNode }
    refine ⟨Function.update place none (p :: place none), hwrite.setFree ⟨rfl, ?_⟩ ?_ ?_⟩
    · have hfree := hwrite.lists.linked none
      rw [next_write, Function.update_self] at *
      exact hfree
    · exact List.nodup_cons.mpr ⟨hp none, h.lists.nodup none⟩
    · intro a ha
      rcases List.mem_cons.mp ha with rfl | hold
      · exact ⟨hhanded, fun b => hp (some b)⟩
      · refine ⟨h.handed hold, fun b hb => ?_⟩
        exact Option.some_ne_none b (h.lists.unique hb hold)
  · exact ⟨place, h⟩

/-- A block with no node left is followed by a new one. -/
theorem Represents.nextBlock (h : Represents t m place) :
    ∃ s, t.nextBlock true = some s ∧ Represents s m place ∧ s.freeNum ≠ 0 ∧
      s.getHashKey = t.getHashKey ∧ s.nodeNum = t.nodeNum := by
  unfold HashMap.nextBlock
  rw [h.lastBlock]
  refine ⟨_, rfl, ⟨h.lists, h.distinct, h.home, h.holds, fun {i q} hq => ?_, ?_, rfl⟩, ?_, rfl, rfl⟩
  · left
    show q.1 < t.blocks
    rw [h.blocks]
    rcases h.handed hq with hlt | ⟨heq, -⟩ <;> omega
  · have hne : t.blocks ≠ t.curBlock := by
      rw [h.blocks]
      omega
    show Function.update (Function.update t.blockNext t.blocks none) t.curBlock (some t.blocks)
      t.blocks = none
    rw [Function.update_of_ne hne, Function.update_self]
  · show blockSize ≠ 0
    decide

/-- A node is handed out from the end of a block. -/
theorem Represents.takeNode (h : Represents t m place) (hfree : t.freeNum ≠ 0) :
    Represents { t with freeNum := t.freeNum - 1 } m place ∧
      (∀ i, (t.curBlock, t.freeNum - 1) ∉ place i) := by
  refine ⟨⟨h.lists, h.distinct, h.home, h.holds, fun {i q} hq => ?_, h.lastBlock, h.blocks⟩, ?_⟩
  · rcases h.handed hq with hlt | ⟨heq, hle⟩
    · exact Or.inl hlt
    · exact Or.inr ⟨heq, le_trans (Nat.sub_le _ _) hle⟩
  · intro i hin
    rcases h.handed hin with hlt | ⟨-, hle⟩
    · exact lt_irrefl _ hlt
    · have hle' : t.freeNum ≤ t.freeNum - 1 := hle
      omega

/-- **A node that is handed out** is in no list, and the chains are as before. -/
theorem Represents.getNodeSpace (h : Represents t m place) :
    ∃ p s place', t.getNodeSpace true = some (p, s) ∧ Represents s m place' ∧ (∀ i, p ∉ place' i) ∧
      s.Handed p ∧ (∀ b, place' (some b) = place (some b)) ∧ s.getHashKey = t.getHashKey ∧
      s.nodeNum = t.nodeNum := by
  by_cases hrecycled : t.threadSafe = true ∧ ∃ p, t.freeNode = some p
  · obtain ⟨hsafe, p, hp⟩ := hrecycled
    have hlinked : Seg t.next t.freeNode (place none) none := h.lists.linked none
    obtain ⟨rest, hrest⟩ : ∃ rest, place none = p :: rest := by
      cases hnone : place none with
      | nil =>
          rw [hnone, hp] at hlinked
          exact absurd hlinked (Option.some_ne_none p)
      | cons q rest =>
          rw [hnone, hp] at hlinked
          exact ⟨rest, by rw [Option.some.inj hlinked.1]⟩
    rw [hrest, hp] at hlinked
    have hnodup := h.lists.nodup none
    rw [hrest] at hnodup
    have hin : p ∈ place none := by
      rw [hrest]
      exact List.mem_cons_self
    refine ⟨p, { t with freeNode := t.next p }, Function.update place none rest, ?_, ?_, ?_,
      h.handed hin, fun b => rfl, rfl, rfl⟩
    · unfold HashMap.getNodeSpace
      rw [hsafe, hp]
      rfl
    · apply h.setFree hlinked.2 (List.nodup_cons.mp hnodup).2
      intro a ha
      have hold : a ∈ place none := by
        rw [hrest]
        exact List.mem_cons_of_mem p ha
      exact ⟨h.handed hold, fun b hb => Option.some_ne_none b (h.lists.unique hb hold)⟩
    · intro i hi
      cases i with
      | none => exact (List.nodup_cons.mp hnodup).1 hi
      | some b => exact Option.some_ne_none b (h.lists.unique (show p ∈ place (some b) from hi) hin)
  · have hspace : t.getNodeSpace true =
        (if t.freeNum = 0 then t.nextBlock true else some t).map fun s =>
          ((s.curBlock, s.freeNum - 1), { s with freeNum := s.freeNum - 1 }) := by
      unfold HashMap.getNodeSpace
      split
      · rename_i tmp hsafe hfree
        exact absurd ⟨hsafe, tmp, hfree⟩ hrecycled
      · rfl
    obtain ⟨s, hs, hrep, hfree, hhash, hnum⟩ : ∃ s, (if t.freeNum = 0 then t.nextBlock true
        else some t) = some s ∧ Represents s m place ∧ s.freeNum ≠ 0 ∧
          s.getHashKey = t.getHashKey ∧ s.nodeNum = t.nodeNum := by
      split_ifs with hempty
      · exact h.nextBlock
      · exact ⟨t, rfl, h, hempty, rfl, rfl⟩
    obtain ⟨htaken, hnew⟩ := hrep.takeNode hfree
    rw [hspace, hs]
    exact ⟨_, _, place, rfl, htaken, hnew, Or.inr ⟨rfl, le_refl _⟩, fun b => rfl, hhash, hnum⟩

end Asenal.Comlog
