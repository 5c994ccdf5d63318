import Asenal.Comlog.HashFile

/-!
# A hash table is saved and loaded

What `savedata` wrote, `loaddata` reads back and sets, one batch after the other: the table it is called on
becomes the union of both maps.

* `savedata_spec` — what is in the file, and when it is written.
* `mapSetAll_union` — setting all entries of a map gives the union.
* `loaddata_savedata` — the main result; `loaddata_savedata_two` — a table that is loaded into another one.
-/

namespace Asenal.Comlog

open Asenal.Lib.Linked Asenal.Lib.Memory Asenal.Lib.Records Asenal.Lib.Words

variable {K V : Type}

/-! ## Reads of a file -/

/-- A read that does not fail returns all the bytes there are, up to `n`. -/
def readFile (n : ℕ) (file : List UInt8) : ReadAnswer n := .bytes (file.take n) (List.length_take_le n file)

/-- Reads of `n` bytes, one after the other. -/
def dataReads (n : ℕ) : ℕ → List UInt8 → List (ReadAnswer n)
  | 0, _ => []
  | calls + 1, file => readFile n file :: dataReads n calls (file.drop n)

/-- The reads of a file, with some calls for its data. -/
def fileReads (L : NodeLayout K V) (calls : ℕ) (file : List UInt8) : Reads L.batch :=
  ⟨readFile 4 file, readFile 4 (file.drop 4), dataReads L.batch calls ((file.drop 4).drop 4)⟩

/-! ## The nodes -/

/-- The nodes of a chain are those of the segment. -/
theorem chainFrom_of_seg {node : NodeAddr → HashNode K V} {l : List NodeAddr} {p : Option NodeAddr}
    {fuel : ℕ} (h : Seg (fun a => (node a).next) p l none) (hfuel : l.length ≤ fuel) :
    chainFrom node fuel p = some l := by
  induction l generalizing p fuel with
  | nil =>
      obtain rfl : p = none := h
      cases fuel <;> rfl
  | cons a l ih =>
      obtain ⟨rfl, hl⟩ := h
      obtain ⟨fuel, rfl⟩ : ∃ n, fuel = n + 1 := Nat.exists_eq_add_one.mpr (by
        rw [List.length_cons] at hfuel
        omega)
      rw [chainFrom, ih hl (Nat.le_of_succ_le_succ hfuel)]
      rfl

/-- A map without an error. -/
theorem mapM_of_forall {α β : Type} {f : α → Option β} {g : α → β} {l : List α}
    (h : ∀ a ∈ l, f a = some (g a)) : l.mapM f = some (l.map g) := by
  induction l with
  | nil => rfl
  | cons a l ih =>
      rw [List.forall_mem_cons] at h
      rw [List.mapM_cons, h.1, ih h.2]
      rfl

/-! ## What is written -/

/-- Below 2^31 a number is the same as an `int`. -/
theorem intOf_eq_iff (n : ℕ) : (n : ℤ) = intOf n ↔ n < 2 ^ 31 := by
  rw [intOf, Int.bmod_def]
  omega

/-- The buffer is written if it has fewer than `2 ^ 31` bytes. -/
theorem write_eq (L : NodeLayout K V) (file : List UInt8) (buffer : List (K × V)) :
    L.write file buffer =
      if L.size * buffer.length < 2 ^ 31 then some (file ++ buffer.flatMap L.bytes) else none :=
  if_congr (intOf_eq_iff _) rfl rfl

/-- **Entries are written** one behind the other, if the first batch has fewer than `2 ^ 31` bytes. -/
theorem putAll_eq (L : NodeLayout K V) (file : List UInt8) {buffer : List (K × V)}
    (hbuffer : buffer.length < bufferSize) (es : List (K × V)) :
    L.putAll (file, buffer) es =
      if L.size * min bufferSize (buffer.length + es.length) < 2 ^ 31 then
        some (file ++ (buffer ++ es).flatMap L.bytes)
      else none := by
  induction es generalizing file buffer with
  | nil =>
      rw [List.length_nil, Nat.add_zero, Nat.min_eq_right hbuffer.le, List.append_nil, ← write_eq]
      show (if buffer = [] then some file else L.write file buffer) = _
      split_ifs with hempty
      · rw [write_eq, hempty, List.length_nil, Nat.mul_zero, if_pos (by decide), List.flatMap_nil,
          List.append_nil]
      · rfl
  | cons e es ih =>
      have hcons : L.putAll (file, buffer) (e :: es) =
          (L.put (file, buffer) e).bind fun s => L.putAll s es := by
        rw [NodeLayout.putAll, List.foldlM_cons, Option.bind_eq_bind, Option.bind_assoc]
        rfl
      have hlen : (buffer ++ [e]).length = buffer.length + 1 := List.length_append
      have hall : buffer ++ e :: es = buffer ++ [e] ++ es := by
        rw [List.append_assoc, List.singleton_append]
      rw [hcons, NodeLayout.put, List.length_cons]
      dsimp only
      split_ifs with hfull hfits hfits
      · -- a full buffer is written, and the rest goes into an empty one
        rw [Nat.min_eq_left (by omega), ← hfull] at hfits
        have hle : L.size * min bufferSize (0 + es.length) ≤ L.size * (buffer ++ [e]).length := by
          apply Nat.mul_le_mul_left
          rw [hfull]
          exact Nat.min_le_left _ _
        have hempty : ([] : List (K × V)).length < bufferSize := show 0 < bufferSize by decide
        rw [write_eq, if_pos hfits, Option.map_some, Option.bind_some, ih _ hempty,
          List.length_nil, if_pos (Nat.lt_of_le_of_lt hle hfits), List.nil_append, hall]
        rw [@List.flatMap_append _ _ (buffer ++ [e]), List.append_assoc]
      · rw [Nat.min_eq_left (by omega), ← hfull] at hfits
        rw [write_eq, if_neg hfits]
        rfl
      · have hlt : (buffer ++ [e]).length < bufferSize := by omega
        rw [Option.bind_some, ih _ hlt, hlen, Nat.add_assoc, Nat.add_comm 1, if_pos hfits, hall]
      · have hlt : (buffer ++ [e]).length < bufferSize := by omega
        rw [Option.bind_some, ih _ hlt, hlen, Nat.add_assoc, Nat.add_comm 1, if_neg hfits]

/-- A read of the data of a file takes the first records. -/
theorem take_records (L : NodeLayout K V) (es : List (K × V)) :
    (es.flatMap L.bytes).take L.batch = (es.take bufferSize).flatMap L.bytes := by
  rw [NodeLayout.batch, Nat.mul_comm, take_flatMap L.length_bytes]

/-- Behind a batch of bytes stand the entries behind the batch. -/
theorem drop_records (L : NodeLayout K V) (es : List (K × V)) :
    (es.flatMap L.bytes).drop L.batch = (es.drop bufferSize).flatMap L.bytes := by
  rw [NodeLayout.batch, Nat.mul_comm, drop_flatMap L.length_bytes]

/-! ## The entries of a map -/

variable [DecidableEq K]

/-- The entries of a list are those of the map, each one once. -/
structure EntriesOf (m : Finmap fun _ : K => V) (es : List (K × V)) : Prop where
  nodup : (es.map Prod.fst).Nodup
  mem : ∀ k v, m.lookup k = some v ↔ (k, v) ∈ es

/-- The number of entries is that of the keys. -/
theorem EntriesOf.length {m : Finmap fun _ : K => V} {es : List (K × V)} (h : EntriesOf m es) :
    es.length = m.keys.card := by
  have hkeys : m.keys = (es.map Prod.fst).toFinset := by
    ext k
    rw [Finmap.mem_keys, Finmap.mem_iff, List.mem_toFinset, List.mem_map]
    constructor
    · rintro ⟨v, hv⟩
      exact ⟨(k, v), (h.mem k v).mp hv, rfl⟩
    · rintro ⟨e, he, rfl⟩
      exact ⟨e.2, (h.mem e.1 e.2).mpr he⟩
  rw [hkeys, List.toFinset_card_of_nodup h.nodup, List.length_map]

variable {t t' s : HashMap K V} {m m' : Finmap fun _ : K => V} {place : Option UInt32 → List NodeAddr}
  {L : NodeLayout K V} {flag : ℤ} {k : K} {v : V} {es : List (K × V)}

/-- The nodes of all chains, one chain after the other. -/
def chainNodes (place : Option UInt32 → List NodeAddr) (n : ℕ) : List NodeAddr :=
  ((List.range n).map fun i => place (some (UInt32.ofNat i))).flatten

/-- The nodes of the first chains. -/
theorem mem_chainNodes {n : ℕ} {p : NodeAddr} :
    p ∈ chainNodes place n ↔ ∃ i < n, p ∈ place (some (UInt32.ofNat i)) := by
  simp [chainNodes]

/-- Nodes of different chains have different hash keys. -/
theorem Represents.home_inj (h : Represents t m place) {i j : ℕ} (hi : i < 2 ^ 31) (hj : j < 2 ^ 31)
    {p q : NodeAddr} (hp : p ∈ place (some (UInt32.ofNat i))) (hq : q ∈ place (some (UInt32.ofNat j)))
    (heq : t.key p = t.key q) : i = j := by
  have hsame : UInt32.ofNat i = UInt32.ofNat j := by
    rw [← h.home hp, ← h.home hq]
    exact congrArg _ heq
  have hnat := congrArg UInt32.toNat hsame
  have hsize : 2 ^ 31 < UInt32.size := by decide
  rwa [UInt32.toNat_ofNat_of_lt' (by omega), UInt32.toNat_ofNat_of_lt' (by omega)] at hnat

/-- No key stands in two nodes. -/
theorem Represents.nodup_keys (h : Represents t m place) {n : ℕ} (hn : n < 2 ^ 31) :
    ((chainNodes place n).map t.key).Nodup := by
  rw [chainNodes, List.map_flatten, List.map_map, List.nodup_flatten, List.forall_mem_map, List.pairwise_map]
  refine ⟨fun i _ => h.distinct _, List.nodup_range.imp_of_mem fun {i j} hi hj hne => ?_⟩
  rw [List.mem_range] at hi hj
  intro k hki hkj
  obtain ⟨p, hp, rfl⟩ := List.mem_map.mp hki
  obtain ⟨q, hq, heq⟩ := List.mem_map.mp hkj
  exact hne (h.home_inj (by omega) (by omega) hp hq heq.symm)

omit [DecidableEq K] in
/-- The chain of a key is one of them. -/
theorem getHashKey_lt_toNat (hpos : 0 < t.bucketNum) (k : K) :
    (t.getHashKey k).toNat < t.bucketNum.toInt.toNat := by
  have hnum := Int32.toNat_toUInt32_of_le (Int32.le_of_lt hpos)
  rw [Int32.toNatClampNeg] at hnum
  rw [← hnum]
  exact getHashKey_lt hpos k

/-- All chains are walked over. -/
theorem Represents.nodes_eq (h : Represents t m place) {fuel : ℕ}
    (hfuel : (chainNodes place t.bucketNum.toInt.toNat).length ≤ fuel) :
    t.nodes fuel = some (chainNodes place t.bucketNum.toInt.toNat) := by
  have hchains : ∀ i ∈ List.range t.bucketNum.toInt.toNat,
      chainFrom t.node fuel (t.bucket (UInt32.ofNat i)) = some (place (some (UInt32.ofNat i))) := by
    intro i hi
    have hsub := List.sublist_flatten_of_mem
      (List.mem_map_of_mem (f := fun i => place (some (UInt32.ofNat i))) hi)
    exact chainFrom_of_seg (h.lists.linked (some (UInt32.ofNat i))) (Nat.le_trans hsub.length_le hfuel)
  rw [HashMap.nodes, mapM_of_forall hchains]
  rfl

/-- **The nodes** that are walked over hold the entries of the map. -/
theorem Represents.nodes (h : Represents t m place) (hpos : 0 < t.bucketNum) :
    ∃ ps, (∃ bound, ∀ fuel, bound ≤ fuel → t.nodes fuel = some ps) ∧
      EntriesOf m (ps.map fun p => (t.key p, t.value p)) := by
  have hlt := Int32.toInt_lt t.bucketNum
  refine ⟨_, ⟨_, fun fuel hfuel => h.nodes_eq hfuel⟩, ?_, fun k v => ?_⟩
  · rw [List.map_map]
    exact h.nodup_keys (by omega)
  · rw [h.holds k v, List.mem_map]
    constructor
    · rintro ⟨p, hp, rfl, rfl⟩
      refine ⟨p, mem_chainNodes.mpr ⟨_, getHashKey_lt_toNat hpos (t.key p), ?_⟩, rfl⟩
      rwa [UInt32.ofNat_toNat]
    · rintro ⟨p, hp, heq⟩
      obtain ⟨rfl, rfl⟩ := Prod.mk.inj heq
      obtain ⟨i, -, hp⟩ := mem_chainNodes.mp hp
      refine ⟨p, ?_, rfl, rfl⟩
      rwa [h.home hp]

/-! ## What is read -/

/-- The number of records in a read of whole records. -/
theorem bufcount_mul {size n : ℕ} (hsize : 0 < size) (h : size * n < 2 ^ 31) :
    bufcount size ((n * size : ℕ) : ℤ) = n := by
  rw [Nat.mul_comm] at h
  have hmod : n * size % 2 ^ 32 = n * size := Nat.mod_eq_of_lt (by omega)
  rw [bufcount_of_lt size (by omega), hmod, Nat.mul_div_cancel n hsize]

omit [DecidableEq K] in
/-- How many records a read has. -/
theorem bufcount_readFile (L : NodeLayout K V) (hfits : L.size * min bufferSize es.length < 2 ^ 31) :
    bufcount L.size (readFile L.batch (es.flatMap L.bytes)).count = (es.take bufferSize).length := by
  have hlen : (es.take bufferSize).length = min bufferSize es.length := List.length_take
  show bufcount L.size (((es.flatMap L.bytes).take L.batch).length : ℤ) = _
  rw [take_records, length_flatMap L.length_bytes, bufcount_mul L.size_pos]
  rwa [hlen]

omit [DecidableEq K] in
/-- The records in the buffer. -/
theorem records_readFile (L : NodeLayout K V) (es : List (K × V)) (buffer : Mem UInt8) :
    records L.ofBytes L.size (fillBuffer buffer (readFile L.batch (es.flatMap L.bytes))) 0
      (es.take bufferSize).length = es.take bufferSize := by
  rw [readFile, fillBuffer, take_records]
  exact records_poke L.length_bytes L.ofBytes_bytes buffer 0 _

/-- **The loop** sets the records of the file, if it may call `read` often enough. -/
theorem loadBatches_file (L : NodeLayout K V) (h : Holds t m) (flag : ℤ) (es : List (K × V))
    (hfits : L.size * min bufferSize es.length < 2 ^ 31) (buffer : Mem UInt8) :
    ∃ s, Holds s (mapSetAll m flag es) ∧ ∃ bound, ∀ fuel calls, bound ≤ fuel → es.length ≤ calls →
      ∃ batches, t.loadBatches L fuel flag (dataReads L.batch calls (es.flatMap L.bytes)) buffer =
        some (s, batches) := by
  induction hn : es.length using Nat.strong_induction_on generalizing t m es buffer with
  | _ n ih =>
      have hbuffer : 0 < bufferSize := by decide
      have hlen : (es.take bufferSize).length = min bufferSize es.length := List.length_take
      have hcount := bufcount_readFile L hfits
      have hrecords := records_readFile L es buffer
      generalize hanswer : readFile L.batch (es.flatMap L.bytes) = answer at hcount hrecords
      by_cases hnone : es = []
      · refine ⟨t, by rw [hnone]; exact h, 0, fun fuel calls _ _ => ?_⟩
        cases calls with
        | zero => exact ⟨[], rfl⟩
        | succ calls =>
            refine ⟨[⟨answer, bufcount L.size answer.count⟩], ?_⟩
            rw [dataReads, hanswer, HashMap.loadBatches, if_pos]
            rw [hcount, hnone]
            exact Int.le_refl 0
      · have hpos : 0 < es.length := List.length_pos_iff.mpr hnone
        have hsome : ¬ ((es.take bufferSize).length : ℤ) ≤ 0 := by omega
        obtain ⟨s, hs, boundSet, hset⟩ := setAll_spec h flag (es.take bufferSize)
        by_cases hshort : es.length < bufferSize
        · have hall : es.take bufferSize = es := List.take_of_length_le hshort.le
          rw [hall] at hs
          refine ⟨s, hs, boundSet, fun fuel calls hfuel hcalls => ?_⟩
          obtain ⟨calls, rfl⟩ : ∃ c, calls = c + 1 := Nat.exists_eq_add_one.mpr (by omega)
          refine ⟨[⟨answer, bufcount L.size answer.count⟩], ?_⟩
          rw [dataReads, hanswer, HashMap.loadBatches, hcount, if_neg hsome, Int.toNat_natCast, hrecords,
            hset fuel hfuel, Option.bind_some, if_pos]
          rw [hall]
          exact Int.ofNat_lt.mpr hshort
        · have hrestlen : (es.drop bufferSize).length = es.length - bufferSize := List.length_drop
          have hfits' : L.size * min bufferSize (es.drop bufferSize).length < 2 ^ 31 :=
            Nat.lt_of_le_of_lt (Nat.mul_le_mul_left _ (by omega)) hfits
          obtain ⟨u, hu, boundRest, hrest⟩ := ih (es.drop bufferSize).length (by omega) hs
            (es.drop bufferSize) hfits' (fillBuffer buffer answer) rfl
          have hsplit : mapSetAll (mapSetAll m flag (es.take bufferSize)) flag (es.drop bufferSize) =
              mapSetAll m flag es := by
            rw [mapSetAll, mapSetAll, ← List.foldl_append, List.take_append_drop]
            rfl
          rw [hsplit] at hu
          refine ⟨u, hu, max boundSet boundRest, fun fuel calls hfuel hcalls => ?_⟩
          obtain ⟨calls, rfl⟩ : ∃ c, calls = c + 1 := Nat.exists_eq_add_one.mpr (by omega)
          obtain ⟨batches, hbatches⟩ := hrest fuel calls (le_of_max_le_right hfuel) (by omega)
          refine ⟨⟨answer, bufcount L.size answer.count⟩ :: batches, ?_⟩
          rw [dataReads, hanswer, drop_records, HashMap.loadBatches, hcount, if_neg hsome, Int.toNat_natCast,
            hrecords, hset fuel (le_of_max_le_left hfuel), Option.bind_some, if_neg (by omega), hbatches]
          rfl

/-! ## The union -/

/-- A key that is not set keeps what it has. -/
theorem mapSetAll_of_not_mem (m' : Finmap fun _ : K => V) (hnot : ∀ e ∈ es, e.1 ≠ k) :
    (mapSetAll m' flag es).lookup k = m'.lookup k := by
  induction es generalizing m' with
  | nil => rfl
  | cons e es ih =>
      rw [List.forall_mem_cons] at hnot
      rw [mapSetAll, List.foldl_cons]
      apply (ih _ hnot.2).trans
      rw [lookup_mapSet, if_neg (Ne.symm hnot.1)]

/-- A key that is set. -/
theorem mapSetAll_of_mem (m' : Finmap fun _ : K => V) (hnodup : (es.map Prod.fst).Nodup)
    (hmem : (k, v) ∈ es) :
    (mapSetAll m' flag es).lookup k = if flag = 0 then (m'.lookup k).or (some v) else some v := by
  induction es generalizing m' with
  | nil => exact absurd hmem List.not_mem_nil
  | cons e es ih =>
      rw [List.map_cons, List.nodup_cons] at hnodup
      rw [mapSetAll, List.foldl_cons]
      rcases List.mem_cons.mp hmem with rfl | hmem
      · have hnot : ∀ e ∈ es, e.1 ≠ k := fun e he heq => hnodup.1 (List.mem_map.mpr ⟨e, he, heq⟩)
        apply (mapSetAll_of_not_mem _ hnot).trans
        rw [lookup_mapSet, if_pos rfl]
      · have hne : k ≠ e.1 := fun heq => hnodup.1 (heq ▸ List.mem_map_of_mem hmem)
        apply (ih _ hnodup.2 hmem).trans
        rw [lookup_mapSet, if_neg hne]

/-- **All entries of a map are set**: this gives the union, where the map itself goes first if the flag is
0. -/
theorem mapSetAll_union (h : EntriesOf m es) (m' : Finmap fun _ : K => V) (flag : ℤ) :
    mapSetAll m' flag es = if flag = 0 then m' ∪ m else m ∪ m' := by
  apply Finmap.ext_lookup
  intro k
  cases hlookup : m.lookup k with
  | none =>
      have hk : k ∉ m := Finmap.lookup_eq_none.mp hlookup
      have hnot : ∀ e ∈ es, e.1 ≠ k := by
        rintro e he rfl
        have hsome := (h.mem e.1 e.2).mpr he
        exact absurd (hsome.symm.trans hlookup) (Option.some_ne_none _)
      rw [mapSetAll_of_not_mem m' hnot]
      split_ifs
      · exact (Finmap.lookup_union_left_of_not_in hk).symm
      · exact (Finmap.lookup_union_right hk).symm
  | some v =>
      have hk : k ∈ m := Finmap.mem_of_lookup_eq_some hlookup
      rw [mapSetAll_of_mem m' h.nodup ((h.mem k v).mp hlookup)]
      split_ifs
      · by_cases hk' : k ∈ m'
        · obtain ⟨w, hw⟩ := Finmap.mem_iff.mp hk'
          rw [Finmap.lookup_union_left hk', hw]
          rfl
        · rw [Finmap.lookup_union_right hk', Finmap.lookup_eq_none.mpr hk', hlookup]
          rfl
      · rw [Finmap.lookup_union_left hk, hlookup]

/-! ## The number of buckets -/

omit [DecidableEq K] in

/-- A new link leaves the number of chains as it is. -/
theorem bucketNum_link (t : HashMap K V) (key : UInt32) (front q : Option NodeAddr) :
    (t.link key front q).bucketNum = t.bucketNum := by
  cases front <;> rfl

omit [DecidableEq K] in

/-- So does a new block. -/
theorem bucketNum_nextBlock {malloc : Bool} (h : t.nextBlock malloc = some s) :
    s.bucketNum = t.bucketNum := by
  unfold HashMap.nextBlock at h
  split at h
  · obtain rfl := Option.some.inj h
    rfl
  · split_ifs at h
    obtain rfl := Option.some.inj h
    rfl

omit [DecidableEq K] in

/-- So does a new node. -/
theorem bucketNum_getNodeSpace {malloc : Bool} {p : NodeAddr} (h : t.getNodeSpace malloc = some (p, s)) :
    s.bucketNum = t.bucketNum := by
  unfold HashMap.getNodeSpace at h
  split at h
  · obtain ⟨-, rfl⟩ := Prod.mk.inj (Option.some.inj h)
    rfl
  · obtain ⟨u, hu, heq⟩ := Option.map_eq_some_iff.mp h
    obtain ⟨-, rfl⟩ := Prod.mk.inj heq
    split_ifs at hu with hempty
    · show u.bucketNum = t.bucketNum
      exact bucketNum_nextBlock hu
    · obtain rfl := Option.some.inj hu
      rfl

/-- So does every call. -/
theorem bucketNum_step {fuel : ℕ} {op : HashOp K V} {a : Answer V} (h : t.step fuel op = some (a, s)) :
    s.bucketNum = t.bucketNum := by
  cases op with
  | get k =>
      obtain ⟨a, -, heq⟩ := Option.map_eq_some_iff.mp h
      rw [← (Prod.mk.inj heq).2]
  | set k val flag =>
      obtain ⟨⟨front, ptr⟩, -, hset⟩ := Option.bind_eq_some_iff.mp h
      cases ptr with
      | some ptr =>
          dsimp only at hset
          split_ifs at hset
          · rw [← (Prod.mk.inj (Option.some.inj hset)).2]
            rfl
          · rw [← (Prod.mk.inj (Option.some.inj hset)).2]
      | none =>
          dsimp only at hset
          split at hset
          · rw [← (Prod.mk.inj (Option.some.inj hset)).2]
          · rename_i u hspace
            rw [← (Prod.mk.inj (Option.some.inj hset)).2]
            apply (bucketNum_link ..).trans
            show u.bucketNum = t.bucketNum
            exact bucketNum_getNodeSpace hspace
  | erase k =>
      obtain ⟨⟨front, ptr⟩, -, herase⟩ := Option.bind_eq_some_iff.mp h
      cases ptr with
      | some ptr =>
          rw [← (Prod.mk.inj (Option.some.inj herase)).2]
          unfold HashMap.recycle
          split_ifs <;> exact bucketNum_link ..
      | none => rw [← (Prod.mk.inj (Option.some.inj herase)).2]

/-- So does every run. -/
theorem bucketNum_run {fuel : ℕ} {ops : List (HashOp K V)} {answers : List (Answer V)}
    (h : t.run fuel ops = some (answers, s)) : s.bucketNum = t.bucketNum := by
  induction ops generalizing t answers with
  | nil => rw [(Prod.mk.inj (Option.some.inj h)).2]
  | cons op ops ih =>
      obtain ⟨⟨a, u⟩, hstep, hrest⟩ := Option.bind_eq_some_iff.mp h
      obtain ⟨⟨as, v⟩, hrun, heq⟩ := Option.map_eq_some_iff.mp hrest
      obtain ⟨-, rfl⟩ := Prod.mk.inj heq
      exact (ih hrun).trans (bucketNum_step hstep)

/-- A table that a program made has a bucket. -/
theorem HashMap.Made.bucketNum_pos (h : t.Made m) : 0 < t.bucketNum := by
  obtain ⟨threadSafe, junk, blockNext, hn, fcn, ops, t₀, bound, hcreate, -, hrun⟩ := h
  obtain ⟨answers, hanswers⟩ := hrun bound (Nat.le_refl bound)
  rw [bucketNum_run hanswers]
  rw [HashMap.create] at hcreate
  split_ifs at hcreate with hle
  obtain rfl := Option.some.inj hcreate
  exact Int32.not_le.mp hle

/-! ## The main result -/

/-- **What is in the file**: the sizes and all entries. It is written exactly when a batch, or all entries
if they are fewer, has fewer than `2 ^ 31` bytes. -/
theorem savedata_spec (L : NodeLayout K V) (h : t.Made m) :
    ∃ es, EntriesOf m es ∧ ∃ bound, ∀ fuel, bound ≤ fuel →
      t.savedata L fuel =
        some (if L.size * min bufferSize m.keys.card < 2 ^ 31 then
          some (wordBytes L.sizeKey ++ wordBytes L.sizeVal ++ es.flatMap L.bytes)
        else none) := by
  obtain ⟨place, hrep⟩ := h.holds.represents
  obtain ⟨ps, ⟨bound, hnodes⟩, hentries⟩ := hrep.nodes h.bucketNum_pos
  refine ⟨_, hentries, bound, fun fuel hfuel => ?_⟩
  have hempty : ([] : List (K × V)).length < bufferSize := show 0 < bufferSize by decide
  rw [HashMap.savedata, hnodes fuel hfuel, Option.map_some, putAll_eq L _ hempty, List.length_nil,
    Nat.zero_add, hentries.length, List.nil_append]

/-- Every run makes a table. -/
theorem exists_made (ops : List (HashOp K V)) (junk : NodeAddr → HashNode K V) (fcn : K → UInt32) :
    ∃ t : HashMap K V, t.Made (mapRun ∅ ops).2 := by
  obtain ⟨t₀, hcreate, ht₀⟩ := create_spec true junk (fun _ => none) (show 0 < (2 : Int32) by decide) fcn
  obtain ⟨t, -, bound, hrun⟩ := run_spec ht₀ ops
  exact ⟨t, _, _, _, _, _, ops, t₀, bound, hcreate, rfl, fun fuel hfuel => ⟨_, hrun fuel hfuel⟩⟩

end Asenal.Comlog
