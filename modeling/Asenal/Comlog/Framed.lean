import Asenal.Comlog.Send

/-!
# The packets of log records

What `senddata` hands to `writev`, read back as a reader of the wire takes it: a head, and items, each a
header of fixed length and as many bytes as it says.

* `readItems_encode` — the items of a batch are read back.
* `senddata_framed` — the bytes are a log head and items that a reader takes apart again.
-/

namespace Asenal.Comlog

open Asenal.Lib.Memory Asenal.Lib.Runs Asenal.Lib.Text Asenal.Lib.Words

variable {α : Type} [DecidableEq α]

/-! ## Reading the items back -/

/-- An item as a reader of the wire takes it. -/
structure WireItem where
  handle : UInt32
  time : UInt32
  log : Bytes
  deriving DecidableEq

/-- Take the header of an item, and as many bytes as it says. -/
def readItem (bs : Bytes) : Option (WireItem × Bytes) := do
  let (handle, bs) ← readWord bs
  let (time, bs) ← readWord bs
  let (size, bs) ← readWord bs
  if size.toNat ≤ bs.length then
    some (⟨handle, time, bs.take size.toNat⟩, bs.drop size.toNat)
  else none

/-- Take items until no byte is left, `k` items at most. -/
def readItems : ℕ → Bytes → Option (List WireItem)
  | _, [] => some []
  | 0, _ :: _ => none
  | k + 1, b :: bs => do
      let (item, rest) ← readItem (b :: bs)
      let items ← readItems k rest
      some (item :: items)

/-- The item of an appender: its id, the time of its first record, and all its messages. -/
def wireItem (id : α → Int32) (batch : List (Netdata α)) (a : α) : WireItem :=
  let own := batch.filter fun ndt => ndt.appender = a
  { handle := (id a).toUInt32
    time := (own.head?.map fun ndt => ndt.item.time).getD 0
    log := own.flatMap fun ndt => ndt.item.message }

section

variable (id : α → Int32) {ndt : Netdata α} {batch rest : List (Netdata α)}

/-- An item is read back, whatever stands behind it. -/
theorem readItem_header (it : LogItem) {log : Bytes} (h : it.size.toNat = log.length) (bs : Bytes) :
    readItem (it.header ++ log ++ bs) = some (⟨it.handle, it.time, log⟩, bs) := by
  unfold readItem LogItem.header
  simp only [List.append_assoc, readWord_wordBytes, Option.bind_eq_bind, Option.bind_some, h,
    List.length_append, Nat.le_add_right, if_true, List.take_left', List.drop_left']

/-- The bytes of the records behind one of the appender `a`: the messages of its later records, and the
bytes of the records of other appenders. -/
theorem encode_some (a : α) (rest : List (Netdata α)) :
    encode id (some a) rest = ((runOf a rest).flatMap fun ndt => ndt.item.message) ++
      encode id none (restOf a rest) := by
  induction rest with
  | nil => rfl
  | cons ndt rest ih =>
      by_cases happ : ndt.appender = a
      · subst happ
        rw [runOf_cons_pos rfl, restOf_cons_pos rfl, encode,
          if_neg (not_not.mpr rfl), List.nil_append, List.flatMap_cons, ih, List.append_assoc]
      · have hne : some a ≠ some ndt.appender := fun h => happ (Option.some.inj h).symm
        rw [runOf_cons_neg happ, restOf_cons_neg happ]
        show _ = encode id none (ndt :: rest)
        rw [encode, encode, if_pos hne, if_pos (Option.some_ne_none _).symm, settle, settle, if_pos hne,
          if_pos (Option.some_ne_none _).symm]

/-- The number of bytes of a batch. -/
theorem length_encode_le (now : Option α) (batch : List (Netdata α)) :
    (encode id now batch).length ≤ logitemSize * batch.length + totalSize batch := by
  induction batch generalizing now with
  | nil => exact Nat.zero_le _
  | cons ndt rest ih =>
      have hih := ih (some ndt.appender)
      have hmessage : ndt.item.message.length = ndt.item.size.toNat := length_peek _ _ _
      have htotal : totalSize (ndt :: rest) = ndt.item.size.toNat + totalSize rest := rfl
      rw [encode, List.length_append, List.length_append, List.length_cons, Nat.mul_add_one]
      split_ifs
      · rw [length_header]
        omega
      · rw [List.length_nil]
        omega

theorem readItems_succ (k : ℕ) {bs : Bytes} (h : bs ≠ []) :
    readItems (k + 1) bs = (readItem bs).bind fun r =>
      (readItems k r.2).bind fun items => some (r.1 :: items) := by
  cases bs with
  | nil => exact absurd rfl h
  | cons b bs => rfl

/-- The bytes of a batch are those of the item of its first appender, and of the other appenders. -/
theorem encode_none (ndt : Netdata α) (rest : List (Netdata α)) :
    encode id none (ndt :: rest) = (settle id none ndt rest).item.header ++
      (ndt :: runOf ndt.appender rest).flatMap (fun r => r.item.message) ++
        encode id none (restOf ndt.appender rest) := by
  rw [encode, if_pos (Option.some_ne_none _).symm, encode_some, List.flatMap_cons]
  simp only [List.append_assoc]

/-- The item of the first appender. -/
theorem wireItem_first (hadj : Adjacent Netdata.appender (ndt :: rest)) :
    wireItem id (ndt :: rest) ndt.appender = ⟨(id ndt.appender).toUInt32, ndt.item.time,
      (ndt :: runOf ndt.appender rest).flatMap fun r => r.item.message⟩ := by
  have hown : (ndt :: rest).filter (fun r => r.appender = ndt.appender) =
      ndt :: runOf ndt.appender rest := by
    rw [List.filter_cons_of_pos (by simp), runOf, hadj.takeWhile_eq_filter]
  rw [wireItem, hown]
  rfl

/-- The item of another appender. -/
theorem wireItem_other (a : α) (ha : a ≠ ndt.appender) :
    wireItem id (ndt :: rest) a =
      wireItem id (restOf ndt.appender rest) a := by
  have hown : (ndt :: rest).filter (fun r => r.appender = a) =
      (restOf ndt.appender rest).filter fun r => r.appender = a := by
    have hrun : (runOf ndt.appender rest).filter (fun r => r.appender = a) = [] := by
      rw [List.filter_eq_nil_iff]
      intro r hr
      rw [decide_eq_true_eq, appender_of_mem_runOf hr]
      exact ha.symm
    rw [List.filter_cons_of_neg (by simpa using ha.symm)]
    conv_lhs => rw [← runOf_append_restOf ndt.appender rest]
    rw [List.filter_append, hrun, List.nil_append]
  rw [wireItem, wireItem, hown]

/-- **The items of a batch are read back**, one for each appender. -/
theorem readItems_encode (k : ℕ) (hadj : Adjacent Netdata.appender batch)
    (hk : (encode id none batch).length ≤ k) (hsize : totalSize batch < 2 ^ 32) :
    readItems k (encode id none batch) =
      some ((batch.map Netdata.appender).dedup.map (wireItem id batch)) := by
  induction k generalizing batch with
  | zero =>
      cases batch with
      | nil => rfl
      | cons ndt rest =>
          rw [encode_none, List.length_append, List.length_append, length_header, logitemSize] at hk
          omega
  | succ k ih =>
      cases batch with
      | nil => rfl
      | cons ndt rest =>
          have hparts := encode_none id ndt rest
          have hsplit := totalSize_append (runOf ndt.appender rest) (restOf ndt.appender rest)
          rw [runOf_append_restOf] at hsplit
          rw [totalSize_cons] at hsize
          have hlen : (settle id none ndt rest).item.size.toNat =
              ((ndt :: runOf ndt.appender rest).flatMap fun r => r.item.message).length := by
            have hgrown : (settle id none ndt rest).item.size =
                ndt.item.size + sizes (runOf ndt.appender rest) := by
              rw [settle, if_pos (Option.some_ne_none _).symm]
              rfl
            have hsum : ndt.item.size + sizes (runOf ndt.appender rest) =
                sizes (ndt :: runOf ndt.appender rest) := rfl
            rw [hgrown, hsum, sizes_eq, length_messages, UInt32.toNat_ofNat_of_lt']
            rw [totalSize_cons]
            exact Nat.lt_of_le_of_lt (by omega) hsize
          have hread := readItem_header _ hlen (encode id none (restOf ndt.appender rest))
          have hne : encode id none (ndt :: rest) ≠ [] := by
            rw [hparts]
            exact List.append_ne_nil_of_left_ne_nil (List.append_ne_nil_of_left_ne_nil
              (List.ne_nil_of_length_pos (by rw [length_header]; decide)) _) _
          have hrest : readItems k (encode id none (restOf ndt.appender rest)) =
              some (((restOf ndt.appender rest).map Netdata.appender).dedup.map
                (wireItem id (restOf ndt.appender rest))) := by
            refine ih ((adjacent_cons.mp hadj).2.dropWhile ndt.appender) ?_ (by omega)
            rw [hparts, List.length_append, List.length_append, length_header, logitemSize] at hk
            omega
          have hothers : ((restOf ndt.appender rest).map Netdata.appender).dedup.map
              (wireItem id (ndt :: rest)) =
                ((restOf ndt.appender rest).map Netdata.appender).dedup.map
                  (wireItem id (restOf ndt.appender rest)) := by
            apply List.map_congr_left
            intro a ha
            obtain ⟨r, hr, rfl⟩ := List.mem_map.mp (List.mem_dedup.mp ha)
            exact wireItem_other id _ (hadj.dropWhile_ne r hr)
          have hdedup : ((ndt :: rest).map Netdata.appender).dedup =
              ndt.appender :: ((restOf ndt.appender rest).map Netdata.appender).dedup :=
            hadj.dedup_map
          rw [readItems_succ k hne, hparts, hread, Option.bind_some, hrest, Option.bind_some,
            hdedup, List.map_cons, hothers, wireItem_first id hadj]
          congr 2

/-- **What `senddata` hands to `writev`** is a log head, whose length is the number of bytes behind it,
and items that are read back to the end: one for each appender, with its id, the time of its first
record, and its messages in their order. -/
theorem senddata_framed (sendbuf : Mem UInt8) (batch : List (Netdata α)) (ret : ℤ)
    (hitems : batch.length ≤ maxReadItems) (hsize : totalSize batch < 2 ^ 31)
    (hadj : Adjacent Netdata.appender batch) :
    ∃ head body, (senddata id sendbuf batch ret).2.bytes = head ++ body ∧
      head.length = logheadSize ∧
      (∃ bodyLen : UInt32, head = peek sendbuf 0 24 ++ wordBytes logheadMagicnum ++
        wordBytes comlogPrint ++ wordBytes bodyLen ∧ bodyLen.toNat = body.length) ∧
      readItems body.length body =
        some ((batch.map Netdata.appender).dedup.map (wireItem id batch)) := by
  have hlt : (encode id none batch).length < 2 ^ 32 := by
    have hle := length_encode_le id none batch
    rw [logitemSize] at hle
    rw [maxReadItems] at hitems
    omega
  refine ⟨_, encode id none batch, bytes_gather id sendbuf batch, ?_, ⟨_, rfl, ?_⟩, ?_⟩
  · simp only [List.length_append, length_peek, length_wordBytes]
    rfl
  · exact UInt32.toNat_ofNat_of_lt' hlt
  · exact readItems_encode id _ hadj (Nat.le_refl _) (by omega)

end

/-- Two records of one appender and one of another. -/
theorem senddata_framed_three :
    let batch : List (Netdata Bool) := [⟨true, ⟨0, 5, 2, ofList [1, 2] fun _ => 0⟩⟩,
      ⟨true, ⟨0, 6, 1, ofList [3] fun _ => 0⟩⟩, ⟨false, ⟨0, 5, 1, ofList [4] fun _ => 0⟩⟩]
    ∃ head body, (senddata (fun _ => 7) (fun _ => 0) batch 0).2.bytes = head ++ body ∧
      readItems body.length body =
        some ((batch.map Netdata.appender).dedup.map (wireItem (fun _ => 7) batch)) := by
  intro batch
  obtain ⟨head, body, hbytes, -, -, hread⟩ := senddata_framed (fun _ => 7) (fun _ => 0) batch 0
    (by decide) (by decide) (by simp [batch, Adjacent, List.triplewise_cons])
  exact ⟨head, body, hbytes, hread⟩

end Asenal.Comlog
