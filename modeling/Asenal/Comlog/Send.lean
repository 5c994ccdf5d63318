import Asenal.Comlog.Record
import Asenal.Lib.Runs

/-!
# Sending log records: `NetAppenderSvr::senddata`

The records of a batch are gathered into one `writev`. The first record of each appender is sent with
its header, and a later record of the same appender is sent without one: its bytes are counted in the
header of the first record, whose size grows while the batch is gathered.

* `sendItems_spec` — what the loop leaves of the records, and what it gathers.
* `bytes_gather` — the bytes that are gathered.
-/

namespace Asenal.Comlog

open Asenal.Lib.Memory Asenal.Lib.Runs Asenal.Lib.Text Asenal.Lib.Words

/-- `sizeof(loghead_t)`. -/
def logheadSize : ℕ := 36

/-- `LOGHEAD_MAGICNUM`. -/
def logheadMagicnum : UInt32 := 0xfb709394

/-- `COMLOG_PRINT`. -/
def comlogPrint : UInt32 := 6

/-- `MAXREADITEMS`. -/
def maxReadItems : ℕ := 640

/-! ## Gathering -/

/-- What a vector points at: the buffer of the head, the item of a record, or its message. -/
inductive Base
  | head
  | item (i : ℕ)
  | log (i : ℕ)
  deriving DecidableEq

/-- Source: `struct iovec`. -/
structure Iovec where
  base : Base
  len : ℕ

/-- The variables of `senddata`: `addpos` points at the size of a record of the batch. -/
structure Sending (α : Type) where
  iovecs : List Iovec
  now : Option α
  addpos : Option ℕ
  bodylen : UInt32
  batch : List (Netdata α)

variable {α : Type}

/-- `ndt->item.handle = ndt->appender->_id`. -/
def Netdata.setHandle (id : α → Int32) (ndt : Netdata α) : Netdata α :=
  { ndt with item := { ndt.item with handle := (id ndt.appender).toUInt32 } }

/-- A size that grows by `n`. -/
def Netdata.grow (n : UInt32) (ndt : Netdata α) : Netdata α :=
  { ndt with item := { ndt.item with size := ndt.item.size + n } }

/-- `*addpos += n`. -/
def growAt (batch : List (Netdata α)) (addpos : Option ℕ) (n : UInt32) : List (Netdata α) :=
  match addpos with
  | some i => batch.modify i (Netdata.grow n)
  | none => batch

/-- A count that does not grow. -/
theorem grow_zero (f : Netdata α) : f.grow 0 = f := by
  unfold Netdata.grow
  rw [UInt32.add_zero]

/-- A count that grows twice. -/
theorem grow_grow (f : Netdata α) (m n : UInt32) : (f.grow m).grow n = f.grow (m + n) := by
  unfold Netdata.grow
  rw [UInt32.add_assoc]

/-- A count grows at its place. -/
theorem growAt_append (pre : List (Netdata α)) (f : Netdata α) (rest : List (Netdata α)) (n : UInt32) :
    growAt (pre ++ f :: rest) (some pre.length) n = pre ++ f.grow n :: rest := by
  induction pre with
  | nil => rfl
  | cons x pre ih => exact congrArg (x :: ·) ih

/-- A record is replaced at its place. -/
theorem set_append (pre : List (Netdata α)) (f g : Netdata α) (rest : List (Netdata α)) :
    (pre ++ f :: rest).set pre.length g = pre ++ g :: rest := by
  rw [List.set_append_right _ _ (Nat.le_refl _), Nat.sub_self, List.set_cons_zero]

/-- The sizes of some records, added up. -/
def sizes : List (Netdata α) → UInt32
  | [] => 0
  | ndt :: rest => ndt.item.size + sizes rest

/-- The sizes of some records, as numbers. -/
def totalSize (batch : List (Netdata α)) : ℕ := (batch.map fun ndt => ndt.item.size.toNat).sum

/-- The size of one record more. -/
theorem totalSize_cons (ndt : Netdata α) (batch : List (Netdata α)) :
    totalSize (ndt :: batch) = ndt.item.size.toNat + totalSize batch := rfl

/-- The sizes of two batches. -/
theorem totalSize_append (l m : List (Netdata α)) :
    totalSize (l ++ m) = totalSize l + totalSize m := by
  unfold totalSize
  rw [List.map_append, List.sum_append]

/-- The messages have the sizes that are counted. -/
theorem length_messages (batch : List (Netdata α)) :
    (batch.flatMap fun ndt => ndt.item.message).length = totalSize batch := by
  rw [List.length_flatMap]
  unfold totalSize LogItem.message
  simp only [length_peek]

/-- The sum is a word. -/
theorem sizes_eq (batch : List (Netdata α)) : sizes batch = UInt32.ofNat (totalSize batch) := by
  induction batch with
  | nil => rfl
  | cons ndt batch ih =>
      show ndt.item.size + sizes batch = UInt32.ofNat (ndt.item.size.toNat + totalSize batch)
      rw [ih, UInt32.ofNat_add, UInt32.ofNat_toNat]

variable [DecidableEq α]

/-- The body of the loop of `senddata`, for the record `i`. -/
def sendItem (id : α → Int32) (i : ℕ) (s : Sending α) : Sending α :=
  match s.batch[i]? with
  | none => s
  | some ndt =>
      let batch := s.batch.set i (ndt.setHandle id)
      if s.now ≠ some ndt.appender then
        let len := logitemSize + ndt.item.size.toNat
        { iovecs := s.iovecs ++ [⟨.item i, len⟩]
          addpos := some i
          bodylen := s.bodylen + UInt32.ofNat len
          now := some ndt.appender
          batch := batch }
      else
        let len := ndt.item.size.toNat
        { s with
          iovecs := s.iovecs ++ [⟨.log i, len⟩]
          batch := growAt batch s.addpos (UInt32.ofNat len)
          bodylen := s.bodylen + UInt32.ofNat len }

/-- The loop of `senddata`, over `k` records from the record `i` on. -/
def sendItems (id : α → Int32) : ℕ → ℕ → Sending α → Sending α
  | 0, _, s => s
  | k + 1, i, s => sendItems id k (i + 1) (sendItem id i s)

/-- What a vector points at when the vectors are written. -/
def Iovec.bytes (sendbuf : Mem UInt8) (batch : List (Netdata α)) (v : Iovec) : Bytes :=
  match v.base with
  | .head => peek sendbuf 0 v.len
  | .item i => (batch[i]?.map fun ndt => peek ndt.item.memory 0 v.len).getD []
  | .log i => (batch[i]?.map fun ndt => peek ndt.item.log 0 v.len).getD []

/-- What `senddata` hands to `writev`, with the memory that it points at. -/
structure Gathered (α : Type) where
  sendbuf : Mem UInt8
  iovecs : List Iovec
  batch : List (Netdata α)
  bodyLen : UInt32

/-- What `senddata` gathers; `sendbuf` is what the buffer of the head held before. -/
def gather (id : α → Int32) (sendbuf : Mem UInt8) (batch : List (Netdata α)) : Gathered α :=
  let snd := poke (poke (poke sendbuf 24 (wordBytes logheadMagicnum)) 32 (wordBytes 0)) 28
    (wordBytes comlogPrint)
  let s := sendItems id batch.length 0
    { iovecs := [⟨.head, logheadSize⟩], now := none, addpos := none, bodylen := 0, batch := batch }
  { sendbuf := poke snd 32 (wordBytes s.bodylen)
    iovecs := s.iovecs
    batch := s.batch
    bodyLen := s.bodylen }

/-- The bytes of all vectors. -/
def Gathered.bytes (g : Gathered α) : Bytes := g.iovecs.flatMap (Iovec.bytes g.sendbuf g.batch)

/-- Source: `netappendersvr.cpp` `senddata`; `ret` is what `writev` returns. -/
def senddata (id : α → Int32) (sendbuf : Mem UInt8) (batch : List (Netdata α)) (ret : ℤ) :
    ℤ × Gathered α :=
  let g := gather id sendbuf batch
  (if ret < (Int32.ofNat (g.bodyLen.toNat + logheadSize)).toInt then -1 else 0, g)

/-! ## What the loop does -/

/-- The records of an appender at the beginning of some records. -/
def runOf (a : α) (rest : List (Netdata α)) : List (Netdata α) :=
  rest.takeWhile fun ndt => ndt.appender = a

/-- What stands behind them. -/
def restOf (a : α) (rest : List (Netdata α)) : List (Netdata α) :=
  rest.dropWhile fun ndt => ndt.appender = a

/-- A record that is sent behind one of the appender `now`. -/
def settle (id : α → Int32) (now : Option α) (ndt : Netdata α) (rest : List (Netdata α)) :
    Netdata α :=
  if now ≠ some ndt.appender then (ndt.setHandle id).grow (sizes (runOf ndt.appender rest))
  else ndt.setHandle id

/-- What becomes of the records. -/
def settled (id : α → Int32) : Option α → List (Netdata α) → List (Netdata α)
  | _, [] => []
  | now, ndt :: rest => settle id now ndt rest :: settled id (some ndt.appender) rest

/-- The vector of the record `i`, behind one of the appender `now`. -/
def vector (now : Option α) (i : ℕ) (ndt : Netdata α) : Iovec :=
  if now ≠ some ndt.appender then ⟨.item i, logitemSize + ndt.item.size.toNat⟩
  else ⟨.log i, ndt.item.size.toNat⟩

/-- The vectors of the records from the record `i` on. -/
def vectors : Option α → ℕ → List (Netdata α) → List Iovec
  | _, _, [] => []
  | now, i, ndt :: rest => vector now i ndt :: vectors (some ndt.appender) (i + 1) rest

/-- The lengths of the vectors, added up. -/
def veclen (l : List Iovec) : UInt32 := l.foldr (fun v n => UInt32.ofNat v.len + n) 0

section

variable (id : α → Int32) {a : α} {ndt : Netdata α} {rest : List (Netdata α)}

/-- A record of the same appender. -/
theorem runOf_cons_pos (h : ndt.appender = a) : runOf a (ndt :: rest) = ndt :: runOf a rest :=
  List.takeWhile_cons_of_pos (by simpa using h)

/-- A record of another appender ends the run. -/
theorem runOf_cons_neg (h : ndt.appender ≠ a) : runOf a (ndt :: rest) = [] :=
  List.takeWhile_cons_of_neg (by simpa using h)

/-- A record of the same appender is not in the rest. -/
theorem restOf_cons_pos (h : ndt.appender = a) : restOf a (ndt :: rest) = restOf a rest :=
  List.dropWhile_cons_of_pos (by simpa using h)

/-- The rest begins with a record of another appender. -/
theorem restOf_cons_neg (h : ndt.appender ≠ a) : restOf a (ndt :: rest) = ndt :: rest :=
  List.dropWhile_cons_of_neg (by simpa using h)

/-- The run and the rest are all. -/
theorem runOf_append_restOf (a : α) (rest : List (Netdata α)) : runOf a rest ++ restOf a rest = rest :=
  List.takeWhile_append_dropWhile

/-- All records of a run have one appender. -/
theorem appender_of_mem_runOf {r : Netdata α} (h : r ∈ runOf a rest) : r.appender = a := by
  have hkey := List.mem_takeWhile_imp h
  exact of_decide_eq_true hkey

/-- The first record of an appender: it is sent with its header, and `addpos` points at it. -/
theorem sendItem_first {s : Sending α} (pre : List (Netdata α)) (hbatch : s.batch = pre ++ ndt :: rest)
    (hnow : s.now ≠ some ndt.appender) :
    sendItem id pre.length s =
      { iovecs := s.iovecs ++ [⟨.item pre.length, logitemSize + ndt.item.size.toNat⟩]
        now := some ndt.appender
        addpos := some pre.length
        bodylen := s.bodylen + UInt32.ofNat (logitemSize + ndt.item.size.toNat)
        batch := pre ++ ndt.setHandle id :: rest } := by
  have hat : s.batch[pre.length]? = some ndt := by
    rw [hbatch]
    simp
  rw [sendItem, hat]
  dsimp only
  rw [if_pos hnow, hbatch, set_append]

/-- A later record of the appender: it is sent without its header, and counted in the first one. -/
theorem sendItem_later {s : Sending α} (pre : List (Netdata α)) (hbatch : s.batch = pre ++ ndt :: rest)
    (hnow : s.now = some ndt.appender) :
    sendItem id pre.length s =
      { s with
        iovecs := s.iovecs ++ [⟨.log pre.length, ndt.item.size.toNat⟩]
        bodylen := s.bodylen + ndt.item.size
        batch := growAt (pre ++ ndt.setHandle id :: rest) s.addpos ndt.item.size } := by
  have hat : s.batch[pre.length]? = some ndt := by
    rw [hbatch]
    simp
  rw [sendItem, hat]
  dsimp only
  rw [if_neg (not_not.mpr hnow), hbatch, set_append, UInt32.ofNat_toNat]

/-- What the loop makes of the state `s`, behind records of which `pre` is left: the vectors of the
records `rest` are gathered, and their lengths are counted. -/
structure Gathers (s r : Sending α) (now : Option α) (pre rest : List (Netdata α)) : Prop where
  iovecs : r.iovecs = s.iovecs ++ vectors now pre.length rest
  bodylen : r.bodylen = s.bodylen + veclen (vectors now pre.length rest)
  batch : r.batch = pre ++ settled id now rest

/-- One more record, with its vector. -/
theorem Gathers.cons {s s' r : Sending α} {now : Option α} (pre : List (Netdata α))
    {pre' : List (Netdata α)} {v : Iovec}
    (h : Gathers id s' r (some ndt.appender) (pre' ++ [settle id now ndt rest]) rest)
    (hlen : pre'.length = pre.length)
    (hv : vectors now pre.length (ndt :: rest) = v :: vectors (some ndt.appender) (pre.length + 1) rest)
    (hiovecs : s'.iovecs = s.iovecs ++ [v]) (hbody : s'.bodylen = s.bodylen + UInt32.ofNat v.len) :
    Gathers id s r now pre' (ndt :: rest) := by
  have hnext : (pre' ++ [settle id now ndt rest]).length = pre.length + 1 := by
    rw [List.length_append, hlen]
    rfl
  obtain ⟨h₁, h₂, h₃⟩ := h
  rw [hnext] at h₁ h₂
  refine ⟨?_, ?_, ?_⟩
  · rw [hlen, hv, h₁, hiovecs, List.append_assoc]
    rfl
  · rw [hlen, hv, h₂, hbody, UInt32.add_assoc]
    rfl
  · rw [h₃, settled, List.append_assoc]
    rfl

/-- **What the loop does** behind the first record `f` of the appender that is sent: the vectors of the
rest are gathered, and `f` grows by its later records. -/
theorem sendItems_spec (pre : List (Netdata α)) (f : Netdata α) (mid rest : List (Netdata α))
    (s : Sending α) (hnow : s.now = some a) (haddpos : s.addpos = some pre.length)
    (hbatch : s.batch = pre ++ f :: mid ++ rest) :
    Gathers id s (sendItems id rest.length (pre ++ f :: mid).length s) (some a)
      (pre ++ f.grow (sizes (runOf a rest)) :: mid) rest := by
  induction rest generalizing pre f mid s a with
  | nil =>
      refine ⟨(List.append_nil _).symm, (UInt32.add_zero _).symm, ?_⟩
      show s.batch = pre ++ f.grow 0 :: mid ++ []
      rw [hbatch, grow_zero]
  | cons ndt rest ih =>
      by_cases happ : ndt.appender = a
      · -- a later record: `f` grows by its size, and by those behind it
        subst happ
        have hstep := sendItem_later id (pre ++ f :: mid) hbatch hnow
        have hih := ih pre (f.grow ndt.item.size) (mid ++ [ndt.setHandle id])
          (sendItem id (pre ++ f :: mid).length s) (by rw [hstep]; exact hnow)
          (by rw [hstep]; exact haddpos) (by
            rw [hstep, haddpos]
            simp only [List.append_assoc, List.cons_append, growAt_append, List.nil_append])
        have hlen : (pre ++ f.grow ndt.item.size :: (mid ++ [ndt.setHandle id])).length =
            (pre ++ f :: mid).length + 1 := by
          simp only [List.length_append, List.length_cons, List.length_nil]
          omega
        have hsettle : settle id (some ndt.appender) ndt rest = ndt.setHandle id :=
          if_neg (not_not.mpr rfl)
        have hgrow : pre ++ (f.grow ndt.item.size).grow (sizes (runOf ndt.appender rest)) ::
            (mid ++ [ndt.setHandle id]) =
              pre ++ f.grow (sizes (runOf ndt.appender (ndt :: rest))) :: mid ++
                [settle id (some ndt.appender) ndt rest] := by
          rw [grow_grow, runOf_cons_pos rfl, sizes, hsettle]
          simp
        rw [hlen, hgrow] at hih
        refine hih.cons id (pre ++ f :: mid) (by simp) ?_ (by rw [hstep]) ?_
        · rw [vectors, vector, if_neg (not_not.mpr rfl)]
        · rw [hstep, UInt32.ofNat_toNat]
      · -- another appender: its first record grows from now on
        have hne : some a ≠ some ndt.appender := fun h => happ (Option.some.inj h).symm
        have hstep := sendItem_first id (pre ++ f :: mid) hbatch (by rw [hnow]; exact hne)
        have hih := ih (pre ++ f :: mid) (ndt.setHandle id) []
          (sendItem id (pre ++ f :: mid).length s) (by rw [hstep]) (by rw [hstep])
          (by rw [hstep]; simp)
        have hlen : (pre ++ f :: mid ++ [ndt.setHandle id]).length = (pre ++ f :: mid).length + 1 :=
          List.length_append
        have hsettle : settle id (some a) ndt rest =
            (ndt.setHandle id).grow (sizes (runOf ndt.appender rest)) := if_pos hne
        rw [hlen, ← hsettle] at hih
        rw [runOf_cons_neg happ]
        show Gathers id s _ (some a) (pre ++ f.grow 0 :: mid) (ndt :: rest)
        rw [grow_zero]
        refine hih.cons id (pre ++ f :: mid) rfl ?_ (by rw [hstep]) (by rw [hstep])
        rw [vectors, vector, if_pos hne]

/-- The loop over a whole batch. -/
theorem sendItems_batch (s : Sending α) (batch : List (Netdata α)) (hnow : s.now = none)
    (hbatch : s.batch = batch) : Gathers id s (sendItems id batch.length 0 s) none [] batch := by
  cases batch with
  | nil => exact ⟨(List.append_nil _).symm, (UInt32.add_zero _).symm, hbatch⟩
  | cons ndt rest =>
      have hne : none ≠ some ndt.appender := Option.some_ne_none _ |>.symm
      have hstep : sendItem id 0 s = _ :=
        sendItem_first id [] hbatch (by rw [hnow]; exact hne)
      have hspec := sendItems_spec (a := ndt.appender) id [] (ndt.setHandle id) [] rest
        (sendItem id 0 s) (by rw [hstep]) (by rw [hstep]) (by rw [hstep]; rfl)
      have hsettle : settle id none ndt rest =
          (ndt.setHandle id).grow (sizes (runOf ndt.appender rest)) := if_pos hne
      rw [← hsettle] at hspec
      refine Gathers.cons id [] hspec rfl ?_ (by rw [hstep]) (by rw [hstep])
      rw [vectors, vector, if_pos hne]

end

/-! ## The bytes -/

/-- The bytes of some records behind one of the appender `now`: a header for each first record of an
appender, with the size of all its messages, and the messages. -/
def encode (id : α → Int32) : Option α → List (Netdata α) → Bytes
  | _, [] => []
  | now, ndt :: rest =>
      (if now ≠ some ndt.appender then (settle id now ndt rest).item.header else []) ++
        ndt.item.message ++ encode id (some ndt.appender) rest

section

variable (id : α → Int32) (now : Option α) {ndt : Netdata α} {rest : List (Netdata α)}

/-- The memory from an item on, read as far as its header and some bytes behind it. -/
theorem peek_memory (it : LogItem) (n : ℕ) :
    peek it.memory 0 (logitemSize + n) = it.header ++ peek it.log 0 n := by
  have hfront := peek_poke_front (fun i => it.log (i - logitemSize)) 0 n it.header
  rw [length_header] at hfront
  rw [LogItem.memory, ofList, hfront]
  congr 1
  apply List.map_congr_left
  intro i _
  show it.log (0 + logitemSize + i - logitemSize) = it.log (0 + i)
  rw [Nat.zero_add, Nat.zero_add, Nat.add_sub_cancel_left]

/-- What is settled keeps its log. -/
theorem settle_log (ndt : Netdata α) (rest : List (Netdata α)) :
    (settle id now ndt rest).item.log = ndt.item.log := by
  unfold settle
  split_ifs <;> rfl

/-- What the vector of a record points at. -/
theorem bytes_vector (sendbuf : Mem UInt8) (pre : List (Netdata α)) (ndt : Netdata α)
    (rest behind : List (Netdata α)) :
    (vector now pre.length ndt).bytes sendbuf (pre ++ settle id now ndt rest :: behind) =
      (if now ≠ some ndt.appender then (settle id now ndt rest).item.header else []) ++
        ndt.item.message := by
  have hat : (pre ++ settle id now ndt rest :: behind)[pre.length]? =
      some (settle id now ndt rest) := by simp
  unfold vector Iovec.bytes
  split_ifs with hnow
  · dsimp only
    rw [hat]
    show peek (settle id now ndt rest).item.memory 0 _ = _
    rw [peek_memory, settle_log]
    rfl
  · dsimp only
    rw [hat]
    show peek (settle id now ndt rest).item.log 0 _ = _
    rw [settle_log]
    rfl

/-- What the vectors of some records point at. -/
theorem bytes_vectors (sendbuf : Mem UInt8) (pre rest : List (Netdata α)) :
    (vectors now pre.length rest).flatMap (Iovec.bytes sendbuf (pre ++ settled id now rest)) =
      encode id now rest := by
  induction rest generalizing now pre with
  | nil => rfl
  | cons ndt rest ih =>
      have hih := ih (some ndt.appender) (pre ++ [settle id now ndt rest])
      rw [List.length_append, List.append_assoc] at hih
      rw [vectors, settled, encode, List.flatMap_cons, bytes_vector]
      exact congrArg₂ (· ++ ·) rfl hih

/-- The lengths of the vectors are the number of bytes, as a word. -/
theorem veclen_vectors (i : ℕ) (rest : List (Netdata α)) :
    veclen (vectors now i rest) = UInt32.ofNat (encode id now rest).length := by
  induction rest generalizing now i with
  | nil => rfl
  | cons ndt rest ih =>
      have hcons : veclen (vectors now i (ndt :: rest)) = UInt32.ofNat (vector now i ndt).len +
          veclen (vectors (some ndt.appender) (i + 1) rest) := rfl
      have hmessage : ndt.item.message.length = ndt.item.size.toNat := length_peek _ _ _
      rw [hcons, ih, encode, List.length_append, List.length_append, hmessage, UInt32.ofNat_add]
      congr 2
      unfold vector
      split_ifs with hnow
      · rfl
      · simp

/-- The bytes of the log head. -/
theorem peek_head (sendbuf : Mem UInt8) (bodylen : UInt32) :
    peek (poke (poke (poke (poke sendbuf 24 (wordBytes logheadMagicnum)) 32 (wordBytes 0)) 28
      (wordBytes comlogPrint)) 32 (wordBytes bodylen)) 0 logheadSize =
      peek sendbuf 0 24 ++ wordBytes logheadMagicnum ++ wordBytes comlogPrint ++
        wordBytes bodylen := by
  have hmagic : peek (poke sendbuf 24 (wordBytes logheadMagicnum)) 0 28 =
      peek sendbuf 0 24 ++ wordBytes logheadMagicnum :=
    peek_poke_extend sendbuf (wordBytes logheadMagicnum) (show 24 = 0 + 24 from rfl)
  have hprint : ∀ m : Mem UInt8, peek (poke m 28 (wordBytes comlogPrint)) 0 32 =
      peek m 0 28 ++ wordBytes comlogPrint :=
    fun m => peek_poke_extend m (wordBytes comlogPrint) (show 28 = 0 + 28 from rfl)
  have hbody : ∀ m : Mem UInt8, peek (poke m 32 (wordBytes bodylen)) 0 logheadSize =
      peek m 0 32 ++ wordBytes bodylen :=
    fun m => peek_poke_extend m (wordBytes bodylen) (show 32 = 0 + 32 from rfl)
  rw [hbody, hprint, peek_poke_before _ _ (by omega), hmagic]

/-- What the loop makes of a batch, before and behind its first record. -/
theorem gathers_gather (sendbuf : Mem UInt8) (batch : List (Netdata α)) :
    (gather id sendbuf batch).iovecs = ⟨.head, logheadSize⟩ :: vectors none 0 batch ∧
      (gather id sendbuf batch).batch = settled id none batch ∧
      (gather id sendbuf batch).bodyLen = UInt32.ofNat (encode id none batch).length := by
  have hgathers := sendItems_batch id
    (Sending.mk [⟨.head, logheadSize⟩] none none 0 batch) batch rfl rfl
  refine ⟨hgathers.iovecs, hgathers.batch, ?_⟩
  have hbody := hgathers.bodylen
  rw [veclen_vectors id] at hbody
  exact hbody.trans (UInt32.zero_add _)

/-- **The bytes of a batch**: the log head, and its records. -/
theorem bytes_gather (sendbuf : Mem UInt8) (batch : List (Netdata α)) :
    (gather id sendbuf batch).bytes = peek sendbuf 0 24 ++ wordBytes logheadMagicnum ++
      wordBytes comlogPrint ++ wordBytes (UInt32.ofNat (encode id none batch).length) ++
        encode id none batch := by
  obtain ⟨hiovecs, hbatch, hbody⟩ := gathers_gather id sendbuf batch
  rw [Gathered.bytes, hiovecs, hbatch, List.flatMap_cons, ← hbody]
  refine congrArg₂ (· ++ ·) ?_ (bytes_vectors id none _ [] batch)
  exact peek_head sendbuf _

end

end Asenal.Comlog
