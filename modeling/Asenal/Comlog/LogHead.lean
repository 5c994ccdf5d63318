import Asenal.Comlog.Send
import Asenal.Lib.Owned

/-!
# Messages with a head

A message on a connection is a head of 36 bytes and a body, whose length is in the head. The writer and the
reader cut the body in two at places of their own.

What reads from a connection and writes to it is a parameter: how many bytes were transferred or a code,
what was stored, and the stream afterwards.

* `ofBytes_bytes` — a head is read back from its bytes.
* `logheadRead_wire`, `logheadRead_refused` — one message.
* `loghead_framed` — all messages of a stream.
-/

namespace Asenal.Comlog

open Asenal.Lib.Text Asenal.Lib.Owned

/-! ## The head -/

/-- Source: `loghead.h` `loghead_t`. -/
structure Loghead where
  id : UInt16
  version : UInt16
  logId : UInt32
  provider : { p : Bytes // p.length = 16 }
  magicNum : UInt32
  reserved : UInt32
  bodyLen : UInt32
  deriving DecidableEq

/-- The memory of a head. -/
def Loghead.bytes (head : Loghead) : Bytes :=
  numBytes 2 head.id.toNat ++ (numBytes 2 head.version.toNat ++ (numBytes 4 head.logId.toNat ++
    (head.provider.1 ++ (numBytes 4 head.magicNum.toNat ++ (numBytes 4 head.reserved.toNat ++
      numBytes 4 head.bodyLen.toNat)))))

/-- The head in some bytes. -/
def Loghead.ofBytes (bs : Bytes) : Loghead where
  id := UInt16.ofNat (bytesNum (bs.take 2))
  version := UInt16.ofNat (bytesNum ((bs.drop 2).take 2))
  logId := UInt32.ofNat (bytesNum ((bs.drop 4).take 4))
  provider := ⟨(bs.drop 8).takeD 16 0, List.takeD_length 16 _ 0⟩
  magicNum := UInt32.ofNat (bytesNum ((bs.drop 24).take 4))
  reserved := UInt32.ofNat (bytesNum ((bs.drop 28).take 4))
  bodyLen := UInt32.ofNat (bytesNum ((bs.drop 32).take 4))

/-- `LOGHEAD_CHECK_MAGICNUM`. Source: `loghead.h`. -/
def logheadCheckMagicnum : UInt32 := 1

/-- `LOGHEAD_CHECK_PARAM`. Source: `loghead.h`. -/
def logheadCheckParam : UInt32 := 2

/-- `LOGHEAD_RET_SUCCESS`. Source: `loghead.h`. -/
def logheadRetSuccess : ℤ := 0

/-- `LOGHEAD_RET_EPARAM`. Source: `loghead.h`. -/
def logheadRetEparam : ℤ := -1

/-- `LOGHEAD_RET_EBODYLEN`. Source: `loghead.h`. -/
def logheadRetEbodylen : ℤ := -2

/-- `LOGHEAD_RET_WRITE`. Source: `loghead.h`. -/
def logheadRetWrite : ℤ := -3

/-- `LOGHEAD_RET_READ`. Source: `loghead.h`. -/
def logheadRetRead : ℤ := -4

/-- `LOGHEAD_RET_READHEAD`. Source: `loghead.h`. -/
def logheadRetReadhead : ℤ := -5

/-- `LOGHEAD_RET_WRITEHEAD`. Source: `loghead.h`. -/
def logheadRetWritehead : ℤ := -6

/-- `LOGHEAD_RET_PEARCLOSE`. Source: `loghead.h`. -/
def logheadRetPearclose : ℤ := -7

/-- `LOGHEAD_RET_ETIMEDOUT`. Source: `loghead.h`. -/
def logheadRetEtimedout : ℤ := -8

/-- `LOGHEAD_RET_EMAGICNUM`. Source: `loghead.h`. -/
def logheadRetEmagicnum : ℤ := -9

/-! ## Transfers -/

/-- A connection: `ul_sreado_ms_ex` for a number of bytes, with what it stores and what it leaves of the
stream, `ul_swriteo_ms_ex` for some bytes, and whether `errno` is `ETIMEDOUT`. -/
structure Net where
  sreado : ℕ → Bytes → ℤ × Bytes × Bytes
  swriteo : Bytes → Bytes → ℤ × Bytes
  timedOut : Bool

/-- As many bytes are transferred as are asked for. -/
structure Net.Exact (net : Net) : Prop where
  sreado : ∀ (n : ℕ) (s : Bytes), n ≤ s.length → net.sreado n s = ((n : ℤ), s.take n, s.drop n)
  swriteo : ∀ data s : Bytes, net.swriteo data s = ((data.length : ℤ), s ++ data)

/-- The code for a transfer that fails: the part under `loghead_read_fail` and `loghead_write_fail`. -/
def Net.failCode (net : Net) (code : ℤ) (len : Int32) : ℤ :=
  if len = 0 then logheadRetPearclose
  else if len = -1 ∧ net.timedOut then logheadRetEtimedout
  else code

/-- Read `n` bytes, which are stored; the result is a code if it is not `n`. -/
def Net.read (net : Net) (n : ℕ) (code : ℤ) (s : Bytes) : Except ℤ Bytes × Bytes :=
  let r := net.sreado n s
  let rlen := Int32.ofInt r.1
  if rlen ≤ 0 then (.error (net.failCode logheadRetRead rlen), r.2.2)
  else if rlen ≠ Int32.ofNat n then (.error code, r.2.2)
  else (.ok r.2.1, r.2.2)

/-- Write some bytes; the result is a code if not all of them were written. -/
def Net.write (net : Net) (data : Bytes) (code : ℤ) (s : Bytes) : Except ℤ Unit × Bytes :=
  let r := net.swriteo data s
  let wlen := Int32.ofInt r.1
  if wlen ≤ 0 then (.error (net.failCode logheadRetWrite wlen), r.2)
  else if wlen ≠ Int32.ofNat data.length then (.error code, r.2)
  else (.ok (), r.2)

/-! ## The program -/

/-- A bit of the flags. -/
def hasFlag (flags bit : UInt32) : Bool := flags &&& bit ≠ 0

/-- The result, the head, what was stored at `req` and `buf`, and what is left of the stream. -/
structure ReadResult where
  ret : ℤ
  head : Option Loghead
  req : Bytes
  buf : Bytes
  rest : Bytes
  deriving DecidableEq

/-- The part behind the request. Source: `loghead.cpp` `loghead_read`. -/
def readDetail (net : Net) (head : Loghead) (reqSize : ℕ) (req rest : Bytes) : ReadResult :=
  if 0 < head.bodyLen.toNat - reqSize then
    match net.read (head.bodyLen.toNat - reqSize) logheadRetRead rest with
    | (.error ret, rest) => ⟨ret, some head, req, [], rest⟩
    | (.ok buf, rest) => ⟨logheadRetSuccess, some head, req, buf, rest⟩
  else ⟨logheadRetSuccess, some head, req, [], rest⟩

/-- The part behind the head. Source: `loghead.cpp` `loghead_read`. -/
def readBody (net : Net) (head : Loghead) (reqSize bufSize : ℕ) (flags : UInt32) (rest : Bytes) : ReadResult :=
  if hasFlag flags logheadCheckMagicnum ∧ head.magicNum ≠ logheadMagicnum then
    ⟨logheadRetEmagicnum, some head, [], [], rest⟩
  else if head.bodyLen.toNat < reqSize ∨ bufSize < head.bodyLen.toNat - reqSize then
    ⟨logheadRetEbodylen, some head, [], [], rest⟩
  else if 0 < reqSize then
    match net.read reqSize logheadRetRead rest with
    | (.error ret, rest) => ⟨ret, some head, [], [], rest⟩
    | (.ok req, rest) => readDetail net head reqSize req rest
  else readDetail net head reqSize [] rest

/-- `head` is the address of a head. Source: `loghead.cpp` `loghead_read`. -/
def logheadRead (net : Net) (sock : ℤ) (reqSize bufSize : ℕ) (flags : UInt32) (s : Bytes) : ReadResult :=
  if hasFlag flags logheadCheckParam ∧ sock < 0 then ⟨logheadRetEparam, none, [], [], s⟩
  else
    match net.read logheadSize logheadRetReadhead s with
    | (.error ret, rest) => ⟨ret, none, [], [], rest⟩
    | (.ok bs, rest) => readBody net (.ofBytes bs) reqSize bufSize flags rest

/-- A message of a program: the head, the request, and a buffer with the rest of the body. -/
structure Message where
  head : Loghead
  req : Bytes
  buf : Bytes
  enough : head.bodyLen.toNat ≤ req.length + buf.length

/-- `head->magic_num` is set if the reader is to check it. -/
def Loghead.marked (head : Loghead) (flags : UInt32) : Loghead :=
  if hasFlag flags logheadCheckMagicnum then { head with magicNum := logheadMagicnum } else head

/-- The result, and the stream. Source: `loghead.cpp` `loghead_write`. -/
def logheadWrite (net : Net) (sock : ℤ) (m : Message) (flags : UInt32) (s : Bytes) : ℤ × Bytes :=
  if hasFlag flags logheadCheckParam ∧ sock < 0 then (logheadRetEparam, s)
  else if m.head.bodyLen.toNat < m.req.length then (logheadRetEbodylen, s)
  else
    match net.write (m.head.marked flags).bytes logheadRetWritehead s with
    | (.error ret, s) => (ret, s)
    | (.ok _, s) =>
        match (if 0 < m.req.length then net.write m.req logheadRetWrite s else (.ok (), s)) with
        | (.error ret, s) => (ret, s)
        | (.ok _, s) =>
            let detail := m.buf.take (m.head.bodyLen.toNat - m.req.length)
            match (if 0 < m.head.bodyLen.toNat - m.req.length then net.write detail logheadRetWrite s
              else (.ok (), s)) with
            | (.error ret, s) => (ret, s)
            | (.ok _, s) => (logheadRetSuccess, s)

/-! ## The head in memory -/

variable {net : Net} {flags : UInt32} {head : Loghead}

theorem length_bytes (head : Loghead) : head.bytes.length = logheadSize := by
  simp only [Loghead.bytes, List.length_append, length_numBytes, head.provider.2]
  rfl

/-- A number at the beginning of some bytes. -/
theorem bytesNum_take {k v : ℕ} (h : v < 256 ^ k) (t : Bytes) : bytesNum ((numBytes k v ++ t).take k) = v := by
  rw [List.take_left' (length_numBytes k v), bytesNum_numBytes h]

/-- **A head** is read back. -/
theorem ofBytes_bytes (head : Loghead) : Loghead.ofBytes head.bytes = head := by
  have h8 : head.bytes.drop 8 = head.provider.1 ++ (numBytes 4 head.magicNum.toNat ++
      (numBytes 4 head.reserved.toNat ++ numBytes 4 head.bodyLen.toNat)) := rfl
  have h24 : head.bytes.drop 24 =
      numBytes 4 head.magicNum.toNat ++ (numBytes 4 head.reserved.toNat ++ numBytes 4 head.bodyLen.toNat) := by
    rw [show 24 = 8 + 16 from rfl, ← List.drop_drop, h8, List.drop_left' head.provider.2]
  have h28 : head.bytes.drop 28 = numBytes 4 head.reserved.toNat ++ numBytes 4 head.bodyLen.toNat := by
    rw [show 28 = 24 + 4 from rfl, ← List.drop_drop, h24, List.drop_left' (length_numBytes 4 _)]
  have h32 : head.bytes.drop 32 = numBytes 4 head.bodyLen.toNat ++ [] := by
    rw [show 32 = 28 + 4 from rfl, ← List.drop_drop, h28, List.drop_left' (length_numBytes 4 _), List.append_nil]
  have hprovider : (head.bytes.drop 8).takeD 16 0 = head.provider.1 := by
    rw [h8, List.takeD_left' head.provider.2]
  have hid : bytesNum (head.bytes.take 2) = head.id.toNat := bytesNum_take head.id.toNat_lt _
  have hversion : bytesNum ((head.bytes.drop 2).take 2) = head.version.toNat :=
    bytesNum_take head.version.toNat_lt _
  have hlog : bytesNum ((head.bytes.drop 4).take 4) = head.logId.toNat := bytesNum_take head.logId.toNat_lt _
  have hmagic : bytesNum ((head.bytes.drop 24).take 4) = head.magicNum.toNat := by
    rw [h24]
    exact bytesNum_take head.magicNum.toNat_lt _
  have hreserved : bytesNum ((head.bytes.drop 28).take 4) = head.reserved.toNat := by
    rw [h28]
    exact bytesNum_take head.reserved.toNat_lt _
  have hlen : bytesNum ((head.bytes.drop 32).take 4) = head.bodyLen.toNat := by
    rw [h32]
    exact bytesNum_take head.bodyLen.toNat_lt _
  unfold Loghead.ofBytes
  simp only [hid, hversion, hlog, hmagic, hreserved, hlen, hprovider, UInt16.ofNat_toNat, UInt32.ofNat_toNat]

/-! ## One message -/

/-- A length that fits is positive as an `int`. -/
theorem ofInt_length {n : ℕ} (hpos : 0 < n) (hlt : n < 2 ^ 31) :
    Int32.ofInt (n : ℤ) = Int32.ofNat n ∧ ¬ Int32.ofInt (n : ℤ) ≤ 0 := by
  have hval : (Int32.ofNat n).toInt = n := Int32.toInt_ofNat_of_lt hlt
  have hsame : Int32.ofInt (n : ℤ) = Int32.ofNat n := Int32.ofInt_eq_ofNat
  refine ⟨hsame, ?_⟩
  rw [hsame, Int32.le_iff_toInt_le, hval]
  have hzero : (0 : Int32).toInt = 0 := rfl
  omega

theorem Net.Exact.read_eq (hnet : net.Exact) {n : ℕ} {s : Bytes} (hpos : 0 < n) (hlt : n < 2 ^ 31)
    (hlen : n ≤ s.length) (code : ℤ) : net.read n code s = (.ok (s.take n), s.drop n) := by
  obtain ⟨hsame, hgt⟩ := ofInt_length hpos hlt
  unfold Net.read
  rw [hnet.sreado n s hlen]
  dsimp only
  rw [if_neg hgt, if_neg (not_not.mpr hsame)]

theorem Net.Exact.write_eq (hnet : net.Exact) {data : Bytes} (hpos : 0 < data.length)
    (hlt : data.length < 2 ^ 31) (code : ℤ) (s : Bytes) : net.write data code s = (.ok (), s ++ data) := by
  obtain ⟨hsame, hgt⟩ := ofInt_length hpos hlt
  unfold Net.write
  rw [hnet.swriteo data s]
  dsimp only
  rw [if_neg hgt, if_neg (not_not.mpr hsame)]

/-- The body of a message. -/
def Message.body (m : Message) : Bytes := m.req ++ m.buf.take (m.head.bodyLen.toNat - m.req.length)

/-- What is written for a message. -/
def Message.wire (m : Message) (flags : UInt32) : Bytes := (m.head.marked flags).bytes ++ m.body

theorem bodyLen_marked (head : Loghead) (flags : UInt32) : (head.marked flags).bodyLen = head.bodyLen := by
  unfold Loghead.marked
  split_ifs <;> rfl

theorem magicNum_marked (hflag : hasFlag flags logheadCheckMagicnum = true) :
    (head.marked flags).magicNum = logheadMagicnum := by
  unfold Loghead.marked
  rw [if_pos hflag]

theorem length_body {m : Message} (h : m.req.length ≤ m.head.bodyLen.toNat) :
    m.body.length = m.head.bodyLen.toNat := by
  have henough := m.enough
  rw [Message.body, List.length_append, List.length_take]
  omega

/-- **A message that is accepted** is written. -/
theorem logheadWrite_wire (hnet : net.Exact) {sock : ℤ} {m : Message} {s s' : Bytes}
    (hlt : m.head.bodyLen.toNat < 2 ^ 31)
    (h : logheadWrite net sock m flags s = (logheadRetSuccess, s')) :
    m.req.length ≤ m.head.bodyLen.toNat ∧ s' = s ++ m.wire flags := by
  unfold logheadWrite at h
  by_cases hparam : hasFlag flags logheadCheckParam = true ∧ sock < 0
  · rw [if_pos hparam] at h
    exact absurd (Prod.mk.inj h).1 (by decide)
  by_cases hlen : m.head.bodyLen.toNat < m.req.length
  · rw [if_neg hparam, if_pos hlen] at h
    exact absurd (Prod.mk.inj h).1 (by decide)
  rw [if_neg hparam, if_neg hlen] at h
  have hreq := Nat.le_of_not_lt hlen
  have henough := m.enough
  have hhead := length_bytes (m.head.marked flags)
  rw [hnet.write_eq (hhead ▸ by decide) (hhead ▸ by decide)] at h
  dsimp only at h
  -- an empty part is not written
  have hpart : ∀ (data : Bytes) (n : ℕ) (s : Bytes), data.length = n → n < 2 ^ 31 →
      (if 0 < n then net.write data logheadRetWrite s else (.ok (), s)) = (.ok (), s ++ data) := by
    intro data n s hn hn'
    split_ifs with hpos
    · exact hnet.write_eq (hn ▸ hpos) (hn ▸ hn') _ _
    · rw [List.eq_nil_of_length_eq_zero (hn.trans (Nat.eq_zero_of_not_pos hpos)), List.append_nil]
  rw [hpart m.req _ _ rfl (by omega)] at h
  dsimp only at h
  rw [hpart _ _ _ (List.length_take_of_le (by omega)) (by omega)] at h
  dsimp only at h
  refine ⟨hreq, ?_⟩
  rw [← (Prod.mk.inj h).2, Message.wire, Message.body, List.append_assoc, List.append_assoc]

/-- The head is read. -/
theorem logheadRead_head (hnet : net.Exact) {sock : ℤ} {reqSize bufSize : ℕ}
    (hsock : ¬ (hasFlag flags logheadCheckParam = true ∧ sock < 0)) (rest : Bytes) :
    logheadRead net sock reqSize bufSize flags (head.bytes ++ rest) =
      readBody net head reqSize bufSize flags rest := by
  have hlen := length_bytes head
  have hread : net.read logheadSize logheadRetReadhead (head.bytes ++ rest) = (.ok head.bytes, rest) := by
    rw [hnet.read_eq (by decide) (by decide) (by rw [List.length_append]; omega), List.take_left' hlen,
      List.drop_left' hlen]
  unfold logheadRead
  rw [if_neg hsock, hread]
  dsimp only
  rw [ofBytes_bytes]

/-- The rest of the body is read. -/
theorem readDetail_append (hnet : net.Exact) {reqSize : ℕ} {detail : Bytes} (hlt : head.bodyLen.toNat < 2 ^ 31)
    (hlen : detail.length = head.bodyLen.toNat - reqSize) (req rest : Bytes) :
    readDetail net head reqSize req (detail ++ rest) = ⟨logheadRetSuccess, some head, req, detail, rest⟩ := by
  unfold readDetail
  split_ifs with hpos
  · rw [hnet.read_eq hpos (by omega) (by rw [List.length_append]; omega), List.take_left' hlen,
      List.drop_left' hlen]
  · rw [List.eq_nil_of_length_eq_zero (by omega : detail.length = 0), List.nil_append]

/-- **A message is read**, wherever its body is cut. -/
theorem logheadRead_wire (hnet : net.Exact) {sock : ℤ} (hsock : 0 ≤ sock) {reqSize bufSize : ℕ} {body : Bytes}
    (hmagic : hasFlag flags logheadCheckMagicnum = true → head.magicNum = logheadMagicnum)
    (hlt : head.bodyLen.toNat < 2 ^ 31) (hbody : body.length = head.bodyLen.toNat)
    (hreq : reqSize ≤ head.bodyLen.toNat) (hbuf : head.bodyLen.toNat - reqSize ≤ bufSize) (rest : Bytes) :
    logheadRead net sock reqSize bufSize flags (head.bytes ++ (body ++ rest)) =
      ⟨logheadRetSuccess, some head, body.take reqSize, body.drop reqSize, rest⟩ := by
  have hdetail : (body.drop reqSize).length = head.bodyLen.toNat - reqSize := by rw [List.length_drop, hbody]
  rw [logheadRead_head hnet (fun h => absurd h.2 (Int.not_lt.mpr hsock)), readBody,
    if_neg (fun h => h.2 (hmagic h.1)), if_neg (by omega)]
  split_ifs with hpos
  · have hsplit : body ++ rest = body.take reqSize ++ (body.drop reqSize ++ rest) := by
      rw [← List.append_assoc, List.take_append_drop]
    have htake : (body.take reqSize).length = reqSize := List.length_take_of_le (by omega)
    rw [hnet.read_eq hpos (by omega) (by rw [List.length_append]; omega), hsplit, List.take_left' htake,
      List.drop_left' htake]
    exact readDetail_append hnet hlt hdetail _ rest
  · obtain rfl : reqSize = 0 := by omega
    exact readDetail_append hnet hlt hdetail [] rest

/-- **A message is refused** with the head alone. -/
theorem logheadRead_refused (hnet : net.Exact) (sock : ℤ) {reqSize bufSize : ℕ}
    (h : head.bodyLen.toNat < reqSize ∨ reqSize + bufSize < head.bodyLen.toNat ∨
      hasFlag flags logheadCheckMagicnum = true ∧ head.magicNum ≠ logheadMagicnum) (rest : Bytes) :
    ∃ ret head' left, logheadRead net sock reqSize bufSize flags (head.bytes ++ rest) =
      ⟨ret, head', [], [], left⟩ ∧ ret < 0 ∧ rest <:+ left := by
  by_cases hsock : hasFlag flags logheadCheckParam = true ∧ sock < 0
  · exact ⟨_, _, _, if_pos hsock, by decide, List.suffix_append _ _⟩
  · rw [logheadRead_head hnet hsock, readBody]
    by_cases hmagic : hasFlag flags logheadCheckMagicnum = true ∧ head.magicNum ≠ logheadMagicnum
    · exact ⟨_, _, _, if_pos hmagic, by decide, List.suffix_refl _⟩
    · have hlen : head.bodyLen.toNat < reqSize ∨ bufSize < head.bodyLen.toNat - reqSize := by
        rcases h with hshort | hlong | hbad
        · exact Or.inl hshort
        · exact Or.inr (by omega)
        · exact absurd hbad hmagic
      rw [if_neg hmagic]
      exact ⟨_, _, _, if_pos hlen, by decide, List.suffix_refl _⟩

/-! ## A stream of messages -/

/-- Messages are written one behind the other; `none` if one of them is not accepted. -/
def writeAll (net : Net) (sock : ℤ) (flags : UInt32) : List Message → Bytes → Option Bytes
  | [], s => some s
  | m :: ms, s =>
      match logheadWrite net sock m flags s with
      | (ret, s) => if ret = logheadRetSuccess then writeAll net sock flags ms s else none

/-- Messages are read one after the other, each with the two sizes that the reader asks for: what is read of
each, and what is left of the stream. -/
def readAll (net : Net) (sock : ℤ) (flags : UInt32) : List (ℕ × ℕ) → Bytes → List ReadResult
  | [], _ => []
  | (reqSize, bufSize) :: sizes, s =>
      logheadRead net sock reqSize bufSize flags s ::
        readAll net sock flags sizes (logheadRead net sock reqSize bufSize flags s).rest

variable {sock : ℤ}

/-- The messages that were accepted are the stream. -/
theorem writeAll_eq (hnet : net.Exact) {ms : List Message} {s s' : Bytes}
    (hlt : ∀ m ∈ ms, m.head.bodyLen.toNat < 2 ^ 31) (h : writeAll net sock flags ms s = some s') :
    (∀ m ∈ ms, m.req.length ≤ m.head.bodyLen.toNat) ∧ s' = s ++ ms.flatMap (Message.wire · flags) := by
  induction ms generalizing s with
  | nil =>
      rw [List.flatMap_nil, List.append_nil]
      exact ⟨fun m hm => absurd hm List.not_mem_nil, (Option.some.inj h).symm⟩
  | cons m ms ih =>
      obtain ⟨hm, hms⟩ := List.forall_mem_cons.mp hlt
      rw [writeAll] at h
      cases hwrite : logheadWrite net sock m flags s with
      | mk ret t =>
          rw [hwrite] at h
          dsimp only at h
          by_cases hret : ret = logheadRetSuccess
          · rw [if_pos hret] at h
            obtain ⟨hreq, rfl⟩ := logheadWrite_wire hnet hm (hret ▸ hwrite)
            obtain ⟨hall, rfl⟩ := ih hms h
            exact ⟨List.forall_mem_cons.mpr ⟨hreq, hall⟩, by rw [List.flatMap_cons, List.append_assoc]⟩
          · rw [if_neg hret] at h
            exact absurd h nofun

/-- What the reader has of a message, before `rest`. -/
def Message.read (m : Message) (flags : UInt32) (reqSize : ℕ) (rest : Bytes) : ReadResult :=
  ⟨logheadRetSuccess, some (m.head.marked flags), m.body.take reqSize, m.body.drop reqSize, rest⟩

/-- The reader has room for a message that it cuts in two. -/
def Message.Room (m : Message) (sizes : ℕ × ℕ) : Prop :=
  sizes.1 ≤ m.head.bodyLen.toNat ∧ m.head.bodyLen.toNat - sizes.1 ≤ sizes.2

/-- What the reader has of all messages. -/
def allRead (flags : UInt32) : List (Message × ℕ × ℕ) → Bytes → List ReadResult
  | [], _ => []
  | (m, reqSize, _) :: ms, rest =>
      m.read flags reqSize (ms.flatMap (fun p => p.1.wire flags) ++ rest) :: allRead flags ms rest

/-- The messages are read one after the other. -/
theorem readAll_eq (hnet : net.Exact) (hsock : 0 ≤ sock) {ms : List (Message × ℕ × ℕ)}
    (hlt : ∀ p ∈ ms, p.1.head.bodyLen.toNat < 2 ^ 31) (hreq : ∀ p ∈ ms, p.1.req.length ≤ p.1.head.bodyLen.toNat)
    (hroom : ∀ p ∈ ms, p.1.Room p.2) (rest : Bytes) :
    readAll net sock flags (ms.map Prod.snd) (ms.flatMap (fun p => p.1.wire flags) ++ rest) =
      allRead flags ms rest := by
  induction ms with
  | nil => rfl
  | cons p ms ih =>
      obtain ⟨m, reqSize, bufSize⟩ := p
      obtain ⟨hm, hms⟩ := List.forall_mem_cons.mp hlt
      obtain ⟨hr, hrs⟩ := List.forall_mem_cons.mp hreq
      obtain ⟨hb, hbs⟩ := List.forall_mem_cons.mp hroom
      have hlen := bodyLen_marked m.head flags
      have hread : logheadRead net sock reqSize bufSize flags
          (m.wire flags ++ (ms.flatMap (fun p => p.1.wire flags) ++ rest)) =
            m.read flags reqSize (ms.flatMap (fun p => p.1.wire flags) ++ rest) := by
        rw [Message.wire, List.append_assoc]
        exact logheadRead_wire hnet hsock magicNum_marked (by rwa [hlen]) (by rw [hlen, length_body hr])
          (by rw [hlen]; exact hb.1) (by rw [hlen]; exact hb.2) _
      rw [List.map_cons, List.flatMap_cons, List.append_assoc, readAll, hread, allRead]
      exact congrArg _ (ih hms hrs hbs)

/-- **Messages on a connection**: what was written is read, whatever stands behind it, and a head that does
not fit is refused before a byte of its body is read. -/
theorem loghead_framed (hnet : net.Exact) (flags : UInt32) :
    (∀ (ms : List (Message × ℕ × ℕ)) (sock sock' : ℤ) (s rest : Bytes),
      (∀ p ∈ ms, p.1.head.bodyLen.toNat < 2 ^ 31 ∧ p.1.Room p.2) → 0 ≤ sock' →
      writeAll net sock flags (ms.map Prod.fst) [] = some s →
      readAll net sock' flags (ms.map Prod.snd) (s ++ rest) = allRead flags ms rest) ∧
    ∀ (head : Loghead) (sock : ℤ) (reqSize bufSize : ℕ) (rest : Bytes),
      (head.bodyLen.toNat < reqSize ∨ reqSize + bufSize < head.bodyLen.toNat ∨
        hasFlag flags logheadCheckMagicnum = true ∧ head.magicNum ≠ logheadMagicnum) →
      ∃ ret head' left, logheadRead net sock reqSize bufSize flags (head.bytes ++ rest) =
        ⟨ret, head', [], [], left⟩ ∧ ret < 0 ∧ rest <:+ left := by
  refine ⟨fun ms sock sock' s rest hms hsock hwrite => ?_, fun head sock reqSize bufSize rest h =>
    logheadRead_refused hnet sock h rest⟩
  obtain ⟨hreq, rfl⟩ := writeAll_eq hnet (List.forall_mem_map.mpr fun p hp => (hms p hp).1) hwrite
  rw [List.nil_append, List.flatMap_map]
  exact readAll_eq hnet hsock (fun p hp => (hms p hp).1) (List.forall_mem_map.mp hreq)
    (fun p hp => (hms p hp).2) rest

/-- A connection on which everything is transferred at once. -/
def directNet : Net where
  sreado n s := if n ≤ s.length then ((n : ℤ), s.take n, s.drop n) else (0, [], s)
  swriteo data s := ((data.length : ℤ), s ++ data)
  timedOut := false

theorem directNet_exact : directNet.Exact where
  sreado _ _ h := if_pos h
  swriteo _ _ := rfl

/-- A head for a body of some bytes. -/
def headOf (bodyLen : UInt32) : Loghead := ⟨1, 2, 3, ⟨List.replicate 16 4, rfl⟩, 0, 5, bodyLen⟩

/-- A message whose body is `ab`, with the request `a`. -/
def abMessage : Message := ⟨headOf 2, [97], [98], by decide⟩

/-- Two messages, one cut behind the first byte of its body and one not, and a head that is refused. -/
theorem loghead_framed_two :
    readAll directNet 3 logheadCheckMagicnum [(1, 1), (0, 2)]
        (abMessage.wire logheadCheckMagicnum ++ abMessage.wire logheadCheckMagicnum ++ [7]) =
      allRead logheadCheckMagicnum [(abMessage, 1, 1), (abMessage, 0, 2)] [7] ∧
    ∃ ret head' left, logheadRead directNet 3 1 1 logheadCheckMagicnum ((headOf 3).bytes ++ [97, 98, 99]) =
      ⟨ret, head', [], [], left⟩ ∧ ret < 0 ∧ [97, 98, 99] <:+ left := by
  have hroom : ∀ p ∈ [(abMessage, 1, 1), (abMessage, 0, 2)], p.1.head.bodyLen.toNat < 2 ^ 31 ∧ p.1.Room p.2 := by
    unfold Message.Room
    decide
  obtain ⟨hread, hrefused⟩ := loghead_framed directNet_exact logheadCheckMagicnum
  exact ⟨hread [(abMessage, 1, 1), (abMessage, 0, 2)] 3 3 _ [7] hroom (by decide) rfl,
    hrefused (headOf 3) 3 1 1 [97, 98, 99] (by decide)⟩

end Asenal.Comlog
