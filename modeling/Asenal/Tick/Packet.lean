import Mathlib.Algebra.Group.Int.Defs
import Mathlib.Algebra.Group.Nat.Defs
import Asenal.Lib.Memory
import Asenal.Lib.Words

/-!
# Packets

A packet has a header with the length of what follows, an opcode, and some data. `TickServer::RunProcess` of
`tick_server.cc` reads the three parts, puts the header and the opcode in front of the data again, and makes
an item of all this. The functions come with a record of what they touch in the buffers they are given.

* `TickServer.receive` — one packet.
* `receive_inside_iff` — when nothing outside the buffers is touched; `receive_beyond` — a length with which
  that is not so.
* `receive_item`, `receive_item_header` — the item is a packet again, with the length of the data that was read.
-/

namespace Asenal.Tick

open Asenal.Lib.Memory Asenal.Lib.Words

/-! ## Reading -/

/-- What is touched: `len` bytes at `pos` of a buffer of `capacity` bytes. -/
structure Access where
  capacity : ℕ
  pos : ℕ
  len : ℕ
deriving DecidableEq

/-- Nothing outside the buffer is touched. -/
def Access.Inside (a : Access) : Prop := a.pos + a.len ≤ a.capacity

instance (a : Access) : Decidable a.Inside := inferInstanceAs (Decidable (_ ≤ _))

/-- The errors of `read` that are told apart. -/
inductive Errno
  | eagain
  | eintr
  | other
deriving DecidableEq

/-- What `rio_readnb` does: it copies some bytes, as many of them as it was asked for, and returns their
number; or it copies some and returns -1. -/
inductive RioAnswer
  | copied (bs : List UInt8)
  | failed (errno : Errno) (bs : List UInt8)

/-- The results of the readers. -/
inductive Status
  | ok
  | ioError (msg : String)
  | corruption (msg : String)
deriving DecidableEq

/-- What a loop around `rio_readnb` leaves: what it asked for, the memory, the status if it is over, and
`nread`. -/
structure Reading where
  asks : List Access
  mem : Mem UInt8
  status : Option Status
  nread : ℕ

/-- A failed call is made again. -/
def callsAgain (nonBlock : Bool) (errno : Errno) : Bool :=
  (errno = .eagain && !nonBlock) || errno = .eintr

/-- The calls of `rio_readnb`, one after the other. -/
def readCalls (nonBlock : Bool) (dst : Access) (error : String) : List RioAnswer → Mem UInt8 → Reading
  | [], m => ⟨[dst], m, none, 0⟩
  | .copied bs :: _, m =>
      let got := bs.take dst.len
      let status := if got = [] then .corruption "Connect has interrupt" else .ok
      ⟨[dst], poke m dst.pos got, some status, got.length⟩
  | .failed errno bs :: answers, m =>
      let m := poke m dst.pos (bs.take dst.len)
      if callsAgain nonBlock errno then
        let r := readCalls nonBlock dst error answers m
        { r with asks := dst :: r.asks }
      else ⟨[dst], m, some (.ioError error), 0⟩

/-- The loop of the three functions below; `rio_readnb` returns 0 when it is asked for nothing. -/
def readLoop (nonBlock : Bool) (dst : Access) (error : String) (answers : List RioAnswer) (m : Mem UInt8) :
    Reading :=
  if dst.len = 0 then ⟨[dst], m, some (.corruption "Connect has interrupt"), 0⟩
  else readCalls nonBlock dst error answers m

/-! ## The server -/

/-- `TICK_MAX_MESSAGE`. -/
def tickMaxMessage : ℕ := 10240

/-- `COMMAND_HEADER_LENGTH`. -/
def commandHeaderLength : ℕ := 4

/-- `COMMAND_CODE_LENGTH`. -/
def commandCodeLength : ℕ := 4

/-- The fields of a `TickServer` that a packet has to do with. -/
structure TickServer where
  /-- `flags_ & O_NONBLOCK`. -/
  nonBlock : Bool
  header_len_ : Int32
  r_opcode_ : Int32
  rbuf_ : Mem UInt8
  rbuf_len_ : Int32

/-- `memcpy` to `integer`, and `ntohl(integer)`. -/
def ntohl (buf : Mem UInt8) : Int32 := (netWord (peek buf 0 4)).toInt32

/-- `buf` is what the array holds at first. Source: `tick_server.cc` `TickServer::TickReadHeader`. -/
def TickServer.tickReadHeader (s : TickServer) (buf : Mem UInt8) (answers : List RioAnswer) :
    Reading × TickServer :=
  let r := readLoop s.nonBlock ⟨1024, 0, commandHeaderLength⟩ "Read command header error" answers buf
  (r, { s with header_len_ := if r.status = some .ok then ntohl r.mem else 0 })

/-- Source: `tick_server.cc` `TickServer::TickReadCode`. -/
def TickServer.tickReadCode (s : TickServer) (buf : Mem UInt8) (answers : List RioAnswer) :
    Reading × TickServer :=
  let r := readLoop s.nonBlock ⟨1024, 0, commandCodeLength⟩ "Read command code error" answers buf
  (r, { s with r_opcode_ := if r.status = some .ok then ntohl r.mem else 0 })

/-- `header_len_ - 4`, as `size_t`. -/
def TickServer.dataLen (s : TickServer) : ℕ := ((s.header_len_ - 4).toInt % 2 ^ 64).toNat

/-- Where the data go. -/
def TickServer.dataDst (s : TickServer) : Access :=
  ⟨tickMaxMessage, commandHeaderLength + commandCodeLength, s.dataLen⟩

/-- Source: `tick_server.cc` `TickServer::TickReadPacket`. -/
def TickServer.tickReadPacket (s : TickServer) (answers : List RioAnswer) : Reading × TickServer :=
  if s.header_len_ < 4 then (⟨[], s.rbuf_, some (.corruption "The packet no integrity"), 0⟩, s)
  else
    let r := readLoop s.nonBlock s.dataDst "Read data error" answers s.rbuf_
    (r, { s with
      rbuf_ := r.mem
      rbuf_len_ := if r.status = some .ok then Int32.ofNat r.nread else s.rbuf_len_ })

/-- Source: `tick_server.cc` `TickServer::BuildObuf`. -/
def TickServer.buildObuf (s : TickServer) : List Access × TickServer :=
  let codeLen := UInt32.ofNat commandCodeLength + s.rbuf_len_.toUInt32
  let rbuf := poke s.rbuf_ 0 (netBytes codeLen)
  let rbuf := poke rbuf commandCodeLength (netBytes s.r_opcode_.toUInt32)
  ([⟨tickMaxMessage, 0, 4⟩, ⟨tickMaxMessage, commandCodeLength, 4⟩], { s with rbuf_ := rbuf })

/-- `COMMAND_HEADER_LENGTH + COMMAND_CODE_LENGTH + rbuf_len_`, as `memcpy` takes it. -/
def TickServer.itemLen (s : TickServer) : ℕ :=
  (((commandHeaderLength + commandCodeLength : ℕ) + s.rbuf_len_.toInt) % 2 ^ 64).toNat

/-- The bytes of `TickItem(rbuf_, ...)`. Source: `tick_item.cc` `TickItem::TickItem`. -/
def TickServer.tickItem (s : TickServer) : List Access × List UInt8 :=
  ([⟨tickMaxMessage, 0, s.itemLen⟩], peek s.rbuf_ 0 s.itemLen)

/-- What one packet comes to: what was touched, the last status, the server, and the item. -/
structure Received where
  accesses : List Access
  status : Option Status
  server : TickServer
  item : Option (List UInt8)

/-- The data are read, and an item is made, when there is an opcode. -/
def TickServer.makeItem (s : TickServer) (packet : List RioAnswer) : Received :=
  let p := s.tickReadPacket packet
  if p.1.status ≠ some .ok then ⟨p.1.asks, p.1.status, p.2, none⟩
  else
    let b := p.2.buildObuf
    let ti := b.2.tickItem
    ⟨p.1.asks ++ (b.1 ++ ti.1), p.1.status, b.2, some ti.2⟩

/-- One packet. Source: `tick_server.cc` `TickServer::RunProcess`. -/
def TickServer.receive (s : TickServer) (bufHeader bufCode : Mem UInt8)
    (header code packet : List RioAnswer) : Received :=
  let h := s.tickReadHeader bufHeader header
  if h.1.status ≠ some .ok then ⟨h.1.asks, h.1.status, h.2, none⟩
  else
    let c := h.2.tickReadCode bufCode code
    if c.1.status ≠ some .ok then ⟨h.1.asks ++ c.1.asks, c.1.status, c.2, none⟩
    else
      let r := c.2.makeItem packet
      { r with accesses := h.1.asks ++ c.1.asks ++ r.accesses }

/-! ## What is asked for -/

/-- What a buffer holds when the bytes that were asked for have arrived. -/
def arrived (nonBlock : Bool) (dst : Access) : List RioAnswer → Mem UInt8 → Option (Mem UInt8)
  | [], _ => none
  | .copied bs :: _, m =>
      if bs.take dst.len = [] then none else some (poke m dst.pos (bs.take dst.len))
  | .failed errno bs :: answers, m =>
      if callsAgain nonBlock errno then arrived nonBlock dst answers (poke m dst.pos (bs.take dst.len))
      else none

variable {s : TickServer} {nonBlock : Bool} {dst : Access} {error : String} {answers : List RioAnswer}
  {m : Mem UInt8}

/-- Each call asks for the same. -/
theorem readCalls_asks : ∀ a ∈ (readCalls nonBlock dst error answers m).asks, a = dst := by
  induction answers generalizing m with
  | nil => simp [readCalls]
  | cons answer answers ih =>
      cases answer with
      | copied bs => simp [readCalls]
      | failed errno bs =>
          simp only [readCalls]
          split_ifs
          · exact List.forall_mem_cons.mpr ⟨rfl, ih⟩
          · simp

/-- All calls ask for the same bytes. -/
theorem readLoop_asks : ∀ a ∈ (readLoop nonBlock dst error answers m).asks, a = dst := by
  unfold readLoop
  split_ifs
  · simp
  · exact readCalls_asks

/-- There is a first call. -/
theorem mem_readLoop_asks : dst ∈ (readLoop nonBlock dst error answers m).asks := by
  unfold readLoop
  split_ifs
  · exact List.mem_singleton_self dst
  · cases answers with
    | nil => exact List.mem_singleton_self dst
    | cons answer answers =>
        cases answer with
        | copied bs => exact List.mem_singleton_self dst
        | failed errno bs =>
            simp only [readCalls]
            split_ifs
            · exact List.mem_cons_self
            · exact List.mem_singleton_self dst

/-- All calls stay inside if the destination does. -/
theorem readLoop_inside :
    (∀ a ∈ (readLoop nonBlock dst error answers m).asks, a.Inside) ↔ dst.Inside :=
  ⟨fun h => h dst mem_readLoop_asks, fun h _ ha => readLoop_asks _ ha ▸ h⟩

/-- The bytes have arrived when the status is OK. -/
theorem arrived_readCalls : arrived nonBlock dst answers m =
    if (readCalls nonBlock dst error answers m).status = some .ok then
      some (readCalls nonBlock dst error answers m).mem
    else none := by
  induction answers generalizing m with
  | nil => simp [readCalls, arrived]
  | cons answer answers ih =>
      cases answer with
      | copied bs =>
          simp only [readCalls, arrived]
          split_ifs <;> simp_all
      | failed errno bs =>
          simp only [readCalls, arrived]
          by_cases hagain : callsAgain nonBlock errno = true
          · rw [if_pos hagain, if_pos hagain]
            exact ih
          · rw [if_neg hagain, if_neg hagain, if_neg (by simp)]

/-- What has arrived is what the loop leaves, if it is a success. -/
theorem arrived_readLoop (hlen : dst.len ≠ 0) : arrived nonBlock dst answers m =
    if (readLoop nonBlock dst error answers m).status = some .ok then
      some (readLoop nonBlock dst error answers m).mem
    else none := by
  rw [readLoop, if_neg hlen]
  exact arrived_readCalls

/-- What is in the buffer then. -/
theorem readCalls_data (h : (readCalls nonBlock dst error answers m).status = some .ok) :
    ∃ m' data, data ≠ [] ∧ data.length ≤ dst.len ∧
      (readCalls nonBlock dst error answers m).nread = data.length ∧
      (readCalls nonBlock dst error answers m).mem = poke m' dst.pos data := by
  induction answers generalizing m with
  | nil => simp [readCalls] at h
  | cons answer answers ih =>
      cases answer with
      | copied bs =>
          simp only [readCalls] at h ⊢
          refine ⟨m, bs.take dst.len, ?_, List.length_take_le _ _, rfl, rfl⟩
          intro hnil
          simp [hnil] at h
      | failed errno bs =>
          simp only [readCalls] at h ⊢
          split_ifs at h ⊢
          · exact ih h
          · simp at h

/-- A success leaves data. -/
theorem readLoop_data (h : (readLoop nonBlock dst error answers m).status = some .ok) :
    ∃ m' data, data ≠ [] ∧ data.length ≤ dst.len ∧
      (readLoop nonBlock dst error answers m).nread = data.length ∧
      (readLoop nonBlock dst error answers m).mem = poke m' dst.pos data := by
  unfold readLoop at h ⊢
  split_ifs at h ⊢ with hlen
  · simp at h
  · exact readCalls_data h

/-! ## One packet -/

/-- Where the header and the opcode go. -/
def wordDst : Access := ⟨1024, 0, 4⟩

/-- A word is inside. -/
theorem wordDst_inside : wordDst.Inside := by decide

variable {buf : Mem UInt8}

/-- The data are as long as the header says. -/
theorem dataLen_eq (h : 4 ≤ s.header_len_.toInt) : (s.dataLen : ℤ) = s.header_len_.toInt - 4 := by
  have hlt := s.header_len_.toInt_lt
  have hfour : (4 : Int32).toInt = 4 := rfl
  unfold TickServer.dataLen
  rw [Int32.toInt_sub, hfour, Int.bmod_eq_of_le (by omega) (by omega)]
  omega

/-- **The data fit** when the length is small. -/
theorem dataDst_inside (h : 4 ≤ s.header_len_.toInt) : s.dataDst.Inside ↔ s.header_len_.toInt ≤ 10236 := by
  have hlen := dataLen_eq h
  unfold Access.Inside TickServer.dataDst tickMaxMessage commandHeaderLength commandCodeLength
  simp only
  omega

/-- The packet stays inside for lengths that fit. -/
theorem tickReadPacket_inside (packet : List RioAnswer) :
    (∀ a ∈ (s.tickReadPacket packet).1.asks, a.Inside) ↔ s.header_len_.toInt ≤ 10236 := by
  have hfour : (4 : Int32).toInt = 4 := rfl
  unfold TickServer.tickReadPacket
  split_ifs with hlt
  · rw [Int32.lt_iff_toInt_lt, hfour] at hlt
    simp only [List.not_mem_nil, false_implies, implies_true, true_iff]
    omega
  · rw [Int32.not_lt, Int32.le_iff_toInt_le, hfour] at hlt
    exact readLoop_inside.trans (dataDst_inside hlt)

/-- What is left of a packet that was read. -/
theorem tickReadPacket_ok {packet : List RioAnswer} (h : (s.tickReadPacket packet).1.status = some .ok) :
    4 ≤ s.header_len_.toInt ∧ (s.tickReadPacket packet).2.r_opcode_ = s.r_opcode_ ∧
      ∃ m data, data ≠ [] ∧ data.length ≤ s.dataLen ∧ (s.tickReadPacket packet).2.rbuf_ = poke m 8 data ∧
        (s.tickReadPacket packet).2.rbuf_len_ = Int32.ofNat data.length := by
  have hfour : (4 : Int32).toInt = 4 := rfl
  unfold TickServer.tickReadPacket at h ⊢
  split_ifs at h ⊢ with hlt
  · simp at h
  · rw [Int32.not_lt, Int32.le_iff_toInt_le, hfour] at hlt
    obtain ⟨m, data, hne, hle, hnread, hmem⟩ := readLoop_data h
    refine ⟨hlt, rfl, m, data, hne, hle, hmem, ?_⟩
    simp only
    rw [if_pos h, hnread]

/-- The item has the header, the opcode and the data that were read. -/
theorem itemLen_eq {data : List UInt8} (hlen : s.rbuf_len_ = Int32.ofNat data.length)
    (hdata : data.length < 2 ^ 31) : s.itemLen = 8 + data.length := by
  have htoInt : s.rbuf_len_.toInt = data.length := by
    rw [hlen, Int32.toInt_ofNat_of_lt hdata]
  unfold TickServer.itemLen commandHeaderLength commandCodeLength
  rw [htoInt]
  omega

variable {bufHeader bufCode : Mem UInt8} {header code packet : List RioAnswer}

/-- The header stays inside. -/
theorem tickReadHeader_inside : ∀ a ∈ (s.tickReadHeader bufHeader header).1.asks, a.Inside :=
  readLoop_inside.mpr wordDst_inside

/-- So does the opcode. -/
theorem tickReadCode_inside : ∀ a ∈ (s.tickReadCode bufCode code).1.asks, a.Inside :=
  readLoop_inside.mpr wordDst_inside

/-- The header that has arrived. -/
theorem arrived_header : arrived s.nonBlock wordDst header bufHeader =
    if (s.tickReadHeader bufHeader header).1.status = some .ok then
      some (s.tickReadHeader bufHeader header).1.mem
    else none :=
  arrived_readLoop (by decide)

/-- The opcode that has arrived. -/
theorem arrived_code : arrived s.nonBlock wordDst code bufCode =
    if (s.tickReadCode bufCode code).1.status = some .ok then some (s.tickReadCode bufCode code).1.mem
    else none :=
  arrived_readLoop (by decide)

/-- A packet that was read is put together in the buffer, if its data fit there. -/
theorem tickItem_inside (h : (s.tickReadPacket packet).1.status = some .ok)
    (hlen : s.header_len_.toInt ≤ 10236) :
    ∀ a ∈ (s.tickReadPacket packet).2.buildObuf.1 ++ (s.tickReadPacket packet).2.buildObuf.2.tickItem.1,
      a.Inside := by
  obtain ⟨hfour, -, m, data, -, hle, -, hrbuf⟩ := tickReadPacket_ok h
  have hdata := dataLen_eq hfour
  have hitem := itemLen_eq (s := (s.tickReadPacket packet).2.buildObuf.2) hrbuf (by omega)
  refine List.forall_mem_append.mpr ⟨?_, ?_⟩
  · show ∀ a ∈ [(⟨10240, 0, 4⟩ : Access), ⟨10240, 4, 4⟩], a.Inside
    decide
  · refine List.forall_mem_singleton.mpr ?_
    show 0 + (s.tickReadPacket packet).2.buildObuf.2.itemLen ≤ 10240
    omega

/-- The item stays inside for lengths that fit. -/
theorem makeItem_inside :
    (∀ a ∈ (s.makeItem packet).accesses, a.Inside) ↔ s.header_len_.toInt ≤ 10236 := by
  rw [← tickReadPacket_inside packet]
  unfold TickServer.makeItem
  by_cases hp : (s.tickReadPacket packet).1.status = some .ok
  · rw [if_neg (not_not.mpr hp)]
    refine List.forall_mem_append.trans (and_iff_left_of_imp fun h => ?_)
    exact tickItem_inside hp ((tickReadPacket_inside packet).mp h)
  · rw [if_pos hp]

/-- **Nothing outside the buffers** is touched exactly when the length of a packet whose header and opcode
arrive is at most 10236. -/
theorem receive_inside_iff (s : TickServer) (bufHeader bufCode : Mem UInt8)
    (header code packet : List RioAnswer) :
    (∀ a ∈ (s.receive bufHeader bufCode header code packet).accesses, a.Inside) ↔
      ∀ len, (arrived s.nonBlock wordDst header bufHeader).map ntohl = some len →
        (arrived s.nonBlock wordDst code bufCode).isSome → len.toInt ≤ 10236 := by
  unfold TickServer.receive
  by_cases hh : (s.tickReadHeader bufHeader header).1.status = some .ok
  · have hcode : arrived s.nonBlock wordDst code bufCode = _ :=
      arrived_code (s := (s.tickReadHeader bufHeader header).2)
    rw [if_neg (not_not.mpr hh), arrived_header, if_pos hh, hcode]
    by_cases hc : ((s.tickReadHeader bufHeader header).2.tickReadCode bufCode code).1.status = some .ok
    · have hlen : ((s.tickReadHeader bufHeader header).2.tickReadCode bufCode code).2.header_len_ =
          ntohl (s.tickReadHeader bufHeader header).1.mem := if_pos hh
      have hitem : (∀ a ∈ (((s.tickReadHeader bufHeader header).2.tickReadCode bufCode code).2.makeItem
          packet).accesses, a.Inside) ↔ _ := makeItem_inside
      rw [if_neg (not_not.mpr hc), if_pos hc]
      apply List.forall_mem_append.trans
      rw [hitem, hlen, and_iff_right (List.forall_mem_append.mpr ⟨tickReadHeader_inside, tickReadCode_inside⟩)]
      simp
    · rw [if_pos hc, if_neg hc]
      apply iff_of_true (List.forall_mem_append.mpr ⟨tickReadHeader_inside, tickReadCode_inside⟩)
      intro len _ hsome
      simp at hsome
  · rw [if_pos hh, arrived_header, if_neg hh]
    apply iff_of_true tickReadHeader_inside
    intro len hlen
    simp at hlen

/-- A header that says 10241: 10237 bytes are asked for behind the first eight of 10240. -/
theorem receive_beyond : ¬ ∀ (s : TickServer) (bufHeader bufCode : Mem UInt8)
    (header code packet : List RioAnswer),
    ∀ a ∈ (s.receive bufHeader bufCode header code packet).accesses, a.Inside := by
  intro h
  have hmem := h ⟨true, 0, 0, fun _ => 0, 0⟩ (fun _ => 0) (fun _ => 0) [.copied [0, 0, 40, 1]]
    [.copied [0, 0, 0, 1]] [.copied [65, 66]] ⟨10240, 8, 10237⟩ (by decide)
  exact absurd hmem (by decide)

/-! ## The item -/

/-- A buffer with a header and an opcode in front of some data. -/
theorem peek_packet (m : Mem UInt8) (w opcode : UInt32) (data : List UInt8) :
    peek (poke (poke (poke m 8 data) 0 (netBytes w)) 4 (netBytes opcode)) 0 (8 + data.length) =
      netBytes w ++ (netBytes opcode ++ data) := by
  have hsplit : 8 + data.length = 4 + (4 + data.length) := by omega
  have hheader : peek (poke (poke m 8 data) 0 (netBytes w)) 0 4 = netBytes w := peek_poke_self _ 0 (netBytes w)
  have hbehind : 0 + (netBytes w).length ≤ 4 + 4 := by
    rw [length_netBytes]
    decide
  have hopcode := peek_poke_front (poke (poke m 8 data) 0 (netBytes w)) 4 data.length (netBytes opcode)
  rw [length_netBytes] at hopcode
  rw [hsplit, peek_add, peek_poke_before _ _ (Nat.le_refl 4), hheader, Nat.zero_add, hopcode,
    peek_poke_after _ _ hbehind, peek_poke_self]

/-- What `BuildObuf` and `TickItem` make of data in the buffer. -/
theorem tickItem_buildObuf {data : List UInt8} (hrbuf : s.rbuf_ = poke m 8 data)
    (hlen : s.rbuf_len_ = Int32.ofNat data.length) (hdata : data.length < 2 ^ 31) :
    s.buildObuf.2.tickItem.2 =
      netBytes (UInt32.ofNat (4 + data.length)) ++ (netBytes s.r_opcode_.toUInt32 ++ data) := by
  have hcode : UInt32.ofNat commandCodeLength + s.rbuf_len_.toUInt32 = UInt32.ofNat (4 + data.length) := by
    rw [hlen, UInt32.ofNat_add]
    rfl
  have hitem : s.buildObuf.2.itemLen = 8 + data.length := itemLen_eq hlen hdata
  simp only [TickServer.tickItem]
  rw [hitem]
  simp only [TickServer.buildObuf]
  rw [hcode, hrbuf]
  exact peek_packet m _ _ data

/-- An item has both words and data. -/
theorem makeItem_item {msg : List UInt8} (h : (s.makeItem packet).item = some msg) :
    ∃ data : List UInt8, data ≠ [] ∧ (4 + data.length : ℤ) ≤ s.header_len_.toInt ∧
      msg = netBytes (UInt32.ofNat (4 + data.length)) ++ (netBytes s.r_opcode_.toUInt32 ++ data) := by
  unfold TickServer.makeItem at h
  by_cases hp : (s.tickReadPacket packet).1.status = some .ok
  · rw [if_neg (not_not.mpr hp)] at h
    obtain rfl := Option.some.inj h
    obtain ⟨hfour, hopcode, m, data, hne, hle, hrbuf, hlen⟩ := tickReadPacket_ok hp
    have hdata := dataLen_eq hfour
    have hlt := s.header_len_.toInt_lt
    refine ⟨data, hne, by omega, ?_⟩
    rw [tickItem_buildObuf hrbuf hlen (by omega), hopcode]
  · rw [if_pos hp] at h
    exact absurd h (by simp)

/-- **An item is a packet** with the opcode that was sent, and a header with the length of the data that have
arrived, whatever the header before said. -/
theorem receive_item {msg : List UInt8}
    (h : (s.receive bufHeader bufCode header code packet).item = some msg) :
    ∃ (opcode : Int32) (data : List UInt8), data ≠ [] ∧
      (arrived s.nonBlock wordDst code bufCode).map ntohl = some opcode ∧
      msg = netBytes (UInt32.ofNat (4 + data.length)) ++ (netBytes opcode.toUInt32 ++ data) := by
  unfold TickServer.receive at h
  by_cases hh : (s.tickReadHeader bufHeader header).1.status = some .ok
  · rw [if_neg (not_not.mpr hh)] at h
    by_cases hc : ((s.tickReadHeader bufHeader header).2.tickReadCode bufCode code).1.status = some .ok
    · rw [if_neg (not_not.mpr hc)] at h
      obtain ⟨data, hne, -, hmsg⟩ := makeItem_item h
      refine ⟨_, data, hne, ?_, hmsg⟩
      have hcode : arrived s.nonBlock wordDst code bufCode = _ :=
        arrived_code (s := (s.tickReadHeader bufHeader header).2)
      rw [hcode, if_pos hc, Option.map_some]
      exact congrArg some (if_pos hc).symm
    · rw [if_pos hc] at h
      exact absurd h (by simp)
  · rw [if_pos hh] at h
    exact absurd h (by simp)

/-- The header of an item counts the bytes behind it. -/
theorem receive_item_header {msg : List UInt8}
    (h : (s.receive bufHeader bufCode header code packet).item = some msg) :
    netWord (msg.take 4) = UInt32.ofNat (msg.length - 4) := by
  obtain ⟨opcode, data, -, -, rfl⟩ := receive_item h
  rw [List.take_left' (length_netBytes _), netWord_netBytes, List.length_append, List.length_append,
    length_netBytes, length_netBytes, Nat.add_sub_cancel_left]

end Asenal.Tick
