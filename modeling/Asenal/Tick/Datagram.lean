import Asenal.Tick.Packet
import Asenal.Tick.Relay

/-!
# Datagrams

`TickServer::RunProcess` of `tick_server.cc` reads a datagram through the buffer of `rio_readnb` of
`csapp.cc`, and pushes the item it makes of it to the next worker.

* `rioReadnb_append` — the bytes that are asked for come from the front of what is left of a datagram.
* `arrive_datagram` — what a datagram comes to.
* `datagrams_relayed_iff` — when each datagram becomes one item, and the workers have them in turn.
-/

namespace Asenal.Tick

open Asenal.Lib.Machine Asenal.Lib.Memory Asenal.Lib.Notified Asenal.Lib.Words

/-! ## The buffer -/

/-- What `read` does with the socket: it returns a datagram, or -1. -/
inductive SockRead
  | datagram (bs : List UInt8)
  | failed (errno : Errno)

/-- A `rio_t`: the bytes from `rio_bufptr` on, and what `read` is going to do. -/
structure Rio where
  unread : List UInt8
  sock : List SockRead

/-- `RIO_BUFSIZE`. -/
def rioBufsize : ℕ := 8192

/-- The loop that fills the buffer. A datagram that is longer than the buffer is cut; there is nothing to read
in a socket without a datagram. -/
def rioFill : List SockRead → Except Errno (List UInt8) × List SockRead
  | [] => (.error .eagain, [])
  | .failed errno :: sock => if errno = .eintr then rioFill sock else (.error errno, sock)
  | .datagram bs :: sock => (.ok (bs.take rioBufsize), sock)

/-- The bytes that are copied; none at the end of the file. No caller asks for so many bytes that
the conversion of `n` to an `int` would change it. Source: `csapp.cc` `rio_read`. -/
def rioRead (rp : Rio) (n : ℕ) : Except Errno (List UInt8) × Rio :=
  if rp.unread ≠ [] then (.ok (rp.unread.take n), { rp with unread := rp.unread.drop n })
  else
    match rioFill rp.sock with
    | (.error errno, sock) => (.error errno, ⟨[], sock⟩)
    | (.ok buf, sock) => (.ok (buf.take n), ⟨buf.drop n, sock⟩)

/-- The loop of `rio_readnb`, with the bytes that are copied already. Each round but the last one copies a byte
at least, so that there are no more rounds than bytes. -/
def rioReadnbLoop : ℕ → Rio → ℕ → List UInt8 → RioAnswer × Rio
  | 0, rp, _, got => (.copied got, rp)
  | rounds + 1, rp, nleft, got =>
      if nleft = 0 then (.copied got, rp)
      else
        match rioRead rp nleft with
        | (.error errno, rp) =>
            if errno = .eintr then rioReadnbLoop rounds rp nleft got else (.failed errno got, rp)
        | (.ok bs, rp) =>
            if bs = [] then (.copied got, rp) else rioReadnbLoop rounds rp (nleft - bs.length) (got ++ bs)

/-- Source: `csapp.cc` `rio_readnb`. -/
def rioReadnb (rp : Rio) (n : ℕ) : RioAnswer × Rio := rioReadnbLoop n rp n []

/-- The calls of `rio_readnb` in one of the loops of the server, `again` of them behind the first one at most. -/
def rioCalls (nonBlock : Bool) (n again : ℕ) (rp : Rio) : List RioAnswer × Rio :=
  match rioReadnb rp n with
  | (.copied bs, rp) => ([.copied bs], rp)
  | (.failed errno bs, rp) =>
      if callsAgain nonBlock errno then
        match again with
        | 0 => ([.failed errno bs], rp)
        | again + 1 =>
            let r := rioCalls nonBlock n again rp
            (.failed errno bs :: r.1, r.2)
      else ([.failed errno bs], rp)

/-- A readable socket. Source: `tick_server.cc` `TickServer::RunProcess`, with `TickServer::TickReadHeader`,
`TickServer::TickReadCode` and `TickServer::TickReadPacket`. -/
def TickServer.arrive (s : TickServer) (again : ℕ) (bufHeader bufCode : Mem UInt8) (sock : List SockRead) :
    Received :=
  let h := rioCalls s.nonBlock commandHeaderLength again ⟨[], sock⟩
  let header := s.tickReadHeader bufHeader h.1
  if header.1.status ≠ some .ok then s.receive bufHeader bufCode h.1 [] []
  else
    let c := rioCalls s.nonBlock commandCodeLength again h.2
    let code := header.2.tickReadCode bufCode c.1
    if code.1.status ≠ some .ok then s.receive bufHeader bufCode h.1 c.1 []
    else s.receive bufHeader bufCode h.1 c.1 (rioCalls s.nonBlock code.2.dataLen again c.2).1

/-! ## The receiver and the workers -/

/-- The server with its threads, and the datagrams that have arrived up to now. -/
structure TickRun where
  server : TickServer
  relay : Relay
  datagrams : List (List UInt8)

/-- What may happen in a run. -/
inductive RunAction
  /-- `TickPoll` returns with a datagram in the socket; the two arrays hold anything. -/
  | arrival (bufHeader bufCode : Mem UInt8) (datagram : List UInt8)
  /-- The receiver goes on behind `push`. -/
  | write
  | next
  /-- A step of a worker. -/
  | read (i : Fin tickThreadNum)
  | pop (i : Fin tickThreadNum)
  | send (i : Fin tickThreadNum)

/-- What becomes of a datagram: its item is pushed if there is one. -/
def TickRun.arrival (s : TickRun) (again : ℕ) (bufHeader bufCode : Mem UInt8) (datagram : List UInt8) : TickRun :=
  let r := s.server.arrive again bufHeader bufCode [.datagram datagram]
  { server := r.server
    relay := match r.item with
      | some msg => s.relay.push msg
      | none => s.relay
    datagrams := s.datagrams ++ [datagram] }

/-- A step that has nothing to do with the socket. -/
def TickRun.relayStep (s : TickRun) (act : Action) : Option TickRun :=
  (s.relay.step act).map fun relay => { s with relay := relay }

/-- One step of the receiver or of a worker. -/
def TickRun.step (again : ℕ) (s : TickRun) : RunAction → Option TickRun
  | .arrival bufHeader bufCode datagram =>
      if s.relay.place = .receiving then some (s.arrival again bufHeader bufCode datagram) else none
  | .write => s.relayStep .write
  | .next => s.relayStep .next
  | .read i => s.relayStep (.read i)
  | .pop i => s.relayStep (.pop i)
  | .send i => s.relayStep (.send i)

/-- The server of `TickServer::TickServer`, which does not block. -/
def TickRun.IsInit (s : TickRun) : Prop :=
  s.server.nonBlock = true ∧ s.relay = .init ∧ s.datagrams = []

/-- **A datagram**: the length of what follows, an opcode, and some data, in 8192 bytes at most. -/
def IsDatagram (d : List UInt8) : Prop :=
  ∃ (opcode : UInt32) (data : List UInt8),
    d = netBytes (UInt32.ofNat (4 + data.length)) ++ (netBytes opcode ++ data) ∧ d.length ≤ rioBufsize

/-- All peers send datagrams. -/
def RunAction.Sent : RunAction → Prop
  | .arrival _ _ d => IsDatagram d
  | _ => True

/-- The states that are reached with the datagrams of such peers. -/
def TickRun.Reached (again : ℕ) : TickRun → Prop :=
  Lib.Machine.Reached TickRun.IsInit (TickRun.step again) fun _ act => act.Sent

/-! ## What is copied -/

variable {bs rest : List UInt8} {sock : List SockRead} {rp rp' : Rio} {nonBlock : Bool} {n again : ℕ}

/-- What is in the buffer is read from it. -/
theorem rioRead_append (h : bs ≠ []) :
    rioRead ⟨bs ++ rest, sock⟩ bs.length = (.ok bs, ⟨rest, sock⟩) := by
  rw [rioRead, if_pos (by simp [h])]
  simp

/-- The first bytes of a datagram. -/
theorem rioRead_datagram (h : (bs ++ rest).length ≤ rioBufsize) :
    rioRead ⟨[], .datagram (bs ++ rest) :: sock⟩ bs.length = (.ok bs, ⟨rest, sock⟩) := by
  rw [rioRead, if_neg (by simp)]
  simp only [rioFill]
  rw [List.take_of_length_le h, List.take_left, List.drop_left]

/-- A read of all that is wanted ends the loop. -/
theorem rioReadnb_of_read (h : rioRead rp bs.length = (.ok bs, rp')) (hbs : bs ≠ []) :
    rioReadnb rp bs.length = (.copied bs, rp') := by
  obtain ⟨n, hn⟩ := Nat.exists_eq_succ_of_ne_zero (mt List.eq_nil_of_length_eq_zero hbs)
  rw [rioReadnb, hn, rioReadnbLoop, if_neg (Nat.succ_ne_zero n), ← hn, h]
  simp only
  rw [if_neg hbs, Nat.sub_self, List.nil_append]
  -- there is nothing left to be read
  cases n with
  | zero => rfl
  | succ n => rw [rioReadnbLoop, if_pos rfl]

/-- **The bytes that are asked for** come from the front of what is left. -/
theorem rioReadnb_append : rioReadnb ⟨bs ++ rest, sock⟩ bs.length = (.copied bs, ⟨rest, sock⟩) := by
  by_cases hbs : bs = []
  · subst hbs
    rfl
  · exact rioReadnb_of_read (rioRead_append hbs) hbs

/-- Then there is one call. -/
theorem rioCalls_of_copied (h : rioReadnb rp n = (.copied bs, rp')) :
    rioCalls nonBlock n again rp = ([.copied bs], rp') := by
  rw [rioCalls, h]

/-! ## What a datagram comes to -/

variable {s : TickServer} {dst : Access} {error : String} {buf bufHeader bufCode m : Mem UInt8}
  {header code packet : List RioAnswer} {w opcode : UInt32} {data : List UInt8}

/-- One call that copies all that is wanted. -/
theorem readLoop_copied (hlen : dst.len = bs.length) (hbs : bs ≠ []) :
    readLoop nonBlock dst error [.copied bs] m = ⟨[dst], poke m dst.pos bs, some .ok, bs.length⟩ := by
  have hne : dst.len ≠ 0 := by
    rw [hlen]
    exact mt List.eq_nil_of_length_eq_zero hbs
  rw [readLoop, if_neg hne, readCalls, hlen, List.take_length, if_neg hbs]

/-- A word in network order is read again. -/
theorem ntohl_poke (w : UInt32) : ntohl (poke m 0 (netBytes w)) = w.toInt32 := by
  have hpeek : peek (poke m 0 (netBytes w)) 0 4 = netBytes w := peek_poke_self m 0 (netBytes w)
  rw [ntohl, hpeek, netWord_netBytes]

/-- A word has bytes. -/
theorem netBytes_ne_nil (w : UInt32) : netBytes w ≠ [] := by
  simp [netBytes, wordBytes]

/-- The header is read in one call. -/
theorem tickReadHeader_copied : s.tickReadHeader buf [.copied (netBytes w)] =
    (⟨[wordDst], poke buf 0 (netBytes w), some .ok, 4⟩, { s with header_len_ := w.toInt32 }) := by
  have hloop : readLoop s.nonBlock ⟨1024, 0, commandHeaderLength⟩ "Read command header error"
      [.copied (netBytes w)] buf = ⟨[wordDst], poke buf 0 (netBytes w), some .ok, 4⟩ :=
    readLoop_copied rfl (netBytes_ne_nil w)
  rw [TickServer.tickReadHeader, hloop]
  simp only [if_true, ntohl_poke]

/-- So is the opcode. -/
theorem tickReadCode_copied : s.tickReadCode buf [.copied (netBytes opcode)] =
    (⟨[wordDst], poke buf 0 (netBytes opcode), some .ok, 4⟩, { s with r_opcode_ := opcode.toInt32 }) := by
  have hloop : readLoop s.nonBlock ⟨1024, 0, commandCodeLength⟩ "Read command code error"
      [.copied (netBytes opcode)] buf = ⟨[wordDst], poke buf 0 (netBytes opcode), some .ok, 4⟩ :=
    readLoop_copied rfl (netBytes_ne_nil opcode)
  rw [TickServer.tickReadCode, hloop]
  simp only [if_true, ntohl_poke]

/-- The server behind a header and an opcode. -/
def TickServer.behindWords (s : TickServer) (w opcode : UInt32) : TickServer :=
  { s with header_len_ := w.toInt32, r_opcode_ := opcode.toInt32 }

/-- Behind both words the item is made. -/
theorem receive_item_copied :
    (s.receive bufHeader bufCode [.copied (netBytes w)] [.copied (netBytes opcode)] packet).item =
      ((s.behindWords w opcode).makeItem packet).item := by
  rw [TickServer.receive, tickReadHeader_copied]
  simp only [ne_eq, not_true_eq_false, if_false]
  rw [tickReadCode_copied]
  rfl

/-- The length of a datagram, as the server has it. -/
theorem dataLen_behindWords (s : TickServer) (opcode : UInt32) (data : List UInt8)
    (h : data.length < 2 ^ 31 - 4) :
    (s.behindWords (UInt32.ofNat (4 + data.length)) opcode).header_len_.toInt = 4 + data.length ∧
      (s.behindWords (UInt32.ofNat (4 + data.length)) opcode).dataLen = data.length := by
  have hlen : (s.behindWords (UInt32.ofNat (4 + data.length)) opcode).header_len_.toInt =
      4 + data.length := by
    show (UInt32.ofNat (4 + data.length)).toInt32.toInt = 4 + data.length
    rw [UInt32.toInt32_ofNat', Int32.toInt_ofNat_of_lt (by omega)]
    omega
  have hdata := dataLen_eq (s := s.behindWords (UInt32.ofNat (4 + data.length)) opcode) (by omega)
  exact ⟨hlen, by omega⟩

/-- Nothing is asked for, and what arrives is taken for the end of the connection. -/
theorem makeItem_nil (h : s.dataLen = 0) : (s.makeItem packet).item = none := by
  have hstatus : (s.tickReadPacket packet).1.status ≠ some .ok := by
    rw [TickServer.tickReadPacket]
    split_ifs
    · simp
    · rw [readLoop, if_pos (show s.dataDst.len = 0 from h)]
      simp
  rw [TickServer.makeItem, if_pos hstatus]

/-- The data are read in one call. -/
theorem tickReadPacket_copied (h : s.header_len_.toInt = 4 + data.length) (hdata : data ≠ []) :
    s.tickReadPacket [.copied data] = (⟨[s.dataDst], poke s.rbuf_ 8 data, some .ok, data.length⟩,
      { s with rbuf_ := poke s.rbuf_ 8 data, rbuf_len_ := Int32.ofNat data.length }) := by
  have hlen := dataLen_eq (s := s) (by omega)
  have hlt : ¬ s.header_len_ < 4 := by
    have hfour : (4 : Int32).toInt = 4 := rfl
    rw [Int32.lt_iff_toInt_lt, hfour]
    omega
  have hloop : readLoop s.nonBlock s.dataDst "Read data error" [.copied data] s.rbuf_ =
      ⟨[s.dataDst], poke s.rbuf_ 8 data, some .ok, data.length⟩ :=
    readLoop_copied (show s.dataLen = data.length by omega) hdata
  rw [TickServer.tickReadPacket, if_neg hlt, hloop]
  simp only [if_true]

/-- The item has both words and the data. -/
theorem makeItem_data (h : s.header_len_.toInt = 4 + data.length) (hdata : data ≠ []) :
    (s.makeItem [.copied data]).item =
      some (netBytes (UInt32.ofNat (4 + data.length)) ++ (netBytes s.r_opcode_.toUInt32 ++ data)) := by
  have hlt := s.header_len_.toInt_lt
  rw [TickServer.makeItem, tickReadPacket_copied h hdata]
  simp only [ne_eq, not_true_eq_false, if_false]
  exact congrArg some (tickItem_buildObuf rfl rfl (by omega))

/-- **What a datagram comes to**: an item with its bytes, if there are data in it. -/
theorem arrive_datagram {d : List UInt8} (h : IsDatagram d) :
    (s.arrive again bufHeader bufCode [.datagram d]).item = if d.length = 8 then none else some d := by
  obtain ⟨opcode, data, rfl, hle⟩ := h
  have hheader : rioCalls s.nonBlock commandHeaderLength again
      ⟨[], [.datagram (netBytes (UInt32.ofNat (4 + data.length)) ++ (netBytes opcode ++ data))]⟩ =
      ([.copied (netBytes (UInt32.ofNat (4 + data.length)))], ⟨netBytes opcode ++ data, []⟩) :=
    rioCalls_of_copied (rioReadnb_of_read (rioRead_datagram hle) (netBytes_ne_nil _))
  have hcode : rioCalls s.nonBlock commandCodeLength again ⟨netBytes opcode ++ data, []⟩ =
      ([.copied (netBytes opcode)], ⟨data, []⟩) :=
    rioCalls_of_copied (rioReadnb_append :
      rioReadnb ⟨netBytes opcode ++ data, []⟩ (netBytes opcode).length = (.copied (netBytes opcode), ⟨data, []⟩))
  have hlen : (netBytes (UInt32.ofNat (4 + data.length)) ++ (netBytes opcode ++ data)).length =
      8 + data.length := by
    simp only [List.length_append, length_netBytes]
    omega
  rw [rioBufsize, hlen] at hle
  obtain ⟨hlength, hdataLen⟩ := dataLen_behindWords s opcode data (by omega)
  have hpacket : rioCalls s.nonBlock data.length again ⟨data, []⟩ = ([.copied data], ⟨[], []⟩) := by
    have hread : rioReadnb ⟨data ++ [], []⟩ data.length = (.copied data, ⟨[], []⟩) := rioReadnb_append
    rw [List.append_nil] at hread
    exact rioCalls_of_copied hread
  rw [hlen, TickServer.arrive, hheader]
  simp only [tickReadHeader_copied, hcode, tickReadCode_copied, ne_eq, not_true_eq_false, if_false]
  rw [receive_item_copied]
  show ((s.behindWords _ opcode).makeItem
    (rioCalls s.nonBlock (s.behindWords _ opcode).dataLen again ⟨data, []⟩).1).item = _
  rw [hdataLen, hpacket]
  by_cases hdata : data = []
  · subst hdata
    rw [makeItem_nil hdataLen, List.length_nil, if_pos rfl]
  · have hpos := List.length_pos_of_ne_nil hdata
    rw [makeItem_data hlength hdata, if_neg (by omega)]
    rfl

/-! ## Runs -/

/-- The items of some datagrams, and the workers to whom they go, one after the other. -/
def inTurn (ds : List (List UInt8)) : List (Fin tickThreadNum × TickItem) :=
  ds.mapIdx fun i d => (⟨i % tickThreadNum, Nat.mod_lt i (by decide)⟩, ⟨i, d⟩)

/-- There is one item for each datagram. -/
@[simp] theorem length_inTurn (ds : List (List UInt8)) : (inTurn ds).length = ds.length :=
  List.length_mapIdx

/-- The item of the last datagram. -/
theorem inTurn_concat (ds : List (List UInt8)) (d : List UInt8) : inTurn (ds ++ [d]) = inTurn ds ++
    [(⟨ds.length % tickThreadNum, Nat.mod_lt ds.length (by decide)⟩, ⟨ds.length, d⟩)] := by
  rw [inTurn, List.mapIdx_concat]
  rfl

/-- The worker who gets the next item. -/
def Relay.turn (s : Relay) : ℕ :=
  match s.place with
  | .receiving => s.last_thread_
  | _ => (s.last_thread_ + 1) % tickThreadNum

/-- A datagram arrives while the receiver waits. -/
theorem TickRun.step_arrival {s : TickRun} {d : List UInt8} (hplace : s.relay.place = .receiving) :
    s.step again (.arrival bufHeader bufCode d) = some (s.arrival again bufHeader bufCode d) :=
  if_pos hplace

/-- A step of the relay alone. -/
theorem TickRun.relayStep_eq {s : TickRun} {act : Action} {r : Relay} (h : s.relay.step act = some r) :
    s.relayStep act = some { s with relay := r } := by
  rw [TickRun.relayStep, h, Option.map_some]

/-- Those datagrams have been pushed that have data, and to the workers in turn. -/
structure TickRun.InTurn (s : TickRun) : Prop where
  pushes : s.relay.pushes = inTurn (s.datagrams.filter fun d => d.length ≠ 8)
  turn : s.relay.turn = s.relay.pushes.length % tickThreadNum

variable {s s' : TickRun} {act : RunAction}

/-- Only `push` has to do with the log of the pushes and with the turn. -/
theorem Relay.turn_step {r r' : Relay} {act : Action} (h : r.step act = some r')
    (hact : ∀ msg, act ≠ .push msg) : r'.pushes = r.pushes ∧ r'.turn = r.turn := by
  unfold Relay.step at h
  cases act with
  | push msg => exact absurd rfl (hact msg)
  | write =>
      obtain ⟨hplace, h⟩ := Option.ite_none_right_eq_some.mp h
      obtain rfl := Option.some.inj h
      refine ⟨rfl, ?_⟩
      simp [Relay.turn, Relay.write, Relay.setThread, hplace]
  | next =>
      obtain ⟨hplace, h⟩ := Option.ite_none_right_eq_some.mp h
      obtain rfl := Option.some.inj h
      refine ⟨rfl, ?_⟩
      simp [Relay.turn, Relay.next, nextThread, hplace]
  | read j =>
      obtain ⟨-, h⟩ := Option.ite_none_right_eq_some.mp h
      obtain rfl := Option.some.inj h
      exact ⟨rfl, rfl⟩
  | pop j =>
      obtain ⟨-, h⟩ := Option.ite_none_right_eq_some.mp h
      obtain rfl := Option.some.inj h
      exact ⟨rfl, rfl⟩
  | send j =>
      simp only at h
      split at h
      next ti hplace =>
        obtain rfl := Option.some.inj h
        exact ⟨rfl, rfl⟩
      next => exact absurd h (by simp)

/-- A step of the relay that is no push keeps the turn. -/
theorem TickRun.InTurn.relayStep (h : s.InTurn) {act : Action} (hstep : s.relayStep act = some s')
    (hact : ∀ msg, act ≠ .push msg) : s'.InTurn := by
  obtain ⟨r, hr, rfl⟩ := Option.map_eq_some_iff.mp hstep
  obtain ⟨hpushes, hturn⟩ := Relay.turn_step hr hact
  exact ⟨hpushes.trans h.pushes, by rw [hturn, hpushes, h.turn]⟩

/-- One more item for the worker whose turn it is. -/
theorem TickRun.InTurn.push (h : s.InTurn) (hplace : s.relay.place = .receiving) {d : List UInt8}
    (hd : d.length ≠ 8) : (s.relay.push d).pushes = inTurn ((s.datagrams ++ [d]).filter fun d => d.length ≠ 8) ∧
      (s.relay.push d).turn = (s.relay.push d).pushes.length % tickThreadNum := by
  have hturn := h.turn
  have hlen : s.relay.pushes.length = (s.datagrams.filter fun d => d.length ≠ 8).length := by
    rw [h.pushes, length_inTurn]
  have hlast : s.relay.last_thread_ =
      ⟨(s.datagrams.filter fun d => d.length ≠ 8).length % tickThreadNum, Nat.mod_lt _ (by decide)⟩ := by
    apply Fin.ext
    rw [Relay.turn, hplace] at hturn
    rw [← hlen]
    exact hturn
  constructor
  · rw [List.filter_append, List.filter_cons_of_pos (by simpa using hd), List.filter_nil, inTurn_concat,
      ← h.pushes, ← hlast, ← hlen]
    rfl
  · show (s.relay.last_thread_ + 1) % tickThreadNum = (s.relay.pushes ++ [_]).length % tickThreadNum
    rw [Relay.turn, hplace] at hturn
    simp only at hturn
    rw [hturn, List.length_append, List.length_singleton, Nat.mod_add_mod]

/-- What a datagram is for the relay. -/
theorem TickRun.arrival_relay {d : List UInt8} (hd : IsDatagram d) :
    (s.arrival again bufHeader bufCode d).relay = if d.length = 8 then s.relay else s.relay.push d := by
  simp only [TickRun.arrival, arrive_datagram hd]
  by_cases hlen : d.length = 8
  · rw [if_pos hlen, if_pos hlen]
  · rw [if_neg hlen, if_neg hlen]

/-- A datagram keeps the turn. -/
theorem TickRun.InTurn.arrival (h : s.InTurn) (hplace : s.relay.place = .receiving) {d : List UInt8}
    (hd : IsDatagram d) : (s.arrival again bufHeader bufCode d).InTurn := by
  have hrelay : (s.arrival again bufHeader bufCode d).relay = if d.length = 8 then s.relay else s.relay.push d :=
    TickRun.arrival_relay hd
  by_cases hlen : d.length = 8
  · have hfilter : ((s.datagrams ++ [d]).filter fun d => d.length ≠ 8) =
        s.datagrams.filter fun d => d.length ≠ 8 := by
      rw [List.filter_append, List.filter_cons_of_neg (by simpa using hlen), List.filter_nil, List.append_nil]
    rw [if_pos hlen] at hrelay
    refine ⟨?_, by rw [hrelay, h.turn]⟩
    rw [hrelay, h.pushes]
    exact congrArg inTurn hfilter.symm
  · rw [if_neg hlen] at hrelay
    obtain ⟨hpushes, hturn⟩ := h.push hplace hlen
    exact ⟨by rw [hrelay]; exact hpushes, by rw [hrelay]; exact hturn⟩

/-- Each step keeps the turn. -/
theorem TickRun.InTurn.step (h : s.InTurn) (hact : act.Sent) (hstep : s.step again act = some s') : s'.InTurn := by
  unfold TickRun.step at hstep
  cases act with
  | arrival bufHeader bufCode d =>
      obtain ⟨hplace, hstep⟩ := Option.ite_none_right_eq_some.mp hstep
      obtain rfl := Option.some.inj hstep
      exact h.arrival hplace hact
  | write => exact h.relayStep hstep (by simp)
  | next => exact h.relayStep hstep (by simp)
  | read i => exact h.relayStep hstep (by simp)
  | pop i => exact h.relayStep hstep (by simp)
  | send i => exact h.relayStep hstep (by simp)

/-- **In every run the items go to the workers in turn.** -/
theorem TickRun.Reached.inTurn (h : s.Reached again) : s.InTurn := by
  apply Lib.Machine.Reached.invariant ?_ ?_ h
  · rintro s ⟨-, hrelay, hdatagrams⟩
    constructor
    · rw [hrelay, hdatagrams]
      rfl
    · rw [hrelay]
      rfl
  · intro s act s' hs hact hstep
    exact hs.step hact hstep

/-- The relay of a run is a run of the relay. -/
theorem TickRun.Reached.relay (h : s.Reached again) : s.relay.Reached := by
  apply Lib.Machine.Reached.invariant ?_ ?_ h
  · rintro s ⟨-, hrelay, -⟩
    exact .start _ hrelay
  · intro s act s' hs _ hstep
    have hrelay : ∀ a, s.relayStep a = some s' → s'.relay.Reached := by
      intro a ha
      obtain ⟨r, hr, rfl⟩ := Option.map_eq_some_iff.mp ha
      exact .next _ _ a hs trivial hr
    unfold TickRun.step at hstep
    cases act with
    | arrival bufHeader bufCode d =>
        obtain ⟨hplace, hstep⟩ := Option.ite_none_right_eq_some.mp hstep
        obtain rfl := Option.some.inj hstep
        unfold TickRun.arrival
        simp only
        split
        next msg hitem => exact .next _ _ (.push msg) hs trivial (if_pos hplace)
        next => exact hs
    | write => exact hrelay _ hstep
    | next => exact hrelay _ hstep
    | read i => exact hrelay _ hstep
    | pop i => exact hrelay _ hstep
    | send i => exact hrelay _ hstep

/-- **Every datagram one item**, and the workers have them in turn, exactly when every datagram has data. What
was pushed to a worker is sent, or it is in the hands of the worker or in its queue. -/
theorem datagrams_relayed_iff (h : s.Reached again) :
    (s.relay.pushes = inTurn s.datagrams ↔ ∀ d ∈ s.datagrams, d.length ≠ 8) ∧
      ∀ i, on i s.relay.sends ++ ((s.relay.tickThread_ i).held ++ (s.relay.tickThread_ i).conn_queue_) =
        on i s.relay.pushes := by
  constructor
  · rw [h.inTurn.pushes]
    constructor
    · intro heq d hd
      have hlen := congrArg List.length heq
      rw [length_inTurn, length_inTurn] at hlen
      simpa using List.length_filter_eq_length_iff.mp hlen d hd
    · intro hall
      rw [List.filter_eq_self.mpr]
      simpa using hall
  · intro i
    exact (h.relay.sound.channel i).put_eq

/-- Two datagrams with data, the second one with an opcode below zero. -/
theorem datagrams_relayed_two : ∃ s : TickRun, s.Reached 0 ∧ s.relay.pushes =
    inTurn [[0, 0, 0, 5, 0, 0, 0, 1, 65], [0, 0, 0, 6, 255, 255, 255, 255, 66, 67]] := by
  let m : Mem UInt8 := fun _ => 0
  let first : List UInt8 := [0, 0, 0, 5, 0, 0, 0, 1, 65]
  let second : List UInt8 := [0, 0, 0, 6, 255, 255, 255, 255, 66, 67]
  have hfirst : IsDatagram first := ⟨1, [65], by decide, by decide⟩
  have hsecond : IsDatagram second := ⟨4294967295, [66, 67], by decide, by decide⟩
  let s₀ : TickRun := ⟨⟨true, 0, 0, m, 0⟩, .init, []⟩
  have h₁ : (s₀.arrival 0 m m first).Reached 0 :=
    .next s₀ _ (.arrival m m first) (.start s₀ ⟨rfl, rfl, rfl⟩) hfirst (TickRun.step_arrival rfl)
  have hrelay : (s₀.arrival 0 m m first).relay = s₀.relay.push first :=
    (TickRun.arrival_relay hfirst).trans (if_neg (by decide))
  have hdatagrams : (s₀.arrival 0 m m first).datagrams = [first] := rfl
  -- what the server keeps between the two datagrams plays no part
  generalize s₀.arrival 0 m m first = s₁ at h₁ hrelay hdatagrams
  have hplace : s₁.relay.place = .pushed := by
    rw [hrelay]
    rfl
  let s₂ : TickRun := { s₁ with relay := s₁.relay.write }
  let s₃ : TickRun := { s₂ with relay := s₂.relay.next }
  have h₂ : s₂.Reached 0 := .next s₁ s₂ .write h₁ trivial (TickRun.relayStep_eq (if_pos hplace))
  have h₃ : s₃.Reached 0 := .next s₂ s₃ .next h₂ trivial (TickRun.relayStep_eq rfl)
  have h₄ : (s₃.arrival 0 m m second).Reached 0 :=
    .next s₃ _ (.arrival m m second) h₃ hsecond (TickRun.step_arrival rfl)
  have hboth : (s₃.arrival 0 m m second).datagrams = [first, second] := by
    show s₁.datagrams ++ [second] = [first, second]
    rw [hdatagrams]
    rfl
  refine ⟨_, h₄, ?_⟩
  rw [(datagrams_relayed_iff h₄).1.mpr (by rw [hboth]; decide), hboth]

/-- A datagram without data: no item is made of it. -/
theorem datagrams_relayed_empty : ¬ ∀ (again : ℕ) (s : TickRun), s.Reached again →
    s.relay.pushes = inTurn s.datagrams := by
  intro h
  let m : Mem UInt8 := fun _ => 0
  let d : List UInt8 := [0, 0, 0, 4, 0, 0, 0, 1]
  have hd : IsDatagram d := ⟨1, [], by decide, by decide⟩
  let s₀ : TickRun := ⟨⟨true, 0, 0, m, 0⟩, .init, []⟩
  have h₁ : (s₀.arrival 0 m m d).Reached 0 :=
    .next s₀ _ (.arrival m m d) (.start s₀ ⟨rfl, rfl, rfl⟩) hd (TickRun.step_arrival rfl)
  have hrelay : (s₀.arrival 0 m m d).relay = s₀.relay := (TickRun.arrival_relay hd).trans (if_pos rfl)
  have hone := h 0 _ h₁
  rw [hrelay] at hone
  exact absurd (congrArg List.length hone) (by decide)

end Asenal.Tick
