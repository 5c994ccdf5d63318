import Asenal.Comlog.NameMg
import Asenal.Lib.Checked
import Mathlib.Data.List.Chain

/-!
# Shared servers

A list of servers is written `host:port/path host:port/path`. Appenders with the same list share one
object, which is registered under a name made of the hosts and ports. Nothing stands between a port and
the next host in the name, and the name is cut to its buffer.

* `svrName_eq` — the name is the beginning of the text of all servers.
* `xparserSvrConf_valid`, `xparserSvrConf_joinText` — which lists the parser accepts.
* `getServer_new`, `getServer_known` — which object is returned for a list.
-/

namespace Asenal.Comlog

open Asenal.Lib.Text Asenal.Lib.Scan Asenal.Lib.Checked

/-! ## The parser -/

/-- `COM_MAXHOSTNAME`. Source: `comlog.h`. -/
def comMaxHostName : ℕ := 1024

/-- `COM_MAXFILENAME`. Source: `comlog.h`. -/
def comMaxFileName : ℕ := 256

/-- `COM_MAXDUPSERVER`. Source: `comlog.h`. -/
def comMaxDupServer : ℕ := 32

/-- `SendSvr::MAXSVRNAMESIZE`. Source: `sendsvr.h`. -/
def maxSvrNameSize : ℕ := 1024

/-- What the parser sets of a server. Source: `sendsvr.h` `server_t`. -/
structure Server where
  host : Bytes
  path : Bytes
  port : Int32
  deriving DecidableEq

/-- `val = val * 10 + ip[i] - '0'`, for some digits. -/
def portVal (ds : Bytes) : Int32 :=
  ds.foldl (fun val d => val * 10 + Int32.ofInt d.toNat - Int32.ofInt 48) 0

/-- One server, or `none` for one that is refused, and the text from where the index stands then. Source:
`xutils.cpp` `xparserSvrConf`, the body of the loop. -/
def parseServer (ip : Bytes) : Option Server × Bytes :=
  let ip := ip.dropWhile (· == 32)
  let host := ip.takeWhile (· != 58)
  if comMaxHostName ≤ host.length then (none, ip.drop (comMaxHostName - 1))
  else
    match ip.dropWhile (· != 58) with
    | [] => (none, [])
    | _ :: ip =>
        let val := portVal (ip.takeWhile isDigit)
        if val ≤ 0 then (none, ip.dropWhile isDigit)
        else
          match ip.dropWhile isDigit with
          | 47 :: ip =>
              let path := ip.takeWhile (· != 32)
              if comMaxFileName ≤ path.length then (none, ip.drop comMaxFileName)
              else (some ⟨host, path, val⟩, ip.dropWhile (· != 32))
          | ip => (some ⟨host, [], val⟩, ip)

/-- The servers of a list, `siz` at most, or `none` if one of them is refused, and the text from where the
index stands at the end. The character behind a server is skipped. Source: `xutils.cpp`
`xparserSvrConf`, the loop. -/
def svrConfLoop : ℕ → Bytes → Option (List Server) × Bytes
  | _, [] => (some [], [])
  | 0, b :: ip => (some [], b :: ip)
  | siz + 1, b :: ip =>
      match parseServer (b :: ip) with
      | (none, ip) => (none, ip)
      | (some svr, []) => (some [svr], [])
      | (some svr, _ :: ip) => ((svrConfLoop siz ip).1.map (svr :: ·), (svrConfLoop siz ip).2)

/-- What the loop returns. The index into the text only grows, and it is an `int`: there is no result where
it would become too large. Source: `xutils.cpp` `xparserSvrConf`. -/
def xparserSvrConf (siz : ℕ) (ip : Bytes) : Option (Option (List Server)) :=
  (checkInt (ip.length - (svrConfLoop siz ip).2.length)).map fun _ => (svrConfLoop siz ip).1

/-! ## The name -/

/-- `"%s:%d"` of a server. -/
def serverText (s : Server) : Bytes := s.host ++ 58 :: decInt s.port.toInt

/-- The name of a list: each server is printed behind those before it, as far as there is room. Source:
`netappendersvr.cpp` `NetAppenderSvr::getServer`. -/
def svrName (svrs : List Server) : Bytes :=
  svrs.foldl (fun name s => name ++ (serverText s).take (maxSvrNameSize - name.length - 1)) []

/-- `type_sendsvr`. -/
def typeSendsvr : Int32 := 4

/-- The object for a list: the one that is registered under its name, or `svr`, if its `createServer` succeeds and
`malloc` has memory for the registration. Source: `netappendersvr.cpp` `NetAppenderSvr::getServer`. -/
def getServer {P : Type} (t : NameMg P) (fuel : ℕ) (iplist : Bytes) (svr : P) (created malloc : Bool) :
    Option (Option P × NameMg P) :=
  (xparserSvrConf comMaxDupServer iplist).bind fun svrs =>
    match svrs with
    | none | some [] => some (none, t)
    | some svrs =>
        (NameMg.get t fuel typeSendsvr (svrName svrs)).bind fun known =>
          match known with
          | some known => some (some known, t)
          | none =>
              if created then
                (NameMg.set t fuel malloc typeSendsvr (svrName svrs) svr).map fun r =>
                  (if r.1 ≠ 0 then none else some svr, r.2)
              else some (none, t)

/-- The servers printed one behind the other. -/
def texts (svrs : List Server) : Bytes := svrs.flatMap serverText

theorem texts_cons (s : Server) (svrs : List Server) :
    texts (s :: svrs) = serverText s ++ texts svrs := List.flatMap_cons

/-- The name is the beginning of the text of the servers. -/
theorem svrName_eq (svrs : List Server) : svrName svrs = (texts svrs).take 1023 := by
  have hfold : ∀ (svrs : List Server) (t : Bytes),
      svrs.foldl (fun name s => name ++ (serverText s).take (maxSvrNameSize - name.length - 1))
        (t.take 1023) = (t ++ texts svrs).take 1023 := by
    intro svrs
    induction svrs with
    | nil =>
        intro t
        rw [texts, List.flatMap_nil, List.append_nil]
        rfl
    | cons s svrs ih =>
        intro t
        have hstep : t.take 1023 ++ (serverText s).take (maxSvrNameSize - (t.take 1023).length - 1) =
            (t ++ serverText s).take 1023 := by
          have hroom : maxSvrNameSize - (t.take 1023).length - 1 = 1023 - t.length := by
            rw [List.length_take]
            simp only [maxSvrNameSize]
            omega
          rw [hroom, List.take_append]
        rw [List.foldl_cons, hstep, ih, texts_cons, List.append_assoc]
  exact hfold svrs []

/-! ## What the parser accepts -/

/-- What the parser guarantees of a server. -/
structure Valid (s : Server) : Prop where
  host_lt : s.host.length < comMaxHostName
  colon : 58 ∉ s.host
  nul : 0 ∉ s.host
  blank : s.host.head? ≠ some 32
  port_pos : 0 < s.port.toInt

/-- The number of the digits, as long as it is an `int`. -/
theorem portVal_eq {ds : Bytes} (h : ∀ d ∈ ds, isDigit d = true) :
    portVal ds = Int32.ofInt (digitsVal ds) := by
  have hfold : ∀ (ds : Bytes) (n : ℕ), (∀ d ∈ ds, isDigit d = true) →
      ds.foldl (fun val d => val * 10 + Int32.ofInt d.toNat - Int32.ofInt 48) (Int32.ofInt n) =
        Int32.ofInt (ds.foldl (fun n d => 10 * n + (d.toNat - 48)) n : ℕ) := by
    intro ds
    induction ds with
    | nil => exact fun n _ => rfl
    | cons d ds ih =>
        intro n hds
        rw [List.forall_mem_cons] at hds
        have hd : 48 ≤ d.toNat := by
          have hdigit := hds.1
          unfold isDigit at hdigit
          rw [Bool.and_eq_true, decide_eq_true_eq] at hdigit
          exact UInt8.le_iff_toNat_le.mp hdigit.1
        have hstep : Int32.ofInt n * 10 + Int32.ofInt d.toNat - Int32.ofInt 48 =
            Int32.ofInt (10 * n + (d.toNat - 48) : ℕ) := by
          have hten : (10 : Int32) = Int32.ofInt 10 := rfl
          rw [hten, ← Int32.ofInt_mul, ← Int32.ofInt_add, ← Int32.ofInt_sub]
          congr 1
          omega
        rw [List.foldl_cons, List.foldl_cons, hstep, ih _ hds.2]
  exact hfold ds 0 h

/-- A server that is read is valid. -/
theorem parseServer_valid {ip rest : Bytes} {s : Server} (hnul : 0 ∉ ip)
    (h : parseServer ip = (some s, rest)) : Valid s ∧ 0 ∉ rest := by
  have hdrop : ∀ {p : UInt8 → Bool} {t : Bytes}, 0 ∉ t → 0 ∉ t.dropWhile p := fun ht hm =>
    ht ((List.dropWhile_sublist _).mem hm)
  unfold parseServer at h
  dsimp only at h
  have hip := hdrop (p := (· == 32)) hnul
  have hhead := List.head?_dropWhile_not (fun b : UInt8 => b == 32) ip
  generalize ip.dropWhile (· == 32) = t at *
  split_ifs at h with hhost
  · exact absurd (Prod.mk.inj h).1 nofun
  cases hcolon : t.dropWhile (· != 58) with
  | nil =>
      rw [hcolon] at h
      exact absurd (Prod.mk.inj h).1 nofun
  | cons b u =>
      rw [hcolon] at h
      dsimp only at h
      have hu : 0 ∉ u := by
        have hbu := hdrop (p := (· != 58)) hip
        rw [hcolon] at hbu
        exact fun hm => hbu (List.mem_cons_of_mem b hm)
      split_ifs at h with hport
      · exact absurd (Prod.mk.inj h).1 nofun
      have hvalid : ∀ path, Valid ⟨t.takeWhile (· != 58), path, portVal (u.takeWhile isDigit)⟩ := by
        intro path
        refine ⟨Nat.lt_of_not_le hhost, ?_, ?_, ?_, ?_⟩
        · exact fun hm => absurd (List.mem_takeWhile_imp hm) (by decide)
        · exact fun hm => hip ((List.takeWhile_sublist _).mem hm)
        · intro hfirst
          cases t with
          | nil => exact absurd hfirst nofun
          | cons c t =>
              rw [List.head?_cons] at hhead
              by_cases hc : (c != 58) = true
              · rw [List.takeWhile_cons_of_pos (p := (· != 58)) hc, List.head?_cons] at hfirst
                rw [Option.some.inj hfirst] at hhead
                exact absurd hhead (by decide)
              · rw [List.takeWhile_cons_of_neg (p := (· != 58)) hc] at hfirst
                exact absurd hfirst nofun
        · exact Int32.lt_iff_toInt_lt.mp (Int32.not_le.mp hport)
      have hrest := hdrop (p := isDigit) hu
      split at h
      · next v hv =>
          split_ifs at h
          · exact absurd (Prod.mk.inj h).1 nofun
          obtain ⟨hs, rfl⟩ := Prod.mk.inj h
          rw [hv] at hrest
          exact ⟨Option.some.inj hs ▸ hvalid _, hdrop fun hm => hrest (List.mem_cons_of_mem _ hm)⟩
      · obtain ⟨hs, rfl⟩ := Prod.mk.inj h
        exact ⟨Option.some.inj hs ▸ hvalid _, hrest⟩

/-- The servers that are read are valid, and there are no more than there is room for. -/
theorem svrConfLoop_valid {siz : ℕ} {ip : Bytes} {l : List Server} (hnul : 0 ∉ ip)
    (h : (svrConfLoop siz ip).1 = some l) : (∀ s ∈ l, Valid s) ∧ l.length ≤ siz := by
  induction siz generalizing ip l with
  | zero =>
      have hl : l = [] := by
        cases ip <;> exact (Option.some.inj h).symm
      rw [hl]
      exact ⟨fun s hs => absurd hs List.not_mem_nil, Nat.le_refl 0⟩
  | succ siz ih =>
      cases ip with
      | nil =>
          rw [← Option.some.inj h]
          exact ⟨fun s hs => absurd hs List.not_mem_nil, Nat.zero_le _⟩
      | cons b ip =>
          rw [svrConfLoop] at h
          rcases hparse : parseServer (b :: ip) with ⟨s, rest⟩
          rw [hparse] at h
          cases s with
          | none => exact absurd h nofun
          | some s =>
              obtain ⟨hvalid, hrest⟩ := parseServer_valid hnul hparse
              cases rest with
              | nil =>
                  rw [← Option.some.inj h]
                  exact ⟨fun s' hs' => List.mem_singleton.mp hs' ▸ hvalid, Nat.le_add_left 1 siz⟩
              | cons c rest =>
                  obtain ⟨l', hl', rfl⟩ := Option.map_eq_some_iff.mp h
                  rw [List.mem_cons, not_or] at hrest
                  obtain ⟨hall, hlen⟩ := ih hrest.2 hl'
                  exact ⟨List.forall_mem_cons.mpr ⟨hvalid, hall⟩, Nat.succ_le_succ hlen⟩

/-- **The lists that are accepted** are short lists of valid servers. -/
theorem xparserSvrConf_valid {siz : ℕ} {ip : Bytes} {l : List Server} (hnul : 0 ∉ ip)
    (h : xparserSvrConf siz ip = some (some l)) : (∀ s ∈ l, Valid s) ∧ l.length ≤ siz := by
  obtain ⟨i, -, hl⟩ := Option.map_eq_some_iff.mp h
  exact svrConfLoop_valid hnul hl

/-- What is returned where the index stays an `int`. -/
theorem xparserSvrConf_eq {siz : ℕ} {ip rest : Bytes} {svrs : Option (List Server)}
    (h : svrConfLoop siz ip = (svrs, rest)) (hrest : rest.length ≤ ip.length) :
    xparserSvrConf siz ip = if ip.length - rest.length < 2 ^ 31 then some svrs else none := by
  rw [xparserSvrConf, h]
  dsimp only
  split_ifs with hint
  · rw [checkInt_of_lt (by omega) (by omega)]
    rfl
  · rw [checkInt_of_le (by omega)]
    rfl

/-- A list as it is written, without paths. -/
def joinText : List Server → Bytes
  | [] => []
  | [s] => serverText s
  | s :: svrs => serverText s ++ 32 :: joinText svrs

/-- A port is read from its digits. -/
theorem portVal_decInt {port : Int32} (h : 0 < port.toInt) :
    (∀ d ∈ decInt port.toInt, isDigit d = true) ∧ portVal (decInt port.toInt) = port := by
  have hdec : decInt port.toInt = dec port.toInt.natAbs := if_neg (by omega)
  rw [hdec]
  have hdigits : ∀ d ∈ dec port.toInt.natAbs, isDigit d = true := fun d hd => isDigit_of_mem_dec hd
  refine ⟨hdigits, ?_⟩
  have hnat : (port.toInt.natAbs : ℤ) = port.toInt := by omega
  rw [portVal_eq hdigits, digitsVal_dec, hnat, Int32.ofInt_toInt]

/-- A server that is written is read, without its path. -/
theorem parseServer_serverText {s : Server} (h : Valid s) {rest : Bytes}
    (hrest : rest = [] ∨ rest.head? = some 32) :
    parseServer (serverText s ++ rest) = (some { s with path := [] }, rest) := by
  obtain ⟨hdigits, hval⟩ := portVal_decInt h.port_pos
  have htext : serverText s ++ rest = s.host ++ 58 :: (decInt s.port.toInt ++ rest) := by
    simp [serverText]
  have hhost : ∀ b ∈ s.host, (b != 58) = true := fun b hb =>
    bne_iff_ne.mpr fun heq => h.colon (heq ▸ hb)
  have hblank : (s.host ++ 58 :: (decInt s.port.toInt ++ rest)).dropWhile (· == 32) =
      s.host ++ 58 :: (decInt s.port.toInt ++ rest) := by
    cases hs : s.host with
    | nil => rfl
    | cons b t =>
        have hb : (b == 32) = false := by
          rw [beq_eq_false_iff_ne]
          rintro rfl
          exact h.blank (by rw [hs]; rfl)
        rw [List.cons_append, List.dropWhile_cons_of_neg (by simp [hb])]
  have htake : (s.host ++ 58 :: (decInt s.port.toInt ++ rest)).takeWhile (· != 58) = s.host := by
    rw [List.takeWhile_append_of_pos hhost, List.takeWhile_cons_of_neg (by decide), List.append_nil]
  have hdrop : (s.host ++ 58 :: (decInt s.port.toInt ++ rest)).dropWhile (· != 58) =
      58 :: (decInt s.port.toInt ++ rest) := by
    rw [List.dropWhile_append_of_pos hhost, List.dropWhile_cons_of_neg (by decide)]
  have hend : rest.takeWhile isDigit = [] ∧ rest.dropWhile isDigit = rest := by
    rcases hrest with rfl | hhead
    · exact ⟨rfl, rfl⟩
    · obtain ⟨t, rfl⟩ : ∃ t, rest = 32 :: t := by
        cases rest with
        | nil => exact absurd hhead nofun
        | cons b t => exact ⟨t, by rw [Option.some.inj hhead]⟩
      exact ⟨rfl, rfl⟩
  have hport : ¬ s.port ≤ 0 := Int32.not_le.mpr (Int32.lt_iff_toInt_lt.mpr h.port_pos)
  unfold parseServer
  dsimp only
  rw [htext, hblank, htake, hdrop, if_neg (Nat.not_le.mpr h.host_lt)]
  dsimp only
  rw [List.takeWhile_append_of_pos hdigits, List.dropWhile_append_of_pos hdigits, hend.1, hend.2,
    List.append_nil, hval, if_neg hport]
  rcases hrest with rfl | hhead
  · rfl
  · split
    · exact absurd (Option.some.inj hhead) (by decide)
    · rfl

theorem serverText_ne_nil (s : Server) : serverText s ≠ [] :=
  List.append_ne_nil_of_right_ne_nil _ (List.cons_ne_nil _ _)

/-- A list that is written is read to its end. -/
theorem svrConfLoop_joinText {l : List Server} (h : ∀ s ∈ l, Valid s) {siz : ℕ} (hlen : l.length ≤ siz) :
    svrConfLoop siz (joinText l) = (some (l.map fun s => { s with path := [] }), []) := by
  induction siz generalizing l with
  | zero =>
      rw [List.eq_nil_of_length_eq_zero (Nat.le_zero.mp hlen)]
      rfl
  | succ siz ih =>
      cases l with
      | nil => rfl
      | cons s l =>
          rw [List.forall_mem_cons] at h
          obtain ⟨b, t, hbt⟩ := List.exists_cons_of_ne_nil (serverText_ne_nil s)
          cases l with
          | nil =>
              have hparse := parseServer_serverText h.1 (Or.inl rfl)
              rw [List.append_nil] at hparse
              rw [joinText, hbt, svrConfLoop, ← hbt, hparse]
              rfl
          | cons s' l =>
              have hparse := @parseServer_serverText _ h.1 (32 :: joinText (s' :: l)) (Or.inr rfl)
              have hrest := ih h.2 (Nat.le_of_succ_le_succ hlen)
              rw [joinText, hbt, List.cons_append, svrConfLoop, ← List.cons_append, ← hbt, hparse]
              dsimp only
              rw [hrest]
              rfl
              simp

/-- A list that is written is not too long for the index. -/
theorem length_joinText_le {l : List Server} (h : ∀ s ∈ l, Valid s) : (joinText l).length ≤ 2048 * l.length := by
  have hport : ∀ s : Server, Valid s → (decInt s.port.toInt).length ≤ 10 := by
    intro s hs
    have hpos := hs.port_pos
    have hint := s.port.toInt_lt
    rw [decInt, if_neg (by omega)]
    exact length_dec_le (by omega) (by decide)
  induction l with
  | nil => exact Nat.le_refl 0
  | cons s l ih =>
      rw [List.forall_mem_cons] at h
      have hrest := ih h.2
      have hhost := h.1.host_lt
      have hs := hport s h.1
      cases l with
      | nil =>
          simp only [joinText, serverText, List.length_append, List.length_cons, List.length_nil,
            comMaxHostName] at *
          omega
      | cons s' l =>
          rw [joinText, List.length_append, List.length_cons, List.length_cons, serverText,
            List.length_append, List.length_cons]
          simp only [comMaxHostName] at hhost
          rw [List.length_cons] at hrest ⊢
          omega
          simp

/-- **Every short list of valid servers** is accepted. -/
theorem xparserSvrConf_joinText {l : List Server} (h : ∀ s ∈ l, Valid s) (hlen : l.length ≤ comMaxDupServer) :
    xparserSvrConf comMaxDupServer (joinText l) = some (some (l.map fun s => { s with path := [] })) := by
  have hshort := length_joinText_le h
  rw [xparserSvrConf_eq (svrConfLoop_joinText h hlen) (Nat.zero_le _), if_pos]
  simp only [comMaxDupServer, List.length_nil] at *
  omega

/-- A list that is written is a C string. -/
theorem not_mem_joinText {l : List Server} (h : ∀ s ∈ l, Valid s) : 0 ∉ joinText l := by
  have htext : ∀ s : Server, Valid s → 0 ∉ serverText s := by
    intro s hs
    unfold serverText
    rw [List.mem_append, List.mem_cons, not_or, not_or]
    exact ⟨hs.nul, by decide, not_mem_decInt (by decide) (by decide)⟩
  induction l with
  | nil => exact List.not_mem_nil
  | cons s l ih =>
      rw [List.forall_mem_cons] at h
      cases l with
      | nil => exact htext s h.1
      | cons s' l =>
          rw [joinText, List.mem_append, List.mem_cons, not_or, not_or]
          · exact ⟨htext s h.1, by decide, ih h.2⟩
          · simp

/-! ## The object of a list -/

variable {P : Type} {t : NameMg P} {m : Finmap fun _ : UInt32 × UInt32 => NameNode P} {ip : Bytes}
  {l : List Server}

/-- The object that is registered under the name of a list is returned. -/
theorem getServer_known (h : Holds t m) (hl : xparserSvrConf comMaxDupServer ip = some (some l)) (hne : l ≠ [])
    {node : NameNode P} (hm : m.lookup (getKey typeSendsvr (svrName l)) = some node) (svr : P)
    (created malloc : Bool) : ∃ bound, ∀ fuel, bound ≤ fuel →
      getServer t fuel ip svr created malloc = some (some node.ptr, t) := by
  obtain ⟨bound, hget⟩ := get_nameMg h typeSendsvr (svrName l)
  refine ⟨bound, fun fuel hfuel => ?_⟩
  obtain ⟨s, l, rfl⟩ := List.exists_cons_of_ne_nil hne
  unfold getServer
  rw [hl, Option.bind_some]
  dsimp only
  rw [hget fuel hfuel, hm]
  rfl

/-- A list with a new name gets a new object, which is registered under the name, or, if there is no memory, none. -/
theorem getServer_new (h : Holds t m) (hl : xparserSvrConf comMaxDupServer ip = some (some l)) (hne : l ≠ [])
    (hm : m.lookup (getKey typeSendsvr (svrName l)) = none) (svr : P) (malloc : Bool) :
    ∃ ret s m', Holds s m' ∧ (malloc = true → ret = some svr) ∧
      (ret = some svr → ∀ k, m'.lookup k = (m.lookup k).or
        (if getKey typeSendsvr (svrName l) = k then some ⟨typeSendsvr, svr⟩ else none)) ∧
      (ret = some svr ∨ ret = none) ∧
      ∃ bound, ∀ fuel, bound ≤ fuel → getServer t fuel ip svr true malloc = some (ret, s) := by
  obtain ⟨boundGet, hget⟩ := get_nameMg h typeSendsvr (svrName l)
  obtain ⟨ret, s, m', hs, ⟨boundSet, hset⟩, hcases⟩ := set_nameMg h malloc typeSendsvr (svrName l) svr
  obtain ⟨s', l, rfl⟩ := List.exists_cons_of_ne_nil hne
  have hrun : ∀ fuel, max boundGet boundSet ≤ fuel →
      getServer t fuel ip svr true malloc = some (if ret ≠ 0 then none else some svr, s) := by
    intro fuel hfuel
    unfold getServer
    rw [hl, Option.bind_some]
    dsimp only
    rw [hget fuel (le_of_max_le_left hfuel), hm, hset fuel (le_of_max_le_right hfuel)]
    rfl
  rcases hcases with ⟨rfl, -, hlookup⟩ | ⟨hret, -, hthere⟩
  · exact ⟨some svr, s, m', hs, fun _ => rfl, fun _ => hlookup, .inl rfl, _, hrun⟩
  · refine ⟨none, s, m', hs, fun hmalloc => ?_, nofun, .inr rfl, max boundGet boundSet, fun fuel hfuel => ?_⟩
    · simpa [hm] using hthere hmalloc
    · rw [hrun fuel hfuel, if_pos hret]

end Asenal.Comlog
