import Asenal.Comlog.Server

/-!
# The name of a server list

The digits of a port run into the next host when that begins with a digit, and any digit of a longer port
could as well begin the next host; what goes beyond the buffer is lost. A list is known from its name if
neither happens.

* `texts_decode` — hosts and ports are read off a text if its parts are separated.
* `exists_ambiguous`, `exists_beyond` — another list with the same name if they are not, or if the text
  does not fit.
* `name_unique_iff`, `getServer_unique_iff` — which lists have a name, and an object, of their own.
-/

namespace Asenal.Comlog

open Asenal.Lib.Text Asenal.Lib.Scan

/-! ## Lists with a name of their own -/

/-- The host and the port of a server. -/
def endpoint (s : Server) : Bytes × Int32 := (s.host, s.port)

/-- A port and the next host cannot be cut in another way: the port has one digit, and the host begins
with none, except for one that a blank follows. -/
def Separates (s s' : Server) : Prop :=
  s.port.toInt < 10 ∧ ∀ c t, s'.host = c :: t → isDigit c = true → t.head? = some 32

/-- The servers are separated, and the text of all of them fits the buffer; if it fills it, no longer
text may begin with it: there are as many servers as a list can have, and no digit can follow the last
port. -/
def Unambiguous (l : List Server) : Prop :=
  l.IsChain Separates ∧
    ((texts l).length < 1023 ∨
      (texts l).length = 1023 ∧ l.length = comMaxDupServer ∧
        ∀ s ∈ l.getLast?, 214748364 < s.port.toInt)

/-- The parser accepts the text `ip` as the list `l`. -/
def Accepted (ip : Bytes) (l : List Server) : Prop :=
  0 ∉ ip ∧ xparserSvrConf comMaxDupServer ip = some (some l) ∧ l ≠ []

/-! ## Reading the text -/

theorem decInt_of_pos {port : Int32} (h : 0 < port.toInt) :
    decInt port.toInt = dec port.toInt.natAbs := if_neg (by omega)

/-- A digit in front of a text: the port that begins with it is the digit alone, or the digits behind it
are a part of the text. -/
theorem dec_append_inj {p d : ℕ} (hd : d < 10) {x y : Bytes} (h : dec p ++ x = dec d ++ y) :
    (p = d ∧ x = y) ∨ ∃ c t, isDigit c = true ∧ y = c :: t ++ x ∧ ∀ b ∈ t, isDigit b = true := by
  obtain ⟨b, u, hbu⟩ := List.exists_cons_of_ne_nil (dec_ne_nil p)
  have hdigits : ∀ e ∈ u, isDigit e = true := by
    intro e he
    have hmem : e ∈ dec p := by
      rw [hbu]
      exact List.mem_cons_of_mem b he
    exact isDigit_of_mem_dec hmem
  rw [dec_digit hd, hbu, List.cons_append, List.singleton_append] at h
  obtain ⟨hb, hux⟩ := List.cons.inj h
  cases u with
  | nil =>
      have hp : dec p = dec d := by rw [hbu, hb, dec_digit hd]
      have hval := congrArg digitsVal hp
      rw [digitsVal_dec, digitsVal_dec] at hval
      exact Or.inl ⟨hval, hux⟩
  | cons c t =>
      rw [List.forall_mem_cons] at hdigits
      exact Or.inr ⟨c, t, hdigits.1, hux.symm, hdigits.2⟩

/-- The ports and hosts of two texts, at a place where the first one is separated. -/
theorem separates_decode {p : ℕ} {s s' t' : Server} (hsep : Separates s s') (hs : 0 < s.port.toInt)
    (ht' : Valid t') (h : dec p ++ t'.host = decInt s.port.toInt ++ s'.host) :
    (p : ℤ) = s.port.toInt ∧ t'.host = s'.host := by
  rw [decInt_of_pos hs] at h
  rcases dec_append_inj (by have := hsep.1; omega) h with ⟨hp, hhost⟩ | ⟨c, t, hc, hhost, ht⟩
  · exact ⟨by omega, hhost⟩
  · -- the host would begin with a digit and a blank
    exfalso
    have hblank := hsep.2 c (t ++ t'.host) hhost hc
    cases t with
    | nil => exact ht'.blank hblank
    | cons b t =>
        rw [Option.some.inj hblank] at ht
        exact absurd (ht 32 List.mem_cons_self) (by decide)

/-- **The servers are read off a text** that begins with the text of separated ones: there are no others,
or there are more, or the last port goes on. -/
theorem texts_decode {l l' : List Server} (hl : ∀ s ∈ l, Valid s) (hl' : ∀ s ∈ l', Valid s)
    (hsep : l.IsChain Separates) (hne : l ≠ []) {x : Bytes} (h : texts l' = texts l ++ x) :
    (l'.map endpoint = l.map endpoint ∧ x = []) ∨ x ≠ [] ∧ (l.length < l'.length ∨
      ∃ s ∈ l.getLast?, ∃ s' ∈ l'.getLast?, 10 * s.port.toInt ≤ s'.port.toInt) := by
  have hcolon : ∀ z : ℤ, 58 ∉ decInt z := fun z => not_mem_decInt (by decide) (by decide)
  induction l generalizing l' with
  | nil => exact absurd rfl hne
  | cons s l ih =>
      cases l' with
      | nil =>
          rw [texts_cons, texts, List.flatMap_nil, List.append_assoc] at h
          exact absurd h.symm (List.append_ne_nil_of_left_ne_nil (serverText_ne_nil s) _)
      | cons s' l' =>
          rw [List.forall_mem_cons] at hl hl'
          rw [texts_cons, texts_cons] at h
          unfold serverText at h
          simp only [List.append_assoc, List.cons_append] at h
          obtain ⟨hhost, hrest⟩ := append_cons_inj hl'.1.colon hl.1.colon h
          cases l with
          | nil =>
              cases l' with
              | nil =>
                  simp only [texts, List.flatMap_nil, List.nil_append, List.append_nil] at hrest
                  rw [decInt_of_pos hl.1.port_pos, decInt_of_pos hl'.1.port_pos] at hrest
                  by_cases hx : x = []
                  · rw [hx, List.append_nil] at hrest
                    have hval := congrArg digitsVal hrest
                    rw [digitsVal_dec, digitsVal_dec] at hval
                    have hport : s'.port = s.port := by
                      apply Int32.toInt_inj.mp
                      have h₁ := hl.1.port_pos
                      have h₂ := hl'.1.port_pos
                      omega
                    refine Or.inl ⟨?_, hx⟩
                    simp [endpoint, hhost, hport]
                  · have hmul := mul_le_digitsVal_append (dec s.port.toInt.natAbs) hx
                    rw [← hrest, digitsVal_dec, digitsVal_dec] at hmul
                    refine Or.inr ⟨hx, Or.inr ⟨s, rfl, s', rfl, ?_⟩⟩
                    have h₁ := hl.1.port_pos
                    have h₂ := hl'.1.port_pos
                    omega
              | cons t' l' =>
                  refine Or.inr ⟨?_, Or.inl (by simp)⟩
                  rintro rfl
                  have hnil : texts [] = [] := rfl
                  rw [hnil, List.append_nil, List.append_nil] at hrest
                  apply hcolon s.port.toInt
                  rw [← hrest, texts_cons]
                  simp [serverText]
          | cons t l =>
              rw [List.isChain_cons_cons] at hsep
              cases l' with
              | nil =>
                  -- a colon follows, but there is none in a port
                  exfalso
                  simp only [texts, List.flatMap_nil, List.append_nil] at hrest
                  apply hcolon s'.port.toInt
                  rw [hrest, List.flatMap_cons]
                  simp [serverText]
              | cons t' l' =>
                  have hcut : decInt s'.port.toInt ++ t'.host = decInt s.port.toInt ++ t.host ∧
                      decInt t'.port.toInt ++ texts l' = decInt t.port.toInt ++ (texts l ++ x) := by
                    rw [texts_cons, texts_cons] at hrest
                    unfold serverText at hrest
                    simp only [List.append_assoc, List.cons_append] at hrest
                    rw [← List.append_assoc, ← List.append_assoc (decInt s.port.toInt)] at hrest
                    refine append_cons_inj ?_ ?_ hrest
                    · rw [List.mem_append, not_or]
                      exact ⟨hcolon _, (hl'.2 t' List.mem_cons_self).colon⟩
                    · rw [List.mem_append, not_or]
                      exact ⟨hcolon _, (hl.2 t List.mem_cons_self).colon⟩
                  obtain ⟨hfirst, hlater⟩ := hcut
                  rw [decInt_of_pos hl'.1.port_pos] at hfirst
                  obtain ⟨hport, hhost'⟩ := separates_decode hsep.1 hl.1.port_pos
                    (hl'.2 t' List.mem_cons_self) hfirst
                  have hports : s'.port = s.port := by
                    apply Int32.toInt_inj.mp
                    have := hl'.1.port_pos
                    omega
                  have htexts : texts (t' :: l') = texts (t :: l) ++ x := by
                    rw [texts_cons, texts_cons]
                    unfold serverText
                    simp only [List.append_assoc, List.cons_append]
                    rw [hhost', hlater]
                  rcases ih hl.2 hl'.2 hsep.2 (List.cons_ne_nil t l) htexts with ⟨hmap, hx⟩ |
                    ⟨hx, hlen | ⟨u, hu, u', hu', hmul⟩⟩
                  · refine Or.inl ⟨?_, hx⟩
                    rw [List.map_cons, hmap, List.map_cons (l := t :: l)]
                    simp [endpoint, hhost, hports]
                  · exact Or.inr ⟨hx, Or.inl (Nat.succ_lt_succ hlen)⟩
                  · exact Or.inr ⟨hx, Or.inr ⟨u, hu, u', hu', hmul⟩⟩

/-! ## Other lists with the same name -/

variable {l : List Server}

/-- The port of a number. -/
theorem exists_port {n : ℕ} (hpos : 0 < n) (hle : n ≤ 2147483647) :
    ∃ port : Int32, port.toInt = n ∧ decInt port.toInt = dec n := by
  have hport : (Int32.ofInt n).toInt = n := Int32.toInt_ofInt_of_le (by omega) (by omega)
  refine ⟨Int32.ofInt n, hport, ?_⟩
  rw [decInt_of_pos (by omega), hport, Int.natAbs_natCast]

/-- Numbers that differ in the last digit only. -/
theorem dec_last (q : ℕ) : ∃ u, ∀ d < 10, dec (10 * q + d) = u ++ [UInt8.ofNat (48 + d)] := by
  rcases Nat.eq_zero_or_pos q with rfl | hq
  · exact ⟨[], fun d hd => by rw [Nat.mul_zero, Nat.zero_add, dec_digit hd, List.nil_append]⟩
  · exact ⟨dec q, fun d hd => dec_ten hq hd⟩

/-- A digit is the last digit of a number. -/
theorem exists_digit {c : UInt8} (hc : isDigit c = true) :
    ∃ d, d < 10 ∧ UInt8.ofNat (48 + d) = c := by
  unfold isDigit at hc
  rw [Bool.and_eq_true, decide_eq_true_eq, decide_eq_true_eq, UInt8.le_iff_toNat_le,
    UInt8.le_iff_toNat_le] at hc
  have h₁ : 48 ≤ c.toNat := hc.1
  have h₂ : c.toNat ≤ 57 := hc.2
  refine ⟨c.toNat - 48, by omega, ?_⟩
  rw [Nat.add_sub_of_le h₁, UInt8.ofNat_toNat]

/-- A port and the next host that are not separated are cut in another way. -/
theorem exists_pair {s t : Server} (hs : Valid s) (ht : Valid t) (hsep : ¬ Separates s t)
    (hlen : t.host.length + 1 < comMaxHostName) :
    ∃ (port : Int32) (host : Bytes), 0 < port.toInt ∧ port ≠ s.port ∧
      Valid { t with host := host } ∧
      decInt port.toInt ++ host = decInt s.port.toInt ++ t.host := by
  have hpos := hs.port_pos
  have hint := s.port.toInt_lt
  obtain ⟨p, hp⟩ : ∃ p : ℕ, s.port.toInt = p := ⟨s.port.toInt.natAbs, by omega⟩
  have hdec : decInt s.port.toInt = dec p := by
    rw [decInt_of_pos hpos, hp, Int.natAbs_natCast]
  by_cases hten : 10 ≤ p
  · -- the last digit goes to the host
    obtain ⟨port, hport, hportDec⟩ := exists_port (n := p / 10) (by omega) (by omega)
    have hlt : p % 10 < 10 := Nat.mod_lt p (by decide)
    have hsplit : dec p = dec (p / 10) ++ [UInt8.ofNat (48 + p % 10)] := by
      rw [← dec_ten (by omega) hlt, Nat.div_add_mod]
    have hdigit : ∀ d < 10, UInt8.ofNat (48 + d) ≠ 58 ∧ UInt8.ofNat (48 + d) ≠ 0 ∧
        UInt8.ofNat (48 + d) ≠ 32 := by decide
    obtain ⟨hcolon, hnul, hblank⟩ := hdigit _ hlt
    refine ⟨port, UInt8.ofNat (48 + p % 10) :: t.host, by omega, ?_, ?_, ?_⟩
    · intro heq
      rw [heq] at hport
      omega
    · exact
        { host_lt := hlen
          colon := fun h => (List.mem_cons.mp h).elim (fun heq => hcolon heq.symm) ht.colon
          nul := fun h => (List.mem_cons.mp h).elim (fun heq => hnul heq.symm) ht.nul
          blank := fun h => hblank (Option.some.inj h)
          port_pos := ht.port_pos }
    · rw [hportDec, hdec, hsplit, List.append_assoc, List.singleton_append]
  · -- the first digit of the host goes to the port
    have hhost : ∃ c h, t.host = c :: h ∧ isDigit c = true ∧ h.head? ≠ some 32 := by
      by_contra hnone
      refine hsep ⟨by omega, fun c h hch hc => ?_⟩
      by_contra hhead
      exact hnone ⟨c, h, hch, hc, hhead⟩
    obtain ⟨c, h, hch, hc, hhead⟩ := hhost
    obtain ⟨d, hd, rfl⟩ := exists_digit hc
    obtain ⟨port, hport, hportDec⟩ := exists_port (n := 10 * p + d) (by omega) (by omega)
    refine ⟨port, h, by omega, ?_, ?_, ?_⟩
    · intro heq
      rw [heq] at hport
      omega
    · have hsub : ∀ b, b ∈ h → b ∈ t.host := fun b hb => hch ▸ List.mem_cons_of_mem _ hb
      exact
        { host_lt := by
            rw [hch, List.length_cons] at hlen
            dsimp only
            omega
          colon := fun hm => ht.colon (hsub _ hm)
          nul := fun hm => ht.nul (hsub _ hm)
          blank := hhead
          port_pos := ht.port_pos }
    · rw [hportDec, dec_ten (by omega) hd, hdec, hch, List.append_assoc, List.singleton_append]

/-- **Servers that are not separated** have the text of another list. -/
theorem exists_ambiguous (hl : ∀ s ∈ l, Valid s) (hsep : ¬ l.IsChain Separates)
    (hlen : (texts l).length < comMaxHostName) :
    ∃ l', (∀ s ∈ l', Valid s) ∧ l'.length = l.length ∧ texts l' = texts l ∧
      l'.map endpoint ≠ l.map endpoint := by
  induction l with
  | nil => exact absurd List.isChain_nil hsep
  | cons s l ih =>
      rw [List.forall_mem_cons] at hl
      cases l with
      | nil => exact absurd (List.isChain_singleton s) hsep
      | cons t l =>
          have ht := hl.2 t List.mem_cons_self
          have htail : (texts (t :: l)).length < comMaxHostName := by
            rw [texts_cons, List.length_append] at hlen
            omega
          by_cases hst : Separates s t
          · rw [List.isChain_cons_cons] at hsep
            obtain ⟨l', hl', hlength, htexts, hne⟩ := ih hl.2 (fun h => hsep ⟨hst, h⟩) htail
            refine ⟨s :: l', List.forall_mem_cons.mpr ⟨hl.1, hl'⟩, congrArg (· + 1) hlength, ?_, ?_⟩
            · rw [texts_cons, htexts, ← texts_cons]
            · exact fun h => hne (List.cons.inj h).2
          · have hhost : t.host.length + 1 < comMaxHostName := by
              have hs := List.length_pos_iff.mpr (serverText_ne_nil s)
              rw [texts_cons, texts_cons] at hlen
              simp only [serverText, List.length_append, List.length_cons] at hlen hs
              omega
            obtain ⟨port, host, hpos, hne, hvalid, htext⟩ := exists_pair hl.1 ht hst hhost
            refine ⟨{ s with port := port } :: { t with host := host } :: l, ?_, rfl, ?_, ?_⟩
            · rw [List.forall_mem_cons, List.forall_mem_cons]
              rw [List.forall_mem_cons] at hl
              exact ⟨{ hl.1 with port_pos := hpos }, hvalid, hl.2.2⟩
            · simp only [texts_cons, serverText, List.append_assoc, List.cons_append]
              rw [← List.append_assoc (decInt port.toInt), htext, List.append_assoc]
            · intro h
              exact hne (congrArg Prod.snd (List.cons.inj h).1)

/-- Texts that agree as far as there is room. -/
theorem svrName_congr {l' : List Server} {y a b : Bytes} (hy : 1023 ≤ y.length)
    (hl : texts l = y ++ a) (hl' : texts l' = y ++ b) : svrName l' = svrName l := by
  rw [svrName_eq, svrName_eq, hl, hl', List.take_append_of_le_length hy,
    List.take_append_of_le_length hy]

theorem texts_append (l l' : List Server) : texts (l ++ l') = texts l ++ texts l' :=
  List.flatMap_append

theorem texts_singleton (s : Server) : texts [s] = serverText s := List.flatMap_singleton ..

/-- Another last port. -/
theorem exists_lastPort {s : Server} (hl : ∀ s' ∈ l ++ [s], Valid s') {n : ℕ} (hpos : 0 < n)
    (hle : n ≤ 2147483647) (hne : (n : ℤ) ≠ s.port.toInt) :
    ∃ l', (∀ s ∈ l', Valid s) ∧ l'.length = (l ++ [s]).length ∧
      texts l' = texts l ++ s.host ++ 58 :: dec n ∧ l'.map endpoint ≠ (l ++ [s]).map endpoint := by
  obtain ⟨port, hport, hdec⟩ := exists_port hpos hle
  refine ⟨l ++ [{ s with port := port }], fun s' hs' => ?_, by simp, ?_, fun h => hne ?_⟩
  · rcases List.mem_append.mp hs' with hmem | hlast
    · exact hl s' (List.mem_append_left _ hmem)
    · rw [List.mem_singleton.mp hlast]
      have hs := hl s (List.mem_append_right _ (List.mem_singleton_self s))
      exact { hs with port_pos := by dsimp only; omega }
  · rw [texts_append, texts_singleton, serverText, hdec, List.append_assoc]
  · rw [List.map_append, List.map_append] at h
    have hlast := congrArg Prod.snd (List.singleton_inj.mp (List.append_cancel_left h))
    rw [← hport]
    exact congrArg Int32.toInt hlast

/-- **A text that fills the buffer** and could go on, or does, has the name of another list. -/
theorem exists_beyond (hl : ∀ s ∈ l, Valid s) (hne : l ≠ []) (hlen : l.length ≤ comMaxDupServer)
    (hfull : 1023 ≤ (texts l).length)
    (hmore : ¬ ((texts l).length = 1023 ∧ l.length = comMaxDupServer ∧
      ∀ s ∈ l.getLast?, 214748364 < s.port.toInt)) :
    ∃ l', (∀ s ∈ l', Valid s) ∧ l'.length ≤ comMaxDupServer ∧ l' ≠ [] ∧ svrName l' = svrName l ∧
      l'.map endpoint ≠ l.map endpoint := by
  obtain ⟨l, s, rfl⟩ := List.eq_nil_or_concat' l |>.resolve_left hne
  have hs := hl s (List.mem_append_right _ (List.mem_singleton_self s))
  have hpos := hs.port_pos
  have hint := s.port.toInt_lt
  obtain ⟨p, hp⟩ : ∃ p : ℕ, s.port.toInt = p := ⟨s.port.toInt.natAbs, by omega⟩
  have htext : texts (l ++ [s]) = texts l ++ s.host ++ 58 :: dec p := by
    rw [texts_append, texts_singleton, serverText, decInt_of_pos hpos, hp, Int.natAbs_natCast,
      List.append_assoc]
  have hnil : ∀ {l' : List Server}, l'.length = (l ++ [s]).length → l' ≠ [] := by
    rintro l' hl' rfl
    simp at hl'
  by_cases hcut : (texts (l ++ [s])).length = 1023
  · by_cases hcount : (l ++ [s]).length = comMaxDupServer
    · -- the last port goes on
      have hsmall : s.port.toInt ≤ 214748364 := by
        by_contra hlarge
        refine hmore ⟨hcut, hcount, fun s' hs' => ?_⟩
        rw [List.getLast?_concat] at hs'
        rw [← Option.some.inj hs']
        omega
      obtain ⟨l', hl', hlength, htexts, hother⟩ :=
        exists_lastPort hl (n := 10 * p + 0) (by omega) (by omega) (by omega)
      refine ⟨l', hl', by omega, hnil hlength, ?_, hother⟩
      rw [dec_ten (by omega) (by decide), ← List.cons_append, ← List.append_assoc, ← htext] at htexts
      exact svrName_congr (Nat.le_of_eq hcut.symm) (List.append_nil _).symm htexts
    · -- another server stands behind the last one
      refine ⟨l ++ [s] ++ [⟨[], [], 1⟩], ?_, ?_, List.append_ne_nil_of_right_ne_nil _ (by simp), ?_, ?_⟩
      · intro s' hs'
        rcases List.mem_append.mp hs' with hmem | hlast
        · exact hl s' hmem
        · rw [List.mem_singleton.mp hlast]
          exact ⟨by decide, List.not_mem_nil, List.not_mem_nil, (Option.some_ne_none 32).symm, by decide⟩
      · rw [List.length_append, List.length_singleton]
        omega
      · exact svrName_congr (Nat.le_of_eq hcut.symm) (List.append_nil _).symm (texts_append _ _)
      · intro h
        have := congrArg List.length h
        simp at this
  · -- the last digit is cut off
    obtain ⟨u, hu⟩ := dec_last (p / 10)
    have hmod : p % 10 < 10 := Nat.mod_lt p (by decide)
    have hp' : dec p = u ++ [UInt8.ofNat (48 + p % 10)] := by
      rw [← hu _ hmod, Nat.div_add_mod]
    obtain ⟨d, hd, hd₁, hd₂⟩ : ∃ d, d ≠ p % 10 ∧ 1 ≤ d ∧ d ≤ 2 := by
      by_cases h : p % 10 = 1
      · exact ⟨2, by omega, by omega, by omega⟩
      · exact ⟨1, by omega, by omega, by omega⟩
    obtain ⟨l', hl', hlength, htexts, hother⟩ :=
      exists_lastPort hl (n := 10 * (p / 10) + d) (by omega) (by omega) (by omega)
    refine ⟨l', hl', by omega, hnil hlength, ?_, hother⟩
    rw [hp', ← List.cons_append, ← List.append_assoc] at htext
    rw [hu d (by omega), ← List.cons_append, ← List.append_assoc] at htexts
    refine svrName_congr ?_ htext htexts
    rw [htext, List.length_append, List.length_singleton] at hfull hcut
    omega

/-- A list that is not known from its name shares it. -/
theorem exists_other (hl : ∀ s ∈ l, Valid s) (hne : l ≠ []) (hlen : l.length ≤ comMaxDupServer)
    (hl' : ¬ Unambiguous l) :
    ∃ l', (∀ s ∈ l', Valid s) ∧ l'.length ≤ comMaxDupServer ∧ l' ≠ [] ∧ svrName l' = svrName l ∧
      l'.map endpoint ≠ l.map endpoint := by
  by_cases hcut : (texts l).length < comMaxHostName
  · by_cases hsep : l.IsChain Separates
    · have hroom : ¬ (texts l).length < 1023 := fun h => hl' ⟨hsep, Or.inl h⟩
      exact exists_beyond hl hne hlen (Nat.le_of_not_lt hroom) fun h => hl' ⟨hsep, Or.inr h⟩
    · obtain ⟨l', hvalid, hlength, htexts, hother⟩ := exists_ambiguous hl hsep hcut
      refine ⟨l', hvalid, by omega, ?_, by rw [svrName_eq, svrName_eq, htexts], hother⟩
      rintro rfl
      exact hne (List.eq_nil_of_length_eq_zero hlength.symm)
  · have hfull : 1024 ≤ (texts l).length := Nat.le_of_not_lt hcut
    exact exists_beyond hl hne hlen (by omega) fun h => by omega

/-- **A list is known from its name**, if its parts are separated and fit. -/
theorem endpoints_eq {l' : List Server} (hl : ∀ s ∈ l, Valid s) (hl' : ∀ s ∈ l', Valid s)
    (hlen' : l'.length ≤ comMaxDupServer) (hne : l ≠ []) (h : Unambiguous l)
    (hname : svrName l' = svrName l) : l'.map endpoint = l.map endpoint := by
  obtain ⟨hsep, hfit⟩ := h
  have hle : (texts l).length ≤ 1023 := by omega
  rw [svrName_eq, svrName_eq, List.take_of_length_le hle] at hname
  have htexts : texts l' = texts l ++ (texts l').drop 1023 := by rw [← hname, List.take_append_drop]
  rcases texts_decode hl hl' hsep hne htexts with ⟨hmap, -⟩ | ⟨hx, hlonger | ⟨s, hs, s', -, hmul⟩⟩
  · exact hmap
  · rcases hfit with hroom | ⟨-, hcount, -⟩
    · have hlength := congrArg List.length hname
      rw [List.length_take] at hlength
      exact absurd (List.drop_eq_nil_of_le (by omega)) hx
    · omega
  · rcases hfit with hroom | ⟨-, -, hlast⟩
    · have hlength := congrArg List.length hname
      rw [List.length_take] at hlength
      exact absurd (List.drop_eq_nil_of_le (by omega)) hx
    · have hlarge := hlast s hs
      have hint := s'.port.toInt_lt
      omega

/-- The text of a list depends on its hosts and ports only. -/
theorem texts_eq (l : List Server) :
    texts l = (l.map endpoint).flatMap fun e => e.1 ++ 58 :: decInt e.2.toInt := by
  rw [List.flatMap_map]
  rfl

theorem Accepted.valid {ip : Bytes} (h : Accepted ip l) : ∀ s ∈ l, Valid s :=
  (xparserSvrConf_valid h.1 h.2.1).1

theorem Accepted.length_le {ip : Bytes} (h : Accepted ip l) : l.length ≤ comMaxDupServer :=
  (xparserSvrConf_valid h.1 h.2.1).2

/-- Valid servers are accepted, without their paths. -/
theorem accepted_joinText (hl : ∀ s ∈ l, Valid s) (hlen : l.length ≤ comMaxDupServer) (hne : l ≠ []) :
    Accepted (joinText l) (l.map fun s => { s with path := [] }) :=
  ⟨not_mem_joinText hl, xparserSvrConf_joinText hl hlen, fun h => hne (List.map_eq_nil_iff.mp h)⟩

theorem texts_noPath (l : List Server) : texts (l.map fun s => { s with path := [] }) = texts l := by
  rw [texts, List.flatMap_map]
  rfl

theorem endpoint_noPath (l : List Server) :
    (l.map fun s => { s with path := [] }).map endpoint = l.map endpoint := by
  rw [List.map_map]
  rfl

/-- **The lists with a name of their own.** -/
theorem name_unique_iff {ip : Bytes} (h : Accepted ip l) :
    (∀ ip' l', Accepted ip' l' → svrName l' = svrName l → l'.map endpoint = l.map endpoint) ↔
      Unambiguous l := by
  constructor
  · intro hunique
    by_contra hamb
    obtain ⟨l', hvalid, hlength, hne, hname, hother⟩ :=
      exists_other h.valid h.2.2 h.length_le hamb
    have hsame := hunique _ _ (accepted_joinText hvalid hlength hne)
      (by rw [svrName_eq, texts_noPath, ← svrName_eq, hname])
    rw [endpoint_noPath] at hsame
    exact hother hsame
  · exact fun hun ip' l' h' hname =>
      endpoints_eq h.valid h'.valid h'.length_le h.2.2 hun hname

/-! ## Shared objects -/

/-- In a registry that does not know the object `a`, the first list gets it, as a new one, and then the
second list gets it too, whatever `malloc` answers. -/
def Shares (ip ip' : Bytes) : Prop :=
  ∃ (t s s' : NameMg ℕ) (m : Finmap fun _ : UInt32 × UInt32 => NameNode ℕ) (a b bound : ℕ) (malloc malloc' : Bool),
    Holds t m ∧ (∀ k node, m.lookup k = some node → node.ptr ≠ a) ∧ b ≠ a ∧
      ∀ fuel, bound ≤ fuel → getServer t fuel ip a true malloc = some (some a, s) ∧
        getServer s fuel ip' b true malloc' = some (some a, s')

/-- **Two lists share an object** when their names have the same key. -/
theorem shares_iff {ip ip' : Bytes} {l l' : List Server} (h : Accepted ip l) (h' : Accepted ip' l') :
    Shares ip ip' ↔ getKey typeSendsvr (svrName l') = getKey typeSendsvr (svrName l) := by
  constructor
  · rintro ⟨t, s, s', m, a, b, bound, malloc, malloc', hm, hnew, hab, hrun⟩
    by_contra hkey
    cases hknown : m.lookup (getKey typeSendsvr (svrName l)) with
    | some node =>
        obtain ⟨boundFirst, hfirst⟩ := getServer_known hm h.2.1 h.2.2 hknown a true malloc
        have hsame := (hrun _ (le_max_left bound boundFirst)).1
        rw [hfirst _ (le_max_right _ _)] at hsame
        exact hnew _ node hknown (Option.some.inj (Prod.mk.inj (Option.some.inj hsame)).1)
    | none =>
        obtain ⟨ret, s₁, m', hm', -, hlookup, -, boundFirst, hfirst⟩ :=
          getServer_new hm h.2.1 h.2.2 hknown a malloc
        have hs := (hrun _ (le_max_left bound boundFirst)).1
        rw [hfirst _ (le_max_right _ _)] at hs
        obtain ⟨rfl, rfl⟩ := Prod.mk.inj (Option.some.inj hs)
        have hlookup' : m'.lookup (getKey typeSendsvr (svrName l')) =
            m.lookup (getKey typeSendsvr (svrName l')) := by
          rw [hlookup rfl, if_neg (Ne.symm hkey), Option.or_none]
        cases hknown' : m.lookup (getKey typeSendsvr (svrName l')) with
        | some node =>
            obtain ⟨boundSecond, hsecond⟩ :=
              getServer_known hm' h'.2.1 h'.2.2 (hlookup'.trans hknown') b true malloc'
            have hsame := (hrun _ (le_max_left bound boundSecond)).2
            rw [hsecond _ (le_max_right _ _)] at hsame
            exact hnew _ node hknown' (Option.some.inj (Prod.mk.inj (Option.some.inj hsame)).1)
        | none =>
            obtain ⟨ret, s₂, -, -, -, -, hret, boundSecond, hsecond⟩ :=
              getServer_new hm' h'.2.1 h'.2.2 (hlookup'.trans hknown') b malloc'
            have hsame := (hrun _ (le_max_left bound boundSecond)).2
            rw [hsecond _ (le_max_right _ _)] at hsame
            obtain ⟨hsome, -⟩ := Prod.mk.inj (Option.some.inj hsame)
            rcases hret with hret | hret
            · exact hab (Option.some.inj (hret.symm.trans hsome))
            · exact absurd (hret.symm.trans hsome) nofun
  · intro hkey
    have hsize : (0 : Int32) < 10241 := by decide
    obtain ⟨t, -, ht⟩ := create_spec (K := UInt32 × UInt32) (V := NameNode ℕ) true
      (fun _ => ⟨(0, 0), ⟨0, 0⟩, none⟩) (fun _ => none) hsize nkeyhash
    have hnone : ∀ k, (∅ : Finmap fun _ : UInt32 × UInt32 => NameNode ℕ).lookup k = none :=
      fun k => Finmap.lookup_empty k
    obtain ⟨ret, s, m', hm', hret, hlookup, -, boundFirst, hfirst⟩ :=
      getServer_new ht h.2.1 h.2.2 (hnone _) 0 true
    obtain rfl := hret rfl
    have hknown : m'.lookup (getKey typeSendsvr (svrName l')) = some ⟨typeSendsvr, 0⟩ := by
      rw [hlookup rfl, hnone, if_pos hkey.symm]
      rfl
    obtain ⟨boundSecond, hsecond⟩ := getServer_known hm' h'.2.1 h'.2.2 hknown 1 true true
    refine ⟨t, s, s, ∅, 0, 1, max boundFirst boundSecond, true, true, ht, ?_, Nat.one_ne_zero, fun fuel hfuel => ?_⟩
    · intro k node hk
      rw [hnone] at hk
      exact absurd hk nofun
    · exact ⟨hfirst fuel (le_of_max_le_left hfuel), hsecond fuel (le_of_max_le_right hfuel)⟩

end Asenal.Comlog
