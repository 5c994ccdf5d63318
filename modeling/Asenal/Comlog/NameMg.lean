import Asenal.Lib.Scan
import Asenal.Comlog.FiniteMap

/-!
# The registry of names

Loggers, appenders, layouts and servers are found by a tag and a name. What the table has for a key is
not the name but a signature of 64 bits of the text `tag:name`: the text itself if it is short, and two
sums that are weighted with tables of primes if it is not. The table does not compare names, so an object
is found under every name with its signature.

* `getKey_inj` — short texts have different signatures.
* `registerAll_spec` — the table after any registrations.
* `nameMg_get` — what is found after them.
-/

namespace Asenal.Comlog

open Asenal.Lib.Text Asenal.Lib.Scan

/-! ## Signatures -/

/-- Source: `xutils.cpp` `x_Mod_Prime_List_1`. -/
def modPrimeList1 : List UInt32 :=
  [256, 65536, 3, 768, 196608, 9, 2304, 589824, 27, 6912, 1769472, 81, 20736, 5308416, 243, 62208,
    15925248, 729, 186624, 14221318, 2187, 559872, 9109528, 6561, 1679616, 10551371, 19683,
    5038848, 14876900, 59049, 15116544, 11076274, 177147, 11795206, 16451609, 531441, 1831192,
    15800401, 1594323, 5493576, 13846777, 4782969, 16480728, 7985905, 14348907, 15887758, 7180502,
    9492295, 14108848, 4764293, 11699672, 8772118, 14292879, 1544590, 9539141, 9324211, 4633770,
    11840210, 11195420, 13901310, 1966204, 31834, 8149504, 5898612, 95502, 7671299, 918623, 286506,
    6236684, 2755869, 859518, 1932839, 8267607, 2578554, 5798517, 8025608, 7735662, 618338,
    7299611, 6429773, 1855014, 5121620, 2512106, 5565042, 15364860, 7536318, 16695126, 12540154,
    5831741, 16530952, 4066036, 718010, 16038430, 12198108, 2154030, 14560864, 3039898, 6462090,
    10128166, 9119694, 2609057, 13607285, 10581869, 7827171, 7267429, 14968394, 6704300, 5025074,
    11350756, 3335687, 15075222, 497842, 10007061, 11671240, 1493526, 13243970, 1459294, 4480578,
    6177484, 4377882, 13441734, 1755239, 13133646, 6770776, 5265717, 5846512, 3535115, 15797151,
    762323, 10605345, 13837027, 2286969, 15038822, 7956655, 6860907, 11562040, 7092752, 3805508,
    1131694, 4501043, 11416524, 3395082, 13503129, 695146, 10185246, 6954961, 2085438, 13778525,
    4087670, 6256314, 7781149, 12263010, 1991729, 6566234, 3234604, 5975187, 2921489, 9703812,
    1148348, 8764467, 12334223, 3445044, 9516188, 3448243, 10335132, 11771351, 10344729, 14228183,
    1759627, 14256974, 9130123, 5278881, 9216496, 10613156, 15836643, 10872275, 15062255, 13955503,
    15839612, 11632339, 8312083, 13964410, 1342591, 8159036, 8338804, 4027773, 7699895, 8239199,
    12083319, 6322472, 7940384, 2695531, 2190203, 7043939, 8086593, 6570609, 4354604, 7482566,
    2934614, 13063812, 5670485, 8803842, 5637010, 234242, 9634313, 133817, 702726, 12125726,
    401451, 2108178, 2822752, 1204353, 6324534, 8468256, 3613059, 2196389, 8627555, 10839177,
    6589167, 9105452, 15740318, 2990288, 10539143, 13666528, 8970864, 14840216, 7445158, 10135379,
    10966222, 5558261, 13628924, 16121453, 16674783, 7332346, 14809933, 16469923, 5219825,
    10875373, 15855343, 15659475, 15848906, 14011603, 13423999, 13992292, 8480383, 6717571,
    8422450, 8663936, 3375500, 8490137, 9214595, 10126500, 8693198, 10866572, 13602287, 9302381]

/-- Source: `xutils.cpp` `x_Mod_Prime_List_2`. -/
def modPrimeList2 : List UInt32 :=
  [15824477, 7761153, 7145686, 580925, 14499208, 4036269, 9875725, 11605750, 1507777, 115335,
    12748561, 8855010, 1960695, 15399149, 16317578, 16554616, 10127548, 8963642, 12993288, 4396326,
    1387123, 2782309, 7628746, 6803892, 13744855, 12248289, 15002970, 15558948, 6894525, 3392505,
    12844131, 16543731, 7340988, 246640, 12808243, 7356403, 4192880, 16413743, 7618458, 4170164,
    10598447, 12073393, 3783992, 12401609, 3921293, 13996267, 9500965, 16330384, 3055753, 10521614,
    9181344, 1616204, 11095448, 5088057, 10698269, 4073427, 2610974, 14098583, 2139463, 10832160,
    4795125, 2816473, 16374730, 14408329, 14325643, 9935226, 10060807, 8655145, 1126852, 3261729,
    12919873, 2379285, 5117796, 1534254, 6893447, 3116537, 9305119, 16525405, 2649532, 7192232,
    12496701, 11487646, 4827551, 11117529, 10740793, 14959571, 4448804, 14821491, 2654722, 8520872,
    307362, 11575876, 10637232, 5225154, 12240703, 13060954, 4941623, 6765563, 3932631, 121596,
    14351377, 16523130, 2067132, 9092623, 12458026, 1586846, 3579800, 10460054, 10199183, 10525003,
    10048928, 5614121, 11153061, 3059786, 11554062, 5052848, 1684765, 11869865, 2012421, 11863806,
    461317, 656759, 358314, 7842389, 11164903, 6091338, 15880220, 5254162, 2889552, 1528556,
    5434759, 15567986, 9208253, 8504908, 12997777, 5545510, 10365844, 2858622, 10387675, 8447358,
    15042176, 8818485, 9387494, 4059007, 15696653, 8592607, 1894323, 15185116, 11856727, 15426292,
    6488987, 237971, 10588979, 9649585, 4045507, 12240653, 13048154, 1664823, 6764713, 3715031,
    11524792, 14336927, 12823930, 11372275, 8846973, 16680422, 8779486, 16180949, 15131990,
    15033670, 6640949, 5585845, 3914405, 12232939, 11073370, 16213288, 6633575, 3698101, 7190712,
    12107581, 12536120, 4801711, 4502489, 11787652, 14520291, 9433517, 15840895, 11964161, 9374998,
    860031, 2064349, 8380175, 14620527, 1539535, 8245383, 13668173, 9394896, 5953919, 14255354,
    8718441, 553429, 7460232, 13995905, 9408293, 9383551, 3049599, 8946190, 8525576, 1511586,
    1090439, 10717200, 8919763, 1760264, 14420410, 641180, 13147289, 10266184, 10900060, 5400326,
    6753138, 751831, 7919547, 14140152, 12781127, 414707, 5501798, 15952771, 7050019, 9644571,
    2761923, 2409930, 12962916, 13398293, 7414412, 2265985, 9667394, 8604611, 4967347, 13350907,
    12060795, 558904, 8861832, 3707127, 9501368, 16433552, 12689562, 10528465, 10935200, 14396166,
    11211915, 1349211, 9854036, 6053366, 6159388, 16523821, 2244028]

/-- The loop of the two sums, from the character `i` on. Source: `xutils.cpp` `x_getsign_24_1` and
`x_getsign_24_2`. -/
def getsignLoop (table : List UInt32) : ℕ → UInt32 → Bytes → UInt32
  | _, itemp, [] => itemp
  | i, itemp, b :: str =>
      getsignLoop table (i + 1) (b.toUInt32 * table.getD (i % 256) 0 + itemp) str

/-- Source: `xutils.cpp` `x_getsign_24_1`. -/
def getsign24One (str : Bytes) : UInt32 := getsignLoop modPrimeList1 0 0 str

/-- Source: `xutils.cpp` `x_getsign_24_2`. -/
def getsign24Two (str : Bytes) : UInt32 := getsignLoop modPrimeList2 0 0 str

/-- A word that was `0`, after `memcpy` of up to four bytes to it. -/
def wordOf (bs : Bytes) : UInt32 := bs.foldr (fun b w => b.toUInt32 + 256 * w) 0

/-- The two words of a signature. Source: `xutils.cpp` `x_creat_sign_f64`. -/
def creatSignF64 (psrc : Bytes) : UInt32 × UInt32 :=
  if psrc.length ≤ 4 then (wordOf psrc, 0)
  else if psrc.length ≤ 8 then (wordOf (psrc.take 4), wordOf (psrc.drop 4))
  else (getsign24One psrc, getsign24Two psrc)

/-! ## The registry -/

/-- `"%d:%s"` of a tag and a name. -/
def keyText (tag : Int32) (name : Bytes) : Bytes := decInt tag.toInt ++ 58 :: name

/-- The key of a tag and a name: the two words of an `unsigned long long`. Source: `namemg.cpp`
`NameMg::getKey`. -/
def getKey (tag : Int32) (name : Bytes) : UInt32 × UInt32 :=
  creatSignF64 ((keyText tag name).take (2048 - 1))

/-- Source: `namemg.cpp` `nkeyhash`. -/
def nkeyhash (key : UInt32 × UInt32) : UInt32 := key.1 + key.2

/-- What is stored: an object of the type `P`, and its tag. Source: `namemg.h` `node_t`. -/
structure NameNode (P : Type) where
  type : Int32
  ptr : P

/-- Source: `namemg.h` `NameMg`. -/
abbrev NameMg (P : Type) := HashMap (UInt32 × UInt32) (NameNode P)

variable {P : Type}

/-- Source: `namemg.cpp` `NameMg::create`. -/
def NameMg.create (threadSafe : Bool) (junk : NodeAddr → HashNode (UInt32 × UInt32) (NameNode P))
    (blockNext : ℕ → Option ℕ) : Option (NameMg P) :=
  HashMap.create threadSafe junk blockNext 10241 nkeyhash

/-- The object that is found, if there is one. Source: `namemg.cpp` `NameMg::get`. -/
def NameMg.get (t : NameMg P) (fuel : ℕ) (tag : Int32) (name : Bytes) : Option (Option P) :=
  (HashMap.get t fuel (getKey tag name)).map fun a =>
    if a.ret ≠ 0 then none else a.val.map NameNode.ptr

/-- Register an object; what is returned is not `0` if the key is taken, or if there is no memory. Source:
`namemg.cpp` `NameMg::set`. -/
def NameMg.set (t : NameMg P) (fuel : ℕ) (malloc : Bool) (tag : Int32) (name : Bytes) (val : P) :
    Option (ℤ × NameMg P) :=
  (HashMap.set t fuel malloc (getKey tag name) ⟨tag, val⟩ 0).map fun r => (r.1.ret, r.2)

/-- A call of `NameMg::set`, and what `malloc` answers in it. -/
structure Registration (P : Type) where
  tag : Int32
  name : Bytes
  val : P
  malloc : Bool

/-- Registrations one after the other, and what they return. -/
def NameMg.registerAll (fuel : ℕ) : NameMg P → List (Registration P) → Option (List ℤ × NameMg P)
  | t, [] => some ([], t)
  | t, r :: rs =>
      (NameMg.set t fuel r.malloc r.tag r.name r.val).bind fun s =>
        (NameMg.registerAll fuel s.2 rs).map fun u => (s.1 :: u.1, u.2)

/-- The registrations that returned `0`. -/
def succeeded (rs : List (Registration P)) (rets : List ℤ) : List (Registration P) :=
  ((rs.zip rets).filter fun e => e.2 = 0).map Prod.fst

/-- The object of the first registration with a key. -/
def firstWith (rs : List (Registration P)) (key : UInt32 × UInt32) : Option P :=
  (rs.find? fun r => getKey r.tag r.name == key).map Registration.val

/-! ## Short texts -/

/-- The word of up to four bytes is their number. -/
theorem toNat_wordOf {bs : Bytes} (h : bs.length ≤ 4) :
    (wordOf bs).toNat = Nat.ofDigits 256 (bs.map UInt8.toNat) := by
  induction bs with
  | nil => rfl
  | cons b bs ih =>
      rw [List.length_cons] at h
      have hbytes : ∀ d ∈ bs.map UInt8.toNat, d < 256 := by
        intro d hd
        obtain ⟨b, -, rfl⟩ := List.mem_map.mp hd
        exact b.toNat_lt
      have hlt := Nat.ofDigits_lt_base_pow_length (by decide) hbytes
      have hpow : 256 ^ (bs.map UInt8.toNat).length ≤ 256 ^ 3 := by
        rw [List.length_map]
        exact Nat.pow_le_pow_right (by decide) (by omega)
      have hb := b.toNat_lt
      have hrest := ih (by omega)
      have hword : wordOf (b :: bs) = b.toUInt32 + 256 * wordOf bs := rfl
      have hmul : (256 : UInt32).toNat = 256 := rfl
      rw [hword, UInt32.toNat_add, UInt32.toNat_mul, UInt8.toNat_toUInt32, hrest, hmul, List.map_cons,
        Nat.ofDigits_cons]
      omega

/-- Bytes without `0` are known from their word. -/
theorem wordOf_inj {bs cs : Bytes} (hbs : bs.length ≤ 4) (hcs : cs.length ≤ 4) (hb : 0 ∉ bs)
    (hc : 0 ∉ cs) (h : wordOf bs = wordOf cs) : bs = cs := by
  have hdigits : ∀ {ds : Bytes}, 0 ∉ ds →
      Nat.digits 256 (Nat.ofDigits 256 (ds.map UInt8.toNat)) = ds.map UInt8.toNat := by
    intro ds hds
    refine Nat.digits_ofDigits 256 (by decide) _ (fun d hd => ?_) fun hne => ?_
    · obtain ⟨b, -, rfl⟩ := List.mem_map.mp hd
      exact b.toNat_lt
    · obtain ⟨b, hmem, heq⟩ := List.mem_map.mp (List.getLast_mem hne)
      rw [← heq]
      intro hzero
      rw [UInt8.toNat_inj.mp (hzero.trans (show 0 = (0 : UInt8).toNat from rfl))] at hmem
      exact hds hmem
  have hnum := congrArg UInt32.toNat h
  rw [toNat_wordOf hbs, toNat_wordOf hcs] at hnum
  have hmap := congrArg (Nat.digits 256) hnum
  rw [hdigits hb, hdigits hc] at hmap
  exact List.map_injective_iff.mpr (fun _ _ => UInt8.toNat_inj.mp) hmap

/-- The signature of a short text is the text. -/
theorem creatSignF64_short {s : Bytes} (h : s.length ≤ 8) :
    creatSignF64 s = (wordOf (s.take 4), wordOf (s.drop 4)) := by
  unfold creatSignF64
  by_cases hfour : s.length ≤ 4
  · rw [if_pos hfour, List.take_of_length_le hfour, List.drop_eq_nil_of_le hfour]
    rfl
  · rw [if_neg hfour, if_pos h]

theorem creatSignF64_inj {s t : Bytes} (hs : s.length ≤ 8) (ht : t.length ≤ 8) (hs0 : 0 ∉ s)
    (ht0 : 0 ∉ t) (h : creatSignF64 s = creatSignF64 t) : s = t := by
  rw [creatSignF64_short hs, creatSignF64_short ht] at h
  obtain ⟨hfirst, hsecond⟩ := Prod.mk.inj h
  have htake : s.take 4 = t.take 4 := by
    refine wordOf_inj ?_ ?_ (fun hm => hs0 (List.mem_of_mem_take hm))
      (fun hm => ht0 (List.mem_of_mem_take hm)) hfirst
    · exact List.length_take_le 4 s
    · exact List.length_take_le 4 t
  have hdrop : s.drop 4 = t.drop 4 := by
    refine wordOf_inj ?_ ?_ (fun hm => hs0 (List.mem_of_mem_drop hm))
      (fun hm => ht0 (List.mem_of_mem_drop hm)) hsecond
    · rw [List.length_drop]
      omega
    · rw [List.length_drop]
      omega
  rw [← List.take_append_drop 4 s, htake, hdrop, List.take_append_drop]

/-- A tag and a name are known from their text. -/
theorem keyText_inj {tag tag' : Int32} {name name' : Bytes}
    (h : keyText tag name = keyText tag' name') : tag = tag' ∧ name = name' := by
  unfold keyText at h
  have hcolon : ∀ z : ℤ, 58 ∉ decInt z := fun z => not_mem_decInt (by decide) (by decide)
  obtain ⟨htag, hname⟩ := append_cons_inj (hcolon _) (hcolon _) h
  exact ⟨Int32.toInt_inj.mp (decInt_inj htag), hname⟩

/-- **Short texts** have different keys. -/
theorem getKey_inj {tag tag' : Int32} {name name' : Bytes} (hname : 0 ∉ name) (hname' : 0 ∉ name')
    (hlen : (keyText tag name).length ≤ 8) (hlen' : (keyText tag' name').length ≤ 8)
    (h : getKey tag name = getKey tag' name') : tag = tag' ∧ name = name' := by
  have hnul : ∀ {tag : Int32} {name : Bytes}, 0 ∉ name → 0 ∉ keyText tag name := by
    intro tag name hname
    unfold keyText
    rw [List.mem_append, List.mem_cons, not_or, not_or]
    exact ⟨not_mem_decInt (by decide) (by decide), by decide, hname⟩
  unfold getKey at h
  rw [List.take_of_length_le (by omega), List.take_of_length_le (by omega)] at h
  exact keyText_inj (creatSignF64_inj hlen hlen' (hnul hname) (hnul hname') h)

/-! ## Registrations -/

/-- A registration keeps the object that is found for its key, or sets it. -/
theorem lookup_mapSet_zero (m : Finmap fun _ : UInt32 × UInt32 => NameNode P) (k k' : UInt32 × UInt32)
    (v : NameNode P) :
    (mapSet m k v 0).2.lookup k' = (m.lookup k').or (if k = k' then some v else none) := by
  rw [lookup_mapSet, if_pos rfl]
  by_cases heq : k' = k
  · rw [if_pos heq, if_pos heq.symm, heq]
  · rw [if_neg heq, if_neg (Ne.symm heq), Option.or_none]

theorem firstWith_cons (r : Registration P) (rs : List (Registration P)) (key : UInt32 × UInt32) :
    firstWith (r :: rs) key = if getKey r.tag r.name = key then some r.val else firstWith rs key := by
  unfold firstWith
  split_ifs with hkey
  · rw [List.find?_cons_of_pos (by simpa using hkey)]
    rfl
  · rw [List.find?_cons_of_neg (by simpa using hkey)]

theorem succeeded_cons_of_eq {ret : ℤ} (h : ret = 0) (r : Registration P) (rs : List (Registration P))
    (rets : List ℤ) : succeeded (r :: rs) (ret :: rets) = r :: succeeded rs rets := by
  simp [succeeded, h]

theorem succeeded_cons_of_ne {ret : ℤ} (h : ret ≠ 0) (r : Registration P) (rs : List (Registration P))
    (rets : List ℤ) : succeeded (r :: rs) (ret :: rets) = succeeded rs rets := by
  simp [succeeded, h]

/-- **A registration** with a new key sets its object, if there is memory; any other one returns an error and sets
nothing. -/
theorem set_nameMg {t : NameMg P} {m : Finmap fun _ : UInt32 × UInt32 => NameNode P} (h : Holds t m) (malloc : Bool)
    (tag : Int32) (name : Bytes) (val : P) : ∃ ret s m', Holds s m' ∧
      (∃ bound, ∀ fuel, bound ≤ fuel → NameMg.set t fuel malloc tag name val = some (ret, s)) ∧
      (ret = 0 ∧ m.lookup (getKey tag name) = none ∧
          (∀ key, m'.lookup key = (m.lookup key).or (if getKey tag name = key then some ⟨tag, val⟩ else none)) ∨
        ret ≠ 0 ∧ m' = m ∧ (malloc = true → (m.lookup (getKey tag name)).isSome)) := by
  rcases set_malloc h malloc (getKey tag name) ⟨tag, val⟩ 0 with ⟨boundSame, hsame⟩ | ⟨hmalloc, hnew, bound, herror⟩
  · obtain ⟨s, hs, boundSet, hset⟩ := set_spec h (getKey tag name) ⟨tag, val⟩ 0
    cases hlookup : m.lookup (getKey tag name) with
    | none =>
        refine ⟨0, s, _, hs, ⟨max boundSame boundSet, fun fuel hfuel => ?_⟩,
          .inl ⟨rfl, rfl, fun key => lookup_mapSet_zero ..⟩⟩
        rw [NameMg.set, hsame fuel (le_of_max_le_left hfuel), hset fuel (le_of_max_le_right hfuel), mapSet, hlookup]
        rfl
    | some node =>
        refine ⟨hashValExist, s, m, by simpa [mapSet, hlookup] using hs,
          ⟨max boundSame boundSet, fun fuel hfuel => ?_⟩, .inr ⟨by decide, rfl, fun _ => rfl⟩⟩
        rw [NameMg.set, hsame fuel (le_of_max_le_left hfuel), hset fuel (le_of_max_le_right hfuel), mapSet, hlookup]
        rfl
  · refine ⟨hashAcllomemError, t, m, h, ⟨bound, fun fuel hfuel => ?_⟩,
      .inr ⟨by decide, rfl, fun htrue => absurd htrue (by simp [hmalloc])⟩⟩
    rw [NameMg.set, herror fuel hfuel]
    rfl

/-- **After any registrations** the table has for each key the object of the first one with it that succeeded; if
there is memory, that is the first one with it. -/
theorem registerAll_spec {t : NameMg P} {m : Finmap fun _ : UInt32 × UInt32 => NameNode P}
    (h : Holds t m) (rs : List (Registration P)) :
    ∃ s m' rets, Holds s m' ∧ (∃ bound, ∀ fuel, bound ≤ fuel → NameMg.registerAll fuel t rs = some (rets, s)) ∧
      (∀ key, (m'.lookup key).map NameNode.ptr =
        ((m.lookup key).map NameNode.ptr).or (firstWith (succeeded rs rets) key)) ∧
      ((∀ r ∈ rs, r.malloc = true) → ∀ key, m.lookup key = none →
        firstWith (succeeded rs rets) key = firstWith rs key) := by
  induction rs generalizing t m with
  | nil => exact ⟨t, m, [], h, ⟨0, fun fuel _ => rfl⟩, fun key => (Option.or_none).symm, fun _ _ _ => rfl⟩
  | cons r rs ih =>
      obtain ⟨ret, u, m₁, hu, ⟨boundSet, hset⟩, hcases⟩ := set_nameMg h r.malloc r.tag r.name r.val
      obtain ⟨s, m', rets, hs, ⟨bound, hrun⟩, hlookup, hfirst⟩ := ih hu
      refine ⟨s, m', ret :: rets, hs, ⟨max boundSet bound, fun fuel hfuel => ?_⟩, fun key => ?_,
        fun hmalloc key hkey => ?_⟩
      · rw [NameMg.registerAll, hset fuel (le_of_max_le_left hfuel), Option.bind_some,
          hrun fuel (le_of_max_le_right hfuel)]
        rfl
      · rw [hlookup]
        rcases hcases with ⟨hret, -, hset⟩ | ⟨hret, rfl, -⟩
        · rw [succeeded_cons_of_eq hret r, hset, firstWith_cons, Option.map_or, Option.or_assoc]
          congr 1
          split_ifs <;> rfl
        · rw [succeeded_cons_of_ne hret r]
      · obtain ⟨hr, hrs⟩ := List.forall_mem_cons.mp hmalloc
        rcases hcases with ⟨hret, -, hset⟩ | ⟨hret, rfl, hthere⟩
        · rw [succeeded_cons_of_eq hret r, firstWith_cons, firstWith_cons]
          split_ifs with heq
          · rfl
          · exact hfirst hrs key (by rw [hset, hkey, if_neg heq, Option.or_none])
        · have hne : getKey r.tag r.name ≠ key := by
            rintro rfl
            simpa [hkey] using hthere hr
          rw [succeeded_cons_of_ne hret r, firstWith_cons, if_neg hne]
          exact hfirst hrs key hkey

/-- What a lookup finds in a table that holds a map. -/
theorem get_nameMg {t : NameMg P} {m : Finmap fun _ : UInt32 × UInt32 => NameNode P} (h : Holds t m)
    (tag : Int32) (name : Bytes) : ∃ bound, ∀ fuel, bound ≤ fuel →
      NameMg.get t fuel tag name = some ((m.lookup (getKey tag name)).map NameNode.ptr) := by
  obtain ⟨bound, hget⟩ := get_spec h (getKey tag name)
  refine ⟨bound, fun fuel hfuel => ?_⟩
  unfold NameMg.get
  rw [hget fuel hfuel]
  unfold mapGet
  cases m.lookup (getKey tag name) <;> rfl

theorem mem_of_mem_succeeded {r : Registration P} {rs : List (Registration P)} {rets : List ℤ}
    (h : r ∈ succeeded rs rets) : r ∈ rs := by
  obtain ⟨e, he, rfl⟩ := List.mem_map.mp h
  exact (List.of_mem_zip (List.mem_of_mem_filter he)).1

/-- A new registry, after registrations. -/
theorem registered_get (threadSafe : Bool)
    (junk : NodeAddr → HashNode (UInt32 × UInt32) (NameNode P)) (blockNext : ℕ → Option ℕ)
    (rs : List (Registration P)) :
    ∃ t s rets bound, NameMg.create threadSafe junk blockNext = some t ∧
      (∀ fuel, bound ≤ fuel → NameMg.registerAll fuel t rs = some (rets, s)) ∧
      (∀ tag name, ∃ bound, ∀ fuel, bound ≤ fuel →
        NameMg.get s fuel tag name = some (firstWith (succeeded rs rets) (getKey tag name))) ∧
      ((∀ r ∈ rs, r.malloc = true) → ∀ key, firstWith (succeeded rs rets) key = firstWith rs key) := by
  obtain ⟨t, hcreate, ht⟩ := create_spec threadSafe junk blockNext (show (0 : Int32) < 10241 by decide) nkeyhash
  obtain ⟨s, m, rets, hs, ⟨bound, hrun⟩, hlookup, hfirst⟩ := registerAll_spec ht rs
  refine ⟨t, s, rets, bound, hcreate, hrun, fun tag name => ?_,
    fun hmalloc key => hfirst hmalloc key (Finmap.lookup_empty key)⟩
  obtain ⟨boundGet, hget⟩ := get_nameMg hs tag name
  rw [hlookup, Finmap.lookup_empty] at hget
  exact ⟨boundGet, hget⟩

/-- **What is found** for a tag and a name: the object that was registered first with the same key, of those that
were registered without an error, which are all with a new key if there is memory. It was registered under another
tag or name only if that has the same key; texts of up to eight bytes do not. -/
theorem nameMg_get (threadSafe : Bool)
    (junk : NodeAddr → HashNode (UInt32 × UInt32) (NameNode P)) (blockNext : ℕ → Option ℕ)
    (rs : List (Registration P)) :
    ∃ t s rets bound, NameMg.create threadSafe junk blockNext = some t ∧
      (∀ fuel, bound ≤ fuel → NameMg.registerAll fuel t rs = some (rets, s)) ∧
      (∀ tag name, ∃ bound, ∀ fuel, bound ≤ fuel →
        NameMg.get s fuel tag name = some (firstWith (succeeded rs rets) (getKey tag name))) ∧
      ((∀ r ∈ rs, r.malloc = true) → ∀ key, firstWith (succeeded rs rets) key = firstWith rs key) ∧
      (∀ tag name val, firstWith (succeeded rs rets) (getKey tag name) = some val →
        ∃ r ∈ rs, r.val = val ∧ getKey r.tag r.name = getKey tag name) ∧
      ∀ (tag tag' : Int32) (name name' : Bytes), 0 ∉ name → 0 ∉ name' →
        (keyText tag name).length ≤ 8 → (keyText tag' name').length ≤ 8 →
        getKey tag name = getKey tag' name' → tag = tag' ∧ name = name' := by
  obtain ⟨t, s, rets, bound, hcreate, hrun, hget, hfirst⟩ := registered_get threadSafe junk blockNext rs
  refine ⟨t, s, rets, bound, hcreate, hrun, hget, hfirst, fun tag name val hval => ?_,
    fun tag tag' name name' => getKey_inj⟩
  obtain ⟨r, hr, hrval⟩ := Option.map_eq_some_iff.mp hval
  have hkey := List.find?_some hr
  exact ⟨r, mem_of_mem_succeeded (List.mem_of_find?_eq_some hr), hrval, beq_iff_eq.mp hkey⟩

/-- An appender is found under another name, which has the same signature. -/
theorem nameMg_get_other : ¬ ∀ (rs : List (Registration ℕ)) (rets : List ℤ) (t s : NameMg ℕ) (fuel : ℕ)
    (tag : Int32) (name : Bytes) (val : ℕ),
    NameMg.create true (fun _ => ⟨(0, 0), ⟨0, 0⟩, none⟩) (fun _ => none) = some t →
    NameMg.registerAll fuel t rs = some (rets, s) → NameMg.get s fuel tag name = some (some val) →
    ∃ r ∈ rs, r.tag = tag ∧ r.name = name ∧ r.val = val := by
  intro hclaim
  obtain ⟨t, s, rets, bound, hcreate, hrun, hget, hmemory⟩ := registered_get true
    (fun _ => ⟨(0, 0), ⟨0, 0⟩, none⟩) (fun _ => none) [⟨2, ascii "da_ab_f_a1", 7, true⟩]
  obtain ⟨boundGet, hfound⟩ := hget 2 (ascii "ad_ha_a_a2")
  have hfirst : firstWith [⟨2, ascii "da_ab_f_a1", 7, true⟩] (getKey 2 (ascii "ad_ha_a_a2")) = some 7 := by
    decide +kernel
  rw [hmemory (by simp), hfirst] at hfound
  obtain ⟨r, hr, -, hname, -⟩ := hclaim _ rets t s (max bound boundGet) 2 (ascii "ad_ha_a_a2") 7 hcreate
    (hrun _ (le_max_left _ _)) (hfound _ (le_max_right _ _))
  rw [List.mem_singleton.mp hr] at hname
  exact absurd hname (by decide)

end Asenal.Comlog
