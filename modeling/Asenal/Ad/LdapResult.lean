import Asenal.Ad.LdapRequest

/-!
# Messages that are read

What the client of `ldap.py` reads of messages that were written.

* `createSearchRequest_says` — a request that is created says what was asked for, under its number.
* `parseSearchResult_entry` — of a result the first entry is read, and nothing behind it.
-/

namespace Asenal.Ad

open Asenal.Lib.Text Asenal.Lib.Nested Asenal.Lib.Raised Asenal.Lib.OrderedMap

/-! ## One value after the other -/

/-- A decoder with a tag that was read ahead. -/
def Decoder.behind (tag : Tag) (before rest : Bytes) (outer : List Level) : Decoder :=
  ⟨some ⟨Level.between before rest, outer⟩, some tag⟩

variable {bs value : Bytes} {levels : List Level} {next children : Tree} {n : ℕ}

/-- Behind a tag its value is read. -/
theorem readSecond_behind (w : Write) {length : List Bytes} (before rest : Bytes)
    (hvalue : encodeValue w.tag.nr w.value = .ok value) (hlength : emitLength value.length = .ok length) :
    readSecond (Decoder.behind w.tag before (length.flatten ++ (value ++ rest)) levels) =
      .ok (readBack w.tag.nr w.value, Decoder.between (before ++ (length.flatten ++ value)) rest levels) := by
  have hne : length.flatten ++ (value ++ rest) ≠ [] := by simp [flatten_emitLength_ne_nil hlength]
  simp only [readSecond, Decoder.read, Decoder.peek, Decoder.stack, Decoder.behind, endOfInput_between, ok_bind, hne,
    decide_false, Bool.false_eq_true, if_false, pure_eq, readLength_emitLength hlength, readValue_encodeValue hvalue,
    List.append_assoc]
  rfl

/-- A value in front of others is read. -/
theorem leaf_between {w : Write} (h : Emitted (.leaf w next) bs) (before rest : Bytes) (levels : List Level) :
    ∃ d before' more, (Decoder.between before (bs ++ rest) levels).peek = .ok (some w.tag, d) ∧
      readSecond d = .ok (readBack w.tag.nr w.value, Decoder.between before' (more ++ rest) levels) ∧
      Emitted next more := by
  cases h with
  | leaf hvalue hlength hrest =>
      rename_i value length more
      have hpeek := @peek_between before (length.flatten ++ (value ++ (more ++ rest))) levels w.tag
      simp only [List.append_assoc]
      exact ⟨_, _, more, hpeek, readSecond_behind w _ _ hvalue hlength, hrest⟩

/-- A constructed value in front of others is entered. -/
theorem node_between {o : ℕ × Option TagClass} (h : Emitted (.node o children next) bs) (before rest : Bytes)
    (levels : List Level) :
    ∃ d inner before' more, (Decoder.between before (bs ++ rest) levels).peek = .ok (some (constructed o), d) ∧
      d.enter = .ok (Decoder.between [] inner (Level.between before' (more ++ rest) :: levels)) ∧
      Emitted children inner ∧ Emitted next more := by
  cases h with
  | node hvalue hlength hrest =>
      rename_i value length more
      have hpeek := @peek_between before (length.flatten ++ (value ++ (more ++ rest))) levels (constructed o)
      simp only [List.append_assoc]
      exact ⟨_, value, _, more, hpeek, enter_between o hlength, hvalue, hrest⟩

/-- At the end there is no tag. -/
theorem peek_end (before : Bytes) (levels : List Level) :
    (Decoder.between before [] levels).peek = .ok (none, Decoder.between before [] levels) := by
  simp [Decoder.peek, Decoder.stack, Decoder.between, endOfInput_between]

/-- A tag that is expected is let through. -/
theorem expect_of_peek {d d' : Decoder} {tag : Option Tag} {id : TagId} (h : d.peek = .ok (tag, d'))
    (hc : checkTag tag id none none = .ok ()) : expect d id = .ok d' := by
  simp only [expect, h, ok_bind, hc]
  rfl

/-- The tag of a sequence is expected. -/
theorem check_sequence : checkTag (some (constructed (Sequence, none))) (.one Sequence) none none = .ok () := rfl

/-- The tag of a set is expected. -/
theorem check_set : checkTag (some (constructed (Set, none))) (.one Set) none none = .ok () := rfl

/-- The tag of an integer is expected. -/
theorem check_int (v : ℤ) : checkTag (some (plain (.int v)).tag) (.one Integer) none none = .ok () := rfl

/-- The tag of a string is expected. -/
theorem check_string (s : Bytes) : checkTag (some (plain (.str s)).tag) (.one OctetString) none none = .ok () := rfl

/-- The tag of an entry is one of those that are expected. -/
theorem check_entry : checkTag (some (constructed (4, some .application))) (.several [4, 5]) (some .constructed)
    (some .application) = .ok () := rfl

/-- An entry is not the end of the result. -/
theorem entry_ne_done : Option.map Tag.nr (some (constructed (4, some .application))) ≠ some 5 := by decide

/-- What is left between two values. -/
theorem left_between (before rest : Bytes) (levels : List Level) :
    (Decoder.between before rest levels).left = rest.length := by
  simp [Decoder.left, Decoder.between, Level.between, Level.left]

/-- What is written for a tree are its bytes. -/
theorem emitted_of_encode (f : Tree) (h : encode f.calls = .ok bs) : Emitted f bs := by
  rw [encode, bind_eq_ok] at h
  obtain ⟨e, hcalls, hout⟩ := h
  obtain ⟨strings, rfl, hbytes⟩ := emitted_of_calls f hcalls
  obtain rfl : strings.flatten = bs := Except.ok.inj hout
  exact hbytes

/-! ## Headers -/

/-- The number of a message, and what it is. -/
theorem parseMessageHeader_emitted {msgid : ℤ} {op : ℕ} {inner behind : Tree}
    (h : Emitted (.node (Sequence, none) (.leaf (plain (.int msgid)) (.node (op, some .application) inner behind)) next)
      bs) (rest : Bytes) : parseMessageHeader (bs ++ rest) = .ok (.int (readBackInt msgid), op) := by
  obtain ⟨d₁, inner₁, before₁, more₁, hpeek₁, henter, hchildren, -⟩ := node_between h [] rest []
  have hleaf := leaf_between hchildren [] [] [Level.between before₁ (more₁ ++ rest)]
  simp only [List.append_nil] at hleaf
  obtain ⟨d₂, before₂, more₂, hpeek₂, hread, hnext⟩ := hleaf
  have hnode := node_between hnext before₂ [] [Level.between before₁ (more₁ ++ rest)]
  simp only [List.append_nil] at hnode
  obtain ⟨d₃, -, -, -, hpeek₃, -⟩ := hnode
  have hstart : Decoder.start (bs ++ rest) = Decoder.between [] (bs ++ rest) [] := rfl
  simp only [parseMessageHeader, hstart, expect_of_peek hpeek₁ check_sequence, ok_bind, henter,
    expect_of_peek hpeek₂ (check_int msgid), hread, hpeek₃]
  rfl

/-- **A request that is created** has a filter that is parsed and has no `NOT`; it is the encoding of all that was
asked for, and its header has the number that was given, as it is read back. -/
theorem createSearchRequest_says {ply : Ply} {dn : Bytes} {filter : Option Bytes} {o : SearchOptions}
    (h : createSearchRequest ply dn filter o = .ok bs) :
    ∃ f, parse ply (filterText filter) = .ok f ∧ f.negated = false ∧ encode (requestTree dn f o).calls = .ok bs ∧
      ∀ rest, parseMessageHeader (bs ++ rest) = .ok (.int (readBackInt (o.msgid.getD 1)), 3) := by
  obtain ⟨f, hparse, hf, hbytes⟩ := createSearchRequest_eq_ok h
  exact ⟨f, hparse, hf, hbytes, parseMessageHeader_emitted (emitted_of_encode _ hbytes)⟩

/-- The request for the filter `(a=*)`, and the header that is read of it. -/
theorem createSearchRequest_says_present : ∃ f, parse .plain (filterText (some (render (.present [97])))) = .ok f ∧
    f.negated = false ∧ encode (requestTree [] f {}).calls = .ok [48, 29, 2, 1, 1, 99, 24, 4, 0, 10, 1, 2, 10, 1, 0, 2, 1,
      0, 2, 1, 0, 1, 1, 0, 167, 3, 4, 1, 97, 48, 0] ∧
    ∀ rest, parseMessageHeader ([48, 29, 2, 1, 1, 99, 24, 4, 0, 10, 1, 2, 10, 1, 0, 2, 1, 0, 2, 1, 0, 1, 1, 0, 167, 3, 4,
      1, 97, 48, 0] ++ rest) = .ok (.int (readBackInt 1), 3) := by
  have hparse : parse .plain (filterText (some (render (.present [97])))) = .ok (.present [97]) :=
    parse_render _ (by simp [Filter.Filled])
  exact createSearchRequest_says ((createSearchRequest_of_parse hparse rfl).trans (by decide +kernel))

/-! ## Entries -/

/-- The attributes of an entry. -/
def attrsTree : List (Bytes × List Bytes) → Tree
  | [] => .nil
  | (name, values) :: attrs =>
      .node (Sequence, none) (.leaf (plain (.str name)) (.node (Set, none) (stringsTree .nil values) .nil))
        (attrsTree attrs)

/-- An entry of a result. -/
def entryTree (msgid : ℤ) (dn : Bytes) (attrs : List (Bytes × List Bytes)) : Tree :=
  .node (Sequence, none) (.leaf (plain (.int msgid)) (.node (4, some .application)
    (.leaf (plain (.str dn)) (.node (Sequence, none) (attrsTree attrs) .nil)) .nil)) .nil

/-- The attributes as they are kept: the last values of a name count. -/
def putAttrs (attrs : Attrs) (l : List (Bytes × List Bytes)) : Attrs :=
  l.foldl (fun attrs e => put attrs (.str e.1) (e.2.map .str)) attrs

/-- How many values there are one after the other. -/
def width : Tree → ℕ
  | .nil => 0
  | .leaf _ next => width next + 1
  | .node _ _ next => width next + 1

/-- A tree has no more values than its text has bytes. -/
theorem width_le_of_emitted {f : Tree} (h : Emitted f bs) : width f ≤ bs.length := by
  induction h with
  | nil => exact Nat.le_refl 0
  | leaf hvalue hlength hrest ih =>
      rename_i w next value length rest
      have htag : w.tag.bytes.length ≠ 0 := by simp [bytes_ne_nil]
      rw [width, List.length_append, List.length_append, List.length_append]
      omega
  | node hvalue hlength hrest ihc ih =>
      rename_i o children next value length rest
      have htag : (constructed o).bytes.length ≠ 0 := by simp [bytes_ne_nil]
      rw [width, List.length_append, List.length_append, List.length_append]
      omega

/-- A list of strings has as many values. -/
theorem width_strings (ss : List Bytes) : width (stringsTree .nil ss) = ss.length := by
  induction ss with
  | nil => rfl
  | cons s ss ih => rw [stringsTree, width, ih, List.length_cons]

/-- A list of attributes has as many values. -/
theorem width_attrs (attrs : List (Bytes × List Bytes)) : width (attrsTree attrs) = attrs.length := by
  induction attrs with
  | nil => rfl
  | cons e attrs ih => rw [attrsTree, width, ih, List.length_cons]

/-- All values of an attribute are read. -/
theorem loop_values {values : List Bytes} (h : Emitted (stringsTree .nil values) bs) (hn : values.length < n)
    (before : Bytes) (levels : List Level) (acc : List Value) :
    ∃ before', loop .unending valuesBody n (Decoder.between before bs levels, acc) =
      .ok (Decoder.between before' [] levels, acc ++ values.map .str) := by
  obtain ⟨n, rfl⟩ : ∃ m, n = m + 1 := ⟨n - 1, by omega⟩
  induction values generalizing bs n before acc with
  | nil =>
      cases h
      refine ⟨before, ?_⟩
      rw [List.map_nil, List.append_nil]
      refine loop_done ?_
      simp [valuesBody, peek_end]
  | cons s values ih =>
      have hleaf := leaf_between h before [] levels
      simp only [List.append_nil] at hleaf
      obtain ⟨d, before', more, hpeek, hread, hnext⟩ := hleaf
      have hbody : valuesBody (Decoder.between before bs levels, acc) =
          .ok (.inl (Decoder.between before' more levels, acc ++ [.str s])) := by
        simp only [valuesBody, hpeek, ok_bind, reduceCtorEq, if_false, check_string, hread]
        rfl
      rw [List.length_cons] at hn
      obtain ⟨m, rfl⟩ : ∃ m, n = m + 1 := ⟨n - 1, by omega⟩
      obtain ⟨before'', hloop⟩ := ih hnext before' (acc ++ [.str s]) m (by omega)
      refine ⟨before'', ?_⟩
      rw [loop_next hbody, hloop, List.append_assoc]
      rfl

/-- All attributes of an entry are read. -/
theorem loop_attrs {l : List (Bytes × List Bytes)} (h : Emitted (attrsTree l) bs) (hn : l.length < n)
    (before : Bytes) (levels : List Level) (attrs : Attrs) :
    ∃ before', loop .unending attrsBody n (Decoder.between before bs levels, attrs) =
      .ok (Decoder.between before' [] levels, putAttrs attrs l) := by
  obtain ⟨n, rfl⟩ : ∃ m, n = m + 1 := ⟨n - 1, by omega⟩
  induction l generalizing bs n before attrs with
  | nil =>
      cases h
      refine ⟨before, loop_done ?_⟩
      simp [attrsBody, peek_end, putAttrs]
  | cons e l ih =>
      obtain ⟨name, values⟩ := e
      have hnode := node_between h before [] levels
      simp only [List.append_nil] at hnode
      obtain ⟨d₁, inner₁, before₁, more₁, hpeek₁, henter₁, hchildren, hnext⟩ := hnode
      have hleaf := leaf_between hchildren [] [] (Level.between before₁ more₁ :: levels)
      simp only [List.append_nil] at hleaf
      obtain ⟨d₂, before₂, more₂, hpeek₂, hread, hset⟩ := hleaf
      have hvals := node_between hset before₂ [] (Level.between before₁ more₁ :: levels)
      simp only [List.append_nil] at hvals
      obtain ⟨d₃, inner₃, before₃, more₃, hpeek₃, henter₃, hstrings, -⟩ := hvals
      have hwidth := width_le_of_emitted hstrings
      rw [width_strings] at hwidth
      obtain ⟨before₄, hloop⟩ := loop_values hstrings (Nat.lt_succ_of_le hwidth) []
        (Level.between before₃ more₃ :: Level.between before₁ more₁ :: levels) []
      have hbody : attrsBody (Decoder.between before bs levels, attrs) =
          .ok (.inl (Decoder.between before₁ more₁ levels, put attrs (.str name) (values.map .str))) := by
        simp only [attrsBody, hpeek₁, ok_bind, reduceCtorEq, if_false, check_sequence, henter₁,
          expect_of_peek hpeek₂ (check_string name), hread, expect_of_peek hpeek₃ check_set, henter₃, left_between, hloop]
        rfl
      rw [List.length_cons] at hn
      obtain ⟨m, rfl⟩ : ∃ m, n = m + 1 := ⟨n - 1, by omega⟩
      obtain ⟨before', hrest⟩ := ih hnext before₁ (put attrs (.str name) (values.map .str)) m (by omega)
      refine ⟨before', ?_⟩
      rw [loop_next hbody, hrest]
      rfl

/-- **Of a result the first entry is read**, with the last values of each attribute; what stands behind it is not,
whatever it is: the messages are not left again. -/
theorem parseSearchResult_entry {msgid : ℤ} {dn : Bytes} {attrs : List (Bytes × List Bytes)}
    (h : encode (entryTree msgid dn attrs).calls = .ok bs) (rest : Bytes) :
    parseSearchResult (bs ++ rest) = .ok [⟨.int (readBackInt msgid), .str dn, putAttrs ∅ attrs⟩] := by
  have hemitted := emitted_of_encode _ h
  have hwidth : 1 ≤ bs.length := width_le_of_emitted hemitted
  obtain ⟨d₁, inner₁, before₁, more₁, hpeek₁, henter₁, hmessage, -⟩ := node_between hemitted [] rest []
  have hid := leaf_between hmessage [] [] [Level.between before₁ (more₁ ++ rest)]
  simp only [List.append_nil] at hid
  obtain ⟨d₂, before₂, more₂, hpeek₂, hread₂, hentry⟩ := hid
  have hnode := node_between hentry before₂ [] [Level.between before₁ (more₁ ++ rest)]
  simp only [List.append_nil] at hnode
  obtain ⟨d₃, inner₃, before₃, more₃, hpeek₃, henter₃, hcontent, -⟩ := hnode
  have hname := leaf_between hcontent [] [] [Level.between before₃ more₃, Level.between before₁ (more₁ ++ rest)]
  simp only [List.append_nil] at hname
  obtain ⟨d₄, before₄, more₄, hpeek₄, hread₄, hattrs⟩ := hname
  have hlist := node_between hattrs before₄ [] [Level.between before₃ more₃, Level.between before₁ (more₁ ++ rest)]
  simp only [List.append_nil] at hlist
  obtain ⟨d₅, inner₅, before₅, more₅, hpeek₅, henter₅, hall, hend⟩ := hlist
  have hwidth₅ := width_le_of_emitted hall
  rw [width_attrs] at hwidth₅
  obtain ⟨before₆, hloop⟩ := loop_attrs hall (Nat.lt_succ_of_le hwidth₅) []
    [Level.between before₅ more₅, Level.between before₃ more₃, Level.between before₁ (more₁ ++ rest)] ∅
  cases hend
  have hbody : messagesBody (Decoder.between [] (bs ++ rest) [], []) =
      .ok (.inl (Decoder.between before₅ [] [Level.between before₃ more₃, Level.between before₁ (more₁ ++ rest)],
        [⟨.int (readBackInt msgid), .str dn, putAttrs ∅ attrs⟩])) := by
    simp only [messagesBody, hpeek₁, ok_bind, reduceCtorEq, if_false, check_sequence, henter₁,
      expect_of_peek hpeek₂ (check_int msgid), hread₂, hpeek₃, check_entry, entry_ne_done, henter₃,
      expect_of_peek hpeek₄ (check_string dn), hread₄, expect_of_peek hpeek₅ check_sequence, henter₅, left_between, hloop]
    rfl
  have hdone : messagesBody (Decoder.between before₅ [] [Level.between before₃ more₃,
      Level.between before₁ (more₁ ++ rest)], [⟨.int (readBackInt msgid), .str dn, putAttrs ∅ attrs⟩]) =
      .ok (.inr [⟨.int (readBackInt msgid), .str dn, putAttrs ∅ attrs⟩]) := by
    simp [messagesBody, peek_end]
  obtain ⟨k, hk⟩ : ∃ k, (bs ++ rest).length = k + 1 := ⟨(bs ++ rest).length - 1, by rw [List.length_append]; omega⟩
  have hstart : Decoder.start (bs ++ rest) = Decoder.between [] (bs ++ rest) [] := rfl
  rw [parseSearchResult, hstart, left_between, hk, loop_next hbody, loop_done hdone]

/-- An entry with one attribute, and a byte behind it. -/
theorem parseSearchResult_entry_one : parseSearchResult ([48, 19, 2, 1, 1, 100, 14, 4, 0, 48, 10, 48, 8, 4, 1, 97, 49, 3,
    4, 1, 98] ++ [48]) = .ok [⟨.int (readBackInt 1), .str [], putAttrs ∅ [([97], [[98]])]⟩] :=
  parseSearchResult_entry (by decide +kernel) [48]

end Asenal.Ad
