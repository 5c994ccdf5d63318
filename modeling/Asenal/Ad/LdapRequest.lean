import Asenal.Ad.Asn1Session
import Asenal.Ad.Ldap

/-!
# What a search request says

The requests of `ldap.py` as trees of values.

* `encodeFilter_eq` — the calls for a filter are those of a tree.
* `createSearchRequest_eq_ok` — the requests that are created.
* `createSearchRequest_negated` — filters with which none is created.
-/

namespace Asenal.Ad

open Asenal.Lib.Text Asenal.Lib.Numbers Asenal.Lib.Nested Asenal.Lib.Raised

/-- Values that are written one after the other, some of them constructed. -/
abbrev Tree := Forest (ℕ × Option TagClass) Write

/-- `write(value)`. -/
def plain (value : Value) : Write := ⟨value, none, none, none⟩

/-- Strings one after the other. -/
def stringsTree (next : Tree) : List Bytes → Tree
  | [] => next
  | s :: ss => .leaf (plain (.str s)) (stringsTree next ss)

mutual

/-- A filter in front of other values. -/
def Filter.tree (next : Tree) : Filter → Tree
  | .and terms => .node (0, some .context) (terms.tree .nil) next
  | .or terms => .node (1, some .context) (terms.tree .nil) next
  | .not term => .node (2, some .context) (term.tree .nil) next
  | .equals type value => .node (3, some .context) (stringsTree .nil [type, value]) next
  | .lte type value => .node (5, some .context) (stringsTree .nil [type, value]) next
  | .gte type value => .node (6, some .context) (stringsTree .nil [type, value]) next
  | .present type => .node (7, some .context) (stringsTree .nil [type]) next
  | .approx type value => .node (8, some .context) (stringsTree .nil [type, value]) next

/-- The calls for the terms, in front of others. -/
def Terms.tree (next : Tree) : Terms → Tree
  | .one term => term.tree next
  | .cons term terms => term.tree (terms.tree next)

end

mutual

/-- There is a `NOT` somewhere. -/
def Filter.negated : Filter → Bool
  | .and terms => terms.negated
  | .or terms => terms.negated
  | .not _ => true
  | _ => false

/-- Whether one of the terms has a negation in it. -/
def Terms.negated : Terms → Bool
  | .one term => term.negated
  | .cons term terms => term.negated || terms.negated

end

/-! ## The calls -/

variable {e e' : Encoder} {top : List Bytes} {outer : List (List Bytes)} {bs : Bytes}

/-- A call of `enter`. -/
theorem call_enter (e : Encoder) (nr : ℕ) (cls : Option TagClass) : e.call (.enter (nr, cls)) = e.enter nr cls := rfl

/-- A call of `leave`. -/
theorem call_leave (e : Encoder) : e.call .leave = e.leave := rfl

/-- A call of `write`. -/
theorem call_leaf (e : Encoder) (w : Write) : e.call (.leaf w) = e.write w.value w.nr w.typ w.cls := rfl

/-- The calls for some strings. -/
theorem foldlM_strings (e : Encoder) (ss : List Bytes) (next : Tree) :
    (stringsTree next ss).calls.foldlM Encoder.call e =
      ss.foldlM (fun e s => e.put (.str s)) e >>= next.calls.foldlM Encoder.call := by
  induction ss generalizing e with
  | nil => rfl
  | cons s ss ih =>
      rw [stringsTree, Forest.calls, List.foldlM_cons, List.foldlM_cons, bind_assoc]
      exact bind_congr fun e => ih e

/-- The calls for a constructed value. -/
theorem foldlM_node (e : Encoder) (nr : ℕ) (cls : Option TagClass) (children next : Tree) :
    (Forest.node (nr, cls) children next).calls.foldlM Encoder.call e =
      e.enter nr cls >>= fun e => children.calls.foldlM Encoder.call e >>= fun e =>
        e.leave >>= next.calls.foldlM Encoder.call := by
  rw [Forest.calls, List.foldlM_cons, call_enter]
  refine bind_congr fun e => ?_
  rw [List.foldlM_append]
  refine bind_congr fun e => ?_
  rw [List.foldlM_cons, call_leave]

/-- An item is its tag with some strings under it. -/
theorem foldlM_item (e : Encoder) (nr : ℕ) (ss : List Bytes) (next : Tree) :
    (Forest.node (nr, some .context) (stringsTree .nil ss) next).calls.foldlM Encoder.call e =
      encodeItem e nr ss >>= next.calls.foldlM Encoder.call := by
  rw [foldlM_node, encodeItem]
  simp only [foldlM_strings, bind_assoc]
  rfl

/-- A constructed value whose calls are made by a function. -/
theorem foldlM_group {f : Encoder → Except PyError Encoder} {children : Tree}
    (h : ∀ e, children.calls.foldlM Encoder.call e = f e >>= Forest.nil.calls.foldlM Encoder.call) (e : Encoder)
    (nr : ℕ) (cls : Option TagClass) (next : Tree) :
    (Forest.node (nr, cls) children next).calls.foldlM Encoder.call e =
      (e.enter nr cls >>= fun e => f e >>= Encoder.leave) >>= next.calls.foldlM Encoder.call := by
  have hnil : ∀ e, f e >>= Forest.nil.calls.foldlM Encoder.call = f e := fun e => bind_pure (f e)
  rw [foldlM_node]
  simp only [h, hnil, bind_assoc]

mutual

/-- **The calls for a filter** are those of its tree, unless there is a `NOT`. -/
theorem encodeFilter_eq : ∀ (f : Filter) (e : Encoder) (next : Tree), f.negated = false →
    (f.tree next).calls.foldlM Encoder.call e = encodeFilter e f >>= next.calls.foldlM Encoder.call
  | .and terms, e, next, h => foldlM_group (fun e => encodeTerms_eq terms e .nil h) e 0 _ next
  | .or terms, e, next, h => foldlM_group (fun e => encodeTerms_eq terms e .nil h) e 1 _ next
  | .equals type value, e, next, _ => foldlM_item e 3 [type, value] next
  | .lte type value, e, next, _ => foldlM_item e 5 [type, value] next
  | .gte type value, e, next, _ => foldlM_item e 6 [type, value] next
  | .present type, e, next, _ => foldlM_item e 7 [type] next
  | .approx type value, e, next, _ => foldlM_item e 8 [type, value] next

/-- So do terms without a negation. -/
theorem encodeTerms_eq : ∀ (fs : Terms) (e : Encoder) (next : Tree), fs.negated = false →
    (fs.tree next).calls.foldlM Encoder.call e = encodeTerms e fs >>= next.calls.foldlM Encoder.call
  | .one f, e, next, h => encodeFilter_eq f e next h
  | .cons f fs, e, next, h => by
      obtain ⟨hf, hfs⟩ := Bool.or_eq_false_iff.mp h
      rw [Terms.tree, encodeFilter_eq f e _ hf, encodeTerms, bind_assoc]
      exact bind_congr fun e => encodeTerms_eq fs e next hfs

end

/-! ## What a call may raise -/

/-- The encoder has `outer` below what it emits, and `C` holds; a call raises nothing but an assertion, or what `E`
allows. -/
abbrev Builds (outer : List (List Bytes)) (C : Prop) (E : PyError → Prop) : Except PyError Encoder → Prop :=
  Outcome (fun e => C ∧ ∃ top, e = ⟨some ⟨top, outer⟩⟩) fun err => err = .assertionError ∨ E err

variable {C : Prop} {E : PyError → Prop} {x : Except PyError Encoder} {α : Type} {P : α → Prop}

/-- Whatever is built behind a length is built with it. -/
theorem builds_emitLength {f : List Bytes → Except PyError α} {Q : PyError → Prop} (n : ℕ)
    (hq : Q .assertionError) (hf : ∀ length, Outcome P Q (f length)) : Outcome P Q (emitLength n >>= f) := by
  refine Outcome.bind (P := fun _ => True) ?_ fun length _ => hf length
  unfold emitLength
  exact .ite (fun _ => trivial) fun _ => .ite (fun _ => trivial) fun _ => hq

/-- What is done with an encoder that was built. -/
theorem Builds.next {Q : PyError → Prop} {f : Encoder → Except PyError α} (hx : Builds outer C E x)
    (hq : ∀ err, err = .assertionError ∨ E err → Q err) (hf : C → ∀ top, Outcome P Q (f ⟨some ⟨top, outer⟩⟩)) :
    Outcome P Q (x >>= f) := by
  refine (hx.mono (fun _ h => h) hq).bind fun e he => ?_
  obtain ⟨hc, top, rfl⟩ := he
  exact hf hc top

/-- `enter` in an encoder that is started. -/
theorem enter_started (top : List Bytes) (outer : List (List Bytes)) (nr : ℕ) (cls : Option TagClass) :
    Encoder.enter ⟨some ⟨top, outer⟩⟩ nr cls =
      .ok ⟨some ⟨[], (top ++ emitTag nr .constructed (cls.getD .universal)) :: outer⟩⟩ := rfl

/-- `leave` puts what is inside behind what is outside. -/
theorem builds_leave (hc : C) (top t : List Bytes) (outer : List (List Bytes)) :
    Builds outer C E (Encoder.leave ⟨some ⟨top, t :: outer⟩⟩) :=
  builds_emitLength _ (.inl rfl) fun _ => ⟨hc, _, rfl⟩

/-- A value with its bytes. -/
theorem builds_write {value : Value} {nr : Option ℕ} {bytes : Bytes} (top : List Bytes) (outer : List (List Bytes))
    (hvalue : encodeValue (nr.getD value.defaultNr) value = .ok bytes) :
    Builds outer True E (Encoder.write ⟨some ⟨top, outer⟩⟩ value nr none none) := by
  simp only [Encoder.write, Encoder.stack, ok_bind, hvalue]
  exact builds_emitLength _ (.inl rfl) fun _ => ⟨trivial, _, rfl⟩

/-- Numbers can be written. -/
theorem builds_int {nr : ℕ} (h : nr = Integer ∨ nr = Enumerated) (v : ℤ) (top : List Bytes)
    (outer : List (List Bytes)) : Builds outer True E (Encoder.write ⟨some ⟨top, outer⟩⟩ (.int v) (some nr) none none) := by
  have hvalue : encodeValue nr (.int v) = .ok (fixed (extra v + 1) (v % 256 ^ (extra v + 1)).toNat) := by
    rw [encodeValue, if_pos h]
    exact encodeInteger_eq v
  exact builds_write top outer hvalue

/-- Strings can be written. -/
theorem builds_strings (ss : List Bytes) (top : List Bytes) (outer : List (List Bytes)) :
    Builds outer True E (ss.foldlM (fun e s => e.put (.str s)) ⟨some ⟨top, outer⟩⟩) := by
  induction ss generalizing top with
  | nil => exact ⟨trivial, top, rfl⟩
  | cons s ss ih =>
      rw [List.foldlM_cons]
      refine (@builds_write _ _ _ s top outer rfl).bind fun e he => ?_
      obtain ⟨-, top', rfl⟩ := he
      exact ih top'

/-- What is done in a constructed value. -/
theorem builds_group {f : Encoder → Except PyError Encoder} (nr : ℕ) (cls : Option TagClass)
    (hf : ∀ top outer, Builds outer C E (f ⟨some ⟨top, outer⟩⟩)) (top : List Bytes) (outer : List (List Bytes)) :
    Builds outer C E (Encoder.enter ⟨some ⟨top, outer⟩⟩ nr cls >>= fun e => f e >>= Encoder.leave) := by
  simp only [Encoder.enter, Encoder.stack, ok_bind, pure_eq]
  refine (hf [] _).bind fun e he => ?_
  obtain ⟨hc, top', rfl⟩ := he
  exact builds_leave hc top' _ outer

/-- An item is built. -/
theorem builds_item (nr : ℕ) (ss : List Bytes) (top : List Bytes) (outer : List (List Bytes)) :
    Builds outer True E (encodeItem ⟨some ⟨top, outer⟩⟩ nr ss) :=
  builds_group nr _ (builds_strings ss) top outer

/-- A filter raises nothing else than its `NOT`, and is not written if it has one. -/
abbrev Wrote (outer : List (List Bytes)) (negated : Bool) : Except PyError Encoder → Prop :=
  Builds outer (negated = false) fun err => negated = true ∧ err = .unboundLocalError

/-- An item is written. -/
theorem wrote_item (nr : ℕ) (ss : List Bytes) (top : List Bytes) (outer : List (List Bytes)) :
    Wrote outer false (encodeItem ⟨some ⟨top, outer⟩⟩ nr ss) :=
  (builds_item nr ss top outer).imp fun _ h => ⟨rfl, h.2⟩

mutual

/-- A filter is written, unless there is a negation in it. -/
theorem wrote_filter : ∀ (f : Filter) (top : List Bytes) (outer : List (List Bytes)),
    Wrote outer f.negated (encodeFilter ⟨some ⟨top, outer⟩⟩ f)
  | .and terms, top, outer => builds_group 0 _ (wrote_terms terms) top outer
  | .or terms, top, outer => builds_group 1 _ (wrote_terms terms) top outer
  | .not _, _, _ => .inr ⟨rfl, rfl⟩
  | .equals type value, top, outer => wrote_item 3 [type, value] top outer
  | .lte type value, top, outer => wrote_item 5 [type, value] top outer
  | .gte type value, top, outer => wrote_item 6 [type, value] top outer
  | .present type, top, outer => wrote_item 7 [type] top outer
  | .approx type value, top, outer => wrote_item 8 [type, value] top outer

/-- So are terms. -/
theorem wrote_terms : ∀ (fs : Terms) (top : List Bytes) (outer : List (List Bytes)),
    Wrote outer fs.negated (encodeTerms ⟨some ⟨top, outer⟩⟩ fs)
  | .one f, top, outer => wrote_filter f top outer
  | .cons f fs, top, outer => by
      have hfirst : Builds outer (f.negated = false) (fun err => (f.negated || fs.negated) = true ∧
          err = .unboundLocalError) (encodeFilter ⟨some ⟨top, outer⟩⟩ f) :=
        (wrote_filter f top outer).mono (fun _ h => h) fun _ h => h.imp_right fun h => ⟨by simp [h.1], h.2⟩
      refine hfirst.bind fun e he => ?_
      obtain ⟨hf, top', rfl⟩ := he
      refine (wrote_terms fs top' outer).mono (fun _ h => ⟨?_, h.2⟩) fun _ h => h.imp_right fun h => ⟨?_, h.2⟩
      · show (f.negated || fs.negated) = false
        rw [hf, h.1, Bool.or_false]
      · show (f.negated || fs.negated) = true
        rw [h.1, Bool.or_true]

end

/-! ## Requests -/

/-- The text of the filter. -/
def filterText (filter : Option Bytes) : Bytes := filter.getD (ascii "(objectClass=*)")

/-- What a request says. -/
def requestTree (dn : Bytes) (f : Filter) (o : SearchOptions) : Tree :=
  .node (Sequence, none) (.leaf (plain (.int (o.msgid.getD 1))) (.node (3, some .application)
    (.leaf (plain (.str dn)) (.leaf ⟨.int (o.scope.getD SCOPE_SUBTREE), some Enumerated, none, none⟩
      (.leaf ⟨.int (o.deref.getD DEREF_NEVER), some Enumerated, none, none⟩
        (.leaf (plain (.int (o.sizelimit.getD 0))) (.leaf (plain (.int (o.timelimit.getD 0)))
          (.leaf ⟨.bool (o.typesonly.getD false), some Boolean, none, none⟩
            (f.tree (.node (Sequence, none) (stringsTree .nil (o.attrs.getD [])) .nil)))))))) .nil)) .nil

/-- A value in front of other calls. -/
theorem foldlM_leaf (e : Encoder) (w : Write) (next : Tree) :
    (Forest.leaf w next).calls.foldlM Encoder.call e =
      e.write w.value w.nr w.typ w.cls >>= next.calls.foldlM Encoder.call := by
  rw [Forest.calls, List.foldlM_cons, call_leaf]

/-- No calls. -/
theorem foldlM_nil (e : Encoder) : (Forest.nil : Tree).calls.foldlM Encoder.call e = .ok e := rfl

variable {ply : Ply} {dn : Bytes} {filter : Option Bytes} {o : SearchOptions} {f : Filter}

/-- With a filter that is parsed, and has no `NOT`, the calls are those of the tree. -/
theorem createSearchRequest_of_parse (hparse : parse ply (filterText filter) = .ok f) (hf : f.negated = false) :
    createSearchRequest ply dn filter o = encode (requestTree dn f o).calls := by
  show (parse ply (filterText filter) >>= fun parsed => _) = _
  rw [hparse, ok_bind, encode, requestTree]
  simp only [foldlM_node, foldlM_leaf, encodeFilter_eq f _ _ hf, foldlM_strings, foldlM_nil, bind_assoc, ok_bind]
  rfl

/-- What comes of a request: its filter is parsed and has no `NOT`, or something is raised. -/
theorem createSearchRequest_outcome (ply : Ply) (dn : Bytes) (filter : Option Bytes) (o : SearchOptions) :
    Outcome (fun _ => ∃ f, parse ply (filterText filter) = .ok f ∧ f.negated = false)
      (fun err => err = .assertionError ∨ parse ply (filterText filter) = .error err ∨
        ∃ f, parse ply (filterText filter) = .ok f ∧ f.negated = true ∧ err = .unboundLocalError)
      (createSearchRequest ply dn filter o) := by
  show Outcome _ _ (parse ply (filterText filter) >>= fun parsed => _)
  cases hparse : parse ply (filterText filter) with
  | error err => exact .inr (.inl rfl)
  | ok f =>
      refine Outcome.mono (P := fun _ => f.negated = false)
        (Q := fun err => err = .assertionError ∨ f.negated = true ∧ err = .unboundLocalError) ?_
        (fun _ h => ⟨f, rfl, h⟩) fun err h => h.imp_right fun h => .inr ⟨f, rfl, h⟩
      have hassert : ∀ err : PyError, err = .assertionError ∨ False →
          err = .assertionError ∨ f.negated = true ∧ err = .unboundLocalError := fun _ => Or.imp_right False.elim
      simp only [ok_bind, Encoder.start, enter_started]
      refine Builds.next (builds_int (.inl rfl) _ _ _) hassert fun _ top => ?_
      simp only [enter_started, ok_bind]
      refine Builds.next (builds_write _ _ rfl) hassert fun _ top => ?_
      refine Builds.next (builds_int (.inr rfl) _ _ _) hassert fun _ top => ?_
      refine Builds.next (builds_int (.inr rfl) _ _ _) hassert fun _ top => ?_
      refine Builds.next (builds_int (.inl rfl) _ _ _) hassert fun _ top => ?_
      refine Builds.next (builds_int (.inl rfl) _ _ _) hassert fun _ top => ?_
      refine Builds.next (builds_write _ _ rfl) hassert fun _ top => ?_
      refine Builds.next (wrote_filter f _ _) (fun _ h => h) fun hf top => ?_
      simp only [enter_started, ok_bind]
      refine Builds.next (builds_strings _ _ _) hassert fun _ top => ?_
      refine Builds.next (builds_leave trivial _ _ _) hassert fun _ top => ?_
      refine Builds.next (builds_leave trivial _ _ _) hassert fun _ top => ?_
      refine Builds.next (builds_leave trivial _ _ _) hassert fun _ top => ?_
      exact hf

/-- **A request that is created** has a filter without `NOT`, and says what its tree says. -/
theorem createSearchRequest_eq_ok {bs : Bytes} (h : createSearchRequest ply dn filter o = .ok bs) :
    ∃ f, parse ply (filterText filter) = .ok f ∧ f.negated = false ∧ encode (requestTree dn f o).calls = .ok bs := by
  have hout := createSearchRequest_outcome ply dn filter o
  rw [h] at hout
  obtain ⟨f, hparse, hf⟩ := hout
  exact ⟨f, hparse, hf, (createSearchRequest_of_parse hparse hf).symm.trans h⟩

/-- **Filters with `NOT`** are parsed, but no request can be created with them. -/
theorem createSearchRequest_negated (hparse : parse ply (filterText filter) = .ok f) (hf : f.negated = true) :
    createSearchRequest ply dn filter o = .error .unboundLocalError ∨
      createSearchRequest ply dn filter o = .error .assertionError := by
  have hout := createSearchRequest_outcome ply dn filter o
  cases hres : createSearchRequest ply dn filter o with
  | ok bs =>
      rw [hres] at hout
      obtain ⟨g, hg, hnot⟩ := hout
      obtain rfl := Except.ok.inj (hparse.symm.trans hg)
      exact absurd hf (by simp [hnot])
  | error err =>
      rw [hres, hparse] at hout
      rcases hout with rfl | herr | ⟨g, -, -, rfl⟩
      · exact .inr rfl
      · exact absurd herr nofun
      · exact .inl rfl

/-- The request for the filter `(!(a=b))`. -/
theorem createSearchRequest_negated_not :
    createSearchRequest .plain [] (some (render (.not (.equals [97] [98])))) {} = .error .unboundLocalError ∨
      createSearchRequest .plain [] (some (render (.not (.equals [97] [98])))) {} = .error .assertionError :=
  createSearchRequest_negated (parse_render _ (by simp [Filter.Filled])) rfl

end Asenal.Ad
