import SchemaWire.Proofs.Agreement
import SchemaWire.Proofs.Locality
import SchemaWire.Proofs.RoundTrip
import SchemaWire.Proofs.WellFormed

/-!
# Failures that a model is to blame for

Most failures of the engine are due to the value or the octets that it is given. Two are due to the model whatever it is
given: a param whose flags and fields disagree, and one of exact length whose type has no length. Neither is seen where
all params are well formed (`blameless_encodeContainer`, `blameless_decodeContainer`), as those of compiled models are
(`isWellFormed_of_compiled`).
-/

namespace SchemaWire

/-- Whether a failure is due to a model alone. -/
def EngineError.BlamesModel : EngineError → Prop
  | .malformedParam .. => True
  | .strictMismatch .. => True
  | _ => False

/-- Whether no failure of an outcome is due to a model alone. -/
abbrev Blameless {α : Type} (x : Except EngineError α) : Prop :=
  FailsOnly (fun e => ¬e.BlamesModel) x

/-! ## Values -/

theorem Entry.blameless_encoded (e : Entry) : Blameless e.encoded :=
  .mapError _ fun _ => not_false

namespace Value

variable {param : String}

theorem blameless_mismatch {α : Type} (expected : Wanted) (v : Value) :
    Blameless (mismatch param expected v : Except EngineError α) :=
  .error not_false

theorem blameless_integer (type : Primitive) (v : Value) : Blameless (v.integer param type) := by
  unfold integer
  split
  · exact .ok _
  · split
    · exact .ok _
    · exact .error not_false
  · split
    · exact .ok _
    · exact blameless_mismatch _ _
  · exact blameless_mismatch _ _

theorem blameless_number (v : Value) : Blameless (v.number param) := by
  unfold number
  split
  · exact .ok _
  · exact .ok _
  · exact .ok _
  · exact blameless_mismatch _ _

theorem blameless_longInput (v : Value) : Blameless (v.longInput param) := by
  unfold longInput
  split
  · exact .ok _
  · exact .ok _
  · exact .ok _
  · exact (blameless_integer _ _).map _
  · exact blameless_mismatch _ _

theorem blameless_octets (v : Value) : Blameless (v.octets param) := by
  unfold octets
  split
  · exact .ok _
  · split
    · split
      · exact .ok _
      · exact .error not_false
    · exact .ok _
  · split
    · exact .ok _
    · exact .error not_false
  · exact .error not_false

theorem blameless_entry (type : Primitive) (v : Value) : Blameless (v.entry param type) := by
  cases type with
  | int => exact (blameless_integer _ v).map _
  | uint => exact (blameless_integer _ v).map _
  | short => exact (blameless_integer _ v).map _
  | ushort => exact (blameless_integer _ v).map _
  | float => exact (blameless_number v).map _
  | double => exact (blameless_number v).map _
  | long => exact (blameless_longInput v).map _
  | ulong => exact (blameless_longInput v).map _
  | bool =>
    cases v with
    | bool b => exact .ok _
    | _ => exact blameless_mismatch _ _
  | string =>
    cases v with
    | string text => exact .ok _
    | _ => exact blameless_mismatch _ _
  | bytes => exact (blameless_octets v).map _

theorem blameless_strictEntry {type : Primitive} (htype : type = .string ∨ type = .bytes) (size : UInt32) (v : Value) :
    Blameless (v.strictEntry param type size) := by
  rcases htype with rfl | rfl
  · cases v with
    | string text =>
      simp only [strictEntry]
      split
      · exact .ok _
      · exact .error not_false
    | _ => exact blameless_mismatch _ _
  · refine (blameless_octets v).bind fun given _ => ?_
    split
    · exact .ok _
    · exact .error not_false

end Value

/-- Whether all params of a registry are well formed. -/
def Registry.IsWellFormed (r : Registry) : Prop :=
  ∀ c ∈ r.containers, ∀ p ∈ c.params, p.IsWellFormed

namespace Registry

variable {r : Registry}

/-! ## Encoding -/

section Encoding

variable {nested : NestedEncoder} (hnested : ∀ param v, Blameless (nested param v))
include hnested

theorem blameless_encodeItems (param : String) (item : VectorItem) (items : List Value) :
    Blameless (encodeItems nested param item items) := by
  refine (Entry.blameless_encoded _).bind fun count _ => .bind (.mapM fun v _ => ?_) fun parts _ => .ok _
  cases item with
  | primitive type => exact (Value.blameless_entry type v).bind fun entry _ => entry.blameless_encoded
  | container reference => exact hnested param v

theorem blameless_encodeShape (containerName param : String) (field : Option Value) {shape : Shape}
    (hshape : shape.SizeApplies) : Blameless (encodeShape nested containerName param field shape) := by
  cases shape with
  | primitive type =>
    cases field with
    | none => exact Entry.blameless_encoded _
    | some v => exact (Value.blameless_entry type v).bind fun entry _ => entry.blameless_encoded
  | strict type size =>
    cases field with
    | none => exact .error not_false
    | some v => exact (Value.blameless_strictEntry hshape size v).bind fun entry _ => entry.blameless_encoded
  | vector item =>
    cases field with
    | none => exact .error not_false
    | some v =>
      cases v with
      | array items => exact blameless_encodeItems hnested param item items
      | _ => exact Value.blameless_mismatch _ _
  | reference reference =>
    cases field with
    | none => exact .error not_false
    | some v => exact hnested param v

theorem blameless_encodeParam (containerName : String) (v : Value) {p : Param} (hp : p.IsWellFormed) :
    Blameless (encodeParam nested containerName v p) := by
  obtain ⟨shape, hshape, hsize⟩ := hp.exists_shape
  have hpresent (field : Option Value) : Blameless (encodePresent nested containerName p field) := by
    rw [encodePresent, hshape]
    exact blameless_encodeShape hnested containerName p.name field hsize
  unfold encodeParam
  by_cases hoptional : p.isOptional = true
  · simp only [if_pos hoptional]
    cases (v.get? p.name).filter fun x => !x.isNull with
    | none => exact .ok _
    | some field => exact (hpresent (some field)).map _
  · simp only [if_neg hoptional]
    exact hpresent _

end Encoding

theorem blameless_named (param : String) (v : Value) : Blameless (r.named param v) := by
  have hlookup (name : String) : Blameless (r.named param (.string name)) := by
    cases hc : r.container? name with
    | some c =>
      simp only [named, pure_bind, hc]
      exact .ok c
    | none =>
      simp only [named, pure_bind, hc]
      exact .error not_false
  cases v with
  | string name => exact hlookup name
  | object fields =>
    cases hname : (Value.object fields).name? with
    | some name =>
      have hsame : r.named param (.object fields) = r.named param (.string name) := by simp only [named, hname]
      rw [hsame]
      exact hlookup name
    | none =>
      simp only [named, hname]
      exact .error not_false
  | _ => exact .error not_false

/-- No failure to encode is due to the model where params are well formed. By induction on the levels. -/
theorem blameless_encodeContainer (hr : r.IsWellFormed) (levels : Nat) {c : Container} (hc : c ∈ r.containers)
    (v : Value) : Blameless (r.encodeContainer levels c v) := by
  induction levels generalizing c v with
  | zero => exact .error not_false
  | succ levels ih =>
    refine .bind (.mapM fun p hp => blameless_encodeParam ?_ c.name v (hr c hc p hp)) fun parts _ => .ok _
    intro param w
    refine (blameless_named param w).bind fun d hd => ?_
    exact ih (mem_of_containerOf? (named_eq_ok_iff.mp hd)) w

theorem blameless_encode (hr : r.IsWellFormed) (v : Value) : Blameless (r.encode v) := by
  refine (blameless_named "root" v).bind fun c hc => ?_
  exact blameless_encodeContainer hr _ (mem_of_containerOf? (named_eq_ok_iff.mp hc)) v

theorem blameless_encodeNamed (hr : r.IsWellFormed) (name : String) (v : Value) : Blameless (r.encodeNamed name v) := by
  unfold encodeNamed
  split
  · rename_i c hc
    exact blameless_encodeContainer hr _ (container?_eq_some_iff.mp hc).1 v
  · exact .error not_false

end Registry

/-! ## Decoding -/

/-- Whether no failure of a decoder is due to a model alone. -/
def Decoder.Blameless {α : Type} (d : Decoder α) : Prop :=
  ∀ place, FailsOnly (fun failure => ¬failure.error.BlamesModel) (d.run place)

namespace Decoder

variable {α β : Type} {d : Decoder α}

theorem blameless_pure (a : α) : (pure a : Decoder α).Blameless :=
  fun _ => .ok _

theorem blameless_fail {e : EngineError} (he : ¬e.BlamesModel) : (fail e : Decoder α).Blameless :=
  fun _ => .error he

theorem blameless_read (f : Reader → Except WireError (α × Reader)) : (read f).Blameless :=
  fun _ => .mapError _ fun _ => not_false

theorem Blameless.bind (hd : d.Blameless) {k : α → Decoder β} (hk : ∀ a, (k a).Blameless) : (d >>= k).Blameless := by
  intro place
  rw [StateT.run_bind]
  exact (hd place).bind fun a _ => hk a.1 a.2

theorem Blameless.map (hd : d.Blameless) (f : α → β) : (do return f (← d) : Decoder β).Blameless :=
  hd.bind fun a => blameless_pure (f a)

theorem Blameless.times (hd : d.Blameless) (n : Nat) : (times n d).Blameless := by
  induction n with
  | zero => exact blameless_pure []
  | succ n ih => exact hd.bind fun first => ih.map (first :: ·)

end Decoder

namespace Registry

open Decoder

variable {r : Registry} {nested : Decoder Value}

theorem blameless_decodePrimitive (type : Primitive) : (decodePrimitive type).Blameless := by
  cases type <;> exact (blameless_read _).map _

theorem blameless_decodeReference (hnested : nested.Blameless) (reference param : String) :
    (r.decodeReference nested reference param).Blameless := by
  refine Blameless.bind (fun place => ?_) fun _ => hnested
  rw [run_checkHeader]
  split
  · split
    · exact .error not_false
    · split
      · exact .ok _
      · exact .error not_false
  · exact .ok _

theorem blameless_decodeShape (hnested : nested.Blameless) (param : String) (shape : Shape) :
    (r.decodeShape nested param shape).Blameless := by
  have hreference := blameless_decodeReference (r := r) hnested
  cases shape with
  | primitive type => exact blameless_decodePrimitive type
  | strict type size => cases type <;> exact (blameless_read _).map _
  | vector item =>
    refine (blameless_read _).bind fun count => ?_
    cases item with
    | primitive type => exact ((blameless_decodePrimitive type).times count).map _
    | container reference => exact ((hreference reference param).times count).map _
  | reference reference => exact hreference reference param

theorem blameless_decodeParam (hnested : nested.Blameless) (containerName : String) {p : Param} (hp : p.IsWellFormed) :
    (r.decodeParam nested containerName p).Blameless := by
  obtain ⟨shape, hshape, _⟩ := hp.exists_shape
  have hpresent := (blameless_decodeShape (r := r) hnested p.name shape).map some
  rw [decodeParam, hshape]
  by_cases hoptional : p.isOptional = true
  · rw [if_pos hoptional]
    refine (blameless_read _).bind fun there => ?_
    cases there with
    | false => exact blameless_pure none
    | true => exact hpresent
  · rw [if_neg hoptional]
    exact hpresent

theorem blameless_decodeParams (hnested : nested.Blameless) (containerName : String) {params : List Param}
    (hparams : ∀ p ∈ params, p.IsWellFormed) : (r.decodeParams nested containerName params).Blameless := by
  induction params with
  | nil => exact blameless_pure []
  | cons p rest ih =>
    rw [List.forall_mem_cons] at hparams
    exact (blameless_decodeParam hnested containerName hparams.1).bind fun value => (ih hparams.2).map _

/-- No failure to decode is due to the model where params are well formed. By induction on the levels. -/
theorem blameless_decodeContainer (hr : r.IsWellFormed) (levels : Nat) : (r.decodeContainer levels).Blameless := by
  induction levels with
  | zero => exact blameless_fail not_false
  | succ levels ih =>
    refine (blameless_read _).bind fun id => ?_
    cases hc : r.containerOfId? id with
    | none => exact blameless_fail not_false
    | some c => exact (blameless_decodeParams ih c.name (hr c (containerOfId?_eq_some_iff.mp hc).1)).map _

theorem blameless_decode (hr : r.IsWellFormed) (octets : Bytes) : SchemaWire.Blameless (r.decode octets) := by
  have hrun := blameless_decodeContainer hr (r.config.maxDepth + 1) (.ofBytes octets)
  unfold decode decodeFrom
  cases h : (r.decodeContainer (r.config.maxDepth + 1)).run (.ofBytes octets) with
  | ok result => exact .ok _
  | error failure => exact .error (hrun failure h)

end Registry

/-! ## Compiled models -/

/-- Whether a model is that of a source. -/
def Model.IsCompiled (m : Model) : Prop :=
  ∃ (session next : Session) (source : List Char), session.compile source = (.ok m, next)

theorem Registry.isWellFormed_of_compiled {models : List Model} {config : Config} {r : Registry}
    (hmodels : ∀ m ∈ models, m.IsCompiled) (h : ofModels models config = .ok r) : r.IsWellFormed := by
  intro c hc
  rw [(ofContainers_eq_ok_iff.mp h).1] at hc
  obtain ⟨m, hm, hc⟩ := List.mem_flatMap.mp hc
  obtain ⟨session, next, source, hcompile⟩ := hmodels m hm
  exact (Session.isWellFormed_of_compile hcompile).1 c hc

/-- All params of a compiled source are well formed and have a layout. Qualifying keeps this, and changes nothing in the
layout but references. So no failure of an engine over compiled models is due to the models. -/
theorem blameless_of_compiled :
    (∀ (session next : Session) (source : List Char) (m : Model), session.compile source = (.ok m, next) →
      (∀ c ∈ m.containers, ∀ p ∈ c.params, p.IsWellFormed ∧ p.shape?.isSome) ∧
        ∀ d ∈ next.traits, ∀ p ∈ d.params, p.IsWellFormed ∧ p.shape?.isSome) ∧
    (∀ (s : Scope) (spaceName : String) (p : Param),
      (p.IsWellFormed → (s.qualifyParam spaceName p).IsWellFormed) ∧
        (s.qualifyParam spaceName p).shape? = p.shape?.map (s.qualifyShape spaceName)) ∧
    ∀ (models : List Model) (config : Config) (r : Registry), (∀ m ∈ models, m.IsCompiled) →
      Registry.ofModels models config = .ok r →
        (∀ v, Blameless (r.encode v)) ∧ (∀ name v, Blameless (r.encodeNamed name v)) ∧
          ∀ octets, Blameless (r.decode octets) := by
  have hshape {p : Param} (hp : p.IsWellFormed) : p.IsWellFormed ∧ p.shape?.isSome := by
    obtain ⟨shape, hshape, _⟩ := hp.exists_shape
    exact ⟨hp, hshape ▸ rfl⟩
  refine ⟨fun session next source m h => ?_, fun s spaceName p => ?_, fun models config r hmodels h => ?_⟩
  · obtain ⟨hcontainers, htraits⟩ := Session.isWellFormed_of_compile h
    exact ⟨fun c hc p hp => hshape (hcontainers c hc p hp), fun d hd p hp => hshape (htraits d hd p hp)⟩
  · exact ⟨Scope.isWellFormed_qualifyParam, Scope.shape?_qualifyParam p⟩
  · have hr := Registry.isWellFormed_of_compiled hmodels h
    exact ⟨Registry.blameless_encode hr, Registry.blameless_encodeNamed hr, Registry.blameless_decode hr⟩

/-- A source with a value of exact length, and the registry of its model. -/
theorem blameless_of_compiled_node :
    ∃ m next r, Session.initial.compile "node : Node -> id: bytes[4];".toList = (.ok m, next) ∧
      Registry.ofModels [m] ⟨true, 128⟩ = .ok r ∧ m.containers.map Container.name = ["node"] ∧
        (∀ c ∈ m.containers, ∀ p ∈ c.params, p.IsWellFormed) ∧ ∀ octets, Blameless (r.decode octets) := by
  let path (text : String) (span : Span) : TypePath := ⟨[⟨text, span⟩], span⟩
  let sized : TypeName := .sized ⟨⟨"bytes", ⟨19, 24⟩⟩, ⟨4, ⟨25, 26⟩⟩, ⟨19, 27⟩⟩
  let d : Declaration := ⟨path "node" ⟨0, 4⟩, path "Node" ⟨7, 11⟩,
    [.property ⟨⟨"id", ⟨15, 17⟩⟩, false, .single sized, ⟨15, 27⟩⟩], ⟨0, 28⟩⟩
  let tree : Schema := ⟨[.declaration d], ⟨0, 28⟩⟩
  let c : Container := ((Container.make "node" "Node").withParams
    [(Param.ofShape "id" (.strict .bytes 4)).setOptional false]).withDoc []
  have htree : Schema.ofSource "node : Node -> id: bytes[4];".toList = .ok tree := by
    let ahead : Parser.Tokens :=
      [⟨.ident "node", ⟨0, 4⟩⟩, ⟨.mark .colon, ⟨5, 6⟩⟩, ⟨.ident "Node", ⟨7, 11⟩⟩, ⟨.mark .arrow, ⟨12, 14⟩⟩,
        ⟨.ident "id", ⟨15, 17⟩⟩, ⟨.mark .colon, ⟨17, 18⟩⟩, ⟨.ident "bytes", ⟨19, 24⟩⟩, ⟨.mark .leftBracket, ⟨24, 25⟩⟩,
        ⟨.integer 4, ⟨25, 26⟩⟩, ⟨.mark .rightBracket, ⟨26, 27⟩⟩, ⟨.mark .semicolon, ⟨27, 28⟩⟩]
    have hlex : lex "node : Node -> id: bytes[4];".toList = .ok (ahead ++ [⟨.eof, ⟨28, 28⟩⟩]) := by cbv
    have hitem : Parser.keywordItem ahead = .ok (.declaration d, []) := by cbv
    have hread : Parser.readItems false (Located.beforeEof (ahead ++ [⟨.eof, ⟨28, 28⟩⟩])) =
        .ok ([.declaration d], []) := by
      have hbefore : Located.beforeEof (ahead ++ [⟨.eof, ⟨28, 28⟩⟩]) = ahead := rfl
      rw [hbefore, Parser.readItems_keywordItem rfl (by decide) hitem, Parser.readItems_nil]
      rfl
    rw [Schema.ofSource, hlex]
    show (Schema.ofTokens (ahead ++ [⟨.eof, ⟨28, 28⟩⟩])).mapError _ = _
    rw [Parser.ofTokens_of_readItems hread]
    rfl
  have hlower : tree.lower.result = .ok [c.assignId] := by
    have hsized : AliasTable.empty.resolve sized = .ok (.strict .bytes 4) :=
      AliasTable.resolve_eq_ok_iff.mpr (.strict (.primitive rfl (by decide)) (.inr rfl) (by decide))
    have hitems : AliasTable.empty.lowerItems [] tree.body = .ok ⟨[(c, ⟨0, 4⟩)], []⟩ := by
      simp only [tree, AliasTable.lowerItems, AliasTable.lowerDeclaration, d, AliasTable.lowerBody,
        AliasTable.lowerProperty, AliasTable.shape, hsized]
      rfl
    have haliases : AliasTable.empty.entries = Item.aliases tree.body := by
      simp [AliasTable.empty, tree, Item.aliases, Item.flatten]
    exact Schema.lower_result_eq_ok_iff.mpr ⟨.empty, _, haliases, rfl, hitems, List.nodup_singleton _, rfl⟩
  have hcompile : Session.initial.compile "node : Node -> id: bytes[4];".toList =
      (.ok ⟨[c.assignId]⟩, ⟨tree.lower.aliases, tree.lower.traits⟩) :=
    Session.compile_eq_ok_iff.mpr ⟨tree, htree, hlower ▸ rfl⟩
  obtain ⟨r, hr⟩ : ∃ r, Registry.ofModels [⟨[c.assignId]⟩] ⟨true, 128⟩ = .ok r := ⟨_, rfl⟩
  obtain ⟨hwell, _, hblameless⟩ := blameless_of_compiled
  refine ⟨_, _, r, hcompile, hr, rfl, fun c hc p hp => ((hwell _ _ _ _ hcompile).1 c hc p hp).1, ?_⟩
  exact (hblameless _ _ _ (by simpa using ⟨_, _, _, hcompile⟩) hr).2.2

end SchemaWire
