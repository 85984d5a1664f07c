import SchemaWire.Proofs.Binding
import SchemaWire.Proofs.Naming

/-!
# Well-formed params

The flags and fields of a stored param may disagree. Lowering makes no such params: each has one kind, the fields of
this kind and no others, and a namespace that closes qualifies names but leaves kinds alone (`shape?_qualifyParam`). So
all params in the containers and traits of a compiled source are well formed (`isWellFormed_of_compile`).
-/

namespace SchemaWire

/-- Whether nothing but text and octets has an exact length. -/
def Shape.SizeApplies : Shape → Prop
  | .strict type _ => type = .string ∨ type = .bytes
  | _ => True

/-- A param of one kind that has the fields of this kind and no others. -/
structure Param.IsWellFormed (p : Param) : Prop where
  kind : p.flags.kind = .primitive ∨ p.flags.kind = .vector ∨ p.flags.kind = .nested
  strict : p.flags.contains .strictSize = true →
    p.flags.kind = .primitive ∧ (p.primitive = some .string ∨ p.primitive = some .bytes)
  primitive : p.primitive.isSome ↔ p.flags.kind = .primitive
  vectorOf : p.vectorOf.isSome ↔ p.flags.kind = .vector
  reference : p.reference.isSome ↔ p.flags.kind = .nested
  size : p.size.isSome ↔ p.flags.contains .strictSize = true

/-! ## Layouts -/

namespace Param

variable {p q : Param}

theorem IsWellFormed.exists_shape (h : p.IsWellFormed) : ∃ s, p.shape? = some s ∧ s.SizeApplies := by
  unfold shape?
  by_cases hstrict : p.flags.contains .strictSize = true
  · obtain ⟨hkind, htype⟩ := h.strict hstrict
    obtain ⟨size, hsize⟩ := Option.isSome_iff_exists.mp (h.size.mpr hstrict)
    rw [if_pos hkind, if_pos hstrict, hsize]
    rcases htype with htype | htype
    · exact ⟨.strict .string size, by rw [htype]; rfl, .inl rfl⟩
    · exact ⟨.strict .bytes size, by rw [htype]; rfl, .inr rfl⟩
  · rcases h.kind with hkind | hkind | hkind
    · obtain ⟨type, htype⟩ := Option.isSome_iff_exists.mp (h.primitive.mpr hkind)
      rw [if_pos hkind, if_neg hstrict, htype]
      exact ⟨_, rfl, trivial⟩
    · obtain ⟨item, hitem⟩ := Option.isSome_iff_exists.mp (h.vectorOf.mpr hkind)
      rw [if_neg (by rw [hkind]; decide), if_neg hstrict, if_pos hkind, hitem]
      exact ⟨_, rfl, trivial⟩
    · obtain ⟨target, htarget⟩ := Option.isSome_iff_exists.mp (h.reference.mpr hkind)
      rw [if_neg (by rw [hkind]; decide), if_neg hstrict, if_neg (by rw [hkind]; decide), if_pos hkind, htarget]
      exact ⟨_, rfl, trivial⟩

theorem isWellFormed_ofShape (name : String) {s : Shape} (hs : s.SizeApplies) : (ofShape name s).IsWellFormed := by
  have plain : ParamFlags.primitive.kind = .primitive ∧ ParamFlags.primitive.contains .strictSize = false ∧
      ParamFlags.primitive ≠ .vector ∧ ParamFlags.primitive ≠ .nested := by
    decide
  have strict : (ParamFlags.primitive.union .strictSize).kind = .primitive ∧
      (ParamFlags.primitive.union .strictSize).contains .strictSize = true := by
    decide
  have vector : ParamFlags.vector.kind = .vector ∧ ParamFlags.vector.contains .strictSize = false ∧
      ParamFlags.vector ≠ .primitive ∧ ParamFlags.vector ≠ .nested := by
    decide
  have nested : ParamFlags.nested.kind = .nested ∧ ParamFlags.nested.contains .strictSize = false ∧
      ParamFlags.nested ≠ .primitive ∧ ParamFlags.nested ≠ .vector := by
    decide
  cases s with
  | primitive type => constructor <;> simp [ofShape, bare, plain]
  | strict type size =>
    have htype : type = .string ∨ type = .bytes := hs
    constructor <;> simp [ofShape, bare, strict, plain, htype]
  | vector item => constructor <;> simp [ofShape, bare, vector]
  | reference target => constructor <;> simp [ofShape, bare, nested]

/-- The names in a param are no matter, nor is whether its value may be absent. -/
theorem IsWellFormed.congr (h : p.IsWellFormed) (hkind : q.flags.kind = p.flags.kind)
    (hstrict : q.flags.contains .strictSize = p.flags.contains .strictSize) (hprimitive : q.primitive = p.primitive)
    (hvectorOf : q.vectorOf.isSome = p.vectorOf.isSome) (hreference : q.reference.isSome = p.reference.isSome)
    (hsize : q.size = p.size) : q.IsWellFormed where
  kind := by rw [hkind]; exact h.kind
  strict := by rw [hkind, hstrict, hprimitive]; exact h.strict
  primitive := by rw [hkind, hprimitive]; exact h.primitive
  vectorOf := by rw [hkind, hvectorOf]; exact h.vectorOf
  reference := by rw [hkind, hreference]; exact h.reference
  size := by rw [hstrict, hsize]; exact h.size

end Param

/-! ## Qualified names -/

namespace Scope

variable {s u : Scope} {spaceName : String}

/-- A layout with its references qualified. -/
def qualifyShape (s : Scope) (spaceName : String) : Shape → Shape
  | .vector (.container target) => .vector (.container (s.qualifyReference spaceName target))
  | .reference target => .reference (s.qualifyReference spaceName target)
  | shape => shape

/-- Qualifying the fields of a param qualifies its layout: items that are containers remain containers, and items that
are primitive values remain as they are. -/
theorem shape?_qualifyParam (p : Param) :
    (s.qualifyParam spaceName p).shape? = p.shape?.map (s.qualifyShape spaceName) := by
  have hitem (name : String) : Shape.vector (.ofName (if (Primitive.ofName? name).isNone then
      s.qualifyReference spaceName name else name)) = s.qualifyShape spaceName (.vector (.ofName name)) := by
    cases h : Primitive.ofName? name with
    | none => simp [VectorItem.ofName, h, Block.ofName?_qualifyReference h, qualifyShape]
    | some type => simp [VectorItem.ofName, h, qualifyShape]
  unfold Param.shape?
  simp only [qualifyParam, apply_ite (Option.map (s.qualifyShape spaceName)), Option.map_map, Function.comp_def, hitem]
  cases p.primitive <;> cases p.size <;> rfl

theorem isWellFormed_qualifyParam {p : Param} (h : p.IsWellFormed) : (s.qualifyParam spaceName p).IsWellFormed :=
  h.congr rfl rfl rfl Option.isSome_map Option.isSome_map rfl

/-! ## Lowered params -/

/-- Whether all params in a scope have a property. -/
structure AllParams (P : Param → Prop) (s : Scope) : Prop where
  containers : ∀ d ∈ s.containers, ∀ p ∈ d.1.params, P p
  traits : ∀ d ∈ s.traits, ∀ p ∈ d.params, P p

variable {P : Param → Prop}

theorem AllParams.append (hs : s.AllParams P) (hu : u.AllParams P) : (s.append u).AllParams P where
  containers := List.forall_mem_append.mpr ⟨hs.containers, hu.containers⟩
  traits := List.forall_mem_append.mpr ⟨hs.traits, hu.traits⟩

theorem AllParams.enclose (hqualify : ∀ p, P p → P (s.qualifyParam spaceName p)) (hs : s.AllParams P) :
    (s.enclose spaceName).AllParams P where
  containers := by
    simp only [Scope.enclose, qualifyContainer, List.forall_mem_map]
    exact fun d hd p hp => hqualify p (hs.containers d hd p hp)
  traits := by
    simp only [Scope.enclose, qualifyTrait, List.forall_mem_map]
    exact fun d hd p hp => hqualify p (hs.traits d hd p hp)

end Scope

namespace AliasTable

variable {t : AliasTable} {pending : List String}

section Params

/- A property that lowered properties have, and that qualifying keeps. -/
variable {P : Param → Prop} (hlower : ∀ doc p param, t.lowerProperty doc p = .ok param → P param)
include hlower

theorem allParams_of_lowerBody {body : List BodyEntry} {params : List Param}
    (h : t.lowerBody pending body = .ok params) : ∀ p ∈ params, P p := by
  induction pending, body using lowerBody.induct generalizing params with
  | case1 =>
    cases h
    simp
  | case2 pending c rest ih => exact ih h
  | case3 pending p rest ih =>
    obtain ⟨param, hparam, h⟩ := Except.bind_eq_ok_iff.mp h
    obtain ⟨more, hmore, h⟩ := Except.bind_eq_ok_iff.mp h
    cases h
    exact List.forall_mem_cons.mpr ⟨hlower _ _ _ hparam, ih hmore⟩

theorem allParams_of_lowerMembers {typeName : String} {traits groupDoc : List String} {body : List GroupMember}
    {members : List (Container × Span)} (h : t.lowerMembers typeName traits groupDoc pending body = .ok members) :
    ∀ d ∈ members, ∀ p ∈ d.1.params, P p := by
  induction pending, body using lowerMembers.induct generalizing members with
  | case1 =>
    cases h
    simp
  | case2 pending c rest ih => exact ih h
  | case3 pending c rest ih =>
    obtain ⟨params, hparams, h⟩ := Except.bind_eq_ok_iff.mp h
    obtain ⟨more, hmore, h⟩ := Except.bind_eq_ok_iff.mp h
    cases h
    exact List.forall_mem_cons.mpr ⟨allParams_of_lowerBody hlower hparams, ih hmore⟩

/-- What lowered properties have and qualifying keeps, all params of a scope have. -/
theorem allParams_of_lowerItems (hqualify : ∀ (s : Scope) spaceName p, P p → P (s.qualifyParam spaceName p))
    {items : List Item} {s : Scope} (h : t.lowerItems pending items = .ok s) : s.AllParams P := by
  have hnil : ∀ d ∈ ([] : List (Container × Span)), ∀ p ∈ d.1.params, P p := by simp
  have hnil' : ∀ d ∈ ([] : List Trait), ∀ p ∈ d.params, P p := by simp
  induction pending, items using lowerItems.induct generalizing s with
  | case1 =>
    rw [lowerItems] at h
    cases h
    exact ⟨hnil, hnil'⟩
  | case2 pending c rest ih =>
    rw [lowerItems] at h
    exact ih h
  | case3 pending d rest ih =>
    rw [lowerItems] at h
    obtain ⟨c, hc, h⟩ := Except.bind_eq_ok_iff.mp h
    obtain ⟨more, hmore, h⟩ := Except.bind_eq_ok_iff.mp h
    cases h
    obtain ⟨params, hparams, hc⟩ := Except.bind_eq_ok_iff.mp hc
    cases hc
    have hfirst := allParams_of_lowerBody hlower hparams
    exact Scope.AllParams.append ⟨List.forall_mem_singleton.mpr hfirst, hnil'⟩ (ih hmore)
  | case4 pending g rest ih =>
    rw [lowerItems] at h
    obtain ⟨members, hmembers, h⟩ := Except.bind_eq_ok_iff.mp h
    obtain ⟨more, hmore, h⟩ := Except.bind_eq_ok_iff.mp h
    cases h
    exact Scope.AllParams.append ⟨allParams_of_lowerMembers hlower hmembers, hnil'⟩ (ih hmore)
  | case5 pending name body span rest ihbody ih =>
    rw [lowerItems] at h
    obtain ⟨inner, hinner, h⟩ := Except.bind_eq_ok_iff.mp h
    obtain ⟨more, hmore, h⟩ := Except.bind_eq_ok_iff.mp h
    cases h
    exact ((ihbody hinner).enclose (hqualify inner name.name)).append (ih hmore)
  | case6 pending d rest ih =>
    rw [lowerItems] at h
    obtain ⟨declared, hdeclared, h⟩ := Except.bind_eq_ok_iff.mp h
    obtain ⟨more, hmore, h⟩ := Except.bind_eq_ok_iff.mp h
    cases h
    obtain ⟨params, hparams, hdeclared⟩ := Except.bind_eq_ok_iff.mp hdeclared
    cases hdeclared
    have hfirst := allParams_of_lowerBody hlower hparams
    exact Scope.AllParams.append ⟨hnil, List.forall_mem_singleton.mpr hfirst⟩ (ih hmore)
  | case7 pending a rest ih =>
    rw [lowerItems] at h
    exact ih h

end Params

theorem StandsFor.sizeApplies {type : TypeName} {result : Except LoweringError Resolved} (h : t.StandsFor type result)
    {p : Primitive} {size : UInt32} (hresult : result = .ok (.strict p size)) : p = .string ∨ p = .bytes := by
  induction h with
  | followed _ _ _ _ ih => exact ih hresult
  | strict _ htype _ =>
    cases hresult
    exact htype
  | _ => cases hresult

theorem sizeApplies_of_shape {type : PropertyType} {s : Shape} (h : t.shape type = .ok s) : s.SizeApplies := by
  cases type with
  | single type =>
    obtain ⟨r, hr, h⟩ := Except.bind_eq_ok_iff.mp h
    cases r with
    | strict p size =>
      cases h
      exact (resolve_eq_ok_iff.mp hr).sizeApplies rfl
    | _ =>
      cases h
      trivial
  | vector v =>
    obtain ⟨r, hr, h⟩ := Except.bind_eq_ok_iff.mp h
    cases r <;> cases h <;> trivial

theorem isWellFormed_of_lowerProperty (doc : List String) (p : Property) (param : Param)
    (h : t.lowerProperty doc p = .ok param) : param.IsWellFormed := by
  obtain ⟨s, hs, h⟩ := Except.bind_eq_ok_iff.mp h
  cases h
  obtain ⟨hkind, hstrict⟩ := (Param.ofShape p.key.name s).flags_setOptional p.optional
  exact (Param.isWellFormed_ofShape p.key.name (sizeApplies_of_shape hs)).congr hkind hstrict rfl rfl rfl rfl

end AliasTable

/-! ## Compiled sources -/

theorem Trait.mem_of_mem_firsts {traits : List Trait} : ∀ d ∈ firsts traits, d ∈ traits := by
  refine List.foldlRecOn (motive := fun known => ∀ d ∈ known, d ∈ traits) traits _ (by simp) ?_
  intro known hknown t ht
  rw [record]
  split
  · exact hknown
  · exact List.forall_mem_append.mpr ⟨hknown, List.forall_mem_singleton.mpr ht⟩

theorem Schema.isWellFormed_of_lower {s : Schema} {t : AliasTable} {traits : List Trait} {containers : List Container}
    (h : s.lower = ⟨t, traits, .ok containers⟩) :
    (∀ c ∈ containers, ∀ p ∈ c.params, p.IsWellFormed) ∧ ∀ d ∈ traits, ∀ p ∈ d.params, p.IsWellFormed := by
  obtain ⟨_, _, scope, hitems, rfl, _, rfl⟩ := lower_eq_ok_iff.mp h
  have hall := AliasTable.allParams_of_lowerItems AliasTable.isWellFormed_of_lowerProperty
    (fun _ _ _ => Scope.isWellFormed_qualifyParam) hitems
  exact ⟨List.forall_mem_map.mpr hall.containers, fun d hd => hall.traits d (Trait.mem_of_mem_firsts d hd)⟩

/-- All params in the containers and the traits of a compiled source are well formed. -/
theorem Session.isWellFormed_of_compile {session next : Session} {source : List Char} {m : Model}
    (h : session.compile source = (.ok m, next)) :
    (∀ c ∈ m.containers, ∀ p ∈ c.params, p.IsWellFormed) ∧ ∀ d ∈ next.traits, ∀ p ∈ d.params, p.IsWellFormed := by
  obtain ⟨tree, _, hlower⟩ := compile_eq_ok_iff.mp h
  exact Schema.isWellFormed_of_lower hlower

end SchemaWire
