import Mathlib
import SchemaWire.Proofs.Attachment
import SchemaWire.Proofs.Outcome

/-!
# Binding names in one pass

Lowering closes one namespace after the other from the inside out, and changes references each time. Seen
from the root it does what one pass would do that knows the blocks around every item: names get the path of
their block in front, and a reference is bound in the innermost block around it that declares its name.

`Schema.specified` is this pass. It writes out every field of a container at once, as it is in the end, with the checksum
of the signature for an id; from lowering it takes nothing but the meaning of type names. `lower_result_eq_specified`
says that lowering gives its result.
-/

namespace SchemaWire

/-! ## What blocks declare -/

/-- The constructors of a type group. -/
def TypeGroup.constructors (g : TypeGroup) : List GroupContainer :=
  g.body.filterMap fun
    | .comment _ => none
    | .container c => some c

/-- The names that a type group declares: its constructors, and with each of them its type. -/
def TypeGroup.declared (g : TypeGroup) : List String :=
  g.constructors.flatMap fun c => [c.name.dotted, g.name.name]

/-- The names that are written in a type group: its type, and its constructors. -/
def TypeGroup.named (g : TypeGroup) : List String :=
  g.name.name :: g.constructors.map fun c => c.name.dotted

/-- The names that items declare, those in namespaces included, relative to where the items stand. What type
groups declare is a parameter. -/
def Item.declared (group : TypeGroup → List String) : List Item → List String
  | [] => []
  | .comment _ :: rest => declared group rest
  | .aliasDecl _ :: rest => declared group rest
  | .declaration d :: rest => d.ctor.dotted :: d.name.dotted :: declared group rest
  | .typeGroup g :: rest => group g ++ declared group rest
  | .namespaceBlock name body _ :: rest =>
    ((declared group body).map fun own => name.name ++ "." ++ own) ++ declared group rest
  | .traitDecl d :: rest => d.name.name :: declared group rest

/-- A namespace block around an item: its name, and the names that it declares relative to itself. -/
structure Block where
  name : String
  declared : List String

namespace Block

/-- The names of blocks from the outermost one in. The blocks around an item are listed from the inside out. -/
def path : List Block → List String
  | [] => []
  | b :: outer => path outer ++ [b.name]

/-- The full name of what is declared inside blocks. -/
def fullName (blocks : List Block) (own : String) : String :=
  ".".intercalate (path blocks ++ [own])

/-- What a reference stands for inside blocks: what the innermost block that declares it declares, or what
was written. -/
def bind : List Block → String → String
  | [], reference => reference
  | b :: outer, reference => if reference ∈ b.declared then fullName (b :: outer) reference else bind outer reference

end Block

/-! ## One pass -/

/-- The flags of a property's param: the bits of its kind, and one more if the value may be absent. -/
def Property.flags (p : Property) (kind : UInt8) : ParamFlags :=
  ⟨if p.optional then kind + 16 else kind⟩

namespace AliasTable

/-- The param of a property inside blocks: its name, documentation and flags, and then its primitive type, the items of a
vector, the reference and the size. Of the bits, 1 stands for a primitive type, 2 for a vector, 4 for a reference and 8
for an exact size. -/
def specifyParam (t : AliasTable) (blocks : List Block) (p : Property) (doc : List String) :
    Except LoweringError Param :=
  match p.type with
  | .single type => do
    match ← t.resolve type with
    | .primitive target => return ⟨p.key.name, doc, p.flags 1, some target, none, none, none⟩
    | .strict target size => return ⟨p.key.name, doc, p.flags 9, some target, none, none, some size⟩
    | .reference target => return ⟨p.key.name, doc, p.flags 4, none, none, some (Block.bind blocks target), none⟩
  | .vector v => do
    match ← t.resolve v.item with
    | .primitive target => return ⟨p.key.name, doc, p.flags 2, none, some target.name, none, none⟩
    | .strict target size => throw (.sizedItem target size v.item.span)
    | .reference target => return ⟨p.key.name, doc, p.flags 2, none, some (Block.bind blocks target), none, none⟩

/-- The params of a body inside blocks: one for each property, with what the comments right before it say. -/
def specifyParams (t : AliasTable) (blocks : List Block) (before body : List BodyEntry) :
    Except LoweringError (List Param) :=
  (BodyEntry.documented before body).mapM fun entry => t.specifyParam blocks entry.1 (Docs.ofComments entry.2)

/-- The container of a constructor inside blocks. -/
def specifyContainer (t : AliasTable) (blocks : List Block) (ctor : TypePath) (typeName : String)
    (traits : List TypePath) (comments : List Comment) (body : List BodyEntry) :
    Except LoweringError (Container × Span) := do
  let params ← t.specifyParams blocks [] body
  let c : Container :=
    { id := 0
      name := Block.fullName blocks ctor.dotted
      typeName := Block.fullName blocks typeName
      traits := traits.map fun r => Block.bind blocks r.dotted
      params
      doc := Docs.ofComments comments }
  return ({ c with id := Crc32.checksum (Utf8.ofString c.signature) }, ctor.span)

/-- The containers of a type group's members inside blocks. `before` are the members before these, and the comments right
before the group come before their own. -/
def specifyMembers (t : AliasTable) (blocks : List Block) (g : TypeGroup) (groupComments : List Comment)
    (before : List GroupMember) : List GroupMember → Except LoweringError (List (Container × Span))
  | [] => return []
  | .comment c :: rest => t.specifyMembers blocks g groupComments (before ++ [.comment c]) rest
  | .container m :: rest => do
    let comments := groupComments ++ Docs.run GroupMember.comment? before
    let container ← t.specifyContainer blocks m.name g.name.name g.traits comments m.body
    return container :: (← t.specifyMembers blocks g groupComments (before ++ [.container m]) rest)

/-- The containers of items inside blocks, in the order of the source, each with the place of its name. `before` are the
items before these in their list. What type groups declare is a parameter. Of a trait the properties have to be right,
and nothing is left. -/
def specifyItems (t : AliasTable) (group : TypeGroup → List String) (blocks : List Block) (before : List Item) :
    List Item → Except LoweringError (List (Container × Span))
  | [] => return []
  | .comment c :: rest => t.specifyItems group blocks (before ++ [.comment c]) rest
  | .aliasDecl a :: rest => t.specifyItems group blocks (before ++ [.aliasDecl a]) rest
  | .declaration d :: rest => do
    let container ← t.specifyContainer blocks d.ctor d.name.dotted [] (Docs.run Item.comment? before) d.body
    return container :: (← t.specifyItems group blocks (before ++ [.declaration d]) rest)
  | .typeGroup g :: rest => do
    let members ← t.specifyMembers blocks g (Docs.run Item.comment? before) [] g.body
    return members ++ (← t.specifyItems group blocks (before ++ [.typeGroup g]) rest)
  | .namespaceBlock name body span :: rest => do
    let inner ← t.specifyItems group (⟨name.name, Item.declared group body⟩ :: blocks) [] body
    return inner ++ (← t.specifyItems group blocks (before ++ [.namespaceBlock name body span]) rest)
  | .traitDecl d :: rest => do
    let _ ← t.specifyParams blocks [] d.body
    t.specifyItems group blocks (before ++ [.traitDecl d]) rest

end AliasTable

/-- The error of a container at its index: an earlier one has its full name. -/
def Scope.repetitionAt? (declared : List (Container × Span)) : (Container × Span) × Nat → Option LoweringError
  | ((c, place), index) =>
    ((declared.take index).find? fun earlier => earlier.1.name == c.name).map fun (_, first) =>
      .duplicateContainer c.name place first

/-- The error of the first container with the full name of an earlier one. -/
def Scope.repetition? (declared : List (Container × Span)) : Option LoweringError :=
  declared.zipIdx.findSome? (repetitionAt? declared)

namespace Schema

/-- The containers of a schema by one pass, once its aliases are registered and checked. -/
def specified (s : Schema) (group : TypeGroup → List String) : Except LoweringError (List Container) :=
  match AliasTable.registerAll .empty (Item.aliases s.body) with
  | (_, .error e) => .error e
  | (t, .ok ()) => do
    t.validate
    let declared ← t.specifyItems group [] [] s.body
    match Scope.repetition? declared with
    | some e => .error e
    | none => return declared.map Prod.fst

end Schema

/-! ## Names that a scope declares -/

/-- The names under which containers are found: their own and those of their types. -/
def containerNames (declared : List (Container × Span)) : List String :=
  declared.flatMap fun (c, _) => [c.name, c.typeName]

namespace Scope

variable {s u : Scope} {spaceName x : String}

theorem declares_iff : s.declares x = true ↔ x ∈ containerNames s.containers ∨ x ∈ s.traits.map Trait.name := by
  simp only [declares, containerNames, Bool.or_eq_true, List.any_eq_true, List.mem_flatMap, List.mem_map,
    beq_iff_eq, List.mem_cons, List.not_mem_nil, or_false, @eq_comm _ x]

theorem declares_append : (s.append u).declares x = true ↔ s.declares x = true ∨ u.declares x = true := by
  simp only [declares_iff, append, containerNames, List.flatMap_append, List.map_append, List.mem_append]
  exact or_or_or_comm

theorem declares_enclose :
    (s.enclose spaceName).declares x = true ↔ ∃ y, s.declares y = true ∧ qualified spaceName y = x := by
  have hcontainers : containerNames (s.enclose spaceName).containers =
      (containerNames s.containers).map (qualified spaceName) := by
    simp [containerNames, enclose, qualifyContainer, List.flatMap_map, List.map_flatMap]
  have htraits : (s.enclose spaceName).traits.map Trait.name = (s.traits.map Trait.name).map (qualified spaceName) := by
    simp [enclose, qualifyTrait]
  rw [declares_iff, hcontainers, htraits, ← List.mem_append, ← List.map_append, List.mem_map]
  simp only [declares_iff, List.mem_append]

end Scope

namespace AliasTable

variable {t : AliasTable} {pending : List String} {x : String}

theorem names_of_lowerDeclaration {d : Declaration} {c : Container} (h : t.lowerDeclaration pending d = .ok c) :
    c.name = d.ctor.dotted ∧ c.typeName = d.name.dotted := by
  obtain ⟨params, _, h⟩ := Except.bind_eq_ok_iff.mp h
  cases h
  exact ⟨rfl, rfl⟩

theorem containerNames_of_lowerMembers {typeName : String} {traits doc : List String} {body : List GroupMember}
    {members : List (Container × Span)} (h : t.lowerMembers typeName traits doc pending body = .ok members) :
    containerNames members = (body.filterMap fun
      | .comment _ => none
      | .container c => some c).flatMap fun c => [c.name.dotted, typeName] := by
  induction pending, body using lowerMembers.induct generalizing members with
  | case1 =>
    cases h
    rfl
  | case2 pending c rest ih => exact ih h
  | case3 pending c rest ih =>
    obtain ⟨params, _, h⟩ := Except.bind_eq_ok_iff.mp h
    obtain ⟨more, hmore, h⟩ := Except.bind_eq_ok_iff.mp h
    cases h
    rw [containerNames, List.flatMap_cons, ← containerNames, ih hmore]
    rfl

theorem containerNames_of_lowerGroup {doc : List String} {g : TypeGroup} {members : List (Container × Span)}
    (h : t.lowerGroup doc g = .ok members) : containerNames members = g.declared :=
  containerNames_of_lowerMembers h

/-- A scope declares what its items declare. -/
theorem declares_of_lowerItems {items : List Item} {s : Scope} (h : t.lowerItems pending items = .ok s) :
    s.declares x = true ↔ x ∈ Item.declared TypeGroup.declared items := by
  induction pending, items using lowerItems.induct generalizing s x with
  | case1 =>
    rw [lowerItems] at h
    cases h
    simp [Scope.declares_iff, Scope.empty, containerNames, Item.declared]
  | case2 pending c rest ih =>
    rw [lowerItems] at h
    rw [ih h, Item.declared]
  | case3 pending d rest ih =>
    rw [lowerItems] at h
    obtain ⟨c, hc, h⟩ := Except.bind_eq_ok_iff.mp h
    obtain ⟨more, hmore, h⟩ := Except.bind_eq_ok_iff.mp h
    cases h
    obtain ⟨hname, htype⟩ := names_of_lowerDeclaration hc
    rw [Scope.declares_append, ih hmore]
    simp [Scope.declares_iff, containerNames, Item.declared, hname, htype, or_assoc]
  | case4 pending g rest ih =>
    rw [lowerItems] at h
    obtain ⟨members, hmembers, h⟩ := Except.bind_eq_ok_iff.mp h
    obtain ⟨more, hmore, h⟩ := Except.bind_eq_ok_iff.mp h
    cases h
    rw [Scope.declares_append, ih hmore]
    simp [Scope.declares_iff, containerNames_of_lowerGroup hmembers, Item.declared]
  | case5 pending name body span rest ihbody ih =>
    rw [lowerItems] at h
    obtain ⟨inner, hinner, h⟩ := Except.bind_eq_ok_iff.mp h
    obtain ⟨more, hmore, h⟩ := Except.bind_eq_ok_iff.mp h
    cases h
    simp only [Scope.declares_append, Scope.declares_enclose, ih hmore, ihbody hinner, Item.declared,
      List.mem_append, List.mem_map, Scope.qualified]
  | case6 pending d rest ih =>
    rw [lowerItems] at h
    obtain ⟨declared, hdeclared, h⟩ := Except.bind_eq_ok_iff.mp h
    obtain ⟨more, hmore, h⟩ := Except.bind_eq_ok_iff.mp h
    cases h
    obtain ⟨params, _, hdeclared⟩ := Except.bind_eq_ok_iff.mp hdeclared
    cases hdeclared
    rw [Scope.declares_append, ih hmore]
    simp only [Scope.declares_iff, containerNames, Item.declared, List.flatMap_nil, List.not_mem_nil, false_or,
      List.map_cons, List.map_nil, List.mem_cons, or_false]
  | case7 pending a rest ih =>
    rw [lowerItems] at h
    rw [ih h, Item.declared]

end AliasTable

/-! ## Containers seen from the root -/

namespace Block

/-- A param inside blocks. A primitive type's name refers to nothing. -/
def bindParam (blocks : List Block) (p : Param) : Param :=
  { p with
    reference := p.reference.map (bind blocks)
    vectorOf := p.vectorOf.map fun item => if (Primitive.ofName? item).isSome then item else bind blocks item }

/-- A container inside blocks. -/
def bindContainer (blocks : List Block) (c : Container) : Container :=
  { c with
    name := fullName blocks c.name
    typeName := fullName blocks c.typeName
    traits := c.traits.map (bind blocks)
    params := c.params.map (bindParam blocks) }

/-- Containers inside blocks, with the places of their names. -/
def bindAll (blocks : List Block) (declared : List (Container × Span)) : List (Container × Span) :=
  declared.map fun (c, place) => (bindContainer blocks c, place)

/-- Containers inside blocks, with their ids and the places of their names. -/
def identifyAll (blocks : List Block) (declared : List (Container × Span)) : List (Container × Span) :=
  (bindAll blocks declared).map fun (c, place) => (c.assignId, place)

theorem identifyAll_append (blocks : List Block) (declared more : List (Container × Span)) :
    identifyAll blocks (declared ++ more) = identifyAll blocks declared ++ identifyAll blocks more := by
  simp [identifyAll, bindAll]

end Block

/-! ## Qualifying once more -/

theorem Primitive.ofName?_qualified (spaceName name : String) :
    Primitive.ofName? (Scope.qualified spaceName name) = none := by
  cases h : Primitive.ofName? (Scope.qualified spaceName name) with
  | none => rfl
  | some type =>
    have hname := congrArg String.toList (Primitive.name_of_ofName? h)
    have hdot : '.' ∈ type.name.toList := by
      rw [hname]
      simp [Scope.qualified]
    cases type <;> exact absurd hdot (by decide)

namespace Block

variable {s : Scope} {b : Block} {outer : List Block}

/-- A name that a namespace put itself in front of has the same full name outside as it has inside. -/
theorem fullName_qualified (b : Block) (outer : List Block) (own : String) :
    fullName outer (Scope.qualified b.name own) = fullName (b :: outer) own := by
  rw [fullName, fullName, path, List.append_assoc, List.singleton_append, Scope.qualified]
  cases hpath : path outer with
  | nil => simp
  | cons first rest =>
    rw [String.intercalate_append_of_ne_nil (by simp) (by simp),
      String.intercalate_append_of_ne_nil (by simp) (by simp)]
    simp

/-- Once a reference is qualified it is bound by every block further out. -/
theorem bind_qualifyReference (hscope : ∀ x, s.declares x = true ↔ x ∈ b.declared)
    (houter : ∀ c ∈ outer.head?, ∀ x ∈ b.declared, Scope.qualified b.name x ∈ c.declared) (reference : String) :
    bind outer (s.qualifyReference b.name reference) = bind (b :: outer) reference := by
  rw [Scope.qualifyReference, bind]
  by_cases hmem : reference ∈ b.declared
  · rw [if_pos ((hscope reference).mpr hmem), if_pos hmem, ← fullName_qualified]
    cases outer with
    | nil => simp [bind, fullName, path]
    | cons c outer => rw [bind, if_pos (houter c rfl reference hmem)]
  · rw [if_neg (by rwa [hscope]), if_neg hmem]

theorem ofName?_qualifyReference {spaceName item : String} (h : Primitive.ofName? item = none) :
    Primitive.ofName? (s.qualifyReference spaceName item) = none := by
  rw [Scope.qualifyReference]
  split
  · exact Primitive.ofName?_qualified spaceName item
  · exact h

theorem bindParam_qualifyParam (hscope : ∀ x, s.declares x = true ↔ x ∈ b.declared)
    (houter : ∀ c ∈ outer.head?, ∀ x ∈ b.declared, Scope.qualified b.name x ∈ c.declared) (p : Param) :
    bindParam outer (s.qualifyParam b.name p) = bindParam (b :: outer) p := by
  have hitem (item : String) :
      (let seen := if (Primitive.ofName? item).isNone then s.qualifyReference b.name item else item
        if (Primitive.ofName? seen).isSome then seen else bind outer seen) =
        if (Primitive.ofName? item).isSome then item else bind (b :: outer) item := by
    cases h : Primitive.ofName? item with
    | some type => simp [h]
    | none => simp [ofName?_qualifyReference h, bind_qualifyReference hscope houter]
  simp only at hitem
  simp only [bindParam, Scope.qualifyParam, Option.map_map, Function.comp_def, hitem,
    bind_qualifyReference hscope houter]

theorem bindContainer_qualifyContainer (hscope : ∀ x, s.declares x = true ↔ x ∈ b.declared)
    (houter : ∀ c ∈ outer.head?, ∀ x ∈ b.declared, Scope.qualified b.name x ∈ c.declared) (c : Container) :
    bindContainer outer (s.qualifyContainer b.name c) = bindContainer (b :: outer) c := by
  simp only [bindContainer, Scope.qualifyContainer, fullName_qualified, List.map_map, Function.comp_def,
    bind_qualifyReference hscope houter, bindParam_qualifyParam hscope houter]

/-- Outside all blocks names are full and references are left as they are. -/
theorem bindAll_nil (declared : List (Container × Span)) : bindAll [] declared = declared := by
  have hparam : bindParam [] = id := by
    funext p
    simp [bindParam, bind]
  have hcontainer (c : Container) : bindContainer [] c = c := by
    simp [bindContainer, fullName, path, bind, hparam]
  simp [bindAll, hcontainer]

theorem bindAll_enclose (hscope : ∀ x, s.declares x = true ↔ x ∈ b.declared)
    (houter : ∀ c ∈ outer.head?, ∀ x ∈ b.declared, Scope.qualified b.name x ∈ c.declared) :
    bindAll outer (s.enclose b.name).containers = bindAll (b :: outer) s.containers := by
  simp only [bindAll, Scope.enclose, List.map_map, Function.comp_def, bindContainer_qualifyContainer hscope houter]

end Block

/-! ## Lowering is one pass -/

/-- The bits of a layout's kind. -/
def Shape.bits : Shape → UInt8
  | .primitive _ => 1
  | .strict .. => 9
  | .vector _ => 2
  | .reference _ => 4

theorem Param.flags_ofShape (name : String) (s : Shape) (p : Property) :
    ((ofShape name s).setOptional p.optional).flags = p.flags s.bits := by
  cases s <;> simp only [ofShape, bare, setOptional, Property.flags, Shape.bits] <;> cases p.optional <;> decide

/-- A primitive type's name has one segment. -/
theorem TypePath.isSimple_of_ofName? {p : TypePath} {type : Primitive} (h : Primitive.ofName? p.dotted = some type) :
    p.isSimple = true := by
  have hname : type.name.toList = p.dotted.toList := congrArg String.toList (Primitive.name_of_ofName? h)
  have hplain : type.name.toList ≠ [] ∧ '.' ∉ type.name.toList := by
    cases type <;> decide
  rw [hname, TypePath.dotted] at hplain
  unfold TypePath.isSimple
  rcases hsegments : p.segments with _ | ⟨first, _ | ⟨second, rest⟩⟩
  · simp [hsegments] at hplain
  · rfl
  · simp [hsegments, String.intercalate_cons_cons] at hplain

namespace AliasTable

variable {t : AliasTable} {pending : List String} {items : List Item} {blocks : List Block}

/-- What is left as a reference is no primitive type's name. -/
theorem ofName?_of_standsFor {type : TypeName} {r : Except LoweringError Resolved} (h : t.StandsFor type r)
    {name : String} (hr : r = .ok (.reference name)) : Primitive.ofName? name = none := by
  induction h with
  | dotted hp =>
    cases hr
    rw [Option.eq_none_iff_forall_ne_some]
    intro type htype
    rw [TypePath.isSimple_of_ofName? htype] at hp
    cases hp
  | followed _ _ _ _ ih => exact ih hr
  | other _ htype _ =>
    cases hr
    exact htype
  | _ => cases hr

theorem specifyParam_eq (p : Property) (doc : List String) :
    t.specifyParam blocks p doc = (t.lowerProperty doc p).map (Block.bindParam blocks) := by
  have hflags (s : Shape) : ((Param.ofShape p.key.name s).setOptional p.optional).flags = p.flags s.bits :=
    Param.flags_ofShape p.key.name s p
  simp only [specifyParam, lowerProperty]
  cases p.type with
  | single type =>
    simp only [shape]
    cases t.resolve type with
    | error e => rfl
    | ok resolved =>
      cases resolved with
      | primitive target =>
        refine congrArg Except.ok ?_
        rw [Block.bindParam, Param.mk.injEq]
        exact ⟨rfl, rfl, (hflags (.primitive target)).symm, rfl, rfl, rfl, rfl⟩
      | strict target size =>
        refine congrArg Except.ok ?_
        rw [Block.bindParam, Param.mk.injEq]
        exact ⟨rfl, rfl, (hflags (.strict target size)).symm, rfl, rfl, rfl, rfl⟩
      | reference name =>
        refine congrArg Except.ok ?_
        rw [Block.bindParam, Param.mk.injEq]
        exact ⟨rfl, rfl, (hflags (.reference name)).symm, rfl, rfl, rfl, rfl⟩
  | vector v =>
    simp only [shape]
    cases h : t.resolve v.item with
    | error e => rfl
    | ok resolved =>
      cases resolved with
      | primitive target =>
        have hitem : (Primitive.ofName? target.name).isSome = true := by cases target <;> rfl
        refine congrArg Except.ok ?_
        rw [Block.bindParam, Param.mk.injEq]
        exact ⟨rfl, rfl, (hflags (.vector _)).symm, rfl, congrArg some (if_pos hitem).symm, rfl, rfl⟩
      | strict target size => rfl
      | reference name =>
        have hname : Primitive.ofName? name = none := ofName?_of_standsFor (resolve_eq_ok_iff.mp h) rfl
        have hitem : ¬(Primitive.ofName? name).isSome = true := by simp [hname]
        refine congrArg Except.ok ?_
        rw [Block.bindParam, Param.mk.injEq]
        exact ⟨rfl, rfl, (hflags (.vector _)).symm, rfl, congrArg some (if_neg hitem).symm, rfl, rfl⟩

/-- What waits are the entries of the comments that end what stands before a body. -/
theorem specifyParams_eq {before body : List BodyEntry}
    (hpending : pending = Docs.ofComments (Docs.run BodyEntry.comment? before)) :
    t.specifyParams blocks before body = (t.lowerBody pending body).map (List.map (Block.bindParam blocks)) := by
  induction pending, body using lowerBody.induct generalizing before with
  | case1 => rfl
  | case2 pending c rest ih =>
    rw [lowerBody]
    exact ih (Docs.collect_run rfl hpending)
  | case3 pending p rest ih =>
    have hrest : t.specifyParams blocks (before ++ [.property p]) rest =
        (t.lowerBody [] rest).map (List.map (Block.bindParam blocks)) := ih (Docs.nil_eq_ofComments_run rfl)
    rw [specifyParams] at hrest
    rw [lowerBody, specifyParams, BodyEntry.documented, List.mapM_cons, hrest, ← hpending, specifyParam_eq]
    cases t.lowerProperty pending p with
    | error e => rfl
    | ok param => cases t.lowerBody [] rest <;> rfl

theorem specifyParams_nil_eq (body : List BodyEntry) :
    t.specifyParams blocks [] body = (t.lowerBody [] body).map (List.map (Block.bindParam blocks)) :=
  specifyParams_eq rfl

/-- The container of a constructor is the one with the fields that it is lowered to. -/
theorem specifyContainer_eq (ctor : TypePath) (typeName : String) (traits : List TypePath) (comments : List Comment)
    (body : List BodyEntry) (id : UInt32) :
    t.specifyContainer blocks ctor typeName traits comments body =
      (t.lowerBody [] body).map fun params =>
        ((Block.bindContainer blocks ⟨id, ctor.dotted, typeName, traits.map TypePath.dotted, params,
          Docs.ofComments comments⟩).assignId, ctor.span) := by
  rw [specifyContainer, specifyParams_nil_eq]
  cases t.lowerBody [] body with
  | error e => rfl
  | ok params =>
    simp only [Block.bindContainer, List.map_map]
    rfl

theorem specifyMembers_eq {g : TypeGroup} {groupComments : List Comment} {before body : List GroupMember}
    (hpending : pending = Docs.ofComments (Docs.run GroupMember.comment? before)) :
    t.specifyMembers blocks g groupComments before body =
      (t.lowerMembers g.name.name (g.traits.map TypePath.dotted) (Docs.ofComments groupComments) pending body).map
        (Block.identifyAll blocks) := by
  induction pending, body using lowerMembers.induct generalizing before with
  | case1 => rfl
  | case2 pending c rest ih =>
    rw [lowerMembers, specifyMembers]
    exact ih (Docs.collect_run rfl hpending)
  | case3 pending m rest ih =>
    have hdoc : Docs.ofComments groupComments ++ pending =
        Docs.ofComments (groupComments ++ Docs.run GroupMember.comment? before) := by
      rw [hpending]
      exact List.flatMap_append.symm
    rw [lowerMembers, specifyMembers, ih (Docs.nil_eq_ofComments_run rfl), hdoc]
    simp only
    rw [specifyContainer_eq _ _ _ _ _ 0]
    cases t.lowerBody [] m.body with
    | error e => rfl
    | ok params =>
      cases t.lowerMembers g.name.name (g.traits.map TypePath.dotted) (Docs.ofComments groupComments) [] rest <;> rfl

theorem specifyGroup_eq (g : TypeGroup) (comments : List Comment) :
    t.specifyMembers blocks g comments [] g.body =
      (t.lowerGroup (Docs.ofComments comments) g).map (Block.identifyAll blocks) :=
  specifyMembers_eq rfl

/-- Inside any blocks, the containers of the items' scope are those that one pass finds, so long as the
innermost block declares what the items declare. By induction on the items: a namespace adds a block. -/
theorem specifyItems_eq {before : List Item} (hpending : pending = Docs.ofComments (Docs.run Item.comment? before))
    (hblocks : ∀ b ∈ blocks.head?, ∀ x ∈ Item.declared TypeGroup.declared items, x ∈ b.declared) :
    t.specifyItems TypeGroup.declared blocks before items =
      (t.lowerItems pending items).map fun s => Block.identifyAll blocks s.containers := by
  induction pending, items using lowerItems.induct generalizing blocks before with
  | case1 =>
    rw [specifyItems, lowerItems]
    rfl
  | case2 pending c rest ih =>
    rw [specifyItems, lowerItems]
    exact ih (Docs.collect_run rfl hpending) fun b hb x hx => hblocks b hb x (by simpa [Item.declared] using hx)
  | case3 pending d rest ih =>
    have hrest : t.specifyItems TypeGroup.declared blocks (before ++ [.declaration d]) rest =
        (t.lowerItems [] rest).map fun s => Block.identifyAll blocks s.containers :=
      ih (Docs.nil_eq_ofComments_run rfl) fun b hb x hx => hblocks b hb x (by simp [Item.declared, hx])
    rw [specifyItems, lowerItems, hrest, specifyContainer_eq _ _ _ _ _ 0, lowerDeclaration, ← hpending]
    cases t.lowerBody [] d.body with
    | error e => rfl
    | ok params => cases t.lowerItems [] rest <;> rfl
  | case4 pending g rest ih =>
    have hrest : t.specifyItems TypeGroup.declared blocks (before ++ [.typeGroup g]) rest =
        (t.lowerItems [] rest).map fun s => Block.identifyAll blocks s.containers :=
      ih (Docs.nil_eq_ofComments_run rfl) fun b hb x hx => hblocks b hb x (by simp [Item.declared, hx])
    rw [specifyItems, lowerItems, hrest, specifyGroup_eq, ← hpending]
    cases t.lowerGroup pending g with
    | error e => rfl
    | ok members =>
      cases t.lowerItems [] rest with
      | error e => rfl
      | ok more => exact congrArg Except.ok (Block.identifyAll_append ..).symm
  | case5 pending name body span rest ihbody ih =>
    have hhead : ∀ b ∈ (Block.mk name.name (Item.declared TypeGroup.declared body) :: blocks).head?,
        ∀ x ∈ Item.declared TypeGroup.declared body, x ∈ b.declared := by
      rintro _ ⟨⟩ x hx
      exact hx
    have hrest : t.specifyItems TypeGroup.declared blocks (before ++ [.namespaceBlock name body span]) rest =
        (t.lowerItems [] rest).map fun s => Block.identifyAll blocks s.containers :=
      ih (Docs.nil_eq_ofComments_run rfl) fun b hb x hx => hblocks b hb x (by simp [Item.declared, hx])
    rw [specifyItems, lowerItems, ihbody rfl hhead, hrest]
    cases hinner : t.lowerItems [] body with
    | error e => rfl
    | ok inner =>
      cases t.lowerItems [] rest with
      | error e => rfl
      | ok more =>
        have hclosed := Block.bindAll_enclose (b := ⟨name.name, Item.declared TypeGroup.declared body⟩)
          (fun x => declares_of_lowerItems hinner)
          (fun c hc x hx => hblocks c hc _ (by simpa [Item.declared] using .inl ⟨x, hx, rfl⟩))
        have hall : Block.identifyAll blocks ((inner.enclose name.name).append more).containers =
            Block.identifyAll (⟨name.name, Item.declared TypeGroup.declared body⟩ :: blocks) inner.containers ++
              Block.identifyAll blocks more.containers := by
          rw [Scope.append, Block.identifyAll_append, Block.identifyAll, hclosed]
          rfl
        exact congrArg Except.ok hall.symm
  | case6 pending d rest ih =>
    have hrest : t.specifyItems TypeGroup.declared blocks (before ++ [.traitDecl d]) rest =
        (t.lowerItems [] rest).map fun s => Block.identifyAll blocks s.containers :=
      ih (Docs.nil_eq_ofComments_run rfl) fun b hb x hx => hblocks b hb x (by simp [Item.declared, hx])
    rw [specifyItems, lowerItems, hrest, specifyParams_nil_eq, lowerTrait]
    cases t.lowerBody [] d.body with
    | error e => rfl
    | ok declared => cases t.lowerItems [] rest <;> rfl
  | case7 pending a rest ih =>
    rw [specifyItems, lowerItems]
    exact ih (Docs.nil_eq_ofComments_run rfl) fun b hb x hx => hblocks b hb x (by simpa [Item.declared] using hx)

end AliasTable

namespace Scope

/-- Ids are given from a place on so long as no name before it or after it is repeated. `before` are the
containers whose names and places were seen. -/
theorem identify_eq_of_seen {seen : List (String × Span)} {before rest : List (Container × Span)}
    (hseen : ∀ name, seen.lookup name = (before.find? fun earlier => earlier.1.name == name).map Prod.snd) :
    identify seen rest =
      match (rest.zipIdx before.length).findSome? (repetitionAt? (before ++ rest)) with
      | some e => .error e
      | none => .ok (rest.map fun (c, _) => c.assignId) := by
  induction rest generalizing seen before with
  | nil => rfl
  | cons head rest ih =>
    obtain ⟨c, place⟩ := head
    rw [identify, hseen, List.zipIdx_cons, List.findSome?_cons, repetitionAt?, List.take_left]
    cases hfind : before.find? fun earlier => earlier.1.name == c.name with
    | some first => rfl
    | none =>
      have hnext (name : String) : ((c.name, place) :: seen).lookup name =
          ((before ++ [(c, place)]).find? fun earlier => earlier.1.name == name).map Prod.snd := by
        rw [List.lookup_cons, List.find?_append, hseen]
        by_cases hname : name = c.name
        · subst hname
          simp [hfind]
        · rw [beq_false_of_ne hname]
          simp [Ne.symm hname]
      have hrest := ih hnext
      rw [List.append_assoc, List.singleton_append, List.length_append, List.length_singleton] at hrest
      simp only [Option.map_none, hrest]
      cases (rest.zipIdx (before.length + 1)).findSome? (repetitionAt? (before ++ (c, place) :: rest)) <;> rfl

/-- Ids are no names. -/
theorem repetition?_identified (declared : List (Container × Span)) :
    repetition? (declared.map fun (c, place) => (c.assignId, place)) = repetition? declared := by
  have hat (entry : (Container × Span) × Nat) :
      repetitionAt? (declared.map fun (c, place) => (c.assignId, place)) ((entry.1.1.assignId, entry.1.2), entry.2) =
        repetitionAt? declared entry := by
    simp only [repetitionAt?, ← List.map_take, List.find?_map, Option.map_map]
    rfl
  rw [repetition?, List.zipIdx_map, List.findSome?_map]
  exact congrArg (declared.zipIdx.findSome? ·) (funext hat)

theorem identify_eq (declared : List (Container × Span)) :
    identify [] declared =
      match repetition? declared with
      | some e => .error e
      | none => .ok (declared.map fun (c, _) => c.assignId) :=
  @identify_eq_of_seen [] [] declared fun _ => rfl

end Scope

namespace Schema

/-- Lowering a schema gives what one pass gives. -/
theorem lower_result_eq_specified (s : Schema) : s.lower.result = s.specified TypeGroup.declared := by
  rw [lower, specified]
  cases AliasTable.registerAll .empty (Item.aliases s.body) with
  | mk t registered =>
    cases registered with
    | error e => rfl
    | ok u =>
      simp only [scope]
      cases t.validate with
      | error e => rfl
      | ok u =>
        have hpass : t.specifyItems TypeGroup.declared [] [] s.body =
            (t.lowerItems [] s.body).map fun scope => Block.identifyAll [] scope.containers :=
          AliasTable.specifyItems_eq rfl (by simp)
        simp only [hpass, Block.identifyAll, Block.bindAll_nil]
        cases t.lowerItems [] s.body with
        | error e => rfl
        | ok scope =>
          simp only [Except.map, bind, Except.bind, Scope.repetition?_identified, List.map_map]
          exact Scope.identify_eq scope.containers

/-- A namespace with a type group that is empty, and a container that refers to the type of the group. -/
def emptyGroup : Schema :=
  let name (text : String) : Identifier := ⟨text, ⟨0, 0⟩⟩
  let path (text : String) : TypePath := ⟨[name text], ⟨0, 0⟩⟩
  let property : Property := ⟨name "x", false, .single (.path (path "X")), ⟨0, 0⟩⟩
  ⟨[.namespaceBlock (name "n")
      [.typeGroup ⟨name "X", [], [], ⟨0, 0⟩⟩, .declaration ⟨path "y", path "Y", [.property property], ⟨0, 0⟩⟩]
      ⟨0, 0⟩],
    ⟨0, 0⟩⟩

/-- The references of containers. -/
def references (result : Except LoweringError (List Container)) : Except LoweringError (List (List (Option String))) :=
  result.map fun containers => containers.map fun c => c.params.map Param.reference

set_option maxRecDepth 3000 in
/-- Were the type of an empty group declared, the reference would be bound to it. Lowering leaves it alone. -/
theorem lower_result_ne_specified_named : emptyGroup.lower.result ≠ emptyGroup.specified TypeGroup.named := by
  intro h
  have hlowered : references emptyGroup.lower.result = .ok [[some "X"]] := by cbv
  have hspecified : references (emptyGroup.specified TypeGroup.named) = .ok [[some "n.X"]] := by cbv
  rw [h, hspecified, Except.ok.injEq] at hlowered
  exact absurd hlowered (by decide)

end Schema

end SchemaWire
