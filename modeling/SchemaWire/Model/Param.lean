import SchemaWire.Wire.Primitive

/-!
# Params of a container

A param holds its kind as flags and the fields that the kinds need, each of which may be missing: this is
the form in which models are stored, and a stored model may be anything. `Param.shape?` is the layout that
flags and fields agree on, or `none` if they do not. The params made by `Param.ofShape` have the shape they
were made of (`shape?_ofShape`).
-/

namespace SchemaWire

/-- The kind and the modifiers of a param, one bit each. Bits without a meaning are kept. -/
structure ParamFlags where
  bits : UInt8
  deriving DecidableEq, Repr, Inhabited

namespace ParamFlags

/-- A primitive value. -/
def primitive : ParamFlags := ⟨1⟩

/-- A sequence with its length in front. -/
def vector : ParamFlags := ⟨2⟩

/-- A nested container. -/
def nested : ParamFlags := ⟨4⟩

/-- A primitive value of exact length. -/
def strictSize : ParamFlags := ⟨8⟩

/-- A value that may be absent, as a byte before it says. -/
def optional : ParamFlags := ⟨16⟩

/-- The flags with their names, in the order of their bits. -/
def named : List (String × ParamFlags) :=
  [("GENERIC", primitive), ("VECTOR", vector), ("NON_GENERIC", nested), ("STRICT_SIZE", strictSize),
    ("OPTIONAL", optional)]

/-- The flags of both. -/
def union (f g : ParamFlags) : ParamFlags :=
  ⟨f.bits ||| g.bits⟩

/-- Whether all flags of `g` are among those of `f`. -/
def contains (f g : ParamFlags) : Bool :=
  f.bits &&& g.bits == g.bits

/-- The flags without those of `g`. -/
def remove (f g : ParamFlags) : ParamFlags :=
  ⟨f.bits &&& ~~~g.bits⟩

/-- The flags that select the kind of a param. -/
def kind (f : ParamFlags) : ParamFlags :=
  ⟨f.bits &&& 7⟩

end ParamFlags

/-- A field of a container. -/
structure Param where
  name : String
  doc : List String
  flags : ParamFlags
  primitive : Option Primitive
  /-- The items of a vector: a primitive type's name, or the name of a container, a type or a trait. -/
  vectorOf : Option String
  /-- The name of a container, a type or a trait. -/
  reference : Option String
  size : Option UInt32
  deriving DecidableEq, Repr

/-- What the items of a vector are. -/
inductive VectorItem
  | primitive (type : Primitive)
  /-- The name of a container, a type or a trait. -/
  | container (name : String)
  deriving DecidableEq, Repr

/-- The layout of a param on the wire, apart from the byte of an optional one. -/
inductive Shape
  | primitive (type : Primitive)
  | strict (type : Primitive) (size : UInt32)
  | vector (item : VectorItem)
  | reference (name : String)
  deriving DecidableEq, Repr

namespace VectorItem

/-- The items that a name stands for. -/
def ofName (name : String) : VectorItem :=
  match Primitive.ofName? name with
  | some type => .primitive type
  | none => .container name

/-- The name of the items. -/
def name : VectorItem → String
  | .primitive type => type.name
  | .container target => target

end VectorItem

/-- The layouts that can be told from their stored form: the items of a vector of containers have no
primitive type's name. -/
def Shape.IsProper : Shape → Prop
  | .vector (.container target) => Primitive.ofName? target = none
  | _ => True

namespace Param

/-- Whether the value may be absent. -/
def isOptional (p : Param) : Bool :=
  p.flags.contains .optional

/-- The layout that flags and fields agree on. -/
def shape? (p : Param) : Option Shape :=
  if p.flags.kind = .primitive then
    if p.flags.contains .strictSize then do return .strict (← p.primitive) (← p.size)
    else p.primitive.map .primitive
  else if p.flags.contains .strictSize then none
  else if p.flags.kind = .vector then p.vectorOf.map fun name => .vector (.ofName name)
  else if p.flags.kind = .nested then p.reference.map .reference
  else none

/-- A param of a kind, with no fields. -/
def bare (name : String) (flags : ParamFlags) : Param :=
  ⟨name, [], flags, none, none, none, none⟩

/-- A required param without documentation, of the given layout. -/
def ofShape (name : String) : Shape → Param
  | .primitive type => { bare name .primitive with primitive := some type }
  | .strict type size =>
    { bare name (ParamFlags.primitive.union .strictSize) with primitive := some type, size := some size }
  | .vector item => { bare name .vector with vectorOf := some item.name }
  | .reference target => { bare name .nested with reference := some target }

/-- The param made optional, or required. -/
def setOptional (p : Param) (optional : Bool) : Param :=
  { p with flags := if optional then p.flags.union .optional else p.flags.remove .optional }

/-- The text of a layout inside a container's signature. Flags that disagree are given by their bits. -/
def shapeText (p : Param) : String :=
  match p.shape? with
  | some (.primitive type) => "generic#" ++ type.name
  | some (.strict type size) => "generic#" ++ type.name ++ "[" ++ toString size.toNat ++ "]"
  | some (.vector item) => "vector#" ++ item.name
  | some (.reference name) => "non_generic#" ++ name
  | none => "invalid#" ++ toString p.flags.bits.toNat

/-- The text of a param inside a container's signature: `name?:kind#target`. -/
def signature (p : Param) : String :=
  p.name ++ (if p.isOptional then "?" else "") ++ ":" ++ p.shapeText

theorem shape?_ofShape (name : String) {s : Shape} (h : s.IsProper) : (ofShape name s).shape? = some s := by
  have plain : ParamFlags.primitive.kind = .primitive ∧ ParamFlags.primitive.contains .strictSize = false := by
    decide
  have strict : (ParamFlags.primitive.union .strictSize).kind = .primitive ∧
      (ParamFlags.primitive.union .strictSize).contains .strictSize = true := by
    decide
  have vector : ParamFlags.vector.kind = .vector ∧ ParamFlags.vector.contains .strictSize = false ∧
      ParamFlags.vector ≠ .primitive := by
    decide
  have nested : ParamFlags.nested.kind = .nested ∧ ParamFlags.nested.contains .strictSize = false ∧
      ParamFlags.nested ≠ .primitive ∧ ParamFlags.nested ≠ .vector := by
    decide
  cases s with
  | primitive type => simp [ofShape, shape?, bare, plain]
  | strict type size => simp [ofShape, shape?, bare, strict]
  | vector item =>
    have : VectorItem.ofName item.name = item := by
      cases item with
      | primitive type => simp [VectorItem.ofName, VectorItem.name]
      | container target => simp_all [VectorItem.ofName, VectorItem.name, Shape.IsProper]
    simp [ofShape, shape?, bare, vector, this]
  | reference target => simp [ofShape, shape?, bare, nested]

end Param

end SchemaWire
