import SchemaWire.Lowering.Scope

/-!
# Lowering

`Schema.lower` takes a syntax tree to its containers. It registers and checks all aliases first, lowers the
items to a scope of fully named containers and traits, records the traits, and gives every container its id
unless two have one name. What was recorded before a failure stays readable.
-/

namespace SchemaWire

/-- What lowering a schema leaves behind: its aliases, its traits, and its containers or the reason why
there are none. -/
structure Lowered where
  aliases : AliasTable
  traits : List Trait
  result : Except LoweringError (List Container)

namespace Lowered

/-- What is known before any schema was lowered. -/
def initial : Lowered := ⟨.empty, [], .ok []⟩

end Lowered

/-- The traits with one more. The first one of a name stays. -/
def Trait.record (known : List Trait) (t : Trait) : List Trait :=
  if known.any (·.name == t.name) then known else known ++ [t]

/-- The first trait of each name, in order. -/
def Trait.firsts (traits : List Trait) : List Trait :=
  traits.foldl record []

namespace Scope

/-- The containers with their ids, or the first that has the name of an earlier one. `seen` are the names
before these, with their places. -/
def identify (seen : List (String × Span)) : List (Container × Span) → Except LoweringError (List Container)
  | [] => .ok []
  | (c, place) :: rest =>
    match seen.lookup c.name with
    | some first => .error (.duplicateContainer c.name place first)
    | none => (identify ((c.name, place) :: seen) rest).map (c.assignId :: ·)

end Scope

/-- The aliases in items, those in namespaces included. -/
def Item.aliases (items : List Item) : List Alias :=
  (Item.flatten items).filterMap fun
    | .aliasDecl a => some a
    | _ => none

namespace Schema

/-- The aliases of a schema, checked, and its scope. -/
def scope (s : Schema) (t : AliasTable) : Except LoweringError Scope := do
  t.validate
  t.lowerItems [] s.body

/-- The containers of a schema. -/
def lower (s : Schema) : Lowered :=
  match AliasTable.registerAll .empty (Item.aliases s.body) with
  | (aliases, .error e) => ⟨aliases, [], .error e⟩
  | (aliases, .ok ()) =>
    match s.scope aliases with
    | .error e => ⟨aliases, [], .error e⟩
    | .ok scope => ⟨aliases, Trait.firsts scope.traits, Scope.identify [] scope.containers⟩

end Schema

end SchemaWire
