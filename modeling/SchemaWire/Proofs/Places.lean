import SchemaWire.Lowering
import SchemaWire.Proofs.Dependence
import SchemaWire.Proofs.Relocation
import SchemaWire.Proofs.Spelling

/-!
# Lowering does not look at places

Where the places in a tree are moved, lowering leaves behind the same with its places moved alike
(`Schema.lower_relocated`): an error stays of its sort and wording. To forget all places is one such move, so that
trees that are equal up to places have the same containers, or are refused for the same reason
(`Schema.result_eq_of_unplaced_eq`).
-/

namespace SchemaWire

/-! ## Moving places -/

section Trees

variable (f : Nat → Nat)

def Schema.relocated (s : Schema) : Schema :=
  ⟨s.body.map (Item.relocated f), s.span.relocated f⟩

def ParseError.relocated (e : ParseError) : ParseError :=
  ⟨e.wanted.relocated f, e.found, e.span.relocated f⟩

def LoweringError.relocated : LoweringError → LoweringError
  | .duplicateAlias name place first => .duplicateAlias name (place.relocated f) (first.relocated f)
  | .duplicateContainer name place first => .duplicateContainer name (place.relocated f) (first.relocated f)
  | .sizeNotAllowed type place => .sizeNotAllowed type (place.relocated f)
  | .sizeTooLarge size place => .sizeTooLarge size (place.relocated f)
  | .sizeWithoutPrimitive name place => .sizeWithoutPrimitive name (place.relocated f)
  | .aliasOfContainer name target place => .aliasOfContainer name target (place.relocated f)
  | .aliasCycle name chain place => .aliasCycle name chain (place.relocated f)
  | .sizedItem type size place => .sizedItem type size (place.relocated f)

/-- Containers with the places of their names moved. -/
def Scope.containersRelocated (containers : List (Container × Span)) : List (Container × Span) :=
  containers.map (Prod.map id (Span.relocated f))

def Scope.relocated (s : Scope) : Scope :=
  ⟨containersRelocated f s.containers, s.traits⟩

def AliasTable.relocated (t : AliasTable) : AliasTable where
  entries := t.entries.map (Alias.relocated f)
  distinct := by simpa [Function.comp_def, Alias.relocated, Identifier.relocated] using t.distinct

/-- An outcome of lowering with every place in it moved: `g` moves what was lowered. -/
def LoweringError.moved {α : Type} (g : α → α) (outcome : Except LoweringError α) : Except LoweringError α :=
  (outcome.map g).mapError (LoweringError.relocated f)

def Lowered.relocated (l : Lowered) : Lowered :=
  ⟨l.aliases.relocated f, l.traits, LoweringError.moved f id l.result⟩

end Trees

variable {f : Nat → Nat}

@[simp] theorem TypePath.dotted_relocated (p : TypePath) : (p.relocated f).dotted = p.dotted := by
  simp [TypePath.dotted, TypePath.relocated, Function.comp_def, Identifier.relocated]

@[simp] theorem TypePath.isSimple_relocated (p : TypePath) : (p.relocated f).isSimple = p.isSimple := by
  simp [TypePath.isSimple, TypePath.relocated]

namespace ParseError

/-- What an error says apart from its place: its sort and wording. -/
def reason (e : ParseError) : Kind × String :=
  (e.kind, e.summary)

@[simp] theorem kind_relocated (e : ParseError) : (e.relocated f).kind = e.kind := by
  obtain ⟨wanted, found, span⟩ := e
  cases wanted <;> rfl

@[simp] theorem summary_relocated (e : ParseError) : (e.relocated f).summary = e.summary := by
  obtain ⟨wanted, found, span⟩ := e
  cases wanted with
  | noSize p => simp [summary, ParseError.relocated, Wanted.relocated]
  | _ => rfl

@[simp] theorem reason_relocated (e : ParseError) : (e.relocated f).reason = e.reason := by
  simp [reason]

theorem ofRejection_relocated (stop : Span) (r : Rejection) :
    ofRejection (stop.relocated f) (r.relocated f) = (ofRejection stop r).relocated f := by
  obtain ⟨wanted, rest⟩ := r
  cases rest <;> rfl

end ParseError

namespace LoweringError

/-- What an error says apart from its places: its sort and wording. -/
def reason (e : LoweringError) : Kind × String :=
  (e.kind, e.message)

@[simp] theorem reason_relocated (e : LoweringError) : (e.relocated f).reason = e.reason := by
  cases e <;> rfl

section Moved

variable {α β : Type} {g : α → α} {g' : β → β} {x y : Except LoweringError α}

@[simp] theorem moved_ok (a : α) : moved f g (.ok a) = .ok (g a) := rfl

@[simp] theorem moved_error (e : LoweringError) : moved f g (.error e) = .error (e.relocated f) := rfl

theorem moved_bind {k k' : α → Except LoweringError β} (hx : y = moved f g x) (hk : ∀ a, k' (g a) = moved f g' (k a)) :
    (y >>= k') = moved f g' (x >>= k) := by
  subst hx
  cases x with
  | error e => rfl
  | ok a => exact hk a

theorem moved_map {m m' : α → β} (hx : y = moved f g x) (hm : ∀ a, m' (g a) = g' (m a)) :
    y.map m' = moved f g' (x.map m) := by
  subst hx
  cases x with
  | error e => rfl
  | ok a => exact congrArg Except.ok (hm a)

end Moved

end LoweringError

open LoweringError

/-! ## Aliases -/

namespace AliasTable

variable (t : AliasTable)

@[simp] theorem get?_relocated (name : String) :
    (t.relocated f).get? name = (t.get? name).map (Alias.relocated f) := by
  simp only [get?, relocated, List.find?_map]
  rfl

theorem register_of_get? {a first : Alias} (h : t.get? a.name.name = some first) :
    t.register a = .error (.duplicateAlias a.name.name a.name.span first.name.span) := by
  unfold register
  split <;> simp_all

theorem register_relocated (a : Alias) :
    (t.relocated f).register (a.relocated f) = moved f (relocated f) (t.register a) := by
  cases hfirst : t.get? a.name.name with
  | some first =>
    have hmoved : (t.relocated f).get? (a.relocated f).name.name = some (first.relocated f) := by
      rw [get?_relocated]
      exact congrArg (Option.map _) hfirst
    rw [register_of_get? t hfirst, register_of_get? _ hmoved]
    rfl
  | none =>
    obtain ⟨u, hu⟩ : ∃ u, t.register a = .ok u := by
      unfold register
      split
      · simp_all
      · exact ⟨_, rfl⟩
    have hentries := congrArg (List.map (Alias.relocated f)) (register_eq_ok_iff.mp hu)
    rw [List.map_append] at hentries
    rw [hu]
    exact register_eq_ok_iff.mpr hentries

theorem registerAll_relocated (aliases : List Alias) :
    (t.relocated f).registerAll (aliases.map (Alias.relocated f)) =
      Prod.map (relocated f) (moved f id) (t.registerAll aliases) := by
  induction aliases generalizing t with
  | nil => rfl
  | cons a rest ih =>
    rw [List.map_cons, registerAll, registerAll, register_relocated]
    cases t.register a with
    | ok u => exact ih u
    | error e => rfl

theorem applySize_relocated (s : SizedType) (r : Resolved) :
    applySize (s.relocated f) r = moved f id (applySize s r) := by
  cases r with
  | primitive type =>
    rw [applySize_primitive, applySize_primitive]
    by_cases htype : type = .string ∨ type = .bytes
    · rw [if_pos htype, if_pos htype]
      by_cases hsize : s.size.value.toNat < UInt32.size
      · rw [if_pos hsize]
        exact if_pos hsize
      · rw [if_neg hsize]
        exact if_neg hsize
    · rw [if_neg htype, if_neg htype]
      rfl
  | _ => rfl

/-- The name of an alias that was not met yet leads on to the target. -/
theorem resolveName_of_get? {chain : List String} {name : String} {a : Alias} (htype : Primitive.ofName? name = none)
    (ha : t.get? name = some a) (hchain : name ∉ chain) (place : Span) :
    t.resolveName chain name place =
      match a.target with
      | .path path =>
        if path.isSimple then t.resolveName (chain ++ [name]) path.dotted path.span else .ok (.reference path.dotted)
      | .sized sized => t.resolveName (chain ++ [name]) sized.name.name sized.name.span >>= applySize sized := by
  rw [resolveName]
  split
  · simp_all
  · split
    · simp_all
    · rename_i b hb
      obtain rfl : a = b := Option.some.inj (ha.symm.trans hb)
      exact dif_neg hchain

theorem resolveName_relocated (chain : List String) (name : String) (place : Span) :
    (t.relocated f).resolveName chain name (place.relocated f) = moved f id (t.resolveName chain name place) := by
  have hget {name : String} {a : Alias} (ha : t.get? name = some a) :
      (t.relocated f).get? name = some (a.relocated f) := by
    rw [get?_relocated, ha]
    rfl
  fun_induction resolveName t chain name place with
  | case1 chain name place type htype =>
    fun_cases resolveName (t.relocated f) chain name (place.relocated f) <;> simp_all
  | case2 chain name place htype ha =>
    fun_cases resolveName (t.relocated f) chain name (place.relocated f) <;> simp_all
  | case3 chain name place htype a ha hmem =>
    have hmoved := hget ha
    fun_cases resolveName (t.relocated f) chain name (place.relocated f) <;> simp_all [LoweringError.relocated]
  | case4 chain name place htype a ha hmem hlt path htarget hsimple ih =>
    rw [resolveName_of_get? _ htype (hget ha) hmem]
    simp only [Alias.relocated, TypeName.relocated, htarget, TypePath.isSimple_relocated, hsimple, if_true,
      TypePath.dotted_relocated]
    exact ih
  | case5 chain name place htype a ha hmem hlt path htarget hsimple =>
    rw [resolveName_of_get? _ htype (hget ha) hmem]
    simp [Alias.relocated, TypeName.relocated, htarget, hsimple]
  | case6 chain name place htype a ha hmem hlt sized htarget ih =>
    rw [resolveName_of_get? _ htype (hget ha) hmem]
    simp only [Alias.relocated, TypeName.relocated, htarget]
    exact moved_bind ih fun r => applySize_relocated sized r

theorem resolve_relocated (type : TypeName) :
    (t.relocated f).resolve (type.relocated f) = moved f id (t.resolve type) := by
  cases type with
  | path p =>
    simp only [TypeName.relocated, resolve, TypePath.isSimple_relocated, TypePath.dotted_relocated]
    split
    · exact resolveName_relocated t [] p.dotted p.span
    · rfl
  | sized s =>
    refine moved_bind (resolveName_relocated t [] s.name.name s.name.span) fun r => ?_
    exact applySize_relocated s r

theorem check_relocated (a : Alias) : (t.relocated f).check (a.relocated f) = moved f id (t.check a) := by
  refine moved_bind (resolve_relocated t a.target) fun r => ?_
  cases r with
  | reference target =>
    have hplace := TypeName.span_relocated f a.target
    exact congrArg (fun place => Except.error (aliasOfContainer a.name.name target place)) hplace
  | _ => rfl

theorem validate_relocated : (t.relocated f).validate = moved f id t.validate := by
  unfold validate
  have hcheck := check_relocated t (f := f)
  have hentries : (t.relocated f).entries = t.entries.map (Alias.relocated f) := rfl
  rw [hentries]
  induction t.entries with
  | nil => rfl
  | cons a rest ih => exact moved_bind (hcheck a) fun _ => ih

/-! ## Properties and bodies -/

theorem shape_relocated (type : PropertyType) :
    (t.relocated f).shape (type.relocated f) = moved f id (t.shape type) := by
  cases type with
  | single type =>
    refine moved_bind (resolve_relocated t type) fun r => ?_
    cases r <;> rfl
  | vector v =>
    refine moved_bind (resolve_relocated t v.item) fun r => ?_
    cases r with
    | strict type size =>
      have hplace := TypeName.span_relocated f v.item
      exact congrArg (fun place => Except.error (sizedItem type size place)) hplace
    | _ => rfl

theorem lowerBody_relocated (pending : List String) (body : List BodyEntry) :
    (t.relocated f).lowerBody pending (body.map (BodyEntry.relocated f)) = moved f id (t.lowerBody pending body) := by
  induction pending, body using lowerBody.induct with
  | case1 => rfl
  | case2 pending c rest ih => exact ih
  | case3 pending p rest ih =>
    have hproperty : (t.relocated f).lowerProperty pending (p.relocated f) = moved f id (t.lowerProperty pending p) :=
      moved_bind (shape_relocated t p.type) fun _ => rfl
    exact moved_bind hproperty fun _ => moved_bind ih fun _ => rfl

/-! ## Items -/

theorem lowerDeclaration_relocated (doc : List String) (d : Declaration) :
    (t.relocated f).lowerDeclaration doc (d.relocated f) = moved f id (t.lowerDeclaration doc d) := by
  refine moved_bind (lowerBody_relocated t [] d.body) fun params => ?_
  simp only [Declaration.relocated, TypePath.dotted_relocated]
  rfl

theorem lowerMembers_relocated (typeName : String) (traits groupDoc pending : List String) (body : List GroupMember) :
    (t.relocated f).lowerMembers typeName traits groupDoc pending (body.map (GroupMember.relocated f)) =
      moved f (Scope.containersRelocated f) (t.lowerMembers typeName traits groupDoc pending body) := by
  induction pending, body using lowerMembers.induct with
  | case1 => rfl
  | case2 pending c rest ih => exact ih
  | case3 pending c rest ih =>
    refine moved_bind (lowerBody_relocated t [] c.body) fun params => moved_bind ih fun more => ?_
    simp only [GroupContainer.relocated, TypePath.dotted_relocated]
    rfl

theorem lowerGroup_relocated (doc : List String) (g : TypeGroup) :
    (t.relocated f).lowerGroup doc (g.relocated f) = moved f (Scope.containersRelocated f) (t.lowerGroup doc g) := by
  have htraits : (g.traits.map (TypePath.relocated f)).map TypePath.dotted = g.traits.map TypePath.dotted := by
    simp [Function.comp_def]
  simp only [lowerGroup, TypeGroup.relocated, htraits]
  exact lowerMembers_relocated t g.name.name (g.traits.map TypePath.dotted) doc [] g.body

theorem lowerTrait_relocated (d : TraitDeclaration) :
    (t.relocated f).lowerTrait (d.relocated f) = moved f id (t.lowerTrait d) :=
  moved_bind (lowerBody_relocated t [] d.body) fun _ => rfl

end AliasTable

namespace Scope

@[simp] theorem declares_relocated (s : Scope) (name : String) : (s.relocated f).declares name = s.declares name := by
  simp only [declares, relocated, containersRelocated, List.any_map]
  rfl

theorem append_relocated (s u : Scope) : (s.relocated f).append (u.relocated f) = (s.append u).relocated f := by
  simp [append, relocated, containersRelocated]

theorem enclose_relocated (s : Scope) (spaceName : String) :
    (s.relocated f).enclose spaceName = (s.enclose spaceName).relocated f := by
  have hdeclares : (s.relocated f).declares = s.declares := funext (declares_relocated s)
  have hreference := qualifyReference_congr hdeclares
  have hparam := qualifyParam_congr hdeclares
  have hcontainer : (s.relocated f).qualifyContainer spaceName = s.qualifyContainer spaceName := by
    funext c
    rw [qualifyContainer, qualifyContainer, hreference, hparam]
  have htrait : (s.relocated f).qualifyTrait spaceName = s.qualifyTrait spaceName := by
    funext c
    rw [qualifyTrait, qualifyTrait, hparam]
  rw [enclose, enclose, hcontainer, htrait]
  simp [relocated, containersRelocated, Function.comp_def]

theorem lookup_relocated (seen : List (String × Span)) (name : String) :
    (seen.map (Prod.map id (Span.relocated f))).lookup name = (seen.lookup name).map (Span.relocated f) := by
  induction seen with
  | nil => rfl
  | cons head rest ih =>
    obtain ⟨known, place⟩ := head
    simp only [List.map_cons, Prod.map, id, List.lookup_cons, ih]
    cases name == known <;> rfl

/-- Repetitions of a name are found alike. -/
theorem identify_relocated (seen : List (String × Span)) (declared : List (Container × Span)) :
    identify (seen.map (Prod.map id (Span.relocated f))) (containersRelocated f declared) =
      moved f id (identify seen declared) := by
  induction declared generalizing seen with
  | nil => rfl
  | cons head rest ih =>
    obtain ⟨c, place⟩ := head
    have hlookup := lookup_relocated (f := f) seen c.name
    cases hfirst : seen.lookup c.name with
    | some first =>
      simp only [identify, containersRelocated, List.map_cons, Prod.map, id, hlookup, hfirst, Option.map_some]
      rfl
    | none =>
      simp only [identify, containersRelocated, List.map_cons, Prod.map, id, hlookup, hfirst, Option.map_none]
      exact moved_map (ih ((c.name, place) :: seen)) fun _ => rfl

end Scope

theorem AliasTable.lowerItems_relocated (t : AliasTable) (pending : List String) (items : List Item) :
    (t.relocated f).lowerItems pending (items.map (Item.relocated f)) =
      moved f (Scope.relocated f) (t.lowerItems pending items) := by
  induction pending, items using lowerItems.induct with
  | case1 pending =>
    rw [lowerItems]
    exact lowerItems.eq_1 _ _
  | case2 pending c rest ih =>
    simp only [List.map_cons, Item.relocated, lowerItems]
    exact ih
  | case3 pending d rest ih =>
    simp only [List.map_cons, Item.relocated, lowerItems]
    refine moved_bind (lowerDeclaration_relocated t pending d) fun container => moved_bind ih fun more => ?_
    exact congrArg Except.ok (Scope.append_relocated ⟨[(container, d.ctor.span)], []⟩ more)
  | case4 pending g rest ih =>
    simp only [List.map_cons, Item.relocated, lowerItems]
    refine moved_bind (lowerGroup_relocated t pending g) fun members => moved_bind ih fun more => ?_
    exact congrArg Except.ok (Scope.append_relocated ⟨members, []⟩ more)
  | case5 pending name body span rest ihbody ih =>
    simp only [List.map_cons, Item.relocated, Item.bodyRelocated_eq, lowerItems]
    refine moved_bind ihbody fun inner => moved_bind ih fun more => ?_
    rw [Scope.enclose_relocated]
    exact congrArg Except.ok (Scope.append_relocated (inner.enclose name.name) more)
  | case6 pending d rest ih =>
    simp only [List.map_cons, Item.relocated, lowerItems]
    refine moved_bind (lowerTrait_relocated t d) fun declared => moved_bind ih fun more => ?_
    exact congrArg Except.ok (Scope.append_relocated ⟨[], [declared]⟩ more)
  | case7 pending a rest ih =>
    simp only [List.map_cons, Item.relocated, lowerItems]
    exact ih

/-! ## Schemas -/

theorem Item.flatten_relocated (items : List Item) :
    flatten (items.map (relocated f)) = (flatten items).map (relocated f) := by
  induction items using flatten.induct with
  | case1 => rw [List.map_nil, flatten, List.map_nil]
  | case2 name body span rest ihbody ih =>
    simp only [List.map_cons, relocated, bodyRelocated_eq, flatten, List.cons_append, List.map_append, ihbody, ih]
  | case3 item rest hitem ih =>
    cases item with
    | namespaceBlock name body span => exact absurd rfl (hitem name body span)
    | _ => simp only [List.map_cons, relocated, flatten, ih]

theorem Item.aliases_relocated (items : List Item) :
    aliases (items.map (relocated f)) = (aliases items).map (Alias.relocated f) := by
  rw [aliases, aliases, flatten_relocated, List.filterMap_map, List.map_filterMap]
  congr 1
  funext item
  cases item <;> rfl

namespace Schema

variable (s : Schema)

/-- Lowering leaves behind the same with its places moved. -/
theorem lower_relocated : (s.relocated f).lower = s.lower.relocated f := by
  have haliases : AliasTable.registerAll .empty (Item.aliases (s.relocated f).body) =
      Prod.map (AliasTable.relocated f) (moved f id) (AliasTable.registerAll .empty (Item.aliases s.body)) := by
    rw [relocated, Item.aliases_relocated]
    exact AliasTable.registerAll_relocated .empty (Item.aliases s.body)
  unfold lower
  rw [haliases]
  obtain ⟨t, outcome⟩ := AliasTable.registerAll .empty (Item.aliases s.body)
  cases outcome with
  | error e => rfl
  | ok _ =>
    have hscope : (s.relocated f).scope (t.relocated f) = moved f (Scope.relocated f) (s.scope t) :=
      moved_bind (AliasTable.validate_relocated t) fun _ => AliasTable.lowerItems_relocated t [] s.body
    -- The traits that are recorded have no places.
    simp only [Prod.map, moved_ok, hscope]
    cases s.scope t with
    | error e => rfl
    | ok scope =>
      have hidentify := Scope.identify_relocated (f := f) [] scope.containers
      rw [List.map_nil] at hidentify
      simp only [moved_ok, Scope.relocated, Lowered.relocated, hidentify]

end Schema

/-! ## Forgetting all places -/

theorem TypeName.unplaced_eq : unplaced = relocated fun _ => 0 := by
  funext t
  cases t <;> rfl

theorem BodyEntry.unplaced_eq : unplaced = relocated fun _ => 0 := by
  funext entry
  cases entry with
  | comment c => rfl
  | property p =>
    obtain ⟨key, optional, type, span⟩ := p
    cases type <;> simp only [unplaced, Property.unplaced, PropertyType.unplaced, TypeName.unplaced_eq] <;> rfl

theorem GroupMember.unplaced_eq : unplaced = relocated fun _ => 0 := by
  funext member
  cases member with
  | comment c => rfl
  | container c =>
    simp only [unplaced, GroupContainer.unplaced, BodyEntry.unplaced_eq]
    rfl

theorem Item.unplaced_eq (items : List Item) : unplaced items = items.map (relocated fun _ => 0) := by
  fun_induction unplaced items with
  | case1 => rfl
  | case2 c rest ih => exact congrArg _ ih
  | case3 name body span rest ihbody ih =>
    rw [ihbody, ih, List.map_cons, relocated, bodyRelocated_eq]
    rfl
  | case4 g rest ih =>
    simp only [TypeGroup.unplaced, GroupMember.unplaced_eq, ih]
    rfl
  | case5 a rest ih =>
    simp only [Alias.unplaced, TypeName.unplaced_eq, ih]
    rfl
  | case6 t rest ih =>
    simp only [TraitDeclaration.unplaced, BodyEntry.unplaced_eq, ih]
    rfl
  | case7 d rest ih =>
    simp only [Declaration.unplaced, BodyEntry.unplaced_eq, ih]
    rfl

namespace Schema

theorem unplaced_eq : unplaced = relocated fun _ => 0 := by
  funext s
  rw [unplaced, Item.unplaced_eq]
  rfl

/-- Trees that are equal up to places have the same containers, or are refused for the same reason. -/
theorem result_eq_of_unplaced_eq {s s' : Schema} (h : s.unplaced = s'.unplaced) :
    s.lower.result.mapError LoweringError.reason = s'.lower.result.mapError LoweringError.reason := by
  have hmoved (s : Schema) :
      s.lower.result.mapError LoweringError.reason = s.unplaced.lower.result.mapError LoweringError.reason := by
    rw [unplaced_eq, lower_relocated, Lowered.relocated]
    cases s.lower.result with
    | error e => simp [Except.mapError]
    | ok containers => rfl
  rw [hmoved s, hmoved s', h]

end Schema

/-! ## Parsing -/

theorem Located.endSpan_relocated (hf : f 0 = 0) (tokens : List Located) :
    endSpan (tokens.map (relocated f)) = (endSpan tokens).relocated f := by
  unfold endSpan
  rw [List.find?_map, List.getLast?_map]
  have hfind : tokens.find? ((fun t => decide (t.token = .eof)) ∘ relocated f) =
      tokens.find? fun t => decide (t.token = .eof) := rfl
  rw [hfind]
  cases tokens.find? fun t => decide (t.token = .eof) with
  | some t => rfl
  | none =>
    cases tokens.getLast? with
    | some t => rfl
    | none => simp [Span.relocated, hf]

/-- Where the places of tokens are moved, but not the beginning of the source, they have the same tree with its places
moved, or are refused for the same reason at the same token. -/
theorem Schema.ofTokens_relocated (hf : f 0 = 0) (tokens : List Located) :
    ofTokens (tokens.map (Located.relocated f)) =
      ((ofTokens tokens).map (Schema.relocated f)).mapError (ParseError.relocated f) := by
  have hread := Parser.readItems_relocated f false (Located.beforeEof tokens)
  rw [Parser.allRelocated, ← Located.beforeEof_relocated] at hread
  cases houtcome : Parser.readItems false (Located.beforeEof tokens) with
  | error r =>
    rw [houtcome] at hread
    rw [Parser.ofTokens_eq_error_iff.mpr ⟨r, houtcome, rfl⟩, Parser.ofTokens_eq_error_iff.mpr ⟨_, hread, rfl⟩,
      Located.endSpan_relocated hf, ParseError.ofRejection_relocated]
    rfl
  | ok found =>
    rw [houtcome] at hread
    rw [Parser.ofTokens_of_readItems houtcome, Parser.ofTokens_of_readItems hread, List.getLast?_map]
    cases tokens.getLast? <;> simp [Except.map, Except.mapError, relocated, Span.relocated, hf]

end SchemaWire
