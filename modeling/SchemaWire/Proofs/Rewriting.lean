import Mathlib.Logic.Relation
import SchemaWire.Proofs.Congruence

/-!
# Values that are encoded alike

Encoding reads of an object its name and the params of its container, and nothing else (`encode_eq_of_rewrites`). What
may be rewritten in a value depends on where it stands, since only there it is known which container an object belongs
to, and whether a string is the name of one.
-/

namespace SchemaWire

/-! ## Positions -/

/-- Where a value stands. -/
inductive Position
  /-- A value that names its container. -/
  | reference
  /-- A value of the container, whatever it names. -/
  | container (c : Container)
  /-- A vector of values that name their containers. -/
  | references
  /-- Any other value, in which no containers are looked for. -/
  | plain

namespace Position

/-- The position of a value of a layout. -/
def ofShape : Shape → Position
  | .reference _ => .reference
  | .vector (.container _) => .references
  | _ => .plain

/-- The position of the items of an array. -/
def item : Position → Position
  | .references => .reference
  | _ => .plain

/-- The container that an object is encoded as. -/
def container? (r : Registry) (pos : Position) (v : Value) : Option Container :=
  match pos with
  | .reference => r.containerOf? v
  | .container c => some c
  | _ => none

/-- Whether a container that a position is of is one of the registry. -/
def IsKnown (r : Registry) (pos : Position) : Prop :=
  ∀ c, pos = .container c → c ∈ r.containers

end Position

/-- The position of the value of a param. -/
def Param.position (p : Param) : Position :=
  match p.shape? with
  | some shape => .ofShape shape
  | none => .plain

/-- The position of the value under a key of an object. -/
def Position.field (r : Registry) (pos : Position) (v : Value) (key : String) : Position :=
  match (pos.container? r v).bind fun c => c.params.find? fun p => p.name == key with
  | some p => p.position
  | none => .plain

/-- The position of what is encoded as the container of a name. -/
def Registry.position (r : Registry) (name : String) : Position :=
  match r.container? name with
  | some c => .container c
  | none => .plain

/-! ## Rewrites -/

/-- Whether a value is a zero without a sign. -/
def Value.IsZeroNumber (v : Value) : Prop :=
  v = .int 0 ∨ v = .float .zero

/-- Whether a value is the zero of a primitive type. -/
def Primitive.IsZero : Primitive → Value → Prop
  | .bool, v => v = .bool false
  | .string, v => v = .string ""
  | .bytes, v => v = .bytes []
  | _, v => v.IsZeroNumber

/-- One rewrite of a value at a position, at any depth. Keys are only taken away here. -/
inductive Value.Rewrites (r : Registry) : Position → Value → Value → Prop
  /-- The keys of an object in another order. -/
  | reorder {pos : Position} {fields others : Fields Value} (hnames : fields.names.Nodup) (h : fields.Perm others) :
    Rewrites r pos (.object fields) (.object others)
  /-- A key less that is neither the name nor a param of the container that the object is encoded as. -/
  | unknown {pos : Position} {before after : Fields Value} {key : String} {value : Value} (hname : key ≠ "_name")
    (hkey : ∀ c, pos.container? r (.object (before ++ (key, value) :: after)) = some c →
      key ∉ c.params.map Param.name) :
    Rewrites r pos (.object (before ++ (key, value) :: after)) (.object (before ++ after))
  /-- A key less whose value is `null`. -/
  | null {pos : Position} {before after : Fields Value} {key : String}
    (hfresh : key ∉ Fields.names (before ++ after)) :
    Rewrites r pos (.object (before ++ (key, .null) :: after)) (.object (before ++ after))
  /-- A required primitive param less whose value is zero. -/
  | zero {pos : Position} {before after : Fields Value} {c : Container} {p : Param} {type : Primitive} {value : Value}
    (hc : pos.container? r (.object (before ++ (p.name, value) :: after)) = some c) (hp : p ∈ c.params)
    (hrequired : p.isOptional = false) (hshape : p.shape? = some (.primitive type)) (hzero : type.IsZero value)
    (hfresh : p.name ∉ Fields.names (before ++ after)) :
    Rewrites r pos (.object (before ++ (p.name, value) :: after)) (.object (before ++ after))
  /-- An object that holds only its name for the bare name. -/
  | spell {pos : Position} {name : String} (hpos : pos = .reference ∨ ∃ c, pos = .container c) :
    Rewrites r pos (.string name) (.tagged name)
  /-- A rewrite of an item of an array. -/
  | item {pos : Position} {before after : List Value} {v w : Value} (h : Rewrites r pos.item v w) :
    Rewrites r pos (.array (before ++ v :: after)) (.array (before ++ w :: after))
  /-- A rewrite of the value under a key of an object. -/
  | field {pos : Position} {before after : Fields Value} {key : String} {v w : Value}
    (h : Rewrites r (pos.field r (.object (before ++ (key, v) :: after)) key) v w) :
    Rewrites r pos (.object (before ++ (key, v) :: after)) (.object (before ++ (key, w) :: after))

namespace Value

/-! ## Keys of objects -/

variable {before after : Fields Value} {key name : String} {value : Value}

theorem name?_of_get? {v w : Value} (h : v.get? "_name" = w.get? "_name") : v.name? = w.name? := by
  rw [name?, name?, h]

theorem get?_of_ne (h : name ≠ key) :
    (object (before ++ (key, value) :: after)).get? name = (object (before ++ after)).get? name := by
  simp only [get?, Fields.get?_append, Fields.get?_cons, if_neg h]

/-- The value under a key that an object has only here. -/
theorem get?_of_fresh (hfresh : key ∉ Fields.names (before ++ after)) (value : Value) :
    (object (before ++ (key, value) :: after)).get? key = some value ∧
      (object (before ++ after)).get? key = none := by
  have hnone : Fields.get? (before ++ after) key = none := Fields.get?_of_not_mem hfresh
  have hbefore : Fields.get? before key = none := by
    rw [Fields.get?_append, Option.or_eq_none_iff] at hnone
    exact hnone.1
  refine ⟨?_, hnone⟩
  rw [get?, Fields.get?_append, hbefore, Fields.get?_cons, if_pos rfl, Option.none_or]

/-- Under a key there is either what an earlier field gives, whatever this one holds, or what this one holds. -/
theorem get?_middle (before after : Fields Value) (key : String) :
    (∃ u, ∀ value, (object (before ++ (key, value) :: after)).get? key = some u) ∨
      ∀ value, (object (before ++ (key, value) :: after)).get? key = some value := by
  simp only [get?, Fields.get?_append, Fields.get?_cons, if_true]
  cases Fields.get? before key with
  | none => exact .inr fun value => rfl
  | some u => exact .inl ⟨u, fun value => rfl⟩

theorem get?_tagged (h : key ≠ "_name") : (tagged name).get? key = none := by
  rw [tagged, get?, Fields.get?_cons, if_neg h, Fields.get?, List.lookup_nil]

end Value

/-- What is the same for two items is the same, item by item, for lists that differ in these. -/
theorem forall₂_replaced {α β : Type} (f : α → β) {a b : α} (h : f a = f b) (before after : List α) :
    List.Forall₂ (fun x y => f x = f y) (before ++ a :: after) (before ++ b :: after) := by
  have hsame (items : List α) : List.Forall₂ (fun x y => f x = f y) items items :=
    List.forall₂_same.mpr fun _ _ => rfl
  exact List.rel_append (hsame before) (.cons h (hsame after))

namespace Registry

/-! ## Values that are treated alike -/

/-- Whether no param of a container of the registry has the name of another one, or of the key for names. -/
def ParamsDistinct (r : Registry) : Prop :=
  ∀ c ∈ r.containers, (c.params.map Param.name).Nodup ∧ "_name" ∉ c.params.map Param.name

/-- Whether encoding treats two values at a position alike. A container's own value is never a param of another one, so
what is said of layouts does not concern it. -/
structure Alike (r : Registry) (pos : Position) (v w : Value) : Prop where
  isNull_eq : v.isNull = w.isNull
  shape_eq : ∀ shape, .ofShape shape = pos → ∀ levels containerName param,
    encodeShape (r.nestedEncoder levels) containerName param (some v) shape =
      encodeShape (r.nestedEncoder levels) containerName param (some w) shape
  container_eq : ∀ c, pos = .container c → ∀ levels, r.encodeContainer levels c v = r.encodeContainer levels c w
  plain_eq : pos = .plain → v.octet? = w.octet? ∧ v.text? = w.text?

/-- Whether two values of a container give the same for each of its params. -/
def SameParams (r : Registry) (c : Container) (v w : Value) : Prop :=
  ∀ p ∈ c.params, ∀ levels, encodeParam (r.nestedEncoder levels) c.name v p =
    encodeParam (r.nestedEncoder levels) c.name w p

variable {r : Registry} {pos : Position} {c : Container} {v w : Value} {levels : Nat} {nested : NestedEncoder}
  {containerName : String} {p : Param}

theorem SameParams.encodeContainer_eq (h : r.SameParams c v w) (levels : Nat) :
    r.encodeContainer levels c v = r.encodeContainer levels c w := by
  cases levels with
  | zero => rfl
  | succ levels => exact encodeContainer_congr fun p hp => h p hp levels

theorem nestedEncoder_eq (hnamed : ∀ param, r.named param v = r.named param w)
    (h : ∀ c, r.containerOf? v = some c → r.SameParams c v w) (levels : Nat) (param : String) :
    r.nestedEncoder levels param v = r.nestedEncoder levels param w := by
  simp only [nestedEncoder, ← hnamed]
  cases hc : r.named param v with
  | error e => rfl
  | ok c => exact (h c (named_eq_ok_iff.mp hc)).encodeContainer_eq levels

theorem mem_of_container? (hpos : pos.IsKnown r) (h : pos.container? r v = some c) :
    c ∈ r.containers := by
  cases pos with
  | reference => exact mem_of_containerOf? h
  | container d =>
    cases h
    exact hpos c rfl
  | references => cases h
  | plain => cases h

/-! ## Objects -/

theorem named_object_eq {fields others : Fields Value}
    (hname : (Value.object fields).name? = (Value.object others).name?) (param : String) :
    r.named param (.object fields) = r.named param (.object others) := by
  simp only [named, hname]

/-- Objects of one name are treated alike if they give the same for each param of their container. Where no container is
looked for they are no values at all. -/
theorem alike_of_objects {fields others : Fields Value}
    (hname : (Value.object fields).name? = (Value.object others).name?)
    (h : ∀ c, pos.container? r (.object fields) = some c → r.SameParams c (.object fields) (.object others)) :
    r.Alike pos (.object fields) (.object others) where
  isNull_eq := rfl
  shape_eq shape hshape levels containerName param := by
    cases shape with
    | primitive type => cases type <;> rfl
    | strict type size => cases type <;> rfl
    | vector item => rfl
    | reference target =>
      subst hshape
      exact nestedEncoder_eq (named_object_eq hname) h levels param
  container_eq c hc levels := by
    subst hc
    exact (h c rfl).encodeContainer_eq levels
  plain_eq _ := ⟨rfl, rfl⟩

theorem alike_of_perm {fields others : Fields Value} (hnames : fields.names.Nodup) (h : fields.Perm others) :
    r.Alike pos (.object fields) (.object others) := by
  have hget (key : String) : (Value.object fields).get? key = (Value.object others).get? key :=
    Fields.get?_eq_of_perm hnames h key
  exact alike_of_objects (Value.name?_of_get? (hget _)) fun c _ p _ levels => encodeParam_of_get? (hget p.name)

theorem alike_of_unknown {before after : Fields Value} {key : String} {value : Value} (hname : key ≠ "_name")
    (hkey : ∀ c, pos.container? r (.object (before ++ (key, value) :: after)) = some c →
      key ∉ c.params.map Param.name) :
    r.Alike pos (.object (before ++ (key, value) :: after)) (.object (before ++ after)) := by
  refine alike_of_objects (Value.name?_of_get? (Value.get?_of_ne hname.symm)) fun c hc p hp levels => ?_
  have hne : p.name ≠ key := by
    rintro rfl
    exact hkey c hc (List.mem_map_of_mem hp)
  exact encodeParam_of_get? (Value.get?_of_ne hne)

theorem alike_of_null {before after : Fields Value} {key : String} (hfresh : key ∉ Fields.names (before ++ after)) :
    r.Alike pos (.object (before ++ (key, .null) :: after)) (.object (before ++ after)) := by
  obtain ⟨hnull, hnone⟩ := Value.get?_of_fresh hfresh .null
  refine alike_of_objects ?_ fun c _ p _ levels => ?_
  · by_cases hkey : "_name" = key
    · rw [Value.name?, Value.name?, hkey, hnull, hnone]
      rfl
    · exact Value.name?_of_get? (Value.get?_of_ne hkey)
  · by_cases hkey : p.name = key
    · refine encodeParam_of_present? ?_
      rw [Value.present?, Value.present?, hkey, hnull, hnone]
      rfl
    · exact encodeParam_of_get? (Value.get?_of_ne hkey)

/-! ## Zeros -/

theorem integer_of_isZeroNumber (h : v.IsZeroNumber) (param : String) (type : Primitive) :
    v.integer param type = .ok 0 := by
  have hint : Double.zero.toInt? = some 0 := by decide +kernel
  rcases h with rfl | rfl
  · rfl
  · simp only [Value.integer, hint]

theorem number_of_isZeroNumber (h : v.IsZeroNumber) (param : String) : v.number param = .ok .zero := by
  have hint : Double.ofInt 0 = .zero := by decide +kernel
  rcases h with rfl | rfl
  · exact congrArg Except.ok hint
  · rfl

theorem longInput_of_isZeroNumber (h : v.IsZeroNumber) (param : String) : v.longInput param = .ok (.int 0) := by
  have hinteger := integer_of_isZeroNumber h param .long
  rcases h with rfl | rfl
  · rfl
  · rw [Value.longInput, hinteger]
    rfl

/-- A zero is written as a value that is missing. -/
theorem encoded_of_isZero {type : Primitive} (h : type.IsZero v) (param : String) :
    (do (← v.entry param type).encoded) = type.zero.encoded := by
  have hsingle : Double.zero.toSingle = ⟨0⟩ := by decide +kernel
  cases type with
  | bool => cases h; rfl
  | string => cases h; rfl
  | bytes => cases h; rfl
  | long => rw [Value.entry, longInput_of_isZeroNumber h]; rfl
  | ulong => rw [Value.entry, longInput_of_isZeroNumber h]; rfl
  | float =>
    rw [Value.entry, number_of_isZeroNumber h, Except.map, hsingle]
    rfl
  | double => rw [Value.entry, number_of_isZeroNumber h]; rfl
  | _ => rw [Value.entry, integer_of_isZeroNumber h]; rfl

theorem isNull_of_isZero {type : Primitive} (h : type.IsZero v) : v.isNull = false := by
  cases type with
  | bool => cases h; rfl
  | string => cases h; rfl
  | bytes => cases h; rfl
  | _ => rcases h with rfl | rfl <;> rfl

theorem alike_of_zero (hdistinct : r.ParamsDistinct) (hpos : pos.IsKnown r)
    {before after : Fields Value} {type : Primitive}
    (hc : pos.container? r (.object (before ++ (p.name, v) :: after)) = some c) (hp : p ∈ c.params)
    (hrequired : p.isOptional = false) (hshape : p.shape? = some (.primitive type)) (hzero : type.IsZero v)
    (hfresh : p.name ∉ Fields.names (before ++ after)) :
    r.Alike pos (.object (before ++ (p.name, v) :: after)) (.object (before ++ after)) := by
  obtain ⟨hvalue, hnone⟩ := Value.get?_of_fresh hfresh v
  obtain ⟨hnames, htag⟩ := hdistinct c (mem_of_container? hpos hc)
  refine alike_of_objects ?_ fun d hd q hq levels => ?_
  · have hkey : "_name" ≠ p.name := fun heq => htag (heq ▸ List.mem_map_of_mem hp)
    exact Value.name?_of_get? (Value.get?_of_ne hkey)
  · obtain rfl : d = c := Option.some.inj (hd.symm.trans hc)
    by_cases hkey : q.name = p.name
    · obtain rfl : q = p := List.inj_on_of_nodup_map hnames hq hp hkey
      simp only [encodeParam, hvalue, hnone, hrequired, encodePresent, hshape, encodeShape, Option.filter_some,
        isNull_of_isZero hzero, Option.filter_none]
      exact encoded_of_isZero hzero q.name
    · exact encodeParam_of_get? (Value.get?_of_ne hkey)

/-! ## Names that stand alone -/

theorem alike_of_spell (hdistinct : r.ParamsDistinct) (hpos : pos.IsKnown r)
    (hlooked : pos = .reference ∨ ∃ c, pos = .container c) (name : String) :
    r.Alike pos (.string name) (.tagged name) := by
  have hparams (c : Container) (hc : c ∈ r.containers) : r.SameParams c (.string name) (.tagged name) := by
    intro p hp levels
    have hne : p.name ≠ "_name" := fun heq => (hdistinct c hc).2 (heq ▸ List.mem_map_of_mem hp)
    exact encodeParam_of_get? (Value.get?_tagged hne).symm
  have hnested : ∀ levels param,
      r.nestedEncoder levels param (.string name) = r.nestedEncoder levels param (.tagged name) :=
    nestedEncoder_eq (fun _ => rfl) fun c hc => hparams c (mem_of_containerOf? hc)
  rcases hlooked with rfl | ⟨c, rfl⟩
  · refine ⟨rfl, fun shape hshape levels containerName param => ?_, fun c hc => (by cases hc), fun h => (by cases h)⟩
    cases shape with
    | reference target => exact hnested levels param
    | vector item => cases item <;> cases hshape
    | _ => cases hshape
  · refine ⟨rfl, fun shape hshape => ?_, fun d hd => ?_, fun h => (by cases h)⟩
    · cases shape with
      | vector item => cases item <;> cases hshape
      | _ => cases hshape
    · cases hd
      exact (hparams c (hpos c rfl)).encodeContainer_eq

/-! ## Rewrites below -/

theorem ofShape_item (item : VectorItem) : Position.ofShape item.shape = (Position.ofShape (.vector item)).item := by
  cases item <;> rfl

theorem octets_replaced {before after : List Value} (h : v.octet? = w.octet?) (param : String) :
    (Value.array (before ++ v :: after)).octets param = (Value.array (before ++ w :: after)).octets param := by
  have hitems := mapM_congr (forall₂_replaced Value.octet? h before after)
  simp only [Value.octets, hitems]

theorem alike_of_item {before after : List Value} (h : r.Alike pos.item v w) :
    r.Alike pos (.array (before ++ v :: after)) (.array (before ++ w :: after)) := by
  refine ⟨rfl, fun shape hshape levels containerName param => ?_, fun c _ levels => ?_, fun _ => ⟨rfl, rfl⟩⟩
  · cases shape with
    | primitive type =>
      subst hshape
      cases type with
      | bytes => simp only [encodeShape, Value.entry, octets_replaced (h.plain_eq rfl).1]
      | _ => rfl
    | strict type size =>
      subst hshape
      cases type with
      | bytes => simp only [encodeShape, Value.strictEntry, octets_replaced (h.plain_eq rfl).1]
      | _ => rfl
    | vector item =>
      have hitem : Position.ofShape item.shape = pos.item := by rw [ofShape_item, hshape]
      have hsame := h.shape_eq item.shape hitem levels containerName param
      exact encodeItems_congr containerName (forall₂_replaced (fun u =>
        encodeShape (r.nestedEncoder levels) containerName param (some u) item.shape) hsame before after)
    | reference target => rfl
  · have hparams : r.SameParams c (.array (before ++ v :: after)) (.array (before ++ w :: after)) := fun _ _ _ => rfl
    exact hparams.encodeContainer_eq levels

theorem encodeParam_of_alike {x y : Value} (hx : x.get? p.name = some v) (hy : y.get? p.name = some w)
    (h : r.Alike p.position v w) :
    encodeParam (r.nestedEncoder levels) containerName x p = encodeParam (r.nestedEncoder levels) containerName y p := by
  refine encodeParam_of_shape hx hy h.isNull_eq fun shape hshape => ?_
  exact h.shape_eq shape (by rw [Param.position, hshape]) levels containerName p.name

theorem field_eq_position (hdistinct : r.ParamsDistinct) (hpos : pos.IsKnown r)
    (hc : pos.container? r v = some c) (hp : p ∈ c.params) : pos.field r v p.name = p.position := by
  have hfind : (c.params.find? fun q => q.name == p.name) = some p :=
    (find?_eq_some_iff_of_nodup (hdistinct c (mem_of_container? hpos hc)).1).mpr ⟨hp, rfl⟩
  rw [Position.field, hc, Option.bind_some, hfind]

/-- The key for names is no param. -/
theorem field_name_eq_plain (hdistinct : r.ParamsDistinct) (hpos : pos.IsKnown r) :
    pos.field r v "_name" = .plain := by
  rw [Position.field]
  split
  · next p hp =>
    obtain ⟨c, hc, hfind⟩ := Option.bind_eq_some_iff.mp hp
    have hname : p.name = "_name" := by simpa using List.find?_some hfind
    have htag := (hdistinct c (mem_of_container? hpos hc)).2
    exact absurd (List.mem_map.mpr ⟨p, List.mem_of_find?_eq_some hfind, hname⟩) htag
  · rfl

theorem alike_of_field (hdistinct : r.ParamsDistinct) (hpos : pos.IsKnown r)
    {before after : Fields Value} {key : String}
    (h : r.Alike (pos.field r (.object (before ++ (key, v) :: after)) key) v w) :
    r.Alike pos (.object (before ++ (key, v) :: after)) (.object (before ++ (key, w) :: after)) := by
  have hother {name : String} (hne : name ≠ key) : (Value.object (before ++ (key, v) :: after)).get? name =
      (Value.object (before ++ (key, w) :: after)).get? name :=
    (Value.get?_of_ne hne).trans (Value.get?_of_ne hne).symm
  refine alike_of_objects ?_ fun c hc p hp levels => ?_
  · by_cases hkey : "_name" = key
    · subst hkey
      rw [field_name_eq_plain hdistinct hpos] at h
      rcases Value.get?_middle before after "_name" with ⟨u, hu⟩ | hthis
      · exact Value.name?_of_get? ((hu v).trans (hu w).symm)
      · rw [Value.name?, Value.name?, hthis, hthis, Option.bind_some, Option.bind_some, (h.plain_eq rfl).2]
    · exact Value.name?_of_get? (hother hkey)
  · by_cases hkey : p.name = key
    · subst hkey
      rw [field_eq_position hdistinct hpos hc hp] at h
      rcases Value.get?_middle before after p.name with ⟨u, hu⟩ | hthis
      · exact encodeParam_of_get? ((hu v).trans (hu w).symm)
      · exact encodeParam_of_alike (hthis v) (hthis w) h
    · exact encodeParam_of_get? (hother hkey)

theorem ofShape_ne_container (shape : Shape) : .ofShape shape ≠ Position.container c := by
  cases shape with
  | vector item => cases item <;> exact nofun
  | _ => exact nofun

theorem item_ne_container : pos.item ≠ .container c := by
  cases pos <;> exact nofun

theorem field_ne_container {key : String} : pos.field r v key ≠ .container c := by
  rw [Position.field]
  split
  · rw [Param.position]
    split
    · exact ofShape_ne_container _
    · exact nofun
  · exact nofun

/-- By induction on the rewrite: what is alike below is alike in the array or object around it. -/
theorem alike_of_rewrites (hdistinct : r.ParamsDistinct) (h : v.Rewrites r pos w) (hpos : pos.IsKnown r) :
    r.Alike pos v w := by
  induction h with
  | reorder hnames h => exact alike_of_perm hnames h
  | unknown hname hkey => exact alike_of_unknown hname hkey
  | null hfresh => exact alike_of_null hfresh
  | zero hc hp hrequired hshape hzero hfresh =>
    exact alike_of_zero hdistinct hpos hc hp hrequired hshape hzero hfresh
  | spell hlooked => exact alike_of_spell hdistinct hpos hlooked _
  | item _ ih => exact alike_of_item (ih fun c hc => absurd hc item_ne_container)
  | field _ ih => exact alike_of_field hdistinct hpos (ih fun c hc => absurd hc field_ne_container)

theorem encodeNamed_of_alike {name : String} (h : r.Alike (r.position name) v w) :
    r.encodeNamed name v = r.encodeNamed name w := by
  rw [encodeNamed, encodeNamed]
  cases hc : r.container? name with
  | none => rfl
  | some c =>
    have hpos : r.position name = .container c := by rw [position, hc]
    exact h.container_eq c hpos (r.config.maxDepth + 1)

theorem isKnown_position (r : Registry) (name : String) : (r.position name).IsKnown r := by
  intro c hc
  rw [position] at hc
  split at hc
  · next d hd =>
    cases hc
    exact (container?_eq_some_iff.mp hd).1
  · cases hc

/-- What is the same after each step is the same after any number of steps, made either way. -/
theorem eq_of_eqvGen {α β : Type} {step : α → α → Prop} {f : α → β} (hstep : ∀ a b, step a b → f a = f b) {a b : α}
    (h : Relation.EqvGen step a b) : f a = f b :=
  congrArg (Quot.lift f hstep) (Quot.eqvGen_sound h)

/-- Values that come of each other by any number of rewrites, made either way, are encoded alike: as what they name
themselves, and as the container of any given name. -/
theorem encode_eq_of_rewrites (hdistinct : r.ParamsDistinct) :
    (∀ v w, Relation.EqvGen (Value.Rewrites r .reference) v w → r.encode v = r.encode w) ∧
      ∀ name v w, Relation.EqvGen (Value.Rewrites r (r.position name)) v w →
        r.encodeNamed name v = r.encodeNamed name w := by
  constructor
  · intro v w h
    refine eq_of_eqvGen (fun v w hstep => ?_) h
    have halike : r.Alike .reference v w := alike_of_rewrites hdistinct hstep nofun
    exact halike.shape_eq (.reference "") rfl (r.config.maxDepth + 1) "" "root"
  · intro name v w h
    refine eq_of_eqvGen (fun v w hstep => ?_) h
    exact encodeNamed_of_alike (alike_of_rewrites hdistinct hstep (isKnown_position r name))

/-- An object that names a link first. -/
def linkWith (fields : Fields Value) : Value :=
  .object ([("_name", .string "link")] ++ fields)

/-- A link before another one. -/
def linkBefore (next : Value) : Value :=
  linkWith (("next", next) :: [("value", .uint 5)])

/-- Two links in another spelling: the second has its name and its number, and a key that links do not have. -/
def twoLinksSpelled : Value :=
  .object [("value", .uint 5), ("_name", .string "link"),
    ("next", linkWith [("color", .string "red"), ("value", .int 0)])]

theorem encode_eq_of_rewrites_twoLinks :
    links.ParamsDistinct ∧ links.encode twoLinks = links.encode twoLinksSpelled ∧
      links.encode twoLinksSpelled = .ok [7, 0, 0, 0, 5, 0, 0, 0, 1, 7, 0, 0, 0, 0, 0, 0, 0, 0] := by
  have hdistinct : links.ParamsDistinct := by
    simp only [ParamsDistinct, links, containers_ofNodup, List.mem_singleton, forall_eq]
    decide
  have hspelled : (linkBefore (.string "link")).Rewrites links .reference (linkBefore (linkWith [])) :=
    .field (.spell (.inl rfl))
  have hzero : (linkBefore (linkWith [("value", .int 0)])).Rewrites links .reference (linkBefore (linkWith [])) := by
    refine .field (.zero (c := link) (p := .ofShape "value" (.primitive .uint)) rfl ?_ rfl rfl (.inl rfl) ?_)
    · simp [link]
    · decide
  have hcolor : (linkBefore (linkWith [("color", .string "red"), ("value", .int 0)])).Rewrites links .reference
      (linkBefore (linkWith [("value", .int 0)])) := by
    refine .field (.unknown (by decide) fun c hc => ?_)
    cases hc
    decide
  have hordered : (linkBefore (linkWith [("color", .string "red"), ("value", .int 0)])).Rewrites links .reference
      twoLinksSpelled :=
    .reorder (by decide) (.trans (.cons _ (.swap ..)) (.swap ..))
  have hrewrites : Relation.EqvGen (Value.Rewrites links .reference) twoLinks twoLinksSpelled :=
    .trans _ _ _ (.rel _ _ hspelled) (.trans _ _ _ (.symm _ _ (.rel _ _ hzero))
      (.trans _ _ _ (.symm _ _ (.rel _ _ hcolor)) (.rel _ _ hordered)))
  exact ⟨hdistinct, (encode_eq_of_rewrites hdistinct).1 _ _ hrewrites, rfl⟩

end Registry

end SchemaWire
