import SchemaWire.Engine.Encode
import SchemaWire.Proofs.Locality

/-!
# The order of containers

A list of containers makes a registry if it repeats neither a name nor an id. Containers are then found by these, and
their order is seen nowhere but in the ids that a wrong header was held against: registries of the same containers
encode alike, and decode alike up to this order (`ofContainers_perm`). So it is no matter how containers are spread over
models, nor in which order the models are put together.
-/

namespace SchemaWire

/-! ## Outcomes that are alike -/

/-- Outcomes that are the same success, or related failures. -/
inductive Alike {ε α : Type} (R : ε → ε → Prop) : Except ε α → Except ε α → Prop
  | ok (a : α) : Alike R (.ok a) (.ok a)
  | error {e e' : ε} (h : R e e') : Alike R (.error e) (.error e')

namespace Alike

variable {ε α β : Type} {R : ε → ε → Prop} {x y : Except ε α}

theorem refl (hR : ∀ e, R e e) (x : Except ε α) : Alike R x x := by
  cases x with
  | error e => exact .error (hR e)
  | ok a => exact .ok a

theorem bind {f g : α → Except ε β} (h : Alike R x y) (hf : ∀ a, Alike R (f a) (g a)) :
    Alike R (x >>= f) (y >>= g) := by
  cases h with
  | ok a => exact hf a
  | error h => exact .error h

end Alike

/-- Failures that are the same up to the order of the ids that a header was held against. -/
inductive EngineError.SameButOrder : EngineError → EngineError → Prop
  | same (e : EngineError) : SameButOrder e e
  | header (param : String) {expected expected' : List UInt32} (found : UInt32) (h : expected.Perm expected') :
    SameButOrder (.headerMismatch param expected found) (.headerMismatch param expected' found)

/-- Failures of decoding at the same place, the same up to that order. -/
structure DecodeFailure.SameButOrder (f g : DecodeFailure) : Prop where
  error : f.error.SameButOrder g.error
  place : f.place = g.place

theorem DecodeFailure.SameButOrder.refl (f : DecodeFailure) : f.SameButOrder f :=
  ⟨.same f.error, rfl⟩

/-- Decoders with outcomes that are alike at every place. -/
def Decoder.Alike {α : Type} (d d' : Decoder α) : Prop :=
  ∀ place, SchemaWire.Alike DecodeFailure.SameButOrder (d.run place) (d'.run place)

namespace Decoder

variable {α β : Type} {d d' : Decoder α}

theorem Alike.refl (d : Decoder α) : d.Alike d :=
  fun place => .refl DecodeFailure.SameButOrder.refl (d.run place)

theorem Alike.bind {k k' : α → Decoder β} (h : d.Alike d') (hk : ∀ a, (k a).Alike (k' a)) :
    (d >>= k).Alike (d' >>= k') := by
  intro place
  rw [StateT.run_bind, StateT.run_bind]
  exact (h place).bind fun a => hk a.1 a.2

theorem Alike.map (h : d.Alike d') (f : α → β) : (do return f (← d) : Decoder β).Alike (do return f (← d')) :=
  h.bind fun a => .refl (pure (f a))

theorem Alike.times (h : d.Alike d') (n : Nat) : (times n d).Alike (times n d') := by
  induction n with
  | zero => exact .refl (pure [])
  | succ n ih => exact h.bind fun first => ih.map (first :: ·)

end Decoder

namespace Registry

variable {r u : Registry}

/-- Registries of the same containers and settings. -/
structure Rearranges (r u : Registry) : Prop where
  containers : r.containers.Perm u.containers
  config : r.config = u.config

/-- Registries that give the same octets for every value, and for all octets the same value or the same failure up to
the order of the ids that a header was held against. -/
structure WorksAs (r u : Registry) : Prop where
  encode : ∀ v, r.encode v = u.encode v
  encodeNamed : ∀ name v, r.encodeNamed name v = u.encodeNamed name v
  decode : ∀ octets, Alike EngineError.SameButOrder (r.decode octets) (u.decode octets)
  decodeFrom : r.decodeFrom.Alike u.decodeFrom

/-! ## What is found -/

namespace Rearranges

variable (h : r.Rearranges u)
include h

theorem container?_eq (name : String) : r.container? name = u.container? name := by
  ext c
  rw [container?_eq_some_iff, container?_eq_some_iff, h.containers.mem_iff]

theorem containerOfId?_eq (id : UInt32) : r.containerOfId? id = u.containerOfId? id := by
  ext c
  rw [containerOfId?_eq_some_iff, containerOfId?_eq_some_iff, h.containers.mem_iff]

/-- Both know the same ids of a reference. Neither repeats one, so that no other difference than order is left. -/
theorem possibleIds_perm (reference : String) : (r.possibleIds reference).Perm (u.possibleIds reference) := by
  have hmatching (keep : Container → Bool) : (r.containers.filter keep).Perm (u.containers.filter keep) :=
    h.containers.filter keep
  rw [possibleIds_eq, possibleIds_eq, ← r.container?_eq, ← u.container?_eq, h.container?_eq]
  cases u.container? reference with
  | some c => exact .refl [c.id]
  | none =>
    refine (List.perm_ext_iff_of_nodup (nodup_eraseDups _) (nodup_eraseDups _)).mpr fun id => ?_
    rw [List.mem_eraseDups, List.mem_eraseDups]
    exact (((hmatching _).append (hmatching _)).map Container.id).mem_iff

/-! ## Encoding -/

theorem named_eq : r.named = u.named := by
  funext param v
  simp only [named, h.container?_eq]

theorem encodeContainer_eq (levels : Nat) : r.encodeContainer levels = u.encodeContainer levels := by
  induction levels with
  | zero =>
    funext c v
    rw [encodeContainer, encodeContainer, h.config]
  | succ levels ih =>
    funext c v
    rw [encodeContainer, encodeContainer, ih, h.named_eq]

theorem encode_eq (v : Value) : r.encode v = u.encode v := by
  rw [encode, encode, h.named_eq, h.config, h.encodeContainer_eq]

theorem encodeNamed_eq (name : String) (v : Value) : r.encodeNamed name v = u.encodeNamed name v := by
  rw [encodeNamed, encodeNamed, h.container?_eq, h.config, h.encodeContainer_eq]

/-! ## Decoding -/

theorem alike_checkHeader (reference param : String) :
    (r.checkHeader reference param).Alike (u.checkHeader reference param) := by
  intro place
  have hids := h.possibleIds_perm reference
  have hne : r.possibleIds reference ≠ [] ↔ u.possibleIds reference ≠ [] := by
    rw [← List.length_pos_iff, hids.length_eq, List.length_pos_iff]
  rw [run_checkHeader, run_checkHeader, h.config]
  simp only [hne, hids.mem_iff]
  split
  · cases place.peek with
    | error e => exact .refl DecodeFailure.SameButOrder.refl _
    | ok found =>
      simp only
      split
      · exact .ok _
      · exact .error ⟨.header param found hids, rfl⟩
  · exact .ok _

section Nested

variable {nested nested' : Decoder Value} (hnested : nested.Alike nested')
include hnested

theorem alike_decodeReference (reference param : String) :
    (r.decodeReference nested reference param).Alike (u.decodeReference nested' reference param) :=
  (h.alike_checkHeader reference param).bind fun _ => hnested

theorem alike_decodeShape (param : String) (shape : Shape) :
    (r.decodeShape nested param shape).Alike (u.decodeShape nested' param shape) := by
  have hreference := h.alike_decodeReference hnested
  cases shape with
  | primitive type => exact .refl _
  | strict type size => cases type <;> exact .refl _
  | vector item =>
    refine .bind (.refl _) fun count => ?_
    cases item with
    | primitive type => exact .refl _
    | container reference => exact ((hreference reference param).times count).map _
  | reference reference => exact hreference reference param

theorem alike_decodeParam (containerName : String) (p : Param) :
    (r.decodeParam nested containerName p).Alike (u.decodeParam nested' containerName p) := by
  unfold decodeParam
  cases p.shape? with
  | none => exact .refl _
  | some shape =>
    have hpresent := (h.alike_decodeShape hnested p.name shape).map some
    by_cases hoptional : p.isOptional = true
    · rw [if_pos hoptional, if_pos hoptional]
      refine .bind (.refl _) fun there => ?_
      cases there with
      | false => exact .refl (pure none)
      | true => exact hpresent
    · rw [if_neg hoptional, if_neg hoptional]
      exact hpresent

theorem alike_decodeParams (containerName : String) (params : List Param) :
    (r.decodeParams nested containerName params).Alike (u.decodeParams nested' containerName params) := by
  induction params with
  | nil => exact .refl (pure [])
  | cons p rest ih => exact (h.alike_decodeParam hnested containerName p).bind fun value => ih.map _

end Nested

/-- By induction on the levels: what is nested decodes alike. -/
theorem alike_decodeContainer (levels : Nat) : (r.decodeContainer levels).Alike (u.decodeContainer levels) := by
  induction levels with
  | zero =>
    rw [decodeContainer, decodeContainer, h.config]
    exact .refl _
  | succ levels ih =>
    refine .bind (.refl _) fun id => ?_
    rw [h.containerOfId?_eq]
    cases u.containerOfId? id with
    | none => exact .refl _
    | some c => exact (h.alike_decodeParams ih c.name c.params).map _

theorem alike_decodeFrom : r.decodeFrom.Alike u.decodeFrom := by
  rw [decodeFrom, decodeFrom, h.config]
  exact h.alike_decodeContainer _

theorem alike_decode (octets : Bytes) : Alike EngineError.SameButOrder (r.decode octets) (u.decode octets) := by
  have hrun := h.alike_decodeFrom (.ofBytes octets)
  rw [decode, decode]
  generalize r.decodeFrom.run (.ofBytes octets) = outcome, u.decodeFrom.run (.ofBytes octets) = outcome' at hrun ⊢
  cases hrun with
  | ok result => exact .ok result.1
  | error hfailure => exact .error hfailure.error

theorem worksAs : r.WorksAs u :=
  ⟨h.encode_eq, h.encodeNamed_eq, h.alike_decode, h.alike_decodeFrom⟩

end Rearranges

variable {containers : List Container} {config : Config}

theorem exists_ofContainers_of_perm {containers' : List Container} (h : ofContainers containers config = .ok r)
    (hperm : containers.Perm containers') : ∃ u, ofContainers containers' config = .ok u ∧ r.Rearranges u := by
  obtain ⟨rfl, rfl⟩ := ofContainers_eq_ok_iff.mp h
  have hnodup : (containers'.map Container.name).Nodup ∧ (containers'.map Container.id).Nodup :=
    ⟨(hperm.map _).nodup_iff.mp r.names_nodup, (hperm.map _).nodup_iff.mp r.ids_nodup⟩
  obtain ⟨u, hu⟩ := exists_ofContainers_iff.mpr hnodup
  obtain ⟨hsame, hconfig⟩ := ofContainers_eq_ok_iff.mp hu
  exact ⟨u, hu, by rwa [hsame], hconfig.symm⟩

/-- A list of containers makes a registry exactly if it repeats neither a name nor an id. What is found by a name, an id
or a type is then exactly what the list has of it. The same containers in another order make a registry that works the
same, be they listed or spread over models. -/
theorem ofContainers_perm (containers : List Container) (config : Config) :
    ((∃ r, ofContainers containers config = .ok r) ↔
      (containers.map Container.name).Nodup ∧ (containers.map Container.id).Nodup) ∧
    ∀ r, ofContainers containers config = .ok r →
      (∀ name c, r.container? name = some c ↔ c ∈ containers ∧ c.name = name) ∧
      (∀ id c, r.containerOfId? id = some c ↔ c ∈ containers ∧ c.id = id) ∧
      (∀ typeName, (r.ofType typeName).Sublist containers ∧
        ∀ c, c ∈ r.ofType typeName ↔ c ∈ containers ∧ c.typeName = typeName) ∧
      (∀ containers', containers.Perm containers' → ∃ u, ofContainers containers' config = .ok u ∧ r.WorksAs u) ∧
      ∀ models, containers.Perm (models.flatMap Model.containers) →
        ∃ u, ofModels models config = .ok u ∧ r.WorksAs u := by
  refine ⟨exists_ofContainers_iff, fun r hr => ?_⟩
  -- Models put together are one list again, so that this covers them as well.
  have hworks (containers' : List Container) (hperm : containers.Perm containers') :
      ∃ u, ofContainers containers' config = .ok u ∧ r.WorksAs u := by
    obtain ⟨u, hu, hsame⟩ := exists_ofContainers_of_perm hr hperm
    exact ⟨u, hu, hsame.worksAs⟩
  obtain ⟨rfl, rfl⟩ := ofContainers_eq_ok_iff.mp hr
  refine ⟨fun name c => container?_eq_some_iff, fun id c => containerOfId?_eq_some_iff, fun typeName => ?_, hworks,
    fun models => hworks _⟩
  exact ⟨by rw [ofType_eq]; exact List.filter_sublist, fun c => mem_ofType_iff⟩

/-- A feed and a photo in one list, and in two models the other way around. -/
theorem ofContainers_perm_feeds :
    ∃ r u, ofContainers [feed, photo] ⟨true, 1⟩ = .ok r ∧ ofModels [⟨[photo]⟩, ⟨[feed]⟩] ⟨true, 1⟩ = .ok u ∧
      r.container? "photo" = some photo ∧ r.containerOfId? 1 = some feed ∧ r.WorksAs u := by
  obtain ⟨haccepted, hexact⟩ := ofContainers_perm [feed, photo] ⟨true, 1⟩
  obtain ⟨r, hr⟩ := haccepted.mpr ⟨by decide, by decide⟩
  obtain ⟨hnames, hids, -, -, hmodels⟩ := hexact r hr
  obtain ⟨u, hu, hworks⟩ := hmodels [⟨[photo]⟩, ⟨[feed]⟩] (.swap photo feed [])
  exact ⟨r, u, hr, hu, (hnames "photo" photo).mpr ⟨by simp, rfl⟩, (hids 1 feed).mpr ⟨by simp, rfl⟩, hworks⟩

end Registry

end SchemaWire
