import SchemaWire.Engine.Encode
import SchemaWire.Proofs.Decoding

/-!
# Settings

Encoding does not depend on structural validation, and on the limit of nesting only by what is nested too deep
(`onlyLimits_encode`). Decoding that succeeds is not disturbed by a higher limit or by leaving out the validation
(`run_decodeFrom_withConfig`).
-/

namespace SchemaWire

/-! ## Outcomes that a limit may cut off -/

section Limits

variable {ε α β : Type} {P Q : Prop} {e : ε} {x y : Except ε α} {f g : α → Except ε β}

/-- Whether the second outcome is the first one, if this is a success, or else `e`, for which `P` is needed. -/
def KeptUnless (P : Prop) (e : ε) (x y : Except ε α) : Prop :=
  ∀ a, x = .ok a → y = .ok a ∨ P ∧ y = .error e

namespace KeptUnless

theorem refl (P : Prop) (e : ε) (x : Except ε α) : KeptUnless P e x x := by
  intro a h
  exact .inl h

theorem imp (hPQ : P → Q) (h : KeptUnless P e x y) : KeptUnless Q e x y := by
  intro a ha
  exact (h a ha).imp_right fun ⟨hP, herror⟩ => ⟨hPQ hP, herror⟩

theorem bind (hx : KeptUnless P e x y) (hf : ∀ a, KeptUnless P e (f a) (g a)) :
    KeptUnless P e (x >>= f) (y >>= g) := by
  intro b h
  obtain ⟨a, ha, hb⟩ := Except.bind_eq_ok_iff.mp h
  rcases hx a ha with rfl | ⟨hP, rfl⟩
  · exact hf a b hb
  · exact .inr ⟨hP, rfl⟩

theorem map (k : α → β) (hx : KeptUnless P e x y) : KeptUnless P e (x.map k) (y.map k) := by
  intro b h
  obtain ⟨a, ha, rfl⟩ := Except.map_eq_ok_iff.mp h
  rcases hx a ha with rfl | ⟨hP, rfl⟩
  · exact .inl rfl
  · exact .inr ⟨hP, rfl⟩

/-- The first item that is cut off decides for all of them. -/
theorem mapM {items : List α} (h : ∀ a ∈ items, KeptUnless P e (f a) (g a)) :
    KeptUnless P e (items.mapM f) (items.mapM g) := by
  induction items with
  | nil => exact refl P e _
  | cons a rest ih =>
    rw [List.mapM_cons, List.mapM_cons]
    refine bind (h a List.mem_cons_self) fun b => bind ?_ fun bs => refl P e _
    exact ih fun c hc => h c (List.mem_cons_of_mem a hc)

end KeptUnless

end Limits

namespace Registry

/-- The registry under other settings. -/
def withConfig (r : Registry) (config : Config) : Registry :=
  { r with config }

variable {r : Registry}

/-! ## Encoding -/

section Encoding

variable {P : Prop} {e : EngineError} {nested nested' : NestedEncoder}
  (h : ∀ param v, KeptUnless P e (nested param v) (nested' param v))
include h

theorem keptUnless_encodeItems (param : String) (item : VectorItem) (items : List Value) :
    KeptUnless P e (encodeItems nested param item items) (encodeItems nested' param item items) := by
  refine .bind (.refl P e _) fun count => .bind (.mapM fun v _ => ?_) fun parts => .refl P e _
  cases item with
  | primitive type => exact .refl P e _
  | container reference => exact h param v

theorem keptUnless_encodeShape (containerName param : String) (field : Option Value) (shape : Shape) :
    KeptUnless P e (encodeShape nested containerName param field shape)
      (encodeShape nested' containerName param field shape) := by
  cases shape with
  | primitive type => exact .refl P e _
  | strict type size => exact .refl P e _
  | vector item =>
    cases field with
    | none => exact .refl P e _
    | some v =>
      cases v with
      | array items => exact keptUnless_encodeItems h param item items
      | _ => exact .refl P e _
  | reference reference =>
    cases field with
    | none => exact .refl P e _
    | some v => exact h param v

theorem keptUnless_encodePresent (containerName : String) (p : Param) (field : Option Value) :
    KeptUnless P e (encodePresent nested containerName p field) (encodePresent nested' containerName p field) := by
  unfold encodePresent
  cases p.shape? with
  | none => exact .refl P e _
  | some shape => exact keptUnless_encodeShape h containerName p.name field shape

theorem keptUnless_encodeParam (containerName : String) (v : Value) (p : Param) :
    KeptUnless P e (encodeParam nested containerName v p) (encodeParam nested' containerName v p) := by
  have hpresent := keptUnless_encodePresent h containerName p
  unfold encodeParam
  by_cases hoptional : p.isOptional = true
  · simp only [if_pos hoptional]
    cases (v.get? p.name).filter fun x => !x.isNull with
    | none => exact .refl P e _
    | some field => exact .map _ (hpresent (some field))
  · simp only [if_neg hoptional]
    exact hpresent _

end Encoding

/-- With fewer levels there are the same octets, or the levels do not suffice. By induction on these levels: what is
nested has one less in both runs. -/
theorem keptUnless_encodeContainer (config : Config) (levels levels' : Nat) (c : Container) (v : Value) :
    KeptUnless (levels' < levels) (.nestingTooDeep config.maxDepth) (r.encodeContainer levels c v)
      ((r.withConfig config).encodeContainer levels' c v) := by
  induction levels' generalizing levels c v with
  | zero =>
    intro octets h
    cases levels with
    | zero => cases h
    | succ levels => exact .inr ⟨Nat.succ_pos levels, rfl⟩
  | succ levels' ih =>
    cases levels with
    | zero =>
      intro octets h
      cases h
    | succ levels =>
      unfold encodeContainer
      refine .bind (.mapM fun p _ => keptUnless_encodeParam ?_ c.name v p) fun parts => .refl _ _ _
      intro param w
      refine .bind (.refl _ _ (r.named param w)) fun d => ?_
      exact (ih levels d w).imp Nat.succ_lt_succ

theorem encodeContainer_unvalidated (depth levels : Nat) :
    (r.withConfig ⟨true, depth⟩).encodeContainer levels = (r.withConfig ⟨false, depth⟩).encodeContainer levels := by
  induction levels with
  | zero => rfl
  | succ levels ih =>
    funext c v
    unfold encodeContainer
    rw [ih]
    rfl

end Registry

/-- Whether an outcome depends on no setting but the limit of nesting, and on this only by what is nested too deep. -/
structure Config.OnlyLimits (outcome : Config → Except EngineError Bytes) : Prop where
  unvalidated : ∀ depth, outcome ⟨true, depth⟩ = outcome ⟨false, depth⟩
  deeper : ∀ {config config' octets}, outcome config = .ok octets → config.maxDepth ≤ config'.maxDepth →
    outcome config' = .ok octets
  shallower : ∀ {config config' octets}, outcome config = .ok octets → config'.maxDepth < config.maxDepth →
    outcome config' = .ok octets ∨ outcome config' = .error (.nestingTooDeep config'.maxDepth)

theorem Config.OnlyLimits.of_keptUnless {outcome : Config → Except EngineError Bytes}
    (hsame : ∀ depth, outcome ⟨true, depth⟩ = outcome ⟨false, depth⟩)
    (h : ∀ config config', KeptUnless (config'.maxDepth < config.maxDepth) (.nestingTooDeep config'.maxDepth)
      (outcome config) (outcome config')) : Config.OnlyLimits outcome where
  unvalidated := hsame
  deeper hok hdepth := by
    rcases h _ _ _ hok with hkept | ⟨hlt, _⟩
    · exact hkept
    · omega
  shallower hok _ := (h _ _ _ hok).imp_right And.right

namespace Registry

variable {r : Registry}

theorem onlyLimits_encode (v : Value) : Config.OnlyLimits fun config => (r.withConfig config).encode v := by
  apply Config.OnlyLimits.of_keptUnless
  · intro depth
    have hcontainer := encodeContainer_unvalidated (r := r) depth (depth + 1)
    show (r.named "root" v >>= fun c => (r.withConfig ⟨true, depth⟩).encodeContainer (depth + 1) c v) = _
    rw [hcontainer]
    rfl
  · intro config config'
    refine .bind (.refl _ _ (r.named "root" v)) fun c => ?_
    exact (keptUnless_encodeContainer config' _ _ c v).imp Nat.lt_of_succ_lt_succ

theorem encodeNamed_withConfig (config : Config) (name : String) (v : Value) :
    (r.withConfig config).encodeNamed name v =
      match r.container? name with
      | some c => (r.withConfig config).encodeContainer (config.maxDepth + 1) c v
      | none => .error (.unknownName name) :=
  rfl

theorem onlyLimits_encodeNamed (name : String) (v : Value) :
    Config.OnlyLimits fun config => (r.withConfig config).encodeNamed name v := by
  apply Config.OnlyLimits.of_keptUnless
  · intro depth
    have hcontainer := encodeContainer_unvalidated (r := r) depth (depth + 1)
    rw [encodeNamed_withConfig, encodeNamed_withConfig]
    cases r.container? name with
    | none => rfl
    | some c => exact congrFun (congrFun hcontainer c) v
  · intro config config'
    rw [encodeNamed_withConfig, encodeNamed_withConfig]
    cases r.container? name with
    | none => exact .refl _ _ _
    | some c => exact (keptUnless_encodeContainer config' _ _ c v).imp Nat.lt_of_succ_lt_succ

end Registry

/-! ## Decoding -/

section Decoding

variable {r : Registry} {config config' : Config} {m : Message} {shape : Shape} {messages messages' : Message → Prop}
  (hvalid : config'.structuralValidation = true → config.structuralValidation = true)
include hvalid

theorem Message.Fits.withConfig (hmessages : ∀ m, messages m → messages' m)
    (h : m.Fits (r.withConfig config) messages shape) : m.Fits (r.withConfig config') messages' shape := by
  induction h with
  | segment hs => exact .segment hs
  | sequence hcount _ ih => exact .sequence hcount ih
  | record hheader hnested => exact .record (fun hon => hheader (hvalid hon)) (hmessages _ hnested)

/-- What a registry holds, it holds with more levels and without validation. -/
theorem Registry.Holds.withConfig {levels levels' : Nat} (hlevels : levels ≤ levels')
    (h : (r.withConfig config).Holds levels m) : (r.withConfig config').Holds levels' m := by
  induction levels generalizing levels' m with
  | zero => exact h.elim
  | succ levels ih =>
    obtain ⟨c, slots, rfl, hc, hparams, hfits⟩ := h
    obtain ⟨more, rfl⟩ := Nat.exists_eq_add_of_le' (Nat.le_trans (Nat.succ_pos levels) hlevels)
    refine ⟨c, slots, rfl, hc, hparams, fun slot hslot => ?_⟩
    cases slot with
    | absent p => exact hfits _ hslot
    | present p m =>
      obtain ⟨shape, hshape, hm⟩ := hfits _ hslot
      exact ⟨shape, hshape, hm.withConfig hvalid fun m hm => ih (Nat.le_of_succ_le_succ hlevels) hm⟩

/-- Decoding that succeeds gives the same under a limit that is not lower, and without validation. -/
theorem Registry.run_decodeFrom_withConfig (hdepth : config.maxDepth ≤ config'.maxDepth) {place next : Reader}
    {v : Value} (h : (r.withConfig config).decodeFrom.run place = .ok (v, next)) :
    (r.withConfig config').decodeFrom.run place = .ok (v, next) := by
  obtain ⟨m, hm, hpass, hv⟩ := (decodeFrom_reads _ _ _).mp h
  exact (decodeFrom_reads _ _ _).mpr ⟨m, hm.withConfig hvalid (Nat.succ_le_succ hdepth), hpass, hv⟩

end Decoding

end SchemaWire
