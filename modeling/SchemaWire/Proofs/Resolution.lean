import Mathlib.Logic.Relation
import SchemaWire.Lowering.Alias
import SchemaWire.Proofs.Outcome

/-!
# What type names stand for

An alias has one target, so there is one way to follow aliases from a type name. It ends at a primitive type or at the
name of something else, or it never ends. `StandsFor` says what a type name stands for where the way ends. Resolving
computes just this, and finds a cycle just where the way never ends (`resolve_eq_iff_standsFor`).
-/

namespace SchemaWire

/-- The name that a type name is looked up by: a dotted name is not looked up. -/
def TypeName.head? : TypeName → Option String
  | .path p => if p.isSimple then some p.dotted else none
  | .sized s => some s.name.name

/-- The type name without its size. -/
def SizedType.base (s : SizedType) : TypeName :=
  .path ⟨[s.name], s.name.span⟩

@[simp] theorem TypeName.head?_sized (s : SizedType) : (TypeName.sized s).head? = s.base.head? := by
  simp [head?, SizedType.base, TypePath.isSimple, TypePath.dotted]

theorem TypeName.head?_path {p : TypePath} (h : p.isSimple = true) : (TypeName.path p).head? = some p.dotted :=
  if_pos h

namespace AliasTable

/-- What a type name stands for, if following aliases from it ends. -/
inductive StandsFor (t : AliasTable) : TypeName → Except LoweringError Resolved → Prop
  /-- A dotted name is the name of a container, a type or a trait. -/
  | dotted {p} (hp : p.isSimple = false) : StandsFor t (.path p) (.ok (.reference p.dotted))
  /-- A primitive type's name cannot be given another meaning. -/
  | primitive {p type} (hp : p.isSimple = true) (htype : Primitive.ofName? p.dotted = some type) :
    StandsFor t (.path p) (.ok (.primitive type))
  /-- An alias stands for what its target stands for. -/
  | followed {p a result} (hp : p.isSimple = true) (htype : Primitive.ofName? p.dotted = none)
    (ha : t.get? p.dotted = some a) (htarget : StandsFor t a.target result) : StandsFor t (.path p) result
  | other {p} (hp : p.isSimple = true) (htype : Primitive.ofName? p.dotted = none) (ha : t.get? p.dotted = none) :
    StandsFor t (.path p) (.ok (.reference p.dotted))
  /-- A size within 32 bits on text or octets. -/
  | strict {s type} (hbase : StandsFor t s.base (.ok (.primitive type))) (htype : type = .string ∨ type = .bytes)
    (hsize : s.size.value.toNat < UInt32.size) :
    StandsFor t (.sized s) (.ok (.strict type (UInt32.ofNat s.size.value.toNat)))
  | notAllowed {s type} (hbase : StandsFor t s.base (.ok (.primitive type)))
    (htype : ¬(type = .string ∨ type = .bytes)) : StandsFor t (.sized s) (.error (.sizeNotAllowed type s.span))
  | tooLarge {s type} (hbase : StandsFor t s.base (.ok (.primitive type))) (htype : type = .string ∨ type = .bytes)
    (hsize : UInt32.size ≤ s.size.value.toNat) :
    StandsFor t (.sized s) (.error (.sizeTooLarge s.size.value s.size.span))
  /-- A size on what is no primitive type, or has a size already. -/
  | notPrimitive {s base} (hbase : StandsFor t s.base (.ok base)) (hne : ∀ type, base ≠ .primitive type) :
    StandsFor t (.sized s) (.error (.sizeWithoutPrimitive s.name.name s.name.span))
  | fault {s e} (hbase : StandsFor t s.base (.error e)) : StandsFor t (.sized s) (.error e)

/-- One step along the aliases: from the name of an alias to the name by which its target is looked up. -/
def Leads (t : AliasTable) (name next : String) : Prop :=
  Primitive.ofName? name = none ∧ ∃ a, t.get? name = some a ∧ a.target.head? = some next

/-- Following aliases from a name never ends. -/
def Endless (t : AliasTable) (name : String) : Prop :=
  ∃ names : Nat → String, names 0 = name ∧ ∀ i, t.Leads (names i) (names (i + 1))

/-- Following aliases from a type name never ends. -/
def NeverEnds (t : AliasTable) (type : TypeName) : Prop :=
  ∃ name, type.head? = some name ∧ t.Endless name

variable {t u : AliasTable} {chain : List String} {name next : String} {place : Span} {type : TypeName} {p : TypePath}
  {a : Alias} {r r' : Except LoweringError Resolved}

/-! ## Ways that never end -/

theorem Leads.eq {next' : String} (h : t.Leads name next) (h' : t.Leads name next') : next = next' := by
  obtain ⟨_, a, ha, hnext⟩ := h
  obtain ⟨_, a', ha', hnext'⟩ := h'
  rw [ha, Option.some.injEq] at ha'
  rw [ha', hnext', Option.some.injEq] at hnext
  exact hnext.symm

theorem endless_iff_of_leads (h : t.Leads name next) : t.Endless name ↔ t.Endless next := by
  constructor
  · rintro ⟨names, rfl, hnames⟩
    exact ⟨fun i => names (i + 1), (hnames 0).eq h, fun i => hnames (i + 1)⟩
  · rintro ⟨names, rfl, hnames⟩
    refine ⟨fun i => Nat.casesOn i name names, rfl, fun i => ?_⟩
    cases i with
    | zero => exact h
    | succ i => exact hnames i

theorem endless_iff_exists_leads : t.Endless name ↔ ∃ next, t.Leads name next ∧ t.Endless next := by
  constructor
  · intro h
    obtain ⟨names, rfl, hnames⟩ := h
    exact ⟨names 1, hnames 0, (endless_iff_of_leads (hnames 0)).mp ⟨names, rfl, hnames⟩⟩
  · rintro ⟨next, hnext, h⟩
    exact (endless_iff_of_leads hnext).mpr h

/-- Where every name of a kind leads to one of that kind, no way ends. -/
theorem endless_of_forall_exists {P : String → Prop} (hstep : ∀ x, P x → ∃ y, P y ∧ t.Leads x y) (h : P name) :
    t.Endless name := by
  choose! next hkind hleads using hstep
  have hall (i : Nat) : P (Nat.rec name (fun _ x => next x) i) := by
    induction i with
    | zero => exact h
    | succ i ih => exact hkind _ ih
  exact ⟨fun i => Nat.rec name (fun _ x => next x) i, rfl, fun i => hleads _ (hall i)⟩

/-- A way that comes back to where it was goes round for ever. -/
theorem endless_of_transGen (h : Relation.TransGen t.Leads name name) : t.Endless name := by
  refine endless_of_forall_exists (P := fun x => Relation.TransGen t.Leads x name) (fun x hx => ?_) h
  obtain ⟨y, hxy, hy⟩ := Relation.TransGen.head'_iff.mp hx
  rcases Relation.reflTransGen_iff_eq_or_transGen.mp hy with rfl | hy
  · exact ⟨_, h, hxy⟩
  · exact ⟨y, hy, hxy⟩

theorem neverEnds_path_iff (hp : p.isSimple = true) : t.NeverEnds (.path p) ↔ t.Endless p.dotted := by
  simp [NeverEnds, TypeName.head?_path hp]

theorem neverEnds_sized_iff {s : SizedType} : t.NeverEnds (.sized s) ↔ t.NeverEnds s.base := by
  simp [NeverEnds]

theorem neverEnds_of_alias (hp : p.isSimple = true) (htype : Primitive.ofName? p.dotted = none)
    (ha : t.get? p.dotted = some a) : t.NeverEnds (.path p) ↔ t.NeverEnds a.target := by
  rw [neverEnds_path_iff hp, endless_iff_exists_leads]
  constructor
  · rintro ⟨next, ⟨_, a', ha', hnext⟩, h⟩
    rw [ha, Option.some.injEq] at ha'
    exact ⟨next, ha' ▸ hnext, h⟩
  · rintro ⟨next, hnext, h⟩
    exact ⟨next, ⟨htype, a, ha, hnext⟩, h⟩

/-! ## The one meaning of a type name -/

theorem StandsFor.not_neverEnds (h : t.StandsFor type r) : ¬t.NeverEnds type := by
  induction h with
  | dotted hp =>
    rintro ⟨name, hname, _⟩
    simp [TypeName.head?, hp] at hname
  | primitive hp htype =>
    rw [neverEnds_path_iff hp, endless_iff_exists_leads]
    rintro ⟨next, ⟨hnone, _⟩, _⟩
    simp [htype] at hnone
  | followed hp htype ha _ ih => rwa [neverEnds_of_alias hp htype ha]
  | other hp htype ha =>
    rw [neverEnds_path_iff hp, endless_iff_exists_leads]
    rintro ⟨next, ⟨_, a, hsome, _⟩, _⟩
    simp [ha] at hsome
  | strict _ _ _ ih => rwa [neverEnds_sized_iff]
  | notAllowed _ _ ih => rwa [neverEnds_sized_iff]
  | tooLarge _ _ _ ih => rwa [neverEnds_sized_iff]
  | notPrimitive _ _ ih => rwa [neverEnds_sized_iff]
  | fault _ ih => rwa [neverEnds_sized_iff]

theorem applySize_primitive (s : SizedType) (type : Primitive) :
    applySize s (.primitive type) =
      if type = .string ∨ type = .bytes then
        if s.size.value.toNat < UInt32.size then .ok (.strict type (UInt32.ofNat s.size.value.toNat))
        else .error (.sizeTooLarge s.size.value s.size.span)
      else .error (.sizeNotAllowed type s.span) := by
  have hallows : type.allowsSize = decide (type = .string ∨ type = .bytes) := by
    cases type <;> decide
  rw [applySize, hallows]
  by_cases htype : type = .string ∨ type = .bytes
  · rw [if_pos htype, if_neg (by simp [htype])]
    by_cases hsize : s.size.value.toNat < UInt32.size
    · rw [if_pos hsize, if_neg (Nat.not_le_of_lt hsize)]
    · rw [if_neg hsize, if_pos (Nat.le_of_not_lt hsize)]
  · rw [if_neg htype, if_pos (by simp [htype])]

/-- What a sized name stands for is settled by what it stands for without the size. -/
theorem standsFor_sized_iff {s : SizedType} :
    t.StandsFor (.sized s) r ↔ ∃ base, t.StandsFor s.base base ∧ base >>= applySize s = r := by
  constructor
  · intro h
    cases h with
    | strict hbase htype hsize =>
      exact ⟨_, hbase, (applySize_primitive s _).trans ((if_pos htype).trans (if_pos hsize))⟩
    | notAllowed hbase htype => exact ⟨_, hbase, (applySize_primitive s _).trans (if_neg htype)⟩
    | tooLarge hbase htype hsize =>
      exact ⟨_, hbase, (applySize_primitive s _).trans ((if_pos htype).trans (if_neg (Nat.not_lt_of_le hsize)))⟩
    | notPrimitive hbase hne =>
      rename_i base
      refine ⟨_, hbase, ?_⟩
      cases base with
      | primitive type => exact absurd rfl (hne type)
      | _ => rfl
    | fault hbase => exact ⟨_, hbase, rfl⟩
  · rintro ⟨base, hbase, rfl⟩
    cases base with
    | error e => exact .fault hbase
    | ok base =>
      change t.StandsFor (.sized s) (applySize s base)
      cases base with
      | primitive type =>
        rw [applySize_primitive]
        by_cases htype : type = .string ∨ type = .bytes
        · rw [if_pos htype]
          by_cases hsize : s.size.value.toNat < UInt32.size
          · rw [if_pos hsize]
            exact .strict hbase htype hsize
          · rw [if_neg hsize]
            exact .tooLarge hbase htype (Nat.le_of_not_lt hsize)
        · rw [if_neg htype]
          exact .notAllowed hbase htype
      | strict type size => exact .notPrimitive hbase (by simp)
      | reference name => exact .notPrimitive hbase (by simp)

/-- A type name stands for one thing at most. -/
theorem StandsFor.eq (h : t.StandsFor type r) (h' : t.StandsFor type r') : r = r' := by
  induction h generalizing r' with
  | followed hp htype ha _ ih =>
    cases h' with
    | followed _ _ ha' htarget' =>
      rw [ha, Option.some.injEq] at ha'
      exact ih (ha' ▸ htarget')
    | _ => simp_all
  | dotted => cases h' <;> simp_all
  | primitive => cases h' <;> simp_all
  | other => cases h' <;> simp_all
  | strict _ _ _ ih => cases h' <;> grind
  | notAllowed _ _ ih => cases h' <;> grind
  | tooLarge _ _ _ ih => cases h' <;> grind
  | notPrimitive _ _ ih => cases h' <;> grind
  | fault _ ih => cases h' <;> grind

theorem StandsFor.not_aliasCycle {e : LoweringError} (h : t.StandsFor type (.error e)) : e.kind ≠ .aliasCycle := by
  generalize hr : Except.error e = r at h
  induction h with
  | followed _ _ _ _ ih => exact ih hr
  | fault _ ih => exact ih hr
  | notAllowed =>
    cases hr
    simp [LoweringError.kind]
  | tooLarge =>
    cases hr
    simp [LoweringError.kind]
  | notPrimitive =>
    cases hr
    simp [LoweringError.kind]
  | _ => cases hr

/-! ## Resolving -/

/-- Resolving gives what a name stands for. The names of the chain are those that led here, so none of them is met
again while the way ends. -/
theorem standsFor_resolveName (hchain : ∀ c ∈ chain, Relation.TransGen t.Leads c name) (hends : ¬t.Endless name)
    (hp : p.isSimple = true) (hname : p.dotted = name) : t.StandsFor (.path p) (t.resolveName chain name place) := by
  have hnext {a : Alias} {chain : List String} {name next : String} (htype : Primitive.ofName? name = none)
      (ha : t.get? name = some a) (hhead : a.target.head? = some next)
      (hchain : ∀ c ∈ chain, Relation.TransGen t.Leads c name) (hends : ¬t.Endless name) :
      (∀ c ∈ chain ++ [name], Relation.TransGen t.Leads c next) ∧ ¬t.Endless next := by
    have hleads : t.Leads name next := ⟨htype, a, ha, hhead⟩
    rw [List.forall_mem_append, List.forall_mem_singleton]
    exact ⟨⟨fun c hc => (hchain c hc).tail hleads, .single hleads⟩, by rwa [← endless_iff_of_leads hleads]⟩
  fun_induction resolveName t chain name place generalizing p with
  | case1 chain name place type htype => exact .primitive hp (hname ▸ htype)
  | case2 chain name place htype ha => exact hname ▸ .other hp (hname ▸ htype) (hname ▸ ha)
  | case3 chain name place htype a ha hmem => exact absurd (endless_of_transGen (hchain name hmem)) hends
  | case4 chain name place htype a ha hmem hlt path htarget hsimple ih =>
    obtain ⟨hchain', hends'⟩ := hnext htype ha (htarget ▸ TypeName.head?_path hsimple) hchain hends
    exact .followed hp (hname ▸ htype) (hname ▸ ha) (htarget ▸ ih hchain' hends' hsimple rfl)
  | case5 chain name place htype a ha hmem hlt path htarget hsimple =>
    exact .followed hp (hname ▸ htype) (hname ▸ ha) (htarget ▸ .dotted (by simpa using hsimple))
  | case6 chain name place htype a ha hmem hlt sized htarget ih =>
    obtain ⟨hchain', hends'⟩ := hnext htype ha (htarget ▸ TypeName.head?_sized sized) hchain hends
    have hbase := ih hchain' hends' (p := ⟨[sized.name], sized.name.span⟩) rfl (by simp [TypePath.dotted])
    exact .followed hp (hname ▸ htype) (hname ▸ ha) (htarget ▸ standsFor_sized_iff.mpr ⟨_, hbase, rfl⟩)

theorem standsFor_resolve (h : ¬t.NeverEnds type) : t.StandsFor type (t.resolve type) := by
  have hpath {p : TypePath} (hp : p.isSimple = true) (h : ¬t.NeverEnds (.path p)) :
      t.StandsFor (.path p) (t.resolveName [] p.dotted p.span) :=
    standsFor_resolveName (by simp) (by rwa [← neverEnds_path_iff hp]) hp rfl
  cases type with
  | path p =>
    unfold resolve
    by_cases hp : p.isSimple = true
    · simpa only [if_pos hp] using hpath hp h
    · simpa only [if_neg hp] using .dotted (by simpa using hp)
  | sized s =>
    rw [neverEnds_sized_iff] at h
    have hbase := hpath (p := ⟨[s.name], s.name.span⟩) rfl h
    simp only [TypePath.dotted, List.map_cons, List.map_nil, String.intercalate_singleton] at hbase
    exact standsFor_sized_iff.mpr ⟨_, hbase, rfl⟩

/-- A way that never ends comes back to a name of the chain. -/
theorem resolveName_of_endless (h : t.Endless name) :
    ∃ e, t.resolveName chain name place = .error e ∧ e.kind = .aliasCycle := by
  have hnext {a : Alias} {name : String} (ha : t.get? name = some a) (h : t.Endless name) :
      ∃ next, a.target.head? = some next ∧ t.Endless next := by
    obtain ⟨next, ⟨_, a', ha', hhead⟩, hnext⟩ := endless_iff_exists_leads.mp h
    rw [ha, Option.some.injEq] at ha'
    exact ⟨next, ha' ▸ hhead, hnext⟩
  fun_induction resolveName t chain name place with
  | case1 chain name place type htype =>
    obtain ⟨next, ⟨hnone, _⟩, _⟩ := endless_iff_exists_leads.mp h
    simp [htype] at hnone
  | case2 chain name place htype ha =>
    obtain ⟨next, ⟨_, a, ha', _⟩, _⟩ := endless_iff_exists_leads.mp h
    simp [ha] at ha'
  | case3 chain name place => exact ⟨_, rfl, rfl⟩
  | case4 chain name place htype a ha hmem hlt path htarget hsimple ih =>
    obtain ⟨next, hhead, h⟩ := hnext ha h
    rw [htarget, TypeName.head?_path hsimple, Option.some.injEq] at hhead
    exact ih (hhead ▸ h)
  | case5 chain name place htype a ha hmem hlt path htarget hsimple =>
    obtain ⟨next, hhead, h⟩ := hnext ha h
    simp [htarget, TypeName.head?, hsimple] at hhead
  | case6 chain name place htype a ha hmem hlt sized htarget ih =>
    obtain ⟨next, hhead, h⟩ := hnext ha h
    rw [htarget, TypeName.head?, Option.some.injEq] at hhead
    obtain ⟨e, he, hkind⟩ := ih (hhead ▸ h)
    exact ⟨e, by rw [he]; rfl, hkind⟩

theorem resolve_of_neverEnds (h : t.NeverEnds type) : ∃ e, t.resolve type = .error e ∧ e.kind = .aliasCycle := by
  obtain ⟨name, hhead, h⟩ := h
  cases type with
  | path p =>
    by_cases hp : p.isSimple = true
    · rw [TypeName.head?_path hp, Option.some.injEq] at hhead
      simpa only [resolve, if_pos hp, hhead] using resolveName_of_endless h
    · simp [TypeName.head?, hp] at hhead
  | sized s =>
    rw [TypeName.head?, Option.some.injEq] at hhead
    obtain ⟨e, he, hkind⟩ : ∃ e, t.resolveName [] s.name.name s.name.span = .error e ∧ e.kind = .aliasCycle :=
      resolveName_of_endless (hhead ▸ h)
    exact ⟨e, by rw [resolve, he]; rfl, hkind⟩

theorem resolve_eq_iff : t.resolve type = r ∧ ¬t.NeverEnds type ↔ t.StandsFor type r := by
  constructor
  · rintro ⟨rfl, h⟩
    exact standsFor_resolve h
  · intro h
    exact ⟨(standsFor_resolve h.not_neverEnds).eq h, h.not_neverEnds⟩

theorem resolve_eq_ok_iff {resolved : Resolved} :
    t.resolve type = .ok resolved ↔ t.StandsFor type (.ok resolved) := by
  rw [← resolve_eq_iff, iff_self_and]
  intro h hends
  obtain ⟨e, he, _⟩ := resolve_of_neverEnds hends
  rw [h] at he
  cases he

theorem isCycle_resolve_iff : (∃ e, t.resolve type = .error e ∧ e.kind = .aliasCycle) ↔ t.NeverEnds type := by
  refine ⟨?_, resolve_of_neverEnds⟩
  rintro ⟨e, he, hkind⟩
  by_contra h
  exact (he ▸ standsFor_resolve h).not_aliasCycle hkind

/-! ## Tables -/

/-- Registering succeeds with the table that has one more alias, if there is one: aliases have distinct names. -/
theorem register_eq_ok_iff : t.register a = .ok u ↔ u.entries = t.entries ++ [a] := by
  unfold register
  split
  · rename_i first hfirst
    simp only [reduceCtorEq, false_iff]
    intro hentries
    have hdistinct := u.distinct
    rw [hentries, List.map_append, List.nodup_append] at hdistinct
    exact hdistinct.2.2 _ (mem_names_of_get? hfirst) _ (by simp) rfl
  · cases u
    simp [eq_comm]

theorem registerAll_eq_ok_iff {aliases : List Alias} :
    registerAll t aliases = (u, .ok ()) ↔ u.entries = t.entries ++ aliases := by
  induction aliases generalizing t with
  | nil =>
    cases t
    cases u
    simp [registerAll, eq_comm]
  | cons a rest ih =>
    unfold registerAll
    cases hnext : t.register a with
    | ok next =>
      simp only [ih, register_eq_ok_iff.mp hnext, List.append_assoc, List.singleton_append]
    | error e =>
      simp only [Prod.mk.injEq, reduceCtorEq, and_false, false_iff]
      intro hentries
      have hdistinct := u.distinct
      rw [hentries, ← List.singleton_append, ← List.append_assoc, List.map_append] at hdistinct
      have hnext' := register_eq_ok_iff.mpr (rfl : (AliasTable.mk _ (List.nodup_append.mp hdistinct).1).entries = _)
      rw [hnext] at hnext'
      cases hnext'

theorem check_eq_ok_iff : t.check a = .ok () ↔ (∃ type, t.resolve a.target = .ok (.primitive type)) ∨
    ∃ type size, t.resolve a.target = .ok (.strict type size) := by
  unfold check
  cases t.resolve a.target with
  | error e => simp [bind, Except.bind]
  | ok r =>
    cases r with
    | reference name => simp [bind, Except.bind, throw, throwThe, MonadExceptOf.throw]
    | _ => simp [bind, Except.bind, pure, Except.pure]

theorem validate_eq_ok_iff : t.validate = .ok () ↔ ∀ a ∈ t.entries,
    (∃ type, t.resolve a.target = .ok (.primitive type)) ∨
      ∃ type size, t.resolve a.target = .ok (.strict type size) := by
  simp only [validate, Except.forM_eq_ok_iff, check_eq_ok_iff]

/-- In a table that passes its check every way ends. -/
theorem not_neverEnds_of_validate (h : t.validate = .ok ()) : ¬t.NeverEnds type := by
  rintro ⟨name, _, hendless⟩
  obtain ⟨next, ⟨_, a, ha, hhead⟩, hnext⟩ := endless_iff_exists_leads.mp hendless
  obtain ⟨e, he, _⟩ := resolve_of_neverEnds ⟨next, hhead, hnext⟩
  have htarget := validate_eq_ok_iff.mp h a (mem_entries_of_get? ha)
  simp [he] at htarget

/-- In a table that passes its check no name without dots leads on to an alias. -/
theorem not_mem_names_of_validate (h : t.validate = .ok ()) (hp : p.isSimple = true)
    (hname : t.resolve (.path p) = .ok (.reference name)) : name ∉ t.names := by
  cases resolve_eq_ok_iff.mp hname with
  | dotted hdotted => simp [hp] at hdotted
  | followed _ _ ha htarget =>
    have hvalid := validate_eq_ok_iff.mp h _ (mem_entries_of_get? ha)
    simp [resolve_eq_ok_iff.mpr htarget] at hvalid
  | other _ _ ha => exact get?_eq_none_iff.mp ha

/-- Whatever aliases are registered under distinct names, resolving gives exactly what type names stand for, and finds a
cycle exactly where following aliases never ends. Checking finds the tables the aliases of which all stand for primitive
types, and in these every way ends, and none at an alias. -/
theorem resolve_eq_iff_standsFor (aliases : List Alias) (h : (aliases.map fun a => a.name.name).Nodup) :
    ∃ t, registerAll .empty aliases = (t, .ok ()) ∧ t.entries = aliases ∧
      (∀ type r, t.resolve type = r ∧ ¬t.NeverEnds type ↔ t.StandsFor type r) ∧
      (∀ type, (∃ e, t.resolve type = .error e ∧ e.kind = .aliasCycle) ↔ t.NeverEnds type) ∧
      (t.validate = .ok () ↔ ∀ a ∈ aliases, (∃ type, t.resolve a.target = .ok (.primitive type)) ∨
        ∃ type size, t.resolve a.target = .ok (.strict type size)) ∧
      (t.validate = .ok () →
        (∀ type e, t.resolve type = .error e → e.kind ≠ .aliasCycle) ∧
        ∀ p name, p.isSimple = true → t.resolve (.path p) = .ok (.reference name) → name ∉ t.names) := by
  refine ⟨⟨aliases, h⟩, registerAll_eq_ok_iff.mpr rfl, rfl, fun type r => resolve_eq_iff,
    fun type => isCycle_resolve_iff, validate_eq_ok_iff, fun hvalid => ⟨fun type e he hkind => ?_, ?_⟩⟩
  · exact not_neverEnds_of_validate hvalid (isCycle_resolve_iff.mp ⟨e, he, hkind⟩)
  · exact fun p name hp hname => not_mem_names_of_validate hvalid hp hname

/-- Two aliases that lead to each other, one of them through a size, and one that does not reach them. -/
theorem resolve_eq_iff_standsFor_ring :
    let name (text : String) : Identifier := ⟨text, ⟨0, 0⟩⟩
    let path (text : String) : TypePath := ⟨[name text], ⟨0, 0⟩⟩
    let sized (text : String) (size : UInt64) : TypeName := .sized ⟨name text, ⟨size, ⟨0, 0⟩⟩, ⟨0, 0⟩⟩
    let aliases : List Alias := [⟨name "Ring", .path (path "Loop"), ⟨0, 0⟩⟩, ⟨name "Loop", sized "Ring" 4, ⟨0, 0⟩⟩,
      ⟨name "Digest", sized "bytes" 32, ⟨0, 0⟩⟩]
    (aliases.map fun a => a.name.name).Nodup ∧ ∃ t, registerAll .empty aliases = (t, .ok ()) ∧
      t.resolve (.path (path "Digest")) = .ok (.strict .bytes 32) ∧
      ∃ e, t.resolve (sized "Loop" 8) = .error e ∧ e.kind = .aliasCycle := by
  intro name path sized aliases
  have hdistinct : (aliases.map fun a => a.name.name).Nodup := by decide
  obtain ⟨t, ht, hentries, hmeaning, hcycle, _⟩ := resolve_eq_iff_standsFor aliases hdistinct
  have hget (text : String) : t.get? text = aliases.find? fun a => a.name.name == text := by rw [get?, hentries]
  refine ⟨hdistinct, t, ht, ?_, ?_⟩
  · refine ((hmeaning _ _).mpr (.followed rfl ?_ (hget _) (.strict (.primitive rfl ?_) (.inr rfl) ?_))).1
    all_goals decide
  · refine (hcycle _).mpr ⟨"Loop", rfl, endless_of_forall_exists (P := fun x => x = "Loop" ∨ x = "Ring") ?_ (.inl rfl)⟩
    rintro x (rfl | rfl)
    · exact ⟨"Ring", .inr rfl, by decide, _, hget _, rfl⟩
    · exact ⟨"Loop", .inl rfl, by decide, _, hget _, by decide⟩

end AliasTable

end SchemaWire
