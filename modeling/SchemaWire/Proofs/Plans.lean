import Mathlib.Data.List.Forall2
import Mathlib.Data.List.Induction
import Mathlib.Data.List.Nodup
import SchemaWire.Plan
import SchemaWire.Proofs.Decoding

/-!
# Plans and what they refer to

A plan and an engine know the same ids of a reference, so that generated text accepts the headers that the engine does
(`possibleIds_agree`). The files of a plan refer to each other and to nothing else: no two have one path, every
constructor is listed by the file of its type and by no other one, and the index lists the files of all constructors
(`files_closed`).
-/

namespace SchemaWire

/-! ## Lists without repetitions -/

section EraseDups

variable {α : Type} [BEq α] [LawfulBEq α]

theorem eraseDups_of_nodup {items : List α} (h : items.Nodup) : items.eraseDups = items := by
  induction items with
  | nil => rfl
  | cons a rest ih =>
    obtain ⟨hnew, hrest⟩ := List.nodup_cons.mp h
    have hkept : rest.filter (fun b => !b == a) = rest := by
      refine List.filter_eq_self.mpr fun b hb => ?_
      have hne : b ≠ a := fun heq => hnew (heq ▸ hb)
      simpa using hne
    rw [List.eraseDups_cons, hkept, ih hrest]

/-- What is left out does not change which of two others comes first. -/
theorem idxOf_lt_of_filter {keep : α → Bool} {a b : α} (ha : keep a = true) (hb : keep b = true) {items : List α}
    (h : (items.filter keep).idxOf a < (items.filter keep).idxOf b) : items.idxOf a < items.idxOf b := by
  induction items with
  | nil => exact h
  | cons c rest ih =>
    by_cases hca : c = a
    · subst hca
      have hne : c ≠ b := by
        rintro rfl
        exact Nat.lt_irrefl _ h
      rw [List.idxOf_cons_self, List.idxOf_cons_ne rest hne]
      exact Nat.succ_pos _
    have hcb : c ≠ b := by
      rintro rfl
      rw [List.filter_cons_of_pos hb, List.idxOf_cons_self] at h
      exact Nat.not_lt_zero _ h
    rw [List.idxOf_cons_ne rest hca, List.idxOf_cons_ne rest hcb]
    refine Nat.succ_lt_succ (ih ?_)
    by_cases hc : keep c = true
    · rw [List.filter_cons_of_pos hc, List.idxOf_cons_ne _ hca, List.idxOf_cons_ne _ hcb] at h
      exact Nat.lt_of_succ_lt_succ h
    · rwa [List.filter_cons_of_neg hc] at h

/-- Where repetitions are erased, items stay in the order in which they first came. -/
theorem pairwise_idxOf_eraseDups (items : List α) :
    items.eraseDups.Pairwise fun a b => items.idxOf a < items.idxOf b := by
  match items with
  | [] => exact .nil
  | a :: rest =>
    have hrest := pairwise_idxOf_eraseDups (rest.filter fun b => !b == a)
    have hne {b : α} (hb : b ∈ (rest.filter fun b => !b == a).eraseDups) : b ≠ a := by
      have hkept := (List.mem_filter.mp (List.mem_eraseDups.mp hb)).2
      simpa using hkept
    rw [List.eraseDups_cons, List.pairwise_cons]
    constructor
    · intro b hb
      rw [List.idxOf_cons_self, List.idxOf_cons_ne rest (hne hb).symm]
      exact Nat.succ_pos _
    · refine hrest.imp_of_mem fun {b c} hb hc hlt => ?_
      rw [List.idxOf_cons_ne rest (hne hb).symm, List.idxOf_cons_ne rest (hne hc).symm]
      exact Nat.succ_lt_succ (idxOf_lt_of_filter (by simpa using hne hb) (by simpa using hne hc) hlt)
termination_by items.length
decreasing_by exact Nat.lt_succ_of_le (List.length_filter_le _ _)

/-- An item behind others is kept if it is not among them. -/
theorem eraseDups_snoc (items : List α) (a : α) :
    (items ++ [a]).eraseDups = if a ∈ items then items.eraseDups else items.eraseDups ++ [a] := by
  rw [List.eraseDups_append]
  split
  · rename_i h
    simp [List.removeAll, h]
  · rename_i h
    simp [List.removeAll, h, List.eraseDups_cons]

end EraseDups

/-! ## Ids of references -/

section References

variable {containers : List Container} {reference : String}

theorem find?_name_eq_none (h : ∀ c ∈ containers, c.name ≠ reference) :
    containers.find? (·.name == reference) = none :=
  List.find?_eq_none.mpr fun c hc => by simpa using h c hc

namespace Plan

/-- Names come before types and traits. -/
theorem possibleIds_of_name (hnames : (containers.map Container.name).Nodup) {c : Container} (hc : c ∈ containers)
    (h : c.name = reference) : possibleIds containers reference = [c.id] := by
  rw [possibleIds, (find?_eq_some_iff_of_nodup hnames).mpr ⟨hc, h⟩]

theorem possibleIds_of_ne (h : ∀ c ∈ containers, c.name ≠ reference) :
    possibleIds containers reference =
      (containers.filter fun c => c.typeName == reference || c.implements reference).map Container.id := by
  rw [possibleIds, find?_name_eq_none h]

theorem mem_possibleIds_iff (h : ∀ c ∈ containers, c.name ≠ reference) {id : UInt32} :
    id ∈ possibleIds containers reference ↔
      ∃ c ∈ containers, (c.typeName = reference ∨ reference ∈ c.traits) ∧ c.id = id := by
  simp [possibleIds_of_ne h, Container.implements, and_assoc]

/-- No id comes twice, as no container does. -/
theorem nodup_possibleIds (hids : (containers.map Container.id).Nodup) (reference : String) :
    (possibleIds containers reference).Nodup := by
  unfold possibleIds
  cases containers.find? (·.name == reference) with
  | some c => exact List.nodup_singleton c.id
  | none => exact (List.filter_sublist.map Container.id).nodup hids

end Plan

namespace Registry

variable {r : Registry}

/-- Where only one of the two kinds of matches occurs, both find them in the order of the containers. -/
theorem possibleIds_eq_of_ne (hname : ∀ c ∈ r.containers, c.name ≠ reference)
    (h : (∀ c ∈ r.containers, c.typeName ≠ reference) ∨ ∀ c ∈ r.containers, reference ∉ c.traits) :
    Plan.possibleIds r.containers reference = r.possibleIds reference := by
  have hnodup (keep : Container → Bool) : ((r.containers.filter keep).map Container.id).Nodup :=
    (List.filter_sublist.map Container.id).nodup r.ids_nodup
  rw [Plan.possibleIds_of_ne hname, possibleIds_of_ne hname]
  rcases h with htype | htrait
  · have hnone : r.containers.filter (·.typeName == reference) = [] :=
      List.filter_eq_nil_iff.mpr fun c hc => by simpa using htype c hc
    rw [hnone, List.nil_append, eraseDups_of_nodup (hnodup _)]
    refine congrArg _ (List.filter_congr fun c hc => ?_)
    simp [htype c hc]
  · have hnone : r.containers.filter (·.implements reference) = [] :=
      List.filter_eq_nil_iff.mpr fun c hc => by simpa [Container.implements] using htrait c hc
    rw [hnone, List.append_nil, eraseDups_of_nodup (hnodup _)]
    refine congrArg _ (List.filter_congr fun c hc => ?_)
    simp [Container.implements, htrait c hc]

/-- A plan and a registry of the same containers know the same ids of every reference, each of them once: the id of the
container of this name if there is one, and otherwise the ids of all containers of this type or with this trait. They
know them in the same order, unless the name is both that of a type and that of a trait. -/
theorem possibleIds_agree {config : Config} (h : ofContainers containers config = .ok r) (reference : String) :
    (r.possibleIds reference).Nodup ∧ (Plan.possibleIds containers reference).Nodup ∧
      (∀ id, id ∈ Plan.possibleIds containers reference ↔ id ∈ r.possibleIds reference) ∧
      (∀ c ∈ containers, c.name = reference → r.possibleIds reference = [c.id]) ∧
      ((∀ c ∈ containers, c.name ≠ reference) → ∀ id, id ∈ r.possibleIds reference ↔
        ∃ c ∈ containers, (c.typeName = reference ∨ reference ∈ c.traits) ∧ c.id = id) ∧
      (¬((∃ c ∈ containers, c.typeName = reference) ∧ ∃ c ∈ containers, reference ∈ c.traits) →
        Plan.possibleIds containers reference = r.possibleIds reference) := by
  obtain ⟨rfl, -⟩ := ofContainers_eq_ok_iff.mp h
  refine ⟨nodup_possibleIds reference, Plan.nodup_possibleIds r.ids_nodup reference, ?_, ?_, ?_, ?_⟩
  · intro id
    by_cases hname : ∃ c ∈ r.containers, c.name = reference
    · obtain ⟨c, hc, hname⟩ := hname
      rw [possibleIds_of_name hc hname, Plan.possibleIds_of_name r.names_nodup hc hname]
    · have hne : ∀ c ∈ r.containers, c.name ≠ reference := fun c hc heq => hname ⟨c, hc, heq⟩
      rw [mem_possibleIds_iff hne, Plan.mem_possibleIds_iff hne]
  · exact fun c hc hname => possibleIds_of_name hc hname
  · exact fun hne id => mem_possibleIds_iff hne
  · intro hboth
    by_cases hname : ∃ c ∈ r.containers, c.name = reference
    · obtain ⟨c, hc, hname⟩ := hname
      rw [possibleIds_of_name hc hname, Plan.possibleIds_of_name r.names_nodup hc hname]
    · refine possibleIds_eq_of_ne (fun c hc heq => hname ⟨c, hc, heq⟩) ?_
      by_cases htype : ∃ c ∈ r.containers, c.typeName = reference
      · exact .inr fun c hc htrait => hboth ⟨htype, c, hc, htrait⟩
      · exact .inl fun c hc heq => htype ⟨c, hc, heq⟩

/-- A container with a trait that it repeats, and one of a type that has the name of this trait. -/
def mixed : List Container :=
  [⟨1, "photo", "Photo", ["Media", "Media"], [], []⟩, ⟨2, "media", "Media", [], [], []⟩]

/-- A name of both kinds has the same ids, but in another order; that of a type alone has them in the same order. -/
theorem possibleIds_agree_mixed :
    ∃ r, ofContainers mixed ⟨true, 0⟩ = .ok r ∧ r.possibleIds "Media" = [2, 1] ∧
      Plan.possibleIds mixed "Media" = [1, 2] ∧
      (∀ id, id ∈ Plan.possibleIds mixed "Media" ↔ id ∈ r.possibleIds "Media") ∧
      Plan.possibleIds mixed "Photo" = r.possibleIds "Photo" := by
  have hr : ofContainers mixed ⟨true, 0⟩ = .ok (ofNodup mixed ⟨true, 0⟩ (by decide) (by decide)) :=
    ofContainers_ofNodup (by decide) (by decide)
  obtain ⟨-, -, hsame, -⟩ := possibleIds_agree hr "Media"
  obtain ⟨-, -, -, -, -, horder⟩ := possibleIds_agree hr "Photo"
  exact ⟨_, hr, rfl, rfl, hsame, horder (by decide)⟩

end Registry

end References

/-! ## Paths -/

namespace Plan

/-- What the paths of a space begin with. -/
def root (space : String) : String :=
  if space.isEmpty then "" else space ++ "/"

theorem path_eq (space directory name : String) :
    path space directory name = root space ++ (directory ++ "/" ++ name) := by
  unfold path root
  split <;> simp [String.append_assoc]

theorem indexPath_eq (space : String) : indexPath space = root space ++ "index" := by
  unfold indexPath root
  split <;> simp [String.append_assoc]

theorem path_inj {space directory a b : String} : path space directory a = path space directory b ↔ a = b := by
  simp [path_eq]

theorem constructorPath_ne_typePath (space : String) (c : Container) (typeName : String) :
    constructorPath space c ≠ typePath space typeName := by
  simp [constructorPath, typePath, path_eq, ← String.toList_inj]

theorem constructorPath_ne_indexPath (space : String) (c : Container) : constructorPath space c ≠ indexPath space := by
  simp [constructorPath, path_eq, indexPath_eq, ← String.toList_inj]

theorem typePath_ne_indexPath (space typeName : String) : typePath space typeName ≠ indexPath space := by
  simp [typePath, path_eq, indexPath_eq, ← String.toList_inj]

/-- The path of vectors has no space in front, and no path of a space without a name begins like it. -/
theorem root_append_ne_vector (space : String) {rest : String} (h : rest.toList.head? ≠ some 'V') :
    root space ++ rest ≠ "Vector" := by
  intro heq
  have hchars := congrArg String.toList heq
  unfold root at hchars
  split at hchars
  · rw [String.toList_append] at hchars
    exact h (congrArg List.head? hchars)
  · have hslash : '/' ∈ "Vector".toList := by
      rw [← hchars]
      simp
    exact absurd hslash (by decide)

theorem constructorPath_ne_vector (space : String) (c : Container) : constructorPath space c ≠ "Vector" := by
  rw [constructorPath, path_eq]
  exact root_append_ne_vector space (by simp)

theorem typePath_ne_vector (space typeName : String) : typePath space typeName ≠ "Vector" := by
  rw [typePath, path_eq]
  exact root_append_ne_vector space (by simp)

theorem indexPath_ne_vector (space : String) : indexPath space ≠ "Vector" := by
  rw [indexPath_eq]
  exact root_append_ne_vector space (by decide)

end Plan

/-! ## What files say -/

/-- The value under a key of a JSON object. -/
def Json.get? : Json → String → Option Json
  | .object fields, key => Fields.get? fields key
  | _, _ => none

namespace PlannedFile

/-- The path of the type's file that a constructor's file names. -/
def typePath? (f : PlannedFile) : Option String :=
  (f.context.get? "typePath").bind Json.string?

/-- The ids that a type's file lists. -/
def ids? (f : PlannedFile) : Option (List UInt32) :=
  (f.context.get? "possibleIds").bind (Json.listOf? Json.uint32?)

/-- The paths that the index lists. -/
def listedPaths? (f : PlannedFile) : Option (List String) :=
  (f.context.get? "constructors").bind (Json.listOf? fun entry => (entry.get? "path").bind Json.string?)

/-- Whether a file lists an id. -/
def Lists (f : PlannedFile) (id : UInt32) : Prop :=
  ∃ ids, f.ids? = some ids ∧ id ∈ ids

end PlannedFile

namespace Plan

/-- Whether a file is that of a constructor: it tells the whole container, and where the file of its type is. -/
structure IsConstructorFile (space : String) (c : Container) (f : PlannedFile) : Prop where
  kind : f.kind = .constructor
  path : f.path = constructorPath space c
  container : f.context.get? "container" = some c.toJson
  typePath : f.typePath? = some (typePath space c.typeName)

/-- Whether a file is that of a type: it lists the ids of the constructors of this type, in the order of the
containers. -/
structure IsTypeFile (space : String) (containers : List Container) (typeName : String) (f : PlannedFile) : Prop where
  kind : f.kind = .type
  path : f.path = Plan.typePath space typeName
  ids : f.ids? = some ((containers.filter (·.typeName = typeName)).map Container.id)

/-- Whether names are all those of some items, each of them once, in the order in which they first come. -/
structure AreFirsts (names items : List String) : Prop where
  nodup : names.Nodup
  mem_iff : ∀ name, name ∈ names ↔ name ∈ items
  ordered : names.Pairwise fun a b => items.idxOf a < items.idxOf b

variable {space : String} {containers : List Container}

theorem isConstructorFile_constructorFile (space : String) (containers : List Container) (c : Container) :
    IsConstructorFile space c (constructorFile space containers c) :=
  ⟨rfl, rfl, rfl, rfl⟩

/-- The file of a type, with the ids of all its constructors. -/
def typeFileOf (space : String) (containers : List Container) (typeName : String) : PlannedFile :=
  typeFile space (typeName, (containers.filter (·.typeName == typeName)).map Container.id)

theorem isTypeFile_typeFileOf (space : String) (containers : List Container) (typeName : String) :
    IsTypeFile space containers typeName (typeFileOf space containers typeName) := by
  refine ⟨rfl, rfl, ?_⟩
  have hread : Json.listOf? Json.uint32?
      (idsJson ((containers.filter (·.typeName == typeName)).map Container.id)) =
        some ((containers.filter (·.typeName == typeName)).map Container.id) :=
    Json.listOf?_map _ fun id _ => Json.uint32?_ofNat id
  exact hread

/-- A type's file lists exactly the ids of the constructors of the type. -/
theorem IsTypeFile.lists_iff {typeName : String} {f : PlannedFile} (h : IsTypeFile space containers typeName f)
    {id : UInt32} : f.Lists id ↔ ∃ c ∈ containers, c.typeName = typeName ∧ c.id = id := by
  simp [PlannedFile.Lists, h.ids, and_assoc]

theorem areFirsts_eraseDups (items : List String) : AreFirsts items.eraseDups items :=
  ⟨nodup_eraseDups items, fun _ => List.mem_eraseDups, pairwise_idxOf_eraseDups items⟩

theorem listedPaths?_indexFile (space : String) (containers : List Container) :
    (indexFile space containers).listedPaths? = some (containers.map (constructorPath space)) :=
  Json.mapM_map_eq_some fun _ _ => rfl

/-! ## The files of a plan -/

/-- The ids of the containers of a type. -/
def idsOfType (containers : List Container) (typeName : String) : List UInt32 :=
  (containers.filter (·.typeName == typeName)).map Container.id

theorem idsOfType_snoc (seen : List Container) (c : Container) (typeName : String) :
    idsOfType (seen ++ [c]) typeName = idsOfType seen typeName ++ if typeName = c.typeName then [c.id] else [] := by
  by_cases h : typeName = c.typeName
  · simp [idsOfType, h]
  · simp [idsOfType, h, Ne.symm h]

theorem idsOfType_eq_nil {containers : List Container} {typeName : String}
    (h : typeName ∉ containers.map Container.typeName) : idsOfType containers typeName = [] := by
  rw [idsOfType, List.map_eq_nil_iff, List.filter_eq_nil_iff]
  intro c hc
  rw [beq_iff_eq]
  rintro rfl
  exact h (List.mem_map_of_mem hc)

/-- The ids that are collected under the types, one container after the other, are those of the containers of each. -/
theorem types_eq (containers : List Container) :
    types containers =
      (containers.map Container.typeName).eraseDups.map fun typeName => (typeName, idsOfType containers typeName) := by
  induction containers using List.reverseRecOn with
  | nil => rfl
  | append_singleton seen c ih =>
    have hids : ∀ typeName, typeName ≠ c.typeName → idsOfType (seen ++ [c]) typeName = idsOfType seen typeName := by
      intro typeName hne
      rw [idsOfType_snoc, if_neg hne, List.append_nil]
    have hown : idsOfType (seen ++ [c]) c.typeName = idsOfType seen c.typeName ++ [c.id] := by
      rw [idsOfType_snoc, if_pos rfl]
    have hstep : types (seen ++ [c]) = (types seen).push c.typeName c.id := List.foldl_concat ..
    rw [hstep, ih, Keyed.push, Keyed.lookup_map, List.map_append, List.map_singleton, eraseDups_snoc]
    by_cases hknown : c.typeName ∈ seen.map Container.typeName
    · have hmem : c.typeName ∈ (seen.map Container.typeName).eraseDups := List.mem_eraseDups.mpr hknown
      rw [if_pos hmem, if_pos hknown, Option.getD_some, Keyed.insert_map_of_mem (nodup_eraseDups _) hmem]
      refine List.map_congr_left fun typeName _ => ?_
      split
      · rename_i h
        rw [h, hown]
      · rename_i h
        rw [hids typeName h]
    · have hnew : c.typeName ∉ (seen.map Container.typeName).eraseDups := fun h => hknown (List.mem_eraseDups.mp h)
      rw [if_neg hnew, if_neg hknown, Option.getD_none, Keyed.insert_map_of_not_mem hnew, List.map_append,
        List.map_singleton, hown, idsOfType_eq_nil hknown]
      congr 1
      refine List.map_congr_left fun typeName htype => ?_
      rw [hids typeName fun h => hnew (h ▸ htype)]

theorem files_eq (space : String) (containers : List Container) :
    files space containers =
      containers.map (constructorFile space containers) ++
        (containers.map Container.typeName).eraseDups.map (typeFileOf space containers) ++
        [vectorFile, indexFile space containers] := by
  rw [files, types_eq, List.map_map]
  rfl

/-- Different constructors have different files, and so have different types; beside them there are the files of vectors
and of the index. -/
theorem nodup_paths (space : String) (hnames : (containers.map Container.name).Nodup) :
    ((files space containers).map PlannedFile.path).Nodup := by
  have hconstructors : (containers.map (constructorPath space)).Nodup := by
    have hpaths : containers.map (constructorPath space) =
        (containers.map Container.name).map (path space "constructors") := by
      rw [List.map_map]
      rfl
    rw [hpaths]
    exact hnames.map_on fun _ _ _ _ h => path_inj.mp h
  have htypes : ((containers.map Container.typeName).eraseDups.map (typePath space)).Nodup :=
    (nodup_eraseDups _).map_on fun _ _ _ _ h => path_inj.mp h
  have hpaths : (files space containers).map PlannedFile.path =
      containers.map (constructorPath space) ++
        ((containers.map Container.typeName).eraseDups.map (typePath space) ++ ["Vector", indexPath space]) := by
    rw [files_eq, List.map_append, List.map_append, List.map_map, List.map_map, List.append_assoc]
    rfl
  rw [hpaths, List.nodup_append, List.nodup_append]
  refine ⟨hconstructors, ⟨htypes, ?_, ?_⟩, ?_⟩
  · simpa using (indexPath_ne_vector space).symm
  · rintro _ htype _ hother rfl
    obtain ⟨typeName, -, heq⟩ := List.mem_map.mp htype
    simp only [List.mem_cons, List.not_mem_nil, or_false] at hother
    rcases hother with hvector | hindex
    · exact typePath_ne_vector space typeName (heq.trans hvector)
    · exact typePath_ne_indexPath space typeName (heq.trans hindex)
  · rintro _ hconstructor _ hother rfl
    obtain ⟨c, -, heq⟩ := List.mem_map.mp hconstructor
    simp only [List.mem_append, List.mem_map, List.mem_cons, List.not_mem_nil, or_false] at hother
    rcases hother with ⟨typeName, -, htype⟩ | hvector | hindex
    · exact constructorPath_ne_typePath space c typeName (heq.trans htype.symm)
    · exact constructorPath_ne_vector space c (heq.trans hvector)
    · exact constructorPath_ne_indexPath space c (heq.trans hindex)

/-- The type of a constructor has a file, which lists the constructor and is the only one to do so. -/
theorem existsUnique_lists (space : String) (hids : (containers.map Container.id).Nodup) {c : Container}
    (hc : c ∈ containers) :
    ∃ t ∈ (containers.map Container.typeName).eraseDups.map (typeFileOf space containers),
      t.path = typePath space c.typeName ∧ t.Lists c.id ∧
        ∀ u ∈ (containers.map Container.typeName).eraseDups.map (typeFileOf space containers), u.Lists c.id → u = t := by
  have hlists (typeName : String) {id : UInt32} : (typeFileOf space containers typeName).Lists id ↔
      ∃ d ∈ containers, d.typeName = typeName ∧ d.id = id :=
    (isTypeFile_typeFileOf space containers typeName).lists_iff
  have hmem : c.typeName ∈ (containers.map Container.typeName).eraseDups :=
    List.mem_eraseDups.mpr (List.mem_map_of_mem hc)
  refine ⟨_, List.mem_map_of_mem hmem, rfl, (hlists _).mpr ⟨c, hc, rfl, rfl⟩, ?_⟩
  intro u hu hlisted
  obtain ⟨typeName, -, rfl⟩ := List.mem_map.mp hu
  obtain ⟨d, hd, rfl, hid⟩ := (hlists _).mp hlisted
  rw [List.inj_on_of_nodup_map hids hd hc hid]

/-- The files of containers with distinct names and distinct ids: those of the constructors in the order of the
containers, those of the types in the order of their first constructors, that of vectors and the index, no two of them
at one path. Every constructor names the path of the one file that lists its id, these files list no other ids, and the
index lists the paths of the constructors' files, each of which is that of one of them. -/
theorem files_closed (space : String) (hnames : (containers.map Container.name).Nodup)
    (hids : (containers.map Container.id).Nodup) :
    ∃ constructors types typeNames index,
      files space containers = constructors ++ types ++ [vectorFile, index] ∧
      vectorFile.kind = .vector ∧ index.kind = .index ∧
      List.Forall₂ (IsConstructorFile space) containers constructors ∧
      AreFirsts typeNames (containers.map Container.typeName) ∧
      List.Forall₂ (IsTypeFile space containers) typeNames types ∧
      ((files space containers).map PlannedFile.path).Nodup ∧
      List.Forall₂ (fun c f => ∃ t ∈ types, f.typePath? = some t.path ∧ t.Lists c.id ∧ ∀ u ∈ types, u.Lists c.id → u = t)
        containers constructors ∧
      (∀ t ∈ types, ∀ id, t.Lists id → ∃ c ∈ containers, c.id = id) ∧
      index.listedPaths? = some (constructors.map PlannedFile.path) ∧
      ∀ path ∈ constructors.map PlannedFile.path, ∃! f, f ∈ constructors ∧ f.path = path := by
  have hpaths := nodup_paths space hnames
  refine ⟨_, _, _, _, files_eq space containers, rfl, rfl, ?_, areFirsts_eraseDups _, ?_, hpaths, ?_, ?_, ?_, ?_⟩
  · exact List.forall₂_map_right_iff.mpr
      (List.forall₂_same.mpr fun c _ => isConstructorFile_constructorFile space containers c)
  · exact List.forall₂_map_right_iff.mpr
      (List.forall₂_same.mpr fun typeName _ => isTypeFile_typeFileOf space containers typeName)
  · refine List.forall₂_map_right_iff.mpr (List.forall₂_same.mpr fun c hc => ?_)
    obtain ⟨t, ht, hpath, hlisted, honly⟩ := existsUnique_lists space hids hc
    refine ⟨t, ht, ?_, hlisted, honly⟩
    rw [(isConstructorFile_constructorFile space containers c).typePath, hpath]
  · intro t ht id hlisted
    obtain ⟨typeName, -, rfl⟩ := List.mem_map.mp ht
    obtain ⟨c, hc, -, hid⟩ := (isTypeFile_typeFileOf space containers typeName).lists_iff.mp hlisted
    exact ⟨c, hc, hid⟩
  · rw [listedPaths?_indexFile, List.map_map]
    rfl
  · intro path hpath
    obtain ⟨f, hf, rfl⟩ := List.mem_map.mp hpath
    refine ⟨f, ⟨hf, rfl⟩, ?_⟩
    rintro g ⟨hg, heq⟩
    have hconstructors : ∀ {g}, g ∈ containers.map (constructorFile space containers) → g ∈ files space containers :=
      fun hg => files_eq space containers ▸ List.mem_append_left _ (List.mem_append_left _ hg)
    exact List.inj_on_of_nodup_map hpaths (hconstructors hg) (hconstructors hf) heq

/-- Two constructors of one type, with one of another type between them. -/
def atlas : List Container :=
  [⟨1, "point", "Point", [], [], []⟩, ⟨2, "place", "Place", [], [], []⟩, ⟨3, "nowhere", "Point", [], [], []⟩]

/-- In a space without a name. The file of the first constructor names that of its type. -/
theorem files_closed_atlas :
    (files "" atlas).map PlannedFile.path =
        ["constructors/point", "constructors/place", "constructors/nowhere", "types/Point", "types/Place", "Vector",
          "index"] ∧
      ((files "" atlas).map PlannedFile.path).Nodup ∧ ∃ t ∈ files "" atlas, t.path = "types/Point" ∧ t.Lists 1 := by
  have hnames : (atlas.map Container.name).Nodup := by decide
  have hids : (atlas.map Container.id).Nodup := by decide
  obtain ⟨constructors, types, _, _, hfiles, -, -, hconstructors, -, -, hpaths, howned, -⟩ :=
    files_closed "" hnames hids
  cases hconstructors with
  | cons hpoint _ =>
    cases howned with
    | cons howned _ =>
      obtain ⟨t, ht, hpath, hlisted, -⟩ := howned
      have hsame : some t.path = some "types/Point" := hpath.symm.trans hpoint.typePath
      refine ⟨rfl, hpaths, t, ?_, Option.some.inj hsame, hlisted⟩
      rw [hfiles]
      exact List.mem_append_left _ (List.mem_append_right _ ht)

end Plan

end SchemaWire
