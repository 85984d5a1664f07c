import SchemaWire.Engine.Registry
import SchemaWire.Model.Json
import SchemaWire.Proofs.JsonText

/-!
# Models kept as JSON

A model is read back from the text of its JSON form as it was (`ofModels_reloaded`). Nothing is lost with a field that
is left out because it is missing, nor with flags that are written by name: the text of flags is taken apart at its
bars, and each part is a word that stands for its own bits (`ParamFlags.ofText?_text`).
-/

namespace SchemaWire

namespace Text

variable {lead part : List Char}

theorem ne_of_isHexDigit {c d : Char} (hc : isHexDigit c = true) (hd : isHexDigit d = false) : c ≠ d := by
  rintro rfl
  rw [hc] at hd
  cases hd

theorem isBlank_of_isHexDigit {c : Char} (h : isHexDigit c = true) : isBlank c = false := by
  have hrange : ('0' ≤ c ∧ c ≤ '9') ∨ ('a' ≤ c ∧ c ≤ 'f') ∨ ('A' ≤ c ∧ c ≤ 'F') := by
    simp only [isHexDigit, digitValue?] at h
    grind
  simp only [Char.le_def, UInt32.le_iff_toNat_le] at hrange
  simp only [isBlank, Char.toNat]
  simp at hrange ⊢
  omega

theorem trimStart_append (hlead : ∀ c ∈ lead, isBlank c = true) (hpart : ∀ c ∈ part.head?, isBlank c = false) :
    trimStart (lead ++ part) = part := by
  rw [trimStart, List.dropWhile_append_of_pos hlead]
  cases part with
  | nil => rfl
  | cons c cs => rw [List.dropWhile_cons_of_neg (by simp [hpart c rfl])]

theorem trim_append (lead trail : List Char) (hlead : ∀ c ∈ lead, isBlank c = true)
    (htrail : ∀ c ∈ trail, isBlank c = true) (hne : part ≠ []) (hpart : ∀ c ∈ part, isBlank c = false) :
    trim (lead ++ part ++ trail) = part := by
  have hfirst : ∀ c ∈ (part ++ trail).head?, isBlank c = false := by
    intro c hc
    rw [List.head?_append_of_ne_nil _ hne] at hc
    exact hpart c (List.mem_of_mem_head? hc)
  have hlast : ∀ c ∈ part.reverse.head?, isBlank c = false := by
    intro c hc
    exact hpart c (List.mem_reverse.mp (List.mem_of_mem_head? hc))
  rw [trim, List.append_assoc, trimStart_append hlead hfirst, List.reverse_append,
    trimStart_append (by simpa using htrail) hlast, List.reverse_reverse]

end Text

namespace ParamFlags

/-! ## Parts between bars -/

/-- Whether a part of a text has nothing that separates parts. -/
structure IsWord (part : List Char) : Prop where
  ne_nil : part ≠ []
  not_blank : ∀ c ∈ part, Text.isBlank c = false
  bar_not_mem : '|' ∉ part

theorem pieces_append {part : List Char} (h : '|' ∉ part) (rest : List Char) :
    pieces (part ++ '|' :: rest) = part :: pieces rest := by
  induction part with
  | nil => rfl
  | cons c cs ih =>
    rw [List.mem_cons, not_or] at h
    rw [List.cons_append, pieces, ih h.2]
    simpa using Ne.symm h.1

theorem pieces_of_not_mem {part : List Char} (h : '|' ∉ part) : pieces part = [part] := by
  induction part with
  | nil => rfl
  | cons c cs ih =>
    rw [List.mem_cons, not_or] at h
    rw [pieces, ih h.2]
    simpa using Ne.symm h.1

/-- Words that are joined with bars are told apart again. `lead` is what the bar before them left. -/
theorem trim_pieces_intercalate {words : List (List Char)} (hne : words ≠ []) (hwords : ∀ part ∈ words, IsWord part)
    (lead : List Char) (hlead : ∀ c ∈ lead, c = ' ') :
    (pieces (lead ++ " | ".toList.intercalate words)).map Text.trim = words := by
  have hblank : ∀ c ∈ lead, Text.isBlank c = true := by
    intro c hc
    rw [hlead c hc]
    rfl
  have hbar : '|' ∉ lead := fun hmem => absurd (hlead _ hmem) (by decide)
  induction words generalizing lead with
  | nil => exact absurd rfl hne
  | cons part rest ih =>
    rw [List.forall_mem_cons] at hwords
    obtain ⟨hpart, hrest⟩ := hwords
    have hfront : '|' ∉ lead ++ part := by simp [hbar, hpart.bar_not_mem]
    cases rest with
    | nil =>
      have htrim := Text.trim_append lead [] hblank (by simp) hpart.ne_nil hpart.not_blank
      rw [List.append_nil] at htrim
      rw [List.intercalate_singleton, pieces_of_not_mem hfront, List.map_singleton, htrim]
    | cons next rest =>
      have htrim := Text.trim_append lead [' '] hblank (List.forall_mem_singleton.mpr rfl) hpart.ne_nil hpart.not_blank
      have htext : lead ++ " | ".toList.intercalate (part :: next :: rest) =
          (lead ++ part ++ [' ']) ++ '|' :: ([' '] ++ " | ".toList.intercalate (next :: rest)) := by
        simp [List.intercalate_cons_cons]
      have hmore := ih (by simp) hrest [' '] (by simp) (List.forall_mem_singleton.mpr rfl) (by decide)
      rw [htext, pieces_append (by simpa using hfront), List.map_cons, htrim, hmore]

theorem not_blank_intercalate {words : List (List Char)} (hne : words ≠ []) (hwords : ∀ part ∈ words, IsWord part) :
    ¬(" | ".toList.intercalate words).all Text.isBlank = true := by
  intro hall
  obtain ⟨part, rest, rfl⟩ := List.exists_cons_of_ne_nil hne
  have hpart : IsWord part := hwords part List.mem_cons_self
  obtain ⟨c, hc⟩ := List.exists_mem_of_ne_nil part hpart.ne_nil
  have hmem : c ∈ " | ".toList.intercalate (part :: rest) := by
    cases rest <;> simp [List.intercalate_cons_cons, hc]
  have hblank : Text.isBlank c = true := List.all_eq_true.mp hall c hmem
  rw [hpart.not_blank c hc] at hblank
  cases hblank

/-- A text of parts gives all the flags that its parts stand for. -/
theorem ofText?_intercalate {parts : List (String × ParamFlags)}
    (h : ∀ part ∈ parts, IsWord part.1.toList ∧ ofPart? part.1.toList = some part.2) :
    ofText? (" | ".intercalate (parts.map Prod.fst)) = some ((parts.map Prod.snd).foldl union ⟨0⟩) := by
  have hread : (parts.map fun part => part.1.toList).mapM ofPart? = some (parts.map Prod.snd) :=
    Json.mapM_map_eq_some fun part hpart => (h part hpart).2
  have hwords : ∀ word ∈ parts.map (fun part => part.1.toList), IsWord word := by
    intro word hmem
    obtain ⟨part, hpart, rfl⟩ := List.mem_map.mp hmem
    exact (h part hpart).1
  have htext : (parts.map Prod.fst).map String.toList = parts.map fun part => part.1.toList := by
    rw [List.map_map]
    rfl
  rw [ofText?, String.toList_intercalate, htext]
  by_cases hne : parts = []
  · rw [hne]
    rfl
  · have hne' : parts.map (fun part => part.1.toList) ≠ [] := by simpa using hne
    have hpieces := trim_pieces_intercalate hne' hwords [] (by simp)
    rw [List.nil_append] at hpieces
    have hmapM := List.mapM_map (m := Option) (f := Text.trim) (g := ofPart?)
      (l := pieces (" | ".toList.intercalate (parts.map fun part => part.1.toList)))
    rw [hpieces, hread] at hmapM
    rw [if_neg (not_blank_intercalate hne' hwords)]
    exact congrArg (Option.map fun all => all.foldl union ⟨0⟩) hmapM.symm

/-! ## Flags -/

/-- The parts of the text of flags, with the bits that each stands for. -/
def valued (f : ParamFlags) : List (String × ParamFlags) :=
  (named.filter fun flag => f.contains flag.2) ++
    if f.unnamed.bits = 0 then [] else [("0x" ++ String.ofList (Nat.toDigits 16 f.unnamed.bits.toNat), f.unnamed)]

theorem parts_eq_map_valued (f : ParamFlags) : f.parts = f.valued.map Prod.fst := by
  rw [parts, valued, List.map_append]
  split <;> rfl

theorem isWord_of_mem_named : ∀ flag ∈ named, IsWord flag.1.toList ∧ ofPart? flag.1.toList = some flag.2 := by
  have h : ∀ flag ∈ named, (flag.1.toList ≠ [] ∧ flag.1.toList.all (fun c => !Text.isBlank c) = true ∧
      '|' ∉ flag.1.toList) ∧ ofPart? flag.1.toList = some flag.2 := by
    decide
  intro flag hmem
  obtain ⟨⟨hne, hblank, hbar⟩, hpart⟩ := h flag hmem
  exact ⟨⟨hne, by simpa using hblank, hbar⟩, hpart⟩

theorem isWord_hexadecimal (n : Nat) : IsWord ('0' :: 'x' :: Nat.toDigits 16 n) := by
  have hdigit : ∀ c ∈ Nat.toDigits 16 n, Text.isHexDigit c = true := fun _ => Text.isHexDigit_of_mem_toDigits
  refine ⟨List.cons_ne_nil _ _, ?_, ?_⟩
  · rw [List.forall_mem_cons, List.forall_mem_cons]
    exact ⟨rfl, rfl, fun c hc => Text.isBlank_of_isHexDigit (hdigit c hc)⟩
  · have hbar : '|' ∉ Nat.toDigits 16 n := fun hmem => Text.ne_of_isHexDigit (hdigit _ hmem) (by decide) rfl
    simp [hbar]

theorem ofPart?_hexadecimal (b : UInt8) : ofPart? ('0' :: 'x' :: Nat.toDigits 16 b.toNat) = some ⟨b⟩ := by
  have hplus : Text.dropOne '+' (Nat.toDigits 16 b.toNat) = Nat.toDigits 16 b.toNat := by
    obtain ⟨d, ds, hdigits⟩ := List.exists_cons_of_ne_nil (Nat.toDigits_ne_nil (n := b.toNat) (b := 16))
    have hdigit : Text.isHexDigit d = true := Text.isHexDigit_of_mem_toDigits (n := b.toNat) (by simp [hdigits])
    rw [hdigits, Text.dropOne, if_neg (Text.ne_of_isHexDigit hdigit (by decide))]
  have hlt : b.toNat < UInt8.size := b.toNat_lt
  rw [ofPart?, hplus, Text.hexadecimal?_toDigits, Option.bind_some, if_pos hlt, UInt8.ofNat_toNat]

/-- Each part of the text of flags is a word that stands for its bits. -/
theorem isWord_of_mem_valued {f : ParamFlags} :
    ∀ part ∈ f.valued, IsWord part.1.toList ∧ ofPart? part.1.toList = some part.2 := by
  intro part hmem
  rw [valued, List.mem_append] at hmem
  rcases hmem with hmem | hmem
  · exact isWord_of_mem_named part (List.mem_of_mem_filter hmem)
  · split at hmem
    · cases hmem
    · rw [List.mem_singleton.mp hmem]
      simpa using And.intro (isWord_hexadecimal f.unnamed.bits.toNat) (ofPart?_hexadecimal f.unnamed.bits)

theorem foldl_valued (f : ParamFlags) : (f.valued.map Prod.snd).foldl union ⟨0⟩ = f := by
  -- Flags are eight bits, so there are few enough of them to look at each.
  have h : ∀ b : Fin 256, ((valued ⟨UInt8.ofNat b⟩).map Prod.snd).foldl union ⟨0⟩ = ⟨UInt8.ofNat b⟩ := by
    decide +kernel
  simpa using h ⟨f.bits.toNat, f.bits.toNat_lt⟩

theorem ofText?_text (f : ParamFlags) : ofText? f.text = some f := by
  rw [text, parts_eq_map_valued, ofText?_intercalate isWord_of_mem_valued, foldl_valued]

end ParamFlags

/-! ## Params and containers -/

@[simp] theorem Primitive.ofJson?_name (t : Primitive) : ofJson? (.string t.name) = some t := by
  simp [ofJson?, Json.variant?]

namespace Param

section OptionalField

variable {α : Type} {name : String} {f : α → Json}

@[simp] theorem get?_optionalField_self (x : Option α) : Fields.get? (optionalField name f x) name = x.map f := by
  cases x <;> simp [optionalField, Fields.get?]

theorem get?_optionalField_of_ne {n : String} (h : n ≠ name) (x : Option α) :
    Fields.get? (optionalField name f x) n = none := by
  cases x with
  | none => rfl
  | some a => rw [optionalField, Fields.get?_cons, if_neg h, Fields.get?, List.lookup_nil]

theorem names_optionalField_sublist (x : Option α) : (Fields.names (optionalField name f x)).Sublist [name] := by
  cases x <;> simp [optionalField]

theorem forall_mem_optionalField {P : Json → Prop} (h : ∀ a, P (f a)) (x : Option α) :
    ∀ field ∈ optionalField name f x, P field.2 := by
  cases x <;> simp [optionalField, h]

end OptionalField

@[simp] theorem ofJson?_toJson (p : Param) : ofJson? p.toJson = some p := by
  have hprimitive := Json.nullable?_map Primitive.ofJson?_name (by simp) p.primitive
  have hvector := Json.nullable?_map Json.string?_string (by simp) p.vectorOf
  have hreference := Json.nullable?_map Json.string?_string (by simp) p.reference
  have hsize := Json.nullable?_map Json.uint32?_ofNat (by simp [Json.ofNat]) p.size
  have hflags := p.flags.ofText?_text
  simp [ofJson?, toJson, Fields.get?_cons, Fields.get?_append, get?_optionalField_of_ne, hprimitive, hvector,
    hreference, hsize, hflags]

end Param

@[simp] theorem Container.ofJson?_toJson (c : Container) : ofJson? c.toJson = some c := by
  have hparams := Json.listOf?_map c.params fun p _ => p.ofJson?_toJson
  simp [ofJson?, toJson, Fields.get?_cons, hparams]

@[simp] theorem Model.ofJson?_toJson (m : Model) : ofJson? m.toJson = some m := by
  have hcontainers := Json.listOf?_map m.containers fun c _ => c.ofJson?_toJson
  simp [ofJson?, toJson, Fields.get?_cons, hcontainers]

/-! ## Texts of models -/

namespace Json

/-- Whether a value is plain and nests at most so deep. -/
def IsPlainWithin (levels : Nat) (j : Json) : Prop :=
  j.IsPlain ∧ j.height ≤ levels

variable {levels : Nat}

theorem IsPlainWithin.string (s : String) : IsPlainWithin levels (.string s) :=
  ⟨.string, Nat.zero_le levels⟩

theorem IsPlainWithin.uint32 (n : UInt32) : IsPlainWithin levels (.ofNat n.toNat) := by
  have hlt : n.toNat < UInt64.size := Nat.lt_trans n.toNat_lt (by decide)
  exact ⟨.nat hlt, Nat.zero_le levels⟩

theorem IsPlainWithin.array {items : List Json} (h : ∀ j ∈ items, IsPlainWithin levels j) :
    IsPlainWithin (levels + 1) (.array items) :=
  ⟨.array fun j hj => (h j hj).1, Nat.succ_le_succ (heightItems_le_iff.mpr fun j hj => (h j hj).2)⟩

theorem IsPlainWithin.object {fields : Fields Json} (hnames : fields.names.Nodup)
    (h : ∀ field ∈ fields, IsPlainWithin levels field.2) : IsPlainWithin (levels + 1) (.object fields) :=
  ⟨.object hnames fun field hfield => (h field hfield).1,
    Nat.succ_le_succ (heightFields_le_iff.mpr fun field hfield => (h field hfield).2)⟩

theorem IsPlainWithin.ofStrings (texts : List String) : IsPlainWithin (levels + 1) (.ofStrings texts) := by
  refine .array fun j hj => ?_
  obtain ⟨s, _, rfl⟩ := List.mem_map.mp hj
  exact .string s

end Json

open Json (IsPlainWithin)

theorem Param.isPlainWithin_toJson (p : Param) : IsPlainWithin 2 p.toJson := by
  refine .object ?_ ?_
  · have hall : (["name", "doc", "type"] ++ ["genericType"] ++ ["vectorOf"] ++ ["containerReference"] ++
        ["size"]).Nodup := by
      decide
    refine List.Sublist.nodup ?_ hall
    simp only [Fields.names, List.map_append]
    exact ((((List.Sublist.refl _).append (names_optionalField_sublist _)).append
      (names_optionalField_sublist _)).append (names_optionalField_sublist _)).append (names_optionalField_sublist _)
  · simp only [List.forall_mem_append, List.forall_mem_cons]
    refine ⟨⟨⟨⟨⟨.string _, .ofStrings _, .string _, by simp⟩, ?_⟩, ?_⟩, ?_⟩, ?_⟩
    · exact forall_mem_optionalField (fun t => .string t.name) p.primitive
    · exact forall_mem_optionalField .string p.vectorOf
    · exact forall_mem_optionalField .string p.reference
    · exact forall_mem_optionalField .uint32 p.size

theorem Container.isPlainWithin_toJson (c : Container) : IsPlainWithin 4 c.toJson := by
  have hparams : IsPlainWithin 3 (.array (c.params.map Param.toJson)) :=
    .array (List.forall_mem_map.mpr fun p _ => p.isPlainWithin_toJson)
  refine .object (by simp) ?_
  simp only [List.forall_mem_cons]
  exact ⟨.uint32 _, .string _, .string _, .ofStrings _, hparams, .ofStrings _, by simp⟩

theorem Model.isPlainWithin_toJson (m : Model) : IsPlainWithin 6 m.toJson := by
  have hcontainers : IsPlainWithin 5 (.array (m.containers.map Container.toJson)) :=
    .array (List.forall_mem_map.mpr fun c _ => c.isPlainWithin_toJson)
  exact .object (by simp) (List.forall_mem_singleton.mpr hcontainers)

/-- The model of a text in JSON. -/
def Model.ofText? (text : List Char) : Option Model :=
  (Json.parse? text Json.nestingLimit).bind ofJson?

/-- Any model is the model of its JSON form and of the text of that. So a registry that is built of models of which one
was stored is the one, or the error, that the models give themselves. -/
theorem Model.ofModels_reloaded (m : Model) :
    ofJson? m.toJson = some m ∧ ofText? m.toJson.text = some m ∧
      ∀ (before after : List Model) (config : Config),
        (ofText? m.toJson.text).map (fun stored => Registry.ofModels (before ++ stored :: after) config) =
          some (Registry.ofModels (before ++ m :: after) config) := by
  obtain ⟨hplain, hheight⟩ := m.isPlainWithin_toJson
  have hparse : Json.parse? m.toJson.text Json.nestingLimit = some m.toJson :=
    Json.parse?_text hplain (Nat.le_trans hheight (by decide))
  have htext : ofText? m.toJson.text = some m := by
    rw [ofText?, hparse, Option.bind_some, ofJson?_toJson]
  refine ⟨ofJson?_toJson m, htext, fun before after config => ?_⟩
  rw [htext, Option.map_some]

end SchemaWire
