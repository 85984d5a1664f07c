import Mathlib.Data.List.Forall2
import SchemaWire.Model.Container
import SchemaWire.Proofs.Utf8
import SchemaWire.Token.Lexer

/-!
# Signatures

The signature of a container is one flat text, but it can be taken apart again: no part of it holds the
characters that stand between parts. So it determines names, traits and params, given that all names in it
are dotted names (`agrees_of_signature_eq`), while documentation never reaches it (`Agrees.signature_eq`).
-/

namespace SchemaWire

/-! ## Texts between separators -/

section Separated

variable {sep : Char} {before after before' after' : List Char}

/-- What stands before the first separator, and what after it, can be told. -/
theorem eq_of_append_cons_eq (h : sep ∉ before) (h' : sep ∉ before')
    (heq : before ++ sep :: after = before' ++ sep :: after') : before = before' ∧ after = after' := by
  induction before generalizing before' with
  | nil =>
    cases before' with
    | nil => exact ⟨rfl, (List.cons.inj heq).2⟩
    | cons c rest =>
      have hc : sep = c := (List.cons.inj heq).1
      exact absurd (by simp [hc]) h'
  | cons c rest ih =>
    cases before' with
    | nil =>
      have hc : c = sep := (List.cons.inj heq).1
      exact absurd (by simp [hc]) h
    | cons c' rest' =>
      obtain ⟨rfl, hrest⟩ := List.cons.inj heq
      obtain ⟨rfl, rfl⟩ := ih (fun hmem => h (by simp [hmem])) (fun hmem => h' (by simp [hmem])) hrest
      exact ⟨rfl, rfl⟩

theorem mem_of_mem_intercalate {c : Char} {texts : List (List Char)} (h : c ∈ [sep].intercalate texts) :
    c = sep ∨ ∃ text ∈ texts, c ∈ text := by
  induction texts with
  | nil => simp at h
  | cons text rest ih =>
    cases rest with
    | nil => exact .inr ⟨text, by simp, by simpa using h⟩
    | cons next rest =>
      rw [List.intercalate_cons_cons] at h
      simp only [List.mem_append, List.mem_singleton] at h
      rcases h with (h | h) | h
      · exact .inr ⟨text, by simp, h⟩
      · exact .inl h
      · rcases ih h with h | ⟨text', hmem, h⟩
        · exact .inl h
        · exact .inr ⟨text', by simp [hmem], h⟩

/-- Texts without the separator can be told from what they are joined to. -/
theorem eq_of_intercalate_eq {texts texts' : List String} (hne : texts ≠ []) (hne' : texts' ≠ [])
    (h : ∀ t ∈ texts, sep ∉ t.toList) (h' : ∀ t ∈ texts', sep ∉ t.toList)
    (heq : (String.singleton sep).intercalate texts = (String.singleton sep).intercalate texts') :
    texts = texts' := by
  have hlists : [sep].intercalate (texts.map String.toList) = [sep].intercalate (texts'.map String.toList) := by
    simpa using congrArg String.toList heq
  have hsplit := congrArg (List.splitOn sep) hlists
  rw [List.splitOn_intercalate sep (by simpa using h) (by simpa using hne),
    List.splitOn_intercalate sep (by simpa using h') (by simpa using hne')] at hsplit
  exact (List.map_inj_right fun _ _ => String.toList_inj.mp).mp hsplit

end Separated

/-! ## Dotted names -/

/-- A name that may stand between dots. -/
def IsWord (text : String) : Prop :=
  text ≠ "" ∧ text.toList.all Lexer.isIdentifierPart = true

instance : DecidablePred IsWord := fun text =>
  inferInstanceAs (Decidable (text ≠ "" ∧ text.toList.all Lexer.isIdentifierPart = true))

/-- Words with dots between them. -/
def IsDottedName (text : String) : Prop :=
  ∃ words : List String, words ≠ [] ∧ (∀ w ∈ words, IsWord w) ∧ text = ".".intercalate words

/-- No character that separates the parts of a signature is part of a dotted name. -/
theorem IsDottedName.not_mem {text : String} (h : IsDottedName text) {c : Char}
    (hpart : Lexer.isIdentifierPart c = false) (hdot : c ≠ '.') : c ∉ text.toList := by
  obtain ⟨words, _, hwords, rfl⟩ := h
  intro hc
  rw [String.toList_intercalate] at hc
  rcases mem_of_mem_intercalate hc with hc | ⟨word, hword, hc⟩
  · exact hdot hc
  · obtain ⟨w, hw, rfl⟩ := List.mem_map.mp hword
    have := List.all_eq_true.mp (hwords w hw).2 c hc
    simp [hpart] at this

/-! ## Layouts -/

/-- The word for the kind of a layout. -/
def Shape.kindWord : Shape → String
  | .primitive _ => "generic"
  | .strict _ _ => "generic"
  | .vector _ => "vector"
  | .reference _ => "non_generic"

/-- What a layout is made of: the name of a type or a container, and a size if there is one. -/
def Shape.target : Shape → String
  | .primitive type => type.name
  | .strict type size => type.name ++ "[" ++ toString size.toNat ++ "]"
  | .vector item => item.name
  | .reference name => name

/-- Whether the container that a layout names, if it names one, has a dotted name. -/
def Shape.IsNamed : Shape → Prop
  | .vector item => IsDottedName item.name
  | .reference name => IsDottedName name
  | _ => True

theorem Primitive.not_mem_name (type : Primitive) {c : Char} (h : c.isAlpha = false) : c ∉ type.name.toList := by
  intro hc
  have hall : type.name.toList.all Char.isAlpha = true := by
    cases type <;> decide
  simp [List.all_eq_true.mp hall c hc] at h

theorem Param.shapeText_eq {p : Param} {s : Shape} (h : p.shape? = some s) :
    p.shapeText = s.kindWord ++ "#" ++ s.target := by
  unfold shapeText
  rw [h]
  apply String.toList_inj.mp
  cases s <;> simp [Shape.kindWord, Shape.target]

theorem VectorItem.name_ofName (name : String) : (ofName name).name = name := by
  unfold ofName
  cases h : Primitive.ofName? name with
  | none => rfl
  | some type => exact Primitive.name_of_ofName? h

theorem Param.vectorOf_of_shape? {p : Param} {item : VectorItem} (h : p.shape? = some (.vector item)) :
    ∃ name, p.vectorOf = some name ∧ VectorItem.ofName name = item := by
  unfold shape? at h
  split at h
  · split at h <;> simp [Option.map_eq_some_iff, Option.bind_eq_some_iff] at h
  split at h
  · cases h
  split at h
  · obtain ⟨name, hname, heq⟩ := Option.map_eq_some_iff.mp h
    exact ⟨name, hname, by simpa using heq⟩
  · split at h <;> simp [Option.map_eq_some_iff] at h

theorem Param.reference_of_shape? {p : Param} {target : String} (h : p.shape? = some (.reference target)) :
    p.reference = some target := by
  unfold shape? at h
  split at h
  · split at h <;> simp [Option.map_eq_some_iff, Option.bind_eq_some_iff] at h
  split at h
  · cases h
  split at h
  · simp [Option.map_eq_some_iff] at h
  · split at h
    · obtain ⟨name, hname, heq⟩ := Option.map_eq_some_iff.mp h
      cases heq
      exact hname
    · cases h

/-- The items of a vector are those that their name stands for. -/
theorem Param.item_of_shape? {p : Param} {item : VectorItem} (h : p.shape? = some (.vector item)) :
    item = .ofName item.name := by
  obtain ⟨name, _, rfl⟩ := vectorOf_of_shape? h
  rw [VectorItem.name_ofName]

/-- A number in brackets is that of one number. -/
theorem eq_of_digits_eq {n m : UInt32} (h : (toString n.toNat).toList ++ [']'] = (toString m.toNat).toList ++ [']']) :
    n = m := by
  have hdigits : Nat.toDigits 10 n.toNat = Nat.toDigits 10 m.toNat := by
    simpa using List.append_cancel_right h
  have hvalue := congrArg (Nat.ofDigitChars 10 · 0) hdigits
  rw [Nat.ofDigitChars_toDigits (by decide) (by decide), Nat.ofDigitChars_toDigits (by decide) (by decide)] at hvalue
  exact UInt32.toNat_inj.mp hvalue

namespace Shape

theorem not_mem_kindWord (s : Shape) : '#' ∉ s.kindWord.toList := by
  cases s <;> simp [kindWord]

/-- Kind and target determine a layout. A primitive type of exact size is told from one without by the bracket, which
no name of a primitive type holds. -/
theorem eq_of_target_eq {s s' : Shape} (hitem : ∀ item, s = .vector item → item = .ofName item.name)
    (hitem' : ∀ item, s' = .vector item → item = .ofName item.name) (hkind : s.kindWord = s'.kindWord)
    (htarget : s.target = s'.target) : s = s' := by
  cases s with
  | primitive type =>
    cases s' with
    | primitive type' => rw [Primitive.name_injective htarget]
    | strict type' size' =>
      have hbracket : '[' ∈ type.name.toList := by
        have := congrArg String.toList htarget
        simp [target] at this
        simp [this]
      exact absurd hbracket (type.not_mem_name (by decide))
    | _ => simp [kindWord] at hkind
  | strict type size =>
    cases s' with
    | primitive type' =>
      have hbracket : '[' ∈ type'.name.toList := by
        have := congrArg String.toList htarget
        simp [target] at this
        simp [← this]
      exact absurd hbracket (type'.not_mem_name (by decide))
    | strict type' size' =>
      have hlists := congrArg String.toList htarget
      simp only [target, String.toList_append, List.append_assoc] at hlists
      obtain ⟨hname, hsize⟩ :=
        eq_of_append_cons_eq (type.not_mem_name (by decide)) (type'.not_mem_name (by decide)) hlists
      rw [Primitive.name_injective (String.toList_inj.mp hname), eq_of_digits_eq hsize]
    | _ => simp [kindWord] at hkind
  | vector item =>
    cases s' with
    | vector item' =>
      have hname : item.name = item'.name := htarget
      rw [hitem item rfl, hitem' item' rfl, hname]
    | _ => simp [kindWord] at hkind
  | reference name =>
    cases s' with
    | reference name' => exact congrArg reference htarget
    | _ => simp [kindWord] at hkind

end Shape

/-! ## Params -/

/-- Params that differ at most in documentation and in fields that their kind does not need. -/
structure Param.Agrees (p q : Param) : Prop where
  name : p.name = q.name
  optional : p.isOptional = q.isOptional
  shape : p.shape? = q.shape?

/-- A param of a layout, with dotted names only. -/
structure Param.IsNamed (p : Param) : Prop where
  name : IsDottedName p.name
  shape : ∃ s, p.shape? = some s ∧ s.IsNamed

namespace Shape

variable {s : Shape}

theorem not_mem_target (h : s.IsNamed) {c : Char} (hpart : Lexer.isIdentifierPart c = false) (hdot : c ≠ '.')
    (hopen : c ≠ '[') (hclose : c ≠ ']') : c ∉ s.target.toList := by
  have halpha : c.isAlpha = false := by
    simp only [Lexer.isIdentifierPart, Lexer.isIdentifierStart, Bool.or_eq_false_iff] at hpart
    exact hpart.1.1.1.2
  have hdigit : c.isDigit = false := (Bool.or_eq_false_iff.mp hpart).2
  cases s with
  | primitive type => exact type.not_mem_name halpha
  | strict type size =>
    have hsize : c ∉ Nat.toDigits 10 size.toNat := by
      intro hmem
      have := Nat.isDigit_of_mem_toDigits (by decide) (by decide) hmem
      simp [hdigit] at this
    simp [target, type.not_mem_name halpha, hsize, hopen, hclose]
  | vector item => exact h.not_mem hpart hdot
  | reference name => exact h.not_mem hpart hdot

end Shape

namespace Param

variable {p q : Param}

/-- The text of a param as characters: the name, a mark if it is optional, and its layout. -/
theorem toList_signature {s : Shape} (h : p.shape? = some s) :
    p.signature.toList =
      (p.name.toList ++ if p.isOptional then ['?'] else []) ++
        ':' :: (s.kindWord.toList ++ '#' :: s.target.toList) := by
  unfold signature
  rw [shapeText_eq h]
  cases p.isOptional <;> simp

theorem colon_mem_signature : ':' ∈ p.signature.toList := by
  simp [signature]

theorem IsNamed.space_not_mem (h : p.IsNamed) : ' ' ∉ p.signature.toList := by
  obtain ⟨s, hs, hnamed⟩ := h.shape
  rw [toList_signature hs]
  have hname : ' ' ∉ p.name.toList := h.name.not_mem (by decide) (by decide)
  have hkind : ' ' ∉ s.kindWord.toList := by
    cases s <;> simp [Shape.kindWord]
  have htarget : ' ' ∉ s.target.toList := Shape.not_mem_target hnamed (by decide) (by decide) (by decide) (by decide)
  cases p.isOptional <;> simp [hname, hkind, htarget]

theorem Agrees.signature_eq (h : p.Agrees q) (hp : p.IsNamed) : p.signature = q.signature := by
  obtain ⟨s, hs, _⟩ := hp.shape
  apply String.toList_inj.mp
  rw [toList_signature hs, toList_signature (h.shape ▸ hs), h.name, h.optional]

/-- The text of a param determines it. -/
theorem agrees_of_signature_eq (hp : p.IsNamed) (hq : q.IsNamed) (h : p.signature = q.signature) : p.Agrees q := by
  obtain ⟨s, hs, hnamed⟩ := hp.shape
  obtain ⟨s', hs', hnamed'⟩ := hq.shape
  have mark {p : Param} (hp : p.IsNamed) : '?' ∉ p.name.toList := hp.name.not_mem (by decide) (by decide)
  have colon {p : Param} (hp : p.IsNamed) : ':' ∉ p.name.toList ++ if p.isOptional then ['?'] else [] := by
    have := hp.name.not_mem (c := ':') (by decide) (by decide)
    cases p.isOptional <;> simp [this]
  have hlists := congrArg String.toList h
  rw [toList_signature hs, toList_signature hs'] at hlists
  obtain ⟨hfront, hlayout⟩ := eq_of_append_cons_eq (colon hp) (colon hq) hlists
  obtain ⟨hkind, htarget⟩ := eq_of_append_cons_eq s.not_mem_kindWord s'.not_mem_kindWord hlayout
  have hshape : s = s' :=
    Shape.eq_of_target_eq (fun _ heq => item_of_shape? (heq ▸ hs)) (fun _ heq => item_of_shape? (heq ▸ hs'))
      (String.toList_inj.mp hkind) (String.toList_inj.mp htarget)
  have hoptional : p.isOptional = q.isOptional := by
    have hmark := congrArg ('?' ∈ ·) hfront
    simpa [mark hp, mark hq] using hmark
  rw [hoptional] at hfront
  exact ⟨String.toList_inj.mp (List.append_cancel_right hfront), hoptional, by rw [hs, hs', hshape]⟩

theorem agrees_of_signatures_eq {ps qs : List Param} (hps : ∀ p ∈ ps, p.IsNamed) (hqs : ∀ q ∈ qs, q.IsNamed)
    (h : ps.map signature = qs.map signature) : List.Forall₂ Agrees ps qs := by
  induction ps generalizing qs with
  | nil =>
    rw [List.map_eq_nil_iff.mp h.symm]
    exact .nil
  | cons p ps ih =>
    obtain ⟨q, rest, rfl, hfirst, hrest⟩ := List.map_eq_cons_iff.mp h.symm
    have hagree := agrees_of_signature_eq (hps p (by simp)) (hqs q (by simp)) hfirst.symm
    exact .cons hagree (ih (fun p hp => hps p (by simp [hp])) (fun q hq => hqs q (by simp [hq])) hrest.symm)

theorem signatures_eq_of_agrees {ps qs : List Param} (hps : ∀ p ∈ ps, p.IsNamed) (h : List.Forall₂ Agrees ps qs) :
    ps.map signature = qs.map signature := by
  induction h with
  | nil => rfl
  | cons hfirst _ ih =>
    simp only [List.forall_mem_cons] at hps
    rw [List.map_cons, List.map_cons, hfirst.signature_eq hps.1, ih hps.2]

/-- The param without its documentation. -/
def withoutDoc (p : Param) : Param :=
  { p with doc := [] }

end Param

/-! ## Containers -/

namespace Container

/-- Containers that differ at most in their ids, in documentation, and in what no layout needs. -/
structure Agrees (c d : Container) : Prop where
  name : c.name = d.name
  typeName : c.typeName = d.typeName
  traits : c.traits = d.traits
  params : List.Forall₂ Param.Agrees c.params d.params

/-- A container with dotted names only, all params of which have a layout. -/
structure IsNamed (c : Container) : Prop where
  name : IsDottedName c.name
  typeName : IsDottedName c.typeName
  traits : ∀ t ∈ c.traits, IsDottedName t
  params : ∀ p ∈ c.params, p.IsNamed

/-- The words about traits in a signature. -/
def traitWords (c : Container) : List String :=
  if c.traits.isEmpty then [] else ["implements", ",".intercalate c.traits]

/-- The words about params in a signature: one that is empty if there are none. -/
def paramWords (c : Container) : List String :=
  if c.params.isEmpty then [""] else c.params.map Param.signature

/-- The words of a signature, which have spaces between them. -/
def words (c : Container) : List String :=
  (c.name ++ ":" ++ c.typeName) :: (c.traitWords ++ c.paramWords)

variable {c d : Container}

theorem signature_eq_intercalate (c : Container) : c.signature = " ".intercalate c.words := by
  have hne : c.paramWords ≠ [] := by
    unfold paramWords
    cases c.params <;> simp
  have hparams : " ".intercalate c.paramWords = " ".intercalate (c.params.map Param.signature) := by
    unfold paramWords
    cases c.params <;> simp
  unfold signature words traitWords
  rw [← hparams]
  apply String.toList_inj.mp
  cases c.traits with
  | nil => simp [String.intercalate_cons_of_ne_nil hne]
  | cons t rest => simp [String.intercalate_cons_of_ne_nil hne]

theorem IsNamed.space_not_mem (h : c.IsNamed) : ∀ w ∈ c.words, ' ' ∉ w.toList := by
  have hname {text : String} (h : IsDottedName text) : ' ' ∉ text.toList := h.not_mem (by decide) (by decide)
  have hhead : ' ' ∉ (c.name ++ ":" ++ c.typeName).toList := by
    simp [hname h.name, hname h.typeName]
  have htraits : ∀ w ∈ c.traitWords, ' ' ∉ w.toList := by
    have hjoined : ' ' ∉ (",".intercalate c.traits).toList := by
      intro hmem
      rw [String.toList_intercalate] at hmem
      rcases mem_of_mem_intercalate hmem with heq | ⟨text, htext, hmem⟩
      · exact absurd heq (by decide)
      · obtain ⟨t, ht, rfl⟩ := List.mem_map.mp htext
        exact hname (h.traits t ht) hmem
    unfold traitWords
    split
    · simp
    · simpa using hjoined
  have hparams : ∀ w ∈ c.paramWords, ' ' ∉ w.toList := by
    unfold paramWords
    split
    · simp
    · intro w hw
      obtain ⟨p, hp, rfl⟩ := List.mem_map.mp hw
      exact (h.params p hp).space_not_mem
  intro w hw
  rcases List.mem_cons.mp hw with rfl | hw
  · exact hhead
  rcases List.mem_append.mp hw with hw | hw
  · exact htraits w hw
  · exact hparams w hw

/-- The words about params do not begin like those about traits, as each param has a colon. -/
theorem paramWords_ne_implements {rest : List String} : c.paramWords ≠ "implements" :: rest := by
  intro h
  unfold paramWords at h
  split at h
  · simp at h
  · obtain ⟨p, params, hp, hword, _⟩ := List.map_eq_cons_iff.mp h
    have := p.colon_mem_signature
    simp [hword] at this

theorem signatures_eq_of_paramWords_eq (h : c.paramWords = d.paramWords) :
    c.params.map Param.signature = d.params.map Param.signature := by
  have hempty {c : Container} : [""] ≠ c.params.map Param.signature := by
    intro h
    obtain ⟨p, _, _, hp, _⟩ := List.map_eq_cons_iff.mp h.symm
    have := p.colon_mem_signature
    simp [hp] at this
  unfold paramWords at h
  split at h
  · rename_i hc
    split at h
    · rename_i hd
      rw [List.isEmpty_iff.mp hc, List.isEmpty_iff.mp hd]
    · exact absurd h hempty
  · split at h
    · exact absurd h.symm hempty
    · exact h

theorem traits_eq_of_traitWords_eq (hc : c.IsNamed) (hd : d.IsNamed) {rest rest' : List String}
    (hrest : ∀ more, rest ≠ "implements" :: more) (hrest' : ∀ more, rest' ≠ "implements" :: more)
    (h : c.traitWords ++ rest = d.traitWords ++ rest') : c.traits = d.traits ∧ rest = rest' := by
  have hcomma {text : String} (h : IsDottedName text) : ',' ∉ text.toList := h.not_mem (by decide) (by decide)
  unfold traitWords at h
  cases hct : c.traits with
  | nil =>
    cases hdt : d.traits with
    | nil => simpa [hct, hdt] using h
    | cons t more => exact absurd (by simpa [hct, hdt] using h) (hrest _)
  | cons t more =>
    cases hdt : d.traits with
    | nil => exact absurd (by simpa [hct, hdt] using h.symm) (hrest' _)
    | cons t' more' =>
      rw [hct, hdt] at h
      simp only [List.isEmpty_cons, Bool.false_eq_true, if_false, List.cons_append, List.nil_append,
        List.cons.injEq, true_and] at h
      have hall : ∀ name ∈ t :: more, ',' ∉ name.toList := fun name hname => hcomma (hc.traits name (hct ▸ hname))
      have hall' : ∀ name ∈ t' :: more', ',' ∉ name.toList := fun name hname => hcomma (hd.traits name (hdt ▸ hname))
      exact ⟨eq_of_intercalate_eq (by simp) (by simp) hall hall' h.1, h.2⟩

theorem Agrees.signature_eq (h : c.Agrees d) (hc : c.IsNamed) : c.signature = d.signature := by
  unfold signature
  rw [h.name, h.typeName, h.traits, Param.signatures_eq_of_agrees hc.params h.params]

/-- The signature of a container determines its names, traits and params. -/
theorem agrees_of_signature_eq (hc : c.IsNamed) (hd : d.IsNamed) (h : c.signature = d.signature) : c.Agrees d := by
  rw [signature_eq_intercalate, signature_eq_intercalate] at h
  have hwords : c.words = d.words :=
    eq_of_intercalate_eq (by simp [words]) (by simp [words]) hc.space_not_mem hd.space_not_mem h
  obtain ⟨hhead, htail⟩ := List.cons.inj hwords
  obtain ⟨htraits, hparams⟩ :=
    traits_eq_of_traitWords_eq hc hd (fun _ => paramWords_ne_implements) (fun _ => paramWords_ne_implements) htail
  have hcolon {text : String} (h : IsDottedName text) : ':' ∉ text.toList := h.not_mem (by decide) (by decide)
  have hnames : c.name.toList ++ ':' :: c.typeName.toList = d.name.toList ++ ':' :: d.typeName.toList := by
    simpa using congrArg String.toList hhead
  obtain ⟨hname, htype⟩ := eq_of_append_cons_eq (hcolon hc.name) (hcolon hd.name) hnames
  have hsignatures := signatures_eq_of_paramWords_eq hparams
  exact ⟨String.toList_inj.mp hname, String.toList_inj.mp htype, htraits,
    Param.agrees_of_signatures_eq hc.params hd.params hsignatures⟩

/-- The container without documentation, its own and that of its params. -/
def withoutDocs (c : Container) : Container :=
  { c with doc := [], params := c.params.map Param.withoutDoc }

theorem signature_withoutDocs (c : Container) : c.withoutDocs.signature = c.signature := by
  have hparams : c.withoutDocs.params.map Param.signature = c.params.map Param.signature := by
    have hparam : Param.signature ∘ Param.withoutDoc = Param.signature := rfl
    rw [withoutDocs, List.map_map, hparam]
  unfold signature
  rw [hparams]
  rfl

/-- Containers share an id if they agree, and else only if different texts have one checksum. -/
theorem computeId_eq_iff (hc : c.IsNamed) (hd : d.IsNamed) :
    c.computeId = d.computeId ↔ c.Agrees d ∨ Utf8.ofString c.signature ≠ Utf8.ofString d.signature ∧
      Crc32.checksum (Utf8.ofString c.signature) = Crc32.checksum (Utf8.ofString d.signature) := by
  constructor
  · intro hid
    by_cases hagree : c.Agrees d
    · exact .inl hagree
    · refine .inr ⟨fun hoctets => ?_, hid⟩
      have hread := congrArg Utf8.toString? hoctets
      rw [Utf8.toString?_ofString, Utf8.toString?_ofString] at hread
      exact hagree (agrees_of_signature_eq hc hd (Except.ok.inj hread))
  · rintro (hagree | ⟨_, hid⟩)
    · unfold computeId
      rw [hagree.signature_eq hc]
    · exact hid

end Container

end SchemaWire
