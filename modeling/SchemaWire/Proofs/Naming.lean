import Mathlib.Data.List.TakeWhile
import SchemaWire.Proofs.Dependence
import SchemaWire.Proofs.Grammar
import SchemaWire.Proofs.Signature
import SchemaWire.Proofs.Tiling

/-!
# Names of a compiled source

The names in a source are read off its words, and lowering only puts names together with dots. So all names in the
containers of a compiled source are dotted names, and each of their params has a layout (`isNamed_of_ofSource`).
-/

namespace SchemaWire

/-! ## Words of a source -/

theorem Lexer.name?_word {text name : String} {rest : List Char} (h : (word text rest).name? = some name) :
    name = text := by
  unfold word at h
  split at h
  · cases h
    rfl
  · unfold reserved? at h
    split at h <;> cases h <;> rfl

/-- Every name token of a source is a word. -/
theorem Lexer.isWord_of_lexFrom {pos : Nat} {text : List Char} {tokens : List Located}
    (h : lexFrom pos text = .ok tokens) {t : Located} (ht : t ∈ tokens) {name : String}
    (hname : t.token.name? = some name) : IsWord name := by
  have hne : t.token ≠ .eof := by
    intro heq
    rw [heq] at hname
    cases hname
  obtain ⟨_, c, tail, rest, _, _, _, hscan⟩ := exists_scan_of_mem h ht hne
  rcases scan_cases c with ⟨hstart, hword⟩ | ⟨_, hnameless⟩
  · rw [hword] at hscan
    simp only [Step.mk.injEq, Except.ok.injEq] at hscan
    rw [← hscan.1] at hname
    rw [name?_word hname]
    refine ⟨by simp, List.all_eq_true.mpr fun d hd => ?_⟩
    rw [String.toList_ofList] at hd
    rcases List.mem_cons.mp hd with rfl | hd
    · simp [isIdentifierPart, hstart]
    · exact List.mem_takeWhile_imp hd
  · obtain ⟨hnone, _⟩ := hnameless (by rw [hscan])
    rw [hnone] at hname
    cases hname

/-- Tokens the names among which are words. -/
def Token.AreWords (ts : List Token) : Prop :=
  ∀ t ∈ ts, ∀ name, t.name? = some name → IsWord name

namespace Token.AreWords

variable {t : Token} {ts us : List Token}

theorem left (h : AreWords (ts ++ us)) : AreWords ts :=
  fun t ht => h t (List.mem_append_left _ ht)

theorem right (h : AreWords (ts ++ us)) : AreWords us :=
  fun t ht => h t (List.mem_append_right _ ht)

theorem tail (h : AreWords (t :: ts)) : AreWords ts :=
  fun t ht => h t (List.mem_cons_of_mem _ ht)

end Token.AreWords

/-! ## Names of a tree -/

/-- A dotted name, or a sized one, which is never the name of a container. -/
def TypeName.IsNamed : TypeName → Prop
  | .path p => IsDottedName p.dotted
  | .sized _ => True

def BodyEntry.IsNamed : BodyEntry → Prop
  | .comment _ => True
  | .property p => IsWord p.key.name ∧ p.type.item.IsNamed

def GroupMember.IsNamed : GroupMember → Prop
  | .comment _ => True
  | .container c => IsDottedName c.name.dotted ∧ ∀ entry ∈ c.body, entry.IsNamed

/-- The names that reach containers, without those in the items of a namespace. -/
def Item.IsNamed : Item → Prop
  | .comment _ => True
  | .namespaceBlock name _ _ => IsWord name.name
  | .typeGroup g => IsWord g.name.name ∧ (∀ p ∈ g.traits, IsDottedName p.dotted) ∧ ∀ member ∈ g.body, member.IsNamed
  | .aliasDecl a => a.target.IsNamed
  | .traitDecl _ => True
  | .declaration d => IsDottedName d.ctor.dotted ∧ IsDottedName d.name.dotted ∧ ∀ entry ∈ d.body, entry.IsNamed

namespace Grammar

open Token (AreWords)

variable {ts : List Token}

theorem IsName.isWord {i : Identifier} (h : IsName ts i) (hts : AreWords ts) : IsWord i.name := by
  cases h with
  | ident => exact hts _ (List.mem_singleton_self _) _ rfl
  | keyword => exact hts _ (List.mem_singleton_self _) _ rfl

theorem IsSegments.isWord {segments : List Identifier} (h : IsSegments ts segments) (hts : AreWords ts) :
    segments ≠ [] ∧ ∀ i ∈ segments, IsWord i.name := by
  induction h with
  | last h => simpa using h.isWord hts
  | cons h _ ih => simpa using ⟨h.isWord hts.left, (ih hts.right.tail).2⟩

theorem IsPath.isDottedName {p : TypePath} (h : IsPath ts p) (hts : AreWords ts) : IsDottedName p.dotted := by
  obtain ⟨hsegments⟩ := h
  obtain ⟨hne, hwords⟩ := hsegments.isWord hts
  exact ⟨_, by simpa using hne, by simpa using hwords, rfl⟩

theorem IsTypeName.isNamed {t : TypeName} (h : IsTypeName ts t) (hts : AreWords ts) : t.IsNamed := by
  cases h with
  | path h => exact h.isDottedName hts
  | sized => trivial

theorem IsPropertyType.isNamed {t : PropertyType} (h : IsPropertyType ts t) (hts : AreWords ts) : t.item.IsNamed := by
  cases h with
  | single h => exact h.isNamed hts
  | vector h => exact h.isNamed hts.tail.tail.left

theorem IsProperty.isNamed {p : Property} (h : IsProperty ts p) (hts : AreWords ts) :
    (BodyEntry.property p).IsNamed := by
  cases h with
  | required hkey htype => exact ⟨hkey.isWord hts.left, htype.isNamed hts.right.tail⟩
  | optional hkey htype => exact ⟨hkey.isWord hts.left, htype.isNamed hts.right.tail.tail⟩

theorem IsComments.isNamed {entries : List BodyEntry} (h : IsComments ts entries) :
    ∀ entry ∈ entries, entry.IsNamed := by
  induction h with
  | nil => simp
  | cons _ _ ih => simpa [BodyEntry.IsNamed] using ih

theorem IsEntries.isNamed {entries : List BodyEntry} (h : IsEntries ts entries) (hts : AreWords ts) :
    ∀ entry ∈ entries, entry.IsNamed := by
  induction h with
  | nil => simp
  | comment _ _ ih => simpa [BodyEntry.IsNamed] using ih hts.right
  | last h hcomments => simpa using ⟨h.isNamed hts.left, hcomments.isNamed⟩
  | property h hcomments _ ih =>
    simp only [List.cons_append, List.forall_mem_cons, List.forall_mem_append]
    exact ⟨h.isNamed hts.left.left, hcomments.isNamed, ih hts.right.tail⟩

theorem IsArrowEntries.isNamed {entries : List BodyEntry} (h : IsArrowEntries ts entries) (hts : AreWords ts) :
    ∀ entry ∈ entries, entry.IsNamed := by
  induction h with
  | last hcomments h =>
    simp only [List.forall_mem_append, List.forall_mem_singleton]
    exact ⟨hcomments.isNamed, h.isNamed hts.right⟩
  | cons hcomments h _ ih =>
    simp only [List.forall_mem_cons, List.forall_mem_append]
    exact ⟨hcomments.isNamed, h.isNamed hts.left.right, ih hts.right.tail⟩

theorem IsBody.isNamed {body : List BodyEntry} (h : IsBody ts body) (hts : AreWords ts) :
    ∀ entry ∈ body, entry.IsNamed := by
  cases h with
  | braces h => exact h.isNamed hts.tail.left
  | arrow h => exact h.isNamed hts.tail
  | arrowEnded h => exact h.isNamed hts.tail.left
  | arrowEmpty => simp
  | none => simp
  | ended => simp

theorem IsMembers.isNamed {body : List GroupMember} (h : IsMembers ts body) (hts : AreWords ts) :
    ∀ member ∈ body, member.IsNamed := by
  induction h with
  | nil => simp
  | comment _ _ ih => simpa [GroupMember.IsNamed] using ih hts.right
  | container hname hbody _ ih =>
    simp only [List.forall_mem_cons]
    exact ⟨⟨hname.isDottedName hts.left.left, hbody.isNamed hts.left.right⟩, ih hts.right⟩

theorem IsPaths.isDottedName {ps : List TypePath} (h : IsPaths ts ps) (hts : AreWords ts) :
    ∀ p ∈ ps, IsDottedName p.dotted := by
  induction h with
  | last h => simpa using h.isDottedName hts
  | cons h _ ih => simpa using ⟨h.isDottedName hts.left, ih hts.right.tail⟩

theorem IsImplemented.isDottedName {traits : List TypePath} (h : IsImplemented ts traits) (hts : AreWords ts) :
    ∀ p ∈ traits, IsDottedName p.dotted := by
  cases h with
  | none => simp
  | some h => exact h.isDottedName hts.tail

theorem IsItems.isNamed {items : List Item} (h : IsItems ts items) (hts : AreWords ts) :
    ∀ item ∈ Item.flatten items, item.IsNamed := by
  induction h with
  | nil => simp [Item.flatten]
  | comment _ _ ih => simpa [Item.flatten, Item.IsNamed] using ih hts.right
  | namespaceBlock hname _ _ ihbody ih =>
    simp only [Item.flatten, List.forall_mem_cons, List.cons_append, List.forall_mem_append]
    exact ⟨hname.isWord hts.left.left.tail, ihbody hts.left.right.tail, ih hts.right.tail⟩
  | typeGroup h _ ih =>
    obtain ⟨hname, htraits, hbody⟩ := h
    simp only [Item.flatten, List.forall_mem_cons]
    have hgroup := hts.left.tail
    exact ⟨⟨hname.isWord hgroup.left.left.left, htraits.isDottedName hgroup.left.left.right,
      hbody.isNamed hgroup.left.right.tail⟩, ih hts.right⟩
  | aliasDecl h _ ih =>
    simp only [Item.flatten, List.forall_mem_cons]
    refine ⟨?_, ih hts.right⟩
    cases h with
    | plain _ htarget => exact htarget.isNamed hts.left.tail.right.tail
    | ended _ htarget => exact htarget.isNamed hts.left.tail.left.right.tail
  | traitDecl _ _ ih => simpa [Item.flatten, Item.IsNamed] using ih hts.right
  | declaration h _ ih =>
    simp only [Item.flatten, List.forall_mem_cons]
    refine ⟨?_, ih hts.right⟩
    cases h with
    | constructorFirst hctor hname hbody =>
      exact ⟨hctor.isDottedName hts.left.left.left, hname.isDottedName hts.left.left.right.tail,
        hbody.isNamed hts.left.right⟩
    | typeFirst hname hctor hbody =>
      exact ⟨hctor.isDottedName hts.left.left.right, hname.isDottedName hts.left.left.left,
        hbody.isNamed hts.left.right⟩

end Grammar

/-- All names in the tree of a source are words, or words with dots between them. -/
theorem isNamed_of_lex {source : List Char} {tokens : List Located} {s : Schema} (hlex : lex source = .ok tokens)
    (h : Schema.ofTokens tokens = .ok s) : ∀ item ∈ Item.flatten s.body, item.IsNamed := by
  obtain ⟨left, hitems⟩ := Parser.exists_of_ofTokens h
  obtain ⟨⟨used, hused, hderives⟩, -⟩ := Parser.takes_items hitems
  refine hderives.isNamed fun t ht name hname => ?_
  have hmem : t ∈ (Located.beforeEof tokens).map Located.token := by
    rw [hused]
    exact List.mem_append_left _ ht
  obtain ⟨u, hu, rfl⟩ := List.mem_map.mp hmem
  exact Lexer.isWord_of_lexFrom hlex ((List.takeWhile_sublist _).subset hu) hname

/-! ## Names that lowering makes -/

theorem isDottedName_qualified {spaceName name : String} (hspace : IsWord spaceName) (h : IsDottedName name) :
    IsDottedName (Scope.qualified spaceName name) := by
  obtain ⟨words, hne, hwords, rfl⟩ := h
  refine ⟨spaceName :: words, by simp, by simpa using ⟨hspace, hwords⟩, ?_⟩
  rw [String.intercalate_cons_of_ne_nil hne, Scope.qualified]

theorem isDottedName_of_isWord {text : String} (h : IsWord text) : IsDottedName text :=
  ⟨[text], by simp, by simpa using h, by simp⟩

theorem Primitive.isDottedName_name (type : Primitive) : IsDottedName type.name := by
  have hword : IsWord type.name := by
    cases type <;> decide
  exact isDottedName_of_isWord hword

namespace AliasTable

variable {t : AliasTable}

/-- A table the targets of which are dotted names, or have a size. -/
def IsNamed (t : AliasTable) : Prop :=
  ∀ a ∈ t.entries, a.target.IsNamed

theorem applySize_ne_reference {sized : SizedType} {r : Resolved} {name : String} :
    applySize sized r ≠ .ok (.reference name) := by
  intro h
  unfold applySize at h
  split at h
  · split at h
    · cases h
    · split at h <;> cases h
  · cases h

theorem isDottedName_of_resolveName (ht : t.IsNamed) {chain : List String} {name reference : String} {place : Span}
    (hname : IsDottedName name) (h : t.resolveName chain name place = .ok (.reference reference)) :
    IsDottedName reference := by
  fun_induction resolveName t chain name place with
  | case1 => cases h
  | case2 =>
    cases h
    exact hname
  | case3 => cases h
  | case4 _ _ _ _ a ha _ _ path htarget _ ih =>
    have hpath := ht a (mem_entries_of_get? ha)
    rw [htarget] at hpath
    exact ih hpath h
  | case5 _ _ _ _ a ha _ _ path htarget =>
    have hpath := ht a (mem_entries_of_get? ha)
    rw [htarget] at hpath
    cases h
    exact hpath
  | case6 =>
    obtain ⟨_, _, h⟩ := Except.bind_eq_ok_iff.mp h
    exact absurd h applySize_ne_reference

theorem isDottedName_of_resolve (ht : t.IsNamed) {type : TypeName} {reference : String} (htype : type.IsNamed)
    (h : t.resolve type = .ok (.reference reference)) : IsDottedName reference := by
  unfold resolve at h
  split at h
  · split at h
    · exact isDottedName_of_resolveName ht htype h
    · cases h
      exact htype
  · obtain ⟨_, _, h⟩ := Except.bind_eq_ok_iff.mp h
    exact absurd h applySize_ne_reference

theorem isNamed_of_shape (ht : t.IsNamed) {type : PropertyType} {s : Shape} (htype : type.item.IsNamed)
    (h : t.shape type = .ok s) : s.IsNamed := by
  unfold shape at h
  split at h
  · obtain ⟨r, hr, h⟩ := Except.bind_eq_ok_iff.mp h
    cases r with
    | reference name =>
      cases h
      exact isDottedName_of_resolve ht htype hr
    | _ =>
      cases h
      trivial
  · obtain ⟨r, hr, h⟩ := Except.bind_eq_ok_iff.mp h
    cases r with
    | primitive type =>
      cases h
      exact type.isDottedName_name
    | strict => cases h
    | reference name =>
      cases h
      exact isDottedName_of_resolve ht htype hr

end AliasTable

/-! ## Params -/

/-- Bits that are not asked for may be set. -/
theorem and_of_disjoint {a b m : UInt8} (h : b &&& m = 0) : (a ||| b) &&& m = a &&& m := by
  have hbits : b.toBitVec &&& m.toBitVec = 0 := congrArg UInt8.toBitVec h
  apply UInt8.toBitVec_inj.mp
  simp only [UInt8.toBitVec_and, UInt8.toBitVec_or]
  ext i hi
  have := congrArg (·[i]) hbits
  simp at this ⊢
  grind

namespace Param

variable {p : Param}

/-- Whether a value may be absent is a bit apart from those of its kind. -/
theorem flags_setOptional (p : Param) (optional : Bool) :
    (p.setOptional optional).flags.kind = p.flags.kind ∧
      (p.setOptional optional).flags.contains .strictSize = p.flags.contains .strictSize := by
  have hbits (m : UInt8) (hunion : 16 &&& m = 0) (hremove : ~~~16 &&& m = m) :
      (p.setOptional optional).flags.bits &&& m = p.flags.bits &&& m := by
    cases optional with
    | true => exact and_of_disjoint hunion
    | false =>
      simp only [setOptional, Bool.false_eq_true, if_false, ParamFlags.remove, ParamFlags.optional, UInt8.and_assoc]
      rw [hremove]
  exact ⟨congrArg ParamFlags.mk (hbits 7 (by decide) (by decide)),
    congrArg (· == ParamFlags.strictSize.bits) (hbits 8 (by decide) (by decide))⟩

theorem shape?_setOptional (p : Param) (optional : Bool) : (p.setOptional optional).shape? = p.shape? := by
  obtain ⟨hkind, hstrict⟩ := flags_setOptional p optional
  unfold shape?
  rw [hkind, hstrict]
  rfl

/-- A param of a layout, all names in the fields of which are dotted, those that its kind does not need included. -/
structure IsWritten (p : Param) : Prop where
  name : IsDottedName p.name
  shape : p.shape?.isSome
  vectorOf : ∀ item, p.vectorOf = some item → IsDottedName item
  reference : ∀ target, p.reference = some target → IsDottedName target

theorem IsWritten.isNamed (h : p.IsWritten) : p.IsNamed := by
  obtain ⟨s, hs⟩ := Option.isSome_iff_exists.mp h.shape
  refine ⟨h.name, s, hs, ?_⟩
  cases s with
  | vector item =>
    obtain ⟨name, hname, rfl⟩ := vectorOf_of_shape? hs
    rw [Shape.IsNamed, VectorItem.name_ofName]
    exact h.vectorOf name hname
  | reference target => exact h.reference target (reference_of_shape? hs)
  | _ => trivial

/-- Every layout can be made, though a vector of containers that have a primitive type's name is one of values. -/
theorem isSome_shape?_ofShape (name : String) (s : Shape) : (ofShape name s).shape?.isSome := by
  cases s with
  | vector item =>
    have hproper : (Shape.vector (.ofName item.name)).IsProper := by
      unfold VectorItem.ofName
      cases h : Primitive.ofName? item.name with
      | none => exact h
      | some type => trivial
    have hsame : ofShape name (.vector item) = ofShape name (.vector (.ofName item.name)) := by
      simp [ofShape, VectorItem.name_ofName]
    rw [hsame, shape?_ofShape name hproper]
    rfl
  | primitive type =>
    rw [shape?_ofShape name (s := .primitive type) trivial]
    rfl
  | strict type size =>
    rw [shape?_ofShape name (s := .strict type size) trivial]
    rfl
  | reference target =>
    rw [shape?_ofShape name (s := .reference target) trivial]
    rfl

theorem isWritten_ofShape {name : String} {s : Shape} (hname : IsDottedName name) (hs : s.IsNamed) (optional : Bool)
    (doc : List String) : IsWritten { (ofShape name s).setOptional optional with doc } := by
  refine ⟨?_, ?_, ?_, ?_⟩
  · cases s <;> exact hname
  · show ((ofShape name s).setOptional optional).shape?.isSome
    rw [shape?_setOptional]
    exact isSome_shape?_ofShape name s
  · intro item hitem
    cases s <;> cases hitem
    exact hs
  · intro target htarget
    cases s <;> cases htarget
    exact hs

end Param

namespace Scope

variable {s : Scope} {spaceName : String}

theorem isDottedName_qualifyReference {reference : String} (hspace : IsWord spaceName) (h : IsDottedName reference) :
    IsDottedName (s.qualifyReference spaceName reference) := by
  unfold qualifyReference
  split
  · exact isDottedName_qualified hspace h
  · exact h

theorem isWritten_qualifyParam {p : Param} (hspace : IsWord spaceName) (h : p.IsWritten) :
    (s.qualifyParam spaceName p).IsWritten := by
  refine ⟨h.name, ?_, ?_, ?_⟩
  · have hsame : (s.qualifyParam spaceName p).shape?.isSome = p.shape?.isSome := by
      have hflags : (s.qualifyParam spaceName p).flags = p.flags := rfl
      unfold Param.shape?
      rw [hflags]
      simp only [qualifyParam, apply_ite Option.isSome, Option.isSome_map]
    rw [hsame]
    exact h.shape
  · intro item hitem
    obtain ⟨item', hitem', rfl⟩ := Option.map_eq_some_iff.mp hitem
    have hdotted := h.vectorOf item' hitem'
    split
    · exact isDottedName_qualifyReference hspace hdotted
    · exact hdotted
  · intro target htarget
    obtain ⟨target', htarget', rfl⟩ := Option.map_eq_some_iff.mp htarget
    exact isDottedName_qualifyReference hspace (h.reference target' htarget')

end Scope

/-! ## Containers -/

/-- A container all names in which are dotted, whatever its id. -/
structure Container.IsWritten (c : Container) : Prop where
  name : IsDottedName c.name
  typeName : IsDottedName c.typeName
  traits : ∀ t ∈ c.traits, IsDottedName t
  params : ∀ p ∈ c.params, p.IsWritten

theorem Container.IsWritten.isNamed {c : Container} (h : c.IsWritten) : c.IsNamed :=
  ⟨h.name, h.typeName, h.traits, fun p hp => (h.params p hp).isNamed⟩

/-- A scope all containers of which have dotted names only. -/
def Scope.IsWritten (s : Scope) : Prop :=
  ∀ declared ∈ s.containers, declared.1.IsWritten

theorem Scope.isWritten_append {s u : Scope} (hs : s.IsWritten) (hu : u.IsWritten) : (s.append u).IsWritten := by
  intro declared hdeclared
  rcases List.mem_append.mp hdeclared with h | h
  · exact hs declared h
  · exact hu declared h

theorem Scope.isWritten_enclose {s : Scope} {spaceName : String} (hspace : IsWord spaceName) (hs : s.IsWritten) :
    (s.enclose spaceName).IsWritten := by
  intro declared hdeclared
  obtain ⟨⟨c, place⟩, hc, rfl⟩ := List.mem_map.mp hdeclared
  have hwritten := hs _ hc
  refine ⟨isDottedName_qualified hspace hwritten.name, isDottedName_qualified hspace hwritten.typeName, ?_, ?_⟩
  · intro t ht
    obtain ⟨t', ht', rfl⟩ := List.mem_map.mp ht
    exact isDottedName_qualifyReference hspace (hwritten.traits t' ht')
  · intro p hp
    obtain ⟨p', hp', rfl⟩ := List.mem_map.mp hp
    exact isWritten_qualifyParam hspace (hwritten.params p' hp')

namespace AliasTable

variable {t : AliasTable} (ht : t.IsNamed)

include ht

theorem isWritten_of_lowerBody {pending : List String} {body : List BodyEntry} {params : List Param}
    (hbody : ∀ entry ∈ body, entry.IsNamed) (h : t.lowerBody pending body = .ok params) :
    ∀ p ∈ params, p.IsWritten := by
  induction body generalizing pending params with
  | nil =>
    cases h
    simp
  | cons entry rest ih =>
    simp only [List.forall_mem_cons] at hbody
    cases entry with
    | comment c => exact ih hbody.2 h
    | property p =>
      obtain ⟨param, hparam, h⟩ := Except.bind_eq_ok_iff.mp h
      obtain ⟨more, hmore, h⟩ := Except.bind_eq_ok_iff.mp h
      cases h
      obtain ⟨s, hs, hparam⟩ := Except.bind_eq_ok_iff.mp hparam
      cases hparam
      have hkey : IsDottedName p.key.name := isDottedName_of_isWord hbody.1.1
      simp only [List.forall_mem_cons]
      exact ⟨Param.isWritten_ofShape hkey (isNamed_of_shape ht hbody.1.2 hs) p.optional pending, ih hbody.2 hmore⟩

theorem isWritten_of_lowerDeclaration {doc : List String} {d : Declaration} {c : Container}
    (hd : (Item.declaration d).IsNamed) (h : t.lowerDeclaration doc d = .ok c) : c.IsWritten := by
  obtain ⟨params, hparams, h⟩ := Except.bind_eq_ok_iff.mp h
  cases h
  exact ⟨hd.1, hd.2.1, by simp [Container.make, Container.withParams, Container.withDoc, Container.assignId],
    isWritten_of_lowerBody ht hd.2.2 hparams⟩

theorem isWritten_of_lowerMembers {typeName : String} {traits groupDoc pending : List String} {body : List GroupMember}
    {containers : List (Container × Span)} (htype : IsDottedName typeName)
    (htraits : ∀ name ∈ traits, IsDottedName name) (hbody : ∀ member ∈ body, member.IsNamed)
    (h : t.lowerMembers typeName traits groupDoc pending body = .ok containers) :
    ∀ declared ∈ containers, declared.1.IsWritten := by
  induction body generalizing pending containers with
  | nil =>
    cases h
    simp
  | cons member rest ih =>
    simp only [List.forall_mem_cons] at hbody
    cases member with
    | comment c => exact ih hbody.2 h
    | container c =>
      obtain ⟨params, hparams, h⟩ := Except.bind_eq_ok_iff.mp h
      obtain ⟨more, hmore, h⟩ := Except.bind_eq_ok_iff.mp h
      cases h
      simp only [List.forall_mem_cons]
      exact ⟨⟨hbody.1.1, htype, htraits, isWritten_of_lowerBody ht hbody.1.2 hparams⟩, ih hbody.2 hmore⟩

theorem isWritten_of_lowerItems {pending : List String} {items : List Item} {s : Scope}
    (hitems : ∀ item ∈ Item.flatten items, item.IsNamed) (h : t.lowerItems pending items = .ok s) : s.IsWritten := by
  fun_induction lowerItems t pending items generalizing s with
  | case1 =>
    cases h
    intro declared hdeclared
    cases hdeclared
  | case2 pending c rest ih => exact ih (by simpa [Item.flatten, Item.IsNamed] using hitems) h
  | case3 pending d rest ih =>
    simp only [Item.flatten, List.forall_mem_cons] at hitems
    obtain ⟨c, hc, h⟩ := Except.bind_eq_ok_iff.mp h
    obtain ⟨more, hmore, h⟩ := Except.bind_eq_ok_iff.mp h
    cases h
    have hwritten := isWritten_of_lowerDeclaration ht hitems.1 hc
    exact Scope.isWritten_append (by simpa [Scope.IsWritten] using hwritten) (ih hitems.2 hmore)
  | case4 pending g rest ih =>
    simp only [Item.flatten, List.forall_mem_cons] at hitems
    obtain ⟨⟨hname, htraits, hbody⟩, hrest⟩ := hitems
    obtain ⟨members, hmembers, h⟩ := Except.bind_eq_ok_iff.mp h
    obtain ⟨more, hmore, h⟩ := Except.bind_eq_ok_iff.mp h
    cases h
    have hwritten := isWritten_of_lowerMembers ht (isDottedName_of_isWord hname) (by simpa using htraits) hbody hmembers
    exact Scope.isWritten_append hwritten (ih hrest hmore)
  | case5 pending name body span rest ihbody ih =>
    simp only [Item.flatten, List.cons_append, List.forall_mem_cons, List.forall_mem_append] at hitems
    obtain ⟨inner, hinner, h⟩ := Except.bind_eq_ok_iff.mp h
    obtain ⟨more, hmore, h⟩ := Except.bind_eq_ok_iff.mp h
    cases h
    have henclosed := Scope.isWritten_enclose hitems.1 (ihbody hitems.2.1 hinner)
    exact Scope.isWritten_append henclosed (ih hitems.2.2 hmore)
  | case6 pending d rest ih =>
    simp only [Item.flatten, List.forall_mem_cons] at hitems
    obtain ⟨declared, _, h⟩ := Except.bind_eq_ok_iff.mp h
    obtain ⟨more, hmore, h⟩ := Except.bind_eq_ok_iff.mp h
    cases h
    exact Scope.isWritten_append (by simp [Scope.IsWritten]) (ih hitems.2 hmore)
  | case7 pending a rest ih =>
    simp only [Item.flatten, List.forall_mem_cons] at hitems
    exact ih hitems.2 h

end AliasTable

theorem Schema.isNamed_of_lower {s : Schema} {containers : List Container}
    (hs : ∀ item ∈ Item.flatten s.body, item.IsNamed) (h : s.lower.result = .ok containers) :
    ∀ c ∈ containers, c.IsNamed ∧ c.id = c.computeId := by
  obtain ⟨t, scope, hentries, _, hitems, _, rfl⟩ := lower_result_eq_ok_iff.mp h
  have hnamed : t.IsNamed := fun a ha => hs _ (Item.mem_aliases_iff.mp (hentries ▸ ha))
  rw [List.forall_mem_map]
  intro d hd
  have hwritten := (AliasTable.isWritten_of_lowerItems hnamed hs hitems d hd).isNamed
  exact ⟨⟨hwritten.name, hwritten.typeName, hwritten.traits, hwritten.params⟩, rfl⟩

/-- Every container of a compiled source has dotted names and layouts only, and the id that its signature gives. -/
theorem isNamed_of_ofSource {source : List Char} {m : Model} (h : Model.ofSource source = .ok m) :
    ∀ c ∈ m.containers, c.IsNamed ∧ c.id = c.computeId := by
  have hcompile : Session.initial.compile source = (.ok m, (Session.initial.compile source).2) := Prod.ext h rfl
  obtain ⟨tree, htree, hlower⟩ := Session.compile_eq_ok_iff.mp hcompile
  obtain ⟨tokens, htokens, hparse⟩ := Except.bind_eq_ok_iff.mp htree
  have hnames := isNamed_of_lex (Except.mapError_eq_ok_iff.mp htokens) (Except.mapError_eq_ok_iff.mp hparse)
  exact Schema.isNamed_of_lower hnames (congrArg Lowered.result hlower)

/-- Signatures identify structure: names, traits, and the name, the layout and the presence of every param. They say
nothing else, and ids tell what they say up to collisions of the checksum. -/
theorem signature_eq_iff_agrees :
    (∀ c d : Container, c.IsNamed → d.IsNamed →
      (c.signature = d.signature ↔ c.Agrees d) ∧
      (c.computeId = d.computeId ↔ c.Agrees d ∨ Utf8.ofString c.signature ≠ Utf8.ofString d.signature ∧
        Crc32.checksum (Utf8.ofString c.signature) = Crc32.checksum (Utf8.ofString d.signature))) ∧
    (∀ c : Container, c.withoutDocs.signature = c.signature ∧ c.withoutDocs.computeId = c.computeId) ∧
    ∀ source m, Model.ofSource source = .ok m → ∀ c ∈ m.containers, c.IsNamed ∧ c.id = c.computeId := by
  refine ⟨fun c d hc hd => ⟨⟨?_, ?_⟩, Container.computeId_eq_iff hc hd⟩, fun c => ⟨c.signature_withoutDocs, ?_⟩, ?_⟩
  · exact Container.agrees_of_signature_eq hc hd
  · exact fun h => h.signature_eq hc
  · unfold Container.computeId
    rw [c.signature_withoutDocs]
  · exact fun _ _ => isNamed_of_ofSource

/-- A param that is called `implements` in a container with a trait, with and without documentation. -/
theorem signature_eq_iff_agrees_documented :
    let p : Param := (Param.ofShape "implements" (.vector (.container "blog.Tag"))).setOptional true
    let c : Container := ⟨1, "blog.post", "blog.Post", ["Item"], [p], []⟩
    let d : Container := ⟨2, "blog.post", "blog.Post", ["Item"], [{ p with doc := ["tags"] }], ["a post"]⟩
    c.IsNamed ∧ d.IsNamed ∧ c.signature = d.signature := by
  intro p c d
  have hname : IsDottedName "blog.post" := ⟨["blog", "post"], by simp, by decide, rfl⟩
  have htypeName : IsDottedName "blog.Post" := ⟨["blog", "Post"], by simp, by decide, rfl⟩
  have htag : IsDottedName "blog.Tag" := ⟨["blog", "Tag"], by simp, by decide, rfl⟩
  have htraits : ∀ t ∈ ["Item"], IsDottedName t := by
    simpa using (isDottedName_of_isWord (by decide) : IsDottedName "Item")
  have hp : p.IsWritten :=
    Param.isWritten_ofShape (isDottedName_of_isWord (by decide)) (s := .vector (.container "blog.Tag")) htag true []
  have hc : c.IsNamed := ⟨hname, htypeName, htraits, by simpa [c] using hp.isNamed⟩
  have hd : d.IsNamed := ⟨hname, htypeName, htraits, by simpa [d] using ⟨hp.isNamed.name, hp.isNamed.shape⟩⟩
  have hagree : c.Agrees d := ⟨rfl, rfl, rfl, .cons ⟨rfl, rfl, rfl⟩ .nil⟩
  exact ⟨hc, hd, ((signature_eq_iff_agrees.1 c d hc hd).1).mpr hagree⟩

end SchemaWire
