import Mathlib.Data.List.Induction
import SchemaWire.Proofs.Dependence

/-!
# Histories of a session

Any number of calls may be made on one session: sources, sources given by their bytes, and trees. Each of them gives
what it gives on a new session, whatever became of the calls before it, and the session then holds what a new one holds
after the last call that came to a tree (`call_after`).
-/

namespace SchemaWire

namespace Session

/-- A call on a session. -/
inductive Call
  | source (text : List Char)
  | bytes (octets : Bytes)
  | tree (tree : Schema)

/-- The tree that a call comes to. A source that cannot be decoded, split into tokens or parsed comes to none. -/
def Call.tree? : Call → Option Schema
  | .source text => (Schema.ofSource text).toOption
  | .bytes octets => (Utf8.decode octets).toOption.bind fun text => (Schema.ofSource text).toOption
  | .tree t => some t

/-- What a call gives, and the session after it. -/
def call (s : Session) : Call → Except SourceError Model × Session
  | .source text => s.compile text
  | .bytes octets => s.compileBytes octets
  | .tree tree =>
    let (result, next) := s.lower tree
    (result.mapError .lowering, next)

/-- The session after calls, one after the other. -/
def after (s : Session) (calls : List Call) : Session :=
  calls.foldl (fun s c => (s.call c).2) s

variable {s : Session} {c : Call} {tree : Schema}

/-! ## One call -/

theorem compile_of_ofSource {source : List Char} (h : Schema.ofSource source = .ok tree) :
    s.compile source = s.call (.tree tree) := by
  rw [compile, h]
  rfl

theorem compile_of_error {source : List Char} {e : SourceError} (h : Schema.ofSource source = .error e) :
    s.compile source = (.error e, s) := by
  rw [compile, h]

theorem call_of_tree?_eq_some (h : c.tree? = some tree) : s.call c = s.call (.tree tree) := by
  have hsource {text : List Char} (h : (Schema.ofSource text).toOption = some tree) :
      s.compile text = s.call (.tree tree) := by
    cases htext : Schema.ofSource text with
    | error e => simp [htext, Except.toOption] at h
    | ok found =>
      simp only [htext, Except.toOption, Option.some.injEq] at h
      exact h ▸ compile_of_ofSource htext
  cases c with
  | source text => exact hsource h
  | bytes octets =>
    obtain ⟨text, htext, h⟩ := Option.bind_eq_some_iff.mp h
    have hdecode : s.call (.bytes octets) = s.compile text := by
      cases hoctets : Utf8.decode octets with
      | error fault => simp [hoctets, Except.toOption] at htext
      | ok found =>
        simp only [hoctets, Except.toOption, Option.some.injEq] at htext
        rw [call, compileBytes, hoctets, htext]
    rw [hdecode, hsource h]
  | tree found =>
    obtain rfl : found = tree := Option.some.inj h
    rfl

/-- A call that comes to no tree fails, for a reason of its own, and touches nothing. -/
theorem exists_call_of_tree?_eq_none (h : c.tree? = none) : ∃ e, ∀ s : Session, s.call c = (.error e, s) := by
  have hsource {text : List Char} (h : (Schema.ofSource text).toOption = none) :
      ∃ e, ∀ s : Session, s.compile text = (.error e, s) := by
    cases htext : Schema.ofSource text with
    | error e => exact ⟨e, fun s => compile_of_error htext⟩
    | ok found => simp [htext, Except.toOption] at h
  cases c with
  | source text => exact hsource h
  | bytes octets =>
    simp only [call, compileBytes]
    cases hoctets : Utf8.decode octets with
    | error fault => exact ⟨.encoding fault, fun s => rfl⟩
    | ok text =>
      simp only [Call.tree?, hoctets, Except.toOption, Option.bind_some] at h
      exact hsource h
  | tree found => cases h

/-- A tree gives the same in every session, and leaves the same behind. -/
theorem call_tree_eq (s s' : Session) (tree : Schema) : s.call (.tree tree) = s'.call (.tree tree) := by
  rw [call, call, lower_eq, lower_eq]

theorem call_result_eq (s s' : Session) (c : Call) : (s.call c).1 = (s'.call c).1 := by
  cases hc : c.tree? with
  | none =>
    obtain ⟨e, he⟩ := exists_call_of_tree?_eq_none hc
    rw [he, he]
  | some tree => rw [call_of_tree?_eq_some hc, call_of_tree?_eq_some hc, call_tree_eq s s']

/-! ## All calls -/

/-- What calls leave in a session: what a new one holds after the last call that came to a tree. -/
def lastLowered (s : Session) (calls : List Call) : Session :=
  match (calls.filterMap Call.tree?).getLast? with
  | some tree => (initial.lower tree).2
  | none => s

theorem after_append (calls : List Call) (c : Call) : s.after (calls ++ [c]) = ((s.after calls).call c).2 := by
  rw [after, List.foldl_append]
  rfl

/-- By induction on the calls from the last one backwards: it either leaves a tree's tables behind, or nothing. -/
theorem after_eq_lastLowered (s : Session) (calls : List Call) : s.after calls = s.lastLowered calls := by
  induction calls using List.reverseRecOn with
  | nil => rfl
  | append_singleton calls c ih =>
    rw [after_append, lastLowered, List.filterMap_append, List.filterMap_cons, List.filterMap_nil]
    cases hc : c.tree? with
    | none =>
      obtain ⟨e, he⟩ := exists_call_of_tree?_eq_none hc
      rw [he, ih, List.append_nil]
      rfl
    | some tree =>
      rw [call_of_tree?_eq_some hc, call_tree_eq _ initial, List.getLast?_concat]
      rfl

end Session

/-- Whether lowering comes to the check that no full name is repeated. -/
def Schema.ReachesNames (s : Schema) : Prop :=
  ∃ aliases scope, AliasTable.registerAll .empty (Item.aliases s.body) = (aliases, .ok ()) ∧ s.scope aliases = .ok scope

/-- Before that check no trait is recorded. -/
theorem Schema.lower_of_not_reachesNames {s : Schema} (h : ¬s.ReachesNames) :
    ∃ aliases e, s.lower = ⟨aliases, [], .error e⟩ := by
  unfold lower
  cases hregister : AliasTable.registerAll .empty (Item.aliases s.body) with
  | mk aliases registered =>
    cases registered with
    | error e => exact ⟨aliases, e, rfl⟩
    | ok _ =>
      cases hscope : s.scope aliases with
      | error e =>
        simp only [hscope]
        exact ⟨aliases, e, rfl⟩
      | ok scope => exact absurd ⟨aliases, scope, hregister, hscope⟩ h

namespace Session

/-- After any calls, a call gives what it gives on a new session, and the session then holds what a new one holds after
the last call that came to a tree. A call that comes to none leaves the session as it was, and a tree that fails before
the check of full names leaves no traits. -/
theorem call_after (s : Session) (calls : List Call) (c : Call) :
    ((s.after calls).call c).1 = (initial.call c).1 ∧
      s.after (calls ++ [c]) = s.lastLowered (calls ++ [c]) ∧
      (c.tree? = none → s.after (calls ++ [c]) = s.after calls) ∧
      ∀ tree, c.tree? = some tree → ¬tree.ReachesNames →
        (∃ e, ((s.after calls).call c).1 = .error (.lowering e)) ∧ (s.after (calls ++ [c])).traits = [] := by
  refine ⟨call_result_eq _ _ c, after_eq_lastLowered s _, fun hc => ?_, fun tree hc htree => ?_⟩
  · obtain ⟨e, he⟩ := exists_call_of_tree?_eq_none hc
    rw [after_append, he]
  · obtain ⟨aliases, e, hlower⟩ := Schema.lower_of_not_reachesNames htree
    have hcall : (s.after calls).call c = (.error (.lowering e), ⟨aliases, []⟩) := by
      rw [call_of_tree?_eq_some hc, call, lower_eq, hlower]
      rfl
    rw [after_append, hcall]
    exact ⟨⟨e, rfl⟩, rfl⟩

/-- A schema, then one that repeats an alias, then a source with a character that begins no token. -/
theorem call_after_repeated :
    let repeated : Schema := ⟨[.aliasDecl Schema.idAlias, .aliasDecl Schema.idAlias], ⟨0, 0⟩⟩
    let calls : List Call := [.tree Schema.users, .tree repeated]
    ¬repeated.ReachesNames ∧ (initial.after calls).traits = [] ∧
      (Call.source ['@']).tree? = none ∧ initial.after (calls ++ [.source ['@']]) = initial.after calls ∧
      ((initial.after calls).call (.tree Schema.users)).1 = (initial.call (.tree Schema.users)).1 := by
  intro repeated calls
  have hrepeated : ¬repeated.ReachesNames := by
    rintro ⟨aliases, scope, hregister, -⟩
    have hentries := AliasTable.registerAll_eq_ok_iff.mp hregister
    have hnodup := aliases.distinct
    rw [hentries] at hnodup
    simp [repeated, AliasTable.empty, Item.aliases, Item.flatten] at hnodup
  have hnone : (Call.source ['@']).tree? = none := by decide +kernel
  obtain ⟨-, -, -, htraits⟩ := call_after initial [.tree Schema.users] (.tree repeated)
  obtain ⟨-, -, hkept, -⟩ := call_after initial calls (.source ['@'])
  obtain ⟨hresult, -⟩ := call_after initial calls (.tree Schema.users)
  exact ⟨hrepeated, (htraits repeated rfl hrepeated).2, hnone, hkept hnone, hresult⟩

end Session

end SchemaWire
