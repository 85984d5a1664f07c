import Mathlib.Tactic.SplitIfs
import SchemaWire.Json.Parser
import SchemaWire.Json.Read
import SchemaWire.Proofs.Keys

/-!
# Reading JSON that was written

The compact text of a value is read back as the value (`parse?_text`), as long as its numbers are natural numbers of 64
bits, no object names a field twice, and it does not nest deeper than is read. No text of a value goes on into what
comes behind it, except for a number before more digits, a point or an exponent (`EndsNumber`).
-/

namespace SchemaWire.Json

namespace Parser

variable {α : Type} {rest : List Char}

/-- What a reader gives, without the proof that it took something. -/
def Reader.result (read : Reader α) (cs : List Char) : Option (α × List Char) :=
  (read cs).map fun (a, rest) => (a, rest.1)

theorem exists_of_result {read : Reader α} {cs : List Char} {a : α} (h : Reader.result read cs = some (a, rest)) :
    ∃ hlt, read cs = some (a, ⟨rest, hlt⟩) := by
  obtain ⟨⟨_, _, hlt⟩, hread, heq⟩ := Option.map_eq_some_iff.mp h
  cases heq
  exact ⟨hlt, hread⟩

/-! ## Strings -/

theorem hex4?_of_control {n : Nat} (h : n < 0x20) :
    hex4? '0' '0' (n / 16).digitChar (n % 16).digitChar = some n := by
  have hzero : Text.digitValue? '0' = some 0 := by decide
  have hhigh := Text.digitValue?_digitChar (n := n / 16) (by omega)
  have hlow := Text.digitValue?_digitChar (n := n % 16) (by omega)
  simp only [hex4?, hzero, hhigh, hlow, Option.bind_eq_bind, Option.bind_some, Option.some.injEq]
  omega

theorem stringBody?_escapeChar (c : Char) (cs : List Char) :
    stringBody? (escapeChar c ++ cs) = (stringBody? cs).map fun (text, rest) => (c :: text, rest) := by
  unfold escapeChar
  split_ifs with hmark hb ht hn hf hr hcontrol
  · rcases hmark with rfl | rfl <;> rfl
  · subst hb; rfl
  · subst ht; rfl
  · subst hn; rfl
  · subst hf; rfl
  · subst hr; rfl
  · -- A control character is below the halves of characters beyond 16 bits.
    have hlow : ¬(0xDC00 ≤ c.toNat ∧ c.toNat ≤ 0xDFFF) := by omega
    have hhigh : ¬(0xD800 ≤ c.toNat ∧ c.toNat ≤ 0xDBFF) := by omega
    simp only [List.cons_append, List.nil_append, stringBody?, hex4?_of_control hcontrol, if_neg hlow, if_neg hhigh,
      Char.ofNat_toNat]
  · rw [not_or] at hmark
    have hplain : ¬(c.toNat < 0x20 ∨ c = '\\') := not_or.mpr ⟨hcontrol, hmark.2⟩
    rw [List.singleton_append, stringBody?, if_neg hplain] <;> simp [hmark]

theorem stringBody?_escaped (cs rest : List Char) :
    stringBody? (cs.flatMap escapeChar ++ '"' :: rest) = some (cs, rest) := by
  induction cs with
  | nil => rfl
  | cons c cs ih =>
    rw [List.flatMap_cons, List.append_assoc, stringBody?_escapeChar, ih]
    rfl

theorem string?_stringText (s : String) (rest : List Char) :
    Reader.result string? (stringText s ++ rest) = some (s, rest) := by
  have hbody := stringBody?_escaped s.toList rest
  have htext : stringText s ++ rest = '"' :: (s.toList.flatMap escapeChar ++ '"' :: rest) := by simp [stringText]
  rw [htext, Reader.result, string?]
  split
  · next text after h =>
    rw [hbody] at h
    cases h
    simp
  · next h =>
    rw [hbody] at h
    cases h

/-! ## Numbers -/

/-- Whether a text does not begin with what a number may go on with. -/
def EndsNumber (rest : List Char) : Prop :=
  ∀ c ∈ rest.head?, c.isDigit = false ∧ c ≠ '.' ∧ c ≠ 'e' ∧ c ≠ 'E'

theorem endsNumber_cons {c : Char} (h : c.isDigit = false ∧ c ≠ '.' ∧ c ≠ 'e' ∧ c ≠ 'E') (rest : List Char) :
    EndsNumber (c :: rest) := by
  intro d hd
  cases hd
  exact h

theorem ne_of_isDigit {c d : Char} (hc : c.isDigit = true) (hd : d.isDigit = false) : c ≠ d := by
  rintro rfl
  rw [hc] at hd
  cases hd

theorem exists_toDigits (n : Nat) : ∃ d ds, Nat.toDigits 10 n = d :: ds ∧ d.isDigit = true := by
  obtain ⟨d, ds, hdigits⟩ := List.exists_cons_of_ne_nil (Nat.toDigits_ne_nil (n := n) (b := 10))
  exact ⟨d, ds, hdigits, Nat.isDigit_of_mem_toDigits (b := 10) (n := n) (by decide) (by decide) (by simp [hdigits])⟩

theorem numeral_toDigits (n : Nat) : numeral (Nat.toDigits 10 n) = n := by
  have hvalue : numeral (Nat.toDigits 10 n) = Nat.ofDigitChars 10 (Nat.toDigits 10 n) 0 := by
    simp only [numeral, Nat.ofDigitChars, Nat.mul_comm 10]
  rw [hvalue, Nat.ofDigitChars_toDigits (by decide) (by decide)]

/-- Only the numeral of zero begins with a zero. -/
theorem head?_toDigits_ne {n : Nat} (hpos : 0 < n) : (Nat.toDigits 10 n).head? ≠ some '0' := by
  induction n using Nat.strongRecOn with
  | _ n ih =>
    by_cases hlt : n < 10
    · have hdigit : ∀ m : Fin 10, 0 < m.val → Nat.digitChar m.val ≠ '0' := by decide
      rw [Nat.toDigits_of_lt_base hlt]
      simpa using hdigit ⟨n, hlt⟩ hpos
    · rw [Nat.toDigits_of_base_le (by decide) (by omega), List.head?_append]
      simpa [List.head?_eq_some_head, Nat.toDigits_ne_nil] using ih (n / 10) (by omega) (by omega)

theorem not_leadingZero_toDigits (n : Nat) :
    ((Nat.toDigits 10 n).isEmpty || ((Nat.toDigits 10 n).head? == some '0' && 1 < (Nat.toDigits 10 n).length)) =
      false := by
  rcases Nat.eq_zero_or_pos n with rfl | hpos
  · decide
  · simp [Nat.toDigits_ne_nil, head?_toDigits_ne hpos]

theorem unsigned?_toDigits {n : Nat} (h : n < UInt64.size) (hrest : EndsNumber rest) :
    unsigned? false (Nat.toDigits 10 n ++ rest) = some (.int n, rest) := by
  have hdigit : ∀ c ∈ Nat.toDigits 10 n, c.isDigit = true := fun c =>
    Nat.isDigit_of_mem_toDigits (by decide) (by decide)
  have hstop : rest.takeWhile Char.isDigit = [] ∧ rest.dropWhile Char.isDigit = rest := by
    cases rest with
    | nil => exact ⟨rfl, rfl⟩
    | cons c cs => simp [(hrest c rfl).1]
  have hfraction : fractionDigits? rest = some ([], rest) := by
    unfold fractionDigits?
    split
    · exact absurd rfl (hrest _ rfl).2.1
    · rfl
  have hexponent : exponent? rest = some (none, rest) := by
    unfold exponent?
    split
    · rfl
    · next c cs => rw [if_neg (not_or.mpr (hrest c rfl).2.2)]
  rw [unsigned?, List.takeWhile_append_of_pos hdigit, List.dropWhile_append_of_pos hdigit, hstop.1, hstop.2,
    List.append_nil, not_leadingZero_toDigits]
  simp [hfraction, hexponent, literalNumber?, integer?, numeral_toDigits, h]

theorem number?_toDigits {n : Nat} (h : n < UInt64.size) (hrest : EndsNumber rest) :
    Reader.result number? (Nat.toDigits 10 n ++ rest) = some (.int n, rest) := by
  have hread := unsigned?_toDigits h hrest
  obtain ⟨d, ds, hdigits, hdigit⟩ := exists_toDigits n
  rw [hdigits, List.cons_append] at hread ⊢
  rw [Reader.result, number?]
  · split
    · next value after hvalue =>
      rw [hread] at hvalue
      cases hvalue
      rfl
    · next hnone =>
      rw [hread] at hnone
      cases hnone
  · simpa using ne_of_isDigit hdigit (d := '-') rfl

/-! ## One step of a reader -/

theorem literal?_append {word : List Char} (hword : word ≠ []) (value : Json) (rest : List Char) :
    Reader.result (literal? word value) (word ++ rest) = some (value, rest) := by
  have hprefix : 0 < word.length ∧ word.isPrefixOf (word ++ rest) :=
    ⟨List.length_pos_iff.mpr hword, List.isPrefixOf_iff_prefix.mpr (List.prefix_append word rest)⟩
  rw [Reader.result, literal?, dif_pos hprefix]
  simp

theorem scalar?_digit {d : Char} (hdigit : d.isDigit = true) (cs : List Char) :
    Reader.result scalar? (d :: cs) = (Reader.result number? (d :: cs)).map fun (n, rest) => (.number n, rest) := by
  have hne {c : Char} (hc : c.isDigit = false) : d ≠ c := ne_of_isDigit hdigit hc
  unfold Reader.result
  rw [scalar?, if_neg (hne rfl), if_neg (hne rfl), if_neg (hne rfl), if_neg (hne rfl)]
  cases number? (d :: cs) <;> rfl

theorem scalar?_quote (cs : List Char) :
    Reader.result scalar? ('"' :: cs) = (Reader.result string? ('"' :: cs)).map fun (s, rest) => (.string s, rest) := by
  unfold Reader.result
  rw [scalar?, if_neg (by decide), if_neg (by decide), if_neg (by decide), if_pos rfl]
  cases string? ('"' :: cs) <;> rfl

theorem value?_scalar {levels : Nat} {c : Char} {cs : List Char} (harray : c ≠ '[') (hobject : c ≠ '\x7b') :
    value? levels (c :: cs) = scalar? (c :: cs) := by
  cases levels with
  | zero => rfl
  | succ levels => simp [value?, nested?, harray, hobject]

section Items

variable {item? : Reader Json} {cs next : List Char} {name : String} {value : Json} {values : List Json}
  {fields : Fields Json}

theorem items?_last (h : Reader.result item? cs = some (value, ']' :: rest)) :
    Reader.result (items? item?) cs = some ([value], rest) := by
  obtain ⟨_, hread⟩ := exists_of_result h
  rw [Reader.result, items?, hread]
  rfl

theorem items?_cons (h : Reader.result item? cs = some (value, ',' :: next))
    (hnext : Reader.result (items? item?) (skipBlanks next) = some (values, rest)) :
    Reader.result (items? item?) cs = some (value :: values, rest) := by
  obtain ⟨_, hread⟩ := exists_of_result h
  obtain ⟨_, hmore⟩ := exists_of_result hnext
  rw [Reader.result, items?, hread]
  simp only [Option.bind_eq_bind, Option.bind_some]
  split
  · next heq => cases heq
  · next heq =>
    cases heq
    simp [hmore]
  · next hno => exact absurd rfl (hno next)

theorem fields?_last (hname : Reader.result string? cs = some (name, ':' :: next))
    (h : Reader.result item? (skipBlanks next) = some (value, '\x7d' :: rest)) :
    Reader.result (fields? item?) cs = some ([(name, value)], rest) := by
  obtain ⟨_, hread⟩ := exists_of_result hname
  obtain ⟨_, hvalue⟩ := exists_of_result h
  rw [Reader.result, fields?, hread]
  simp only [Option.bind_eq_bind, Option.bind_some]
  split
  · next heq =>
    cases heq
    simp only [hvalue, Option.bind_some]
    rfl
  · next hno => exact absurd rfl (hno next)

theorem fields?_cons {after : List Char} (hname : Reader.result string? cs = some (name, ':' :: after))
    (h : Reader.result item? (skipBlanks after) = some (value, ',' :: next))
    (hnext : Reader.result (fields? item?) (skipBlanks next) = some (fields, rest)) :
    Reader.result (fields? item?) cs = some ((name, value) :: fields, rest) := by
  obtain ⟨_, hread⟩ := exists_of_result hname
  obtain ⟨_, hvalue⟩ := exists_of_result h
  obtain ⟨_, hmore⟩ := exists_of_result hnext
  rw [Reader.result, fields?, hread]
  simp only [Option.bind_eq_bind, Option.bind_some]
  split
  · next heq =>
    cases heq
    simp only [hvalue, Option.bind_some]
    split
    · next heq => cases heq
    · next heq =>
      cases heq
      simp [hmore]
    · next hno => exact absurd rfl (hno next)
  · next hno => exact absurd rfl (hno after)

theorem nested?_array (hhead : ∀ after, skipBlanks cs ≠ ']' :: after)
    (h : Reader.result (items? item?) (skipBlanks cs) = some (values, rest)) :
    Reader.result (nested? item?) ('[' :: cs) = some (.array values, rest) := by
  obtain ⟨_, hread⟩ := exists_of_result h
  rw [Reader.result, nested?]
  simp [hread]

theorem nested?_object (hhead : ∀ after, skipBlanks cs ≠ '\x7d' :: after)
    (h : Reader.result (fields? item?) (skipBlanks cs) = some (fields, rest)) :
    Reader.result (nested? item?) ('\x7b' :: cs) = some (.object (Fields.ofList fields), rest) := by
  obtain ⟨_, hread⟩ := exists_of_result h
  rw [Reader.result, nested?]
  simp [hread]

end Items

end Parser

open SchemaWire.Json.Parser

/-! ## Texts -/

/-- Whether a value has nothing that is lost in its text: numbers are natural numbers of 64 bits, and no object names a
field twice. -/
inductive IsPlain : Json → Prop
  | null : IsPlain .null
  | bool {b : Bool} : IsPlain (.bool b)
  | nat {n : Nat} (h : n < UInt64.size) : IsPlain (.ofNat n)
  | string {s : String} : IsPlain (.string s)
  | array {items : List Json} (h : ∀ j ∈ items, IsPlain j) : IsPlain (.array items)
  | object {fields : Fields Json} (hnames : fields.names.Nodup) (h : ∀ field ∈ fields, IsPlain field.2) :
    IsPlain (.object fields)

/-- Whether a reader reads the text of a value, whatever comes behind it. -/
def ReadsText (read : Reader Json) (j : Json) : Prop :=
  ∀ rest, EndsNumber rest → Reader.result read (j.text ++ rest) = some (j, rest)

theorem text_ofNat (n : Nat) : (ofNat n).text = Nat.toDigits 10 n := by
  have htext : toString (n : Int) = toString n := rfl
  simp [ofNat, text, Number.text, htext]

/-- A text begins with no blank, and with nothing that ends an array or an object. -/
theorem IsPlain.exists_head {j : Json} (h : j.IsPlain) :
    ∃ c cs, j.text = c :: cs ∧ Parser.isBlank c = false ∧ c ≠ ']' := by
  cases h with
  | null => exact ⟨_, _, rfl, by decide, by decide⟩
  | @bool b => cases b <;> exact ⟨_, _, rfl, by decide, by decide⟩
  | @nat n =>
    obtain ⟨d, ds, hdigits, hdigit⟩ := exists_toDigits n
    have hne {c : Char} (hc : c.isDigit = false) : d ≠ c := ne_of_isDigit hdigit hc
    refine ⟨d, ds, by rw [text_ofNat, hdigits], ?_, hne rfl⟩
    simp [Parser.isBlank, hne (c := ' ') rfl, hne (c := '\n') rfl, hne (c := '\t') rfl, hne (c := '\r') rfl]
  | string => exact ⟨_, _, rfl, by decide, by decide⟩
  | array => exact ⟨_, _, rfl, by decide, by decide⟩
  | object => exact ⟨_, _, rfl, by decide, by decide⟩

theorem IsPlain.skipBlanks_text {j : Json} (h : j.IsPlain) (rest : List Char) :
    skipBlanks (j.text ++ rest) = j.text ++ rest := by
  obtain ⟨c, cs, htext, hblank, _⟩ := h.exists_head
  rw [htext, List.cons_append, skipBlanks, List.dropWhile_cons_of_neg (by simp [hblank])]

section Texts

variable {item? : Reader Json} {items : List Json} {fields : Fields Json}

theorem exists_itemsText_cons (j : Json) (items : List Json) : ∃ more, itemsText (j :: items) = j.text ++ more := by
  cases items with
  | nil => exact ⟨[], (List.append_nil _).symm⟩
  | cons k items => exact ⟨_, rfl⟩

theorem skipBlanks_itemsText (hplain : ∀ j ∈ items, j.IsPlain) (hne : items ≠ []) (rest : List Char) :
    skipBlanks (itemsText items ++ rest) = itemsText items ++ rest := by
  obtain ⟨j, items, rfl⟩ := List.exists_cons_of_ne_nil hne
  obtain ⟨more, htext⟩ := exists_itemsText_cons j items
  rw [htext, List.append_assoc, (hplain j List.mem_cons_self).skipBlanks_text]

theorem skipBlanks_fieldsText (hne : fields ≠ []) (rest : List Char) :
    skipBlanks (fieldsText fields ++ rest) = fieldsText fields ++ rest := by
  obtain ⟨field, fields, rfl⟩ := List.exists_cons_of_ne_nil hne
  cases fields <;> rfl

theorem items?_text (hplain : ∀ j ∈ items, j.IsPlain) (hread : ∀ j ∈ items, ReadsText item? j) (hne : items ≠ [])
    (rest : List Char) : Reader.result (items? item?) (itemsText items ++ ']' :: rest) = some (items, rest) := by
  induction items with
  | nil => exact absurd rfl hne
  | cons j items ih =>
    rw [List.forall_mem_cons] at hplain hread
    cases items with
    | nil => exact items?_last (hread.1 _ (endsNumber_cons (by decide) _))
    | cons k items =>
      rw [itemsText, List.append_assoc, List.cons_append]
      refine items?_cons (hread.1 _ (endsNumber_cons (by decide) _)) ?_
      rw [skipBlanks_itemsText hplain.2 (by simp)]
      exact ih hplain.2 hread.2 (by simp)

theorem fields?_text (hplain : ∀ field ∈ fields, field.2.IsPlain) (hread : ∀ field ∈ fields, ReadsText item? field.2)
    (hne : fields ≠ []) (rest : List Char) :
    Reader.result (fields? item?) (fieldsText fields ++ '\x7d' :: rest) = some (fields, rest) := by
  induction fields with
  | nil => exact absurd rfl hne
  | cons field fields ih =>
    rw [List.forall_mem_cons] at hplain hread
    cases fields with
    | nil =>
      rw [fieldsText, List.append_assoc, List.cons_append]
      refine fields?_last (string?_stringText field.1 _) ?_
      rw [hplain.1.skipBlanks_text]
      exact hread.1 _ (endsNumber_cons (by decide) _)
    | cons next fields =>
      rw [fieldsText, List.append_assoc, List.append_assoc, List.cons_append, List.cons_append]
      have hnext : Reader.result (fields? item?) (skipBlanks (fieldsText (next :: fields) ++ '\x7d' :: rest)) =
          some (next :: fields, rest) := by
        rw [skipBlanks_fieldsText (by simp)]
        exact ih hplain.2 hread.2 (by simp)
      refine fields?_cons (string?_stringText field.1 _) ?_ hnext
      rw [hplain.1.skipBlanks_text]
      exact hread.1 _ (endsNumber_cons (by decide) _)

theorem readsText_array (hplain : ∀ j ∈ items, j.IsPlain) (hread : ∀ j ∈ items, ReadsText item? j) :
    ReadsText (nested? item?) (.array items) := by
  intro rest _
  cases items with
  | nil => rfl
  | cons j items =>
    have hskip := skipBlanks_itemsText hplain (List.cons_ne_nil j items) (']' :: rest)
    rw [text, List.cons_append, List.cons_append, List.append_assoc, List.singleton_append]
    refine nested?_array ?_ ?_
    · intro after heq
      obtain ⟨more, hmore⟩ := exists_itemsText_cons j items
      obtain ⟨c, cs, htext, _, hbracket⟩ := (hplain j List.mem_cons_self).exists_head
      rw [hskip, hmore, htext] at heq
      exact hbracket (List.cons.inj heq).1
    · rw [hskip]
      exact items?_text hplain hread (List.cons_ne_nil j items) rest

theorem readsText_object (hnames : fields.names.Nodup) (hplain : ∀ field ∈ fields, field.2.IsPlain)
    (hread : ∀ field ∈ fields, ReadsText item? field.2) : ReadsText (nested? item?) (.object fields) := by
  intro rest _
  cases fields with
  | nil => rfl
  | cons field fields =>
    have hskip := skipBlanks_fieldsText (List.cons_ne_nil field fields) ('\x7d' :: rest)
    rw [text, List.cons_append, List.cons_append, List.append_assoc, List.singleton_append]
    conv_rhs => rw [← Fields.ofList_eq_self_iff.mpr hnames]
    refine nested?_object ?_ ?_
    · intro after heq
      rw [hskip] at heq
      cases fields <;> cases heq
    · rw [hskip]
      exact fields?_text hplain hread (List.cons_ne_nil field fields) rest

end Texts

section Scalars

variable {levels : Nat}

theorem readsText_scalar {j : Json} {c : Char} {cs : List Char} (htext : j.text = c :: cs) (harray : c ≠ '[')
    (hobject : c ≠ '\x7b') (hread : ReadsText scalar? j) : ReadsText (value? levels) j := by
  intro rest hrest
  have hscalar := hread rest hrest
  rw [htext, List.cons_append, Reader.result] at hscalar ⊢
  rwa [value?_scalar harray hobject]

theorem readsText_word {word : List Char} {j : Json} {c : Char} {cs : List Char} (htext : j.text = word)
    (hword : word = c :: cs) (harray : c ≠ '[') (hobject : c ≠ '\x7b')
    (hread : ∀ rest, scalar? (word ++ rest) = literal? word j (word ++ rest)) : ReadsText (value? levels) j := by
  refine readsText_scalar (htext.trans hword) harray hobject fun rest _ => ?_
  rw [htext, Reader.result, hread]
  exact literal?_append (by simp [hword]) j rest

theorem readsText_nat {n : Nat} (h : n < UInt64.size) : ReadsText (value? levels) (.ofNat n) := by
  obtain ⟨d, ds, hdigits, hdigit⟩ := exists_toDigits n
  have htext : (ofNat n).text = d :: ds := by rw [text_ofNat, hdigits]
  refine readsText_scalar htext (ne_of_isDigit hdigit rfl) (ne_of_isDigit hdigit rfl) fun rest hrest => ?_
  have hnumber := number?_toDigits h hrest
  rw [hdigits, List.cons_append] at hnumber
  rw [htext, List.cons_append, scalar?_digit hdigit, hnumber]
  rfl

theorem readsText_string (s : String) : ReadsText (value? levels) (.string s) := by
  refine readsText_scalar rfl (by decide) (by decide) fun rest _ => ?_
  have hstring := string?_stringText s rest
  rw [stringText, List.cons_append, List.cons_append] at hstring
  rw [text, stringText, List.cons_append, List.cons_append, scalar?_quote, hstring]
  rfl

end Scalars

/-- By induction on the value. What an array or an object holds is one level lower. -/
theorem IsPlain.readsText {j : Json} (h : j.IsPlain) {levels : Nat} (hlevels : j.height ≤ levels) :
    ReadsText (value? levels) j := by
  induction h generalizing levels with
  | null => exact readsText_word rfl rfl (by decide) (by decide) fun _ => rfl
  | @bool b => cases b <;> exact readsText_word rfl rfl (by decide) (by decide) fun _ => rfl
  | nat hn => exact readsText_nat hn
  | @string s => exact readsText_string s
  | array hplain ih =>
    obtain ⟨levels, rfl⟩ := Nat.exists_eq_add_of_le' (Nat.le_trans (Nat.succ_pos _) hlevels)
    have hitems := heightItems_le_iff.mp (Nat.le_of_succ_le_succ hlevels)
    exact readsText_array hplain fun j hj => ih j hj (hitems j hj)
  | object hnames hplain ih =>
    obtain ⟨levels, rfl⟩ := Nat.exists_eq_add_of_le' (Nat.le_trans (Nat.succ_pos _) hlevels)
    have hfields := heightFields_le_iff.mp (Nat.le_of_succ_le_succ hlevels)
    exact readsText_object hnames hplain fun field hfield => ih field hfield (hfields field hfield)

/-- The text of a value is read back as the value. -/
theorem parse?_text {j : Json} (h : j.IsPlain) {levels : Nat} (hlevels : j.height ≤ levels) :
    parse? j.text levels = some j := by
  have hskip := h.skipBlanks_text []
  have hresult := h.readsText hlevels [] (by simp [EndsNumber])
  rw [List.append_nil] at hskip hresult
  rw [← hskip] at hresult
  obtain ⟨_, hread⟩ := exists_of_result hresult
  rw [parse?, hread]
  rfl

end SchemaWire.Json
