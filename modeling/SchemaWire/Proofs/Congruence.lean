import SchemaWire.Proofs.RoundTrip

/-!
# What encoding reads

A container takes from a value nothing but what each of its params does (`encodeContainer_congr`), a param nothing but
the value under its name, and a vector nothing but what each of its items gives as a value of its own
(`encodeItems_congr`).
-/

namespace SchemaWire.Registry

/-- The encoder of what a container nests, when there are so many levels left. -/
def nestedEncoder (r : Registry) (levels : Nat) : NestedEncoder :=
  fun param v => do r.encodeContainer levels (← r.named param v) v

variable {r : Registry} {c : Container} {p : Param} {v w : Value} {nested : NestedEncoder} {containerName : String}

theorem encodeContainer_congr {levels : Nat}
    (h : ∀ p ∈ c.params, encodeParam (r.nestedEncoder levels) c.name v p =
      encodeParam (r.nestedEncoder levels) c.name w p) :
    r.encodeContainer (levels + 1) c v = r.encodeContainer (levels + 1) c w := by
  have hparts : c.params.mapM (encodeParam (r.nestedEncoder levels) c.name v) =
      c.params.mapM (encodeParam (r.nestedEncoder levels) c.name w) :=
    mapM_congr (List.forall₂_same.mpr h)
  exact congrArg (· >>= _) hparts

theorem encodeParam_of_present? (h : v.present? p.name = w.present? p.name) :
    encodeParam nested containerName v p = encodeParam nested containerName w p := by
  simp only [Value.present?] at h
  simp only [encodeParam, h]

theorem encodeParam_of_get? (h : v.get? p.name = w.get? p.name) :
    encodeParam nested containerName v p = encodeParam nested containerName w p := by
  simp only [encodeParam, h]

/-- Values that the layout of a param takes alike, and of which neither counts as missing unless the other does. -/
theorem encodeParam_of_shape {x y : Value} (hx : x.get? p.name = some v) (hy : y.get? p.name = some w)
    (hnull : v.isNull = w.isNull)
    (h : ∀ shape, p.shape? = some shape → encodeShape nested containerName p.name (some v) shape =
      encodeShape nested containerName p.name (some w) shape) :
    encodeParam nested containerName x p = encodeParam nested containerName y p := by
  have hpresent : encodePresent nested containerName p (some v) = encodePresent nested containerName p (some w) := by
    cases hshape : p.shape? with
    | none => simp only [encodePresent, hshape]
    | some shape => simp only [encodePresent, hshape, h shape hshape]
  simp only [encodeParam, hx, hy, Option.filter_some, hnull]
  cases w.isNull
  · simp only [Bool.not_false, if_true, hpresent]
  · rfl

/-- An item is written as a value of the layout that items have. -/
theorem encodeItems_eq (containerName : String) (item : VectorItem) (param : String) (items : List Value) :
    encodeItems nested param item items = do
      let count ← (Entry.uint items.length).encoded
      let parts ← items.mapM fun v => encodeShape nested containerName param (some v) item.shape
      return count ++ parts.flatten := by
  cases item <;> rfl

theorem encodeItems_congr (containerName : String) {item : VectorItem} {param : String} {items others : List Value}
    (h : List.Forall₂ (fun v w => encodeShape nested containerName param (some v) item.shape =
      encodeShape nested containerName param (some w) item.shape) items others) :
    encodeItems nested param item items = encodeItems nested param item others := by
  rw [encodeItems_eq containerName, encodeItems_eq containerName, h.length_eq, mapM_congr h]

end SchemaWire.Registry
