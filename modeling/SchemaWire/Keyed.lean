/-!
# Maps that keep an order

A list of entries in the order in which their keys were first given. Giving a key again replaces its entry and keeps its
place. `push` collects values under keys: what is found under a key is then all that was pushed to it, in this order
(`getD_lookup_push`).
-/

namespace SchemaWire

/-- Entries by key, in order. -/
abbrev Keyed (κ α : Type) := List (κ × α)

namespace Keyed

variable {κ α : Type} [DecidableEq κ]

/-- Gives `key` the entry `value`: in its place if it has one, and at the end otherwise. -/
def insert (key : κ) (value : α) : Keyed κ α → Keyed κ α
  | [] => [(key, value)]
  | (k, v) :: rest => if k = key then (k, value) :: rest else (k, v) :: insert key value rest

/-- Adds `value` to those under `key`, behind them. -/
def push (key : κ) (value : α) (m : Keyed κ (List α)) : Keyed κ (List α) :=
  m.insert key ((m.lookup key).getD [] ++ [value])

theorem lookup_cons (k key : κ) (value : α) (rest : Keyed κ α) :
    List.lookup k ((key, value) :: rest) = if k = key then some value else rest.lookup k := by
  rw [List.lookup_cons]
  by_cases h : k = key
  · rw [if_pos h, beq_iff_eq.mpr h]
  · rw [if_neg h, beq_eq_false_iff_ne.mpr h]

theorem lookup_insert (key k : κ) (value : α) (m : Keyed κ α) :
    (m.insert key value).lookup k = if k = key then some value else m.lookup k := by
  induction m with
  | nil => rw [insert, lookup_cons]
  | cons entry rest ih =>
    obtain ⟨k', v⟩ := entry
    rw [insert]
    split
    · rename_i h
      rw [lookup_cons, lookup_cons, h]
      split <;> rfl
    · rename_i hne
      rw [lookup_cons, lookup_cons, ih]
      by_cases hk : k = k'
      · rw [if_pos hk, if_pos hk, if_neg (hk ▸ hne)]
      · rw [if_neg hk, if_neg hk]

theorem getD_lookup_push (key k : κ) (value : α) (m : Keyed κ (List α)) :
    ((m.push key value).lookup k).getD [] =
      (m.lookup k).getD [] ++ if k = key then [value] else [] := by
  rw [push, lookup_insert]
  split
  · rename_i h
    rw [h, Option.getD_some]
  · rw [List.append_nil]

/-! ## Maps that are given by their keys and a function -/

theorem insert_map_of_not_mem {keys : List κ} {f : κ → α} {key : κ} (h : key ∉ keys) (value : α) :
    insert key value (keys.map fun k => (k, f k)) = keys.map (fun k => (k, f k)) ++ [(key, value)] := by
  induction keys with
  | nil => rfl
  | cons k rest ih =>
    rw [List.mem_cons, not_or] at h
    rw [List.map_cons, insert, if_neg (Ne.symm h.1), ih h.2, List.cons_append]

theorem insert_map_of_mem {keys : List κ} {f : κ → α} {key : κ} (hnodup : keys.Nodup) (h : key ∈ keys) (value : α) :
    insert key value (keys.map fun k => (k, f k)) = keys.map fun k => (k, if k = key then value else f k) := by
  induction keys with
  | nil => exact absurd h List.not_mem_nil
  | cons k rest ih =>
    obtain ⟨hfresh, hrest⟩ := List.nodup_cons.mp hnodup
    rw [List.map_cons, insert, List.map_cons]
    split
    · rename_i hk
      have hsame : ∀ d ∈ rest, (d, f d) = (d, if d = key then value else f d) := by
        rintro d hd
        rw [if_neg (by rintro rfl; exact hfresh (hk ▸ hd))]
      rw [List.map_congr_left hsame]
    · rename_i hk
      rw [ih hrest ((List.mem_cons.mp h).resolve_left (Ne.symm hk))]

theorem lookup_map {keys : List κ} {f : κ → α} (key : κ) :
    (keys.map fun k => (k, f k)).lookup key = if key ∈ keys then some (f key) else none := by
  induction keys with
  | nil => rfl
  | cons k rest ih =>
    rw [List.map_cons, lookup_cons, ih]
    by_cases h : key = k
    · simp [h]
    · simp [h]

end Keyed

end SchemaWire
