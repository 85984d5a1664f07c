/-!
# Steps over a state

Such a step gives a value or an error, and a state in either case: what it did to the state before it failed stays
done. The equations below run a computation step by step.
-/

namespace SchemaWire.Stateful

variable {ε σ α β : Type} (s : σ)

theorem run_pure (a : α) : (pure a : ExceptT ε (StateM σ) α).run.run s = (.ok a, s) := rfl

theorem run_lift (x : Except ε α) : (liftM x : ExceptT ε (StateM σ) α).run.run s = (x, s) := by
  cases x <;> rfl

theorem run_get : (get : ExceptT ε (StateM σ) σ).run.run s = (.ok s, s) := rfl

theorem run_set (next : σ) : (set next : ExceptT ε (StateM σ) PUnit).run.run s = (.ok (), next) := rfl

theorem run_bind (x : ExceptT ε (StateM σ) α) (f : α → ExceptT ε (StateM σ) β) :
    (x >>= f).run.run s =
      match x.run.run s with
      | (.ok a, next) => (f a).run.run next
      | (.error e, next) => (.error e, next) := by
  simp only [ExceptT.run, StateT.run, bind, ExceptT.bind, ExceptT.mk, StateT.bind, ExceptT.bindCont]
  cases x s with
  | mk result next => cases result <;> rfl

end SchemaWire.Stateful
