import PinnedDeps.Event

/-! Computations that report events and may stop with an error. What was reported before the error
stays reported; the outcome never depends on the events, so `outcome` turns every such computation
into a plain one, step by step. -/

namespace PinnedDeps

structure Traced (ε α : Type) where
  events : Array Event
  outcome : Except ε α

namespace Traced

variable {ε α β : Type}

protected def pure (a : α) : Traced ε α := ⟨#[], .ok a⟩

protected def bind (x : Traced ε α) (f : α → Traced ε β) : Traced ε β :=
  match x with
  | ⟨events, .error e⟩ => ⟨events, .error e⟩
  | ⟨events, .ok a⟩ =>
    let y := f a
    ⟨events ++ y.events, y.outcome⟩

instance : Monad (Traced ε) where
  pure := Traced.pure
  bind := Traced.bind

/-- A computation that reports nothing. -/
def ofExcept (outcome : Except ε α) : Traced ε α := ⟨#[], outcome⟩

def fail (e : ε) : Traced ε α := ⟨#[], .error e⟩

def report (event : Event) : Traced ε Unit := ⟨#[event], .ok ()⟩

def reportAll (events : List Event) : Traced ε Unit := ⟨events.toArray, .ok ()⟩

/-- The same computation, its error told in other terms. -/
def mapError {δ : Type} (f : ε → δ) (x : Traced ε α) : Traced δ α :=
  ⟨x.events, x.outcome.mapError f⟩

@[simp]
theorem outcome_pure (a : α) : (pure a : Traced ε α).outcome = .ok a := rfl

@[simp]
theorem outcome_bind (x : Traced ε α) (f : α → Traced ε β) :
    (x >>= f).outcome = x.outcome >>= fun a => (f a).outcome := by
  obtain ⟨events, e | a⟩ := x <;> rfl

@[simp]
theorem outcome_ofExcept (outcome : Except ε α) : (ofExcept outcome).outcome = outcome := rfl

@[simp]
theorem outcome_fail (e : ε) : (fail e : Traced ε α).outcome = .error e := rfl

@[simp]
theorem outcome_report (event : Event) : (report event : Traced ε Unit).outcome = .ok () := rfl

@[simp]
theorem outcome_reportAll (events : List Event) :
    (reportAll events : Traced ε Unit).outcome = .ok () := rfl

@[simp]
theorem outcome_mapError {δ : Type} (f : ε → δ) (x : Traced ε α) :
    (x.mapError f).outcome = x.outcome.mapError f := rfl

end Traced

end PinnedDeps
