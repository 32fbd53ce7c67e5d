import Mathlib.Data.List.Basic

/-!
# Computations that leave a trace

A traced computation records events and ends with a value, or stops before. `All` says that every
event is of a certain kind. It is decided piece by piece: for a sequence, of the first part and of
the second for each value of the first.
-/

namespace Xv6Shm

/-- The events of a computation and how it ends. -/
structure Traced (Event Stop Value : Type) where
  log : List Event
  value : Except Stop Value

namespace Traced

variable {Event Stop Value Result : Type}

instance : Monad (Traced Event Stop) where
  pure value := ⟨[], .ok value⟩
  bind first next :=
    match first.value with
    | .error stop => ⟨first.log, .error stop⟩
    | .ok value => ⟨first.log ++ (next value).log, (next value).value⟩

/-- Record some events. -/
def emit (events : List Event) : Traced Event Stop Unit := ⟨events, .ok ()⟩

def stop (reason : Stop) : Traced Event Stop Value := ⟨[], .error reason⟩

/-- Stop with another reason. -/
def failing (reason : Stop) (computation : Traced Event Stop Value) : Traced Event Stop Value :=
  ⟨computation.log, computation.value.mapError fun _ ↦ reason⟩

/-- Every recorded event is of a certain kind. -/
def All (holds : Event → Prop) (computation : Traced Event Stop Value) : Prop :=
  ∀ event ∈ computation.log, holds event

variable {holds : Event → Prop}

@[simp] theorem all_pure (value : Value) :
    (pure value : Traced Event Stop Value).All holds := fun _ hevent ↦ absurd hevent List.not_mem_nil

@[simp] theorem all_stop (reason : Stop) :
    (stop reason : Traced Event Stop Value).All holds := fun _ hevent ↦ absurd hevent List.not_mem_nil

@[simp] theorem all_emit (events : List Event) :
    (emit events : Traced Event Stop Unit).All holds ↔ ∀ event ∈ events, holds event := Iff.rfl

variable {first : Traced Event Stop Value}

theorem all_bind {next : Value → Traced Event Stop Result} : (first >>= next).All holds ↔
      first.All holds ∧ ∀ value, first.value = .ok value → (next value).All holds := by
  obtain ⟨log, value⟩ := first
  cases value with
  | error reason =>
    constructor
    · intro hall
      exact ⟨hall, fun value hvalue ↦ by cases hvalue⟩
    · rintro ⟨hfirst, -⟩
      exact hfirst
  | ok value =>
    constructor
    · intro hall
      refine ⟨fun event hevent ↦ hall event (List.mem_append_left _ hevent), fun other hvalue ↦ ?_⟩
      cases hvalue
      exact fun event hevent ↦ hall event (List.mem_append_right _ hevent)
    · rintro ⟨hfirst, hnext⟩ event hevent
      rcases List.mem_append.mp hevent with hleft | hright
      · exact hfirst event hleft
      · exact hnext value rfl event hright

theorem All.bind {next : Value → Traced Event Stop Result}
    (hfirst : first.All holds) (hnext : ∀ value, first.value = .ok value → (next value).All holds) :
    (first >>= next).All holds :=
  all_bind.mpr ⟨hfirst, hnext⟩

theorem all_emit_bind {events : List Event} {next : Unit → Traced Event Stop Result} :
    (emit events >>= next).All holds ↔ (∀ event ∈ events, holds event) ∧ (next ()).All holds := by
  rw [all_bind, all_emit]
  exact and_congr_right fun _ ↦ ⟨fun h ↦ h () rfl, fun h _ _ ↦ h⟩

theorem all_forM {Item : Type} {items : List Item} {body : Item → Traced Event Stop Unit}
    (h : ∀ item ∈ items, (body item).All holds) : (items.forM body).All holds := by
  induction items with
  | nil => exact all_pure _
  | cons item rest ih =>
    rw [List.forM, all_bind]
    exact ⟨h item List.mem_cons_self,
      fun _ _ ↦ ih fun other hother ↦ h other (List.mem_cons_of_mem item hother)⟩

theorem value_bind {next : Value → Traced Event Stop Result} {result : Result} :
    (first >>= next).value = .ok result ↔
      ∃ value, first.value = .ok value ∧ (next value).value = .ok result := by
  obtain ⟨log, value⟩ := first
  cases value with
  | error reason =>
    constructor
    · intro h
      cases h
    · rintro ⟨value, hvalue, -⟩
      cases hvalue
  | ok value =>
    constructor
    · intro h
      exact ⟨value, rfl, h⟩
    · rintro ⟨other, hvalue, h⟩
      cases hvalue
      exact h

end Traced

end Xv6Shm
