import Mathlib.Data.List.Basic

/-!
# What holds when a stateful computation ends

A computation on a state ends with a value and a new state, or with an error. `Ends` says that the
value and the state are of a certain kind, or that the error is allowed. A sequence ends well if its
first part ends such that the rest ends well, and a loop if each round keeps its invariant.
-/

namespace Xv6Shm

section Ends

variable {State Error Value Result Item : Type}

/-- The computation ends with a value and a state of some kind, or with an allowed error. -/
def Ends (allowed : Error → Prop) (post : Value → State → Prop) :
    Except Error (Value × State) → Prop
  | .ok (value, state) => post value state
  | .error error => allowed error

variable {allowed : Error → Prop} {post : Value → State → Prop} {state : State}

variable {outcome : Except Error (Value × State)} {value : Value}

section

variable (h : Ends allowed post outcome)

include h

theorem Ends.of_ok (hok : outcome = .ok (value, state)) : post value state := by
  subst hok
  exact h

theorem Ends.of_error {error : Error} (herror : outcome = .error error) : allowed error := by
  subst herror
  exact h

theorem Ends.mono {weaker : Value → State → Prop}
    (hweaker : ∀ value state, post value state → weaker value state) :
    Ends allowed weaker outcome := by
  cases outcome with
  | error error => exact h
  | ok result => exact hweaker result.1 result.2 h

theorem Ends.allow {other : Error → Prop} (hother : ∀ error, allowed error → other error) :
    Ends other post outcome := by
  cases outcome with
  | error error => exact hother error h
  | ok result => exact h

end

theorem Ends.eq_ok
    (h : Ends (fun _ ↦ False) (fun value' state' ↦ value' = value ∧ state' = state) outcome) :
    outcome = .ok (value, state) := by
  cases outcome with
  | error error => exact h.elim
  | ok result => exact congrArg Except.ok (Prod.ext h.1 h.2)

theorem Ends.returns (h : Ends (fun _ ↦ False) post outcome) :
    ∃ value state, outcome = .ok (value, state) ∧ post value state := by
  cases outcome with
  | error error => exact h.elim
  | ok result => exact ⟨result.1, result.2, rfl, h⟩

theorem ends_ok :
    Ends allowed post (.ok (value, state) : Except Error (Value × State)) ↔ post value state :=
  Iff.rfl

@[simp] theorem ends_pure :
    Ends allowed post ((pure value : StateT State (Except Error) Value) state) ↔ post value state :=
  Iff.rfl

@[simp] theorem ends_get {post : State → State → Prop} :
    Ends allowed post ((get : StateT State (Except Error) State) state) ↔ post state state :=
  Iff.rfl

@[simp] theorem ends_modify {change : State → State} {post : PUnit → State → Prop} :
    Ends allowed post ((modify change : StateT State (Except Error) PUnit) state) ↔
      post ⟨⟩ (change state) := Iff.rfl

@[simp] theorem ends_set {next : State} {post : PUnit → State → Prop} :
    Ends allowed post ((set next : StateT State (Except Error) PUnit) state) ↔ post ⟨⟩ next :=
  Iff.rfl

/-- A sequence is taken apart from the left. -/
@[simp] theorem ends_bind {first : StateT State (Except Error) Value}
    {next : Value → StateT State (Except Error) Result} {post : Result → State → Prop} :
    Ends allowed post ((first >>= next) state) ↔
      Ends allowed (fun value state ↦ Ends allowed post (next value state)) (first state) := by
  change Ends allowed post (first state >>= fun result ↦ next result.1 result.2) ↔ _
  cases first state with
  | error error => exact Iff.rfl
  | ok result => exact Iff.rfl

theorem ends_ite {condition : Prop} [Decidable condition]
    {first second : StateT State (Except Error) Value}
    (hfirst : condition → Ends allowed post (first state))
    (hsecond : ¬ condition → Ends allowed post (second state)) :
    Ends allowed post ((if condition then first else second) state) := by
  split
  · exact hfirst ‹_›
  · exact hsecond ‹_›

/-- What each round keeps, with the items still to come, holds at the end of a loop. -/
theorem ends_forM {body : Item → StateT State (Except Error) PUnit}
    (holds : List Item → State → Prop) (hbody : ∀ item rest state, holds (item :: rest) state → Ends
      allowed (fun _ ↦ holds rest) (body item state)) {items : List Item} {state : State}
    (h : holds items state) : Ends allowed (fun _ ↦ holds []) (items.forM body state) := by
  induction items generalizing state with
  | nil => exact h
  | cons item rest ih =>
    rw [List.forM, ends_bind]
    exact (hbody item rest state h).mono fun _ _ hrest ↦ ih hrest

end Ends

end Xv6Shm
