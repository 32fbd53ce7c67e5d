import Mathlib.Logic.Relation

/-!
# Computations that can fail, and runs of systems built from them

A step of a system fails or returns the next state and a result. A run is a sequence of steps that
succeed and that meet a condition on the state before the step and its label. What one step
preserves, a run preserves. `observe` adds a history variable, which is computed from the steps and
never read by them.
-/

namespace Xv6Shm.Fallible

section Except

variable {Error Value Result : Type}

@[simp] theorem ok_bind (value : Value) (next : Value → Except Error Result) :
    (Except.ok value >>= next) = next value := rfl

@[simp] theorem error_bind (error : Error) (next : Value → Except Error Result) :
    (Except.error error >>= next) = Except.error error := rfl

@[simp] theorem pure_eq_ok (value : Value) :
    (pure value : Except Error Value) = Except.ok value := rfl

theorem bind_eq_ok {first : Except Error Value} {next : Value → Except Error Result}
    {result : Result} :
    (first >>= next) = .ok result ↔ ∃ value, first = .ok value ∧ next value = .ok result := by
  cases first with
  | error error => simp
  | ok value => simp

theorem bind_eq_error {first : Except Error Value} {next : Value → Except Error Result}
    {error : Error} :
    (first >>= next) = .error error ↔
      first = .error error ∨ ∃ value, first = .ok value ∧ next value = .error error := by
  cases first with
  | error error => simp
  | ok value => simp

/-- The computation does not end in the given error. -/
def Avoids (error : Error) (computation : Except Error Value) : Prop := computation ≠ .error error

variable {error : Error}

@[simp] theorem avoids_ok (value : Value) : Avoids error (.ok value : Except Error Value) := by
  intro h
  cases h

@[simp] theorem avoids_error {other : Error} :
    Avoids error (.error other : Except Error Value) ↔ other ≠ error := by
  simp [Avoids]

@[simp] theorem avoids_bind {first : Except Error Value} {next : Value → Except Error Result} :
    Avoids error (first >>= next) ↔
      Avoids error first ∧ ∀ value, first = .ok value → Avoids error (next value) := by
  cases first <;> simp [Avoids]

theorem Avoids.bind {first : Except Error Value} {next : Value → Except Error Result}
    (hfirst : Avoids error first) (hnext : ∀ value, first = .ok value → Avoids error (next value)) :
    Avoids error (first >>= next) :=
  avoids_bind.mpr ⟨hfirst, hnext⟩

@[simp] theorem avoids_ite {condition : Prop} [Decidable condition]
    {first second : Except Error Value} :
    Avoids error (if condition then first else second) ↔
      (condition → Avoids error first) ∧ (¬ condition → Avoids error second) := by
  split <;> simp [*]

end Except

section Runs

variable {State Label Error Result History : Type}

/-- Runs whose steps all succeed and all meet the condition `permitted`. -/
def Runs (step : State → Label → Except Error (State × Result))
    (permitted : State → Label → Prop) : State → State → Prop :=
  Relation.ReflTransGen fun state next ↦
    ∃ label result, permitted state label ∧ step state label = .ok (next, result)

variable {step : State → Label → Except Error (State × Result)} {permitted : State → Label → Prop}

theorem Runs.refl (start : State) : Runs step permitted start start := Relation.ReflTransGen.refl

theorem Runs.snoc {start state next : State} {label : Label} {result : Result}
    (hrun : Runs step permitted start state) (hpermitted : permitted state label)
    (hok : step state label = .ok (next, result)) : Runs step permitted start next :=
  hrun.tail ⟨label, result, hpermitted, hok⟩

/-- What holds at the start and is preserved by permitted steps holds along the run. -/
theorem Runs.invariant {start finish : State} (hrun : Runs step permitted start finish)
    (holds : State → Prop) (hstart : holds start)
    (hstep : ∀ state label next result, holds state → permitted state label →
      step state label = .ok (next, result) → holds next) : holds finish := by
  induction hrun with
  | refl => exact hstart
  | tail _ hlast ih =>
    obtain ⟨label, result, hpermitted, hok⟩ := hlast
    exact hstep _ label _ result ih hpermitted hok

theorem Runs.mono {weaker : State → Label → Prop} {start finish : State}
    (hweaker : ∀ state label, permitted state label → weaker state label)
    (hrun : Runs step permitted start finish) : Runs step weaker start finish := by
  induction hrun with
  | refl => exact Relation.ReflTransGen.refl
  | tail _ hlast ih =>
    obtain ⟨label, result, hpermitted, hok⟩ := hlast
    exact ih.tail ⟨label, result, hweaker _ label hpermitted, hok⟩

/-- Replay labels, checking each; `none` if a check or a step fails. -/
def replay (step : State → Label → Except Error (State × Result)) (check : State → Label → Bool) :
    State → List Label → Option State
  | state, [] => some state
  | state, label :: rest =>
    if check state label then
      match step state label with
      | .ok (next, _) => replay step check next rest
      | .error _ => none
    else none

/-- A replay that ends in a state of some kind shows that a run reaches one. -/
theorem Runs.of_replay {check : State → Label → Bool} {holds : State → Bool}
    (hcheck : ∀ state label, check state label = true → permitted state label) {labels : List Label}
    {start : State} (h : (replay step check start labels).any holds = true) :
    ∃ finish, Runs step permitted start finish ∧ holds finish = true := by
  induction labels generalizing start with
  | nil => exact ⟨start, Runs.refl start, h⟩
  | cons label rest ih =>
    rw [replay] at h
    split at h
    · rename_i hpermitted
      split at h
      · rename_i next result hstep
        obtain ⟨finish, hrun, hholds⟩ := ih h
        exact ⟨finish, hrun.head ⟨label, result, hcheck start label hpermitted, hstep⟩, hholds⟩
      · cases h
    · cases h

theorem Runs.of_labels [∀ state label, Decidable (permitted state label)] {start : State}
    {holds : State → Prop} [DecidablePred holds] (labels : List Label)
    (h : (replay step (fun state label ↦ decide (permitted state label)) start labels).any
      (fun state ↦ decide (holds state)) = true) :
    ∃ finish, Runs step permitted start finish ∧ holds finish := by
  obtain ⟨finish, hrun, hholds⟩ := Runs.of_replay (fun _ _ ↦ of_decide_eq_true) h
  exact ⟨finish, hrun, of_decide_eq_true hholds⟩

theorem Runs.of_labels_observed
    {step : State × History → Label → Except Error ((State × History) × Result)}
    {permitted : State × History → Label → Prop}
    [∀ observed label, Decidable (permitted observed label)] {start : State × History}
    {holds : State → History → Prop} [∀ state history, Decidable (holds state history)]
    (labels : List Label)
    (h : (replay step (fun observed label ↦ decide (permitted observed label)) start labels).any
      (fun observed ↦ decide (holds observed.1 observed.2)) = true) :
    ∃ state history, Runs step permitted start (state, history) ∧ holds state history := by
  obtain ⟨⟨state, history⟩, hrun, hholds⟩ := Runs.of_labels labels h
  exact ⟨state, history, hrun, hholds⟩

/-- What a computation returns is found out by running it. -/
instance decidableReturns (outcome : Except Error (State × Result)) (holds : State → Result → Prop)
    [∀ next result, Decidable (holds next result)] :
    Decidable (∃ next result, outcome = .ok (next, result) ∧ holds next result) :=
  match outcome with
  | .ok (next, result) =>
    if h : holds next result then .isTrue ⟨next, result, rfl, h⟩
    else .isFalse (by rintro ⟨_, _, hok, hholds⟩; cases hok; exact h hholds)
  | .error _ => .isFalse (by rintro ⟨_, _, hok, -⟩; cases hok)

instance decidableReturnsResult [DecidableEq Result] (outcome : Except Error (State × Result))
    (result : Result) (holds : State → Prop) [DecidablePred holds] :
    Decidable (∃ next, outcome = .ok (next, result) ∧ holds next) :=
  decidable_of_iff (∃ next value, outcome = .ok (next, value) ∧ value = result ∧ holds next)
    ⟨fun ⟨next, _, hok, hvalue, hholds⟩ ↦ ⟨next, hvalue ▸ hok, hholds⟩,
      fun ⟨next, hok, hholds⟩ ↦ ⟨next, result, hok, rfl, hholds⟩⟩

instance decidableEndsResult [DecidableEq Result] (outcome : Except Error (State × Result))
    (result : Result) : Decidable (∃ next, outcome = .ok (next, result)) :=
  decidable_of_iff (∃ next, outcome = .ok (next, result) ∧ True) (by simp only [and_true])

instance decidableFails [DecidableEq Error] (outcome : Except Error Result) (error : Error) :
    Decidable (outcome = .error error) :=
  match outcome with
  | .ok _ => .isFalse (by intro h; cases h)
  | .error other => decidable_of_iff (other = error) (by simp)

/-- The system with a history variable that every step brings up to date. -/
def observe (step : State → Label → Except Error (State × Result))
    (note : History → State → Label → State → Result → History) :
    State × History → Label → Except Error ((State × History) × Result) :=
  fun observed label ↦ do
    let (next, result) ← step observed.1 label
    pure ((next, note observed.2 observed.1 label next result), result)

theorem observe_eq_ok {note : History → State → Label → State → Result → History}
    {observed next : State × History} {label : Label} {result : Result} :
    observe step note observed label = .ok (next, result) ↔
      step observed.1 label = .ok (next.1, result) ∧
        next.2 = note observed.2 observed.1 label next.1 result := by
  unfold observe
  constructor
  · intro hok
    obtain ⟨⟨state, value⟩, hstep, hpure⟩ := bind_eq_ok.mp hok
    simp only [pure_eq_ok, Except.ok.injEq, Prod.mk.injEq] at hpure
    obtain ⟨hnext, rfl⟩ := hpure
    subst hnext
    exact ⟨hstep, rfl⟩
  · rintro ⟨hstep, hnote⟩
    rw [hstep, ok_bind]
    dsimp only
    rw [pure_eq_ok, ← hnote]

theorem Runs.observed {note : History → State → Label → State → Result → History}
    {watched : State × History → Label → Prop} {start : State × History} {state next : State}
    {history : History} {label : Label} {result : Result}
    (hrun : Runs (observe step note) watched start (state, history))
    (hpermitted : watched (state, history) label) (hok : step state label = .ok (next, result)) :
    Runs (observe step note) watched start (next, note history state label next result) :=
  hrun.snoc hpermitted (observe_eq_ok.mpr ⟨hok, rfl⟩)

/-- A run of the observed system is a run of the system. -/
theorem Runs.forget {note : History → State → Label → State → Result → History}
    {start finish : State × History}
    (hrun : Runs (observe step note) (fun observed label ↦ permitted observed.1 label)
      start finish) : Runs step permitted start.1 finish.1 := by
  induction hrun with
  | refl => exact Relation.ReflTransGen.refl
  | tail _ hlast ih =>
    obtain ⟨label, result, hpermitted, hok⟩ := hlast
    exact ih.tail ⟨label, result, hpermitted, (observe_eq_ok.mp hok).1⟩

end Runs

end Xv6Shm.Fallible
