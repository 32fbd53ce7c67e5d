import Mathlib.Data.List.Basic
import Mathlib.Data.UInt

/-!
# The pattern matcher of grep

The matcher reads a pattern from left to right as items, each a byte or `.` with or without `*`, and
a final `$`. It finds a match exactly if some part of the text is in the language of the items: at
the start of the text if the pattern begins with `^`, and at its end if `$` follows.
-/

namespace Xv6Shm.Grep

def caret : UInt8 := 94
def dollar : UInt8 := 36
def dot : UInt8 := 46
def star : UInt8 := 42

/-- `matchstar`: `c*`, and behind it what `here` looks for. -/
def matchstar (c : UInt8) (here : List UInt8 → Bool) : List UInt8 → Bool
  | [] => here []
  | t :: text => here (t :: text) || ((t == c || c == dot) && matchstar c here text)

/-- The last case of `matchhere`: one byte, and behind it what `here` looks for. -/
def matchbyte (c : UInt8) (here : List UInt8 → Bool) : List UInt8 → Bool
  | [] => false
  | t :: text => (c == dot || c == t) && here text

def matchhere : List UInt8 → List UInt8 → Bool
  | [] => fun _ ↦ true
  | [c] => if c = dollar then List.isEmpty else matchbyte c fun _ ↦ true
  | c :: next :: re =>
    if next = star then matchstar c (matchhere re) else matchbyte c (matchhere (next :: re))

/-- The loop of `match` over the rests of the text. -/
def matchrests (re : List UInt8) : List UInt8 → Bool
  | [] => matchhere re []
  | t :: text => matchhere re (t :: text) || matchrests re text

/-- `match`. -/
def matchRe (re text : List UInt8) : Bool :=
  if re.head? = some caret then matchhere re.tail text else matchrests re text

/-- A byte of the pattern, once or any number of times. -/
inductive Item
  | once (c : UInt8)
  | many (c : UInt8)

/-- The items of a pattern without `^`, and whether a final `$` follows. -/
def items : List UInt8 → List Item × Bool
  | [] => ([], false)
  | [c] => if c = dollar then ([], true) else ([.once c], false)
  | c :: next :: re =>
    if next = star then (.many c :: (items re).1, (items re).2)
    else (.once c :: (items (next :: re)).1, (items (next :: re)).2)

/-- The items behind `^`, if the pattern begins with it. -/
def itemsOf (re : List UInt8) : List Item × Bool :=
  items (if re.head? = some caret then re.tail else re)

/-- The byte `c` of a pattern stands for `t`. -/
def StandsFor (c t : UInt8) : Prop := c = dot ∨ c = t

/-- The language of a list of items. -/
def Denotes : List Item → List UInt8 → Prop
  | [], word => word = []
  | .once c :: rest, word => ∃ t tail, word = t :: tail ∧ StandsFor c t ∧ Denotes rest tail
  | .many c :: rest, word =>
    ∃ copies tail, word = copies ++ tail ∧ (∀ t ∈ copies, StandsFor c t) ∧ Denotes rest tail

/-- The text begins with a word of the pattern, and is this word if `$` follows. -/
def Begins (pattern : List Item × Bool) (text : List UInt8) : Prop :=
  ∃ word rest, text = word ++ rest ∧ Denotes pattern.1 word ∧ (pattern.2 = true → rest = [])

variable {c : UInt8} {text : List UInt8} {here : List UInt8 → Bool}
  {pattern : List Item} {eol : Bool}

theorem begins_nil : Begins ([], eol) text ↔ (eol = true → text = []) := by
  simp [Begins, Denotes]

theorem begins_once : Begins (.once c :: pattern, eol) text ↔
    ∃ t tail, text = t :: tail ∧ StandsFor c t ∧ Begins (pattern, eol) tail := by
  constructor
  · rintro ⟨word, rest, rfl, ⟨t, tail, rfl, ht, htail⟩, hend⟩
    exact ⟨t, tail ++ rest, rfl, ht, tail, rest, rfl, htail, hend⟩
  · rintro ⟨t, tail, rfl, ht, word, rest, rfl, hword, hend⟩
    exact ⟨t :: word, rest, rfl, ⟨t, word, rfl, ht, hword⟩, hend⟩

theorem begins_many : Begins (.many c :: pattern, eol) text ↔ ∃ copies tail,
    text = copies ++ tail ∧ (∀ t ∈ copies, StandsFor c t) ∧ Begins (pattern, eol) tail := by
  constructor
  · rintro ⟨word, rest, rfl, ⟨copies, tail, rfl, hcopies, htail⟩, hend⟩
    exact ⟨copies, tail ++ rest, List.append_assoc .., hcopies, tail, rest, rfl, htail, hend⟩
  · rintro ⟨copies, tail, rfl, hcopies, word, rest, rfl, hword, hend⟩
    exact ⟨copies ++ word, rest, (List.append_assoc ..).symm, ⟨copies, word, rfl, hcopies, hword⟩,
      hend⟩

theorem matchbyte_iff : matchbyte c here text = true ↔
    ∃ t tail, text = t :: tail ∧ StandsFor c t ∧ here tail = true := by
  cases text <;> simp [matchbyte, StandsFor]

theorem matchstar_iff : matchstar c here text = true ↔
    ∃ copies tail, text = copies ++ tail ∧ (∀ t ∈ copies, StandsFor c t) ∧ here tail = true := by
  induction text with
  | nil => simp [matchstar]
  | cons t text ih =>
    have hbyte : (t == c || c == dot) = true ↔ StandsFor c t := by
      rw [Bool.or_eq_true, beq_iff_eq, beq_iff_eq, StandsFor, or_comm, @eq_comm _ t]
    rw [matchstar, Bool.or_eq_true, Bool.and_eq_true, hbyte, ih]
    constructor
    · rintro (hhere | ⟨ht, copies, tail, rfl, hcopies, hhere⟩)
      · exact ⟨[], t :: text, rfl, by simp, hhere⟩
      · exact ⟨t :: copies, tail, rfl, List.forall_mem_cons.mpr ⟨ht, hcopies⟩, hhere⟩
    · rintro ⟨copies, tail, htext, hcopies, hhere⟩
      cases copies with
      | nil =>
        rw [htext]
        exact Or.inl hhere
      | cons first copies =>
        cases htext
        obtain ⟨hfirst, hcopies⟩ := List.forall_mem_cons.mp hcopies
        exact Or.inr ⟨hfirst, copies, tail, rfl, hcopies, hhere⟩

theorem matchhere_iff (re text : List UInt8) :
    matchhere re text = true ↔ Begins (items re) text := by
  induction re using items.induct generalizing text with
  | case1 => simp [matchhere, items, begins_nil]
  | case2 => simp [matchhere, items, begins_nil]
  | case3 c hc => simp [matchhere, items, hc, begins_once, begins_nil, matchbyte_iff]
  | case4 c re ih => simp only [matchhere, items, if_true, matchstar_iff, begins_many, ih]
  | case5 c next re hnext ih =>
    simp only [matchhere, items, if_neg hnext, matchbyte_iff, begins_once, ih]

/-- Going on at the next byte is a leading `.*`. -/
theorem matchrests_eq (re text : List UInt8) :
    matchrests re text = matchstar dot (matchhere re) text := by
  induction text with
  | nil => rfl
  | cons t text ih => simp [matchrests, matchstar, ih]

/-- `match` finds the texts with a word of the pattern in them. -/
theorem matchRe_iff (re text : List UInt8) :
    matchRe re text = true ↔ ∃ before word rest, text = before ++ (word ++ rest) ∧
      (re.head? = some caret → before = []) ∧ Denotes (itemsOf re).1 word ∧
      ((itemsOf re).2 = true → rest = []) := by
  unfold matchRe itemsOf
  split
  · rename_i hcaret
    simp [matchhere_iff, Begins, hcaret]
  · rename_i hcaret
    simp [matchrests_eq, matchstar_iff, matchhere_iff, Begins, hcaret, StandsFor]

end Xv6Shm.Grep
