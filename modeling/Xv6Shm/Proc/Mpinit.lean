import Mathlib.Algebra.BigOperators.Group.List.Basic
import Mathlib.Data.UInt

/-!
# The processors of the machine

`mpinit` walks over the entries of the table that the firmware left. At an entry of an unknown type
it clears `ismp`, but the `break` there leaves only the `switch`: the pointer stays where it is and
the loop never ends. On tables without such an entry the loop ends. There are never more than `NCPU`
processors.
-/

namespace Xv6Shm.Mp

def ncpuMax : ℕ := 8

def mpProc : UInt8 := 0
def mpBus : UInt8 := 1
def mpIoapic : UInt8 := 2
def mpIointr : UInt8 := 3
def mpLintr : UInt8 := 4

/-- `conf->length`, where `conf` gives the bytes of the table. -/
def length (conf : ℕ → UInt8) : ℕ := (conf 4).toNat + 256 * (conf 5).toNat

def sum (addr : ℕ → UInt8) (len : ℕ) : UInt8 := ((List.range len).map addr).sum

/-- The tests of `mpconfig`: signature, version and checksum. -/
def mpconfig (conf : ℕ → UInt8) : Bool :=
  (List.range 4).map conf == [0x50, 0x43, 0x4D, 0x50] && (conf 6 == 1 || conf 6 == 4) &&
    sum conf (length conf) == 0

/-- The variables of `mpinit`; `p` counts from the start of the table. -/
structure State where
  p : ℕ
  ismp : Bool
  ncpu : ℕ
  apicid : ℕ → UInt8
  ioapicid : UInt8

/-- The entries begin behind the header. -/
def initial : State := ⟨44, true, 0, fun _ ↦ 0, 0⟩

/-- One round of the loop of `mpinit`. -/
def round (conf : ℕ → UInt8) (s : State) : State :=
  if conf s.p = mpProc then
    if s.ncpu < ncpuMax then
      { s with
        apicid := fun cpu ↦ if cpu = s.ncpu then conf (s.p + 1) else s.apicid cpu
        ncpu := s.ncpu + 1
        p := s.p + 20 }
    else { s with p := s.p + 20 }
  else if conf s.p = mpIoapic then { s with ioapicid := conf (s.p + 1), p := s.p + 8 }
  else if conf s.p = mpBus ∨ conf s.p = mpIointr ∨ conf s.p = mpLintr then { s with p := s.p + 8 }
  else { s with ismp := false }

/-- The state after at most `count` rounds. -/
def rounds (conf : ℕ → UInt8) : ℕ → State → State
  | 0, s => s
  | count + 1, s => if s.p < length conf then rounds conf count (round conf s) else s

/-- The size of an entry, 0 if its type is not known. -/
def entrySize (type : UInt8) : ℕ :=
  if type = mpProc then 20
  else if type = mpIoapic ∨ type = mpBus ∨ type = mpIointr ∨ type = mpLintr then 8
  else 0

/-- The positions of the entries from `p` on, as far as the sizes are known. -/
inductive EntryFrom (conf : ℕ → UInt8) : ℕ → ℕ → Prop
  | here (p : ℕ) : EntryFrom conf p p
  | next {p q : ℕ} : EntryFrom conf (p + entrySize (conf p)) q → EntryFrom conf p q

variable {conf : ℕ → UInt8} {s : State} {p q : ℕ}

theorem EntryFrom.le (h : EntryFrom conf p q) : p ≤ q := by
  induction h with
  | here => exact le_rfl
  | next _ ih => exact (Nat.le_add_right _ _).trans ih

theorem round_p (conf : ℕ → UInt8) (s : State) : (round conf s).p = s.p + entrySize (conf s.p) := by
  unfold round entrySize
  split_ifs <;> simp_all

theorem round_ncpu (h : s.ncpu ≤ ncpuMax) : (round conf s).ncpu ≤ ncpuMax := by
  unfold round
  split_ifs
  all_goals assumption

theorem rounds_ncpu (count : ℕ) (h : s.ncpu ≤ ncpuMax) : (rounds conf count s).ncpu ≤ ncpuMax := by
  induction count generalizing s with
  | zero => exact h
  | succ count ih =>
    rw [rounds]
    split
    · exact ih (round_ncpu h)
    · exact h

theorem known_of_ends {count : ℕ} (h : length conf ≤ (rounds conf count s).p)
    (hentry : EntryFrom conf s.p q) (hq : q < length conf) : 0 < entrySize (conf q) := by
  induction count generalizing s with
  | zero => exact absurd (h.trans hentry.le) (Nat.not_le.mpr hq)
  | succ count ih =>
    rw [rounds, if_pos (lt_of_le_of_lt hentry.le hq)] at h
    have hrest (hentry : EntryFrom conf (s.p + entrySize (conf s.p)) q) :
        0 < entrySize (conf q) := by
      rw [← round_p] at hentry
      exact ih h hentry
    cases hentry with
    | here =>
      by_contra hzero
      -- the pointer stays, so the rest of the walk meets the same entry
      rw [Nat.eq_zero_of_not_pos hzero] at hrest
      exact Nat.lt_irrefl 0 (hrest (.here _))
    | next hentry => exact hrest hentry

theorem ends_of_known (h : ∀ q, EntryFrom conf s.p q → q < length conf → 0 < entrySize (conf q)) :
    ∃ count, length conf ≤ (rounds conf count s).p := by
  induction hleft : length conf - s.p using Nat.strong_induction_on generalizing s with
  | _ left ih =>
    by_cases hlt : s.p < length conf
    · have hsize := h s.p (.here _) hlt
      have hround := round_p conf s
      obtain ⟨count, hcount⟩ := ih _ (by omega) (fun q hentry ↦ h q (.next (hround ▸ hentry))) rfl
      refine ⟨count + 1, ?_⟩
      rwa [rounds, if_pos hlt]
    · exact ⟨0, Nat.not_lt.mp hlt⟩

/-- The loop ends exactly if no entry below the length of the table has an unknown type. -/
theorem mpinit_ends_iff (conf : ℕ → UInt8) :
    ((∃ count, length conf ≤ (rounds conf count initial).p) ↔
      ∀ q, EntryFrom conf initial.p q → q < length conf → 0 < entrySize (conf q)) ∧
    ∀ count, (rounds conf count initial).ncpu ≤ ncpuMax := by
  refine ⟨⟨?_, ends_of_known⟩, fun count ↦ rounds_ncpu count (by decide)⟩
  rintro ⟨count, h⟩ q hentry hq
  exact known_of_ends h hentry hq

/-- A table of one byte behind the header, of type 5. -/
def unknownEntry (i : ℕ) : UInt8 :=
  [0x50, 0x43, 0x4D, 0x50, 45, 0, 1, 157].getD i (if i = 44 then 5 else 0)

theorem mpinit_stuck : mpconfig unknownEntry = true ∧
    ∀ count, (rounds unknownEntry count initial).p < length unknownEntry := by
  refine ⟨by decide +kernel, fun count ↦ ?_⟩
  by_contra hends
  exact absurd (known_of_ends (Nat.not_lt.mp hends) (.here 44) (by decide)) (by decide)

end Xv6Shm.Mp
