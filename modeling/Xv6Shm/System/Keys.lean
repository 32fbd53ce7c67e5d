import Xv6Shm.System.Coherence

/-!
# Keys of segments

A segment's key is chosen by its creator, and -1 in the same field marks a free slot. The keys stay
apart from each other and from the mark as long as no call creates a second segment for a key in
use, asks for the key -1, or copies the key of another segment from a buffer.
-/

namespace Xv6Shm

open Fallible ShmPgTable

variable {table table' : ShmPgTable} {kernel kernel' : Kernel} {label : Label}

/-- The condition on the keys of a call. -/
def Keyed (kernel : Kernel) (label : Label) : Prop :=
  match label.call with
  | .shmget key size shmflag =>
    shmgetKey label.clock key ≠ -1 ∧
      ∀ i, kernel.shmpgtable.lookup (shmgetKey label.clock key) = some i → shmflag = ipcCreat →
        (kernel.shmpgtable.shmSegs i).shmSegsz ≤ size
  | .shmctl shmid cmd buf =>
    cmd = ipcSet → (kernel.shmpgtable.shmSegs shmid.toNat).shmPerm.mode &&& shmR ≠ 0 ∨
      buf.pages = 0 ∨ ∀ t ∈ kernel.shmpgtable.bases,
        (kernel.shmpgtable.shmSegs t).shmPerm.key = buf.shmPerm.key → (t : ℤ) = shmid
  | _ => True

/-- No two segments have the same key. -/
def KeysUnique (table : ShmPgTable) : Prop :=
  Set.InjOn (fun s ↦ (table.shmSegs s).shmPerm.key) table.bases

theorem KeysUnique.congr (h : KeysUnique table) (hbases : ∀ s ∈ table'.bases, s ∈ table.bases)
    (hkey : ∀ s ∈ table'.bases, (table'.shmSegs s).shmPerm.key = (table.shmSegs s).shmPerm.key) :
    KeysUnique table' := by
  intro s hs t ht hsame
  dsimp only at hsame
  rw [hkey s hs, hkey t ht] at hsame
  exact h (hbases s hs) (hbases t ht) hsame

/-- One segment gets a key that no other segment has. -/
theorem KeysUnique.change (h : KeysUnique table) {s : ℕ}
    (hothers : ∀ t ∈ table'.bases, t ≠ s → t ∈ table.bases ∧
      (table'.shmSegs t).shmPerm.key = (table.shmSegs t).shmPerm.key) (hfresh : ∀ t ∈ table.bases,
      (table.shmSegs t).shmPerm.key = (table'.shmSegs s).shmPerm.key → t = s) :
    KeysUnique table' := by
  intro t ht u hu hsame
  dsimp only at hsame
  by_cases hts : t = s
  · by_cases hus : u = s
    · rw [hts, hus]
    · obtain ⟨hold, hkey⟩ := hothers u hu hus
      exact absurd (hfresh u hold (by rw [← hkey, ← hsame, hts])) hus
  · obtain ⟨hold, hkey⟩ := hothers t ht hts
    by_cases hus : u = s
    · exact absurd (hfresh t hold (by rw [← hkey, hsame, hus])) hts
    · obtain ⟨hold', hkey'⟩ := hothers u hu hus
      exact h hold hold' (by dsimp only; rw [← hkey, hsame, hkey'])

theorem keysUnique_step {result : ℤ}
    (hintact : kernel.Intact) (hunique : KeysUnique kernel.shmpgtable)
    (hstructured : Structured kernel label) (hkeyed : Keyed kernel label)
    (h : step kernel label = .ok (kernel', result)) : KeysUnique kernel'.shmpgtable := by
  have hcoherent := hintact.coherent
  cases tableChange_of_step hintact hstructured h with
  | recounted htable _ =>
    refine hunique.congr (fun s hs ↦ htable.bases ▸ hs) fun s _ ↦ htable.key s
  | @created key size shmflag index append frames kmem hcall hcreating hkey _ hlength hkernel
      hnew =>
    obtain ⟨-, hbases⟩ := hcoherent.insert hnew
    have hold (t : ℕ) (ht : t ∈ kernel.shmpgtable.bases) :
        kernel'.shmpgtable.shmSegs t = kernel.shmpgtable.shmSegs t :=
      hnew.others t (hnew.apart hcoherent ht le_rfl
        (Nat.lt_add_of_pos_right (hcoherent.tiling.positive t ht)))
    have hindex : (kernel'.shmpgtable.shmSegs index).shmPerm.key = shmgetKey label.clock key := by
      have hpos := hnew.nonempty
      subst hkernel
      unfold Kernel.created
      rw [created_of_mem le_rfl (by omega)]
      rfl
    -- a key that is found is not created once more
    have hlookup : kernel.shmpgtable.lookup (shmgetKey label.clock key) = none := by
      unfold Keyed at hkeyed
      rw [hcall] at hkeyed
      unfold Creating at hcreating
      cases hfound : kernel.shmpgtable.lookup (shmgetKey label.clock key) with
      | none => rfl
      | some i =>
        rw [hfound] at hcreating
        have hle := hkeyed.2 i hfound hcreating.1
        exact absurd hcreating.2 (Nat.not_lt.mpr hle)
    apply @KeysUnique.change _ _ hunique index
    · intro t ht hne
      rw [hbases] at ht
      have hmem := Finset.mem_of_mem_insert_of_ne ht hne
      exact ⟨hmem, by rw [hold t hmem]⟩
    · intro t ht hsame
      rw [hindex] at hsame
      exact absurd hsame (lookup_none hlookup t (le_last (hcoherent.tiling.lt_bound ht)))
  | @set shmid buf s hcall hshmid hs hpages hkey hmode hkernel =>
    have hpos := hcoherent.tiling.positive s hs
    obtain ⟨-, hbases⟩ := hcoherent.onPages hs (KeepsSegment.set hpages hkey)
    have hnew : ∀ t ∈ kernel.shmpgtable.bases,
        (kernel.shmpgtable.shmSegs t).shmPerm.key = buf.shmPerm.key → t = s := by
      unfold Keyed at hkeyed
      rw [hcall] at hkeyed
      subst hshmid
      rcases hkeyed rfl with hrefused | hshort | hfresh
      · exact absurd hmode hrefused
      · omega
      · exact fun t ht hsame ↦ Int.ofNat_inj.mp (hfresh t ht hsame)
    subst hkernel
    have hindex : ((kernel.shmpgtable.onPages s (kernel.shmpgtable.pagesAt s) buf.set).shmSegs
        s).shmPerm.key = buf.shmPerm.key := by
      rw [onPages_of_mem le_rfl (by omega)]
      rfl
    apply @KeysUnique.change _ _ hunique s
    · intro t ht hne
      rw [hbases] at ht
      exact ⟨ht, by rw [hcoherent.onPages_other hs ht hne]⟩
    · intro t ht hsame
      rw [hindex] at hsame
      exact hnew t ht hsame
  | @freed shmIdentifier flag s kmem _ _ hs _ hkernel =>
    obtain ⟨-, hbases⟩ := hcoherent.freed hs
    subst hkernel
    apply hunique.congr
    · intro t ht
      rw [hbases] at ht
      exact Finset.mem_of_mem_erase ht
    · intro t ht
      rw [hbases, Finset.mem_erase] at ht
      rw [hcoherent.onPages_other hs ht.2 ht.1]

/-- An identifier that `shmget` returns is that of a segment none of whose slots looks free. -/
theorem shmget_returns_segment {key id : ℤ}
    {size shmflag : ℕ} (hintact : kernel.Intact) (hstructured : Structured kernel label)
    (hkeyed : Keyed kernel label) (hcall : label.call = .shmget key size shmflag)
    (h : step kernel label = .ok (kernel', id)) (hid : 0 ≤ id) :
    ∃ s ∈ kernel'.shmpgtable.bases, id = s ∧ ∀ i, s ≤ i → i < s + kernel'.shmpgtable.pagesAt s →
        (kernel'.shmpgtable.shmSegs i).shmPerm.key ≠ -1 := by
  have hcoherent' := (hintact.step hstructured h).1.coherent
  have hmember : ∃ s ∈ kernel'.shmpgtable.bases, id = s := by
    unfold Structured at hstructured
    unfold Keyed at hkeyed
    rw [hcall] at hstructured hkeyed
    obtain ⟨-, -, hperform⟩ := step_eq_ok h
    rw [hcall] at hperform
    rcases structured_shmget hintact hstructured hperform with
      ⟨rfl, hneg | ⟨i, hlookup, hresult⟩⟩ |
      ⟨-, -, index, append, frames, kmem, -, -, hresult, -, hnew⟩
    · omega
    · exact ⟨i, hintact.coherent.lookup_mem hlookup hkeyed.1, hresult⟩
    · refine ⟨index, ?_, hresult⟩
      rw [(hintact.coherent.insert hnew).2]
      exact Finset.mem_insert_self index _
  obtain ⟨s, hs, hresult⟩ := hmember
  exact ⟨s, hs, hresult, fun i hsi hlt ↦ isLive_iff.mp (hcoherent'.tiling.filled s hs i hsi hlt)⟩

/-- In every state of a run whose calls keep the table structured and the keys apart, different
segments have different keys, and an identifier that `shmget` returns is that of a segment. -/
theorem keys_unique_of_keyed {start kernel : Kernel} (hboot : Boot start)
    (hrun : Runs step (fun kernel label ↦ Structured kernel label ∧ Keyed kernel label)
      start kernel) :
    Splits kernel.shmpgtable kernel.shmpgtable.bases ∧
      (∀ s ∈ kernel.shmpgtable.bases, ∀ t ∈ kernel.shmpgtable.bases,
        (kernel.shmpgtable.shmSegs s).shmPerm.key = (kernel.shmpgtable.shmSegs t).shmPerm.key →
          s = t) ∧
      ∀ label key size shmflag kernel' id, label.call = .shmget key size shmflag →
        Structured kernel label → Keyed kernel label → step kernel label = .ok (kernel', id) →
        0 ≤ id → ∃ s ∈ kernel'.shmpgtable.bases, id = s ∧
          ∀ i, s ≤ i → i < s + kernel'.shmpgtable.pagesAt s →
            (kernel'.shmpgtable.shmSegs i).shmPerm.key ≠ -1 := by
  have hboth : kernel.Intact ∧ KeysUnique kernel.shmpgtable := by
    refine hrun.invariant (fun kernel ↦ kernel.Intact ∧ KeysUnique kernel.shmpgtable)
      ⟨hboot.intact, ?_⟩ fun state label next result hstate hlabel hstep ↦ ?_
    · have hempty : start.shmpgtable.bases = ∅ := by
        rw [hboot.table]
        rfl
      intro s hs
      rw [hempty] at hs
      simp at hs
    · exact ⟨(hstate.1.step hlabel.1 hstep).1,
        keysUnique_step hstate.1 hstate.2 hlabel.1 hlabel.2 hstep⟩
  refine ⟨hboth.1.splits, fun s hs t ht hsame ↦ hboth.2 hs ht hsame, ?_⟩
  intro label key size shmflag kernel' id hcall hstructured hkeyed hstep hid
  exact shmget_returns_segment hboth.1 hstructured hkeyed hcall hstep hid

/-- Asking for less than the segment of a key has creates a second segment with that key. -/
theorem shmget_duplicates_key : ∃ first second : Kernel, Boot (startKernel 3) ∧
      step (startKernel 3) (startLabel (.shmget 5 8192 ipcCreat)) = .ok (first, 0) ∧
      step first (startLabel (.shmget 5 4096 ipcCreat)) = .ok (second, 2) ∧
      Splits second.shmpgtable second.shmpgtable.bases ∧
      0 ∈ second.shmpgtable.bases ∧ 2 ∈ second.shmpgtable.bases ∧
      (second.shmpgtable.shmSegs 0).shmPerm.key = (second.shmpgtable.shmSegs 2).shmPerm.key := by
  obtain ⟨first, hfirst, hroom, second, hsecond, hstate⟩ : ∃ first,
      step (startKernel 3) (startLabel (.shmget 5 8192 ipcCreat)) = .ok (first, 0) ∧
      Structured first (startLabel (.shmget 5 4096 ipcCreat)) ∧
      ∃ second, step first (startLabel (.shmget 5 4096 ipcCreat)) = .ok (second, 2) ∧
        0 ∈ second.shmpgtable.bases ∧ 2 ∈ second.shmpgtable.bases ∧
        (second.shmpgtable.shmSegs 0).shmPerm.key = (second.shmpgtable.shmSegs 2).shmPerm.key := by
    decide +kernel
  have hintact := (startKernel_boot (by decide)).intact_of_runs
    (((Runs.refl _).snoc (by decide +kernel) hfirst).snoc hroom hsecond)
  exact ⟨first, second, startKernel_boot _, hfirst, hsecond, hintact.splits, hstate⟩

/-- A segment of two pages is created. -/
theorem keys_unique_of_keyed_created : ∃ kernel : Kernel,
    Runs step (fun kernel label ↦ Structured kernel label ∧ Keyed kernel label)
      (startKernel 3) kernel ∧ 0 ∈ kernel.shmpgtable.bases ∧
      Splits kernel.shmpgtable kernel.shmpgtable.bases ∧
      (∀ s ∈ kernel.shmpgtable.bases, ∀ t ∈ kernel.shmpgtable.bases,
        (kernel.shmpgtable.shmSegs s).shmPerm.key = (kernel.shmpgtable.shmSegs t).shmPerm.key →
          s = t) ∧
      ∀ label key size shmflag kernel' id, label.call = .shmget key size shmflag →
        Structured kernel label → Keyed kernel label → step kernel label = .ok (kernel', id) →
        0 ≤ id → ∃ s ∈ kernel'.shmpgtable.bases, id = s ∧
          ∀ i, s ≤ i → i < s + kernel'.shmpgtable.pagesAt s →
            (kernel'.shmpgtable.shmSegs i).shmPerm.key ≠ -1 := by
  obtain ⟨first, hfirst, hbase⟩ : ∃ first,
      step (startKernel 3) (startLabel (.shmget 5 8192 ipcCreat)) = .ok (first, 0) ∧
        0 ∈ first.shmpgtable.bases := by
    decide +kernel
  have hkeyed : Keyed (startKernel 3) (startLabel (.shmget 5 8192 ipcCreat)) := by
    refine ⟨by decide, fun i hlookup ↦ ?_⟩
    cases hlookup
  have hsteps : Runs step (fun kernel label ↦ Structured kernel label ∧ Keyed kernel label)
      (startKernel 3) first :=
    (Runs.refl _).snoc ⟨by decide +kernel, hkeyed⟩ hfirst
  exact ⟨first, hsteps, hbase, keys_unique_of_keyed (startKernel_boot _) hsteps⟩

end Xv6Shm
