import Xv6Shm.Memory.Frames
import Xv6Shm.Proc.Exec

/-!
# The memory of a new image

What `exec` does to the page frames before it commits: what it takes from the free list is in the
new address space or given back, the new size is below `HEAPLIMIT`, and the new window is empty.
-/

namespace Xv6Shm

open Fallible

variable {addr offset remaining : ℕ} {kmem : Kmem} {ok : Bool} {argv : List (List UInt8)} {vm : Vm}
  {image : Option ExecImage}

variable {pgdir : Pgdir} {sz : ℕ} {file : ExecFile}

theorem loaduvmLoop_freelist {i : ℕ} {next : Kmem}
    (h : loaduvmLoop pgdir addr file offset sz remaining kmem i = .ok (next, ok)) :
    next.freelist = kmem.freelist := by
  induction remaining generalizing i kmem next ok with
  | zero =>
    cases h
    rfl
  | succ remaining ih =>
    rw [loaduvmLoop] at h
    dsimp only at h
    split at h
    · cases h
    · split at h
      · cases h
        rfl
      · split at h
        · rw [ih h, Kmem.write_freelist]
        · cases h
          exact Kmem.write_freelist _ _ _

theorem loaduvm_freelist {next : Kmem} (h : loaduvm kmem pgdir addr file offset sz = .ok (next, ok)) :
    next.freelist = kmem.freelist := by
  unfold loaduvm at h
  split at h
  · cases h
  · exact loaduvmLoop_freelist h

theorem copyoutLoop_freelist {fuel va : ℕ} {next : Kmem} {content : List UInt8}
    (h : copyoutLoop pgdir fuel kmem va content = .ok (next, ok)) :
    next.freelist = kmem.freelist := by
  induction fuel generalizing va kmem next content ok with
  | zero =>
    cases h
    rfl
  | succ fuel ih =>
    rw [copyoutLoop] at h
    split at h
    · cases h
      rfl
    · obtain ⟨pa0, -, h⟩ := bind_eq_ok.mp h
      split at h
      · cases h
        rfl
      · rw [ih h, Kmem.write_freelist]

theorem pushArgs_freelist {next : Kmem} {sp sp' : ℕ} {pushed pushed' : List ℕ}
    (h : pushArgs pgdir argv kmem sp pushed = .ok (next, sp', pushed', ok)) :
    next.freelist = kmem.freelist := by
  induction argv generalizing kmem next sp sp' pushed pushed' ok with
  | nil =>
    cases h
    rfl
  | cons argument rest ih =>
    rw [pushArgs] at h
    split at h
    · cases h
      rfl
    · obtain ⟨⟨copied, okCopy⟩, hcopy, h⟩ := bind_eq_ok.mp h
      rw [← copyoutLoop_freelist hcopy]
      cases okCopy with
      | true => exact ih h
      | false =>
        cases h
        rfl

theorem pteFrames_clearUser (pte : ℕ) :
    pteFrames (pte &&& (Word.size - 1 - pteU)) = pteFrames pte := by
  have hpresent : isPresent (pte &&& (Word.size - 1 - pteU)) = isPresent pte := by
    unfold isPresent
    rw [Nat.land_assoc]
    rfl
  have haddr : pteAddr (pte &&& (Word.size - 1 - pteU)) = pteAddr pte := by
    unfold pteAddr
    rw [Nat.land_assoc]
    rfl
  unfold pteFrames
  rw [hpresent, haddr]

theorem clearpteu_frames {next : Pgdir} {uva : ℕ} (h : clearpteu pgdir uva = .ok next)
    (huva : uva < heapLimit) : next.frames = pgdir.frames ∧ pgdir.SameWindow next := by
  unfold clearpteu at h
  split at h
  · rename_i htable
    cases h
    have hset := Pgdir.frames_setPte (pgdir.pte uva &&& (Word.size - 1 - pteU)) htable huva
    rw [pteFrames_clearUser] at hset
    exact ⟨add_right_cancel hset,
      Pgdir.sameWindow_setPte _ (lt_trans huva (by decide)) (Or.inl huva)⟩
  · cases h

/-- What loading leaves: all pages, the window, and a size below `HEAPLIMIT`. -/
theorem loadSegments_spec {next : Vm} {sz sz' off : ℕ}
    (h : loadSegments file remaining vm sz off = .ok (next, sz', ok)) (hsz : sz < heapLimit) :
    next.frames = vm.frames ∧ vm.pgdir.SameWindow next.pgdir ∧ sz' < heapLimit := by
  induction remaining generalizing vm next sz sz' off ok with
  | zero =>
    cases h
    exact ⟨rfl, Pgdir.SameWindow.refl _, hsz⟩
  | succ remaining ih =>
    rw [loadSegments] at h
    dsimp only at h
    split at h
    · cases h
      exact ⟨rfl, Pgdir.SameWindow.refl _, hsz⟩
    · split at h
      · exact ih h hsz
      · split at h
        · cases h
          exact ⟨rfl, Pgdir.SameWindow.refl _, hsz⟩
        · split at h
          · cases h
            exact ⟨rfl, Pgdir.SameWindow.refl _, hsz⟩
          · obtain ⟨⟨grown, grownSz⟩, hgrow, h⟩ := bind_eq_ok.mp h
            have hframes := (allocuvm_moves hgrow).frames_eq
            have hwindow := (allocuvm_moves hgrow).window
            have hgrownSz : grownSz < heapLimit := by
              rcases allocuvm_size hgrow with hzero | ⟨hmax, hnew⟩
              · rw [hzero]
                decide
              · rw [hmax]
                exact max_lt hsz hnew
            split at h
            · cases h
              exact ⟨hframes, hwindow, hgrownSz⟩
            · split at h
              · cases h
                exact ⟨hframes, hwindow, hgrownSz⟩
              · obtain ⟨⟨loaded, okLoad⟩, hload, h⟩ := bind_eq_ok.mp h
                have hloaded : Vm.frames ⟨loaded, grown.pgdir⟩ = vm.frames := by
                  rw [← hframes, Vm.frames, Vm.frames, loaduvm_freelist hload]
                cases okLoad with
                | true =>
                  obtain ⟨hrestFrames, hrestWindow, hrestSz⟩ := ih h hgrownSz
                  exact ⟨hrestFrames.trans hloaded, hwindow.trans hrestWindow, hrestSz⟩
                | false =>
                  cases h
                  exact ⟨hloaded, hwindow, hgrownSz⟩

theorem buildStack_spec {next : Vm} {eip : ℕ} (hsz : sz < heapLimit)
    (h : buildStack vm sz eip argv = .ok (next, image)) :
    next.frames = vm.frames ∧ ∀ built, image = some built →
      built.pgdir = next.pgdir ∧ vm.pgdir.SameWindow next.pgdir ∧ built.sz < heapLimit := by
  have hround : pgRoundUp sz ≤ heapLimit := by
    rw [pgRoundUp_eq]
    · unfold heapLimit pgSize at *
      omega
    · unfold heapLimit at hsz
      unfold pgSize Word.size
      omega
  have hadd : Word.add (pgRoundUp sz) (2 * pgSize) = pgRoundUp sz + 2 * pgSize := by
    apply Word.add_eq
    unfold heapLimit at hround
    unfold pgSize Word.size
    omega
  unfold buildStack at h
  dsimp only at h
  rw [hadd] at h
  obtain ⟨⟨grown, grownSz⟩, hgrow, h⟩ := bind_eq_ok.mp h
  have hframes := (allocuvm_moves hgrow).frames_eq
  have hwindow := (allocuvm_moves hgrow).window
  split at h
  · cases h
    exact ⟨hframes, fun built hbuilt ↦ by cases hbuilt⟩
  · rename_i hnonzero
    obtain ⟨hmax, hnew⟩ := (allocuvm_size hgrow).resolve_left hnonzero
    have hgrownSz : grownSz = pgRoundUp sz + 2 * pgSize := by
      rw [hmax]
      exact Nat.max_eq_right (Nat.le_add_right _ _)
    have hguard : Word.sub grownSz (2 * pgSize) < heapLimit := by
      rw [hgrownSz, Word.sub_eq (Nat.le_add_left _ _), Nat.add_sub_cancel]
      · omega
      · exact lt_trans hnew (by decide)
    obtain ⟨pgdir, hclear, h⟩ := bind_eq_ok.mp h
    obtain ⟨hclearFrames, hclearWindow⟩ := clearpteu_frames hclear hguard
    obtain ⟨⟨kmem, sp, pushed, okPush⟩, hpush, h⟩ := bind_eq_ok.mp h
    have hpushed : Vm.frames ⟨kmem, pgdir⟩ = vm.frames := by
      rw [← hframes, Vm.frames, Vm.frames, pushArgs_freelist hpush, hclearFrames]
    cases okPush with
    | true =>
      obtain ⟨⟨kmem', okCopy⟩, hcopy, h⟩ := bind_eq_ok.mp h
      have hcopied : Vm.frames ⟨kmem', pgdir⟩ = vm.frames := by
        rw [← hpushed, Vm.frames, Vm.frames]
        rw [copyoutLoop_freelist hcopy]
      cases okCopy with
      | true =>
        cases h
        refine ⟨hcopied, fun built hbuilt ↦ ?_⟩
        cases hbuilt
        exact ⟨rfl, hwindow.trans hclearWindow, hgrownSz ▸ hnew⟩
      | false =>
        cases h
        exact ⟨hcopied, fun built hbuilt ↦ by cases hbuilt⟩
    | false =>
      cases h
      exact ⟨hpushed, fun built hbuilt ↦ by cases hbuilt⟩

/-- Building an image takes its pages from the free list and nothing else. -/
theorem execImage_spec {next : Kmem} (h : execImage kmem file argv = .ok (next, image)) :
    (kmem.freelist : Multiset ℕ) =
        (next.freelist : Multiset ℕ) + builtFrames (image.map ExecImage.pgdir) ∧
      ∀ built, image = some built → built.pgdir.EmptyWindow ∧ built.sz < heapLimit := by
  unfold execImage at h
  split at h
  · cases h
    exact ⟨by simp, fun built hbuilt ↦ by cases hbuilt⟩
  · obtain ⟨⟨base, empty⟩, hsetup, h⟩ := bind_eq_ok.mp h
    have hbase := (setupkvm_builds hsetup).freelist
    cases empty with
    | none =>
      cases h
      exact ⟨hbase, fun built hbuilt ↦ by cases hbuilt⟩
    | some pgdir =>
      obtain ⟨⟨loaded, sz, okLoad⟩, hload, h⟩ := bind_eq_ok.mp h
      obtain ⟨hloadFrames, hloadWindow, hsz⟩ := loadSegments_spec hload (by decide)
      have hloaded : loaded.frames = (kmem.freelist : Multiset ℕ) := by
        rw [hloadFrames, hbase, builtFrames_some, Vm.frames]
      cases okLoad with
      | true =>
        obtain ⟨⟨stacked, built⟩, hstack, h⟩ := bind_eq_ok.mp h
        obtain ⟨hstackFrames, hstackImage⟩ := buildStack_spec hsz hstack
        have hstacked := hstackFrames.trans hloaded
        cases built with
        | none =>
          obtain ⟨freed, hfree, h⟩ := bind_eq_ok.mp h
          cases h
          refine ⟨?_, fun built hbuilt ↦ by cases hbuilt⟩
          rw [← hstacked, (freevm_freelist hfree).1, Option.map_none, builtFrames_none, add_zero]
        | some built =>
          cases h
          obtain ⟨hpgdir, hwindow, hbuiltSz⟩ := hstackImage built rfl
          refine ⟨?_, fun other hother ↦ ?_⟩
          · rw [← hstacked, Option.map_some, builtFrames_some, hpgdir, Vm.frames]
          · cases hother
            rw [hpgdir]
            exact ⟨(hloadWindow.trans hwindow).empty ((setupkvm_builds hsetup).window _ rfl), hbuiltSz⟩
      | false =>
        obtain ⟨freed, hfree, h⟩ := bind_eq_ok.mp h
        cases h
        refine ⟨?_, fun built hbuilt ↦ by cases hbuilt⟩
        rw [← hloaded, (freevm_freelist hfree).1, Option.map_none, builtFrames_none, add_zero]

end Xv6Shm
