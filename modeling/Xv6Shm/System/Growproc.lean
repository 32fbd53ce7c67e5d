import Xv6Shm.Memory.Growth
import Xv6Shm.System.Boot

/-!
# The size of a process

`growproc` computes the new size in unsigned arithmetic and takes the result zero of `allocuvm` and
`deallocuvm` for an error. Zero is a size as well, and a size below zero wraps around to a large
one.
-/

namespace Xv6Shm

open Fallible

/-- The private pages are those of the first `sz` bytes. -/
structure Pgdir.Covers (pgdir : Pgdir) (sz : ℕ) : Prop where
  limit : sz ≤ heapLimit
  pages : ∀ b < heapLimit, isPresent (pgdir.pte b) = true ↔ b / pgSize * pgSize < sz

/-- The new size is possible and there is memory for it. -/
structure Kernel.CanResize (kernel : Kernel) (p : ℕ) (n : ℤ) : Prop where
  nonneg : 0 ≤ (kernel.proc p).sz + n
  limit : (kernel.proc p).sz + n < heapLimit
  memory : 0 < n → (kernel.proc p).pgdir.growthDemand (kernel.proc p).sz
    ((kernel.proc p).sz + n).toNat ≤ kernel.kmem.freelist.length

/-- Nothing but the memory of process `p` has changed. -/
structure OthersKept (kernel : Kernel) (p : ℕ) (kernel' : Kernel) : Prop where
  table : kernel'.shmpgtable = kernel.shmpgtable
  others : ∀ q ≠ p, kernel'.proc q = kernel.proc q

/-- The size has changed by `n`, and the pages are those of the new size: old ones with their frames
and new ones with zeros. -/
structure SizeChanged (kernel : Kernel) (p : ℕ) (n : ℤ) (kernel' : Kernel) : Prop
    extends OthersKept kernel p kernel' where
  size : ((kernel'.proc p).sz : ℤ) = (kernel.proc p).sz + n
  covers : (kernel'.proc p).pgdir.Covers (kernel'.proc p).sz
  kept : ∀ b < Word.size, heapLimit ≤ b ∨ b / pgSize * pgSize < (kernel.proc p).sz ∧
      b / pgSize * pgSize < (kernel'.proc p).sz →
    (kernel'.proc p).pgdir.translate b = (kernel.proc p).pgdir.translate b
  zero : ∀ b, (kernel.proc p).sz ≤ b / pgSize * pgSize → b / pgSize * pgSize < (kernel'.proc p).sz →
    ∃ v, IsFrame v ∧ (kernel'.proc p).pgdir.translate b = some (userEntry v) ∧
      p2v (pteAddr (userEntry v)) = v ∧ ∀ a, InPage v a → kernel'.kmem.bytes a = 0

/-- The size and all mappings are what they were. -/
structure SizeKept (kernel : Kernel) (p : ℕ) (kernel' : Kernel) : Prop
    extends OthersKept kernel p kernel' where
  size : (kernel'.proc p).sz = (kernel.proc p).sz
  translate : ∀ b < Word.size,
    (kernel'.proc p).pgdir.translate b = (kernel.proc p).pgdir.translate b

/-- The call changes the size if it can, and otherwise returns -1 and changes nothing. -/
structure ResizesExactly (kernel : Kernel) (p : ℕ) (n : ℤ) : Prop where
  resizes : kernel.CanResize p n →
    ∃ kernel', growproc kernel p n = .ok (kernel', 0) ∧ SizeChanged kernel p n kernel'
  refuses : ¬ kernel.CanResize p n →
    ∃ kernel', growproc kernel p n = .ok (kernel', -1) ∧ SizeKept kernel p kernel'

namespace Growproc

variable {kernel : Kernel} {p : ℕ} {n : ℤ}

theorem commit_othersKept (vm : Vm) (sz : ℕ) :
    OthersKept kernel p (growproc.commit p kernel (kernel.proc p) vm sz) :=
  ⟨rfl, fun _ hq ↦ Kernel.setProc_proc_of_ne _ _ hq⟩

theorem commit_proc (vm : Vm) (sz : ℕ) : (growproc.commit p kernel (kernel.proc p) vm sz).proc p =
      { kernel.proc p with pgdir := vm.pgdir, sz := sz } := Kernel.setProc_proc_self _ _ _

theorem commit_sizeKept {vm : Vm} (htranslate : ∀ b < Word.size,
    vm.pgdir.translate b = (kernel.proc p).pgdir.translate b) :
    SizeKept kernel p (growproc.commit p kernel (kernel.proc p) vm (kernel.proc p).sz) := by
  refine ⟨commit_othersKept _ _, ?_, ?_⟩
  · rw [commit_proc]
  · rw [commit_proc]
    exact htranslate

theorem grow_eq (hpos : 0 < n) : growproc kernel p n = (do
    let (vm, sz) ← allocuvm ⟨kernel.kmem, (kernel.proc p).pgdir⟩ (kernel.proc p).sz
      (Word.ofInt ((kernel.proc p).sz + n))
    if sz = 0 then pure (growproc.commit p kernel (kernel.proc p) vm (kernel.proc p).sz, -1)
    else pure (growproc.commit p kernel (kernel.proc p) vm sz, 0)) := by
  unfold growproc
  rw [if_pos hpos]

theorem absent_of_covers {pgdir : Pgdir} {sz b : ℕ} (hcovers : pgdir.Covers sz)
    (hsz : sz < heapLimit) (hb : b < heapLimit) (hround : pgRoundUp sz ≤ b) :
    isPresent (pgdir.pte b) = false := by
  obtain ⟨haligned, hup, -⟩ := pgRoundUp_spec (hsz.le.trans (by decide))
  rw [← Bool.not_eq_true, hcovers.pages b hb]
  unfold pgSize at *
  omega

theorem grow_sizeChanged {next : Vm} {grown : ℕ} {frames : List ℕ}
    (hcovers : (kernel.proc p).pgdir.Covers (kernel.proc p).sz)
    (hgrown : ((kernel.proc p).sz : ℤ) + n = grown) (hless : (kernel.proc p).sz < grown)
    (hfits : grown < heapLimit)
    (hgrows : Vm.GrowsTo ⟨kernel.kmem, (kernel.proc p).pgdir⟩ (kernel.proc p).sz grown frames next) :
    SizeChanged kernel p n (growproc.commit p kernel (kernel.proc p) next grown) := by
  obtain ⟨haligned, hup, hdown⟩ := pgRoundUp_spec ((hless.trans hfits).le.trans (by decide))
  have hword (b : ℕ) (hb : b < heapLimit) : b < Word.size := lt_trans hb (by decide)
  refine ⟨commit_othersKept _ _, ?_, ?_, fun b hb hkept ↦ ?_, fun b hsz hbelow ↦ ?_⟩
  · rw [commit_proc]
    exact hgrown.symm
  · rw [commit_proc]
    refine ⟨hfits.le, fun b hb ↦ ?_⟩
    dsimp only
    rw [Pgdir.isPresent_eq_isSome]
    by_cases hadded : pgRoundUp (kernel.proc p).sz ≤ b ∧ b / pgSize * pgSize < grown
    · rw [hgrows.added b hadded.1 hadded.2]
      exact iff_of_true rfl hadded.2
    · rw [hgrows.others b (hword b hb) (by omega), ← Pgdir.isPresent_eq_isSome, hcovers.pages b hb]
      unfold pgSize at *
      omega
  · rw [commit_proc] at hkept ⊢
    apply hgrows.others b hb
    unfold heapLimit pgSize at *
    omega
  · rw [commit_proc] at hbelow ⊢
    have hround : pgRoundUp (kernel.proc p).sz ≤ b := by
      unfold pgSize at *
      omega
    have hmem := hgrows.frame_mem hless.le hfits hround hbelow
    exact ⟨_, (hgrows.mapped _ hmem).1, hgrows.added b hround hbelow, (hgrows.mapped _ hmem).2,
      hgrows.zero _ hmem⟩

theorem grow_exact (hcovers : (kernel.proc p).pgdir.Covers (kernel.proc p).sz)
    (hhigh : n < 2 ^ 31) (hpos : 0 < n) : ResizesExactly kernel p n := by
  obtain ⟨grown, hgrown⟩ := Int.eq_ofNat_of_zero_le (show 0 ≤ (kernel.proc p).sz + n by omega)
  have hlimit := hcovers.limit
  have hword : Word.ofInt ((kernel.proc p).sz + n) = grown := by
    rw [hgrown]
    apply Word.ofInt_natCast
    unfold heapLimit at hlimit
    unfold Word.size
    omega
  have hcall := @grow_eq kernel p n hpos
  rw [hword] at hcall
  by_cases hfits : grown < heapLimit
  · have hsz : (kernel.proc p).sz < heapLimit := by omega
    have hless : (kernel.proc p).sz < grown := by omega
    have habsent (b : ℕ) (hround : pgRoundUp (kernel.proc p).sz ≤ b) (hb : b < heapLimit) :=
      absent_of_covers hcovers hsz hb hround
    obtain ⟨next, ok, halloc, hok, hdone, hfailed⟩ :=
      @allocuvm_outcome ⟨kernel.kmem, (kernel.proc p).pgdir⟩ _ _ hless.le hfits habsent
    have hcan : kernel.CanResize p n ↔ ok = true := by
      rw [hok]
      constructor
      · intro h
        have hmemory := h.memory hpos
        rw [hgrown] at hmemory
        exact hmemory
      · intro h
        refine ⟨by omega, by omega, fun _ ↦ ?_⟩
        rw [hgrown]
        exact h
    rw [halloc, ok_bind] at hcall
    cases ok with
    | true =>
      have hnonzero : grown ≠ 0 := by omega
      rw [if_pos rfl] at hcall
      dsimp only at hcall
      rw [if_neg hnonzero] at hcall
      refine ⟨fun _ ↦ ⟨_, hcall, ?_⟩, fun h ↦ absurd (hcan.mpr rfl) h⟩
      obtain ⟨frames, hlength, hentered⟩ := hdone rfl
      exact grow_sizeChanged hcovers hgrown hless hfits
        (hentered.growsTo hless.le hfits habsent hlength)
    | false =>
      refine ⟨fun h ↦ absurd (hcan.mp h) Bool.false_ne_true, fun _ ↦ ⟨_, hcall, ?_⟩⟩
      exact commit_sizeKept (hfailed rfl).translate
  · have halloc : allocuvm ⟨kernel.kmem, (kernel.proc p).pgdir⟩ (kernel.proc p).sz grown =
        .ok (⟨kernel.kmem, (kernel.proc p).pgdir⟩, 0) := by
      unfold allocuvm
      rw [if_pos (by omega)]
      rfl
    rw [halloc] at hcall
    refine ⟨fun h ↦ ?_, fun _ ↦ ⟨_, hcall, commit_sizeKept fun _ _ ↦ rfl⟩⟩
    have hbelow := h.limit
    omega

theorem shrink_eq (hneg : n < 0) : growproc kernel p n = (do
    let (vm, sz) ← deallocuvm ⟨kernel.kmem, (kernel.proc p).pgdir⟩ (kernel.proc p).sz
      (Word.ofInt ((kernel.proc p).sz + n))
    if sz = 0 then pure (growproc.commit p kernel (kernel.proc p) vm (kernel.proc p).sz, -1)
    else pure (growproc.commit p kernel (kernel.proc p) vm sz, 0)) := by
  unfold growproc
  rw [if_neg (by omega), if_pos hneg]

/-- A size below zero wraps around, and nothing is released. -/
theorem shrink_below_zero (hlimit : (kernel.proc p).sz ≤ heapLimit) (hlow : -2 ^ 31 ≤ n)
    (hbelow : (kernel.proc p).sz + n < 0) : growproc kernel p n =
      .ok (growproc.commit p kernel (kernel.proc p) ⟨kernel.kmem, (kernel.proc p).pgdir⟩
        (kernel.proc p).sz, if (kernel.proc p).sz = 0 then -1 else 0) := by
  have hwraps : (kernel.proc p).sz ≤ Word.ofInt ((kernel.proc p).sz + n) := by
    unfold Word.ofInt Word.size
    unfold heapLimit at hlimit
    omega
  rw [shrink_eq (by omega), deallocuvm, if_pos hwraps]
  dsimp only
  split
  · rename_i hzero
    rw [pure_eq_ok, ok_bind]
    rw [if_pos hzero]
    rfl
  · rename_i hzero
    rw [pure_eq_ok, ok_bind]
    rw [if_neg hzero]
    rfl

theorem shrink_sizeChanged {next : Vm} {shrunk : ℕ}
    (hcovers : (kernel.proc p).pgdir.Covers (kernel.proc p).sz)
    (hshrunk : ((kernel.proc p).sz : ℤ) + n = shrunk) (hless : shrunk < (kernel.proc p).sz)
    (h : deallocuvm ⟨kernel.kmem, (kernel.proc p).pgdir⟩ (kernel.proc p).sz shrunk =
      .ok (next, shrunk)) :
    SizeChanged kernel p n (growproc.commit p kernel (kernel.proc p) next shrunk) := by
  have hlimit := hcovers.limit
  obtain ⟨haligned, hup, hdown⟩ := pgRoundUp_spec ((hless.le.trans hlimit).trans (by decide))
  refine ⟨commit_othersKept _ _, ?_, ?_, fun b hb hkept ↦ ?_, fun b hsz hbelow ↦ ?_⟩
  · rw [commit_proc]
    exact hshrunk.symm
  · rw [commit_proc]
    refine ⟨hless.le.trans hlimit, fun b hb ↦ ?_⟩
    have hsee := deallocuvm_translate hlimit hless h (lt_trans hb (by decide))
    dsimp only
    rw [Pgdir.isPresent_eq_isSome, hsee]
    split
    · rename_i hin
      refine iff_of_false Bool.false_ne_true ?_
      unfold pgSize at *
      omega
    · rw [← Pgdir.isPresent_eq_isSome, hcovers.pages b hb]
      unfold pgSize at *
      omega
  · rw [commit_proc] at hkept ⊢
    dsimp only at hkept ⊢
    rw [deallocuvm_translate hlimit hless h hb, if_neg]
    unfold heapLimit pgSize at *
    omega
  · rw [commit_proc] at hbelow
    dsimp only at hbelow
    omega

/-- The pages that a smaller size releases are pages of the allocator. -/
def ReleasesFrames (kernel : Kernel) (p : ℕ) (n : ℤ) : Prop :=
  ∀ b, pgRoundUp ((kernel.proc p).sz + n).toNat ≤ b → b < (kernel.proc p).sz →
    IsFrame (p2v (pteAddr ((kernel.proc p).pgdir.pte b)))

theorem shrink_exact_iff (hcovers : (kernel.proc p).pgdir.Covers (kernel.proc p).sz)
    (hneg : n < 0) (hpos : 0 < (kernel.proc p).sz + n) :
    ResizesExactly kernel p n ↔ ReleasesFrames kernel p n := by
  obtain ⟨shrunk, hshrunk⟩ := Int.eq_ofNat_of_zero_le hpos.le
  have hlimit := hcovers.limit
  have hless : shrunk < (kernel.proc p).sz := by omega
  have hword : Word.ofInt ((kernel.proc p).sz + n) = shrunk := by
    rw [hshrunk]
    apply Word.ofInt_natCast
    unfold heapLimit at hlimit
    unfold Word.size
    omega
  have hcall := @shrink_eq kernel p n hneg
  rw [hword] at hcall
  have hcan : kernel.CanResize p n := ⟨hpos.le, by omega, fun h ↦ absurd h (by omega)⟩
  have hreleases : ReleasesFrames kernel p n ↔ ∃ next,
      deallocuvm ⟨kernel.kmem, (kernel.proc p).pgdir⟩ (kernel.proc p).sz shrunk =
        .ok (next, shrunk) := by
    rw [deallocuvm_returns_iff (hlimit.trans (by decide)) hless, ReleasesFrames, hshrunk]
    apply forall₃_congr
    intro b _ hb
    have hpresent := (hcovers.pages b (lt_of_lt_of_le hb hlimit)).mpr
      (lt_of_le_of_lt (Nat.div_mul_le_self b pgSize) hb)
    exact ⟨fun h _ ↦ h, fun h ↦ h hpresent⟩
  rw [hreleases]
  constructor
  · intro h
    obtain ⟨kernel', hok, -⟩ := h.resizes hcan
    rw [hcall] at hok
    obtain ⟨⟨next, sz⟩, hdealloc, -⟩ := bind_eq_ok.mp hok
    have hsize := deallocuvm_size hlimit hdealloc
    rw [Nat.min_eq_right hless.le] at hsize
    exact ⟨next, hsize ▸ hdealloc⟩
  · rintro ⟨next, hdealloc⟩
    rw [hdealloc, ok_bind] at hcall
    dsimp only at hcall
    rw [if_neg (by omega)] at hcall
    exact ⟨fun _ ↦ ⟨_, hcall, shrink_sizeChanged hcovers hshrunk hless hdealloc⟩,
      fun h ↦ absurd hcan h⟩

/-- A size of zero is reported as an error. -/
theorem not_exact_to_zero (hcovers : (kernel.proc p).pgdir.Covers (kernel.proc p).sz)
    (hneg : n < 0) (hzero : (kernel.proc p).sz + n = 0) : ¬ ResizesExactly kernel p n := by
  intro h
  have hlimit := hcovers.limit
  obtain ⟨kernel', hok, -⟩ :=
    h.resizes ⟨hzero.ge, by rw [hzero]; decide, fun h ↦ absurd h (by omega)⟩
  rw [shrink_eq hneg, hzero] at hok
  obtain ⟨⟨next, sz⟩, hdealloc, hrest⟩ := bind_eq_ok.mp hok
  have hsize : sz = 0 := by
    rw [deallocuvm_size hlimit hdealloc]
    exact Nat.min_zero _
  dsimp only at hrest
  rw [if_pos hsize] at hrest
  exact absurd (Prod.mk.inj (Except.ok.inj hrest)).2 (by decide)

theorem not_exact_below_zero (hlimit : (kernel.proc p).sz ≤ heapLimit) (hlow : -2 ^ 31 ≤ n)
    (hbelow : (kernel.proc p).sz + n < 0) (hsize : (kernel.proc p).sz ≠ 0) :
    ¬ ResizesExactly kernel p n := by
  intro h
  obtain ⟨kernel', hok, -⟩ := h.refuses fun hcan ↦ absurd hcan.nonneg (by omega)
  rw [shrink_below_zero hlimit hlow hbelow, if_neg hsize] at hok
  exact absurd (Prod.mk.inj (Except.ok.inj hok)).2 (by decide)

theorem shrink_empty_exact (hlow : -2 ^ 31 ≤ n) (hneg : n < 0) (hempty : (kernel.proc p).sz = 0) :
    ResizesExactly kernel p n := by
  have hbelow : (kernel.proc p).sz + n < 0 := by omega
  have hcall := shrink_below_zero (hempty.trans_le (Nat.zero_le _)) hlow hbelow
  rw [if_pos hempty] at hcall
  exact ⟨fun hcan ↦ absurd hcan.nonneg (by omega),
    fun _ ↦ ⟨_, hcall, commit_sizeKept fun _ _ ↦ rfl⟩⟩

theorem keep_exact_iff (hcovers : (kernel.proc p).pgdir.Covers (kernel.proc p).sz) :
    ResizesExactly kernel p 0 ↔ (kernel.proc p).sz < heapLimit := by
  have hcall : growproc kernel p 0 = .ok (kernel, 0) := rfl
  constructor
  · intro h
    by_contra hlimit
    obtain ⟨kernel', hok, -⟩ := h.refuses fun hcan ↦ by
      have hbelow := hcan.limit
      omega
    rw [hcall] at hok
    exact absurd (Prod.mk.inj (Except.ok.inj hok)).2 (by decide)
  · intro hlimit
    have hcan : kernel.CanResize p 0 := ⟨by omega, by omega, fun h ↦ absurd h (lt_irrefl 0)⟩
    refine ⟨fun _ ↦ ⟨kernel, hcall, ⟨rfl, fun _ _ ↦ rfl⟩, (add_zero _).symm, hcovers,
      fun _ _ _ ↦ rfl, fun b hsz hbelow ↦ absurd hbelow (Nat.not_lt.mpr hsz)⟩,
      fun h ↦ absurd hcan h⟩

end Growproc

/-- The call is exact if and only if it grows the process, or leaves a size below `HEAPLIMIT` as it
is, or shrinks an empty process, or shrinks the process to a size other than zero and releases pages
of the allocator. -/
theorem growproc_exact_iff {kernel : Kernel} {p : ℕ} {n : ℤ}
    (hcovers : (kernel.proc p).pgdir.Covers (kernel.proc p).sz) (hlow : -2 ^ 31 ≤ n)
    (hhigh : n < 2 ^ 31) :
    ResizesExactly kernel p n ↔
      0 < n ∨ n = 0 ∧ (kernel.proc p).sz < heapLimit ∨ n < 0 ∧ ((kernel.proc p).sz = 0 ∨
        0 < (kernel.proc p).sz + n ∧ Growproc.ReleasesFrames kernel p n) := by
  have hlimit := hcovers.limit
  rcases lt_trichotomy n 0 with hneg | rfl | hpos
  · by_cases hsize : 0 < (kernel.proc p).sz + n
    · rw [Growproc.shrink_exact_iff hcovers hneg hsize]
      constructor
      · intro h
        exact Or.inr (Or.inr ⟨hneg, Or.inr ⟨hsize, h⟩⟩)
      · rintro (h | ⟨h, -⟩ | ⟨-, h | ⟨-, h⟩⟩)
        · omega
        · omega
        · omega
        · exact h
    · by_cases hempty : (kernel.proc p).sz = 0
      · refine iff_of_true (Growproc.shrink_empty_exact hlow hneg hempty)
          (Or.inr (Or.inr ⟨hneg, Or.inl hempty⟩))
      · refine iff_of_false ?_ (by omega)
        by_cases hzero : (kernel.proc p).sz + n = 0
        · exact Growproc.not_exact_to_zero hcovers hneg hzero
        · exact Growproc.not_exact_below_zero hlimit hlow (by omega) hempty
  · rw [Growproc.keep_exact_iff hcovers]
    constructor
    · intro h
      exact Or.inr (Or.inl ⟨rfl, h⟩)
    · rintro (h | ⟨-, h⟩ | ⟨h, -⟩)
      · omega
      · exact h
      · omega
  · exact iff_of_true (Growproc.grow_exact hcovers hhigh hpos) (Or.inl hpos)

theorem startKernel_covers {count : ℕ} (hcount : count ≤ 10000) :
    ((startKernel count hcount).proc 2).pgdir.Covers ((startKernel count hcount).proc 2).sz :=
  ⟨Nat.zero_le _, fun b _ ↦ iff_of_false (by simp [startKernel, startProc, Pgdir.pte])
    (Nat.not_lt_zero _)⟩

theorem growproc_exact_first_page : ResizesExactly (startKernel 3) 2 4096 :=
  (growproc_exact_iff (startKernel_covers _) (by decide) (by decide)).mpr (Or.inl (by decide))

/-- Shrinking a process of one page to nothing releases the page, returns -1 and keeps the size. -/
theorem growproc_to_zero_loses_page : ∃ kernel kernel',
    (kernel.proc 2).pgdir.Covers (kernel.proc 2).sz ∧ (kernel.proc 2).sz = 4096 ∧
      growproc kernel 2 (-4096) = .ok (kernel', -1) ∧ (kernel'.proc 2).sz = 4096 ∧
      isPresent ((kernel'.proc 2).pgdir.pte 0) = false := by
  obtain ⟨kernel, hgrow, hsize, kernel', hshrink, hsize', habsent⟩ : ∃ kernel,
      growproc (startKernel 3) 2 4096 = .ok (kernel, 0) ∧ (kernel.proc 2).sz = 4096 ∧
      ∃ kernel', growproc kernel 2 (-4096) = .ok (kernel', -1) ∧ (kernel'.proc 2).sz = 4096 ∧
        isPresent ((kernel'.proc 2).pgdir.pte 0) = false := by
    decide +kernel
  have hexact := Growproc.grow_exact (startKernel_covers (by decide : 3 ≤ 10000))
    (by decide : (4096 : ℤ) < 2 ^ 31) (by decide)
  have hcovers : (kernel.proc 2).pgdir.Covers (kernel.proc 2).sz := by
    by_cases hcan : (startKernel 3).CanResize 2 4096
    · obtain ⟨grown, hcall, hchanged⟩ := hexact.resizes hcan
      cases hgrow.symm.trans hcall
      exact hchanged.covers
    · obtain ⟨kept, hcall, -⟩ := hexact.refuses hcan
      cases hgrow.symm.trans hcall
  exact ⟨kernel, kernel', hcovers, hsize, hshrink, hsize', habsent⟩

end Xv6Shm
