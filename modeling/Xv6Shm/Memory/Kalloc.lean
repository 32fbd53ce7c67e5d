import Xv6Shm.Lib.Fallible
import Xv6Shm.Memory.Layout

/-!
# The physical page allocator

`kalloc.c`: the free list is a stack of page addresses in the kernel's direct map, whose bytes are a
function of the address. `kfree` panics on every address that is not a page between the end of the
kernel image and `PHYSTOP`.

A call that does not return is a `Fault`. An access outside an array of the kernel and the use of a
null pointer are kept apart from a panic, because the C program would go on with other memory;
`blocked` is a call that waits.
-/

namespace Xv6Shm

/-- The arrays of the kernel whose index is not a constant or a bounded counter. -/
inductive KernelArray where
  | shmSegs
  | attachedShmsegs
  | lhBlock
deriving DecidableEq, Repr

inductive Fault where
  | panic (message : String)
  | outOfBounds (array : KernelArray)
  | nullPointer
  | blocked
deriving DecidableEq, Repr

/-- The pages the allocator deals in: exactly the addresses `kfree` accepts. -/
structure IsFrame (v : ℕ) : Prop where
  aligned : v % pgSize = 0
  above_kernel : kernEnd ≤ v
  below_physTop : v2p v < physTop
  isWord : v < Word.size

instance (v : ℕ) : Decidable (IsFrame v) :=
  decidable_of_iff (v % pgSize = 0 ∧ kernEnd ≤ v ∧ v2p v < physTop ∧ v < Word.size)
    ⟨fun h ↦ ⟨h.1, h.2.1, h.2.2.1, h.2.2.2⟩,
      fun h ↦ ⟨h.aligned, h.above_kernel, h.below_physTop, h.isWord⟩⟩

variable {v : ℕ}

theorem IsFrame.kernBase_le (h : IsFrame v) : kernBase ≤ v := by
  have habove := h.above_kernel
  unfold kernEnd at habove
  unfold kernBase
  omega

theorem IsFrame.v2p_eq (h : IsFrame v) : v2p v = v - kernBase :=
  v2p_of_ge h.kernBase_le h.isWord

theorem IsFrame.v2p_ne_zero (h : IsFrame v) : v2p v ≠ 0 := by
  have habove := h.above_kernel
  rw [h.v2p_eq]
  unfold kernEnd at habove
  unfold kernBase
  omega

theorem IsFrame.v2p_aligned (h : IsFrame v) : v2p v % pgSize = 0 := by
  have haligned := h.aligned
  rw [h.v2p_eq]
  unfold pgSize kernBase at *
  omega

/-- The allocator; only pages of its own are on the free list. -/
structure Kmem where
  freelist : List ℕ
  bytes : ℕ → UInt8
  isFrame : ∀ v ∈ freelist, IsFrame v

namespace Kmem

/-- Store `value` in the `count` bytes from `start`. -/
def memset (kmem : Kmem) (start : ℕ) (value : UInt8) (count : ℕ) : Kmem :=
  { kmem with bytes := fun a ↦ if start ≤ a ∧ a < start + count then value else kmem.bytes a }

/-- Copy `count` bytes from `source` to `start`. -/
def memmove (kmem : Kmem) (start source count : ℕ) : Kmem :=
  { kmem with bytes := fun a ↦
      if start ≤ a ∧ a < start + count then kmem.bytes (source + (a - start)) else kmem.bytes a }

/-- Store a string of bytes from `start` on. -/
def write (kmem : Kmem) (start : ℕ) (content : List UInt8) : Kmem :=
  { kmem with bytes := fun a ↦
      if start ≤ a then (content[a - start]?).getD (kmem.bytes a) else kmem.bytes a }

@[simp] theorem memset_freelist (kmem : Kmem) (start : ℕ) (value : UInt8) (count : ℕ) :
    (kmem.memset start value count).freelist = kmem.freelist := rfl

@[simp] theorem write_freelist (kmem : Kmem) (start : ℕ) (content : List UInt8) :
    (kmem.write start content).freelist = kmem.freelist := rfl

/-- Take the page at the head of the free list, if there is one. -/
def kalloc (kmem : Kmem) : Option (ℕ × Kmem) :=
  match hfree : kmem.freelist with
  | [] => none
  | r :: next =>
    have hnext (v : ℕ) (hv : v ∈ next) : IsFrame v :=
      kmem.isFrame v (hfree ▸ List.mem_cons_of_mem r hv)
    some (r, { kmem with freelist := next, isFrame := hnext })

/-- Put a page on the free list. -/
def push (kmem : Kmem) (v : ℕ) (hframe : IsFrame v) : Kmem :=
  { kmem with
    freelist := v :: kmem.freelist
    isFrame := List.forall_mem_cons.mpr ⟨hframe, kmem.isFrame⟩ }

/-- Put the page at `v` back on the free list, filled with junk. -/
def kfree (kmem : Kmem) (v : ℕ) : Except Fault Kmem :=
  if hframe : IsFrame v then pure ((kmem.memset v 1 pgSize).push v hframe)
  else .error (.panic "kfree")

variable {kmem next : Kmem} {v : ℕ}

theorem kalloc_eq_some {page : ℕ} : kmem.kalloc = some (page, next) ↔
      kmem.freelist = page :: next.freelist ∧ next.bytes = kmem.bytes := by
  obtain ⟨freelist, bytes, hframe⟩ := kmem
  obtain ⟨nextList, nextBytes, hnextFrame⟩ := next
  cases freelist with
  | nil => simp [kalloc]
  | cons head tail => simp [kalloc, and_assoc, eq_comm]

theorem kalloc_eq_none : kmem.kalloc = none ↔ kmem.freelist = [] := by
  obtain ⟨freelist, bytes, hframe⟩ := kmem
  cases freelist <;> simp [kalloc]

theorem isFrame_of_kalloc {page : ℕ} (h : kmem.kalloc = some (page, next)) : IsFrame page := by
  apply kmem.isFrame
  rw [(kalloc_eq_some.mp h).1]
  exact List.mem_cons_self

theorem kfree_eq_ok : kmem.kfree v = .ok next ↔
      ∃ hframe : IsFrame v, next = (kmem.memset v 1 pgSize).push v hframe := by
  unfold kfree
  split
  · rename_i hframe
    constructor
    · intro hok
      cases hok
      exact ⟨hframe, rfl⟩
    · rintro ⟨-, rfl⟩
      rfl
  · rename_i hframe
    constructor
    · intro hok
      cases hok
    · rintro ⟨hframe', -⟩
      exact absurd hframe' hframe

theorem kfree_freelist (h : kmem.kfree v = .ok next) :
    next.freelist = v :: kmem.freelist := by
  obtain ⟨hframe, rfl⟩ := kfree_eq_ok.mp h
  rfl

theorem kfree_below (h : v < kernEnd) : kmem.kfree v = .error (.panic "kfree") := by
  unfold kfree
  rw [dif_neg]
  intro hframe
  exact absurd hframe.above_kernel (Nat.not_le.mpr h)

end Kmem

end Xv6Shm
