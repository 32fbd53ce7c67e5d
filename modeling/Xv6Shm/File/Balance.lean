import Mathlib.Algebra.Group.Pi.Lemmas
import Xv6Shm.File.Pipes

/-!
# Counts and what they count

`Balanced` compares the count of every file with the descriptors that name it, the count of every
inode with the files and directories that refer to it, and the pipes with the files that are their
ends, up to a number of loose references, which is zero between calls.
-/

namespace Xv6Shm

open Function

namespace File

variable {Inode : Type} {file : File Inode}

/-- The inode that a file holds. -/
def inodeOf (file : File Inode) : Option Inode := if file.type = .inode then some file.ip else none

/-- The end of a pipe that a file is. -/
def pipeOf (file : File Inode) : Option (ℕ × Bool) :=
  if file.type = .pipe then some (file.pipe, file.writable) else none

theorem inodeOf_of_inode (h : file.type = .inode) : file.inodeOf = some file.ip := if_pos h

theorem pipeOf_of_pipe (h : file.type = .pipe) : file.pipeOf = some (file.pipe, file.writable) :=
  if_pos h

theorem inodeOf_of_ne (h : file.type ≠ .inode) : file.inodeOf = none := if_neg h

theorem pipeOf_of_ne (h : file.type ≠ .pipe) : file.pipeOf = none := if_neg h

end File

namespace OpenFiles

variable {Inode : Type}

def inodeOf (files : OpenFiles Inode) : Fin nFile → Option Inode := File.inodeOf ∘ files.file

def pipeOf (files : OpenFiles Inode) : Fin nFile → Option (ℕ × Bool) := File.pipeOf ∘ files.file

/-- The pages that are free or with the rest of the kernel. -/
def freePages (files : OpenFiles Inode) : Multiset ℕ := files.kmem.freelist + files.others

section

variable (files : OpenFiles Inode) (f : Fin nFile) (file : File Inode)

include files f file

theorem inodeOf_setFile : (files.setFile f file).inodeOf = update files.inodeOf f file.inodeOf :=
  Function.comp_update _ _ _ _

theorem pipeOf_setFile : (files.setFile f file).pipeOf = update files.pipeOf f file.pipeOf :=
  Function.comp_update _ _ _ _

theorem file_setFile_self : (files.setFile f file).file f = file := update_self _ _ _

end

theorem file_setFile_of_ne (files : OpenFiles Inode) {f g : Fin nFile} (file : File Inode)
    (h : g ≠ f) : (files.setFile f file).file g = files.file g := update_of_ne h _ _

theorem pipeOf_setRef (files : OpenFiles Inode) (f : Fin nFile) (ref : ℕ) :
    (files.setRef f ref).pipeOf = files.pipeOf :=
  (pipeOf_setFile _ _ _).trans (update_eq_self f files.pipeOf)

variable [DecidableEq Inode]

/-- The counts up to loose references to files and to inodes. -/
structure Counted (loose : Fin nFile → ℤ) (held : Inode → ℤ) (files : OpenFiles Inode) : Prop where
  ref : ∀ f, ((files.file f).ref : ℤ) = references files.ofile f + loose f
  vacant : ∀ f, (files.file f).ref = 0 → (files.file f).type = .none
  inodes : ∀ ip, files.iref ip = references files.inodeOf ip + references files.cwd ip + held ip

/-- The counts and the pipes. -/
structure Balanced (pages : List ℕ) (loose : Fin nFile → ℤ) (held : Inode → ℤ)
    (files : OpenFiles Inode) : Prop extends Counted loose held files where
  pipes : PipesExact pages files.pipeOf files.ends files.freePages

namespace Counted

variable {loose loose' : Fin nFile → ℤ} {held held' : Inode → ℤ} {files : OpenFiles Inode}
  {f g : Fin nFile} {p : Fin nProc} {fd : Fin nOfile}

variable (h : Counted loose held files)

include h

theorem congr (hloose : ∀ f, loose' f = loose f)
    (hheld : ∀ ip, held' ip = held ip) : Counted loose' held' files := by
  obtain rfl : loose' = loose := funext hloose
  obtain rfl : held' = held := funext hheld
  exact h

theorem setFile {file : File Inode} (hvacant : file.ref = 0 → file.type = .none) :
    Counted (loose + Pi.single f (file.ref - ((files.file f).ref : ℤ)))
      (fun ip ↦ held ip + refersTo (files.inodeOf f) ip - refersTo file.inodeOf ip)
      (files.setFile f file) where
  ref := by
    intro g
    have hg := h.ref g
    by_cases hgf : g = f
    · subst hgf
      rw [file_setFile_self, Pi.add_apply, Pi.single_eq_same]
      change (file.ref : ℤ) = references files.ofile g + _
      omega
    · rw [file_setFile_of_ne _ _ hgf, Pi.add_apply, Pi.single_eq_of_ne hgf, add_zero]
      exact hg
  vacant := by
    intro g hg
    by_cases hgf : g = f
    · subst hgf
      rw [file_setFile_self] at hg ⊢
      exact hvacant hg
    · rw [file_setFile_of_ne _ _ hgf] at hg ⊢
      exact h.vacant g hg
  inodes := by
    intro ip
    have hip := h.inodes ip
    have hcount := references_update files.inodeOf f file.inodeOf ip
    rw [inodeOf_setFile, hcount]
    change files.iref ip = _ + (references files.cwd ip : ℤ) + _
    omega

theorem setRef {ref : ℕ} (hvacant : ref = 0 → (files.file f).type = .none) :
    Counted (loose + Pi.single f (ref - ((files.file f).ref : ℤ))) held (files.setRef f ref) :=
  (h.setFile hvacant).congr (fun _ ↦ rfl) fun ip ↦ (add_sub_cancel_right (held ip) _).symm

theorem becomePipe {file : File Inode}
    (href : (files.file f).ref = 0) (hone : file.ref = 1) (htype : file.type = .pipe) :
    Counted (loose + Pi.single f 1) held (files.setFile f file) := by
  have hbefore : files.inodeOf f = none := File.inodeOf_of_ne (by rw [h.vacant f href]; decide)
  have hafter : file.inodeOf = none := File.inodeOf_of_ne (by rw [htype]; decide)
  have hfile : Counted _ _ (files.setFile f file) :=
    h.setFile fun hzero ↦ absurd (hone.symm.trans hzero) one_ne_zero
  refine hfile.congr (fun g ↦ ?_) fun ip ↦ ?_
  · rw [hone, href, Nat.cast_one, Nat.cast_zero, sub_zero]
  · rw [hbefore, hafter, add_sub_cancel_right]

theorem setSlot (entry : Option (Fin nFile)) :
    Counted (fun g ↦ loose g + refersTo (files.ofile (p, fd)) g - refersTo entry g) held
      (files.setSlot p fd entry) where
  ref := by
    intro g
    have hg := h.ref g
    have hcount := references_update files.ofile (p, fd) entry g
    unfold OpenFiles.setSlot
    dsimp only
    omega
  vacant := h.vacant
  inodes := h.inodes

theorem addInodeRef (ip : Inode) (count : ℤ) :
    Counted loose (held + Pi.single ip count) (files.addInodeRef ip count) where
  ref := h.ref
  vacant := h.vacant
  inodes := by
    intro other
    change files.iref other + _ = (references files.inodeOf other : ℤ) +
      references files.cwd other + (held other + _)
    rw [h.inodes other, add_assoc]

theorem setCwd (cwd : Option Inode) :
    Counted loose (fun ip ↦ held ip + refersTo (files.cwd p) ip - refersTo cwd ip)
      (files.setCwd p cwd) where
  ref := h.ref
  vacant := h.vacant
  inodes := by
    intro ip
    have hip := h.inodes ip
    have hcount := references_update files.cwd p cwd ip
    change files.iref ip = (references files.inodeOf ip : ℤ) +
      references (update files.cwd p cwd) ip + _
    omega

end Counted

namespace Balanced

variable {pages : List ℕ} {loose : Fin nFile → ℤ} {held : Inode → ℤ} {files : OpenFiles Inode}
  {f : Fin nFile} {p : Fin nProc} {fd : Fin nOfile}

theorem setRef (h : Balanced pages loose held files) {ref : ℕ}
    (hvacant : ref = 0 → (files.file f).type = .none) :
    Balanced pages (loose + Pi.single f (ref - ((files.file f).ref : ℤ))) held
      (files.setRef f ref) where
  toCounted := h.toCounted.setRef hvacant
  pipes := by
    rw [pipeOf_setRef]
    exact h.pipes

theorem setFresh (h : Balanced pages loose held files) (href : (files.file f).ref = 0) :
    Balanced pages (loose + Pi.single f 1) held (files.setRef f 1) := by
  have hbalanced : Balanced _ _ _ (files.setRef f 1) := h.setRef fun hzero ↦ nomatch hzero
  rw [href, Nat.cast_one, Nat.cast_zero, sub_zero] at hbalanced
  exact hbalanced

theorem becomeInode {file : File Inode}
    (h : Balanced pages loose (held + Pi.single file.ip 1) files)
    (hnone : (files.file f).type = .none) (htype : file.type = .inode)
    (href : file.ref = (files.file f).ref) (hpos : (files.file f).ref ≠ 0) :
    Balanced pages loose held (files.setFile f file) where
  toCounted := by
    have hbefore : files.inodeOf f = none := File.inodeOf_of_ne (by rw [hnone]; decide)
    have hcounted : Counted _ _ (files.setFile f file) :=
      h.toCounted.setFile fun hzero ↦ absurd (href.symm.trans hzero) hpos
    refine hcounted.congr (fun g ↦ ?_) fun ip ↦ ?_
    · rw [href, sub_self, Pi.single_zero, add_zero]
    · rw [hbefore, File.inodeOf_of_inode htype, refersTo_none, add_zero, refersTo_some,
        Pi.add_apply, add_sub_cancel_right]
  pipes := by
    have hbefore : files.pipeOf f = none := File.pipeOf_of_ne (by rw [hnone]; decide)
    have hafter : file.pipeOf = none := File.pipeOf_of_ne (by rw [htype]; decide)
    rw [pipeOf_setFile, hafter, ← hbefore, update_eq_self]
    exact h.pipes

section

variable (h : Balanced pages loose held files)

include h

theorem occupy (hslot : files.ofile (p, fd) = none) :
    Balanced pages (loose - Pi.single f 1) held (files.setSlot p fd (some f)) where
  toCounted := (h.toCounted.setSlot (some f)).congr
    (fun g ↦ by rw [hslot, refersTo_none, add_zero, refersTo_some, Pi.sub_apply]) fun _ ↦ rfl
  pipes := h.pipes

theorem release (hslot : files.ofile (p, fd) = some f) :
    Balanced pages (loose + Pi.single f 1) held (files.setSlot p fd none) where
  toCounted := (h.toCounted.setSlot none).congr
    (fun g ↦ by rw [hslot, refersTo_none, sub_zero, refersTo_some, Pi.add_apply]) fun _ ↦ rfl
  pipes := h.pipes

theorem addInodeRef (ip : Inode) (count : ℤ) :
    Balanced pages loose (held + Pi.single ip count) (files.addInodeRef ip count) where
  toCounted := h.toCounted.addInodeRef ip count
  pipes := h.pipes

theorem enter (hcwd : files.cwd p = none) (ip : Inode) :
    Balanced pages loose (held - Pi.single ip 1) (files.setCwd p (some ip)) where
  toCounted := (h.toCounted.setCwd (some ip)).congr (fun _ ↦ rfl)
    fun other ↦ by rw [hcwd, refersTo_none, add_zero, refersTo_some, Pi.sub_apply]
  pipes := h.pipes

theorem leave {ip : Inode} (hcwd : files.cwd p = some ip) :
    Balanced pages loose (held + Pi.single ip 1) (files.setCwd p none) where
  toCounted := (h.toCounted.setCwd none).congr (fun _ ↦ rfl)
    fun other ↦ by rw [hcwd, refersTo_none, sub_zero, refersTo_some, Pi.add_apply]
  pipes := h.pipes

theorem setState (state : ProcState) : Balanced pages loose held (files.setState p state) :=
  ⟨⟨h.ref, h.vacant, h.inodes⟩, h.pipes⟩

end

end Balanced

end OpenFiles

end Xv6Shm
