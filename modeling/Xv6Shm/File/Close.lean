import Xv6Shm.File.Balance
import Xv6Shm.Memory.Teardown

/-!
# Closing a file

What the functions on the file table and on a descriptor table do, one equation for each way they
can go, and that `fileclose` gives back one reference and, with the last one, what the file holds.
-/

namespace Xv6Shm.OpenFiles

open Fallible Function

variable {Inode : Type} {files : OpenFiles Inode} {f : Fin nFile} {p : Fin nProc} {fd : Fin nOfile}

theorem filealloc_cases (files : OpenFiles Inode) : filealloc files = .ok (none, files) ∨
      ∃ f, (files.file f).ref = 0 ∧ filealloc files = .ok (some f, files.setRef f 1) := by
  cases hfind : (List.finRange nFile).find? fun f ↦ (files.file f).ref == 0 with
  | none =>
    left
    apply Ends.eq_ok
    rw [filealloc, ends_bind, ends_get, hfind]
    exact ⟨rfl, rfl⟩
  | some f =>
    right
    refine ⟨f, by simpa using List.find?_some hfind, ?_⟩
    apply Ends.eq_ok
    rw [filealloc, ends_bind, ends_get, hfind]
    exact ⟨rfl, rfl⟩

theorem fdalloc_cases (files : OpenFiles Inode) (p : Fin nProc) (f : Fin nFile) :
    fdalloc p f files = .ok (none, files) ∨ ∃ fd, files.ofile (p, fd) = none ∧
      fdalloc p f files = .ok (some fd, files.setSlot p fd (some f)) := by
  cases hfind : (List.finRange nOfile).find? fun fd ↦ files.ofile (p, fd) == none with
  | none =>
    left
    apply Ends.eq_ok
    rw [fdalloc, ends_bind, ends_get, hfind]
    exact ⟨rfl, rfl⟩
  | some fd =>
    right
    refine ⟨fd, by simpa using List.find?_some hfind, ?_⟩
    apply Ends.eq_ok
    rw [fdalloc, ends_bind, ends_get, hfind]
    exact ⟨rfl, rfl⟩

theorem kalloc_cases (files : OpenFiles Inode) :
    kalloc files = .ok (none, files) ∨ ∃ page kmem, files.kmem.kalloc = some (page, kmem) ∧
      kalloc files = .ok (some page, { files with kmem := kmem }) := by
  cases hkalloc : files.kmem.kalloc with
  | none =>
    left
    apply Ends.eq_ok
    rw [kalloc, ends_bind, ends_get, hkalloc]
    exact ⟨rfl, rfl⟩
  | some pair =>
    right
    refine ⟨pair.1, pair.2, rfl, ?_⟩
    apply Ends.eq_ok
    rw [kalloc, ends_bind, ends_get, hkalloc]
    exact ⟨rfl, rfl⟩

variable {page : ℕ}

theorem kfree_eq {kmem : Kmem} (h : files.kmem.kfree page = .ok kmem) :
    kfree page files = .ok ((), { files with kmem := kmem }) := by
  apply Ends.eq_ok
  rw [kfree, ends_bind, ends_get, h]
  exact ⟨rfl, rfl⟩

theorem argfd_eq {arg : ℤ} (h : files.argfd p arg = some (fd, f)) :
    files.ofile (p, fd) = some f := by
  unfold argfd at h
  split at h
  · obtain ⟨g, hg, hpair⟩ := Option.map_eq_some_iff.mp h
    cases hpair
    exact hg
  · cases h

theorem filedup_eq (h : (files.file f).ref ≠ 0) :
    filedup f files = .ok ((), files.setRef f ((files.file f).ref + 1)) := by
  apply Ends.eq_ok
  rw [filedup, ends_bind, ends_get, if_neg (by omega)]
  exact ⟨rfl, rfl⟩

/-- What is left after one end of a pipe is shut. -/
def afterShut (files : OpenFiles Inode) (page : ℕ) (writable : Bool) (kmem : Kmem) :
    OpenFiles Inode :=
  { files.setEnds page ((files.ends page).shut writable) with kmem := kmem }

theorem pipeclose_first {w : Bool} (h : (files.ends page).isOpen (!w) = true) :
    pipeclose page w files = .ok ((), files.afterShut page w files.kmem) := by
  apply Ends.eq_ok
  rw [pipeclose, ends_bind, ends_get, ends_bind, ends_set,
    if_neg (mt (PipeEnds.shut_both _ _).mp (by simp [h]))]
  exact ⟨rfl, rfl⟩

theorem pipeclose_last {w : Bool} {kmem : Kmem}
    (h : (files.ends page).isOpen (!w) = false) (hkfree : files.kmem.kfree page = .ok kmem) :
    pipeclose page w files = .ok ((), files.afterShut page w kmem) := by
  have hfreed : kfree page (files.setEnds page ((files.ends page).shut w)) =
      .ok ((), files.afterShut page w kmem) := kfree_eq hkfree
  apply Ends.eq_ok
  rw [pipeclose, ends_bind, ends_get, ends_bind, ends_set,
    if_pos ((PipeEnds.shut_both _ _).mpr h), hfreed]
  exact ⟨rfl, rfl⟩

variable [DecidableEq Inode]

theorem fileclose_many (h : 1 < (files.file f).ref) :
    fileclose f files = .ok ((), files.setRef f ((files.file f).ref - 1)) := by
  apply Ends.eq_ok
  rw [fileclose, ends_bind, ends_get, if_neg (by omega), if_pos (by omega)]
  exact ⟨rfl, rfl⟩

theorem fileclose_none (h : (files.file f).ref = 1) (htype : (files.file f).type = .none) :
    fileclose f files = .ok ((), files.vacate f) := by
  apply Ends.eq_ok
  rw [fileclose, ends_bind, ends_get, if_neg (by omega), if_neg (by omega), ends_bind, ends_set,
    htype]
  exact ⟨rfl, rfl⟩

theorem fileclose_inode (h : (files.file f).ref = 1) (htype : (files.file f).type = .inode) :
    fileclose f files = .ok ((), (files.vacate f).addInodeRef (files.file f).ip (-1)) := by
  apply Ends.eq_ok
  rw [fileclose, ends_bind, ends_get, if_neg (by omega), if_neg (by omega), ends_bind, ends_set,
    htype]
  exact ⟨rfl, rfl⟩

theorem fileclose_pipe {files' : OpenFiles Inode} (h : (files.file f).ref = 1)
    (htype : (files.file f).type = .pipe)
    (hclose : pipeclose (files.file f).pipe (files.file f).writable (files.vacate f) =
      .ok ((), files')) : fileclose f files = .ok ((), files') := by
  apply Ends.eq_ok
  rw [fileclose, ends_bind, ends_get, if_neg (by omega), if_neg (by omega), ends_bind, ends_set,
    htype]
  dsimp only
  rw [hclose]
  exact ⟨rfl, rfl⟩

/-- The descriptors, directories and states of the processes and the pages of the rest of the kernel
are the same. -/
structure SameTables (files files' : OpenFiles Inode) : Prop where
  ofile : files'.ofile = files.ofile
  cwd : files'.cwd = files.cwd
  state : files'.state = files.state
  initproc : files'.initproc = files.initproc
  others : files'.others = files.others

section Close

variable {pages : List ℕ} {loose : Fin nFile → ℤ} {held : Inode → ℤ}

omit [DecidableEq Inode] in
theorem pipeOf_vacate (files : OpenFiles Inode) (f : Fin nFile) :
    (files.vacate f).pipeOf = update files.pipeOf f none := pipeOf_setFile _ _ _

omit [DecidableEq Inode] in
theorem pipeOf_vacate_of_ne (h : (files.file f).type ≠ .pipe) :
    (files.vacate f).pipeOf = files.pipeOf := by
  have hbefore : files.pipeOf f = none := File.pipeOf_of_ne h
  rw [pipeOf_vacate, ← hbefore, update_eq_self]

theorem Counted.vacate (h : Counted loose held files) (href : (files.file f).ref = 1) :
    Counted (loose - Pi.single f 1) (fun ip ↦ held ip + refersTo (files.inodeOf f) ip)
      (files.vacate f) := by
  have hfile : Counted _ _ (files.vacate f) := h.setFile fun _ ↦ rfl
  refine hfile.congr (fun g ↦ ?_) fun ip ↦ ?_
  · rw [href, sub_eq_add_neg, ← Pi.single_neg]
    rfl
  · have hnone : ({ files.file f with ref := 0, type := .none } : File Inode).inodeOf = none :=
      File.inodeOf_of_ne fun htype ↦ nomatch htype
    rw [hnone, refersTo_none, sub_zero]

theorem filedup_ends (h : Balanced pages loose held files) (href : (files.file f).ref ≠ 0) :
    Ends (fun _ ↦ False) (fun _ files' ↦
      Balanced pages (loose + Pi.single f 1) held files' ∧ SameTables files files')
      (filedup f files) := by
  rw [filedup_eq href, ends_ok]
  have hbalanced : Balanced _ _ _ (files.setRef f ((files.file f).ref + 1)) :=
    h.setRef fun hzero ↦ absurd hzero (by omega)
  have hcount : (((files.file f).ref + 1 : ℕ) : ℤ) - (files.file f).ref = 1 := by omega
  rw [hcount] at hbalanced
  exact ⟨hbalanced, rfl, rfl, rfl, rfl, rfl⟩

/-- Closing drops a loose reference, and with the last one what the file holds. -/
theorem fileclose_ends (h : Balanced pages loose held files) (href : (files.file f).ref ≠ 0) :
    Ends (fun _ ↦ False) (fun _ files' ↦
      Balanced pages (loose - Pi.single f 1) held files' ∧ SameTables files files')
      (fileclose f files) := by
  by_cases hmany : 1 < (files.file f).ref
  · rw [fileclose_many hmany, ends_ok]
    have hbalanced : Balanced _ _ _ (files.setRef f ((files.file f).ref - 1)) :=
      h.setRef fun hzero ↦ absurd hzero (by omega)
    have hcount : (((files.file f).ref - 1 : ℕ) : ℤ) - (files.file f).ref = -1 := by omega
    rw [hcount, Pi.single_neg, ← sub_eq_add_neg] at hbalanced
    exact ⟨hbalanced, rfl, rfl, rfl, rfl, rfl⟩
  · have hlast : (files.file f).ref = 1 := by omega
    have hcounted := h.toCounted.vacate hlast
    cases htype : (files.file f).type with
    | none =>
      have hinode : files.inodeOf f = none := File.inodeOf_of_ne (by rw [htype]; decide)
      rw [fileclose_none hlast htype, ends_ok]
      refine ⟨⟨hcounted.congr (fun _ ↦ rfl) fun ip ↦ ?_, ?_⟩, rfl, rfl, rfl, rfl, rfl⟩
      · rw [hinode, refersTo_none, add_zero]
      · rw [pipeOf_vacate_of_ne (by rw [htype]; decide)]
        exact h.pipes
    | inode =>
      have hinode : files.inodeOf f = some (files.file f).ip := File.inodeOf_of_inode htype
      rw [fileclose_inode hlast htype, ends_ok]
      refine ⟨⟨(hcounted.addInodeRef (files.file f).ip (-1)).congr (fun _ ↦ rfl) fun ip ↦ ?_, ?_⟩,
        rfl, rfl, rfl, rfl, rfl⟩
      · rw [Pi.add_apply, hinode, refersTo_some, Pi.single_neg, Pi.neg_apply, add_neg_cancel_right]
      · change PipesExact pages (files.vacate f).pipeOf files.ends files.freePages
        rw [pipeOf_vacate_of_ne (by rw [htype]; decide)]
        exact h.pipes
    | pipe =>
      have hinode : files.inodeOf f = none := File.inodeOf_of_ne (by rw [htype]; decide)
      have hpipe := File.pipeOf_of_pipe htype
      have hclosed := h.pipes.close hpipe
      have hcounts (kmem : Kmem) : Counted (loose - Pi.single f 1) held
          ((files.vacate f).afterShut (files.file f).pipe (files.file f).writable kmem) := by
        have hsame := hcounted.congr (fun _ ↦ rfl) fun ip ↦ by rw [hinode, refersTo_none, add_zero]
        exact ⟨hsame.ref, hsame.vacant, hsame.inodes⟩
      cases hopen : (files.ends (files.file f).pipe).isOpen (!(files.file f).writable) with
      | true =>
        rw [fileclose_pipe hlast htype (pipeclose_first hopen), ends_ok]
        rw [hopen, if_neg (by decide), ← pipeOf_vacate] at hclosed
        exact ⟨⟨hcounts _, hclosed⟩, rfl, rfl, rfl, rfl, rfl⟩
      | false =>
        obtain ⟨kmem, hkfree, hfree⟩ := files.kmem.kfree_of_isFrame (h.pipes.inUse f _ _ hpipe).1
        rw [fileclose_pipe hlast htype (pipeclose_last hopen hkfree), ends_ok]
        rw [hopen, if_pos rfl, ← pipeOf_vacate] at hclosed
        refine ⟨⟨hcounts _, ?_⟩, rfl, rfl, rfl, rfl, rfl⟩
        have hpages : ((files.vacate f).afterShut (files.file f).pipe (files.file f).writable
            kmem).freePages = (files.file f).pipe ::ₘ files.freePages := by
          change (kmem.freelist : Multiset ℕ) + files.others = _
          rw [hfree]
          rfl
        rw [hpages]
        exact hclosed

end Close

end Xv6Shm.OpenFiles
