import Xv6Shm.File.Close

/-!
# Calls on descriptors

`open`, `dup`, `close` and `pipe` keep the counts. A call that fails has given back the inode, the
files and descriptors, and the page of a pipe.
-/

namespace Xv6Shm.OpenFiles

open Fallible Function

variable {Inode : Type} {files files' : OpenFiles Inode} {f : Fin nFile} {p : Fin nProc}
  {fd : Fin nOfile} {pages : List ℕ}

/-- The files, the descriptors and directories, the references to inodes and the pages are as they
were. -/
structure SameCounts (files files' : OpenFiles Inode) : Prop where
  file : ∀ f, (files'.file f).ref = (files.file f).ref ∧ (files'.file f).type = (files.file f).type
  ofile : files'.ofile = files.ofile
  cwd : files'.cwd = files.cwd
  state : files'.state = files.state
  iref : files'.iref = files.iref
  freelist : files'.kmem.freelist = files.kmem.freelist
  others : files'.others = files.others

theorem SameCounts.refl (files : OpenFiles Inode) : SameCounts files files :=
  ⟨fun _ ↦ ⟨rfl, rfl⟩, rfl, rfl, rfl, rfl, rfl, rfl⟩

/-- Only descriptors of one process may differ. -/
structure Aside (p : Fin nProc) (files files' : OpenFiles Inode) : Prop where
  ofile : ∀ q fd, q ≠ p → files'.ofile (q, fd) = files.ofile (q, fd)
  cwd : files'.cwd = files.cwd
  state : files'.state = files.state
  initproc : files'.initproc = files.initproc

theorem Aside.refl : Aside p files files := ⟨fun _ _ _ ↦ rfl, rfl, rfl, rfl⟩

theorem Aside.trans {mid : OpenFiles Inode} (h : Aside p files mid) (h' : Aside p mid files') :
    Aside p files files' :=
  ⟨fun q fd hq ↦ (h'.ofile q fd hq).trans (h.ofile q fd hq), h'.cwd.trans h.cwd,
    h'.state.trans h.state, h'.initproc.trans h.initproc⟩

theorem SameTables.aside [DecidableEq Inode] (h : SameTables files files') (p : Fin nProc) :
    Aside p files files' :=
  ⟨fun _ _ _ ↦ congrFun h.ofile _, h.cwd, h.state, h.initproc⟩

theorem Aside.setSlot (h : Aside p files files') (fd : Fin nOfile) (entry : Option (Fin nFile)) :
    Aside p files (files'.setSlot p fd entry) where
  ofile := by
    intro q fd' hq
    rw [← h.ofile q fd' hq]
    exact update_of_ne (fun hslot ↦ hq (congrArg Prod.fst hslot)) _ _
  cwd := h.cwd
  state := h.state
  initproc := h.initproc

variable [DecidableEq Inode]

/-- How a call on descriptors returns. -/
structure Returned (pages : List ℕ) (p : Fin nProc) (files : OpenFiles Inode) (result : ℤ)
    (files' : OpenFiles Inode) : Prop where
  balanced : Balanced pages 0 0 files'
  aside : Aside p files files'
  failed : result = -1 → SameCounts files files'

theorem Returned.unchanged (h : Balanced pages 0 0 files) (p : Fin nProc) (result : ℤ) :
    Returned pages p files result files :=
  ⟨h, Aside.refl, fun _ ↦ SameCounts.refl files⟩

theorem Balanced.ref_ne_zero (h : Balanced pages 0 0 files) (hfile : files.ofile (p, fd) = some f) :
    (files.file f).ref ≠ 0 := by
  have href := h.ref f
  have hpos := references_pos hfile
  rw [Pi.zero_apply] at href
  omega

theorem addInodeRef_cancel (files : OpenFiles Inode) (ip : Inode) :
    (files.addInodeRef ip 1).addInodeRef ip (-1) = files := by
  have hiref : files.iref + Pi.single ip 1 + Pi.single ip (-1) = files.iref := by
    rw [Pi.single_neg, add_neg_cancel_right]
  exact congrArg (fun iref ↦ { files with iref := iref }) hiref

omit [DecidableEq Inode] in
theorem vacate_setRef (hvacant : (files.file f).ref = 0 ∧ (files.file f).type = .none) (ref : ℕ) :
    (files.setRef f ref).vacate f = files := by
  have hfile : { (files.setRef f ref).file f with ref := 0, type := .none } = files.file f := by
    rw [setRef, file_setFile_self, ← hvacant.1, ← hvacant.2]
  rw [vacate, hfile]
  have hupdate : update (update files.file f { files.file f with ref := ref }) f
      (files.file f) = files.file := by
    rw [update_idem, update_eq_self]
  exact congrArg (fun file ↦ { files with file := file }) hupdate

omit [DecidableEq Inode] in
theorem setRef_comm {g : Fin nFile} (h : f ≠ g) (count count' : ℕ) :
    (files.setRef f count).setRef g count' = (files.setRef g count').setRef f count := by
  rw [setRef, setRef, setRef, setRef, file_setFile_of_ne _ _ h.symm, file_setFile_of_ne _ _ h]
  exact congrArg (fun file ↦ { files with file := file }) (update_comm h _ _ _)

omit [DecidableEq Inode] in
theorem setSlot_cancel (h : files.ofile (p, fd) = none) (entry : Option (Fin nFile)) :
    (files.setSlot p fd entry).setSlot p fd none = files := by
  have hupdate : update (update files.ofile (p, fd) entry) (p, fd) none =
      files.ofile := by
    rw [update_idem, ← h, update_eq_self]
  exact congrArg (fun ofile ↦ { files with ofile := ofile }) hupdate

theorem sysDup_ends (h : Balanced pages 0 0 files) (p : Fin nProc) (fd : ℤ) :
    Ends (fun _ ↦ False) (Returned pages p files) (sysDup p fd files) := by
  rw [sysDup, ends_bind, ends_get]
  cases harg : argfd files p fd with
  | none => exact Returned.unchanged h p _
  | some pair =>
    obtain ⟨fd₀, f⟩ := pair
    have href : (files.file f).ref ≠ 0 := h.ref_ne_zero (argfd_eq harg)
    rw [ends_bind]
    rcases fdalloc_cases files p f with hfd | ⟨fd', hfree, hfd⟩
    · rw [hfd]
      exact Returned.unchanged h p _
    · rw [hfd, ends_ok, ends_bind]
      refine (filedup_ends (h.occupy hfree) href).mono fun _ files' ⟨hbalanced, hsame⟩ ↦ ?_
      rw [sub_add_cancel] at hbalanced
      exact ⟨hbalanced, (Aside.refl.setSlot _ _).trans (hsame.aside p), fun hfailed ↦ by omega⟩

theorem sysClose_ends (h : Balanced pages 0 0 files) (p : Fin nProc) (fd : ℤ) :
    Ends (fun _ ↦ False) (Returned pages p files) (sysClose p fd files) := by
  rw [sysClose, ends_bind, ends_get]
  cases harg : argfd files p fd with
  | none => exact Returned.unchanged h p _
  | some pair =>
    obtain ⟨fd', f⟩ := pair
    have hslot := argfd_eq harg
    rw [ends_bind, ends_modify, ends_bind]
    refine (fileclose_ends (h.release hslot) (h.ref_ne_zero hslot)).mono
      fun _ files' ⟨hbalanced, hsame⟩ ↦ ?_
    rw [add_sub_cancel_right] at hbalanced
    exact ⟨hbalanced, (Aside.refl.setSlot _ _).trans (hsame.aside p), fun hfailed ↦ by omega⟩

theorem fileclose_fresh (hvacant : (files.file f).ref = 0 ∧ (files.file f).type = .none) :
    fileclose f (files.setRef f 1) = .ok ((), files) := by
  have hfile : (files.setRef f 1).file f = { files.file f with ref := 1 } := file_setFile_self _ _ _
  have htype : ((files.setRef f 1).file f).type = .none := by
    rw [hfile]
    exact hvacant.2
  rw [fileclose_none (by rw [hfile]) htype, vacate_setRef hvacant]

theorem sysOpen_ends (h : Balanced pages 0 0 files) (p : Fin nProc) (fetched : Bool) (omode : ℕ)
    (found : Option (Inode × Bool)) :
    Ends (fun _ ↦ False) (Returned pages p files) (sysOpen p fetched omode found files) := by
  unfold sysOpen
  split
  · exact Returned.unchanged h p _
  cases found with
  | none => exact Returned.unchanged h p _
  | some pair =>
    obtain ⟨ip, isDir⟩ := pair
    rw [ends_bind, iget, ends_modify]
    -- the paths that end with `iput`
    have hiput : Ends (fun _ ↦ False) (Returned pages p files)
        ((do iput ip; return -1 : Action Inode ℤ) (files.addInodeRef ip 1)) := by
      rw [ends_bind, iput, ends_modify, addInodeRef_cancel]
      exact Returned.unchanged h p _
    refine ends_ite (fun _ ↦ hiput) fun _ ↦ ?_
    rw [ends_bind]
    rcases filealloc_cases (files.addInodeRef ip 1) with halloc | ⟨f, href, halloc⟩
    · rw [halloc]
      exact hiput
    rw [halloc, ends_ok]
    rw [ends_bind]
    rcases fdalloc_cases ((files.addInodeRef ip 1).setRef f 1) p f with hfd | ⟨fd, hfree, hfd⟩
    · rw [hfd, ends_ok]
      have hclose := fileclose_fresh ⟨href, h.vacant f href⟩
      rw [ends_bind, hclose, ends_ok]
      exact hiput
    · rw [hfd, ends_ok]
      rw [ends_bind, ends_modify, ends_pure]
      have hslot : Balanced pages _ _
          (((files.addInodeRef ip 1).setRef f 1).setSlot p fd (some f)) :=
        ((h.addInodeRef ip 1).setFresh href).occupy hfree
      have hfile : (((files.addInodeRef ip 1).setRef f 1).setSlot p fd (some f)).file f =
          { files.file f with ref := 1 } := file_setFile_self _ _ _
      have hfresh : Aside p files ((files.addInodeRef ip 1).setRef f 1) :=
        ⟨fun _ _ _ ↦ rfl, rfl, rfl, rfl⟩
      have haside := hfresh.setSlot fd (some f)
      rw [add_sub_cancel_right] at hslot
      refine ⟨hslot.becomeInode ?_ rfl rfl ?_,
        ⟨haside.ofile, haside.cwd, haside.state, haside.initproc⟩, fun hfailed ↦ by omega⟩
      · rw [hfile]
        exact h.vacant f href
      · rw [hfile]
        exact one_ne_zero

/-- A file that is one end of the pipe in a page. -/
def pipeEnd (file : File Inode) (page : ℕ) (w : Bool) : File Inode :=
  { file with ref := 1, type := .pipe, readable := !w, writable := w, pipe := page }

/-- The state after `pipealloc`. -/
def withPipe (files : OpenFiles Inode) (f₀ f₁ : Fin nFile) (page : ℕ) (kmem : Kmem) :
    OpenFiles Inode :=
  ((({ files with kmem := kmem } : OpenFiles Inode).setEnds page ⟨true, true⟩).setFile f₀
    (pipeEnd (files.file f₀) page false)).setFile f₁ (pipeEnd (files.file f₁) page true)

/-- The state after the end for reading is closed again. -/
def withoutRead (files : OpenFiles Inode) (f₀ f₁ : Fin nFile) (page : ℕ) (kmem : Kmem) :
    OpenFiles Inode :=
  ((files.withPipe f₀ f₁ page kmem).vacate f₀).afterShut page false kmem

/-- Two files and a page for a pipe. -/
structure PipeParts (files : OpenFiles Inode) (f₀ f₁ : Fin nFile) (page : ℕ) (kmem : Kmem) :
    Prop where
  ne : f₀ ≠ f₁
  read : (files.file f₀).ref = 0
  write : (files.file f₁).ref = 0
  page : files.kmem.kalloc = some (page, kmem)

theorem pipealloc_cases (h : Balanced pages 0 0 files) :
    pipealloc files = .ok (none, files) ∨ ∃ f₀ f₁ page kmem, PipeParts files f₀ f₁ page kmem ∧
      pipealloc files = .ok (some (f₀, f₁), files.withPipe f₀ f₁ page kmem) := by
  rcases filealloc_cases files with halloc | ⟨f₀, href₀, halloc⟩
  · left
    apply Ends.eq_ok
    rw [pipealloc, ends_bind, halloc]
    exact ⟨rfl, rfl⟩
  have hclose₀ := fileclose_fresh ⟨href₀, h.vacant f₀ href₀⟩
  rcases filealloc_cases (files.setRef f₀ 1) with halloc' | ⟨f₁, href₁, halloc'⟩
  · left
    apply Ends.eq_ok
    rw [pipealloc, ends_bind, halloc, ends_ok]
    rw [ends_bind, halloc', ends_ok]
    rw [ends_bind, hclose₀]
    exact ⟨rfl, rfl⟩
  have hne : f₀ ≠ f₁ := by
    rintro rfl
    rw [setRef, file_setFile_self] at href₁
    cases href₁
  have hfile₁ : (files.setRef f₀ 1).file f₁ = files.file f₁ := file_setFile_of_ne _ _ hne.symm
  rw [hfile₁] at href₁
  rcases kalloc_cases ((files.setRef f₀ 1).setRef f₁ 1) with hkalloc | ⟨page, kmem, hpage, hkalloc⟩
  · left
    apply Ends.eq_ok
    rw [pipealloc, ends_bind, halloc, ends_ok]
    rw [ends_bind, halloc', ends_ok]
    rw [ends_bind, hkalloc, ends_ok]
    have hfile₀ : (files.setRef f₁ 1).file f₀ = files.file f₀ := file_setFile_of_ne _ _ hne
    have hvacant₀ : ((files.setRef f₁ 1).file f₀).ref = 0 ∧
        ((files.setRef f₁ 1).file f₀).type = .none := by
      rw [hfile₀]
      exact ⟨href₀, h.vacant f₀ href₀⟩
    rw [ends_bind, setRef_comm hne, fileclose_fresh hvacant₀, ends_ok, ends_bind,
      fileclose_fresh ⟨href₁, h.vacant f₁ href₁⟩]
    exact ⟨rfl, rfl⟩
  · right
    refine ⟨f₀, f₁, page, kmem, ⟨hne, href₀, href₁, hpage⟩, ?_⟩
    apply Ends.eq_ok
    rw [pipealloc, ends_bind, halloc, ends_ok]
    rw [ends_bind, halloc', ends_ok]
    rw [ends_bind, hkalloc, ends_ok]
    rw [ends_bind, ends_modify, ends_bind, ends_modify, ends_bind, ends_modify, ends_pure]
    refine ⟨rfl, ?_⟩
    simp only [withPipe, pipeEnd, setRef, setFile, setEnds]
    congr 1
    funext g
    by_cases hg₁ : g = f₁
    · subst hg₁
      simp [hne.symm]
    · by_cases hg₀ : g = f₀
      · subst hg₀
        simp [hne]
      · simp [hg₀, hg₁]

namespace PipeParts

variable {f₀ f₁ : Fin nFile} {page : ℕ} {kmem : Kmem}

omit [DecidableEq Inode] in
theorem file_write (files : OpenFiles Inode) (f₀ f₁ : Fin nFile) (page : ℕ) (kmem : Kmem) :
    (files.withPipe f₀ f₁ page kmem).file f₁ = pipeEnd (files.file f₁) page true :=
  file_setFile_self _ _ _

omit [DecidableEq Inode] in
theorem file_read (h : PipeParts files f₀ f₁ page kmem) :
    (files.withPipe f₀ f₁ page kmem).file f₀ = pipeEnd (files.file f₀) page false :=
  (file_setFile_of_ne _ _ h.ne).trans (file_setFile_self _ _ _)

omit [DecidableEq Inode] in
theorem file_withoutRead (h : PipeParts files f₀ f₁ page kmem) :
    (files.withoutRead f₀ f₁ page kmem).file f₁ = pipeEnd (files.file f₁) page true :=
  (file_setFile_of_ne _ _ h.ne.symm).trans (file_write files f₀ f₁ page kmem)

omit [DecidableEq Inode] in
theorem aside (files : OpenFiles Inode) (p : Fin nProc) (f₀ f₁ : Fin nFile) (page : ℕ)
    (kmem : Kmem) : Aside p files (files.withPipe f₀ f₁ page kmem) :=
  ⟨fun _ _ _ ↦ rfl, rfl, rfl, rfl⟩

omit [DecidableEq Inode] in
theorem freelist (h : PipeParts files f₀ f₁ page kmem) :
    files.kmem.freelist = page :: kmem.freelist := (Kmem.kalloc_eq_some.mp h.page).1

theorem balanced (h : PipeParts files f₀ f₁ page kmem) (hfiles : Balanced pages 0 0 files) :
    Balanced pages (Pi.single f₀ 1 + Pi.single f₁ 1) 0 (files.withPipe f₀ f₁ page kmem) where
  toCounted := by
    have hstart : Counted 0 0
        (({ files with kmem := kmem } : OpenFiles Inode).setEnds page ⟨true, true⟩) :=
      ⟨hfiles.ref, hfiles.vacant, hfiles.inodes⟩
    have hread : Counted _ _ ((({ files with kmem := kmem } : OpenFiles Inode).setEnds page
        ⟨true, true⟩).setFile f₀ (pipeEnd (files.file f₀) page false)) :=
      hstart.becomePipe h.read rfl rfl
    rw [zero_add] at hread
    refine hread.becomePipe ?_ rfl rfl
    rw [file_setFile_of_ne _ _ h.ne.symm]
    exact h.write
  pipes := by
    have hpages : files.freePages = page ::ₘ (kmem.freelist + files.others : Multiset ℕ) := by
      rw [freePages, h.freelist]
      rfl
    have hpipes := hfiles.pipes
    rw [hpages] at hpipes
    have hread := File.pipeOf_of_ne (by rw [hfiles.vacant f₀ h.read]; decide)
    have hwrite := File.pipeOf_of_ne (by rw [hfiles.vacant f₁ h.write]; decide)
    rw [withPipe, pipeOf_setFile, pipeOf_setFile]
    exact hpipes.create h.ne hread hwrite

omit [DecidableEq Inode] in
/-- Both flags are set, so closing the first end keeps the page. -/
theorem ends_page (files : OpenFiles Inode) (f₀ f₁ : Fin nFile) (page : ℕ) (kmem : Kmem) :
    (files.withPipe f₀ f₁ page kmem).ends page = ⟨true, true⟩ := update_self _ _ _

section

variable (h : PipeParts files f₀ f₁ page kmem)

include h

theorem close_read : fileclose f₀ (files.withPipe f₀ f₁ page kmem) =
      .ok ((), files.withoutRead f₀ f₁ page kmem) := by
  have hopen : (((files.withPipe f₀ f₁ page kmem).vacate f₀).ends page).isOpen (!false) = true := by
    change ((files.withPipe f₀ f₁ page kmem).ends page).isOpen true = true
    rw [ends_page, PipeEnds.isOpen_both]
  apply fileclose_pipe
  · rw [h.file_read]
    rfl
  · rw [h.file_read]
    rfl
  · rw [h.file_read]
    exact pipeclose_first hopen

theorem close_write (hfiles : Balanced pages 0 0 files) :
    ∃ files', fileclose f₁ (files.withoutRead f₀ f₁ page kmem) = .ok ((), files') ∧
      SameCounts files files' := by
  obtain ⟨kmem', hkfree, hfree⟩ := kmem.kfree_of_isFrame (Kmem.isFrame_of_kalloc h.page)
  have hshut : (((files.withoutRead f₀ f₁ page kmem).vacate f₁).ends page).isOpen (!true) =
      false := by
    change (update (files.withPipe f₀ f₁ page kmem).ends page _ page).isOpen false = false
    rw [update_self]
    exact PipeEnds.isOpen_shut_self _ false
  refine ⟨((files.withoutRead f₀ f₁ page kmem).vacate f₁).afterShut page true kmem',
    fileclose_pipe ?_ ?_ ?_, fun g ↦ ?_, rfl, rfl, rfl, rfl, hfree.trans h.freelist.symm, rfl⟩
  · rw [h.file_withoutRead]
    rfl
  · rw [h.file_withoutRead]
    rfl
  · rw [h.file_withoutRead]
    exact pipeclose_last hshut hkfree
  · change (((files.withoutRead f₀ f₁ page kmem).vacate f₁).file g).ref = _ ∧
      (((files.withoutRead f₀ f₁ page kmem).vacate f₁).file g).type = _
    by_cases hg₁ : g = f₁
    · subst hg₁
      rw [vacate, file_setFile_self, h.write, hfiles.vacant _ h.write]
      exact ⟨rfl, rfl⟩
    · rw [vacate, file_setFile_of_ne _ _ hg₁]
      change (((files.withPipe f₀ f₁ page kmem).vacate f₀).file g).ref = _ ∧
        (((files.withPipe f₀ f₁ page kmem).vacate f₀).file g).type = _
      by_cases hg₀ : g = f₀
      · subst hg₀
        rw [vacate, file_setFile_self, h.read, hfiles.vacant _ h.read]
        exact ⟨rfl, rfl⟩
      · rw [vacate, file_setFile_of_ne _ _ hg₀, withPipe, file_setFile_of_ne _ _ hg₁,
          file_setFile_of_ne _ _ hg₀]
        exact ⟨rfl, rfl⟩

theorem close_both (hfiles : Balanced pages 0 0 files) (p : Fin nProc) :
    Ends (fun _ ↦ False) (Returned pages p files)
      ((do fileclose f₀; fileclose f₁; return -1 : Action Inode ℤ)
        (files.withPipe f₀ f₁ page kmem)) := by
  obtain ⟨files', hclose, hsame⟩ := h.close_write hfiles
  have href₀ : ((files.withPipe f₀ f₁ page kmem).file f₀).ref ≠ 0 := by
    rw [h.file_read]
    exact one_ne_zero
  have hread := (fileclose_ends (h.balanced hfiles) href₀).of_ok h.close_read
  have href₁ : ((files.withoutRead f₀ f₁ page kmem).file f₁).ref ≠ 0 := by
    rw [h.file_withoutRead]
    exact one_ne_zero
  have hwrite := (fileclose_ends hread.1 href₁).of_ok hclose
  rw [ends_bind, h.close_read, ends_ok, ends_bind, hclose, ends_ok, ends_pure]
  refine ⟨?_, (aside files p f₀ f₁ page kmem).trans ((hread.2.aside p).trans (hwrite.2.aside p)),
    fun _ ↦ hsame⟩
  have hbalanced := hwrite.1
  rw [add_sub_cancel_left, sub_self] at hbalanced
  exact hbalanced

end

end PipeParts

theorem sysPipe_ends (h : Balanced pages 0 0 files) (p : Fin nProc) (fetched : Bool) :
    Ends (fun _ ↦ False) (Returned pages p files) (sysPipe p fetched files) := by
  refine ends_ite (fun _ ↦ Returned.unchanged h p _) fun _ ↦ ?_
  rw [ends_bind]
  rcases pipealloc_cases h with halloc | ⟨f₀, f₁, page, kmem, hparts, halloc⟩
  · rw [halloc]
    exact Returned.unchanged h p _
  rw [halloc, ends_ok]
  rw [ends_bind]
  rcases fdalloc_cases (files.withPipe f₀ f₁ page kmem) p f₀ with hfd | ⟨fd₀, hfree₀, hfd⟩
  · rw [hfd, ends_ok]
    exact hparts.close_both h p
  rw [hfd, ends_ok]
  rw [ends_bind]
  have hread := (hparts.balanced h).occupy (f := f₀) hfree₀
  rcases fdalloc_cases ((files.withPipe f₀ f₁ page kmem).setSlot p fd₀ (some f₀)) p f₁ with
    hfd' | ⟨fd₁, hfree₁, hfd'⟩
  · rw [hfd', ends_ok]
    rw [ends_bind, ends_modify, setSlot_cancel hfree₀]
    exact hparts.close_both h p
  · have hwrite := hread.occupy (f := f₁) hfree₁
    rw [hfd', ends_ok]
    rw [add_sub_cancel_left, sub_self] at hwrite
    exact ⟨hwrite, ((PipeParts.aside files p f₀ f₁ page kmem).setSlot _ _).setSlot _ _,
      fun hfailed ↦ by cases hfailed⟩

end Xv6Shm.OpenFiles
