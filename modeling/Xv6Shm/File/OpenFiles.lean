import Xv6Shm.File.Descriptors

/-!
# Counts of open files

Between calls the count of every file is the number of descriptors that name it, a file without
references is nothing, an inode has one reference for each file and process that holds it, and the
pipes are exact. This holds after any calls of any processes, and a call that fails leaves counts
and tables as they were.
-/

namespace Xv6Shm.OpenFiles

open Fallible Function

variable {Inode : Type} {files files' : OpenFiles Inode} {p np : Fin nProc} {fd : Fin nOfile}
  {pages : List ℕ}

/-- The processes that run have a directory; the others have no descriptors. -/
structure Settled (files : OpenFiles Inode) : Prop where
  cwd : ∀ p, files.state p = .runnable → ∃ ip, files.cwd p = some ip
  gone : ∀ p, files.state p ≠ .runnable → files.cwd p = none ∧ ∀ fd, files.ofile (p, fd) = none

theorem Settled.change (h : Settled files)
    (hothers : ∀ q, q ≠ p → files'.state q = files.state q ∧ files'.cwd q = files.cwd q ∧
      ∀ fd, files'.ofile (q, fd) = files.ofile (q, fd))
    (hcwd : files'.state p = .runnable → ∃ ip, files'.cwd p = some ip)
    (hgone : files'.state p ≠ .runnable →
      files'.cwd p = none ∧ ∀ fd, files'.ofile (p, fd) = none) : Settled files' where
  cwd := by
    intro q hq
    by_cases hqp : q = p
    · subst hqp
      exact hcwd hq
    · obtain ⟨hstate, hsame, -⟩ := hothers q hqp
      rw [hsame]
      exact h.cwd q (hstate.symm.trans hq)
  gone := by
    intro q hq
    by_cases hqp : q = p
    · subst hqp
      exact hgone hq
    · obtain ⟨hstate, hsame, hofile⟩ := hothers q hqp
      rw [hstate] at hq
      rw [hsame]
      exact ⟨(h.gone q hq).1, fun fd ↦ (hofile fd).trans ((h.gone q hq).2 fd)⟩

theorem Settled.aside (h : Settled files) (hp : files.state p = .runnable)
    (haside : Aside p files files') : Settled files' := by
  have hstate : files'.state p = .runnable := by rw [haside.state, hp]
  refine h.change (p := p) (fun q hq ↦ ?_) (fun _ ↦ ?_) fun hrun ↦ absurd hstate hrun
  · rw [haside.state, haside.cwd]
    exact ⟨rfl, rfl, fun fd ↦ haside.ofile q fd hq⟩
  · rw [haside.cwd]
    exact h.cwd p hp

variable [DecidableEq Inode]

/-- What holds between calls. -/
structure Exact (pages : List ℕ) (files : OpenFiles Inode) : Prop where
  balanced : Balanced pages 0 0 files
  settled : Settled files

/-- How a call ends. -/
structure Kept (pages : List ℕ) (files : OpenFiles Inode) (result : ℤ) (files' : OpenFiles Inode) :
    Prop where
  exact : Exact pages files'
  failed : result = -1 → SameCounts files files'

variable {result : ℤ} {rest : List (Fin nOfile)} {state next : OpenFiles Inode}
  {label : Label Inode}

theorem Returned.kept (h : Returned pages p files result files')
    (hfiles : Exact pages files) (hp : files.state p = .runnable) : Kept pages files result files' :=
  ⟨⟨h.balanced, hfiles.settled.aside hp h.aside⟩, h.failed⟩

theorem Kept.unchanged (h : Exact pages files) (result : ℤ) : Kept pages files result files :=
  ⟨h, fun _ ↦ SameCounts.refl files⟩

/-- While `fork` copies descriptors: those still to come are free in the child. -/
structure Inheriting (pages : List ℕ) (files : OpenFiles Inode) (np : Fin nProc)
    (rest : List (Fin nOfile)) (files' : OpenFiles Inode) : Prop where
  balanced : Balanced pages 0 0 files'
  aside : Aside np files files'
  nodup : rest.Nodup
  free : ∀ fd ∈ rest, files'.ofile (np, fd) = none

theorem inheritSlot_ends (h : Inheriting pages files np (fd :: rest) state) :
    Ends (fun _ ↦ False) (fun _ ↦ Inheriting pages files np rest) (inheritSlot p np fd state) := by
  have hnodup := List.nodup_cons.mp h.nodup
  rw [inheritSlot, ends_bind, ends_get]
  cases hslot : state.ofile (p, fd) with
  | none => exact ⟨h.balanced, h.aside, hnodup.2, fun fd' hfd' ↦ h.free fd' (.tail _ hfd')⟩
  | some f =>
    rw [ends_bind]
    refine (filedup_ends h.balanced (h.balanced.ref_ne_zero hslot)).mono
      fun _ files' ⟨hbalanced, hsame⟩ ↦ ?_
    rw [ends_modify]
    have hfree : files'.ofile (np, fd) = none := by
      rw [hsame.ofile]
      exact h.free fd List.mem_cons_self
    have hslotted := hbalanced.occupy (f := f) hfree
    rw [add_sub_cancel_right] at hslotted
    refine ⟨hslotted, (h.aside.trans (hsame.aside np)).setSlot _ _, hnodup.2, fun fd' hfd' ↦ ?_⟩
    have hne : (np, fd') ≠ (np, fd) := by
      rintro hpair
      cases hpair
      exact hnodup.1 hfd'
    calc
      _ = files'.ofile (np, fd') := update_of_ne hne _ _
      _ = state.ofile (np, fd') := by rw [hsame.ofile]
      _ = none := h.free fd' (.tail _ hfd')

theorem fork_ends (h : Exact pages files) (hp : files.state p = .runnable) (copied : Bool) :
    Ends (fun _ ↦ False) (Kept pages files) (fork p copied files) := by
  rw [fork, ends_bind, ends_get]
  cases hfind : (List.finRange nProc).find? fun q ↦ files.state q == .unused with
  | none => exact Kept.unchanged h _
  | some np =>
    have hnp : files.state np = .unused := by simpa using List.find?_some hfind
    have hgone := h.settled.gone np (by rw [hnp]; decide)
    rw [ends_bind, ends_set]
    have hcounted : Exact pages { files with nextpid := files.nextpid + 1 } :=
      ⟨⟨⟨h.balanced.ref, h.balanced.vacant, h.balanced.inodes⟩, h.balanced.pipes⟩,
        h.settled.cwd, h.settled.gone⟩
    refine ends_ite (fun _ ↦ ⟨hcounted, fun _ ↦ ⟨fun _ ↦ ⟨rfl, rfl⟩, rfl, rfl, rfl, rfl, rfl, rfl⟩⟩)
      fun _ ↦ ?_
    rw [ends_bind]
    have hstart : Inheriting pages files np (List.finRange nOfile)
        { files with nextpid := files.nextpid + 1 } :=
      ⟨hcounted.balanced, ⟨fun _ _ _ ↦ rfl, rfl, rfl, rfl⟩, List.nodup_finRange _,
        fun fd _ ↦ hgone.2 fd⟩
    refine (ends_forM (Inheriting pages files np) (fun _ _ _ ↦ inheritSlot_ends) hstart).mono
      fun _ state hstate ↦ ?_
    rw [ends_bind, ends_get]
    obtain ⟨ip, hip⟩ := h.settled.cwd p hp
    rw [hstate.aside.cwd, hip]
    rw [ends_bind, iget, ends_modify, ends_bind, ends_modify, ends_pure]
    have hcwd : (state.addInodeRef ip 1).cwd np = none := by
      change state.cwd np = none
      rw [hstate.aside.cwd]
      exact hgone.1
    have hbalanced := ((hstate.balanced.addInodeRef ip 1).enter hcwd ip).setState (p := np) .runnable
    rw [add_sub_cancel_right] at hbalanced
    refine ⟨⟨hbalanced, h.settled.change (p := np) (fun q hq ↦ ⟨?_, ?_, fun fd ↦ ?_⟩) (fun _ ↦ ?_)
      fun hgone' ↦ absurd (update_self _ _ _) hgone'⟩, fun hfailed ↦ by omega⟩
    · exact (update_of_ne hq _ _).trans (congrFun hstate.aside.state q)
    · exact (update_of_ne hq _ _).trans (congrFun hstate.aside.cwd q)
    · exact hstate.aside.ofile q fd hq
    · exact ⟨ip, update_self _ _ _⟩

/-- While `exit` closes descriptors: those that it has passed are free. -/
structure Closing (pages : List ℕ) (files : OpenFiles Inode) (p : Fin nProc)
    (rest : List (Fin nOfile)) (files' : OpenFiles Inode) : Prop where
  balanced : Balanced pages 0 0 files'
  aside : Aside p files files'
  closed : ∀ fd ∉ rest, files'.ofile (p, fd) = none

theorem exitSlot_ends (h : Closing pages files p (fd :: rest) state) :
    Ends (fun _ ↦ False) (fun _ ↦ Closing pages files p rest) (exitSlot p fd state) := by
  rw [exitSlot, ends_bind, ends_get]
  cases hslot : state.ofile (p, fd) with
  | none =>
    refine ⟨h.balanced, h.aside, fun fd' hfd' ↦ ?_⟩
    by_cases hsame : fd' = fd
    · subst hsame
      exact hslot
    · exact h.closed fd' (List.not_mem_cons_of_ne_of_not_mem hsame hfd')
  | some f =>
    rw [ends_bind]
    refine (fileclose_ends h.balanced (h.balanced.ref_ne_zero hslot)).mono
      fun _ files' ⟨hbalanced, hsame⟩ ↦ ?_
    rw [ends_modify]
    have hslot' : files'.ofile (p, fd) = some f := by rw [hsame.ofile, hslot]
    have hreleased := hbalanced.release hslot'
    rw [sub_add_cancel] at hreleased
    refine ⟨hreleased, (h.aside.trans (hsame.aside p)).setSlot _ _, fun fd' hfd' ↦ ?_⟩
    by_cases hfd : fd' = fd
    · subst hfd
      exact update_self _ _ _
    · calc
        _ = files'.ofile (p, fd') :=
          update_of_ne (fun hpair ↦ hfd (congrArg Prod.snd hpair)) _ _
        _ = state.ofile (p, fd') := by rw [hsame.ofile]
        _ = none := h.closed fd' (List.not_mem_cons_of_ne_of_not_mem hfd hfd')

section

variable (h : Exact pages files)

include h

theorem exit_ends (hp : files.state p = .runnable) (hinit : p ≠ files.initproc) :
    Ends (fun _ ↦ False) (Kept pages files) (exit p files) := by
  rw [exit, ends_bind, ends_get]
  refine ends_ite (fun hsame ↦ absurd hsame hinit) fun _ ↦ ?_
  rw [ends_bind]
  have hstart : Closing pages files p (List.finRange nOfile) files :=
    ⟨h.balanced, Aside.refl, fun fd hfd ↦ absurd (List.mem_finRange fd) hfd⟩
  refine (ends_forM (Closing pages files p) (fun _ _ _ ↦ exitSlot_ends) hstart).mono
    fun _ state hstate ↦ ?_
  rw [ends_bind, ends_get]
  obtain ⟨ip, hip⟩ := h.settled.cwd p hp
  have hcwd : (state.addInodeRef ip (-1)).cwd p = some ip := by
    change state.cwd p = some ip
    rw [hstate.aside.cwd, hip]
  rw [hstate.aside.cwd, hip]
  rw [ends_bind, iput, ends_modify, ends_bind, ends_modify, ends_pure]
  have hbalanced := ((hstate.balanced.addInodeRef ip (-1)).leave hcwd).setState (p := p) .zombie
  rw [Pi.single_neg, neg_add_cancel_right] at hbalanced
  refine ⟨⟨hbalanced, h.settled.change (p := p) (fun q hq ↦ ⟨?_, ?_, fun fd ↦ ?_⟩)
    (fun hrun ↦ absurd hrun ?_) fun _ ↦ ⟨?_, fun fd ↦ ?_⟩⟩, fun hfailed ↦ by omega⟩
  · exact (update_of_ne hq _ _).trans (congrFun hstate.aside.state q)
  · exact (update_of_ne hq _ _).trans (congrFun hstate.aside.cwd q)
  · exact hstate.aside.ofile q fd hq
  · have hzombie : ((state.addInodeRef ip (-1)).setCwd p none |>.setState p .zombie).state p =
        .zombie := update_self _ _ _
    rw [hzombie]
    decide
  · exact update_self _ _ _
  · exact hstate.closed fd List.not_mem_nil

theorem wait_ends (q : Fin nProc) : Ends (fun _ ↦ False) (Kept pages files) (wait q files) := by
  rw [wait, ends_bind, ends_get]
  refine ends_ite (fun hzombie ↦ ?_) fun _ ↦ Kept.unchanged h _
  rw [ends_bind, ends_modify, ends_pure]
  have hgone := h.settled.gone q (by rw [hzombie]; decide)
  have hunused : (files.setState q .unused).state q = .unused := update_self _ _ _
  refine ⟨⟨h.balanced.setState .unused, h.settled.change (p := q) (fun other hother ↦ ?_)
    (fun hrun ↦ ?_) fun _ ↦ hgone⟩, fun hfailed ↦ by cases hfailed⟩
  · exact ⟨update_of_ne hother _ _, rfl, fun _ ↦ rfl⟩
  · rw [hunused] at hrun
    cases hrun

theorem take_ends : Ends (fun _ ↦ False) (Kept pages files) (take files) := by
  rw [take, ends_bind]
  rcases kalloc_cases files with hkalloc | ⟨page, kmem, hpage, hkalloc⟩
  · rw [hkalloc]
    exact Kept.unchanged h _
  · rw [hkalloc, ends_ok]
    rw [ends_bind, ends_modify, ends_pure]
    have hpages : (kmem.freelist + (page :: files.others : List ℕ) : Multiset ℕ) =
        files.freePages := by
      rw [freePages, (Kmem.kalloc_eq_some.mp hpage).1, ← Multiset.cons_coe, ← Multiset.cons_coe,
        Multiset.add_cons, Multiset.cons_add]
    refine ⟨⟨⟨⟨h.balanced.ref, h.balanced.vacant, h.balanced.inodes⟩, ?_⟩, h.settled.cwd,
      h.settled.gone⟩, fun hfailed ↦ by cases hfailed⟩
    have hpipes := h.balanced.pipes
    rw [← hpages] at hpipes
    exact hpipes

theorem give_ends {page : ℕ} (hpage : page ∈ files.others) :
    Ends (fun _ ↦ False) (Kept pages files) (give page files) := by
  have hframe : IsFrame page := h.balanced.pipes.frames page (Multiset.mem_add.mpr (Or.inr hpage))
  obtain ⟨kmem, hkfree, hfree⟩ := files.kmem.kfree_of_isFrame hframe
  have hfreed : kfree page { files with others := files.others.erase page } =
      .ok ((), { files with others := files.others.erase page, kmem := kmem }) := kfree_eq hkfree
  rw [give, ends_bind, ends_modify, ends_bind, hfreed, ends_ok, ends_pure]
  have hpages : (kmem.freelist + (files.others.erase page : List ℕ) : Multiset ℕ) =
      files.freePages := by
    rw [freePages, hfree, List.singleton_append, ← Multiset.cons_coe, Multiset.cons_add,
      ← Multiset.add_cons, ← Multiset.coe_erase, Multiset.cons_erase hpage]
  refine ⟨⟨⟨⟨h.balanced.ref, h.balanced.vacant, h.balanced.inodes⟩, ?_⟩, h.settled.cwd,
    h.settled.gone⟩, fun hfailed ↦ by cases hfailed⟩
  have hpipes := h.balanced.pipes
  rw [← hpages] at hpipes
  exact hpipes

theorem perform_ends (hp : files.state p = .runnable) {request : Request Inode}
    (hinit : request = .exit → p ≠ files.initproc) :
    Ends (fun _ ↦ False) (Kept pages files) (perform p request files) := by
  cases request with
  | «open» fetched omode found =>
    exact (sysOpen_ends h.balanced p fetched omode found).mono fun _ _ hcall ↦ hcall.kept h hp
  | pipe fetched => exact (sysPipe_ends h.balanced p fetched).mono fun _ _ hcall ↦ hcall.kept h hp
  | dup fd => exact (sysDup_ends h.balanced p fd).mono fun _ _ hcall ↦ hcall.kept h hp
  | close fd => exact (sysClose_ends h.balanced p fd).mono fun _ _ hcall ↦ hcall.kept h hp
  | fork copied => exact fork_ends h hp copied
  | exit => exact exit_ends h hp (hinit rfl)
  | wait q => exact wait_ends h q

/-- Every label that can happen returns, but for `exit` of the first process. -/
theorem act_ends (henabled : label.enabled files) (hinit : label ≠ .call files.initproc .exit) :
    Ends (fun _ ↦ False) (Kept pages files) (act label files) := by
  cases label with
  | call p request =>
    refine perform_ends h (by simpa [Label.enabled] using henabled) fun hexit hsame ↦ hinit ?_
    rw [hexit, hsame]
  | take => exact take_ends h
  | give page => exact give_ends h (by simpa [Label.enabled] using henabled)

end

theorem step_eq_ok : step files label = .ok (next, result) ↔
      label.enabled files ∧ act label files = .ok (result, next) := by
  unfold step
  split
  · rename_i henabled
    cases act label files with
    | error fault => simp [Except.map]
    | ok pair => simp [Except.map, henabled, Prod.ext_iff, and_comm]
  · rename_i hblocked
    simp [hblocked]

theorem exit_initproc (files : OpenFiles Inode) :
    exit files.initproc files = .error (.panic "init exiting") := by
  change (if files.initproc = files.initproc then _ else _ : Action Inode ℤ) files = _
  rw [if_pos rfl]
  rfl

theorem Exact.step (h : Exact pages files) (hstep : step files label = .ok (next, result)) :
    Exact pages next := by
  obtain ⟨henabled, hact⟩ := step_eq_ok.mp hstep
  by_cases hinit : label = .call files.initproc .exit
  · subst hinit
    rw [act, perform, exit_initproc] at hact
    cases hact
  · exact ((act_ends h henabled hinit).of_ok hact).exact

theorem Initial.exact (h : Initial files) : Exact files.kmem.freelist files where
  balanced := by
    have hinode : ∀ f, files.inodeOf f = none := fun f ↦
      File.inodeOf_of_ne (by rw [(h.file f).2]; decide)
    have hpipe : ∀ f, files.pipeOf f = none := fun f ↦
      File.pipeOf_of_ne (by rw [(h.file f).2]; decide)
    have hpages : files.freePages = (files.kmem.freelist : Multiset ℕ) := by
      rw [freePages, h.others]
      exact add_zero _
    refine ⟨⟨fun f ↦ ?_, fun f _ ↦ (h.file f).2, fun ip ↦ ?_⟩, ?_⟩
    · rw [(h.file f).1, references_eq_zero fun slot ↦ by simp [h.ofile slot]]
      rfl
    · have hnone : references files.inodeOf ip = 0 :=
        references_eq_zero fun f ↦ by simp [hinode f]
      rw [h.iref ip, hnone, Nat.cast_zero, zero_add, Pi.zero_apply, add_zero]
    · rw [hpages]
      refine ⟨fun f _ _ hf ↦ ?_, fun f _ _ hf ↦ ?_, fun f _ _ hf ↦ ?_, h.freelist,
        files.kmem.isFrame, fun f _ _ hf ↦ ?_, fun page hpage ↦ Or.inl hpage⟩
      all_goals
        rw [hpipe f] at hf
        cases hf
  settled := by
    refine ⟨fun p hp ↦ Option.isSome_iff_exists.mp ((h.cwd p).mpr hp), fun p hp ↦ ⟨?_, fun fd ↦
      h.ofile _⟩⟩
    rw [← Option.not_isSome_iff_eq_none, h.cwd p]
    exact hp

/-- After any calls of any processes the counts of files and inodes are the numbers of what refers
to them, and the pipes are exact. Every call then returns, and one that fails leaves counts, tables
and pages as they were; only an `exit` of the first process panics. -/
theorem open_files_exact {start finish : OpenFiles Inode} (hstart : Initial start)
    (hrun : Runs step (fun _ _ ↦ True) start finish) :
    (∀ f, (finish.file f).ref = references finish.ofile f) ∧
      (∀ f, (finish.file f).ref = 0 → (finish.file f).type = .none) ∧
      (∀ ip, finish.iref ip = references finish.inodeOf ip + references finish.cwd ip) ∧
      PipesExact start.kmem.freelist finish.pipeOf finish.ends finish.freePages ∧
      ∀ label : Label Inode, label.enabled finish → label ≠ .call finish.initproc .exit →
        ∃ next result, step finish label = .ok (next, result) ∧
          (result = -1 → SameCounts finish next) := by
  have hexact := hrun.invariant (Exact start.kmem.freelist) hstart.exact
      fun _ _ _ _ hstate _ hstep ↦ hstate.step hstep
  have hbalanced := hexact.balanced
  refine ⟨fun f ↦ ?_, hbalanced.vacant, fun ip ↦ ?_, hbalanced.pipes, fun label henabled hinit ↦ ?_⟩
  · have href := hbalanced.ref f
    rw [Pi.zero_apply, add_zero] at href
    exact Int.ofNat_inj.mp href
  · rw [hbalanced.inodes ip, Pi.zero_apply, add_zero]
  · obtain ⟨result, next, hact, hkept⟩ := (act_ends hexact henabled hinit).returns
    exact ⟨next, result, step_eq_ok.mpr ⟨henabled, hact⟩, hkept.failed⟩

/-- Two processes, of which the first is `init`, in the directory of inode 0. -/
def startFiles : OpenFiles (Fin 2) where
  file := fun _ ↦ ⟨.none, 0, false, false, 0, 0⟩
  ofile := fun _ ↦ none
  cwd := fun p ↦ if p.val < 2 then some 0 else none
  state := fun p ↦ if p.val < 2 then .runnable else .unused
  nextpid := 3
  initproc := ⟨0, by decide⟩
  iref := fun ip ↦ if ip = 0 then 2 else 0
  ends := fun _ ↦ ⟨false, false⟩
  kmem := ⟨[0x80400000], fun _ ↦ 0, by decide⟩
  others := []

theorem startFiles_initial : Initial startFiles where
  file := fun _ ↦ ⟨rfl, rfl⟩
  ofile := fun _ ↦ rfl
  running := by decide
  cwd := by decide
  iref := by decide
  freelist := by decide
  others := rfl

/-- `init` opens a file, duplicates the descriptor, makes a pipe, forks and closes; the child exits,
and the second process asks for a pipe when there is no page. -/
def shareFiles : List (Label (Fin 2)) :=
  [.call ⟨0, by decide⟩ (.open true oRdwr (some (1, false))), .call ⟨0, by decide⟩ (.dup 0),
    .call ⟨0, by decide⟩ (.pipe true), .call ⟨0, by decide⟩ (.fork true),
    .call ⟨0, by decide⟩ (.close 0), .call ⟨2, by decide⟩ .exit,
    .call ⟨1, by decide⟩ (.pipe true)]

/-- The descriptors that are left: one for the file, two for the pipe. -/
theorem open_files_exact_shared : ∃ finish, Runs step (fun _ _ ↦ True) startFiles finish ∧
    (∀ f, (finish.file f).ref = references finish.ofile f) ∧
      (finish.file ⟨0, by decide⟩).ref = 1 ∧ finish.iref 1 = 1 ∧ finish.iref 0 = 2 ∧
      finish.kmem.freelist = [] := by
  obtain ⟨finish, hrun, hstate⟩ : ∃ finish, Runs step (fun _ _ ↦ True) startFiles finish ∧
      (finish.file ⟨0, by decide⟩).ref = 1 ∧ finish.iref 1 = 1 ∧ finish.iref 0 = 2 ∧
      finish.kmem.freelist = [] := by
    apply Runs.of_labels shareFiles
    decide +kernel
  exact ⟨finish, hrun, (open_files_exact startFiles_initial hrun).1, hstate⟩

end Xv6Shm.OpenFiles
