import Xv6Shm.Proc.Lives

/-!
# Whom `kill` hits

`kill` looks for the first slot with a pid and not at its state. A slot that was never used or was
reaped has pid 0, one that a failed `fork` has given back keeps its pid, and `allocproc` does not
clear the mark. So `kill(0)` marks a free slot, and the next process there starts as a killed one.
-/

namespace Xv6Shm.Ptable

open Fallible Function

/-- No slot that is unused or being created has the pid. -/
def Targeted (system : System) : Label → Prop
  | .kill _ pid => ∀ s, (system.proc s).pid = pid →
      (system.proc s).state ≠ .unused ∧ (system.proc s).state ≠ .embryo
  | _ => True

/-- Slots without a started process carry no mark. -/
def Unharmed (procs : Procs) : Prop :=
  ∀ s, (procs s).state.stage = .free ∨ (procs s).state.stage = .embryo → (procs s).killed = false

section Marks

variable {procs procs' : Procs} {p : Slot}

theorem Unharmed.congr (h : Unharmed procs)
    (hstage : ∀ s, (procs' s).state.stage = (procs s).state.stage)
    (hkilled : ∀ s, (procs' s).killed = (procs s).killed) : Unharmed procs' := by
  intro s hs
  rw [hstage] at hs
  rw [hkilled]
  exact h s hs

theorem Unharmed.update {process : Proc} (h : Unharmed procs)
    (hprocess : process.state.stage = .free ∨ process.state.stage = .embryo →
      process.killed = false) : Unharmed (update procs p process) :=
  (forall_update_iff procs (p := fun _ after ↦
    after.state.stage = .free ∨ after.state.stage = .embryo → after.killed = false)).mpr
    ⟨hprocess, fun s _ ↦ h s⟩

theorem Unharmed.update_started {process : Proc} (h : Unharmed procs)
    (hstage : process.state.stage = .alive ∨ process.state.stage = .zombie) :
    Unharmed (Function.update procs p process) := by
  refine h.update fun hunstarted ↦ ?_
  rcases hstage with halive | hzombie
  · rw [halive] at hunstarted
    exact hunstarted.elim (nomatch ·) (nomatch ·)
  · rw [hzombie] at hunstarted
    exact hunstarted.elim (nomatch ·) (nomatch ·)

theorem wakeup1_killed (procs : Procs) (chan : Option Chan) (s : Slot) :
    (procs.wakeup1 chan s).killed = (procs s).killed := by
  unfold Procs.wakeup1
  split
  · rfl
  · rfl

theorem setParent_killed (procs : Procs) (parent s : Slot) :
    (procs.setParent p parent s).killed = (procs s).killed := by
  unfold Procs.setParent
  by_cases hs : s = p
  · rw [hs, update_self]
  · rw [update_of_ne hs]

theorem setState_killed (procs : Procs) (state : ProcState) (s : Slot) :
    (procs.setState p state s).killed = (procs s).killed := by
  unfold Procs.setState
  by_cases hs : s = p
  · rw [hs, update_self]
  · rw [update_of_ne hs]

theorem passChild_killed (procs : Procs) (curproc initproc child s : Slot) :
    (procs.passChild curproc initproc child s).killed = (procs s).killed := by
  unfold Procs.passChild
  split
  · dsimp only
    split
    · rw [wakeup1_killed, setParent_killed]
    · rw [setParent_killed]
  · rfl

theorem Unharmed.passChildren (curproc initproc : Slot) (slots : List Slot) :
    ∀ {procs : Procs}, Unharmed procs →
      Unharmed (slots.foldl (Procs.passChild curproc initproc) procs) := by
  induction slots with
  | nil => exact id
  | cons child rest ih =>
    exact fun h ↦ ih (h.congr (passChild_stage curproc initproc child)
      (passChild_killed _ curproc initproc child))

theorem Unharmed.wakeup1 (h : Unharmed procs) (chan : Option Chan) :
    Unharmed (procs.wakeup1 chan) :=
  h.congr (Quiet.wakeup1 chan).stage (wakeup1_killed procs chan)

theorem Unharmed.setKilled (h : Unharmed procs) (hunused : (procs p).state ≠ .unused)
    (hembryo : (procs p).state ≠ .embryo) : Unharmed (procs.setKilled p) := by
  have hstage : (procs.setKilled p p).state.stage = (procs p).state.stage :=
    (Quiet.setKilled p).stage p
  rw [Procs.setKilled, Function.update_self] at hstage
  refine h.update_started ?_
  rw [hstage]
  rcases ProcState.started hunused hembryo with halive | hzombie
  · exact Or.inl (ProcState.stage_of_alive halive)
  · exact Or.inr (by rw [hzombie]; rfl)

theorem Unharmed.wait {system : System} (h : Unharmed system.proc) (p : Slot) :
    Unharmed (system.wait p).1.proc := by
  unfold System.wait
  split
  · exact h.update fun _ ↦ rfl
  · split
    · exact h
    · exact h.update_started (Or.inl rfl)

end Marks

theorem Initial.unharmed {system : System} (h : Initial system) : Unharmed system.proc := by
  intro s hs
  by_cases hinit : s = system.initproc
  · rw [hinit, h.init] at hs ⊢
  · rw [h.unused s hinit]

theorem Unharmed.step {system : System} {label : Label} {outcome : System × ℤ}
    (h : Unharmed system.proc) (hinv : Inv system) (htargeted : Targeted system label)
    (htakes : Takes system label outcome) : Unharmed outcome.1.proc := by
  cases htakes with
  | scheduler _ => exact h.update_started (Or.inl rfl)
  | yield _ => exact h.update_started (Or.inl rfl)
  | allocproc _ _ =>
    unfold System.allocproc
    split
    · exact h
    · rename_i np hfound
      have hunused : (system.proc np).state = .unused := by
        have hfirst := List.find?_some hfound
        exact of_decide_eq_true hfirst
      exact h.update fun _ ↦ h np (Or.inl (by rw [hunused]; rfl))
  | kalloc _ _ => exact h
  | kallocFails _ hthread =>
    have hembryo := (hinv.embryo _ _ (by rw [hthread]; rfl)).1
    exact h.update fun _ ↦ h _ (Or.inr (by rw [hembryo]; rfl))
  | @copyuvm _ np _ _ => exact h.update (h np)
  | copyuvmFails _ hthread =>
    have hembryo := (hinv.embryo _ _ (by rw [hthread]; rfl)).1
    exact h.update fun _ ↦ h _ (Or.inr (by rw [hembryo]; rfl))
  | fork _ _ => exact h.update_started (Or.inl rfl)
  | exit _ _ _ =>
    exact ((h.wakeup1 _).passChildren _ _ (List.finRange nProc)).update_started (Or.inr rfl)
  | @wait p _ _ => exact h.wait p
  | @waitAgain p _ _ =>
    refine Unharmed.wait ?_ p
    exact h.update (h p)
  | kill _ _ =>
    unfold System.kill
    split
    · rename_i target hfound
      have hpid := List.find?_some hfound
      obtain ⟨hunused, hembryo⟩ := htargeted target (of_decide_eq_true hpid)
      exact h.setKilled hunused hembryo
    · exact h
  | sleep _ _ => exact h.update_started (Or.inl rfl)
  | @tidy p _ _ => exact h.update (h p)
  | wakeup => exact h.wakeup1 _
  | trap hrunning _ => exact h.update_started (Or.inl (by rw [hrunning]; rfl))

section Kill

variable {system : System} {pid : ℤ}

/-- `kill` succeeds if some slot has the pid, used or not. -/
theorem kill_result : (system.kill pid).2 = 0 ↔ ∃ s, (system.proc s).pid = pid := by
  unfold System.kill
  split
  · rename_i target hfound
    have hpid := List.find?_some hfound
    exact iff_of_true rfl ⟨target, of_decide_eq_true hpid⟩
  · rename_i hnone
    refine iff_of_false (fun h ↦ absurd h (by decide : (-1 : ℤ) ≠ 0)) fun ⟨s, hs⟩ ↦ ?_
    exact List.find?_eq_none.mp hnone s (List.mem_finRange s) (decide_eq_true hs)

theorem kill_marks (h : (system.kill pid).2 = 0) : ∃ target, (system.proc target).pid = pid ∧
    ((system.kill pid).1.proc target).killed = true ∧
    ∀ s ≠ target, (system.kill pid).1.proc s = system.proc s := by
  unfold System.kill at h ⊢
  split at h
  · rename_i target hfound
    have hpid := List.find?_some hfound
    refine ⟨target, of_decide_eq_true hpid, ?_, fun s hs ↦ ?_⟩
    · rw [System.put_proc, Procs.setKilled, update_self]
    · exact update_of_ne hs _ _
  · cases h

theorem kill_fails (h : (system.kill pid).2 ≠ 0) : (system.kill pid).1 = system := by
  unfold System.kill at h ⊢
  split at h
  · exact absurd rfl h
  · rfl

end Kill

/-- If nobody kills with the pid of a slot without a started process, `kill` succeeds if and only if
a process has the pid, marks only it, and every process starts without the mark. -/
theorem kill_hits_target {start system : System} (hstart : Initial start)
    (hrun : Runs step Targeted start system) :
    (∀ p pid next result, Targeted system (.kill p pid) →
      step system (.kill p pid) = .ok (next, result) →
      (result = 0 ↔ ∃ s, (system.proc s).state ≠ .unused ∧ (system.proc s).pid = pid) ∧
      (result = 0 → ∃ target, (system.proc target).state ≠ .unused ∧
        (system.proc target).pid = pid ∧ (next.proc target).killed = true ∧
        ∀ s ≠ target, next.proc s = system.proc s) ∧
      (result ≠ 0 → next = system)) ∧
    ∀ p next result, step system (.fork p) = .ok (next, result) → ∀ np,
      (system.proc np).state = .embryo → (next.proc np).state = .runnable →
      (next.proc np).killed = false := by
  have hinv : Inv system ∧ Unharmed system.proc := by
    refine hrun.invariant (fun system ↦ Inv system ∧ Unharmed system.proc)
      ⟨hstart.inv, hstart.unharmed⟩ ?_
    rintro system label next result ⟨hinv, hunharmed⟩ htargeted hok
    exact ⟨hinv.step (step_takes hok), hunharmed.step hinv htargeted (step_takes hok)⟩
  refine ⟨fun p pid next result htargeted hok ↦ ?_, fun p next result hok np hembryo _ ↦ ?_⟩
  · have htakes := step_takes hok
    generalize houtcome : (next, result) = outcome at htakes
    cases htakes with
    | kill _ _ =>
      obtain ⟨rfl, rfl⟩ := Prod.mk.inj houtcome
      refine ⟨kill_result.trans ⟨fun ⟨s, hs⟩ ↦ ⟨s, (htargeted s hs).1, hs⟩,
        fun ⟨s, _, hs⟩ ↦ ⟨s, hs⟩⟩, fun hzero ↦ ?_, kill_fails⟩
      obtain ⟨target, hpid, hmark, hother⟩ := kill_marks hzero
      exact ⟨target, (htargeted target hpid).1, hpid, hmark, hother⟩
  · have htakes := step_takes hok
    generalize houtcome : (next, result) = outcome at htakes
    cases htakes with
    | fork _ _ =>
      obtain ⟨rfl, -⟩ := Prod.mk.inj houtcome
      exact (setState_killed _ _ np).trans (hinv.2 np (Or.inr (by rw [hembryo]; rfl)))

/-- `kill(0)` succeeds though no process has pid 0, and the next child is killed. -/
theorem kill_marks_free_slot : Initial boot ∧ ∃ system marked final started : System, ∃ pid : ℤ,
    Runs step (fun _ _ ↦ True) boot system ∧
    (∀ s, (system.proc s).state ≠ .unused → (system.proc s).pid ≠ 0) ∧
    step system (.kill 0 0) = .ok (marked, 0) ∧
    Runs step (fun _ _ ↦ True) marked final ∧
    step final (.fork 0) = .ok (started, pid) ∧ (started.proc 1).state = .runnable ∧
    (started.proc 1).killed = true := by
  obtain ⟨system, hrun, hnobody, marked, hkill, hfork⟩ :
      ∃ system, Runs step (fun _ _ ↦ True) boot system ∧
        (∀ s, (system.proc s).state ≠ .unused → (system.proc s).pid ≠ 0) ∧
        ∃ marked, step system (.kill 0 0) = .ok (marked, 0) ∧
          (replay step (fun _ _ ↦ decide True) marked
            [.allocproc 0, .kalloc 0 true, .copyuvm 0 true]).any (fun final ↦
              decide (∃ started pid, step final (.fork 0) = .ok (started, pid) ∧
                (started.proc 1).state = .runnable ∧ (started.proc 1).killed = true)) = true := by
    apply Runs.of_labels [.scheduler 0]
    decide +kernel
  obtain ⟨final, hrun', started, pid, hstep, hkilled⟩ := Runs.of_labels _ hfork
  exact ⟨boot_initial, system, marked, final, started, pid, hrun, hnobody, hkill, hrun', hstep,
    hkilled⟩

instance (system : System) (label : Label) : Decidable (Targeted system label) := by
  unfold Targeted
  cases label <;> dsimp only <;> infer_instance

/-- Init kills its child, which has pid 2. -/
theorem kill_hits_target_child : ∃ system next : System, step system (.kill 0 2) = .ok (next, 0) ∧
    ∃ target, (system.proc target).state ≠ .unused ∧ (system.proc target).pid = 2 ∧
      (next.proc target).killed = true ∧ ∀ s ≠ target, next.proc s = system.proc s := by
  obtain ⟨system, hrun, htargeted, next, hkill⟩ :
      ∃ system, Runs step Targeted boot system ∧ Targeted system (.kill 0 2) ∧
        ∃ next, step system (.kill 0 2) = .ok (next, 0) := by
    apply Runs.of_labels [.scheduler 0, .allocproc 0, .kalloc 0 true, .copyuvm 0 true, .fork 0]
    decide +kernel
  exact ⟨system, next, hkill,
    ((kill_hits_target boot_initial hrun).1 0 2 next 0 htargeted hkill).2.1 rfl⟩

end Xv6Shm.Ptable
