import Xv6Shm.Proc.Scheduler

/-!
# One CPU for each process

A CPU claims a process from the moment its scheduler has chosen it until the scheduler, back from
the process, forgets it. No two CPUs claim the same process: a scheduler chooses only runnable
processes, with the lock, and a process claimed by a CPU without the lock is running.
-/

namespace Xv6Shm.Scheduler

open Fallible Function

/-- The process that a CPU claims at a place. -/
def Place.claims : Place → Option Slot
  | .process p _ => some p
  | .scheduler (.chosen p) | .scheduler (.ready p) | .scheduler (.back p) => some p
  | .scheduler _ => none

/-- The places where a CPU has the lock. -/
def Place.locked : Place → Bool
  | .process _ .outside | .scheduler .idle => false
  | _ => true

/-- The process that is marked as running for a CPU at a place. -/
def Place.runs : Place → Option Slot
  | .process _ (.sched _) => none
  | .process p _ | .scheduler (.ready p) => some p
  | .scheduler _ => none

theorem Place.claims_of_runs {place : Place} {p : Slot} (h : place.runs = some p) :
    place.claims = some p := by
  match place, h with
  | .scheduler (.ready _), h => exact h
  | .process _ point, h =>
    cases point with
    | sched ret => cases h
    | _ => exact h

/-- Without the lock a claimed process runs. -/
theorem Place.runs_of_claims {place : Place} {p : Slot} (hlocked : place.locked = false)
    (h : place.claims = some p) : place.runs = some p := by
  match place, hlocked, h with
  | .process _ .outside, _, h => exact h

theorem Point.of_isEntry {point : Point} (h : point.isEntry = true) (p : Slot) :
    (Place.process p point).locked = true ∧ (Place.process p point).runs = some p := by
  cases point with
  | outside | sched ret | resumed ret | leaving => cases h
  | _ => exact ⟨rfl, rfl⟩

section States

variable {procs : Procs} {p : Slot}

theorem setState_running {before after : ProcState} (h : (procs p).state = before)
    (hbefore : before ≠ .running) (hafter : after ≠ .running) (q : Slot) :
    (procs.setState p after q).state = .running ↔ (procs q).state = .running := by
  unfold Procs.setState
  by_cases hq : q = p
  · rw [hq, update_self, h]
    exact iff_of_false hafter hbefore
  · rw [update_of_ne hq]

theorem setState_state_self (state : ProcState) : (procs.setState p state p).state = state := by
  rw [Procs.setState, update_self]

theorem setState_of_ne {state : ProcState} {q : Slot} (hq : q ≠ p) :
    procs.setState p state q = procs q := update_of_ne hq _ _

theorem setContext_state (ret : Return) (q : Slot) :
    (procs.setContext p ret q).state = (procs q).state := by
  unfold Procs.setContext
  by_cases hq : q = p
  · rw [hq, update_self]
  · rw [update_of_ne hq]

theorem setChan_state (chan : Option Chan) (q : Slot) :
    (procs.setChan p chan q).state = (procs q).state := by
  unfold Procs.setChan
  by_cases hq : q = p
  · rw [hq, update_self]
  · rw [update_of_ne hq]

theorem wakeup1_running (chan : Chan) (q : Slot) :
    (procs.wakeup1 chan q).state = .running ↔ (procs q).state = .running := by
  unfold Procs.wakeup1
  split
  · rename_i hwoken
    rw [hwoken.1]
    exact iff_of_false (nomatch ·) (nomatch ·)
  · exact Iff.rfl

theorem wakeups_running (chans : List Chan) (q : Slot) : ∀ procs : Procs,
    (chans.foldl Procs.wakeup1 procs q).state = .running ↔ (procs q).state = .running := by
  induction chans with
  | nil => exact fun _ ↦ Iff.rfl
  | cons chan rest ih => exact fun procs ↦ (ih _).trans (wakeup1_running chan q)

end States

variable {Id : Type}

structure Inv (system : System Id) : Prop where
  myproc : ∀ c, (system.cpu c).proc = (system.cpu c).place.claims
  unique : ∀ c d p, (system.cpu c).place.claims = some p → (system.cpu d).place.claims = some p →
    d = c
  locked : ∀ c, (system.cpu c).place.locked = true ↔ system.lock = some c
  running : ∀ p, (system.proc p).state = .running ↔ ∃ c, (system.cpu c).place.runs = some p
  saved : ∀ c p point, (system.cpu c).place = .process p point → (system.cpu c).scheduler = .back p

theorem Initial.inv {system : System Id} (h : Initial system) : Inv system where
  myproc c := by rw [(h.cpu c).1, (h.cpu c).2]; rfl
  unique c d p hc := by
    rw [(h.cpu c).2] at hc
    cases hc
  locked c := by
    rw [(h.cpu c).2, h.lock]
    exact iff_of_false (nomatch ·) (nomatch ·)
  running p := by
    refine iff_of_false (h.proc p) fun ⟨c, hc⟩ ↦ ?_
    rw [(h.cpu c).2] at hc
    cases hc
  saved c p point hc := by
    rw [(h.cpu c).2] at hc
    cases hc

namespace Inv

variable {system next : System Id} {c : Id} {p : Slot}

theorem running_elsewhere (h : Inv system) (c : Id) (p : Slot) :
    (system.proc p).state = .running ∧ (system.cpu c).place.runs ≠ some p ↔
      ∃ d ≠ c, (system.cpu d).place.runs = some p := by
  rw [h.running p]
  constructor
  · rintro ⟨⟨d, hd⟩, hc⟩
    exact ⟨d, fun hdc ↦ hc (hdc ▸ hd), hd⟩
  · rintro ⟨d, hdc, hd⟩
    exact ⟨⟨d, hd⟩, fun hc ↦
      hdc (h.unique c d p (Place.claims_of_runs hc) (Place.claims_of_runs hd))⟩

theorem change {cpu : Cpu} (h : Inv system) (hself : next.cpu c = cpu)
    (hcpu : ∀ d ≠ c, next.cpu d = system.cpu d) (hmyproc : cpu.proc = cpu.place.claims)
    (hclaims : ∀ p, cpu.place.claims = some p →
      (system.cpu c).place.claims = some p ∨ ∀ d ≠ c, (system.cpu d).place.claims ≠ some p)
    (hlocked : cpu.place.locked = true ↔ next.lock = some c)
    (hlock : ∀ d ≠ c, next.lock = some d ↔ system.lock = some d)
    (hrunning : ∀ p, (next.proc p).state = .running ↔ cpu.place.runs = some p ∨
      (system.proc p).state = .running ∧ (system.cpu c).place.runs ≠ some p)
    (hsaved : ∀ p point, cpu.place = .process p point → cpu.scheduler = .back p) : Inv next := by
  subst hself
  have hfree : ∀ d ≠ c, ∀ p, (next.cpu c).place.claims = some p →
      (system.cpu d).place.claims ≠ some p := by
    intro d hdc p hp hd
    rcases hclaims p hp with hbefore | hnobody
    · exact hdc (h.unique c d p hbefore hd)
    · exact hnobody d hdc hd
  refine ⟨fun d ↦ ?_, fun d e p hd he ↦ ?_, fun d ↦ ?_, fun p ↦ ?_, fun d p point hd ↦ ?_⟩
  · by_cases hdc : d = c
    · exact hdc ▸ hmyproc
    · rw [hcpu d hdc]
      exact h.myproc d
  · by_cases hdc : d = c
    · by_cases hec : e = c
      · exact hec.trans hdc.symm
      · rw [hcpu e hec] at he
        exact absurd he (hfree e hec p (hdc ▸ hd))
    · rw [hcpu d hdc] at hd
      by_cases hec : e = c
      · exact absurd hd (hfree d hdc p (hec ▸ he))
      · rw [hcpu e hec] at he
        exact h.unique d e p hd he
  · by_cases hdc : d = c
    · exact hdc ▸ hlocked
    · rw [hcpu d hdc, hlock d hdc]
      exact h.locked d
  · rw [hrunning p, h.running_elsewhere c p]
    constructor
    · rintro (hc | ⟨d, hdc, hd⟩)
      · exact ⟨c, hc⟩
      · exact ⟨d, by rw [hcpu d hdc]; exact hd⟩
    · rintro ⟨d, hd⟩
      by_cases hdc : d = c
      · exact Or.inl (hdc ▸ hd)
      · rw [hcpu d hdc] at hd
        exact Or.inr ⟨d, hdc, hd⟩
  · by_cases hdc : d = c
    · rw [hdc] at hd ⊢
      exact hsaved p point hd
    · rw [hcpu d hdc] at hd ⊢
      exact h.saved d p point hd

theorem running_same {procs : Procs} (h : Inv system) {runs : Option Slot}
    (hruns : runs = (system.cpu c).place.runs)
    (hstates : ∀ p, (procs p).state = .running ↔ (system.proc p).state = .running) (p : Slot) :
    (procs p).state = .running ↔
      runs = some p ∨ (system.proc p).state = .running ∧ (system.cpu c).place.runs ≠ some p := by
  rw [hstates, hruns]
  by_cases hp : (system.cpu c).place.runs = some p
  · exact iff_of_true ((h.running p).mpr ⟨c, hp⟩) (Or.inl hp)
  · exact ⟨fun hrunning ↦ Or.inr ⟨hrunning, hp⟩, fun hor ↦ (hor.resolve_left hp).1⟩

theorem myproc_eq (h : Inv system) (hclaims : (system.cpu c).place.claims = some p) :
    system.myproc c = .ok p := by
  unfold System.myproc
  rw [h.myproc c, hclaims]

theorem unlocked_of_ne (h : Inv system) (hlocked : (system.cpu c).place.locked = true) {d : Id}
    (hd : d ≠ c) : (system.cpu d).place.locked = false := by
  rw [Bool.eq_false_iff]
  intro hother
  have hlock := (h.locked c).mp hlocked
  rw [(h.locked d).mp hother] at hlock
  exact hd (Option.some.inj hlock)

variable [DecidableEq Id] {place place' : Place} {procs : Procs}

section Go

variable (h : Inv system) (hplace : (system.cpu c).place = place)
  (hclaims : place'.claims = place.claims) (hruns : place'.runs = place.runs)
  (hsaved : ∀ p point, place' = .process p point → ∃ point', place = .process p point')

include h hplace hclaims hruns hsaved

theorem go {lock : Option Id}
    (hstates : ∀ p, (procs p).state = .running ↔ (system.proc p).state = .running)
    (hlocked : place'.locked = true ↔ lock = some c)
    (hlock : ∀ d ≠ c, lock = some d ↔ system.lock = some d) :
    Inv (({ system with lock := lock, proc := procs } : System Id).goto c place') := by
  subst hplace
  refine h.change (System.goto_cpu_self _ _ _) (fun d hd ↦ System.goto_cpu_of_ne hd)
    ((h.myproc c).trans hclaims.symm) (fun p hp ↦ Or.inl (hclaims ▸ hp)) hlocked hlock
    (h.running_same hruns hstates) fun p point hp ↦ ?_
  obtain ⟨point', hpoint'⟩ := hsaved p point hp
  exact h.saved c p point' hpoint'

theorem stay (hlocked : place'.locked = place.locked)
    (hstates : ∀ p, (procs p).state = .running ↔ (system.proc p).state = .running) :
    Inv ((system.put procs).goto c place') := by
  refine h.go hplace hclaims hruns hsaved hstates ?_ fun _ _ ↦ Iff.rfl
  rw [hlocked, ← hplace]
  exact h.locked c

theorem acquire {system' : System Id} (hok : system.acquire c = .ok system')
    (hlocked : place'.locked = true) : Inv (system'.goto c place') := by
  unfold System.acquire at hok
  split at hok
  · rename_i hfree
    cases hok
    refine h.go hplace hclaims hruns hsaved (fun _ ↦ Iff.rfl) (iff_of_true hlocked rfl)
      fun d hd ↦ ?_
    rw [hfree]
    exact iff_of_false (fun heq ↦ hd (Option.some.inj heq).symm) (nomatch ·)
  · split at hok
    · cases hok
    · cases hok

theorem release {system' : System Id} (hok : system.release c = .ok system')
    (hlocked : place'.locked = false) : Inv (system'.goto c place') := by
  unfold System.release at hok
  split at hok
  · rename_i hheld
    cases hok
    refine h.go hplace hclaims hruns hsaved (fun _ ↦ Iff.rfl) ?_ fun d hd ↦ ?_
    · rw [hlocked]
      exact iff_of_false (nomatch ·) (nomatch ·)
    · rw [hheld]
      exact iff_of_false (nomatch ·) fun heq ↦ hd (Option.some.inj heq).symm
  · cases hok

end Go

variable {point : Point} {ret : Return}

variable (h : Inv system)

include h

theorem mark (hplace : (system.cpu c).place = .process p point)
    (hlocked : (Place.process p point).locked = true)
    (hruns : (Place.process p point).runs = some p) (hself : (procs p).state ≠ .running)
    (hother : ∀ q ≠ p, (procs q).state = .running ↔ (system.proc q).state = .running) :
    Inv ((system.put procs).goto c (.process p (.sched ret))) := by
  refine h.change (System.goto_cpu_self _ _ _) (fun d hd ↦ System.goto_cpu_of_ne hd) ?_
    (fun q hq ↦ Or.inl ?_) ?_ (fun _ _ ↦ Iff.rfl) (fun q ↦ ?_) fun q point' hq ↦ ?_
  · refine (h.myproc c).trans ?_
    rw [hplace]
    rfl
  · rw [hplace]
    exact hq
  · rw [← hplace] at hlocked
    exact iff_of_true rfl ((h.locked c).mp hlocked)
  · rw [hplace, hruns]
    by_cases hqp : q = p
    · subst hqp
      exact iff_of_false hself (not_or.mpr ⟨(nomatch ·), fun hboth ↦ hboth.2 rfl⟩)
    · refine (hother q hqp).trans ⟨fun hrunning ↦ Or.inr ⟨hrunning, ?_⟩, fun hor ↦ ?_⟩
      · exact fun heq ↦ hqp (Option.some.inj heq).symm
      · exact (hor.resolve_left (nomatch ·)).1
  · obtain ⟨rfl, -⟩ := Place.process.inj hq
    exact h.saved c p point hplace

/-- The scheduler chooses a runnable process, which no other CPU claims. -/
theorem choose {i : ℕ} (hplace : (system.cpu c).place = .scheduler (.scan i))
    (hrunnable : (system.proc p).state = .runnable) :
    Inv ((system.setMyproc c (some p)).goto c (.scheduler (.chosen p))) := by
  have hlocked : (system.cpu c).place.locked = true := by rw [hplace]; rfl
  refine h.change (System.goto_cpu_self _ _ _) (fun d hd ↦ ?_) ?_ (fun q hq ↦ Or.inr ?_) ?_
    (fun _ _ ↦ Iff.rfl) (h.running_same ?_ fun _ ↦ Iff.rfl) fun q point hq ↦ nomatch hq
  · rw [System.goto_cpu_of_ne hd, System.setMyproc_cpu_of_ne hd]
  · rw [System.setMyproc_cpu_self]
    rfl
  · obtain rfl : p = q := Option.some.inj hq
    intro d hd hclaims
    have hruns := Place.runs_of_claims (h.unlocked_of_ne hlocked hd) hclaims
    rw [(h.running p).mpr ⟨d, hruns⟩] at hrunnable
    cases hrunnable
  · exact iff_of_true rfl ((h.locked c).mp hlocked)
  · rw [hplace]
    rfl

theorem setRunning (hplace : (system.cpu c).place = .scheduler (.chosen p)) :
    Inv ((system.put (system.proc.setState p .running)).goto c (.scheduler (.ready p))) := by
  refine h.change (System.goto_cpu_self _ _ _) (fun d hd ↦ System.goto_cpu_of_ne hd) ?_
    (fun q hq ↦ Or.inl ?_) ?_ (fun _ _ ↦ Iff.rfl) (fun q ↦ ?_) fun q point hq ↦ nomatch hq
  · refine (h.myproc c).trans ?_
    rw [hplace]
    rfl
  · rw [hplace]
    exact hq
  · exact iff_of_true rfl ((h.locked c).mp (by rw [hplace]; rfl))
  · by_cases hqp : q = p
    · refine iff_of_true ?_ (Or.inl (congrArg some hqp.symm))
      rw [hqp]
      exact congrArg Proc.state (update_self p _ system.proc)
    · have hsame : system.proc.setState p .running q = system.proc q := update_of_ne hqp _ _
      change (system.proc.setState p .running q).state = .running ↔ _
      rw [hsame, hplace]
      exact ⟨fun hrunning ↦ Or.inr ⟨hrunning, (nomatch ·)⟩, fun hor ↦
        (hor.resolve_left fun heq ↦ hqp (Option.some.inj heq).symm).1⟩

theorem swtchTo (hplace : (system.cpu c).place = .scheduler (.ready p)) :
    Inv (system.swtchTo c p) := by
  refine h.change (update_self _ _ _) (fun d hd ↦ update_of_ne hd _ _) ?_
    (fun q hq ↦ Or.inl ?_) ?_ (fun _ _ ↦ Iff.rfl) (h.running_same ?_ fun _ ↦ Iff.rfl)
    fun q point hq ↦ ?_
  · refine (h.myproc c).trans ?_
    rw [hplace]
    rfl
  · rw [hplace]
    exact hq
  · exact iff_of_true rfl ((h.locked c).mp (by rw [hplace]; rfl))
  · rw [hplace]
    rfl
  · obtain ⟨rfl, -⟩ := Place.process.inj hq
    rfl

theorem swtchFrom
    (hplace : (system.cpu c).place = .process p (.sched ret)) : Inv (system.swtchFrom c p ret) := by
  have hback := h.saved c p _ hplace
  unfold System.swtchFrom
  rw [hback]
  refine h.stay hplace rfl rfl (fun q point hq ↦ nomatch hq) rfl fun q ↦ ?_
  rw [setContext_state]

theorem forget {i : ℕ} (hplace : (system.cpu c).place = .scheduler (.back p)) :
    Inv ((system.setMyproc c none).goto c (.scheduler (.scan i))) := by
  refine h.change (System.goto_cpu_self _ _ _) (fun d hd ↦ ?_) ?_ (fun q hq ↦ nomatch hq) ?_
    (fun _ _ ↦ Iff.rfl) (h.running_same ?_ fun _ ↦ Iff.rfl) fun q point hq ↦ nomatch hq
  · rw [System.goto_cpu_of_ne hd, System.setMyproc_cpu_of_ne hd]
  · rw [System.setMyproc_cpu_self]
    rfl
  · exact iff_of_true rfl ((h.locked c).mp (by rw [hplace]; rfl))
  · rw [hplace]
    rfl

theorem advanceScheduler {point : SchedPoint} (hplace : (system.cpu c).place = .scheduler point)
    (hok : system.advanceScheduler c point = .ok next) : Inv next := by
  cases point with
  | idle =>
    obtain ⟨system', hacquire, hnext⟩ := bind_eq_ok.mp hok
    cases hnext
    exact h.acquire hplace (by rfl) (by rfl) (by rintro _ _ ⟨⟩) hacquire rfl
  | scan i =>
    rw [System.advanceScheduler] at hok
    split at hok
    · split at hok
      · cases hok
        exact h.stay hplace rfl rfl (fun _ _ hprocess ↦ nomatch hprocess) rfl fun _ ↦ Iff.rfl
      · rename_i hrunnable
        cases hok
        exact h.choose hplace (not_not.mp hrunnable)
    · cases hok
      exact h.stay hplace rfl rfl (fun _ _ hprocess ↦ nomatch hprocess) rfl fun _ ↦ Iff.rfl
  | chosen p =>
    cases hok
    exact h.setRunning hplace
  | ready p =>
    cases hok
    exact h.swtchTo hplace
  | back p =>
    cases hok
    exact h.forget hplace
  | unlock =>
    obtain ⟨system', hrelease, hnext⟩ := bind_eq_ok.mp hok
    cases hnext
    exact h.release hplace (by rfl) (by rfl) (by rintro _ _ ⟨⟩) hrelease rfl
  | wakeup chan =>
    cases hok
    exact h.stay hplace rfl rfl (fun _ _ hprocess ↦ nomatch hprocess) rfl (wakeup1_running chan)

theorem work {point' : Point} (hplace : (system.cpu c).place = .process p point)
    (hlocked : (Place.process p point').locked = (Place.process p point).locked)
    (hruns : (Place.process p point').runs = (Place.process p point).runs)
    (hstates : ∀ q, (procs q).state = .running ↔ (system.proc q).state = .running) :
    Inv ((system.put procs).goto c (.process p point')) := by
  refine h.stay hplace rfl hruns (fun q point'' hq ↦ ?_) hlocked hstates
  obtain ⟨rfl, -⟩ := Place.process.inj hq
  exact ⟨point, rfl⟩

theorem sched (hplace : (system.cpu c).place = .process p (.sched ret))
    (hok : system.sched c ret = .ok next) : Inv next := by
  unfold System.sched at hok
  rw [h.myproc_eq (by rw [hplace]; rfl), ok_bind] at hok
  split at hok
  · cases hok
  · split at hok
    · cases hok
    · cases hok
      exact h.swtchFrom hplace

theorem advanceProcess (hplace : (system.cpu c).place = .process p point)
    (hok : system.advanceProcess c p point = .ok next) : Inv next := by
  have hmyproc : system.myproc c = .ok p := h.myproc_eq (by rw [hplace]; rfl)
  cases point with
  | outside | wait => cases hok
  | yield =>
    rw [System.advanceProcess, hmyproc] at hok
    cases hok
    exact h.mark hplace rfl rfl (by rw [setState_state_self]; exact (nomatch ·)) fun q hq ↦ by
      rw [setState_of_ne hq]
  | sleep chan =>
    rw [System.advanceProcess, hmyproc] at hok
    cases hok
    exact h.mark hplace rfl rfl (by rw [setState_state_self]; exact (nomatch ·)) fun q hq ↦ by
      rw [setState_of_ne hq, setChan_state]
  | exit chans =>
    rw [System.advanceProcess, hmyproc] at hok
    cases hok
    exact h.mark hplace rfl rfl (by rw [setState_state_self]; exact (nomatch ·)) fun q hq ↦ by
      rw [setState_of_ne hq]
      exact wakeups_running chans q _
  | wakeup chan =>
    cases hok
    exact h.work hplace rfl rfl (wakeup1_running chan)
  | kill q =>
    rw [System.advanceProcess] at hok
    split at hok
    · rename_i hsleeping
      cases hok
      exact h.work hplace rfl rfl (setState_running hsleeping (by decide) (by decide))
    · cases hok
      exact h.work hplace rfl rfl fun _ ↦ Iff.rfl
  | allocproc q =>
    rw [System.advanceProcess] at hok
    split at hok
    · rename_i hunused
      cases hok
      refine h.work hplace rfl rfl fun r ↦ ?_
      rw [setContext_state]
      exact setState_running hunused (by decide) (by decide) r
    · cases hok
  | fork q =>
    rw [System.advanceProcess] at hok
    split at hok
    · rename_i hembryo
      cases hok
      exact h.work hplace rfl rfl (setState_running hembryo (by decide) (by decide))
    · cases hok
  | sched ret => exact h.sched hplace hok
  | resumed ret =>
    cases ret with
    | forkret | yield =>
      cases hok
      exact h.work hplace rfl rfl fun _ ↦ Iff.rfl
    | sleep | wait =>
      cases hok
      exact h.work hplace rfl rfl fun q ↦ by rw [setChan_state]
    | exit => cases hok
  | leaving =>
    obtain ⟨system', hrelease, hnext⟩ := bind_eq_ok.mp hok
    cases hnext
    refine h.release hplace (by rfl) (by rfl) (fun q point hq ↦ ?_) hrelease rfl
    obtain ⟨rfl, -⟩ := Place.process.inj hq
    exact ⟨_, rfl⟩

theorem waitStep {choice : WaitChoice} (hplace : (system.cpu c).place = .process p .wait)
    (hok : system.waitStep c p choice = .ok next) : Inv next := by
  cases choice with
  | reap q =>
    rw [System.waitStep] at hok
    split at hok
    · rename_i hzombie
      cases hok
      exact h.work hplace rfl rfl (setState_running hzombie (by decide) (by decide))
    · cases hok
  | leave =>
    cases hok
    exact h.work hplace rfl rfl fun _ ↦ Iff.rfl
  | sleep =>
    rw [System.waitStep, h.myproc_eq (by rw [hplace]; rfl)] at hok
    cases hok
    exact h.mark hplace rfl rfl (by rw [setState_state_self]; exact (nomatch ·)) fun q hq ↦ by
      rw [setState_of_ne hq, setChan_state]

theorem enter (hok : system.enter c point = .ok next) : Inv next := by
  unfold System.enter at hok
  split at hok
  · rename_i p hplace
    split at hok
    · rename_i hentry
      obtain ⟨system', hacquire, hnext⟩ := bind_eq_ok.mp hok
      cases hnext
      obtain ⟨hlocked, hruns⟩ := Point.of_isEntry hentry p
      refine h.acquire hplace (by rfl) hruns (fun q point hq ↦ ?_) hacquire hlocked
      obtain ⟨rfl, -⟩ := Place.process.inj hq
      exact ⟨_, rfl⟩
    · cases hok
  · rename_i hplace
    obtain ⟨system', hacquire, hnext⟩ := bind_eq_ok.mp hok
    cases hnext
    exact h.acquire hplace (by rfl) (by rfl) (by rintro _ _ ⟨⟩) hacquire rfl
  · cases hok

theorem step {label : Label Id} {result : Unit}
    (hok : step system label = .ok (next, result)) : Inv next := by
  cases label with
  | enter c point =>
    obtain ⟨system', henter, hnext⟩ := bind_eq_ok.mp hok
    cases hnext
    exact h.enter henter
  | advance c =>
    obtain ⟨system', hadvance, hnext⟩ := bind_eq_ok.mp hok
    cases hnext
    unfold advance at hadvance
    split at hadvance
    · rename_i point hplace
      exact h.advanceScheduler hplace hadvance
    · rename_i p point hplace
      exact h.advanceProcess hplace hadvance
  | wait c choice =>
    rw [Scheduler.step] at hok
    split at hok
    · rename_i p hplace
      obtain ⟨system', hwait, hnext⟩ := bind_eq_ok.mp hok
      cases hnext
      exact h.waitStep hplace hwait
    · cases hok

end Inv

section Runs

variable {Id : Type} [DecidableEq Id] {start system : System Id}

/-- In every run each process belongs to one CPU at most; while the lock is free, the running
processes are those that belong to a CPU; and a process is resumed only while no CPU is on its
stack. -/
theorem process_runs_on_one_cpu (hstart : Initial start)
    (hrun : Runs step (fun _ _ ↦ True) start system) :
    (∀ c d p, (system.cpu c).proc = some p → (system.cpu d).proc = some p → d = c) ∧
    (system.lock = none → ∀ p, (system.proc p).state = .running ↔
      ∃! c, (system.cpu c).proc = some p) ∧
    ∀ c p, (system.cpu c).place = .scheduler (.ready p) →
      ∀ d point, (system.cpu d).place ≠ .process p point := by
  have hinv : Inv system := hrun.invariant Inv hstart.inv fun _ _ _ _ h _ hok ↦ h.step hok
  have hunique : ∀ c d p, (system.cpu c).proc = some p → (system.cpu d).proc = some p → d = c := by
    intro c d p hc hd
    rw [hinv.myproc] at hc hd
    exact hinv.unique c d p hc hd
  refine ⟨hunique, fun hfree p ↦ ?_, fun c p hc d point hd ↦ ?_⟩
  · rw [hinv.running p]
    constructor
    · rintro ⟨c, hc⟩
      have hproc : (system.cpu c).proc = some p := by
        rw [hinv.myproc]
        exact Place.claims_of_runs hc
      exact ⟨c, hproc, fun d hd ↦ hunique c d p hproc hd⟩
    · rintro ⟨c, hc, -⟩
      have hunlocked : (system.cpu c).place.locked = false := by
        rw [Bool.eq_false_iff]
        intro hlocked
        rw [(hinv.locked c).mp hlocked] at hfree
        cases hfree
      rw [hinv.myproc] at hc
      exact ⟨c, Place.runs_of_claims hunlocked hc⟩
  · obtain rfl : d = c := hinv.unique c d p (by rw [hc]; rfl) (by rw [hd]; rfl)
    rw [hc] at hd
    cases hd

/-- On the stack of a process `myproc()` is that process, its scheduler waits behind the `swtch` to
it, and inside a section under `ptable.lock` the CPU has the lock. -/
theorem myproc_is_own_process (hstart : Initial start)
    (hrun : Runs step (fun _ _ ↦ True) start system) {c : Id} {p : Slot} {point : Point}
    (hplace : (system.cpu c).place = .process p point) :
    system.myproc c = .ok p ∧ (system.cpu c).scheduler = .back p ∧
      (point ≠ .outside → system.lock = some c) ∧
      ∀ ret, point = .sched ret → system.sched c ret = .ok (system.swtchFrom c p ret) := by
  have hinv : Inv system := hrun.invariant Inv hstart.inv fun _ _ _ _ h _ hok ↦ h.step hok
  have hclaims : (system.cpu c).place.claims = some p := by rw [hplace]; rfl
  have hlock (hinside : point ≠ .outside) : system.lock = some c := by
    refine (hinv.locked c).mp ?_
    rw [hplace]
    cases point <;> first | rfl | exact absurd rfl hinside
  refine ⟨hinv.myproc_eq hclaims, hinv.saved c p point hplace, hlock, ?_⟩
  rintro ret rfl
  have hstate : (system.proc p).state ≠ .running := by
    intro hrunning
    obtain ⟨d, hd⟩ := (hinv.running p).mp hrunning
    rw [hinv.unique c d p hclaims (Place.claims_of_runs hd), hplace] at hd
    cases hd
  unfold System.sched
  rw [hinv.myproc_eq hclaims, ok_bind, if_neg (not_not.mpr (hlock (by simp))), if_neg hstate]
  rfl

end Runs

/-- Two CPUs and two processes that have not run yet. -/
def twoCpus : System Bool where
  lock := none
  cpu _ := ⟨none, .idle, .scheduler .idle⟩
  proc p := ⟨if p.val < 2 then .runnable else .unused, none, .forkret⟩

theorem twoCpus_initial : Initial twoCpus := by
  refine ⟨rfl, fun _ ↦ ⟨rfl, rfl⟩, fun p ↦ ?_⟩
  change (if p.val < 2 then ProcState.runnable else .unused) ≠ .running
  split
  · exact (nomatch ·)
  · exact (nomatch ·)

/-- Both CPUs run a process. -/
theorem process_runs_on_one_cpu_two : ∃ system : System Bool, system.lock = none ∧
    (system.cpu false).proc = some 0 ∧ (system.cpu true).proc = some 1 ∧
    ∃! c, (system.cpu c).proc = some 0 := by
  obtain ⟨system, hrun, hfree, hfirst, hsecond, hrunning⟩ :
      ∃ system, Runs step (fun _ _ ↦ True) twoCpus system ∧ system.lock = none ∧
        (system.cpu false).proc = some 0 ∧ (system.cpu true).proc = some 1 ∧
        (system.proc 0).state = .running := by
    apply Runs.of_labels (List.replicate 6 (.advance false) ++ List.replicate 7 (.advance true))
    decide +kernel
  exact ⟨system, hfree, hfirst, hsecond,
    ((process_runs_on_one_cpu twoCpus_initial hrun).2.1 hfree 0).mp hrunning⟩

/-- The second CPU is in the `sched` of a `yield`. -/
theorem myproc_is_own_process_yield : ∃ system : System Bool,
    (system.cpu true).place = .process 0 (.sched .yield) ∧ system.myproc true = .ok 0 := by
  obtain ⟨system, hrun, hplace⟩ : ∃ system, Runs step (fun _ _ ↦ True) twoCpus system ∧
      (system.cpu true).place = .process 0 (.sched .yield) := by
    apply Runs.of_labels (List.replicate 6 (.advance true) ++ [.enter true .yield, .advance true])
    decide +kernel
  exact ⟨system, hplace, (myproc_is_own_process twoCpus_initial hrun hplace).1⟩

end Xv6Shm.Scheduler
