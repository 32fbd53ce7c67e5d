import Xv6Shm.Proc.Ptable

/-!
# Parents and children

Every process that has started has a living parent, and a parent that sleeps in `wait` has no zombie
child: `exit` wakes its parent before it becomes a zombie and passes its children to init, which it
wakes when one of them is a zombie. The history of a slot is a sequence of lives, each ended by one
call of `wait` by the parent.
-/

namespace Xv6Shm.Ptable

open Fallible Function

variable {process : Proc} {chan : Chan} {child : Slot}

/-- A process that sleeps in `wait` can be woken by its children, none of which has ended. -/
def Expects (procs : Procs) (p : Slot) : Prop :=
  (procs p).chan = some (.proc p) ∧ ∀ q, (procs q).parent = some p → (procs q).state ≠ .zombie

/-- What holds between the steps. -/
structure Inv (system : System) : Prop where
  init : (system.proc system.initproc).state.alive = true
  parent : ∀ p ≠ system.initproc,
    (system.proc p).state.alive = true ∨ (system.proc p).state = .zombie →
    ∃ q ≠ p, (system.proc p).parent = some q ∧ (system.proc q).state.alive = true
  embryo : ∀ p np, (system.thread p).holds = some np →
    (system.proc np).state = .embryo ∧ (system.proc p).state.alive = true
  copied : ∀ p np, system.thread p = .copied np → (system.proc np).parent = some p
  holder : ∀ p q np, (system.thread p).holds = some np → (system.thread q).holds = some np → q = p
  waiting : ∀ p, (system.proc p).state = .sleeping → system.thread p = .waiting →
    Expects system.proc p

variable {system : System} {procs : Procs} {p curproc : Slot}

theorem Initial.inv (h : Initial system) : Inv system where
  init := by rw [h.init]; rfl
  parent p hp hstarted := by
    rw [h.unused p hp] at hstarted
    rcases hstarted with halive | hzombie
    · cases halive
    · cases hzombie
  embryo p np hholds := by
    rw [h.thread p] at hholds
    cases hholds
  copied p np hcopied := by
    rw [h.thread p] at hcopied
    cases hcopied
  holder p q np hholds := by
    rw [h.thread p] at hholds
    cases hholds
  waiting p _ hwaiting := by
    rw [h.thread p] at hwaiting
    cases hwaiting

/-- A table in which the same processes live, with the same parents. -/
structure Calm (procs procs' : Procs) : Prop where
  parent : ∀ p, (procs' p).parent = (procs p).parent
  state : ∀ p, (procs' p).state = (procs p).state ∨
    (procs p).state.alive = true ∧ (procs' p).state.alive = true

namespace Calm

variable {procs procs' : Procs}

theorem alive (h : Calm procs procs') (p : Slot) :
    (procs' p).state.alive = (procs p).state.alive := by
  rcases h.state p with hsame | ⟨hbefore, hafter⟩
  · rw [hsame]
  · rw [hbefore, hafter]

theorem of_not_alive (h : Calm procs procs') {p : Slot}
    (hstate : (procs p).state.alive = false) : (procs' p).state = (procs p).state := by
  rcases h.state p with hsame | ⟨hbefore, -⟩
  · exact hsame
  · rw [hstate] at hbefore
    cases hbefore

theorem zombie (h : Calm procs procs') {p : Slot} (hzombie : (procs' p).state = .zombie) :
    (procs p).state = .zombie := by
  refine (h.of_not_alive ?_).symm.trans hzombie
  rw [← h.alive, hzombie]
  rfl

theorem update {p : Slot} (hparent : process.parent = (procs p).parent)
    (hstate : process.state = (procs p).state ∨
      (procs p).state.alive = true ∧ process.state.alive = true) :
    Calm procs (update procs p process) where
  parent := (forall_update_iff procs
    (p := fun q after ↦ after.parent = (procs q).parent)).mpr ⟨hparent, fun _ _ ↦ rfl⟩
  state := (forall_update_iff procs (p := fun q after ↦ after.state = (procs q).state ∨
      (procs q).state.alive = true ∧ after.state.alive = true)).mpr
    ⟨hstate, fun _ _ ↦ Or.inl rfl⟩

end Calm

/-- A calm change in which nobody falls asleep. -/
structure Quiet (procs procs' : Procs) : Prop extends Calm procs procs' where
  asleep : ∀ p, (procs' p).state = .sleeping →
    (procs p).state = .sleeping ∧ (procs' p).chan = (procs p).chan

namespace Quiet

variable {procs procs' : Procs}

theorem update {p : Slot} (hparent : process.parent = (procs p).parent)
    (hstate : process.state = (procs p).state ∨
      (procs p).state.alive = true ∧ process.state.alive = true)
    (hasleep : process.state = .sleeping →
      (procs p).state = .sleeping ∧ process.chan = (procs p).chan) :
    Quiet procs (update procs p process) where
  toCalm := Calm.update hparent hstate
  asleep := (forall_update_iff procs (p := fun q after ↦ after.state = .sleeping →
      (procs q).state = .sleeping ∧ after.chan = (procs q).chan)).mpr
    ⟨hasleep, fun _ _ hsleeping ↦ ⟨hsleeping, rfl⟩⟩

theorem setState {p : Slot} {state : ProcState} (hbefore : (procs p).state.alive = true)
    (hafter : state.alive = true) (hawake : state ≠ .sleeping) :
    Quiet procs (procs.setState p state) :=
  update rfl (Or.inr ⟨hbefore, hafter⟩) fun hsleeping ↦ absurd hsleeping hawake

theorem wakeup1 (chan : Option Chan) : Quiet procs (procs.wakeup1 chan) := by
  refine ⟨⟨fun q ↦ ?_, fun q ↦ ?_⟩, fun q ↦ ?_⟩
  all_goals
    unfold Procs.wakeup1
    split
  · rfl
  · rfl
  · rename_i hwoken
    exact Or.inr ⟨by rw [hwoken.1, ProcState.alive], rfl⟩
  · exact Or.inl rfl
  · exact fun hsleeping ↦ nomatch hsleeping
  · exact fun hsleeping ↦ ⟨hsleeping, rfl⟩

theorem setKilled (p : Slot) : Quiet procs (procs.setKilled p) := by
  unfold Procs.setKilled
  split
  · rename_i hsleeping
    exact update rfl (Or.inr ⟨by rw [hsleeping, ProcState.alive], rfl⟩) fun h ↦ nomatch h
  · exact update rfl (Or.inl rfl) fun h ↦ ⟨h, rfl⟩

theorem tidy {p : Slot} (hawake : (procs p).state ≠ .sleeping) : Quiet procs (procs.tidy p) :=
  update rfl (Or.inl rfl) fun hsleeping ↦ absurd hsleeping hawake

end Quiet

theorem wakeup1_awake (hsleeping : (procs.wakeup1 (some chan) p).state = .sleeping) :
    (procs.wakeup1 (some chan) p).chan ≠ some chan := by
  unfold Procs.wakeup1 at hsleeping ⊢
  split at hsleeping
  · cases hsleeping
  · rename_i hnot
    rw [if_neg hnot]
    exact fun hchan ↦ hnot ⟨hsleeping, hchan⟩

theorem setParent_parent_self (procs : Procs) (p parent : Slot) :
    (procs.setParent p parent p).parent = some parent := by
  rw [Procs.setParent, update_self]

theorem setParent_of_ne {parent q : Slot} (h : q ≠ p) :
    procs.setParent p parent q = procs q := update_of_ne h _ _

theorem setParent_state (procs : Procs) (p parent q : Slot) :
    (procs.setParent p parent q).state = (procs q).state := by
  unfold Procs.setParent
  by_cases hq : q = p
  · rw [hq, update_self]
  · rw [update_of_ne hq]

theorem setParent_chan (procs : Procs) (p parent q : Slot) :
    (procs.setParent p parent q).chan = (procs q).chan := by
  unfold Procs.setParent
  by_cases hq : q = p
  · rw [hq, update_self]
  · rw [update_of_ne hq]

theorem setParent_wakeup1 (procs : Procs) (p parent : Slot) (chan : Option Chan) :
    (procs.setParent p parent).wakeup1 chan = (procs.wakeup1 chan).setParent p parent := by
  funext q
  unfold Procs.wakeup1 Procs.setParent
  by_cases hq : q = p
  · rw [hq, update_self, update_self]
    dsimp only
    by_cases hwoken : (procs p).state = .sleeping ∧ (procs p).chan = chan
    · rw [if_pos hwoken, if_pos hwoken]
    · rw [if_neg hwoken, if_neg hwoken]
  · rw [update_of_ne hq, update_of_ne hq]

namespace Inv

variable {system : System} {procs : Procs} {p np : Slot} {point : Point}

section

variable (h : Inv system)

include h

theorem calm (hcalm : Calm system.proc procs)
    (hwaiting : ∀ p, (procs p).state = .sleeping → system.thread p = .waiting → Expects procs p) :
    Inv (system.put procs) where
  init := (hcalm.alive _).trans h.init
  parent p hp hstarted := by
    have hbefore := hstarted.imp (fun halive ↦ (hcalm.alive p).symm.trans halive) hcalm.zombie
    obtain ⟨q, hne, hparent, halive⟩ := h.parent p hp hbefore
    exact ⟨q, hne, (hcalm.parent p).trans hparent, (hcalm.alive q).trans halive⟩
  embryo p np hholds := by
    obtain ⟨hembryo, halive⟩ := h.embryo p np hholds
    refine ⟨(hcalm.of_not_alive ?_).trans hembryo, (hcalm.alive p).trans halive⟩
    rw [hembryo]
    rfl
  copied p np hcopied := (hcalm.parent np).trans (h.copied p np hcopied)
  holder := h.holder
  waiting := hwaiting

theorem quiet (hquiet : Quiet system.proc procs) : Inv (system.put procs) := by
  refine h.calm hquiet.toCalm fun p hsleeping hwaiting ↦ ?_
  obtain ⟨hbefore, hchan⟩ := hquiet.asleep p hsleeping
  obtain ⟨hself, hchildren⟩ := h.waiting p hbefore hwaiting
  exact ⟨hchan.trans hself, fun q hparent hzombie ↦
    hchildren q ((hquiet.parent q).symm.trans hparent) (hquiet.zombie hzombie)⟩

theorem fallAsleep (halive : (system.proc p).state.alive = true)
    (hwaiting : system.thread p = .waiting → chan = .proc p ∧
      ∀ q, (system.proc q).parent = some p → (system.proc q).state ≠ .zombie) :
    Inv (system.put (system.proc.fallAsleep p chan)) := by
  have hcalm : Calm system.proc (system.proc.fallAsleep p chan) :=
    Calm.update rfl (Or.inr ⟨halive, rfl⟩)
  have hchildren : ∀ r, (∀ q, (system.proc q).parent = some r → (system.proc q).state ≠ .zombie) →
      ∀ q, (system.proc.fallAsleep p chan q).parent = some r →
        (system.proc.fallAsleep p chan q).state ≠ .zombie :=
    fun r hr q hparent hzombie ↦ hr q ((hcalm.parent q).symm.trans hparent) (hcalm.zombie hzombie)
  refine h.calm hcalm fun r hsleeping hr ↦ ?_
  by_cases hrp : r = p
  · subst hrp
    obtain ⟨hchan, hnone⟩ := hwaiting hr
    refine ⟨?_, hchildren r hnone⟩
    rw [Procs.fallAsleep, update_self, hchan]
  · have hsame : system.proc.fallAsleep p chan r = system.proc r := update_of_ne hrp _ _
    rw [hsame] at hsleeping
    obtain ⟨hchan, hnone⟩ := h.waiting r hsleeping hr
    exact ⟨(congrArg Proc.chan hsame).trans hchan, hchildren r hnone⟩

theorem goto (hholds : ∀ np, point.holds = some np → (system.proc np).state = .embryo ∧
      (system.proc p).state.alive = true ∧ ∀ q ≠ p, (system.thread q).holds ≠ some np)
    (hcopied : ∀ np, point = .copied np → (system.proc np).parent = some p)
    (hwaiting : point = .waiting → (system.proc p).state = .sleeping → Expects system.proc p) :
    Inv (system.move p point system.proc) := by
  have hsplit : ∀ q, (system.move p point system.proc).thread q = point ∧ q = p ∨
      (system.move p point system.proc).thread q = system.thread q ∧ q ≠ p := by
    intro q
    by_cases hq : q = p
    · exact Or.inl ⟨by rw [hq]; exact update_self _ _ _, hq⟩
    · exact Or.inr ⟨update_of_ne hq _ _, hq⟩
  refine ⟨h.init, h.parent, fun q np hq ↦ ?_, fun q np hq ↦ ?_, fun q r np hq hr ↦ ?_,
    fun q hsleeping hq ↦ ?_⟩
  · rcases hsplit q with ⟨hself, rfl⟩ | ⟨hother, -⟩
    · obtain ⟨hembryo, halive, -⟩ := hholds np (hself ▸ hq)
      exact ⟨hembryo, halive⟩
    · exact h.embryo q np (hother ▸ hq)
  · rcases hsplit q with ⟨hself, rfl⟩ | ⟨hother, -⟩
    · exact hcopied np (hself.symm.trans hq)
    · exact h.copied q np (hother.symm.trans hq)
  · rcases hsplit q with ⟨hself, rfl⟩ | ⟨hother, hqp⟩
    · rcases hsplit r with ⟨-, hr'⟩ | ⟨hother', hrp⟩
      · exact hr'
      · exact absurd (hother' ▸ hr) ((hholds np (hself ▸ hq)).2.2 r hrp)
    · rcases hsplit r with ⟨hself', rfl⟩ | ⟨hother', -⟩
      · exact absurd (hother ▸ hq) ((hholds np (hself' ▸ hr)).2.2 q hqp)
      · exact h.holder q r np (hother ▸ hq) (hother' ▸ hr)
  · rcases hsplit q with ⟨hself, rfl⟩ | ⟨hother, -⟩
    · exact hwaiting (hself.symm.trans hq) hsleeping
    · exact h.waiting q hsleeping (hother.symm.trans hq)

theorem leave : Inv (system.move p .user system.proc) :=
  h.goto (fun _ hholds ↦ nomatch hholds) (fun _ hcopied ↦ nomatch hcopied)
    fun hwaiting ↦ nomatch hwaiting

theorem hold (hholds : point.holds = some np) (hembryo : (system.proc np).state = .embryo)
    (halive : (system.proc p).state.alive = true)
    (hfree : ∀ q ≠ p, (system.thread q).holds ≠ some np)
    (hcopied : point = .copied np → (system.proc np).parent = some p) :
    Inv (system.move p point system.proc) := by
  refine h.goto (fun np' hnp' ↦ ?_) (fun np' hnp' ↦ ?_) fun hwaiting ↦ ?_
  · obtain rfl := Option.some.inj (hholds.symm.trans hnp')
    exact ⟨hembryo, halive, hfree⟩
  · obtain rfl : np = np' := Option.some.inj (hholds.symm.trans (congrArg Point.holds hnp'))
    exact hcopied hnp'
  · rw [hwaiting] at hholds
    cases hholds

/-- The process of a slot changes. If it dies it has no children; a zombie finds its parent awake;
it does not fall asleep. -/
theorem change {r : Slot} (hdies : (system.proc r).state.alive = true → process.state.alive = true ∨
      r ≠ system.initproc ∧ (system.thread r).holds = none ∧ ∀ q, (system.proc q).parent ≠ some r)
    (hparent : r ≠ system.initproc → process.state.alive = true ∨ process.state = .zombie →
      ∃ q ≠ r, process.parent = some q ∧ (system.proc q).state.alive = true)
    (hheld : ∀ q, (system.thread q).holds = some r → process.state = .embryo ∧
      (system.thread q = .copied r → process.parent = some q))
    (hzombie : process.state = .zombie → ∀ q, process.parent = some q →
      (system.proc q).state = .sleeping → (system.proc q).chan ≠ some (.proc q))
    (hasleep : process.state = .sleeping → (system.proc r).state = .sleeping ∧
      process.chan = (system.proc r).chan) :
    Inv (system.put (update system.proc r process)) := by
  have hself : update system.proc r process r = process := update_self _ _ _
  have hother : ∀ q ≠ r, update system.proc r process q = system.proc q :=
    fun q hq ↦ update_of_ne hq _ _
  -- who lives stays alive, unless it is the one that dies
  have hlives : ∀ q, (system.proc q).state.alive = true →
      (q = r → ¬(r ≠ system.initproc ∧ (system.thread r).holds = none ∧
        ∀ q, (system.proc q).parent ≠ some r)) →
      (update system.proc r process q).state.alive = true := by
    intro q halive hstays
    by_cases hq : q = r
    · subst hq
      rw [hself]
      exact (hdies halive).resolve_right (hstays rfl)
    · rwa [hother q hq]
  refine ⟨?_, fun q hq hstarted ↦ ?_, fun q n hq ↦ ?_, fun q n hq ↦ ?_, h.holder,
    fun q hsleeping hwaiting ↦ ?_⟩
  · exact hlives _ h.init fun hinit hdead ↦ hdead.1 hinit.symm
  · rw [System.put_proc] at hstarted ⊢
    by_cases hqr : q = r
    · subst hqr
      rw [hself] at hstarted ⊢
      obtain ⟨s, hne, hs, halive⟩ := hparent hq hstarted
      exact ⟨s, hne, hs, by rwa [hother s hne]⟩
    · rw [hother q hqr] at hstarted ⊢
      obtain ⟨s, hne, hs, halive⟩ := h.parent q hq hstarted
      exact ⟨s, hne, hs, hlives s halive fun hsr hdead ↦ hdead.2.2 q (hsr ▸ hs)⟩
  · obtain ⟨hembryo, halive⟩ := h.embryo q n hq
    refine ⟨?_, hlives q halive fun hqr hdead ↦ ?_⟩
    · rw [System.put_proc]
      by_cases hn : n = r
      · subst hn
        rw [hself]
        exact (hheld q hq).1
      · rwa [hother n hn]
    · rw [System.put_thread, hqr, hdead.2.1] at hq
      cases hq
  · rw [System.put_proc]
    rw [System.put_thread] at hq
    by_cases hn : n = r
    · subst hn
      rw [hself]
      exact (hheld q (by rw [hq]; rfl)).2 hq
    · rw [hother n hn]
      exact h.copied q n hq
  · rw [System.put_proc] at hsleeping ⊢
    have hbefore : (system.proc q).state = .sleeping ∧
        (update system.proc r process q).chan = (system.proc q).chan := by
      by_cases hqr : q = r
      · subst hqr
        rw [hself] at hsleeping ⊢
        exact hasleep hsleeping
      · rw [hother q hqr] at hsleeping ⊢
        exact ⟨hsleeping, rfl⟩
    obtain ⟨hchan, hchildren⟩ := h.waiting q hbefore.1 hwaiting
    refine ⟨hbefore.2.trans hchan, fun x hx hended ↦ ?_⟩
    by_cases hxr : x = r
    · rw [hxr, hself] at hx hended
      exact hzombie hended q hx hbefore.1 hchan
    · rw [hother x hxr] at hx hended
      exact hchildren x hx hended

theorem replace (hbefore : (system.proc np).state.alive = false)
    (hafter : process.state = .unused ∨ process.state = .embryo)
    (hheld : ∀ q, (system.thread q).holds = some np → process.state = .embryo ∧
      (system.thread q = .copied np → process.parent = some q)) :
    Inv (system.put (update system.proc np process)) := by
  have hstate : process.state.alive = false ∧ process.state ≠ .zombie ∧
      process.state ≠ .sleeping := by
    rcases hafter with hstate | hstate
    · rw [hstate]
      decide
    · rw [hstate]
      decide
  obtain ⟨hdead, hnot, hawake⟩ := hstate
  refine h.change (fun halive ↦ ?_) (fun _ hstarted ↦ ?_) hheld (fun hzombie ↦ absurd hzombie hnot)
    fun hsleeping ↦ absurd hsleeping hawake
  · rw [hbefore] at halive
    cases halive
  · rw [hdead] at hstarted
    exact absurd hstarted (not_or.mpr ⟨Bool.false_ne_true, hnot⟩)

theorem start (hembryo : (system.proc np).state = .embryo)
    (hfree : ∀ q, (system.thread q).holds ≠ some np) (hparent : (system.proc np).parent = some p)
    (halive : (system.proc p).state.alive = true) :
    Inv (system.put (system.proc.setState np .runnable)) := by
  refine h.change (fun _ ↦ Or.inl rfl) (fun _ _ ↦ ⟨p, fun hp ↦ ?_, hparent, halive⟩)
    (fun q hq ↦ absurd hq (hfree q)) (nomatch ·) (nomatch ·)
  rw [hp, hembryo] at halive
  cases halive

theorem adopt (hparent : (system.proc child).parent = some p)
    (hholds : (system.thread p).holds = none)
    (hwoken : (system.proc child).state = .zombie →
      (system.proc system.initproc).state = .sleeping →
        (system.proc system.initproc).chan ≠ some (.proc system.initproc)) :
    Inv (system.put (system.proc.setParent child system.initproc)) := by
  refine h.change Or.inl (fun hne _ ↦ ⟨_, hne.symm, rfl, h.init⟩) (fun q hq ↦ ?_)
    (fun hzombie q hq hsleeping ↦ ?_) fun hsleeping ↦ ⟨hsleeping, rfl⟩
  · refine ⟨(h.embryo q child hq).1, fun hcopied ↦ ?_⟩
    -- the parent of a copied process is in `fork`, not in `exit`
    obtain rfl : q = p := Option.some.inj ((h.copied q child hcopied).symm.trans hparent)
    rw [hq] at hholds
    cases hholds
  · obtain rfl : system.initproc = q := Option.some.inj hq
    exact hwoken hzombie hsleeping

end

end Inv

/-- The parent of a process does not sleep on its channel. -/
def ParentAwake (procs : Procs) (p : Slot) : Prop :=
  ∀ q, (procs p).parent = some q → (procs q).state = .sleeping → (procs q).chan ≠ some (.proc q)

theorem ParentAwake.quiet {procs' : Procs} (h : ParentAwake procs p)
    (hquiet : Quiet procs procs') : ParentAwake procs' p := by
  intro q hparent hsleeping
  obtain ⟨hbefore, hchan⟩ := hquiet.asleep q hsleeping
  rw [hchan]
  exact h q ((hquiet.parent p).symm.trans hparent) hbefore

/-- What holds in the loop of `exit`. -/
structure Exiting (system : System) (curproc : Slot) (procs : Procs) : Prop where
  inv : Inv (system.put procs)
  running : (procs curproc).state = .running
  parentAwake : ParentAwake procs curproc
  orphan : (procs curproc).parent ≠ some curproc

namespace Exiting

variable {system : System} {procs : Procs} {curproc : Slot}

theorem quiet (h : Exiting system curproc procs) {procs' : Procs} (hquiet : Quiet procs procs')
    (hrunning : (procs' curproc).state = .running) : Exiting system curproc procs' where
  inv := h.inv.quiet hquiet
  running := hrunning
  parentAwake := h.parentAwake.quiet hquiet
  orphan := by rw [hquiet.parent]; exact h.orphan

section

variable (h : Exiting system curproc procs) (hholds : (system.thread curproc).holds = none)

include h hholds

/-- One child is passed on, after init was woken if the child is a zombie. -/
theorem adopt (hparent : (procs child).parent = some curproc)
    (hwoken : (procs child).state = .zombie → (procs system.initproc).state = .sleeping →
      (procs system.initproc).chan ≠ some (.proc system.initproc)) :
    Exiting system curproc (procs.setParent child system.initproc) := by
  have hne : curproc ≠ child := by
    rintro rfl
    exact h.orphan hparent
  have hsame : procs.setParent child system.initproc curproc = procs curproc := setParent_of_ne hne
  refine ⟨h.inv.adopt hparent hholds hwoken, hsame ▸ h.running, fun q hq hsleeping ↦ ?_,
    hsame ▸ h.orphan⟩
  rw [setParent_state] at hsleeping
  rw [setParent_chan]
  exact h.parentAwake q (hsame ▸ hq) hsleeping

theorem passChild (child : Slot) :
    Exiting system curproc (procs.passChild curproc system.initproc child) := by
  unfold Procs.passChild
  split
  · rename_i hparent
    dsimp only
    rw [setParent_state]
    split
    · -- init is woken before it gets a zombie
      have hquiet : Quiet procs (procs.wakeup1 (some (.proc system.initproc))) := Quiet.wakeup1 _
      have hrunning : (procs.wakeup1 (some (.proc system.initproc)) curproc).state = .running := by
        rw [Procs.wakeup1, if_neg, h.running]
        rw [h.running]
        exact fun hsleeping ↦ nomatch hsleeping.1
      rw [setParent_wakeup1]
      exact (h.quiet hquiet hrunning).adopt hholds ((hquiet.parent child).trans hparent)
        fun _ ↦ wakeup1_awake
    · rename_i hzombie
      exact h.adopt hholds hparent fun hstate ↦ absurd hstate hzombie
  · exact h

end

end Exiting

/-- Nobody becomes a child in a round, and its slot is none afterwards. -/
theorem passChild_parent {initproc : Slot} (hinit : curproc ≠ initproc)
    (hp : p = child ∨ (procs p).parent ≠ some curproc) :
    (procs.passChild curproc initproc child p).parent ≠ some curproc := by
  have hset : ((procs.setParent child initproc) p).parent ≠ some curproc := by
    by_cases hchild : p = child
    · rw [hchild, setParent_parent_self]
      exact fun h ↦ hinit (Option.some.inj h).symm
    · rw [setParent_of_ne hchild]
      exact hp.resolve_left hchild
  unfold Procs.passChild
  split
  · dsimp only
    split
    · rw [(Quiet.wakeup1 _).parent]
      exact hset
    · exact hset
  · rename_i hnot
    rcases hp with rfl | hp
    · exact hnot
    · exact hp

/-- The loop of `exit` over some slots, none of which is a child afterwards. -/
theorem Exiting.passChildren
    (hholds : (system.thread curproc).holds = none) (hinit : curproc ≠ system.initproc)
    (slots : List Slot) : ∀ {procs : Procs}, Exiting system curproc procs →
      Exiting system curproc (slots.foldl (Procs.passChild curproc system.initproc) procs) ∧
      ∀ p, p ∈ slots ∨ (procs p).parent ≠ some curproc →
        (slots.foldl (Procs.passChild curproc system.initproc) procs p).parent ≠ some curproc := by
  induction slots with
  | nil => exact fun h ↦ ⟨h, fun p hp ↦ hp.resolve_left List.not_mem_nil⟩
  | cons child rest ih =>
    intro procs h
    obtain ⟨hexiting, hparent⟩ := ih (h.passChild hholds child)
    refine ⟨hexiting, fun p hp ↦ hparent p ?_⟩
    rw [List.mem_cons, or_assoc, or_left_comm] at hp
    exact hp.imp_right (passChild_parent hinit)

theorem Exiting.finish
    (h : Exiting system curproc procs) (hholds : (system.thread curproc).holds = none)
    (hinit : curproc ≠ system.initproc) (hnone : ∀ p, (procs p).parent ≠ some curproc) :
    Inv (system.put (procs.setState curproc .zombie)) := by
  refine h.inv.change (fun _ ↦ Or.inr ⟨hinit, hholds, hnone⟩) (fun hne _ ↦ ?_) (fun q hq ↦ ?_)
    (fun _ ↦ h.parentAwake) (nomatch ·)
  · exact h.inv.parent curproc hne (Or.inl (congrArg ProcState.alive h.running))
  · have hembryo := (h.inv.embryo q curproc hq).1
    rw [System.put_proc, h.running] at hembryo
    cases hembryo

theorem Inv.exit (h : Inv system) (hrunning : (system.proc curproc).state = .running)
    (hholds : (system.thread curproc).holds = none) (hinit : curproc ≠ system.initproc) :
    Inv (system.put (system.proc.exit curproc system.initproc)) := by
  obtain ⟨q, hne, hparent, -⟩ := h.parent curproc hinit (Or.inl (by rw [hrunning]; rfl))
  have hquiet : Quiet system.proc (system.proc.wakeup1 ((system.proc curproc).parent.map .proc)) :=
    Quiet.wakeup1 _
  have hstart : Exiting system curproc
      (system.proc.wakeup1 ((system.proc curproc).parent.map .proc)) := by
    refine ⟨h.quiet hquiet, ?_, fun r hr hsleeping ↦ ?_, ?_⟩
    · rw [Procs.wakeup1, if_neg, hrunning]
      rw [hrunning]
      exact fun hsleeping ↦ nomatch hsleeping.1
    · rw [hquiet.parent, hparent] at hr
      obtain rfl := Option.some.inj hr
      rw [hparent] at hsleeping ⊢
      exact wakeup1_awake hsleeping
    · rw [hquiet.parent, hparent]
      exact fun heq ↦ hne (Option.some.inj heq)
  obtain ⟨hexiting, hnone⟩ := hstart.passChildren hholds hinit (List.finRange nProc)
  exact hexiting.finish hholds hinit fun p ↦ hnone p (Or.inl (List.mem_finRange p))

section Step

variable {system : System} {p : Slot}

theorem alive_of_running (h : (system.proc p).state = .running) :
    (system.proc p).state.alive = true := by
  rw [h]
  rfl

theorem Inv.allocproc (h : Inv system) (hrunning : (system.proc p).state = .running) :
    Inv (system.allocproc p).1 := by
  unfold System.allocproc
  split
  · exact h
  · rename_i np hfound
    have hunused : (system.proc np).state = .unused := by
      have hfirst := List.find?_some hfound
      exact of_decide_eq_true hfirst
    have hfree : ∀ q, (system.thread q).holds ≠ some np := by
      intro q hq
      rw [(h.embryo q np hq).1] at hunused
      cases hunused
    have hne : p ≠ np := by
      rintro rfl
      rw [hrunning] at hunused
      cases hunused
    have hplaced : Inv (system.put (system.proc.claim np system.nextpid)) :=
      h.replace (by rw [hunused]; rfl) (Or.inr rfl) fun q hq ↦ absurd hq (hfree q)
    have hheld : Inv (system.move p (.allocated np) (system.proc.claim np system.nextpid)) := by
      refine hplaced.hold rfl ?_ ?_ (fun q _ ↦ hfree q) fun hcopied ↦ nomatch hcopied
      · rw [System.put_proc, Procs.claim, update_self]
      · rw [System.put_proc, Procs.claim, update_of_ne hne]
        exact alive_of_running hrunning
    exact ⟨hheld.init, hheld.parent, hheld.embryo, hheld.copied, hheld.holder, hheld.waiting⟩

variable {np : Slot}

section

variable (h : Inv system)

include h

theorem Inv.abandon (hholds : (system.thread p).holds = some np) : Inv (system.abandon p np) := by
  obtain ⟨hembryo, -⟩ := h.embryo p np hholds
  refine h.leave.replace ?_ (Or.inl rfl) fun q hq ↦ ?_
  · rw [System.move_proc, hembryo]
    rfl
  · by_cases hqp : q = p
    · rw [hqp, System.move_thread_self] at hq
      cases hq
    · rw [System.move_thread_of_ne hqp] at hq
      exact absurd (h.holder p q np hholds hq) hqp

theorem Inv.kalloc (hallocated : system.thread p = .allocated np) :
    Inv (system.move p (.stacked np) system.proc) := by
  have hholds : (system.thread p).holds = some np := by rw [hallocated]; rfl
  obtain ⟨hembryo, halive⟩ := h.embryo p np hholds
  exact h.hold rfl hembryo halive (fun q hq hq' ↦ hq (h.holder p q np hholds hq'))
    fun hcopied ↦ nomatch hcopied

/-- The memory is copied and the child gets its parent. -/
theorem Inv.copyuvm {np : Slot} (hstacked : system.thread p = .stacked np) :
    Inv (system.move p (.copied np) (system.proc.setParent np p)) := by
  have hholds : (system.thread p).holds = some np := by rw [hstacked]; rfl
  obtain ⟨hembryo, halive⟩ := h.embryo p np hholds
  have honly : ∀ q, (system.thread q).holds = some np → q = p := fun q ↦ h.holder p q np hholds
  have hplaced : Inv (system.put (system.proc.setParent np p)) := by
    refine h.replace (by rw [hembryo]; rfl) (Or.inr hembryo) fun q hq ↦ ⟨hembryo, fun hcopied ↦ ?_⟩
    rw [honly q hq, hstacked] at hcopied
    cases hcopied
  refine hplaced.hold rfl ?_ ?_ (fun q hq hq' ↦ hq (honly q hq')) fun _ ↦ ?_
  · rw [System.put_proc, setParent_state]
    exact hembryo
  · rw [System.put_proc, setParent_state]
    exact halive
  · exact setParent_parent_self _ _ _

/-- The last section of `fork`. -/
theorem Inv.fork (hrunning : (system.proc p).state = .running)
    (hcopied : system.thread p = .copied np) : Inv (system.fork p np) := by
  have hholds : (system.thread p).holds = some np := by rw [hcopied]; rfl
  have hleft : Inv ((system.move np .user system.proc).move p .user system.proc) := h.leave.leave
  refine hleft.start (h.embryo p np hholds).1 (fun q hq ↦ ?_) (h.copied p np hcopied)
    (alive_of_running hrunning)
  by_cases hqp : q = p
  · rw [hqp, System.move_thread_self] at hq
    cases hq
  · rw [System.move_thread_of_ne hqp] at hq
    by_cases hqnp : q = np
    · rw [hqnp, System.move_thread_self] at hq
      cases hq
    · rw [System.move_thread_of_ne hqnp] at hq
      exact hqp (h.holder p q np hholds hq)

theorem Inv.wait (hrunning : (system.proc p).state = .running) : Inv (system.wait p).1 := by
  unfold System.wait
  split
  · rename_i child hfound
    have hchild := List.find?_some hfound
    rw [Bool.and_eq_true, decide_eq_true_eq, decide_eq_true_eq] at hchild
    refine h.leave.replace ?_ (Or.inl rfl) fun q hq ↦ ?_
    · rw [System.move_proc, hchild.2]
      rfl
    · have hembryo := (h.leave.embryo q child hq).1
      rw [System.move_proc, hchild.2] at hembryo
      cases hembryo
  · rename_i hnone
    split
    · exact h.leave
    · have hchildren : ∀ q, (system.proc q).parent = some p → (system.proc q).state ≠ .zombie := by
        intro q hparent hzombie
        have hq := List.find?_eq_none.mp hnone q (List.mem_finRange q)
        exact hq (by rw [hparent, hzombie, decide_eq_true rfl, decide_eq_true rfl, Bool.and_true])
      have hmoved : Inv (system.move p .waiting system.proc) :=
        h.goto (fun _ hholds ↦ nomatch hholds) (fun _ hcopied ↦ nomatch hcopied) fun _ hsleeping ↦ by
          rw [hrunning] at hsleeping
          cases hsleeping
      exact hmoved.fallAsleep (alive_of_running hrunning) fun _ ↦ ⟨rfl, hchildren⟩

theorem Inv.step {label : Label} {outcome : System × ℤ} (htakes : Takes system label outcome) :
    Inv outcome.1 := by
  cases htakes with
  | scheduler hrunnable =>
    exact h.quiet (Quiet.setState (by rw [hrunnable]; rfl) rfl (nomatch ·))
  | yield hrunning =>
    exact h.quiet (Quiet.setState (alive_of_running hrunning) rfl (nomatch ·))
  | allocproc hrunning _ => exact h.allocproc hrunning
  | kalloc _ hthread => exact h.kalloc hthread
  | kallocFails _ hthread => exact h.abandon (by rw [hthread]; rfl)
  | copyuvm _ hthread => exact h.copyuvm hthread
  | copyuvmFails _ hthread => exact h.abandon (by rw [hthread]; rfl)
  | fork hrunning hthread => exact h.fork hrunning hthread
  | exit hrunning hthread hinit => exact h.exit hrunning (by rw [hthread]; rfl) hinit
  | wait hrunning _ => exact h.wait hrunning
  | waitAgain hrunning _ =>
    refine (h.quiet (Quiet.tidy ?_)).wait ?_
    · rw [hrunning]
      exact (nomatch ·)
    · rw [System.put_proc, Procs.tidy, update_self, hrunning]
  | kill _ _ =>
    unfold System.kill
    split
    · exact h.quiet (Quiet.setKilled _)
    · exact h
  | sleep hrunning hthread =>
    refine (h.fallAsleep (alive_of_running hrunning) fun hwaiting ↦ ?_).goto
      (fun _ hholds ↦ nomatch hholds) (fun _ hcopied ↦ nomatch hcopied) fun hwaiting ↦ nomatch hwaiting
    rw [hthread] at hwaiting
    cases hwaiting
  | tidy hrunning _ =>
    refine (h.quiet (Quiet.tidy ?_)).leave
    rw [hrunning]
    exact (nomatch ·)
  | wakeup => exact h.quiet (Quiet.wakeup1 _)
  | trap _ _ => exact h.quiet (Quiet.update rfl (Or.inl rfl) fun hsleeping ↦ ⟨hsleeping, rfl⟩)

end

end Step

end Xv6Shm.Ptable
