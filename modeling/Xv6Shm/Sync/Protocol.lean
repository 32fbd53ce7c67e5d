import Xv6Shm.Sync.Sleep

/-!
# Rules for programs with `sleep` and `wakeup`

A protocol says for each channel under which condition a process may wait there, and what holds of
the users and the data of the object while the lock is free. A process that makes the condition of a
channel false owes a wakeup there and may not release the lock before it has paid. No wakeup is lost
between the test of a condition and the sleep, since `sleep` takes `ptable.lock` before it releases
the lock.
-/

namespace Xv6Shm

open Function Monitor Program

/-- Where a process is with respect to `sleep`. -/
inductive Waiting (Chan : Type) where
  | awake
  | bound (chan : Chan)
  | dozing (chan : Chan)

/-- What a process has at a point of its program: `ptable.lock`, the lock of the object with the
data, debts of wakeups, and what only the users of the object know. -/
structure Stake (Chan Data User : Type) where
  table : Bool
  view : Option Data
  owes : Chan → Prop
  waiting : Waiting Chan
  user : User

namespace Stake

variable {Chan Data User : Type}

/-- Outside all locks. -/
def outside (user : User) : Stake Chan Data User := ⟨false, none, fun _ ↦ False, .awake, user⟩

/-- With the lock of the object. -/
def inside (data : Data) (owes : Chan → Prop) (user : User) : Stake Chan Data User :=
  ⟨false, some data, owes, .awake, user⟩

theorem not_bound {stake : Stake Chan Data User} (h : stake.waiting = .awake) {c : Chan} :
    stake.waiting ≠ .bound c := by
  rw [h]
  exact fun hbound ↦ nomatch hbound

end Stake

section Rules

variable {Pid Chan Data Outer User Op Visit : Type} {Result : Op → Type} {Reply : Visit → Type}

/-- The rules of an object: what its operations do, when a process may wait on a channel and in
which role, how data and users agree, what holds while the lock is free, and with which faults a
call may end. -/
structure Protocol (Pid Chan Data Outer User : Type) {Op Visit : Type} (Result : Op → Type)
    (Reply : Visit → Type) where
  access : Pid → (op : Op) → Data → Except Fault (Result op × Data)
  visit : Pid → (op : Visit) → Outer → Except Fault (Reply op × Outer)
  waits : Chan → Data → Prop
  role : Chan → User → Prop
  agrees : Data → Outer → (Pid → User) → Prop
  settled : Data → Prop
  permitted : Monitor Pid Chan Data Outer → Pid → MonitorCall Pid Chan Op Visit → Prop
  allowed : Fault → Prop
  blocked : allowed .blocked

namespace Protocol

/-- What a process has is what the monitor says. -/
structure Backed (protocol : Protocol Pid Chan Data Outer User Result Reply)
    (m : Monitor Pid Chan Data Outer) (p : Pid) (stake : Stake Chan Data User) : Prop where
  guard : m.lock .guard = some p ↔ stake.view.isSome = true
  table : m.lock .ptable = some p ↔ stake.table = true
  view : ∀ data, stake.view = some data → m.data = data
  owes : ∀ c, stake.owes c → stake.view.isSome = true
  bound : ∀ c, stake.waiting = .bound c → stake.table = true ∧ protocol.role c stake.user
  asleep : m.state p = .sleeping →
    ∃ c, stake.waiting = .dozing c ∧ m.chan p = some c ∧ protocol.role c stake.user

/-- A process asleep on a channel or about to sleep there. -/
def Waits (m : Monitor Pid Chan Data Outer) (p : Pid) (stake : Stake Chan Data User) (c : Chan) :
    Prop := stake.waiting = .bound c ∨ m.Asleep p c

/-- Whoever waits does so under the condition of the channel, or will be woken up. -/
structure Holds (protocol : Protocol Pid Chan Data Outer User Result Reply)
    (m : Monitor Pid Chan Data Outer) (stakes : Pid → Stake Chan Data User) : Prop where
  backed : ∀ p, protocol.Backed m p (stakes p)
  reason : ∀ p c, Waits m p (stakes p) c → protocol.waits c m.data ∨ ∃ q, (stakes q).owes c
  agrees : protocol.agrees m.data m.outer fun p ↦ (stakes p).user
  settled : m.lock .guard = none → protocol.settled m.data

variable {protocol : Protocol Pid Chan Data Outer User Result Reply}
  {m m' : Monitor Pid Chan Data Outer} {stakes : Pid → Stake Chan Data User} {p : Pid}
  {stake : Stake Chan Data User}

/-- Nobody is asleep without reason while the lock is free. -/
theorem Holds.waits_of_free (h : protocol.Holds m stakes) (hfree : m.lock .guard = none) {c : Chan}
    (hasleep : m.Asleep p c) : protocol.waits c m.data := by
  rcases h.reason p c (Or.inr hasleep) with hwaits | ⟨q, howes⟩
  · exact hwaits
  · have hheld := (h.backed q).guard.mpr ((h.backed q).owes c howes)
    rw [hfree] at hheld
    cases hheld

theorem Backed.frame (h : protocol.Backed m p stake)
    (hguard : m'.lock .guard = some p ↔ m.lock .guard = some p)
    (htable : m'.lock .ptable = some p ↔ m.lock .ptable = some p)
    (hdata : stake.view.isSome = true → m'.data = m.data)
    (hasleep : m'.state p = .sleeping → m.state p = .sleeping ∧ m'.chan p = m.chan p) :
    protocol.Backed m' p stake := by
  refine ⟨hguard.trans h.guard, htable.trans h.table, fun data hview ↦ ?_, h.owes, h.bound,
    fun hsleeping ↦ ?_⟩
  · rw [hdata (by rw [hview]; rfl)]
    exact h.view data hview
  · obtain ⟨hbefore, hchan⟩ := hasleep hsleeping
    obtain ⟨c, hc⟩ := h.asleep hbefore
    exact ⟨c, hc.1, hchan.trans hc.2.1, hc.2.2⟩

theorem Backed.awake (h : protocol.Backed m p stake) (hawake : stake.waiting = .awake) :
    m.state p ≠ .sleeping := by
  intro hsleeping
  obtain ⟨c, hc, -⟩ := h.asleep hsleeping
  rw [hawake] at hc
  cases hc

theorem Holds.eq_of_table (h : protocol.Holds m stakes) {q : Pid} (hp : (stakes p).table = true)
    (hq : (stakes q).table = true) : q = p := by
  have hlock := (h.backed p).table.mpr hp
  rw [(h.backed q).table.mpr hq] at hlock
  exact Option.some.inj hlock

theorem Backed.role_of_waits (h : protocol.Backed m p stake) {c : Chan} (hwaits : Waits m p stake c) :
    protocol.role c stake.user := by
  rcases hwaits with hbound | ⟨hsleeping, hchan⟩
  · exact (h.bound c hbound).2
  · obtain ⟨c', -, hchan', hrole⟩ := h.asleep hsleeping
    rw [hchan] at hchan'
    exact Option.some.inj hchan' ▸ hrole

theorem Holds.of_outside {users : Pid → User} (hlock : ∀ lk, m.lock lk = none)
    (hawake : ∀ p, m.state p ≠ .sleeping) (hagrees : protocol.agrees m.data m.outer users)
    (hsettled : protocol.settled m.data) : protocol.Holds m fun p ↦ .outside (users p) := by
  refine ⟨fun p ↦ ?_, fun p c hwaits ↦ ?_, hagrees, fun _ ↦ hsettled⟩
  · exact ⟨by simp [hlock, Stake.outside], by simp [hlock, Stake.outside],
      fun _ hview ↦ (nomatch hview), fun _ howes ↦ howes.elim, fun _ hbound ↦ (nomatch hbound),
      fun hsleeping ↦ absurd hsleeping (hawake p)⟩
  · rcases hwaits with hbound | ⟨hsleeping, -⟩
    · cases hbound
    · exact absurd hsleeping (hawake p)

section Moves

variable [DecidableEq Pid]

theorem Holds.move (h : protocol.Holds m stakes) (hself : protocol.Backed m' p stake)
    (hothers : ∀ q ≠ p, protocol.Backed m q (stakes q) → protocol.Backed m' q (stakes q))
    (hwaiting : ∀ q c, Waits m' q (update stakes p stake q) c →
      Waits m q (stakes q) c ∨ protocol.waits c m'.data)
    (hreason : ∀ c, protocol.waits c m.data ∨ (stakes p).owes c →
      (∃ q, Waits m' q (update stakes p stake q) c) →
      protocol.waits c m'.data ∨ stake.owes c)
    (hagrees : protocol.agrees m'.data m'.outer (update (fun q ↦ (stakes q).user) p stake.user))
    (hsettled : m'.lock .guard = none → protocol.settled m'.data) :
    protocol.Holds m' (update stakes p stake) := by
  refine ⟨fun q ↦ ?_, fun q c hq ↦ ?_, ?_, hsettled⟩
  · by_cases hqp : q = p
    · subst hqp
      rwa [update_self]
    · rw [update_of_ne hqp]
      exact hothers q hqp (h.backed q)
  · have hkeep : protocol.waits c m.data ∨ (stakes p).owes c →
        protocol.waits c m'.data ∨ ∃ r, (update stakes p stake r).owes c := by
      intro hc
      rcases hreason c hc ⟨q, hq⟩ with hwaits | howes
      · exact Or.inl hwaits
      · exact Or.inr ⟨p, by rwa [update_self]⟩
    rcases hwaiting q c hq with hbefore | hnow
    · rcases h.reason q c hbefore with hwaits | ⟨r, hr⟩
      · exact hkeep (Or.inl hwaits)
      · by_cases hrp : r = p
        · subst hrp
          exact hkeep (Or.inr hr)
        · exact Or.inr ⟨r, by rwa [update_of_ne hrp]⟩
    · exact Or.inl hnow
  · have husers : (fun q ↦ (update stakes p stake q).user) =
        update (fun q ↦ (stakes q).user) p stake.user := by
      funext q
      by_cases hqp : q = p
      · subst hqp
        simp only [update_self]
      · simp only [update_of_ne hqp]
    rwa [husers]

theorem agrees_same {data : Data} {outer : Outer} {users : Pid → User} {user : User}
    (h : protocol.agrees data outer users) (hp : users p = user) :
    protocol.agrees data outer (update users p user) := by
  rwa [update_eq_self_iff.mpr hp.symm]

section

variable (h : protocol.Holds m stakes)

include h

theorem Holds.agrees_self (p : Pid) : protocol.agrees m.data m.outer
      (update (fun q ↦ (stakes q).user) p (stakes p).user) :=
  agrees_same h.agrees rfl

theorem Holds.act (hdata : m'.data = m.data) (houter : m'.outer = m.outer)
    (hself : protocol.Backed m' p stake)
    (hlock : ∀ q ≠ p, ∀ lk, m'.lock lk = some q ↔ m.lock lk = some q)
    (hstate : ∀ q ≠ p, m'.state q = m.state q ∧ m'.chan q = m.chan q)
    (hwaiting : ∀ c, Waits m' p stake c → Waits m p (stakes p) c ∨ protocol.waits c m.data)
    (howes : ∀ c, (stakes p).owes c → stake.owes c)
    (hagrees : protocol.agrees m.data m.outer (update (fun q ↦ (stakes q).user) p stake.user))
    (hsettled : m'.lock .guard = none → protocol.settled m.data) :
    protocol.Holds m' (update stakes p stake) := by
  refine h.move hself (fun q hq hbacked ↦ hbacked.frame (hlock q hq _) (hlock q hq _)
    (fun _ ↦ hdata) fun hsleeping ↦ ⟨(hstate q hq).1 ▸ hsleeping, (hstate q hq).2⟩)
    (fun q c hq ↦ ?_) (fun c hc _ ↦ ?_) ?_ (hdata ▸ hsettled)
  · by_cases hqp : q = p
    · subst hqp
      rw [update_self] at hq
      rw [hdata]
      exact hwaiting c hq
    · rw [update_of_ne hqp, Waits, Monitor.Asleep, (hstate q hqp).1, (hstate q hqp).2] at hq
      exact Or.inl hq
  · rw [hdata]
    exact hc.imp_right (howes c)
  · rw [hdata, houter]
    exact hagrees

/-- A process takes a lock that is free, or gives back one that it has. -/
theorem Holds.relock {lk : SpinLock} {holder : Option Pid}
    (hself : protocol.Backed (m.setLock lk holder) p stake)
    (hheld : m.lock lk = none ∧ holder = some p ∨ m.lock lk = some p ∧ holder = none)
    (hwaiting : ∀ c, stake.waiting = .bound c → (stakes p).waiting = .bound c ∨ protocol.waits c m.data)
    (howes : ∀ c, (stakes p).owes c → stake.owes c)
    (hagrees : protocol.agrees m.data m.outer (update (fun q ↦ (stakes q).user) p stake.user))
    (hsettled : (m.setLock lk holder).lock .guard = none → protocol.settled m.data) :
    protocol.Holds (m.setLock lk holder) (update stakes p stake) := by
  refine h.act rfl rfl hself (fun q hq l ↦ m.setLock_lock_iff hheld hq l)
    (fun q hq ↦ ⟨rfl, rfl⟩) (fun c hc ↦ ?_) howes hagrees hsettled
  rcases hc with hbound | hasleep
  · exact (hwaiting c hbound).imp_left Or.inl
  · exact Or.inl (Or.inr hasleep)

/-- Processes may wake up, and a process pays debts that nobody waits for any more. -/
theorem Holds.rouse (m' : Monitor Pid Chan Data Outer) (hlock : m'.lock = m.lock)
    (hdata : m'.data = m.data) (houter : m'.outer = m.outer) (hchan : m'.chan = m.chan)
    (hstate : ∀ q, m'.state q = .sleeping → m.state q = .sleeping) (p : Pid) {owes : Chan → Prop}
    (hfewer : ∀ c, owes c → (stakes p).owes c)
    (hpaid : ∀ c, (stakes p).owes c → owes c ∨ ∀ q, ¬ Waits m' q (stakes q) c) :
    protocol.Holds m' (update stakes p { stakes p with owes := owes }) := by
  have hbacked : ∀ q, protocol.Backed m' q (stakes q) := fun q ↦
    (h.backed q).frame (by rw [hlock]) (by rw [hlock]) (fun _ ↦ hdata) fun hsleeping ↦
      ⟨hstate q hsleeping, by rw [hchan]⟩
  have hwaits : ∀ q c, Waits m' q (update stakes p { stakes p with owes := owes } q) c →
      Waits m' q (stakes q) c := by
    intro q c hq
    by_cases hqp : q = p
    · subst hqp
      rw [update_self] at hq
      exact hq
    · rwa [update_of_ne hqp] at hq
  refine h.move ?_ (fun q _ _ ↦ hbacked q) (fun q c hq ↦ ?_) (fun c hc ⟨q, hq⟩ ↦ ?_) ?_
    (hlock ▸ hdata ▸ h.settled)
  · have hself := hbacked p
    exact ⟨hself.guard, hself.table, hself.view, fun c hc ↦ hself.owes c (hfewer c hc), hself.bound,
      hself.asleep⟩
  · rcases hwaits q c hq with hbound | ⟨hsleeping, hc⟩
    · exact Or.inl (Or.inl hbound)
    · exact Or.inl (Or.inr ⟨hstate q hsleeping, hchan ▸ hc⟩)
  · rw [hdata]
    refine hc.imp_right fun howes ↦ ?_
    exact (hpaid c howes).resolve_right fun hnone ↦ hnone q (hwaits q c hq)
  · rw [hdata, houter, update_eq_self]
    exact h.agrees

end

end Moves

section Calls

variable [DecidableEq Pid] [DecidableEq Chan]

/-- The safety of a program under the rules of a protocol. -/
abbrev Safe (protocol : Protocol Pid Chan Data Outer User Result Reply) {Value : Type}
    (program : MonitorProgram Pid Chan Result Reply Value) (stake : Stake Chan Data User)
    (post : Value → Stake Chan Data User → Prop) : Prop :=
  program.Safe (perform protocol.access protocol.visit) protocol.Holds protocol.permitted
    protocol.allowed post stake

open MonitorProgram

variable {post : Unit → Stake Chan Data User → Prop} {c : Chan}

theorem acquire_safe (hview : stake.view = none) (hawake : stake.waiting = .awake)
    (hpost : ∀ data outer users p, protocol.agrees data outer users → users p = stake.user →
      protocol.settled data → post () { stake with view := some data }) :
    protocol.Safe acquire stake post := by
  rintro m stakes p h rfl _
  have hself := h.backed p
  have hother : m.lock .guard ≠ some p := fun hheld ↦ by
    have hsome := hself.guard.mp hheld
    rw [hview] at hsome
    cases hsome
  refine (acquire_ends protocol.blocked hother).mono ?_
  rintro _ m' ⟨hfree, rfl⟩
  refine ⟨{ stakes p with view := some m.data }, h.relock ?_ (Or.inl ⟨hfree, rfl⟩)
    (fun c hbound ↦ Or.inl hbound) (fun _ ↦ id) (h.agrees_self p) (by simp),
    hpost m.data m.outer _ p h.agrees rfl (h.settled hfree)⟩
  exact ⟨by simp, by simpa using hself.table, fun data hdata ↦ Option.some.inj hdata,
    fun _ _ ↦ rfl, hself.bound, fun hsleeping ↦ absurd hsleeping (hself.awake hawake)⟩

variable {data : Data} {user : User} {owes : Chan → Prop}

/-- The lock may be released when no wakeup is owed, and on the way to sleep. -/
theorem release_stake_safe (hview : stake.view = some data) (howes : ∀ c, ¬ stake.owes c)
    (hawake : stake.waiting = .awake) {waiting : Waiting Chan}
    (hwaiting : waiting = .awake ∨ ∃ c, waiting = .bound c ∧ stake.table = true ∧
      protocol.role c user ∧ protocol.waits c data)
    (hagrees : ∀ outer users p, protocol.agrees data outer users → users p = stake.user →
      protocol.agrees data outer (update users p user)) (hsettled : protocol.settled data)
    (hpost : post () ⟨stake.table, none, fun _ ↦ False, waiting, user⟩) :
    protocol.Safe release stake post := by
  rintro m stakes p h rfl _
  have hself := h.backed p
  have hheld : m.lock .guard = some p := hself.guard.mpr (by rw [hview]; rfl)
  have hdata := hself.view data hview
  refine (release_ends hheld).mono ?_
  rintro _ m' rfl
  refine ⟨⟨(stakes p).table, none, fun _ ↦ False, waiting, user⟩, h.relock ?_
    (Or.inr ⟨hheld, rfl⟩) (fun c hbound ↦ ?_) howes ?_ fun _ ↦ hdata ▸ hsettled, hpost⟩
  · refine ⟨by simp, by simpa using hself.table, fun _ hnone ↦ (nomatch hnone),
      fun c hc ↦ hc.elim, fun c hbound ↦ ?_,
      fun hsleeping ↦ absurd hsleeping (hself.awake hawake)⟩
    rcases hwaiting with rfl | ⟨c', rfl, htable, hrole, -⟩
    · cases hbound
    · cases hbound
      exact ⟨htable, hrole⟩
  · rcases hwaiting with rfl | ⟨c', rfl, -, -, hwaits⟩
    · cases hbound
    · cases hbound
      exact Or.inr (hdata ▸ hwaits)
  · have hbefore := h.agrees
    rw [hdata] at hbefore ⊢
    exact hagrees m.outer _ p hbefore rfl

theorem acquire_ptable_safe (htable : stake.table = false) (hawake : stake.waiting = .awake)
    (hpost : post () { stake with table := true }) :
    protocol.Safe (call (.acquire .ptable)) stake post := by
  rintro m stakes p h rfl _
  have hself := h.backed p
  have hother : m.lock .ptable ≠ some p := fun hheld ↦ by
    have htrue := hself.table.mp hheld
    rw [htable] at htrue
    cases htrue
  refine (acquire_ends protocol.blocked hother).mono ?_
  rintro _ m' ⟨hfree, rfl⟩
  refine ⟨{ stakes p with table := true }, h.relock ?_ (Or.inl ⟨hfree, rfl⟩)
    (fun c hbound ↦ Or.inl hbound) (fun _ ↦ id) (h.agrees_self p) h.settled, hpost⟩
  exact ⟨by simpa using hself.guard, by simp, hself.view, hself.owes,
    fun c hbound ↦ ⟨rfl, (hself.bound c hbound).2⟩,
    fun hsleeping ↦ absurd hsleeping (hself.awake hawake)⟩

theorem release_ptable_safe (htable : stake.table = true) (hawake : stake.waiting = .awake)
    (hpost : post () { stake with table := false }) :
    protocol.Safe (call (.release .ptable)) stake post := by
  rintro m stakes p h rfl _
  have hself := h.backed p
  have hheld := hself.table.mpr htable
  refine (release_ends hheld).mono ?_
  rintro _ m' rfl
  refine ⟨{ stakes p with table := false }, h.relock ?_ (Or.inr ⟨hheld, rfl⟩)
    (fun c hbound ↦ Or.inl hbound) (fun _ ↦ id) (h.agrees_self p) h.settled, hpost⟩
  exact ⟨by simpa using hself.guard, by simp, hself.view, hself.owes,
    fun c hbound ↦ absurd hbound (Stake.not_bound hawake),
    fun hsleeping ↦ absurd hsleeping (hself.awake hawake)⟩

theorem doze_safe (htable : stake.table = true) (hview : stake.view = none)
    (hbound : stake.waiting = .bound c)
    (hpost : post () { stake with table := false, waiting := .dozing c }) :
    protocol.Safe (call (.doze c)) stake post := by
  rintro m stakes p h rfl _
  have hself := h.backed p
  have hguard : m.lock .guard ≠ some p := fun hheld ↦ by
    have hsome := hself.guard.mp hheld
    rw [hview] at hsome
    cases hsome
  have hheld := hself.table.mpr htable
  refine (doze_ends hheld hguard).mono ?_
  rintro _ m' rfl
  refine ⟨{ stakes p with table := false, waiting := .dozing c }, h.act rfl rfl ?_
    (fun q hq l ↦ setLock_lock_iff _ (Or.inr ⟨hheld, rfl⟩) hq l) (fun q hq ↦ ?_)
    (fun c' hc' ↦ ?_) (fun _ ↦ id) (h.agrees_self p) h.settled, hpost⟩
  · exact ⟨by simpa using hself.guard, by simp, hself.view, hself.owes, fun _ hc ↦ (nomatch hc),
      fun _ ↦ ⟨c, rfl, by simp, (hself.bound c hbound).2⟩⟩
  · simp [setState_state_of_ne hq, setChan_chan_of_ne hq]
  · rcases hc' with hnone | ⟨-, hchan⟩
    · cases hnone
    · have hsame : c = c' := by simpa using hchan
      exact Or.inl (Or.inl (hsame ▸ hbound))

theorem resume_safe (hdozing : stake.waiting = .dozing c)
    (hpost : post () { stake with table := true, waiting := .awake }) :
    protocol.Safe (call .resume) stake post := by
  rintro m stakes p h rfl _
  have hself := h.backed p
  refine (resume_ends protocol.blocked).mono ?_
  rintro _ m' ⟨hfree, rfl⟩
  refine ⟨{ stakes p with table := true, waiting := .awake }, h.act rfl rfl ?_
    (fun q hq l ↦ setLock_lock_iff _ (Or.inl ⟨hfree, rfl⟩) hq l)
    (fun q hq ↦ ⟨setState_state_of_ne hq, rfl⟩) (fun c' hc' ↦ ?_) (fun _ ↦ id)
    (h.agrees_self p) h.settled, hpost⟩
  · exact ⟨by simpa using hself.guard, by simp, hself.view, hself.owes, fun _ hc ↦ (nomatch hc),
      fun hsleeping ↦ by simp at hsleeping⟩
  · rcases hc' with hnone | ⟨hsleeping, -⟩
    · cases hnone
    · simp at hsleeping

theorem tidy_safe (hawake : stake.waiting = .awake) (hpost : post () stake) :
    protocol.Safe (call .tidy) stake post := by
  rintro m stakes p h rfl _
  have hself := h.backed p
  refine ⟨stakes p, h.act rfl rfl ?_ (fun _ _ _ ↦ Iff.rfl)
    (fun q hq ↦ ⟨rfl, setChan_chan_of_ne hq⟩) (fun c' hc' ↦ ?_) (fun _ ↦ id)
    (h.agrees_self p) h.settled, hpost⟩
  · exact ⟨hself.guard, hself.table, hself.view, hself.owes, hself.bound,
      fun hsleeping ↦ absurd hsleeping (hself.awake hawake)⟩
  · rcases hc' with hbound | ⟨hsleeping, -⟩
    · exact Or.inl (Or.inl hbound)
    · exact absurd hsleeping (hself.awake hawake)

/-- Nobody waits on a channel right after a wakeup there. -/
theorem wakeup1_safe (htable : stake.table = true) (hawake : stake.waiting = .awake)
    (hpost : post () { stake with owes := fun c' ↦ stake.owes c' ∧ c' ≠ c }) :
    protocol.Safe (call (.wakeup1 c)) stake post := by
  rintro m stakes p h rfl _
  have hnobody : ∀ q, ¬ Waits (m.rouse c) q (stakes q) c := by
    rintro q (hbound | ⟨hsleeping, hchan⟩)
    · have hqp := h.eq_of_table htable ((h.backed q).bound c hbound).1
      rw [hqp, hawake] at hbound
      cases hbound
    · obtain ⟨hstate, hasleep⟩ := rouse_asleep.mp hsleeping
      exact hasleep ⟨hstate, hchan⟩
  refine ⟨_, h.rouse (m.rouse c) rfl rfl rfl rfl (fun q hq ↦ (rouse_asleep.mp hq).1) p
    (fun _ hc ↦ hc.1) (fun c' hc' ↦ ?_), hpost⟩
  by_cases hc : c' = c
  · exact Or.inr (hc ▸ hnobody)
  · exact Or.inl ⟨hc', hc⟩

theorem kill1_safe (q : Pid) (hpost : post () stake) :
    protocol.Safe (call (.kill1 q)) stake post := by
  rintro m stakes p h rfl _
  exact ⟨_, h.rouse (m.setKilled q) rfl rfl rfl rfl (fun _ hr ↦ setKilled_asleep hr) p
    (fun _ ↦ id) (fun _ ↦ Or.inl), hpost⟩

/-- A process reads its flag; debts that nobody waits for can be forgotten. -/
theorem isKilled_safe {post : Bool → Stake Chan Data User → Prop}
    (hpost : ∀ m stakes p, protocol.Holds m stakes → stakes p = stake →
      protocol.permitted m p .isKilled → ∃ owes : Chan → Prop, (∀ c, owes c → stake.owes c) ∧
        (∀ c, stake.owes c → owes c ∨ ∀ q, ¬ Waits m q (stakes q) c) ∧
        post (m.killed p) { stake with owes := owes }) : protocol.Safe isKilled stake post := by
  rintro m stakes p h rfl hpermitted
  obtain ⟨owes, hfewer, hpaid, hnext⟩ := hpost m stakes p h rfl hpermitted
  exact ⟨_, h.rouse m rfl rfl rfl rfl (fun _ ↦ id) p hfewer hpaid, hnext⟩

/-- An operation on the data. A debt arises where a process in its role may wait and the condition
of the channel is not kept. -/
theorem access_safe {op : Op} {post : Result op → Stake Chan Data User → Prop}
    (hview : stake.view = some data) (hawake : stake.waiting = .awake)
    (hpost : ∀ outer users p, protocol.agrees data outer users → users p = stake.user →
      Ends protocol.allowed (fun result data' ↦ ∃ user owes,
        protocol.agrees data' outer (update users p user) ∧
        (∀ c, protocol.waits c data ∨ stake.owes c → (∃ q, protocol.role c (users q)) →
          protocol.waits c data' ∨ owes c) ∧
        post result { stake with view := some data', owes := owes, user := user })
        (protocol.access p op data)) : protocol.Safe (MonitorProgram.access op) stake post := by
  rintro m stakes p h rfl _
  have hself := h.backed p
  have hdata := hself.view data hview
  have hsome : (stakes p).view.isSome = true := by rw [hview]; rfl
  have hends := hpost m.outer _ p (hdata ▸ h.agrees) rfl
  change Ends _ _ (protocol.access p op m.data >>= fun result ↦ pure (result.1, _))
  rw [hdata]
  revert hends
  cases protocol.access p op data with
  | error fault => exact id
  | ok result =>
    rintro ⟨user, owes, hagrees, hreason, hnext⟩
    have hwaits : ∀ q c, Waits { m with data := result.2 } q (update stakes p
        { stakes p with view := some result.2, owes := owes, user := user } q) c →
        Waits m q (stakes q) c ∧ protocol.role c (stakes q).user := by
      intro q c hq
      have hbefore : Waits m q (stakes q) c := by
        by_cases hqp : q = p
        · subst hqp
          rw [update_self] at hq
          exact hq
        · rwa [update_of_ne hqp] at hq
      exact ⟨hbefore, (h.backed q).role_of_waits hbefore⟩
    refine ⟨_, h.move ?_ (fun q hq hbacked ↦ ?_) (fun q c hq ↦ Or.inl (hwaits q c hq).1)
      (fun c hc ⟨q, hq⟩ ↦ ?_) hagrees (fun hfree ↦ ?_), hnext⟩
    · exact ⟨iff_of_true (hself.guard.mpr hsome) rfl, hself.table,
        fun data' hdata' ↦ Option.some.inj hdata', fun _ _ ↦ rfl,
        fun c hbound ↦ absurd hbound (Stake.not_bound hawake),
        fun hsleeping ↦ absurd hsleeping (hself.awake hawake)⟩
    · refine hbacked.frame Iff.rfl Iff.rfl (fun hview' ↦ ?_) fun hsleeping ↦ ⟨hsleeping, rfl⟩
      have hheld := hbacked.guard.mpr hview'
      rw [hself.guard.mpr hsome] at hheld
      exact absurd (Option.some.inj hheld).symm hq
    · exact hreason c (hdata ▸ hc) ⟨q, (hwaits q c hq).2⟩
    · have hheld : m.lock .guard = none := hfree
      rw [hself.guard.mpr hsome] at hheld
      cases hheld

theorem look_safe {op : Op} {result : Result op} {post : Result op → Stake Chan Data User → Prop}
    (hlook : ∀ p, protocol.access p op data = .ok (result, data))
    (hpost : post result (.inside data owes user)) :
    protocol.Safe (MonitorProgram.access op) (.inside data owes user) post := by
  refine access_safe rfl rfl fun outer users p hagrees hp ↦ ?_
  rw [hlook p]
  exact ⟨user, owes, agrees_same hagrees hp, fun _ hc _ ↦ hc, hpost⟩

theorem visit_safe {op : Visit} {post : Reply op → Stake Chan Data User → Prop}
    (hawake : stake.waiting = .awake)
    (hpost : ∀ data outer users p, protocol.agrees data outer users → users p = stake.user →
      (∀ data', stake.view = some data' → data' = data) →
      Ends protocol.allowed (fun reply outer' ↦ ∃ user,
        protocol.agrees data outer' (update users p user) ∧
        post reply { stake with user := user })
        (protocol.visit p op outer)) : protocol.Safe (MonitorProgram.visit op) stake post := by
  rintro m stakes p h rfl _
  have hself := h.backed p
  have hends := hpost m.data m.outer _ p h.agrees rfl fun data' hview ↦ (hself.view data' hview).symm
  change Ends _ _ (protocol.visit p op m.outer >>= fun reply ↦ pure (reply.1, _))
  revert hends
  cases protocol.visit p op m.outer with
  | error fault => exact id
  | ok reply =>
    rintro ⟨user, hagrees, hnext⟩
    refine ⟨{ stakes p with user := user }, h.move ?_ (fun q _ hbacked ↦ ?_)
      (fun q c hq ↦ Or.inl ?_) (fun c hc _ ↦ hc) hagrees h.settled, hnext⟩
    · exact ⟨hself.guard, hself.table, hself.view, hself.owes,
        fun c hbound ↦ absurd hbound (Stake.not_bound hawake),
        fun hsleeping ↦ absurd hsleeping (hself.awake hawake)⟩
    · exact hbacked.frame Iff.rfl Iff.rfl (fun _ ↦ rfl) fun hsleeping ↦ ⟨hsleeping, rfl⟩
    · by_cases hqp : q = p
      · subst hqp
        rw [update_self] at hq
        exact hq
      · rwa [update_of_ne hqp] at hq

/-- The lock is released by a process that owes nothing, and may mean something else for the object
from now on. -/
theorem release_safe {user' : User} (howes : ∀ c, ¬ owes c)
    (hagrees : ∀ outer users p, protocol.agrees data outer users → users p = user →
      protocol.agrees data outer (update users p user')) (hsettled : protocol.settled data)
    (hpost : post () (.outside user')) :
    protocol.Safe release (.inside data owes user) post :=
  release_stake_safe rfl howes rfl (Or.inl rfl) hagrees hsettled hpost

theorem wakeup_safe (hpost : post () (.inside data (fun c' ↦ owes c' ∧ c' ≠ c) user)) :
    protocol.Safe (wakeup c) (.inside data owes user) post := by
  refine Safe.bind (acquire_ptable_safe rfl rfl ?_)
  refine Safe.bind (wakeup1_safe rfl rfl ?_)
  exact release_ptable_safe rfl rfl hpost

theorem wakeup_last_safe
    (howes : ∀ c', owes c' → c' = c) (hpost : post () (.inside data (fun _ ↦ False) user)) :
    protocol.Safe (wakeup c) (.inside data owes user) post := by
  have hnone : (fun c' ↦ owes c' ∧ c' ≠ c) = fun _ ↦ False := by
    funext c'
    exact propext ⟨fun hc ↦ hc.2 (howes c' hc.1), False.elim⟩
  exact wakeup_safe (hnone ▸ hpost)

theorem kill_safe (q : Pid) (hpost : post () (.outside user)) :
    protocol.Safe (kill q) (.outside user) post := by
  refine Safe.bind (acquire_ptable_safe rfl rfl ?_)
  refine Safe.bind (kill1_safe q ?_)
  exact release_ptable_safe rfl rfl hpost

/-- A process may sleep under the condition of the channel; then it finds any data that agree. -/
theorem sleep_safe (howes : ∀ c, ¬ owes c) (hrole : protocol.role c user)
    (hwaits : protocol.waits c data) (hsettled : protocol.settled data)
    (hpost : ∀ data outer users p, protocol.agrees data outer users → users p = user →
      protocol.settled data → post () (.inside data (fun _ ↦ False) user)) :
    protocol.Safe (sleep c) (.inside data owes user) post := by
  refine Safe.bind (acquire_ptable_safe rfl rfl ?_)
  refine Safe.bind (release_stake_safe rfl howes rfl
    (Or.inr ⟨c, rfl, rfl, hrole, hwaits⟩) (fun _ _ _ ↦ agrees_same) hsettled ?_)
  refine Safe.bind (doze_safe rfl rfl rfl ?_)
  refine Safe.bind (resume_safe rfl ?_)
  refine Safe.bind (tidy_safe rfl ?_)
  refine Safe.bind (release_ptable_safe rfl rfl ?_)
  exact acquire_safe rfl rfl hpost

end Calls

end Protocol

end Rules

end Xv6Shm
