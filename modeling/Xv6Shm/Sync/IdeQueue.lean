import Xv6Shm.Sync.Ide
import Xv6Shm.Sync.Protocol

/-!
# Order and wakeups of the disk queue

While `idelock` is free, the buffers that were queued are those that were completed and those in the
queue, in this order; the first one in the queue was started last, and the disk works on it. A
process sleeps on a buffer only while it is in the queue.
-/

namespace Xv6Shm.Ide

open Fallible Function Protocol Program

variable {Pid Buf : Type}

/-- The part of a process in the driver: it has passed the checks for a buffer, has queued it, or has
got it back. -/
inductive User (Buf : Type) where
  | outside
  | checked (b : Buf)
  | queued (b : Buf)
  | served (b : Buf)

def User.buf : User Buf → Option Buf
  | .outside => none
  | .checked b | .queued b | .served b => some b

/-- A buffer in the queue. -/
def InQueue (data : IdeData Buf) (b : Buf) : Prop :=
  ∃ queue, Linked data.qnext data.idequeue queue ∧ b ∈ queue

/-- The queue and its users. -/
structure Agrees (data : IdeData Buf) (outer : IdeOuter Pid Buf) (users : Pid → User Buf)
    (queue : List Buf) : Prop where
  linked : Linked data.qnext data.idequeue queue
  nodup : queue.Nodup
  undone : ∀ b ∈ queue, (data.buf b).isDone = false
  owner : ∀ p b, (users p).buf = some b → outer.owner b = some p
  members : ∀ b ∈ queue, ∃ p, users p = .queued b
  pending : ∀ p b, users p = .queued b →
    b ∈ queue ∨ (data.buf b).isDone = true ∨ data.working = some b
  done : ∀ p b, users p = .served b → (data.buf b).isDone = true

/-- What was queued is what was completed and the queue; what was started is what was completed and
the buffer that the disk works on. -/
structure Balanced (data : IdeData Buf) (queue : List Buf) (active : Option Buf) : Prop where
  linked : Linked data.qnext data.idequeue queue
  queued : data.queued = data.completed ++ queue
  started : data.started = data.completed ++ active.toList
  working : data.working = active

/-- What holds while `idelock` is free: the disk works on the first buffer of the queue. -/
def Settled (data : IdeData Buf) : Prop := ∃ queue, Balanced data queue queue.head?

theorem inQueue_iff {data : IdeData Buf} {queue : List Buf} {b : Buf}
    (h : Linked data.qnext data.idequeue queue) : InQueue data b ↔ b ∈ queue := by
  refine ⟨fun ⟨queue', h', hb⟩ ↦ ?_, fun hb ↦ ⟨queue, h, hb⟩⟩
  rwa [h.unique h']

section Users

variable {data : IdeData Buf} {outer : IdeOuter Pid Buf} {users : Pid → User Buf}
  {queue : List Buf} {p : Pid} {b : Buf}

section

variable (h : Agrees data outer users queue)

include h

theorem Agrees.pending_settled (hsettled : Settled data) (hp : users p = .queued b) :
    b ∈ queue ∨ (data.buf b).isDone = true := by
  rcases h.pending p b hp with hmem | hdone | hworking
  · exact Or.inl hmem
  · exact Or.inr hdone
  · obtain ⟨queue', hbalanced⟩ := hsettled
    obtain rfl := h.linked.unique hbalanced.linked
    rw [hbalanced.working] at hworking
    exact Or.inl (List.mem_of_mem_head? hworking)

theorem Agrees.eq_of_buf {q : Pid} (hp : (users p).buf = some b) (hq : (users q).buf = some b) :
    q = p :=
  Option.some.inj ((h.owner q b hq).symm.trans (h.owner p b hp))

theorem Agrees.not_mem_of_checked (hp : users p = .checked b) : b ∉ queue := by
  intro hmem
  obtain ⟨q, hq⟩ := h.members b hmem
  obtain rfl : q = p := h.eq_of_buf (by rw [hp]; rfl) (by rw [hq]; rfl)
  rw [hp] at hq
  cases hq

theorem Agrees.setOwner {outer' : IdeOuter Pid Buf}
    (howner : ∀ p b, (users p).buf = some b → outer'.owner b = some p) :
    Agrees data outer' users queue := { h with owner := howner }

end

variable [DecidableEq Pid]

theorem Agrees.become (h : Agrees data outer users queue) {user : User Buf}
    (hbefore : ∀ b ∈ queue, users p ≠ .queued b)
    (howner : ∀ b, user.buf = some b → outer.owner b = some p) (hpending : ∀ b, user = .queued b →
      b ∈ queue ∨ (data.buf b).isDone = true ∨ data.working = some b)
    (hdone : ∀ b, user = .served b → (data.buf b).isDone = true) :
    Agrees data outer (update users p user) queue where
  linked := h.linked
  nodup := h.nodup
  undone := h.undone
  owner := (forall_update_iff users (p := fun q after ↦
    ∀ b, after.buf = some b → outer.owner b = some q)).mpr ⟨howner, fun q _ ↦ h.owner q⟩
  members b hb := by
    obtain ⟨q, hq⟩ := h.members b hb
    refine ⟨q, ?_⟩
    rw [update_of_ne]
    · exact hq
    · rintro rfl
      exact hbefore b hb hq
  pending := (forall_update_iff users (p := fun _ after ↦ ∀ b, after = .queued b →
    b ∈ queue ∨ (data.buf b).isDone = true ∨ data.working = some b)).mpr
    ⟨hpending, fun q _ ↦ h.pending q⟩
  done := (forall_update_iff users (p := fun _ after ↦ ∀ b, after = .served b →
    (data.buf b).isDone = true)).mpr ⟨hdone, fun q _ ↦ h.done q⟩

theorem Agrees.leave (h : Agrees data outer users queue) (hbefore : ∀ b, users p ≠ .queued b) :
    Agrees data outer (update users p .outside) queue :=
  h.become (fun b _ ↦ hbefore b) (fun _ hb ↦ nomatch hb) (fun _ hb ↦ nomatch hb)
    fun _ hb ↦ nomatch hb

end Users

section Operations

variable {data : IdeData Buf} {outer : IdeOuter Pid Buf} {users : Pid → User Buf}
  {queue : List Buf} {p : Pid} {b : Buf}

theorem Agrees.idestart (h : Agrees data outer users queue) (hidle : data.working = none) (b : Buf) :
    Agrees { data with working := some b, started := data.started ++ [b] } outer users queue where
  linked := h.linked
  nodup := h.nodup
  undone := h.undone
  owner := h.owner
  members := h.members
  pending p c hp := by
    rcases h.pending p c hp with hmem | hdone | hworking
    · exact Or.inl hmem
    · exact Or.inr (Or.inl hdone)
    · rw [hidle] at hworking
      cases hworking
  done := h.done

variable {rest : List Buf}

theorem Balanced.idestart (h : Balanced data (b :: rest) none) :
    Settled { data with working := some b, started := data.started ++ [b] } := by
  refine ⟨b :: rest, h.linked, h.queued, ?_, rfl⟩
  change data.started ++ [b] = data.completed ++ [b]
  rw [h.started, Option.toList_none, List.append_nil]

theorem Agrees.pop (h : Agrees data outer users (b :: rest)) (hworking : data.working = some b) :
    Agrees { data with idequeue := data.qnext b } outer users rest where
  linked := h.linked.2
  nodup := h.nodup.of_cons
  undone c hc := h.undone c (List.mem_cons_of_mem b hc)
  owner := h.owner
  members c hc := h.members c (List.mem_cons_of_mem b hc)
  pending p c hp := by
    rcases h.pending p c hp with hmem | hrest
    · rcases List.mem_cons.mp hmem with rfl | hmem
      · exact Or.inr (Or.inr hworking)
      · exact Or.inl hmem
    · exact Or.inr hrest
  done := h.done

variable [DecidableEq Buf]

theorem Agrees.append [DecidableEq Pid] [Fintype Buf] (h : Agrees data outer users queue)
    (hp : users p = .checked b) {buf : DiskBuf} (hbuf : buf.isDone = false) :
    ∃ data', data.append b buf = .ok data' ∧
      Agrees data' outer (update users p (.queued b)) (queue ++ [b]) ∧
      ∀ active, Balanced data queue active → Balanced data' (queue ++ [b]) active := by
  have hfresh := h.not_mem_of_checked hp
  have hother : ∀ q, q ≠ p → ∀ c, (users q).buf = some c → c ≠ b := by
    rintro q hq c hc rfl
    exact hq (h.eq_of_buf (by rw [hp]; rfl) hc)
  obtain ⟨idequeue, qnext, happend, hlinked⟩ := appendCell_spec (h.linked.update hfresh)
    h.nodup hfresh (update_self b none data.qnext) h.nodup.length_le_card
  refine ⟨{ data with
      idequeue := idequeue
      qnext := qnext
      buf := update data.buf b buf
      queued := data.queued ++ [b] }, ?_, ?_, fun active hbalanced ↦ ?_⟩
  · rw [IdeData.append, happend]
  · refine ⟨hlinked, ?_, fun c hc ↦ ?_, ?_, fun c hc ↦ ?_, ?_, ?_⟩
    · exact List.nodup_append.mpr ⟨h.nodup, List.nodup_singleton b, fun c hc d hd hcd ↦
        hfresh (List.mem_singleton.mp hd ▸ hcd ▸ hc)⟩
    · dsimp only
      by_cases hcb : c = b
      · rw [hcb, update_self]
        exact hbuf
      · rw [update_of_ne hcb]
        exact h.undone c ((List.mem_append.mp hc).resolve_right fun hmem ↦
          hcb (List.mem_singleton.mp hmem))
    · refine (forall_update_iff users (p := fun q after ↦
        ∀ c, after.buf = some c → outer.owner c = some q)).mpr ⟨fun c hc ↦ ?_, fun q _ ↦ h.owner q⟩
      exact h.owner p c (by rw [hp]; exact hc)
    · rcases List.mem_append.mp hc with hmem | hmem
      · obtain ⟨q, hq⟩ := h.members c hmem
        refine ⟨q, ?_⟩
        rw [update_of_ne]
        · exact hq
        · rintro rfl
          rw [hp] at hq
          cases hq
      · exact ⟨p, by rw [update_self, List.mem_singleton.mp hmem]⟩
    · refine (forall_update_iff users (p := fun _ after ↦ ∀ c, after = .queued c →
        c ∈ queue ++ [b] ∨ (update data.buf b buf c).isDone = true ∨
          data.working = some c)).mpr ⟨fun c hc ↦ ?_, fun q hq c hc ↦ ?_⟩
      · cases hc
        exact Or.inl (List.mem_append_right _ (List.mem_singleton_self b))
      · rw [update_of_ne (hother q hq c (by rw [hc]; rfl))]
        exact (h.pending q c hc).imp_left (List.mem_append_left _)
    · refine (forall_update_iff users (p := fun _ after ↦ ∀ c, after = .served c →
        (update data.buf b buf c).isDone = true)).mpr ⟨fun c hc ↦ (nomatch hc), fun q hq c hc ↦ ?_⟩
      rw [update_of_ne (hother q hq c (by rw [hc]; rfl))]
      exact h.done q c hc
  · refine ⟨hlinked, ?_, hbalanced.started, hbalanced.working⟩
    rw [hbalanced.queued, List.append_assoc]

theorem complete_isDone {c : Buf} (h : (data.buf c).isDone = true ∨ c = b) :
    ((data.complete b).buf c).isDone = true := by
  by_cases hcb : c = b
  · rw [hcb, IdeData.complete_buf_self]
    rfl
  · rw [IdeData.complete_buf_of_ne hcb]
    exact h.resolve_right hcb

theorem Agrees.complete (h : Agrees data outer users queue) (hworking : data.working = some b)
    (hb : b ∉ queue) : Agrees (data.complete b) outer users queue where
  linked := h.linked
  nodup := h.nodup
  undone c hc := by
    have hcb : c ≠ b := fun heq ↦ hb (heq ▸ hc)
    rw [IdeData.complete_buf_of_ne hcb]
    exact h.undone c hc
  owner := h.owner
  members := h.members
  pending p c hp := by
    rcases h.pending p c hp with hmem | hdone | hsame
    · exact Or.inl hmem
    · exact Or.inr (Or.inl (complete_isDone (Or.inl hdone)))
    · exact Or.inr (Or.inl (complete_isDone (Or.inr (Option.some.inj (hsame.symm.trans hworking)))))
  done p c hp := complete_isDone (Or.inl (h.done p c hp))

/-- After that the disk is idle and the rest of the queue is not started. -/
theorem Balanced.complete (h : Balanced data (b :: rest) (some b)) :
    Balanced (IdeData.complete { data with idequeue := data.qnext b } b) rest none where
  linked := h.linked.2
  queued := by
    change data.queued = data.completed ++ [b] ++ rest
    rw [h.queued, List.append_assoc]
    rfl
  started := by
    change data.started = data.completed ++ [b] ++ []
    rw [h.started, List.append_nil]
    rfl
  working := rfl

end Operations

section Programs

variable [DecidableEq Pid] [DecidableEq Buf] [Fintype Buf]

/-- A process waits while its buffer is in the queue. -/
def protocol (Pid Buf : Type) [DecidableEq Pid] [DecidableEq Buf] [Fintype Buf] :
    Protocol Pid Buf (IdeData Buf) (IdeOuter Pid Buf) (User Buf) (@Result Buf) (@Reply Buf) where
  access := access
  visit := visit
  waits b data := InQueue data b
  role b user := user = .queued b
  agrees data outer users := ∃ queue, Agrees data outer users queue
  settled := Settled
  permitted _ _ _ := True
  allowed _ := True
  blocked := trivial

/-- What a process has between two pieces of its code. -/
def At : Point Buf → Stake Buf (IdeData Buf) (User Buf) → Prop
  | .idle, stake => stake = .outside .outside
  | .served b, stake => stake = .outside (.served b)
  | .waiting b, stake => ∃ data, stake = .inside data (fun _ ↦ False) (.queued b) ∧ Settled data

variable {data : IdeData Buf} {b : Buf} {user : User Buf}

theorem waitRound_safe (hsettled : Settled data) :
    (protocol Pid Buf).Safe (waitRound b) (.inside data (fun _ ↦ False) (.queued b)) At := by
  refine Safe.bind (access_safe rfl rfl fun outer users p hagrees hp ↦ ?_)
  obtain ⟨queue, h⟩ := hagrees
  refine ⟨.queued b, fun _ ↦ False, agrees_same ⟨queue, h⟩ hp, fun _ hc _ ↦ hc,
    Safe.ite (fun hdone ↦ ?_) fun hnot ↦ ?_⟩
  · refine Safe.bind (release_safe (fun _ ↦ id) (fun outer users p hagrees hp ↦ ?_) hsettled rfl)
    obtain ⟨queue, h⟩ := hagrees
    refine ⟨queue, h.become (fun c hc hq ↦ ?_) (fun c hc ↦ h.owner p c (by rw [hp]; exact hc))
      (fun c hc ↦ nomatch hc) fun c hc ↦ ?_⟩
    · cases hp.symm.trans hq
      rw [h.undone b hc] at hdone
      cases hdone
    · cases hc
      exact hdone
  · have hmem : b ∈ queue := (h.pending_settled hsettled hp).resolve_right hnot
    exact Safe.bind (sleep_safe (fun _ ↦ id) rfl ⟨queue, h.linked, hmem⟩ hsettled
      fun data _ _ _ _ _ hsettled ↦ ⟨data, rfl, hsettled⟩)

theorem idestart_safe {rest : List Buf} (hbalanced : Balanced data (b :: rest) none)
    {post : Unit → Stake Buf (IdeData Buf) (User Buf) → Prop}
    (hpost : ∀ data', Settled data' → post () (.inside data' (fun _ ↦ False) user)) :
    (protocol Pid Buf).Safe (MonitorProgram.access (IdeOp.idestart b))
      (.inside data (fun _ ↦ False) user) post := by
  refine access_safe rfl rfl fun outer users p hagrees hp ↦ ?_
  obtain ⟨queue, h⟩ := hagrees
  change Ends _ _ (data.idestart b >>= fun data' ↦ pure ((), data'))
  unfold IdeData.idestart
  split
  · trivial
  · exact ⟨user, fun _ ↦ False, agrees_same ⟨queue, h.idestart hbalanced.working b⟩ hp,
      fun _ hc _ ↦ hc, hpost _ hbalanced.idestart⟩

theorem enqueue_safe {buf : DiskBuf} (hbuf : buf.isDone = false) : (protocol Pid Buf).Safe (do
      MonitorProgram.acquire
      MonitorProgram.access (IdeOp.append b buf)
      let head : Option Buf ← MonitorProgram.access IdeOp.head
      if head = some b then do
        MonitorProgram.access (IdeOp.idestart b)
        return Point.waiting b
      else return Point.waiting b) (.outside (.checked b)) At := by
  refine Safe.bind (acquire_safe rfl rfl fun data _ _ _ _ _ hsettled ↦ ?_)
  obtain ⟨queue, hbalanced⟩ := hsettled
  refine Safe.bind (access_safe rfl rfl fun outer users p hagrees hp ↦ ?_)
  obtain ⟨queue', h⟩ := hagrees
  obtain rfl := hbalanced.linked.unique h.linked
  obtain ⟨data', happend, hagrees, hafter⟩ := h.append hp hbuf
  have hbalanced' := hafter _ hbalanced
  change Ends _ _ (data.append b buf >>= fun data' ↦ pure ((), data'))
  rw [happend]
  refine ⟨.queued b, fun _ ↦ False, ⟨_, hagrees⟩, fun c hc _ ↦ Or.inl ?_, ?_⟩
  · have hmem := (inQueue_iff h.linked).mp (hc.resolve_right id)
    exact (inQueue_iff hagrees.linked).mpr (List.mem_append_left _ hmem)
  · refine Safe.bind (look_safe (fun _ ↦ rfl) ?_)
    cases queue with
    | nil =>
      refine Safe.ite (fun _ ↦ ?_) fun hother ↦ absurd hbalanced'.linked.head hother
      exact Safe.bind (idestart_safe hbalanced' fun data hsettled ↦ ⟨data, rfl, hsettled⟩)
    | cons first rest =>
      refine Safe.ite (fun hfirst ↦ ?_) fun _ ↦ ⟨data', rfl, _, hbalanced'⟩
      rw [hbalanced'.linked.head] at hfirst
      obtain rfl : first = b := Option.some.inj hfirst
      exact absurd List.mem_cons_self (h.not_mem_of_checked hp)

theorem iderw_safe (b : Buf) (buf : DiskBuf) (huser : ∀ c, user ≠ .queued c) :
    (protocol Pid Buf).Safe (iderw b buf) (.outside user) At := by
  refine Safe.bind (visit_safe rfl fun _ outer users p hagrees hp _ ↦ ?_)
  obtain ⟨queue, h⟩ := hagrees
  change Ends _ _ (if outer.owner b ≠ some p then _ else _)
  split
  · trivial
  · rename_i howner
    split
    · trivial
    · rename_i hbuf
      split
      · trivial
      · refine ⟨.checked b, ⟨queue, h.become (fun c _ hc ↦ huser c (hp.symm.trans hc)) (fun c hc ↦ ?_)
          (fun c hc ↦ by cases hc) fun c hc ↦ by cases hc⟩, ?_⟩
        · obtain rfl : b = c := Option.some.inj hc
          exact not_not.mp howner
        · exact enqueue_safe (Bool.not_eq_true _ ▸ hbuf)

theorem startNext_safe {point : Point Buf} (hat : At point (.outside user))
    {queue : List Buf} (hbalanced : Balanced data queue none) :
    (protocol Pid Buf).Safe (startNext point) (.inside data (fun _ ↦ False) user) At := by
  have hrelease : ∀ data', Settled data' → (protocol Pid Buf).Safe (do
      MonitorProgram.release
      return point) (.inside data' (fun _ ↦ False) user) At := fun data' hsettled ↦
    Safe.bind (release_safe (fun _ ↦ id) (fun _ _ _ ↦ agrees_same) hsettled hat)
  refine Safe.bind (look_safe (fun _ ↦ rfl) ?_)
  have hhead := hbalanced.linked.head
  cases queue with
  | nil =>
    rw [hhead]
    exact hrelease data ⟨[], hbalanced⟩
  | cons b rest =>
    rw [hhead]
    exact Safe.bind (idestart_safe hbalanced hrelease)

theorem ideintr_safe {point : Point Buf} (hat : At point (.outside user)) :
    (protocol Pid Buf).Safe (ideintr point) (.outside user) At := by
  refine Safe.bind (acquire_safe rfl rfl fun data _ _ _ _ _ hsettled ↦ ?_)
  refine Safe.bind (access_safe rfl rfl fun outer users p hagrees hp ↦ ?_)
  obtain ⟨queue, hbalanced⟩ := hsettled
  have hhead := hbalanced.linked.head
  change Ends _ _ (Except.ok data.pop)
  unfold IdeData.pop
  cases queue with
  | nil =>
    rw [hhead]
    exact ⟨user, fun _ ↦ False, agrees_same hagrees hp, fun _ hc _ ↦ hc,
      Safe.bind (release_safe (fun _ ↦ id) (fun _ _ _ ↦ agrees_same) ⟨[], hbalanced⟩ hat)⟩
  | cons b rest =>
    rw [hhead]
    obtain ⟨queue', h⟩ := hagrees
    obtain rfl := hbalanced.linked.unique h.linked
    refine ⟨user, fun c ↦ c = b, agrees_same ⟨rest, h.pop hbalanced.working⟩ hp,
      fun c hc _ ↦ ?_, ?_⟩
    · rcases List.mem_cons.mp ((inQueue_iff h.linked).mp (hc.resolve_right id)) with rfl | hmem
      · exact Or.inr rfl
      · exact Or.inl ⟨rest, hbalanced.linked.2, hmem⟩
    · refine Safe.bind (access_safe rfl rfl fun outer users p hagrees hp ↦ ?_)
      obtain ⟨queue'', h'⟩ := hagrees
      obtain rfl := h'.linked.unique hbalanced.linked.2
      refine ⟨user, fun c ↦ c = b, agrees_same ⟨queue'', h'.complete hbalanced.working
        (List.nodup_cons.mp h.nodup).1⟩ hp, fun c hc _ ↦ hc, ?_⟩
      exact Safe.bind (wakeup_last_safe (fun _ ↦ id) (startNext_safe hat hbalanced.complete))

theorem lock_safe (b : Buf) (huser : ∀ c, user ≠ .queued c) : (protocol Pid Buf).Safe (do
      MonitorProgram.visit (IdeVisit.lock b)
      return Point.idle) (.outside user) At := by
  refine Safe.bind (visit_safe rfl fun data outer users p hagrees hp _ ↦ ?_)
  obtain ⟨queue, h⟩ := hagrees
  change Ends _ _ (if outer.owner b = none then _ else _)
  split
  · rename_i hfree
    have howned : Agrees data { outer with owner := update outer.owner b (some p) } users
        queue := by
      refine h.setOwner fun q c hq ↦ ?_
      have hc := h.owner q c hq
      have hne : c ≠ b := by
        rintro rfl
        rw [hfree] at hc
        cases hc
      exact (update_of_ne hne _ _).trans hc
    exact ⟨.outside, ⟨queue, howned.leave fun c hc ↦ huser c (hp.symm.trans hc)⟩, rfl⟩
  · trivial

theorem unlock_safe (b : Buf) (huser : ∀ c, user ≠ .queued c) : (protocol Pid Buf).Safe (do
      MonitorProgram.visit (IdeVisit.unlock b)
      return Point.idle) (.outside user) At := by
  refine Safe.bind (visit_safe rfl fun _ outer users p hagrees hp _ ↦ ?_)
  obtain ⟨queue, h⟩ := hagrees
  change Ends _ _ (if outer.owner b = some p then _ else _)
  split
  · rename_i hheld
    -- the process lets the buffer go first
    have hleft := h.leave fun c hc ↦ huser c (hp.symm.trans hc)
    refine ⟨.outside, ⟨queue, hleft.setOwner fun q c hq ↦ ?_⟩, rfl⟩
    have hc := hleft.owner q c hq
    have hne : c ≠ b := by
      rintro rfl
      obtain rfl : p = q := Option.some.inj (hheld.symm.trans hc)
      rw [update_self] at hq
      cases hq
    exact (update_of_ne hne _ _).trans hc
  · trivial

theorem code_safe (point : Point Buf) (request : Request Pid Buf)
    (stake : Stake Buf (IdeData Buf) (User Buf)) (h : At point stake) :
    (protocol Pid Buf).Safe (code point request) stake At := by
  have houtside : ∀ user, stake = .outside user → (∀ c, user ≠ .queued c) →
      (∀ b, point ≠ .waiting b) → (protocol Pid Buf).Safe (code point request) stake At := by
    rintro user rfl huser hpoint
    cases point with
    | waiting b => exact absurd rfl (hpoint b)
    | idle | served =>
      cases request with
      | iderw b buf => exact iderw_safe b buf huser
      | interrupt => exact ideintr_safe h
      | lock b => exact lock_safe b huser
      | unlock b => exact unlock_safe b huser
      | kill q => exact Safe.bind (kill_safe q h)
  cases point with
  | idle => exact houtside .outside h (fun _ ↦ (nomatch ·)) fun _ ↦ (nomatch ·)
  | served b => exact houtside (.served b) h (fun _ ↦ (nomatch ·)) fun _ ↦ (nomatch ·)
  | waiting b =>
    obtain ⟨data, rfl, hsettled⟩ := h
    exact waitRound_safe hsettled

theorem Initial.steady {start : System Pid Buf} (h : Initial start) :
    start.Steady (Monitor.perform access visit) (protocol Pid Buf).Holds
      (protocol Pid Buf).permitted (protocol Pid Buf).allowed At fun _ ↦ .outside .outside := by
  obtain ⟨hqueued, hstarted, hcompleted⟩ := h.history
  refine ⟨Protocol.Holds.of_outside h.unheld h.awake ⟨[], h.idequeue, List.nodup_nil,
    fun _ hb ↦ (nomatch hb), fun _ _ hb ↦ (nomatch hb), fun _ hb ↦ (nomatch hb),
    fun _ _ hb ↦ (nomatch hb), fun _ _ hb ↦ (nomatch hb)⟩
    ⟨[], h.idequeue, ?_, ?_, h.working⟩, fun p ↦ ?_⟩
  · rw [hqueued, hcompleted]
    rfl
  · rw [hstarted, hcompleted]
    rfl
  · rw [h.idle p]
    exact rfl

end Programs

end Xv6Shm.Ide
