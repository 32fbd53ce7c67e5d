import Xv6Shm.Sync.Pipe
import Xv6Shm.Sync.Protocol

/-!
# What is read from a pipe, and who sleeps on it

The bytes of a pipe are delivered in the order in which they were stored, over the wrapping of its
counters. A process sleeps only on a pipe that it cannot use, except that a killed writer can leave
without waking the readers up for what it has stored. Both follow from one invariant; if its
parameter `strict` is true, the wakeups are tracked, and no killed writer leaves readers behind.
-/

namespace Xv6Shm

open Fallible Function Protocol MonitorProgram Circular Program

namespace Pipe

variable {Pid : Type}

/-- What a process does with the pipe. -/
inductive User where
  | idle
  | reader
  | writer
  | closing (side : PipeEnd)

/-- The bytes in the pipe are those that were stored and not yet delivered. -/
structure Fifo (data : PipeData Pid) (n : ℕ) : Prop where
  word : data.pipe.nread < Word.size
  le : n ≤ pipeSize
  nwrite : data.pipe.nwrite = Word.add data.pipe.nread n
  bytes : stored data.history =
    delivered data.history ++ window pipeSize data.pipe.data data.pipe.nread n

/-- Processes use the ends that they have open files for. -/
structure Agrees (data : PipeData Pid) (holders : Holders Pid) (users : Pid → User) : Prop where
  fifo : ∃ n, Fifo data n
  reader : ∀ p, users p = .reader → p ∈ holders .read
  writer : ∀ p, users p = .writer → p ∈ holders .write
  closing : ∀ p side, users p = .closing side → holders side = ∅
  readopen : data.pipe.readopen = false → holders .read = ∅
  writeopen : data.pipe.writeopen = false → holders .write = ∅

/-- When a process may sleep on a channel. -/
def MayWait (data : PipeData Pid) : PipeChan → Prop
  | .nread => data.pipe.isEmpty = true ∧ data.pipe.writeopen = true
  | .nwrite => data.pipe.isFull = true ∧ data.pipe.readopen = true

def Role : PipeChan → User → Prop
  | .nread, user => user = .reader
  | .nwrite, user => user = .writer

/-- A killed process that finds the pipe full leaves `pipewrite` without a wakeup, but only while no
process is asleep on `&p->nread` or can be about to sleep there. -/
def LeavesNobody (m : Monitor Pid PipeChan (PipeData Pid) (Holders Pid)) (p : Pid) :
    MonitorCall Pid PipeChan PipeOp PipeVisit → Prop
  | .isKilled => m.data.pipe.isFull = true → m.killed p = true →
      (∀ q, ¬ m.Asleep q .nread) ∧ m.lock .ptable = none
  | _ => True

section Data

variable {data : PipeData Pid} {n : ℕ} {p : Pid}

theorem Fifo.isFull_iff (h : Fifo data n) : data.pipe.isFull = true ↔ n = pipeSize := by
  have hle := h.le
  have hsize : pipeSize < Word.size := by decide
  rw [isFull, decide_eq_true_eq, h.nwrite]
  exact add_left_inj (by omega) hsize

theorem Fifo.isEmpty_iff (h : Fifo data n) : data.pipe.isEmpty = true ↔ n = 0 := by
  have hle := h.le
  have hsize : pipeSize < Word.size := by decide
  have hzero : Word.add data.pipe.nread 0 = data.pipe.nread := Nat.mod_eq_of_lt h.word
  rw [isEmpty, decide_eq_true_eq, h.nwrite, eq_comm]
  conv_lhs => rw [← hzero, add_add, Nat.zero_add]
  exact add_left_inj (by omega) (by decide)

theorem Fifo.put (h : Fifo data n) (hfull : ¬ data.pipe.isFull = true) (c : UInt8) :
    Fifo ⟨data.pipe.put c, data.history ++ [(p, .put c)]⟩ (n + 1) := by
  rw [h.isFull_iff] at hfull
  have hlt : n < pipeSize := lt_of_le_of_ne h.le hfull
  have hindex : data.pipe.nwrite % pipeSize = (data.pipe.nread + n) % pipeSize := by
    rw [h.nwrite]
    exact add_mod_size (by decide) _ _
  refine ⟨h.word, hlt, ?_, ?_⟩
  · rw [Pipe.put, h.nwrite, add_add]
  · have hstored : stored (data.history ++ [(p, .put c)]) = stored data.history ++ [c] := by
      simp [stored, PipeEvent.stored?]
    have hsame : delivered (data.history ++ [(p, .put c)]) = delivered data.history := by
      simp [delivered, PipeEvent.delivered?]
    rw [hstored, hsame, Pipe.put, hindex, window_store hlt, ← List.append_assoc, h.bytes]

theorem Fifo.take (h : Fifo data n) (hempty : ¬ data.pipe.isEmpty = true) :
    Fifo ⟨data.pipe.skip, data.history ++ [(p, .take data.pipe.first)]⟩ (n - 1) := by
  rw [h.isEmpty_iff] at hempty
  obtain ⟨k, rfl⟩ := Nat.exists_eq_succ_of_ne_zero hempty
  have hle := h.le
  refine ⟨Word.add_lt _ _, by omega, ?_, ?_⟩
  · rw [Pipe.skip, add_add, h.nwrite, Nat.succ_eq_add_one, Nat.add_sub_cancel, Nat.add_comm 1 k]
  · have hsame : stored (data.history ++ [(p, .take data.pipe.first)]) = stored data.history := by
      simp [stored, PipeEvent.stored?]
    have hdelivered : delivered (data.history ++ [(p, .take data.pipe.first)]) =
        delivered data.history ++ [data.pipe.first] := by
      simp [delivered, PipeEvent.delivered?]
    rw [hsame, hdelivered, Pipe.skip, Nat.succ_eq_add_one, Nat.add_sub_cancel,
      window_add_one (by decide), h.bytes, Nat.succ_eq_add_one, window_cons,
      List.append_assoc]
    rfl

end Data

section Users

variable {data : PipeData Pid} {holders : Holders Pid} {users : Pid → User} {p : Pid}

theorem Agrees.move (h : Agrees data holders users) {data' : PipeData Pid} {n : ℕ} (hfifo : Fifo data' n)
    (hread : data'.pipe.readopen = data.pipe.readopen)
    (hwrite : data'.pipe.writeopen = data.pipe.writeopen) : Agrees data' holders users :=
  ⟨⟨n, hfifo⟩, h.reader, h.writer, h.closing, hread ▸ h.readopen, hwrite ▸ h.writeopen⟩

theorem Agrees.close (h : Agrees data holders users) {side : PipeEnd} (hnone : holders side = ∅) :
    Agrees { data with pipe := data.pipe.close side } holders users := by
  obtain ⟨n, hfifo⟩ := h.fifo
  cases side with
  | read => exact ⟨⟨n, hfifo.word, hfifo.le, hfifo.nwrite, hfifo.bytes⟩, h.reader, h.writer,
      h.closing, fun _ ↦ hnone, h.writeopen⟩
  | write => exact ⟨⟨n, hfifo.word, hfifo.le, hfifo.nwrite, hfifo.bytes⟩, h.reader, h.writer,
      h.closing, h.readopen, fun _ ↦ hnone⟩

theorem Agrees.readopen_of_role (h : Agrees data holders users) (hrole : Role .nread (users p)) :
    data.pipe.readopen = true := by
  by_contra hclosed
  rw [Bool.not_eq_true] at hclosed
  have hmem := h.reader p hrole
  rw [h.readopen hclosed] at hmem
  cases hmem

variable [DecidableEq Pid]

section

variable (h : Agrees data holders users)

include h

theorem Agrees.become {user : User} (hreader : user = .reader → p ∈ holders .read)
    (hwriter : user = .writer → p ∈ holders .write)
    (hclosing : ∀ side, user = .closing side → holders side = ∅) :
    Agrees data holders (update users p user) := by
  have hcases : ∀ (motive : Pid → User → Prop), motive p user → (∀ q, motive q (users q)) →
      ∀ q, motive q (update users p user q) := by
    intro motive hself hothers q
    by_cases hq : q = p
    · subst hq
      rwa [update_self]
    · rw [update_of_ne hq]
      exact hothers q
  exact ⟨h.fifo, hcases (fun q u ↦ u = .reader → q ∈ holders .read) hreader h.reader,
    hcases (fun q u ↦ u = .writer → q ∈ holders .write) hwriter h.writer,
    hcases (fun _ u ↦ ∀ side, u = .closing side → holders side = ∅) hclosing h.closing,
    h.readopen, h.writeopen⟩

theorem Agrees.retire : Agrees data holders (update users p .idle) :=
  h.become (fun hidle ↦ (nomatch hidle)) (fun hidle ↦ (nomatch hidle)) fun _ hidle ↦ (nomatch hidle)

theorem Agrees.share {side : PipeEnd} (hne : holders side ≠ ∅) :
    Agrees data (update holders side (insert p (holders side))) users := by
  have hsub : ∀ s, holders s ⊆ update holders side (insert p (holders side)) s := by
    intro s
    by_cases hs : s = side
    · subst hs
      rw [update_self]
      exact Finset.subset_insert p _
    · rw [update_of_ne hs]
  have hempty : ∀ s, holders s = ∅ → update holders side (insert p (holders side)) s = ∅ := by
    intro s hs
    have hside : s ≠ side := by
      rintro rfl
      exact hne hs
    rw [update_of_ne hside, hs]
  exact ⟨h.fifo, fun q hq ↦ hsub .read (h.reader q hq), fun q hq ↦ hsub .write (h.writer q hq),
    fun q s hq ↦ hempty s (h.closing q s hq), fun hread ↦ hempty .read (h.readopen hread),
    fun hwrite ↦ hempty .write (h.writeopen hwrite)⟩

theorem Agrees.drop (hidle : users p = .idle) (side : PipeEnd) :
    Agrees data (update holders side ((holders side).erase p)) users := by
  have hmem : ∀ q, users q ≠ .idle → ∀ s, q ∈ holders s →
      q ∈ update holders side ((holders side).erase p) s := by
    intro q hq s hs
    by_cases hside : s = side
    · subst hside
      rw [update_self]
      exact Finset.mem_erase_of_ne_of_mem (fun hqp ↦ hq (hqp ▸ hidle)) hs
    · rwa [update_of_ne hside]
  have hempty : ∀ s, holders s = ∅ → update holders side ((holders side).erase p) s = ∅ := by
    intro s hs
    by_cases hside : s = side
    · subst hside
      rw [update_self, hs, Finset.erase_empty]
    · rw [update_of_ne hside, hs]
  exact ⟨h.fifo, fun q hq ↦ hmem q (by simp [hq]) .read (h.reader q hq),
    fun q hq ↦ hmem q (by simp [hq]) .write (h.writer q hq),
    fun q s hq ↦ hempty s (h.closing q s hq), fun hread ↦ hempty .read (h.readopen hread),
    fun hwrite ↦ hempty .write (h.writeopen hwrite)⟩

end

end Users

section Programs

variable [DecidableEq Pid] (strict : Prop)

/-- The rules of a pipe. -/
def protocol (Pid : Type) [DecidableEq Pid] (strict : Prop) :
    Protocol Pid PipeChan (PipeData Pid) (Holders Pid) User Result Reply where
  access := access
  visit := visit
  waits c data := strict → MayWait data c
  role := Role
  agrees := Agrees
  settled _ := True
  permitted m p call := strict → LeavesNobody m p call
  allowed _ := True
  blocked := trivial

/-- What a process has between two pieces of its code. -/
def At : Point → Stake PipeChan (PipeData Pid) User → Prop
  | .idle _ _, stake => stake = .outside .idle
  | .writing _ _, stake => ∃ data owes, stake = .inside data owes .writer ∧
      ∀ c, owes c → c = .nread ∧ strict
  | .reading _, stake => ∃ data, stake = .inside data (fun _ ↦ False) .reader
  | .copying _ _, stake => ∃ data owes, stake = .inside data owes .reader ∧ ∀ c, owes c → c = .nwrite

variable {strict} {data : PipeData Pid} {owes : PipeChan → Prop}

theorem release_idle_safe {user : User} (howes : ∀ c, ¬ owes c) {returned : ℤ}
    {received : List UInt8} :
    (protocol Pid strict).Safe (do
      release
      return Point.idle returned received) (.inside data owes user) (At strict) :=
  Safe.bind (release_safe howes (fun _ _ _ h _ ↦ Agrees.retire h) trivial rfl)

theorem enter_safe {side : PipeEnd} {user : User} {point : Point}
    (huser : ∀ data holders users (p : Pid), Agrees data holders users → p ∈ holders side →
      Agrees data holders (update users p user))
    (hat : ∀ data : PipeData Pid, At strict point (.inside data (fun _ ↦ False) user)) :
    (protocol Pid strict).Safe (do
      let has : Bool ← MonitorProgram.visit (PipeVisit.has side)
      if has then do
        MonitorProgram.acquire
        return point
      else return Point.idle (-1) []) (.outside .idle) (At strict) := by
  refine Safe.bind (visit_safe rfl fun data holders users p hagrees hp _ ↦ ?_)
  by_cases hhas : p ∈ holders side
  · refine ⟨user, huser data holders users p hagrees hhas, Safe.ite (fun _ ↦ ?_) fun hno ↦ ?_⟩
    · exact Safe.bind (acquire_safe rfl rfl fun data _ _ _ _ _ _ ↦ hat data)
    · exact absurd (decide_eq_true hhas) hno
  · refine ⟨.idle, hagrees.retire, Safe.ite (fun hyes ↦ ?_) fun _ ↦ rfl⟩
    exact absurd (of_decide_eq_true hyes) hhas

theorem pipewrite_safe (bytes : List UInt8) :
    (protocol Pid strict).Safe (pipewrite bytes) (.outside .idle) (At strict) := by
  refine enter_safe (fun _ _ _ _ h hhas ↦ ?_) fun data ↦ ⟨data, _, rfl, fun _ hc ↦ hc.elim⟩
  exact h.become (fun h ↦ (nomatch h)) (fun _ ↦ hhas) fun _ h ↦ (nomatch h)

theorem piperead_safe (n : ℕ) :
    (protocol Pid strict).Safe (piperead n) (.outside .idle) (At strict) := by
  refine enter_safe (fun _ _ _ _ h hhas ↦ ?_) fun data ↦ ⟨data, rfl⟩
  exact h.become (fun _ ↦ hhas) (fun h ↦ (nomatch h)) fun _ h ↦ (nomatch h)

theorem readDone_safe {received : List UInt8} (howes : ∀ c, owes c → c = .nwrite) :
    (protocol Pid strict).Safe (readDone received) (.inside data owes .reader) (At strict) := by
  refine Safe.bind (wakeup_safe ?_)
  exact release_idle_safe fun c hc ↦ hc.2 (howes c hc.1)

theorem waitRound_safe (n : ℕ) :
    (protocol Pid strict).Safe (waitRound n) (.inside data (fun _ ↦ False) .reader)
      (At strict) := by
  refine Safe.bind (look_safe (fun _ ↦ rfl) (Safe.ite ?_ ?_))
  · intro hwait
    rw [Bool.and_eq_true] at hwait
    refine Safe.bind (isKilled_safe fun m stakes p _ _ _ ↦
      ⟨fun _ ↦ False, fun _ ↦ id, fun _ ↦ Or.inl, Safe.ite (fun _ ↦ ?_) fun _ ↦ ?_⟩)
    · exact release_idle_safe fun _ ↦ id
    · exact Safe.bind (sleep_safe (fun _ ↦ id) rfl (fun _ ↦ hwait) trivial
        fun data _ _ _ _ _ _ ↦ ⟨data, rfl⟩)
  · intro _
    exact ⟨data, _, rfl, fun _ hc ↦ hc.elim⟩

theorem copyRound_safe (n : ℕ) (received : List UInt8) (howes : ∀ c, owes c → c = .nwrite) :
    (protocol Pid strict).Safe (copyRound n received) (.inside data owes .reader) (At strict) := by
  refine Safe.ite (fun _ ↦ ?_) fun _ ↦ readDone_safe howes
  refine Safe.bind (look_safe (fun _ ↦ rfl) (Safe.ite ?_ ?_))
  · intro _
    exact readDone_safe howes
  · intro hempty
    refine Safe.bind (access_safe rfl rfl fun _ users p hagrees hp ↦ ?_)
    obtain ⟨n, hfifo⟩ := hagrees.fifo
    refine ⟨.reader, fun c ↦ c = .nwrite, ?_, fun c hc _ ↦ ?_, ⟨_, _, rfl, fun _ hc ↦ hc⟩⟩
    · exact agrees_same (hagrees.move (hfifo.take hempty) rfl rfl) hp
    · cases c with
      | nwrite => exact Or.inr rfl
      | nread =>
        rcases hc with hwaits | howed
        · exact Or.inl fun hs ↦ absurd (hwaits hs).1 hempty
        · exact absurd (howes _ howed) (by decide)

/-- Nobody waits for data when a killed writer leaves. -/
theorem nobody_waits {m : Monitor Pid PipeChan (PipeData Pid) (Holders Pid)}
    {stakes : Pid → Stake PipeChan (PipeData Pid) User} {p : Pid}
    (h : (protocol Pid strict).Holds m stakes) (hleaves : LeavesNobody m p .isKilled)
    (hfull : m.data.pipe.isFull = true) (hkilled : m.killed p = true) (q : Pid) :
    ¬ Protocol.Waits m q (stakes q) .nread := by
  obtain ⟨hasleep, hfree⟩ := hleaves hfull hkilled
  rintro (hbound | hq)
  · have hheld := (h.backed q).table.mpr ((h.backed q).bound _ hbound).1
    rw [hfree] at hheld
    cases hheld
  · exact hasleep q hq

theorem writeFull_safe (n : ℕ) (rest : List UInt8) (howes : ∀ c, owes c → c = .nread ∧ strict)
    (hfull : data.pipe.isFull = true) (hopen : data.pipe.readopen = true) :
    (protocol Pid strict).Safe (do
      let killed : Bool ← isKilled
      if killed then do
        release
        return Point.idle (-1) []
      else do
        wakeup .nread
        sleep .nwrite
        return Point.writing n rest) (.inside data owes .writer) (At strict) := by
  refine Safe.bind (isKilled_safe fun m stakes p h hstake hpermitted ↦ ?_)
  have hdata : m.data = data := (h.backed p).view data (by rw [hstake]; rfl)
  refine ⟨fun c ↦ owes c ∧ m.killed p = false, fun _ hc ↦ hc.1, fun c hc ↦ ?_,
    Safe.ite (fun hkilled ↦ ?_) fun _ ↦ ?_⟩
  · obtain ⟨rfl, hs⟩ := howes c hc
    cases hkilled : m.killed p with
    | false => exact Or.inl ⟨hc, rfl⟩
    | true => exact Or.inr (nobody_waits h (hpermitted hs) (hdata ▸ hfull) hkilled)
  · refine release_idle_safe fun c hc ↦ ?_
    rw [hkilled] at hc
    cases hc.2
  · refine Safe.bind (wakeup_safe ?_)
    exact Safe.bind (sleep_safe (fun c hc ↦ hc.2 (howes c hc.1.1).1) rfl
      (fun _ ↦ ⟨hfull, hopen⟩) trivial fun data _ _ _ _ _ _ ↦ ⟨data, _, rfl, fun _ hc ↦ hc.elim⟩)

theorem put_safe (n : ℕ) (c : UInt8) (rest : List UInt8)
    (howes : ∀ c, owes c → c = .nread ∧ strict) (hfull : ¬ data.pipe.isFull = true) :
    (protocol Pid strict).Safe (do
      MonitorProgram.access (PipeOp.put c)
      return Point.writing n rest) (.inside data owes .writer) (At strict) := by
  refine Safe.bind (access_safe rfl rfl fun _ users p hagrees hp ↦ ?_)
  obtain ⟨k, hfifo⟩ := hagrees.fifo
  refine ⟨.writer, fun c ↦ c = .nread ∧ strict, ?_, fun c hc _ ↦ ?_, ⟨_, _, rfl, fun _ hc ↦ hc⟩⟩
  · exact agrees_same (hagrees.move (hfifo.put hfull c) rfl rfl) hp
  · by_cases hs : strict
    · cases c with
      | nread => exact Or.inr ⟨rfl, hs⟩
      | nwrite =>
        rcases hc with hwaits | howed
        · exact absurd (hwaits hs).1 hfull
        · exact absurd (howes _ howed).1 (by decide)
    · exact Or.inl fun hs' ↦ absurd hs' hs

theorem writeRound_safe (n : ℕ) (rest : List UInt8) (howes : ∀ c, owes c → c = .nread ∧ strict) :
    (protocol Pid strict).Safe (writeRound n rest) (.inside data owes .writer) (At strict) := by
  cases rest with
  | nil =>
    refine Safe.bind (wakeup_safe ?_)
    exact release_idle_safe fun c hc ↦ hc.2 (howes c hc.1).1
  | cons c rest =>
    refine Safe.bind (access_safe rfl rfl fun _ users p hagrees hp ↦ ?_)
    -- there are no readers to be woken up once the read end is closed
    refine ⟨.writer, fun c ↦ owes c ∧ data.pipe.readopen = true, agrees_same hagrees hp,
      fun c hc ⟨q, hq⟩ ↦ ?_, Safe.ite (fun hfull ↦ Safe.ite (fun hclosed ↦ ?_)
        fun hopen ↦ ?_) fun hroom ↦ ?_⟩
    · refine hc.imp_right fun howed ↦ ⟨howed, ?_⟩
      obtain ⟨rfl, -⟩ := howes c howed
      exact hagrees.readopen_of_role hq
    · refine release_idle_safe fun c hc ↦ ?_
      rw [hclosed] at hc
      cases hc.2
    · rw [Bool.not_eq_false] at hopen
      exact writeFull_safe n (c :: rest) (fun c hc ↦ howes c hc.1) hfull hopen
    · exact put_safe n c rest (fun c hc ↦ howes c hc.1) hroom

theorem share_safe (side : PipeEnd) : (protocol Pid strict).Safe (do
      MonitorProgram.visit (PipeVisit.share side)
      return Point.idle 0 []) (.outside .idle) (At strict) := by
  refine Safe.bind (visit_safe rfl fun data holders users p hagrees hp _ ↦ ?_)
  change Ends _ _ (if holders side = ∅ then _ else _)
  split
  · trivial
  · rename_i hne
    exact ⟨.idle, agrees_same (hagrees.share hne) hp, rfl⟩

/-- Closing an end takes the reason to wait from the processes at the other end. -/
theorem pipeclose_safe (side : PipeEnd) : (protocol Pid strict).Safe (do
      MonitorProgram.acquire
      MonitorProgram.access (PipeOp.close side)
      MonitorProgram.wakeup (closeChan side)
      MonitorProgram.release
      return Point.idle 0 []) (.outside (.closing side)) (At strict) := by
  refine Safe.bind (acquire_safe rfl rfl fun data _ _ _ _ _ _ ↦ ?_)
  refine Safe.bind (access_safe rfl rfl fun holders users p hagrees hp ↦ ?_)
  refine ⟨.idle, fun c ↦ c = closeChan side,
    (hagrees.close (hagrees.closing p side hp)).retire, fun c hc _ ↦ ?_, ?_⟩
  · rcases hc with hwaits | hnone
    · cases side with
      | read =>
        cases c with
        | nread => exact Or.inl hwaits
        | nwrite => exact Or.inr rfl
      | write =>
        cases c with
        | nread => exact Or.inr rfl
        | nwrite => exact Or.inl hwaits
    · exact hnone.elim
  · exact Safe.bind (wakeup_safe (release_idle_safe fun _ hc ↦ hc.2 hc.1))

theorem fileclose_safe (side : PipeEnd) :
    (protocol Pid strict).Safe (fileclose side) (.outside .idle) (At strict) := by
  refine Safe.bind (visit_safe rfl fun data holders users p hagrees hp _ ↦ ?_)
  by_cases hlast : p ∈ holders side ∧ (holders side).erase p = ∅
  · refine ⟨.closing side, (hagrees.drop hp side).become (fun h ↦ (nomatch h))
      (fun h ↦ (nomatch h)) (fun s hs ↦ ?_), Safe.ite (fun _ ↦ pipeclose_safe side)
      fun hno ↦ absurd (decide_eq_true hlast) hno⟩
    cases hs
    rw [update_self]
    exact hlast.2
  · exact ⟨.idle, (hagrees.drop hp side).retire,
      Safe.ite (fun hyes ↦ absurd (of_decide_eq_true hyes) hlast) fun _ ↦ rfl⟩

theorem code_safe (point : Point) (request : Request Pid)
    (stake : Stake PipeChan (PipeData Pid) User) (h : At strict point stake) :
    (protocol Pid strict).Safe (code point request) stake (At strict) := by
  cases point with
  | idle returned received =>
    obtain rfl : stake = .outside .idle := h
    cases request with
    | write bytes => exact pipewrite_safe bytes
    | read n => exact piperead_safe n
    | share side => exact share_safe side
    | close side => exact fileclose_safe side
    | kill q => exact Safe.bind (kill_safe q rfl)
  | writing n rest =>
    obtain ⟨data, owes, rfl, howes⟩ := h
    exact writeRound_safe n rest howes
  | reading n =>
    obtain ⟨data, rfl⟩ := h
    exact waitRound_safe n
  | copying n received =>
    obtain ⟨data, owes, rfl, howes⟩ := h
    exact copyRound_safe n received howes

end Programs

section Results

variable [DecidableEq Pid] {start finish : System Pid}

theorem Initial.steady (h : Initial start) (strict : Prop) :
    start.Steady (Monitor.perform access visit) (protocol Pid strict).Holds
      (protocol Pid strict).permitted (protocol Pid strict).allowed (At strict)
      fun _ ↦ .outside .idle := by
  obtain ⟨page, hpage⟩ := h.pipe
  refine ⟨Protocol.Holds.of_outside h.unheld h.awake ?_ trivial, fun p ↦ ?_⟩
  · rw [hpage]
    exact ⟨⟨0, Nat.two_pow_pos 32, Nat.zero_le _, rfl, rfl⟩, fun _ hp ↦ (nomatch hp),
      fun _ hp ↦ (nomatch hp), fun _ _ hp ↦ (nomatch hp), fun hp ↦ (nomatch hp),
      fun hp ↦ (nomatch hp)⟩
  · obtain ⟨returned, received, hidle⟩ := h.idle p
    rw [hidle]
    exact rfl

/-- The transcript of a process says, call after call, what its events are: of the bytes for
`pipewrite` a first part was stored, all if it has returned their number, and `piperead` has
returned the bytes that were delivered. -/
inductive Accounts : List Exchange → List PipeEvent → Prop
  | nil : Accounts [] []
  | wrote {past : List Exchange} {events : List PipeEvent} {bytes part : List UInt8} {returned : ℤ}
      (h : Accounts past events) (hpart : part <+: bytes)
      (hall : returned = -1 ∨ returned = bytes.length ∧ part = bytes) :
      Accounts (past ++ [.wrote bytes returned]) (events ++ part.map .put)
  | received {past : List Exchange} {events : List PipeEvent} (h : Accounts past events)
      (bytes : List UInt8) : Accounts (past ++ [.received bytes]) (events ++ bytes.map .take)

/-- What is in the transcript and in the call under way fits the events. -/
def Told (entry : Point × Transcript) (events : List PipeEvent) : Prop :=
  match entry.1 with
  | .idle _ _ => Accounts entry.2.past events
  | .reading _ => Accounts entry.2.past events
  | .writing n rest => ∃ before part, Accounts entry.2.past before ∧
      events = before ++ part.map .put ∧ entry.2.pending = part ++ rest ∧
      n = entry.2.pending.length
  | .copying _ received => ∃ before, Accounts entry.2.past before ∧
      events = before ++ received.map .take

/-- The event of an operation on the pipe. -/
def opEvent : (op : PipeOp) → Result op → Option PipeEvent
  | .put c, _ => some (.put c)
  | .take, c => some (.take c)
  | _, _ => none

section Told

variable {log : Transcript} {events : List PipeEvent}

end Told

/-- In every run in which no killed writer leaves readers behind, nobody sleeps on a pipe that it
could use. -/
theorem pipe_no_lost_wakeup (hstart : Initial start)
    (hrun : Runs step (Pool.Permits (fun _ ↦ True) LeavesNobody) start finish)
    (hfree : finish.store.lock .guard = none) (p : Pid) :
    (finish.store.Asleep p .nread → finish.store.data.pipe.nread = finish.store.data.pipe.nwrite ∧
      finish.store.data.pipe.writeopen = true) ∧
    (finish.store.Asleep p .nwrite →
      finish.store.data.pipe.nwrite = Word.add finish.store.data.pipe.nread pipeSize ∧
      finish.store.data.pipe.readopen = true) := by
  obtain ⟨stakes, hsteady⟩ := Pool.Steady.run (fun point request stake _ h ↦
    code_safe point request stake h) ⟨_, hstart.steady True⟩
    (hrun.mono fun pool label h ↦ Pool.Permits.mono (fun _ ↦ id) (fun _ _ _ h _ ↦ h) h)
  refine ⟨fun hasleep ↦ ?_, fun hasleep ↦ ?_⟩
  · obtain ⟨hempty, hopen⟩ := hsteady.holds.waits_of_free hfree hasleep trivial
    exact ⟨of_decide_eq_true hempty, hopen⟩
  · obtain ⟨hfull, hopen⟩ := hsteady.holds.waits_of_free hfree hasleep trivial
    exact ⟨of_decide_eq_true hfull, hopen⟩

end Results

/-- A new pipe: process 0 has the read end, processes 1 and 2 have the write end. -/
def threeProcesses : System (Fin 3) :=
  ⟨⟨fun _ ↦ none, fun _ ↦ .running, fun _ ↦ none, fun _ ↦ false, ⟨.alloc fun _ ↦ 0, []⟩,
    fun side ↦ if side = .read then {0} else {1, 2}⟩, fun _ ↦ .done (.idle 0 [])⟩

theorem threeProcesses_initial : Initial threeProcesses :=
  ⟨fun _ ↦ ⟨0, [], rfl⟩, fun _ ↦ rfl, fun _ ↦ (nomatch ·), ⟨fun _ ↦ 0, rfl⟩⟩

/-- Process 0 reads from the empty pipe and falls asleep. -/
def fallAsleep : List (PoolLabel (Fin 3) (Request (Fin 3))) :=
  [.start 0 (.read 1), .advance 0, .advance 0, .start 0 (.read 1), .advance 0, .advance 0,
    .advance 0, .advance 0, .advance 0]

/-- Process 1 starts to write and stores as many bytes. -/
def store (bytes : List UInt8) (n : ℕ) : List (PoolLabel (Fin 3) (Request (Fin 3))) :=
  [.start 1 (.write bytes), .advance 1, .advance 1] ++
    (List.replicate n [.start 1 (.write []), .advance 1, .advance 1]).flatten

/-- Process 2 kills process 1, which finds the pipe full and leaves. -/
def killWriter : List (PoolLabel (Fin 3) (Request (Fin 3))) :=
  [.start 2 (.kill 1), .advance 2, .advance 2, .advance 2, .start 1 (.write []), .advance 1,
    .advance 1, .advance 1]

/-- A writer that is killed after it has filled the pipe leaves a reader asleep, with data in the
pipe and the write end open. -/
theorem pipe_reader_left_asleep : ∃ finish : System (Fin 3), Initial threeProcesses ∧
    Runs step (fun _ _ ↦ True) threeProcesses finish ∧ finish.store.lock .guard = none ∧
    finish.store.Asleep 0 .nread ∧
    finish.store.data.pipe.nread ≠ finish.store.data.pipe.nwrite := by
  simp only [threeProcesses_initial, true_and]
  apply Runs.of_labels (fallAsleep ++ store (List.replicate 513 7) 512 ++ killWriter)
  decide +kernel

theorem permits_of_not_full {system : System (Fin 3)}
    {label : PoolLabel (Fin 3) (Request (Fin 3))} (h : (!system.store.data.pipe.isFull) = true) :
    system.Permits (fun _ ↦ True) LeavesNobody label := by
  cases label with
  | start p request => trivial
  | advance p =>
    simp only [Pool.Permits]
    split
    · trivial
    · rename_i op next _
      cases op with
      | isKilled =>
        intro hfull _
        rw [hfull] at h
        cases h
      | _ => trivial

/-- The reader of an empty pipe is asleep with reason. -/
theorem pipe_no_lost_wakeup_reader : ∃ finish : System (Fin 3), finish.store.Asleep 0 .nread ∧
    finish.store.data.pipe.nread = finish.store.data.pipe.nwrite ∧
    finish.store.data.pipe.writeopen = true := by
  have hreplay : (replay step (fun system _ ↦ !system.store.data.pipe.isFull) threeProcesses
      fallAsleep).any (fun finish ↦ decide (finish.store.lock .guard = none) &&
        decide (finish.store.Asleep 0 .nread)) = true := by
    decide +kernel
  obtain ⟨finish, hrun, hholds⟩ := Runs.of_replay (fun _ _ ↦ permits_of_not_full) hreplay
  simp only [Bool.and_eq_true, decide_eq_true_eq] at hholds
  obtain ⟨hfree, hasleep⟩ := hholds
  exact ⟨finish, hasleep, (pipe_no_lost_wakeup threeProcesses_initial hrun hfree 0).1 hasleep⟩

end Pipe

end Xv6Shm
