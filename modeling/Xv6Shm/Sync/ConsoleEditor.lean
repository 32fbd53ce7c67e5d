import Xv6Shm.Sync.Console
import Xv6Shm.Sync.Protocol

/-!
# The console is a line editor

The buffer holds the characters that a line editor, run on the characters that have come in, has
committed and not yet delivered, followed by those that are being edited. What each process was
given and has returned is what its events say.
-/

namespace Xv6Shm

open Fallible Protocol Circular Program

variable {n : ℕ} {received : List UInt8}

theorem Circular.sub_add_one (a n : ℕ) : Word.sub (Word.add a (n + 1)) 1 = Word.add a n := by
  unfold Word.sub Word.add Word.size
  omega

namespace Console

/-- The buffer holds `a` committed characters and `b` characters that are being edited. -/
structure Edits (input : Input) (editor : LineEditor) (a b : ℕ) : Prop where
  word : input.r < Word.size
  w : input.w = Word.add input.r a
  e : input.e = Word.add input.r (a + b)
  le : a + b ≤ inputBuf
  full : a + b = inputBuf → b = 0
  committed : editor.committed = editor.delivered ++ window inputBuf input.buf input.r a
  tail : editor.tail = window inputBuf input.buf (input.r + a) b
  plain : newline ∉ editor.tail

variable {input : Input} {editor : LineEditor} {a b : ℕ}

namespace Edits

variable (h : Edits input editor a b)

include h

theorem lt_size : a + b < Word.size := h.le.trans_lt (by decide)

theorem sub_e_r : Word.sub input.e input.r = a + b := by
  rw [h.e]
  exact sub_add_left h.lt_size

theorem sub_e_w : Word.sub input.e input.w = b := by
  have hlt := h.lt_size
  rw [h.e, h.w, ← add_add]
  exact sub_add_left (by omega)

theorem e_eq_w_iff : input.e = input.w ↔ b = 0 := by
  have hlt := h.lt_size
  rw [h.e, h.w, add_left_inj hlt (by omega)]
  omega

theorem r_eq_w_iff : input.r = input.w ↔ a = 0 := by
  have hlt := h.lt_size
  have hzero : Word.add input.r 0 = input.r := Nat.mod_eq_of_lt h.word
  rw [h.w]
  nth_rewrite 1 [← hzero]
  rw [add_left_inj (by decide) (by omega), eq_comm]

theorem load_eq : editor.load = a + b := by
  rw [LineEditor.load, h.committed, h.tail]
  simp

theorem index_e : input.e % inputBuf = (input.r + a + b) % inputBuf := by
  rw [h.e, Nat.add_assoc]
  exact add_mod_size (by decide) _ _

theorem backspace : ∃ b, Edits input.backspace editor.backspace a b := by
  have hle := h.le
  cases b with
  | zero =>
    have hsame : input.backspace = input := if_neg (not_not.mpr (h.e_eq_w_iff.mpr rfl))
    have htail : editor.tail = [] := h.tail
    have hdrop : editor.backspace = editor := by
      rw [LineEditor.backspace, htail, List.dropLast_nil, ← htail]
    rw [hsame, hdrop]
    exact ⟨0, h⟩
  | succ k =>
    have hback : input.backspace = { input with e := Word.sub input.e 1 } :=
      if_pos fun heq ↦ absurd (h.e_eq_w_iff.mp heq) (Nat.succ_ne_zero k)
    have he : Word.sub input.e 1 = Word.add input.r (a + k) := by
      rw [h.e, ← Nat.add_assoc, sub_add_one]
    have htail : editor.tail.dropLast = window inputBuf input.buf (input.r + a) k := by
      rw [h.tail, window_succ, List.dropLast_concat]
    rw [hback, LineEditor.backspace]
    exact ⟨k, h.word, h.w, he, by omega, by omega, h.committed, htail,
      fun hmem ↦ h.plain (List.dropLast_subset _ hmem)⟩

omit h

/-- The loop for `C('U')` goes back to the mark, since no newline is in between. -/
theorem killLineLoop_eq (hw : input.w = Word.add input.r a) {b rounds : ℕ}
    (hrounds : b ≤ rounds) (hlt : a + b < Word.size)
    (hplain : newline ∉ window inputBuf input.buf (input.r + a) b) :
    input.killLineLoop rounds (Word.add input.r (a + b)) = input.w := by
  induction b generalizing rounds with
  | zero =>
    cases rounds with
    | zero => exact hw.symm
    | succ rounds => rw [Input.killLineLoop, if_neg (by simp [hw])]; exact hw.symm
  | succ b ih =>
    obtain ⟨rounds, rfl⟩ := Nat.exists_eq_add_of_le' (show 1 ≤ rounds by omega)
    have hback : Word.sub (Word.add input.r (a + (b + 1))) 1 = Word.add input.r (a + b) := by
      rw [← Nat.add_assoc, sub_add_one]
    have hne : Word.add input.r (a + (b + 1)) ≠ input.w := by
      rw [hw, Ne, add_left_inj hlt (by omega)]
      omega
    rw [window_succ, List.mem_append, not_or, List.mem_singleton] at hplain
    have hchar : input.buf (Word.add input.r (a + b) % inputBuf) ≠ newline := by
      rw [add_mod_size (by decide), ← Nat.add_assoc]
      exact Ne.symm hplain.2
    rw [Input.killLineLoop, hback, if_pos ⟨hne, hchar⟩]
    exact ih (by omega) (by omega) hplain.1

theorem killLine (h : Edits input editor a b) : Edits input.killLine editor.killLine a 0 := by
  have hloop := killLineLoop_eq h.w le_rfl h.lt_size (h.tail ▸ h.plain)
  have hle := h.le
  rw [Input.killLine, h.sub_e_w, h.e, hloop]
  exact ⟨h.word, h.w, h.w, by omega, fun _ ↦ rfl, h.committed, rfl, List.not_mem_nil⟩

section Append

variable (h : Edits input editor a b) (hroom : a + b < inputBuf) (c : UInt8)

include h hroom

theorem front_append :
    window inputBuf (input.append c).buf input.r a = window inputBuf input.buf input.r a := by
  rw [Input.append, h.index_e, Nat.add_assoc]
  exact window_update (Nat.le_add_right a b) hroom c

theorem tail_append :
    window inputBuf (input.append c).buf (input.r + a) (b + 1) = editor.tail ++ [c] := by
  rw [Input.append, h.index_e, h.tail]
  exact window_store (by omega) c

omit hroom in
theorem e_append : (input.append c).e = Word.add input.r (a + b + 1) := by
  rw [Input.append, h.e, add_add]

omit hroom in
theorem load_append : (editor.append c).load = a + b + 1 := by
  rw [← h.load_eq, LineEditor.append, LineEditor.load, LineEditor.load, List.length_append,
    List.length_singleton, Nat.add_assoc]

theorem commits_iff : (input.append c).commits c = true ↔
    c = newline ∨ c = control 'D' ∨ (editor.append c).load = inputBuf := by
  have hfull : (input.append c).e = Word.add (input.append c).r inputBuf ↔
      a + b + 1 = inputBuf := by
    have hsize : inputBuf < Word.size := by decide
    rw [h.e_append c]
    exact add_left_inj (by omega) hsize
  rw [Input.commits, Bool.or_eq_true, Bool.or_eq_true, decide_eq_true_eq, decide_eq_true_eq,
    decide_eq_true_eq, hfull, h.load_append c, or_assoc]

theorem append_commit : Edits (input.append c).commit (editor.append c).commit (a + b + 1) 0 := by
  refine ⟨h.word, h.e_append c, h.e_append c, hroom, fun _ ↦ rfl, ?_, rfl, List.not_mem_nil⟩
  have hsplit : window inputBuf (input.append c).buf input.r (a + b + 1) =
      window inputBuf input.buf input.r a ++ (editor.tail ++ [c]) := by
    rw [Nat.add_assoc, window_add, h.front_append hroom c, h.tail_append hroom c]
  calc editor.committed ++ (editor.tail ++ [c])
      = editor.delivered ++ (window inputBuf input.buf input.r a ++
          (editor.tail ++ [c])) := by rw [h.committed, List.append_assoc]
    _ = _ := congrArg (editor.delivered ++ ·) hsplit.symm

theorem append_edit (hplain : c ≠ newline) (hfull : a + b + 1 ≠ inputBuf) :
    Edits (input.append c) (editor.append c) a (b + 1) := by
  refine ⟨h.word, h.w, h.e_append c, hroom, fun heq ↦ absurd heq hfull, ?_, ?_, ?_⟩
  · exact h.committed.trans (congrArg (editor.delivered ++ ·) (h.front_append hroom c).symm)
  · exact (h.tail_append hroom c).symm
  · rw [LineEditor.append, List.mem_append, List.mem_singleton, not_or]
    exact ⟨h.plain, Ne.symm hplain⟩

end Append

theorem enter (h : Edits input editor a b) (c : UInt8) :
    ∃ a b, Edits (input.enter c).2 (editor.enter c) a b := by
  unfold Input.enter LineEditor.enter
  rw [h.sub_e_r, h.load_eq]
  split
  · rename_i hroom
    generalize hstored : (if c = carriageReturn then newline else c) = stored
    by_cases hcommits : (input.append stored).commits stored = true
    · rw [if_pos hcommits, if_pos ((h.commits_iff hroom.2 stored).mp hcommits)]
      exact ⟨_, _, h.append_commit hroom.2 stored⟩
    · have hnot := mt (h.commits_iff hroom.2 stored).mpr hcommits
      rw [if_neg hcommits, if_neg hnot]
      rw [not_or, not_or, h.load_append] at hnot
      exact ⟨_, _, h.append_edit hroom.2 stored hnot.1 hnot.2.2⟩
  · exact ⟨a, b, h⟩

theorem handle (h : Edits input editor a b) (c : UInt8) :
    ∃ a b, Edits (input.handle c).2 (editor.handle c) a b := by
  unfold Input.handle LineEditor.handle
  split
  · exact ⟨a, b, h⟩
  · split
    · exact ⟨a, 0, h.killLine⟩
    · split
      · exact ⟨a, h.backspace⟩
      · exact h.enter c

theorem advance (h : Edits input editor (a + 1) b) : Edits { input with r := Word.add input.r 1 }
      (editor.deliver (input.buf (input.r % inputBuf))) a b := by
  have hle := h.le
  refine ⟨Word.add_lt _ _, ?_, ?_, by omega, by omega, ?_, ?_, h.plain⟩
  · rw [add_add, h.w, Nat.add_comm 1 a]
  · rw [add_add, h.e, Nat.add_comm 1 (a + b), Nat.add_right_comm]
  · rw [LineEditor.deliver, h.committed, window_cons, window_add_one (by decide), List.append_assoc]
    rfl
  · rw [LineEditor.deliver, h.tail]
    apply window_congr
    rw [Nat.add_mod (Word.add _ _), add_mod_size (by decide), ← Nat.add_mod,
      Nat.add_assoc, Nat.add_comm 1 a]

theorem take (h : Edits input editor (a + 1) b) (received : List UInt8) :
    ∃ a b, Edits (input.take received).2
      ((opEvent (.take received) (input.take received).1).elim editor editor.next) a b := by
  have hback := (sub_add_one input.r 0).trans (Nat.mod_eq_of_lt h.word)
  unfold Input.take
  by_cases heof : input.buf (input.r % inputBuf) = control 'D'
  · by_cases hreceived : received = []
    · rw [if_neg fun hboth ↦ hboth.2 hreceived, opEvent, if_pos heof, if_pos hreceived]
      exact ⟨a, b, heof ▸ h.advance⟩
    · rw [if_pos ⟨heof, hreceived⟩, opEvent, if_pos heof, if_neg hreceived, hback]
      exact ⟨a + 1, b, h⟩
  · rw [if_neg fun hboth ↦ heof hboth.1, opEvent, if_neg heof]
    exact ⟨a, b, h.advance⟩

end Edits

section Programs

variable {Pid : Type} {data : ConsoleData Pid}

theorem editor_noted (p : Pid) (event : Option ConsoleEvent) (input : Input)
    (history : List (Pid × ConsoleEvent)) :
    (⟨input, noted (event.map (p, ·)) history⟩ : ConsoleData Pid).editor =
      event.elim (LineEditor.run (history.map Prod.snd))
        (LineEditor.run (history.map Prod.snd)).next := by
  cases event with
  | none => rfl
  | some event => simp [ConsoleData.editor, LineEditor.run, noted]

theorem backspace_quiet : input.backspace.r = input.r ∧ input.backspace.w = input.w := by
  unfold Input.backspace
  split <;> exact ⟨rfl, rfl⟩

/-- Without a commit the readers see no change. -/
theorem handle_quiet {c : UInt8} (h : ¬ (input.handle c).1 = true) :
    (input.handle c).2.r = input.r ∧ (input.handle c).2.w = input.w := by
  unfold Input.handle at h ⊢
  split_ifs at h ⊢
  · exact ⟨rfl, rfl⟩
  · exact ⟨rfl, rfl⟩
  · exact backspace_quiet
  · unfold Input.enter at h ⊢
    generalize (if c = carriageReturn then newline else c) = stored at h ⊢
    by_cases hroom : c ≠ 0 ∧ Word.sub input.e input.r < inputBuf
    · rw [if_pos hroom] at h ⊢
      have hstays : ¬ (input.append stored).commits stored = true :=
        fun hcommits ↦ h (congrArg Prod.fst (if_pos hcommits))
      rw [if_neg hstays]
      exact ⟨rfl, rfl⟩
    · rw [if_neg hroom]
      exact ⟨rfl, rfl⟩

variable [DecidableEq Pid]

/-- A reader waits while nothing is committed. -/
def protocol (Pid : Type) [DecidableEq Pid] :
    Protocol Pid Unit (ConsoleData Pid) Unit Unit Result Reply where
  access := access
  visit := visit
  waits _ data := data.input.r = data.input.w
  role _ _ := True
  agrees data _ _ := ∃ a b, Edits data.input data.editor a b
  settled _ := True
  permitted _ _ _ := True
  allowed _ := True
  blocked := trivial

/-- What a process has between two pieces of its code. -/
def At : Point → Stake Unit (ConsoleData Pid) Unit → Prop
  | .idle _ _, stake => stake = .outside ()
  | .reading _ _, stake => ∃ data, stake = .inside data (fun _ ↦ False) ()

theorem release_idle_safe (returned : ℤ) (received : List UInt8) : (protocol Pid).Safe (do
      MonitorProgram.release
      return Point.idle returned received) (.inside data (fun _ ↦ False) ()) At :=
  Safe.bind (release_safe (fun _ ↦ id) (fun _ _ _ ↦ agrees_same)
    trivial rfl)

/-- What holds of a process that handles characters. -/
def Handling (_ : Unit) (stake : Stake Unit (ConsoleData Pid) Unit) : Prop :=
  ∃ data, stake = .inside data (fun _ ↦ False) ()

theorem handle_safe (c : UInt8) :
    (protocol Pid).Safe (handle c) (.inside data (fun _ ↦ False) ()) Handling := by
  refine Safe.bind (access_safe rfl rfl fun _ _ p hagrees _ ↦ ?_)
  obtain ⟨a, b, hedits⟩ := hagrees
  have hkept := hedits.handle c
  rw [← show _ = data.editor.handle c from editor_noted p (some (.typed c)) _ data.history] at hkept
  by_cases hcommitted : (data.input.handle c).1 = true
  · refine ⟨(), fun _ ↦ True, hkept, fun _ _ _ ↦ Or.inr trivial,
      Safe.ite (fun _ ↦ ?_) fun hno ↦ absurd hcommitted hno⟩
    exact wakeup_last_safe (fun _ _ ↦ rfl) ⟨_, rfl⟩
  · obtain ⟨hr, hw⟩ := handle_quiet hcommitted
    refine ⟨(), fun _ ↦ False, hkept, fun _ hc _ ↦ hc.imp_left fun hwaits ↦ ?_,
      Safe.ite (fun hyes ↦ absurd hyes hcommitted) fun _ ↦ ⟨_, rfl⟩⟩
    exact hr.trans (Eq.trans hwaits hw.symm)

theorem handleAll_safe (chars : List UInt8) :
    ∀ {data : ConsoleData Pid}, (protocol Pid).Safe (handleAll chars)
      (.inside data (fun _ ↦ False) ()) Handling := by
  induction chars with
  | nil =>
    intro data
    exact ⟨data, rfl⟩
  | cons c rest ih =>
    intro data
    refine Safe.bind ((handle_safe c).mono ?_)
    rintro _ _ ⟨data', rfl⟩
    exact ih

theorem consoleintr_safe (chars : List UInt8) :
    (protocol Pid).Safe (consoleintr chars) (.outside ()) At := by
  refine Safe.bind (acquire_safe rfl rfl fun data _ _ _ _ _ _ ↦ ?_)
  refine Safe.bind ((handleAll_safe chars).mono ?_)
  rintro _ _ ⟨data', rfl⟩
  exact release_idle_safe 0 []

theorem readRound_safe (n : ℕ) (received : List UInt8) :
    (protocol Pid).Safe (readRound n received) (.inside data (fun _ ↦ False) ()) At := by
  refine Safe.ite (fun _ ↦ release_idle_safe _ _) fun _ ↦ ?_
  refine Safe.bind (look_safe (fun _ ↦ rfl) (Safe.ite (fun hwait ↦ ?_) fun hready ↦ ?_))
  · refine Safe.bind (isKilled_safe fun m stakes p _ _ _ ↦
      ⟨fun _ ↦ False, fun _ ↦ id, fun _ ↦ Or.inl, Safe.ite (fun _ ↦ ?_) fun _ ↦ ?_⟩)
    · exact release_idle_safe _ _
    · exact Safe.bind (sleep_safe (fun _ ↦ id) trivial hwait trivial
        fun data _ _ _ _ _ _ ↦ ⟨data, rfl⟩)
  · refine Safe.bind (access_safe rfl rfl fun _ _ p hagrees _ ↦ ?_)
    obtain ⟨a, b, hedits⟩ := hagrees
    obtain ⟨k, rfl⟩ := Nat.exists_eq_add_one_of_ne_zero (mt hedits.r_eq_w_iff.mpr hready)
    have htaken := hedits.take received
    rw [← show _ = Option.elim _ data.editor data.editor.next from editor_noted p _ _ _] at htaken
    refine ⟨(), fun _ ↦ False, htaken, fun _ hc _ ↦ ?_,
      Safe.ite (fun _ ↦ release_idle_safe _ _) fun _ ↦
        Safe.ite (fun _ ↦ release_idle_safe _ _) fun _ ↦ ⟨_, rfl⟩⟩
    exact absurd (hc.resolve_right id) hready

theorem code_safe (point : Point) (request : Request Pid)
    (stake : Stake Unit (ConsoleData Pid) Unit) (h : At point stake) :
    (protocol Pid).Safe (code point request) stake At := by
  cases point with
  | idle returned received =>
    obtain rfl : stake = .outside () := h
    cases request with
    | interrupt chars => exact consoleintr_safe chars
    | read n =>
      exact Safe.bind (acquire_safe rfl rfl fun data _ _ _ _ _ _ ↦ ⟨data, rfl⟩)
    | kill q => exact Safe.bind (kill_safe q rfl)
  | reading n received =>
    obtain ⟨data, rfl⟩ := h
    exact readRound_safe n received

theorem Initial.steady {start : System Pid} (h : Initial start) :
    start.Steady (Monitor.perform access visit) (protocol Pid).Holds (protocol Pid).permitted
      (protocol Pid).allowed At fun _ ↦ .outside () := by
  obtain ⟨buf, hbuf⟩ := h.input
  refine ⟨Protocol.Holds.of_outside h.unheld h.awake ⟨0, 0, ?_⟩ trivial, fun p ↦ ?_⟩
  · rw [hbuf]
    exact ⟨Nat.two_pow_pos 32, rfl, rfl, Nat.zero_le _, fun _ ↦ rfl, rfl, rfl, List.not_mem_nil⟩
  · obtain ⟨returned, received, hidle⟩ := h.idle p
    rw [hidle]
    exact rfl

end Programs

/-- The transcript of a process says, call after call, what its events are: the characters of an
interrupt have come in, and a call of `consoleread` has copied the characters that were delivered to
it, no `C('D')` among them. It has returned their number, or -1 if it was killed, and it was
delivered an end of file exactly if it has returned zero. -/
inductive Accounts : List Exchange → List ConsoleEvent → Prop
  | nil : Accounts [] []
  | typed {past : List Exchange} {events : List ConsoleEvent} (h : Accounts past events)
      (chars : List UInt8) : Accounts (past ++ [.typed chars]) (events ++ chars.map .typed)
  | read {past : List Exchange} {events : List ConsoleEvent} {n : ℕ} {bytes : List UInt8}
      {returned : ℤ} (h : Accounts past events) (hlength : bytes.length ≤ n)
      (heof : control 'D' ∉ bytes) (hreturned : returned = bytes.length ∨ returned = -1) :
      Accounts (past ++ [.read n bytes returned])
        (events ++ bytes.map .read ++ if returned = 0 ∧ 0 < n then [.eof] else [])

/-- What is in the transcript and in the call under way fits the events. -/
def Told (entry : Point × Transcript) (events : List ConsoleEvent) : Prop :=
  match entry.1 with
  | .idle _ _ => Accounts entry.2.past events
  | .reading n received => ∃ before, Accounts entry.2.past before ∧
      events = before ++ received.map .read ∧ control 'D' ∉ received ∧
      received.length + n = entry.2.pending

section Told

variable {Pid : Type} {log : Transcript} {events : List ConsoleEvent}

/-- A call of `consoleread` ends with a character at least, or was not asked for any, or was
killed. -/
theorem Told.done {returned : ℤ} (h : Told (.reading n received, log) events)
    (hreturned : returned = received.length ∧ (received = [] → n = 0) ∨ returned = -1) :
    Accounts (log.past ++ [.read log.pending received returned]) events := by
  obtain ⟨before, hbefore, rfl, heof, hlength⟩ := h
  have hread := hbefore.read (Nat.le_of_add_right_le hlength.le) heof (hreturned.imp_left And.left)
  rwa [if_neg, List.append_nil] at hread
  rintro ⟨rfl, hpos⟩
  rcases hreturned with ⟨hzero, hnone⟩ | hkilled
  · have hnil : received = [] := List.length_eq_zero_iff.mp (by omega)
    have hn := hnone hnil
    rw [hnil, hn] at hlength
    exact absurd hlength.symm (Nat.ne_of_gt hpos)
  · cases hkilled

/-- A call that finds `C('D')` has returned what it has, or leaves with an end of file. -/
theorem Told.ends (h : Told (.reading n received, log) events)
    (hpos : n ≠ 0) : Accounts (log.past ++ [.read log.pending received received.length])
      (noted (opEvent (.take received) (control 'D')) events) := by
  rw [opEvent, if_pos rfl]
  by_cases hreceived : received = []
  · obtain ⟨before, hbefore, rfl, heof, hlength⟩ := h
    have hread := hbefore.read (Nat.le_of_add_right_le hlength.le) heof (Or.inl rfl)
    subst hreceived
    rwa [if_pos ⟨rfl, by rw [← hlength]; exact Nat.add_pos_right _ (Nat.pos_of_ne_zero hpos)⟩]
      at hread
  · rw [if_neg hreceived]
    exact h.done (Or.inl ⟨rfl, fun hnil ↦ absurd hnil hreceived⟩)

theorem Told.copies {c : UInt8}
    (h : Told (.reading n received, log) events) (hpos : n ≠ 0) (hc : c ≠ control 'D') :
    Told (.reading (n - 1) (received ++ [c]), log) (noted (opEvent (.take received) c) events) := by
  obtain ⟨before, hbefore, rfl, heof, hlength⟩ := h
  rw [opEvent, if_neg hc]
  refine ⟨before, hbefore, ?_, ?_, ?_⟩
  · rw [List.map_append, ← List.append_assoc]
    rfl
  · rw [List.mem_append, List.mem_singleton, not_or]
    exact ⟨heof, Ne.symm hc⟩
  · rw [← hlength, List.length_append, List.length_singleton]
    omega

variable [DecidableEq Pid]

end Told

/-- Nobody is at the console. -/
def quiet : System Unit where
  store := ⟨fun _ ↦ none, fun _ ↦ .running, fun _ ↦ none, fun _ ↦ false,
    ⟨⟨fun _ ↦ 0, 0, 0, 0⟩, []⟩, ()⟩
  process _ := .done (.idle 0 [])

/-- A line with a typing error, an end of file, and two calls of `read`. -/
def session : List (PoolLabel Unit (Request Unit)) :=
  .start () (.interrupt [97, 98, delete, 99, carriageReturn, control 'D']) ::
    List.replicate 14 (.advance ()) ++
  [.start () (.read 5), .advance (), .start () (.read 5), .advance (), .advance (),
    .start () (.read 5), .advance (), .advance (),
    .start () (.read 5), .advance (), .advance (), .advance (),
    .start () (.read 5), .advance (),
    .start () (.read 5), .advance (), .advance (), .advance ()]

end Console

end Xv6Shm
