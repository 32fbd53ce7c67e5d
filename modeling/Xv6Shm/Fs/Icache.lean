import Mathlib.Data.List.FinRange
import Xv6Shm.Memory.Kalloc

/-!
# The inode cache

The table of in-memory inodes and the calls that look entries up, count references to them, lock
them and free them. A section under `icache.lock` is one step. Between two steps of `ilock`,
`ialloc` or `iput`, which reads the count, drops the spin-lock, frees and then gives its reference
back, other processes go on.

Of an inode this module has the type, the link count and the size. A free inode on disk has no type.
-/

namespace Xv6Shm

open Fallible Function

/-- The number of entries, `NINODE`. -/
def nInode : ℕ := 50

inductive FileType where
  | dir
  | file
  | dev
deriving DecidableEq, Repr

/-- The fields of `struct dinode` that the cache looks at; the type is `none` where the source has
0. -/
structure InodeInfo where
  type : Option FileType
  nlink : ℕ
  size : ℕ
deriving DecidableEq, Repr

/-- `struct inode`, with the fields that `ilock` copies from disk in `copy`. -/
structure IcacheEntry (Pid : Type) where
  id : ℕ × ℕ
  ref : ℕ
  holder : Option Pid
  valid : Bool
  copy : InodeInfo

/-- How far a process has come in `iput`. -/
inductive PutPos where
  | entered
  | locked
  | checked
  | freeing
  | truncated
  | freed
  | unlocking
  | dropping
deriving DecidableEq, Repr

/-- What a process is doing with the cache. -/
inductive InodePhase where
  | free
  | locking (e : Fin nInode)
  | allocating (id : ℕ × ℕ)
  | putting (e : Fin nInode) (pos : PutPos)
deriving DecidableEq, Repr

/-- The cache, the inodes on disk by device and number, the references that processes hold, and
what each process is doing. -/
structure IcacheState (Pid : Type) where
  disk : ℕ × ℕ → InodeInfo
  inode : Fin nInode → IcacheEntry Pid
  refs : List (Pid × Fin nInode)
  phase : Pid → InodePhase

/-- The calls. `write` stands for all that is done to a locked inode: changes of the link count,
and of the size by `writei`, each followed by `iupdate`. -/
inductive IcacheCall where
  | iget (id : ℕ × ℕ)
  | idup (e : Fin nInode)
  | ialloc (id : ℕ × ℕ) (type : FileType)
  | ilock (e : Fin nInode)
  | iunlock (e : Fin nInode)
  | write (e : Fin nInode) (nlink size : ℕ)
  | iput (e : Fin nInode)
  | goOn
deriving DecidableEq, Repr

structure IcacheLabel (Pid : Type) where
  proc : Pid
  call : IcacheCall

section Iget

variable {Pid : Type}

/-- The entry that is in use for an inode. -/
def cachedInode (inode : Fin nInode → IcacheEntry Pid) (id : ℕ × ℕ) : Option (Fin nInode) :=
  (List.finRange nInode).find? fun e ↦ decide (0 < (inode e).ref) && decide ((inode e).id = id)

/-- The first entry that is not in use. -/
def emptyInode (inode : Fin nInode → IcacheEntry Pid) : Option (Fin nInode) :=
  (List.finRange nInode).find? fun e ↦ decide ((inode e).ref = 0)

def iget (inode : Fin nInode → IcacheEntry Pid) (id : ℕ × ℕ) :
    Except Fault ((Fin nInode → IcacheEntry Pid) × Fin nInode) :=
  match cachedInode inode id with
  | some e => .ok (update inode e { inode e with ref := (inode e).ref + 1 }, e)
  | none =>
    match emptyInode inode with
    | some e =>
      .ok (update inode e { inode e with id := id, ref := 1, valid := false }, e)
    | none => .error (.panic "iget: no inodes")

/-- The two ways in which `iget` can return. -/
inductive GotInode (inode : Fin nInode → IcacheEntry Pid) (id : ℕ × ℕ) :
    (Fin nInode → IcacheEntry Pid) → Fin nInode → Prop
  | hit {e : Fin nInode} (hused : 0 < (inode e).ref) (hid : (inode e).id = id) :
      GotInode inode id (update inode e { inode e with ref := (inode e).ref + 1 }) e
  | recycle {e : Fin nInode} (hnone : ∀ f, 0 < (inode f).ref → (inode f).id ≠ id)
      (hempty : (inode e).ref = 0) :
      GotInode inode id (update inode e { inode e with id := id, ref := 1, valid := false }) e

theorem iget_eq_ok {inode inode' : Fin nInode → IcacheEntry Pid} {id : ℕ × ℕ} {e : Fin nInode}
    (h : iget inode id = .ok (inode', e)) : GotInode inode id inode' e := by
  unfold iget at h
  split at h
  · rename_i found hfound
    cases h
    have hmatch := List.find?_some hfound
    simp only [Bool.and_eq_true, decide_eq_true_eq] at hmatch
    exact .hit hmatch.1 hmatch.2
  · rename_i hnone
    split at h
    · rename_i found hfound
      cases h
      refine .recycle (fun f hused hid ↦ ?_) (by simpa using List.find?_some hfound)
      have hmiss := List.find?_eq_none.mp hnone f (List.mem_finRange f)
      simp [hused, hid] at hmiss
    · cases h

end Iget

namespace IcacheState

variable {Pid : Type} [DecidableEq Pid]

/-- No entry is in use and no process in a call. -/
def start (disk : ℕ × ℕ → InodeInfo) : IcacheState Pid where
  disk := disk
  inode := fun _ ↦ ⟨(0, 0), 0, none, false, ⟨none, 0, 0⟩⟩
  refs := []
  phase := fun _ ↦ .free

/-- A process changes an entry, and perhaps the disk, and goes on. -/
def touch (state : IcacheState Pid) (p : Pid) (e : Fin nInode) (inode : IcacheEntry Pid)
    (disk : ℕ × ℕ → InodeInfo) (phase : InodePhase) : IcacheState Pid :=
  { state with
    disk := disk
    inode := update state.inode e inode
    phase := update state.phase p phase }

/-- `iupdate`. -/
def iupdate (disk : ℕ × ℕ → InodeInfo) (inode : IcacheEntry Pid) : ℕ × ℕ → InodeInfo :=
  update disk inode.id inode.copy

/-- `iget`, with the reference given to the process. -/
def get (state : IcacheState Pid) (p : Pid) (id : ℕ × ℕ) :
    Except Fault (IcacheState Pid × Unit) := do
  let (inode, e) ← iget state.inode id
  pure ({ state with
    inode := inode
    refs := (p, e) :: state.refs
    phase := update state.phase p .free }, ())

/-- The second half of `ilock`. -/
def load (state : IcacheState Pid) (p : Pid) (e : Fin nInode) :
    Except Fault (IcacheState Pid × Unit) :=
  let ip := state.inode e
  if ip.valid then .ok (state.touch p e ip state.disk .free, ())
  else if (state.disk ip.id).type = none then .error (.panic "ilock: no type")
  else .ok (state.touch p e { ip with valid := true, copy := state.disk ip.id } state.disk .free, ())

/-- The next step of `iput`. -/
def put (state : IcacheState Pid) (p : Pid) (e : Fin nInode) :
    PutPos → Except Fault (IcacheState Pid × Unit)
  | .entered =>
    if (state.inode e).holder.isSome then .error .blocked
    else .ok (state.touch p e { state.inode e with holder := some p } state.disk
      (.putting e .locked), ())
  | .locked =>
    .ok (state.touch p e (state.inode e) state.disk
      (.putting e (if (state.inode e).valid && decide ((state.inode e).copy.nlink = 0)
        then .checked else .unlocking)), ())
  | .checked =>
    .ok (state.touch p e (state.inode e) state.disk
      (.putting e (if (state.inode e).ref = 1 then .freeing else .unlocking)), ())
  | .freeing =>
    let ip := { state.inode e with copy := { (state.inode e).copy with size := 0 } }
    .ok (state.touch p e ip (iupdate state.disk ip) (.putting e .truncated), ())
  | .truncated =>
    let ip := { state.inode e with copy := { (state.inode e).copy with type := none } }
    .ok (state.touch p e ip (iupdate state.disk ip) (.putting e .freed), ())
  | .freed =>
    .ok (state.touch p e { state.inode e with valid := false } state.disk
      (.putting e .unlocking), ())
  | .unlocking =>
    .ok (state.touch p e { state.inode e with holder := none } state.disk
      (.putting e .dropping), ())
  | .dropping =>
    .ok ({ state.touch p e { state.inode e with ref := (state.inode e).ref - 1 } state.disk .free
      with refs := state.refs.erase (p, e) }, ())

def step (state : IcacheState Pid) (label : IcacheLabel Pid) :
    Except Fault (IcacheState Pid × Unit) :=
  let p := label.proc
  match state.phase p, label.call with
  | .free, .iget id => state.get p id
  | .free, .idup e =>
    if (p, e) ∈ state.refs then
      .ok ({ state.touch p e { state.inode e with ref := (state.inode e).ref + 1 } state.disk .free
        with refs := (p, e) :: state.refs }, ())
    else .error .blocked
  | .free, .ialloc id type =>
    if (state.disk id).type = none then
      .ok ({ state with
        disk := update state.disk id ⟨some type, 0, 0⟩
        phase := update state.phase p (.allocating id) }, ())
    else .error .blocked
  | .free, .ilock e =>
    if (p, e) ∉ state.refs then .error .blocked
    else if (state.inode e).ref < 1 then .error (.panic "ilock")
    else if (state.inode e).holder.isSome then .error .blocked
    else .ok (state.touch p e { state.inode e with holder := some p } state.disk (.locking e), ())
  | .free, .iunlock e =>
    if (state.inode e).holder ≠ some p ∨ (state.inode e).ref < 1 then .error (.panic "iunlock")
    else .ok (state.touch p e { state.inode e with holder := none } state.disk .free, ())
  | .free, .write e nlink size =>
    let ip := { state.inode e with copy := ⟨(state.inode e).copy.type, nlink, size⟩ }
    if (state.inode e).holder = some p ∧ (state.inode e).valid ∧ (state.inode e).copy.size ≤ size then
      .ok (state.touch p e ip (iupdate state.disk ip) .free, ())
    else .error .blocked
  | .free, .iput e =>
    if (p, e) ∈ state.refs then
      .ok (state.touch p e (state.inode e) state.disk (.putting e .entered), ())
    else .error .blocked
  | .locking e, .goOn => state.load p e
  | .allocating id, .goOn => state.get p id
  | .putting e pos, .goOn => state.put p e pos
  | _, _ => .error .blocked

/-- The steps that change one entry and keep its inode and its count. -/
inductive Touches (state : IcacheState Pid) (p : Pid) (e : Fin nInode) :
    IcacheCall → IcacheEntry Pid → (ℕ × ℕ → InodeInfo) → InodePhase → Prop
  | ilock (hphase : state.phase p = .free) (href : (p, e) ∈ state.refs)
      (hfree : (state.inode e).holder = none) :
      Touches state p e (.ilock e) { state.inode e with holder := some p } state.disk (.locking e)
  | loaded (hphase : state.phase p = .locking e) :
      Touches state p e .goOn (state.inode e) state.disk .free
  | load (hphase : state.phase p = .locking e)
      (htype : (state.disk (state.inode e).id).type ≠ none) :
      Touches state p e .goOn
        { state.inode e with valid := true, copy := state.disk (state.inode e).id } state.disk .free
  | iunlock (hphase : state.phase p = .free) (hholder : (state.inode e).holder = some p) :
      Touches state p e (.iunlock e) { state.inode e with holder := none } state.disk .free
  | write {nlink size : ℕ} (hphase : state.phase p = .free)
      (hholder : (state.inode e).holder = some p) (hvalid : (state.inode e).valid = true)
      (hsize : (state.inode e).copy.size ≤ size) :
      Touches state p e (.write e nlink size)
        { state.inode e with copy := ⟨(state.inode e).copy.type, nlink, size⟩ }
        (update state.disk (state.inode e).id ⟨(state.inode e).copy.type, nlink, size⟩) .free
  | iput (hphase : state.phase p = .free) (href : (p, e) ∈ state.refs) :
      Touches state p e (.iput e) (state.inode e) state.disk (.putting e .entered)
  | enter (hphase : state.phase p = .putting e .entered)
      (hfree : (state.inode e).holder = none) :
      Touches state p e .goOn { state.inode e with holder := some p } state.disk
        (.putting e .locked)
  | check (hphase : state.phase p = .putting e .locked) (hvalid : (state.inode e).valid = true)
      (hnlink : (state.inode e).copy.nlink = 0) :
      Touches state p e .goOn (state.inode e) state.disk (.putting e .checked)
  | linked (hphase : state.phase p = .putting e .locked) :
      Touches state p e .goOn (state.inode e) state.disk (.putting e .unlocking)
  | last (hphase : state.phase p = .putting e .checked) (href : (state.inode e).ref = 1) :
      Touches state p e .goOn (state.inode e) state.disk (.putting e .freeing)
  | shared (hphase : state.phase p = .putting e .checked) :
      Touches state p e .goOn (state.inode e) state.disk (.putting e .unlocking)
  | truncate (hphase : state.phase p = .putting e .freeing) :
      Touches state p e .goOn { state.inode e with copy := { (state.inode e).copy with size := 0 } }
        (update state.disk (state.inode e).id { (state.inode e).copy with size := 0 })
        (.putting e .truncated)
  | release (hphase : state.phase p = .putting e .truncated) :
      Touches state p e .goOn
        { state.inode e with copy := { (state.inode e).copy with type := none } }
        (update state.disk (state.inode e).id { (state.inode e).copy with type := none })
        (.putting e .freed)
  | invalidate (hphase : state.phase p = .putting e .freed) :
      Touches state p e .goOn { state.inode e with valid := false } state.disk
        (.putting e .unlocking)
  | unlock (hphase : state.phase p = .putting e .unlocking) :
      Touches state p e .goOn { state.inode e with holder := none } state.disk
        (.putting e .dropping)

/-- All that a step can do. -/
inductive Steps (state : IcacheState Pid) (p : Pid) : IcacheCall → IcacheState Pid → Prop
  | touch {call : IcacheCall} {e : Fin nInode} {inode : IcacheEntry Pid} {disk : ℕ × ℕ → InodeInfo}
      {phase : InodePhase} (htouch : state.Touches p e call inode disk phase) :
      Steps state p call (state.touch p e inode disk phase)
  | get {call : IcacheCall} {id : ℕ × ℕ} {inode : Fin nInode → IcacheEntry Pid} {e : Fin nInode}
      (hphase : state.phase p = .free ∧ call = .iget id ∨ state.phase p = .allocating id)
      (hgot : GotInode state.inode id inode e) :
      Steps state p call { state with
          inode := inode
          refs := (p, e) :: state.refs
          phase := update state.phase p .free }
  | idup {e : Fin nInode} (hphase : state.phase p = .free) (href : (p, e) ∈ state.refs) :
      Steps state p (.idup e)
        { state.touch p e { state.inode e with ref := (state.inode e).ref + 1 } state.disk .free
          with refs := (p, e) :: state.refs }
  | ialloc {id : ℕ × ℕ} {type : FileType} (hphase : state.phase p = .free)
      (htype : (state.disk id).type = none) :
      Steps state p (.ialloc id type) { state with
          disk := update state.disk id ⟨some type, 0, 0⟩
          phase := update state.phase p (.allocating id) }
  | drop {e : Fin nInode} (hphase : state.phase p = .putting e .dropping) :
      Steps state p .goOn
        { state.touch p e { state.inode e with ref := (state.inode e).ref - 1 } state.disk .free
          with refs := state.refs.erase (p, e) }

variable {state next : IcacheState Pid} {result : Unit}

theorem get_eq_ok {p : Pid} {id : ℕ × ℕ} (h : state.get p id = .ok (next, result)) :
    ∃ inode e, GotInode state.inode id inode e ∧
      next = { state with
        inode := inode
        refs := (p, e) :: state.refs
        phase := update state.phase p .free } := by
  obtain ⟨⟨inode, e⟩, hget, hpure⟩ := bind_eq_ok.mp h
  cases hpure
  exact ⟨inode, e, iget_eq_ok hget, rfl⟩

theorem put_eq_ok {p : Pid} {e : Fin nInode} {pos : PutPos} (hphase : state.phase p = .putting e pos)
    (h : state.put p e pos = .ok (next, result)) : state.Steps p .goOn next := by
  cases pos with
  | entered =>
    rw [put] at h
    split at h
    · cases h
    · rename_i hfree
      cases h
      exact .touch (.enter hphase (by simpa using hfree))
  | locked =>
    rw [put] at h
    cases h
    split
    · rename_i hcheck
      rw [Bool.and_eq_true, decide_eq_true_eq] at hcheck
      exact .touch (.check hphase hcheck.1 hcheck.2)
    · exact .touch (.linked hphase)
  | checked =>
    rw [put] at h
    cases h
    split
    · rename_i href
      exact .touch (.last hphase href)
    · exact .touch (.shared hphase)
  | freeing =>
    cases h
    exact .touch (.truncate hphase)
  | truncated =>
    cases h
    exact .touch (.release hphase)
  | freed =>
    cases h
    exact .touch (.invalidate hphase)
  | unlocking =>
    cases h
    exact .touch (.unlock hphase)
  | dropping =>
    cases h
    exact .drop hphase

theorem step_cases {label : IcacheLabel Pid}
    (h : state.step label = .ok (next, result)) : state.Steps label.proc label.call next := by
  obtain ⟨p, call⟩ := label
  rw [step] at h
  dsimp only at h ⊢
  split at h
  · rename_i hphase
    obtain ⟨inode, e, hgot, rfl⟩ := get_eq_ok h
    exact .get (Or.inl ⟨hphase, rfl⟩) hgot
  · rename_i hphase
    split at h
    · rename_i href
      cases h
      exact .idup hphase href
    · cases h
  · rename_i hphase
    split at h
    · rename_i htype
      cases h
      exact .ialloc hphase htype
    · cases h
  · rename_i hphase
    split_ifs at h with href hcount hholder
    cases h
    exact .touch (.ilock hphase href (by simpa using hholder))
  · rename_i hphase
    split_ifs at h with hguard
    cases h
    exact .touch (.iunlock hphase (not_not.mp (not_or.mp hguard).1))
  · rename_i hphase
    split_ifs at h with hguard
    cases h
    exact .touch (.write hphase hguard.1 hguard.2.1 hguard.2.2)
  · rename_i hphase
    split_ifs at h with href
    cases h
    exact .touch (.iput hphase href)
  · rename_i hphase
    rw [load] at h
    split_ifs at h with hvalid htype
    · cases h
      exact .touch (.loaded hphase)
    · cases h
      exact .touch (.load hphase htype)
  · rename_i hphase
    obtain ⟨inode, e, hgot, rfl⟩ := get_eq_ok h
    exact .get (Or.inr hphase) hgot
  · rename_i hphase
    exact put_eq_ok hphase h
  · cases h

end IcacheState

end Xv6Shm
