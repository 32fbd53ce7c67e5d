import Xv6Shm.Fs.Contents
import Xv6Shm.Lib.Consecutive

/-!
# Writers that share an open file

Processes that share a `struct file` share its offset. `filewrite` writes in chunks, and other
writers may come in between two chunks; within a chunk the lock of the inode is held. So the chunks
that succeed lie one behind the other in the file, in the order in which they are written.
-/

namespace Xv6Shm

open Fallible Function Dinode FileSys

/-- The most bytes that `filewrite` gives to `writei` at once. -/
def maxChunk : ℕ := (maxOpBlocks - 1 - 1 - 2) / 2 * 512

/-- A call of `filewrite`: the bytes at `addr`, their number, and how many of them are written. -/
structure Filewrite where
  addr : ℕ → UInt8
  n : ℤ
  i : ℕ

/-- The number of bytes in the next chunk. -/
def Filewrite.n1 (call : Filewrite) : ℕ := min (call.n - call.i).toNat maxChunk

/-- The result of `writei` as an integer; the driver of the console returns the count that it is
given. -/
def Transfer.result (n : ℕ) : Transfer Unit → ℤ
  | .failed => -1
  | .moved k _ => k
  | .driver _ => n

/-- An open file on an inode: the file system, the offset, and the calls of `filewrite` that the
processes are in. -/
structure SharedFile (Pid : Type) where
  fs : FileSys Pid
  off : ℕ
  call : Pid → Option Filewrite

/-- A process calls `filewrite`, goes through its loop once, or leaves the loop and returns; and
other processes change other parts of the file system. -/
inductive SharedLabel (Pid : Type) where
  | enter (p : Pid) (addr : ℕ → UInt8) (n : ℤ)
  | chunk (p : Pid)
  | leave (p : Pid)
  | outside (fs : FileSys Pid)

namespace SharedFile

variable {Pid : Type} [DecidableEq Pid] (sb : Superblock) (ip : ℕ)

/-- The part of the loop in which the inode is locked. -/
def writeChunk (p : Pid) (call : Filewrite) (off : ℕ) : Action Pid ℤ := do
  ilock sb p ip
  let moved ← writei sb ip (fun t ↦ call.addr (call.i + t)) off call.n1
  iunlock p ip
  return moved.result call.n1

def setCall (file : SharedFile Pid) (p : Pid) (call : Option Filewrite) : SharedFile Pid :=
  { file with call := update file.call p call }

@[simp] theorem setCall_call (file : SharedFile Pid) (p : Pid) (call : Option Filewrite) :
    (file.setCall p call).call = update file.call p call := rfl

/-- The state after a chunk for which `writei` has returned `r`. -/
def advance (file : SharedFile Pid) (p : Pid) (call : Filewrite) (r : ℤ) (fs : FileSys Pid) :
    Except Fault (SharedFile Pid × Option ℤ) :=
  let file := { file with fs := fs, off := if 0 < r then Word.add file.off r.toNat else file.off }
  if r < 0 then .ok (file.setCall p none, some (if call.i = call.n then call.n else -1))
  else if r ≠ call.n1 then .error (.panic "short filewrite")
  else .ok (file.setCall p (some { call with i := call.i + r.toNat }), none)

/-- A step, with what `filewrite` returns if it returns. -/
def step (file : SharedFile Pid) : SharedLabel Pid → Except Fault (SharedFile Pid × Option ℤ)
  | .enter p addr n =>
    match file.call p with
    | none => .ok (file.setCall p (some ⟨addr, n, 0⟩), none)
    | some _ => .error .blocked
  | .chunk p =>
    match file.call p with
    | some call =>
      if call.i < call.n then do
        let (r, fs) ← writeChunk sb ip p call file.off file.fs
        file.advance p call r fs
      else .error .blocked
    | none => .error .blocked
  | .leave p =>
    match file.call p with
    | some call =>
      if call.i < call.n then .error .blocked
      else .ok (file.setCall p none, some (if call.i = call.n then call.n else -1))
    | none => .error .blocked
  | .outside fs => .ok ({ file with fs := fs }, none)

end SharedFile

namespace FileSys

variable {Pid : Type} {sb : Superblock} {ip : ℕ} {fs fs' : FileSys Pid}

/-- A regular file without holes, on a disk whose blocks are sound; if the inode in memory is valid
it is the one on disk. -/
structure Regular (sb : Superblock) (ip : ℕ) (fs : FileSys Pid) : Prop where
  sound : (fs.image sb).Sound sb []
  type : ((fs.image sb).dinode ip).type = FileType.file.code
  mapped : (fs.image sb).Mapped ip ((fs.image sb).dinode ip).size
  cached : (fs.inode ip).valid = true → Synced sb fs ip

/-- The file is still there, with its length and its bytes. -/
structure Undisturbed (sb : Superblock) (ip : ℕ) (fs fs' : FileSys Pid) : Prop where
  regular : fs'.Regular sb ip
  size : ((fs'.image sb).dinode ip).size = ((fs.image sb).dinode ip).size
  byte : ∀ t < ((fs.image sb).dinode ip).size, (fs'.image sb).byte ip t = (fs.image sb).byte ip t

/-- `n` bytes of `src` are in the file from `off` on, and the others are as before. -/
structure Placed (sb : Superblock) (ip : ℕ) (src : ℕ → UInt8) (off n : ℕ) (fs fs' : FileSys Pid) :
    Prop where
  regular : fs'.Regular sb ip
  start : off ≤ ((fs.image sb).dinode ip).size
  limit : off + n ≤ maxFile * bsize
  size : ((fs'.image sb).dinode ip).size = max ((fs.image sb).dinode ip).size (off + n)
  inside : ∀ t < n, (fs'.image sb).byte ip (off + t) = src t
  outside : ∀ t < ((fs.image sb).dinode ip).size, t < off ∨ off + n ≤ t →
    (fs'.image sb).byte ip t = (fs.image sb).byte ip t

theorem Regular.of_image (h : fs.Regular sb ip) (himage : fs'.image sb = fs.image sb)
    (hsynced : Synced sb fs' ip) : fs'.Regular sb ip where
  sound := himage ▸ h.sound
  type := himage ▸ h.type
  mapped := himage ▸ h.mapped
  cached _ := hsynced

theorem Regular.release (h : fs.Regular sb ip) :
    (fs.withInode ip { fs.inode ip with holder := none }).Regular sb ip := by
  refine ⟨h.sound, h.type, h.mapped, fun hvalid ↦ ?_⟩
  rw [inode_withInode, update_self] at hvalid
  rw [Synced, inode_withInode, update_self]
  exact h.cached hvalid

theorem Wrote.placed {src : ℕ → UInt8} {off n : ℕ} (hregular : fs.Regular sb ip)
    (hstart : off ≤ ((fs.image sb).dinode ip).size) (hlimit : off + n ≤ maxFile * bsize)
    (h : Wrote sb ip src off n fs fs') : Placed sb ip src off n fs fs' := by
  obtain ⟨addrs, hfields⟩ := h.fields
  refine ⟨⟨h.sound, ?_, ?_, fun _ ↦ h.synced⟩, hstart, hlimit, ?_, fun t ht ↦ ?_, fun t ht hout ↦ ?_⟩
  · rw [hfields]
    exact hregular.type
  · rw [hfields]
    exact h.mapped
  · rw [hfields]
  · rw [h.bytes ip (off + t) (Or.inr (by omega)), if_pos (by omega), Nat.add_sub_cancel_left]
  · rw [h.bytes ip t (Or.inl (hregular.mapped t ht)), if_neg (by omega)]

end FileSys

namespace SharedFile

variable {Pid : Type} [DecidableEq Pid] {sb : Superblock} {ip : ℕ} {fs : FileSys Pid}

/-- A chunk is written as a whole, or the file is left as it is. -/
theorem writeChunk_ends (hsb : sb.LaidOut) (hip : ip < sb.ninodes) (h : fs.Regular sb ip) (p : Pid)
    (call : Filewrite) (off : ℕ) :
    Ends Fault.Harmless (fun (r : ℤ) fs' ↦
      (r = call.n1 ∧ Placed sb ip (fun t ↦ call.addr (call.i + t)) off call.n1 fs fs') ∨
        (r < 0 ∧ Undisturbed sb ip fs fs')) (writeChunk sb ip p call off fs) := by
  have htype : ((fs.image sb).dinode ip).type ≠ 0 := by
    rw [h.type]
    decide
  have hn : call.n1 < Word.size := lt_of_le_of_lt (min_le_right _ _) (by decide)
  unfold writeChunk
  rw [ends_bind]
  refine ((ilock_ends hip fun hvalid ↦ ⟨h.cached hvalid, htype⟩).allow
    fun fault hfault ↦ hfault.2 htype).mono ?_
  rintro _ locked ⟨-, -, rfl⟩
  generalize hlocked : fs.withInode ip _ = locked
  have himage : locked.image sb = fs.image sb := by
    rw [← hlocked]
    rfl
  have hsynced : Synced sb locked ip := by
    rw [Synced, himage, ← hlocked, inode_withInode, update_self]
  have hregular := h.of_image himage hsynced
  rw [ends_bind]
  refine (writei_ends hsb hip hsynced (himage ▸ htype) hregular.sound hregular.mapped hn
    fun _ _ ↦ .harmless).mono ?_
  rintro moved written hwritten
  rw [ends_bind]
  refine iunlock_ends.mono ?_
  rintro _ unlocked rfl
  rw [ends_pure]
  rcases hwritten with ⟨rfl, hstart, hlimit, hwrote⟩ | ⟨-, rfl, hfailed⟩
  · left
    have hplaced := hwrote.placed hregular hstart hlimit
    refine ⟨rfl, hplaced.regular.release, ?_, hlimit, ?_, hplaced.inside, ?_⟩
    · exact himage ▸ hstart
    · exact himage ▸ hplaced.size
    · exact himage ▸ hplaced.outside
  · right
    have hresult := (hfailed (by rw [hregular.type]; decide)).1
    rw [hresult]
    refine ⟨neg_one_lt_zero, hregular.release, ?_, fun t _ ↦ ?_⟩
    · exact congrArg (fun image ↦ (image.dinode ip).size) himage
    · exact congrArg (fun image ↦ image.byte ip t) himage

end SharedFile

/-- A chunk: the process and the number of its call, the bytes of the call, how many of them were
written before, where the chunk starts in the file, and its length. -/
structure Chunk (Pid : Type) where
  writer : Pid
  serial : ℕ
  addr : ℕ → UInt8
  skip : ℕ
  start : ℕ
  length : ℕ

/-- The part of the file that a chunk takes. -/
def Chunk.range {Pid : Type} (chunk : Chunk Pid) : Set ℕ :=
  Set.Ico chunk.start (chunk.start + chunk.length)

/-- How often each process has called `filewrite`, and the chunks in the order in which they were
written. -/
structure WriteHistory (Pid : Type) where
  calls : Pid → ℕ
  chunks : List (Chunk Pid)

namespace WriteHistory

variable {Pid : Type}

def initial : WriteHistory Pid := ⟨fun _ ↦ 0, []⟩

def push (history : WriteHistory Pid) (chunk : Chunk Pid) : WriteHistory Pid :=
  { history with chunks := history.chunks ++ [chunk] }

@[simp] theorem calls_push (history : WriteHistory Pid) (chunk : Chunk Pid) :
    (history.push chunk).calls = history.calls := rfl

theorem mem_push {history : WriteHistory Pid} {chunk other : Chunk Pid} :
    other ∈ (history.push chunk).chunks ↔ other ∈ history.chunks ∨ other = chunk := by
  simp [push]

variable [DecidableEq Pid]

/-- A process has called `filewrite`. -/
def begun (history : WriteHistory Pid) (p : Pid) : WriteHistory Pid :=
  { history with calls := update history.calls p (history.calls p + 1) }

@[simp] theorem calls_begun (history : WriteHistory Pid) (p : Pid) :
    (history.begun p).calls = update history.calls p (history.calls p + 1) := rfl

/-- The chunks of one call. -/
def ofCall (history : WriteHistory Pid) (p : Pid) (serial : ℕ) : List (Chunk Pid) :=
  history.chunks.filter fun chunk ↦ decide (chunk.writer = p ∧ chunk.serial = serial)

@[simp] theorem ofCall_begun (history : WriteHistory Pid) (p q : Pid) (serial : ℕ) :
    (history.begun p).ofCall q serial = history.ofCall q serial := rfl

theorem ofCall_push (history : WriteHistory Pid) (chunk : Chunk Pid) (p : Pid) (serial : ℕ) :
    (history.push chunk).ofCall p serial = history.ofCall p serial ++
      if chunk.writer = p ∧ chunk.serial = serial then [chunk] else [] := by
  unfold ofCall push
  rw [List.filter_append]
  split
  · rw [List.filter_cons_of_pos (by rwa [decide_eq_true_eq]), List.filter_nil]
  · rw [List.filter_cons_of_neg (by rwa [decide_eq_true_eq]), List.filter_nil]

/-- A round of the loop that has not ended the call has written a chunk. -/
def note (history : WriteHistory Pid) (file : SharedFile Pid) (label : SharedLabel Pid)
    (file' : SharedFile Pid) (_ : Option ℤ) : WriteHistory Pid :=
  match label with
  | .enter p _ _ => history.begun p
  | .chunk p =>
    match file.call p, file'.call p with
    | some call, some call' =>
      history.push ⟨p, history.calls p, call.addr, call.i, file.off, call'.i - call.i⟩
    | _, _ => history
  | .leave _ | .outside _ => history

end WriteHistory

/-- Other processes leave the file as it is. -/
def SharedLabel.Permitted {Pid : Type} (sb : Superblock) (ip : ℕ) (fs : FileSys Pid) :
    SharedLabel Pid → Prop
  | .outside fs' => Undisturbed sb ip fs fs'
  | _ => True

namespace SharedFile

variable {Pid : Type} [DecidableEq Pid] {sb : Superblock} {ip : ℕ}
  {start file file' : SharedFile Pid} {history : WriteHistory Pid}

/-- The chunks lie one behind the other from the first offset to the present one, each with its own
bytes, and the rest of the file is as at the start. -/
structure Tiles (sb : Superblock) (ip : ℕ) (start file : SharedFile Pid)
    (history : WriteHistory Pid) : Prop where
  consecutive : Consecutive Chunk.start Chunk.length start.off history.chunks file.off
  bytes : ∀ chunk ∈ history.chunks, ∀ t < chunk.length,
    (file.fs.image sb).byte ip (chunk.start + t) = chunk.addr (chunk.skip + t)
  others : ∀ t < ((start.fs.image sb).dinode ip).size, t ∉ Set.Ico start.off file.off →
    (file.fs.image sb).byte ip t = (start.fs.image sb).byte ip t
  own : ∀ p call, file.call p = some call →
    Consecutive Chunk.skip Chunk.length 0 (history.ofCall p (history.calls p)) call.i ∧
      ∀ chunk ∈ history.ofCall p (history.calls p), chunk.addr = call.addr

/-- The invariant of a run. -/
structure Steady (sb : Superblock) (ip : ℕ) (start file : SharedFile Pid)
    (history : WriteHistory Pid) : Prop extends Tiles sb ip start file history where
  regular : file.fs.Regular sb ip
  grows : ((start.fs.image sb).dinode ip).size ≤ ((file.fs.image sb).dinode ip).size
  ends : ∀ chunk ∈ history.chunks, chunk.start + chunk.length ≤ ((file.fs.image sb).dinode ip).size
  serial : ∀ chunk ∈ history.chunks, chunk.serial ≤ history.calls chunk.writer

theorem Steady.initial (hregular : start.fs.Regular sb ip) (hidle : ∀ p, start.call p = none) :
    Steady sb ip start start .initial where
  consecutive := rfl
  bytes _ hmem := absurd hmem List.not_mem_nil
  others _ _ _ := rfl
  own p call hcall := by
    rw [hidle p] at hcall
    cases hcall
  regular := hregular
  grows := le_rfl
  ends _ hmem := absurd hmem List.not_mem_nil
  serial _ hmem := absurd hmem List.not_mem_nil

variable {fs : FileSys Pid} {p : Pid} {call : Filewrite}

section

variable (h : Steady sb ip start file history)

include h

theorem Steady.undisturbed (hfs : Undisturbed sb ip file.fs fs) :
    Steady sb ip start { file with fs := fs } history where
  consecutive := h.consecutive
  bytes chunk hmem t ht := by
    have hend := h.ends chunk hmem
    rw [← h.bytes chunk hmem t ht]
    exact hfs.byte _ (by omega)
  others t ht hout := by
    have hgrows := h.grows
    rw [← h.others t ht hout]
    exact hfs.byte t (by omega)
  own := h.own
  regular := hfs.regular
  grows := h.grows.trans_eq hfs.size.symm
  ends chunk hmem := (h.ends chunk hmem).trans_eq hfs.size.symm
  serial := h.serial

theorem Steady.leave (p : Pid) : Steady sb ip start (file.setCall p none) history := by
  refine ⟨⟨h.consecutive, h.bytes, h.others, fun q call hcall ↦ ?_⟩, h.regular, h.grows, h.ends,
    h.serial⟩
  rw [setCall_call] at hcall
  by_cases hq : q = p
  · rw [hq, update_self] at hcall
    cases hcall
  · rw [update_of_ne hq] at hcall
    exact h.own q call hcall

theorem Steady.enter (p : Pid) (addr : ℕ → UInt8) (n : ℤ) :
    Steady sb ip start (file.setCall p (some ⟨addr, n, 0⟩)) (history.begun p) := by
  refine ⟨⟨h.consecutive, h.bytes, h.others, fun q call hcall ↦ ?_⟩, h.regular, h.grows, h.ends,
    fun chunk hmem ↦ ?_⟩
  · rw [setCall_call] at hcall
    rw [WriteHistory.ofCall_begun, WriteHistory.calls_begun]
    by_cases hq : q = p
    · -- no chunk has the number of the new call
      subst hq
      have hnone : history.ofCall q (history.calls q + 1) = [] := by
        refine List.filter_eq_nil_iff.mpr fun chunk hmem ↦ ?_
        have hle := h.serial chunk hmem
        rw [decide_eq_true_eq]
        rintro ⟨rfl, hserial⟩
        omega
      rw [update_self] at hcall ⊢
      cases hcall
      rw [hnone]
      exact ⟨rfl, fun _ hmem ↦ absurd hmem List.not_mem_nil⟩
    · rw [update_of_ne hq] at hcall ⊢
      exact h.own q call hcall
  · have hle := h.serial chunk hmem
    rw [WriteHistory.calls_begun]
    by_cases hwriter : chunk.writer = p
    · rw [hwriter] at hle
      rw [hwriter, update_self]
      omega
    · rwa [update_of_ne hwriter]

theorem Steady.written (hcall : file.call p = some call) {n : ℕ}
    (hplaced : Placed sb ip (fun t ↦ call.addr (call.i + t)) file.off n file.fs fs) :
    Steady sb ip start
      ({ file with fs := fs, off := file.off + n }.setCall p (some { call with i := call.i + n }))
      (history.push ⟨p, history.calls p, call.addr, call.i, file.off, n⟩) := by
  have hsize := hplaced.size ▸ le_max_left _ _
  have hle := h.consecutive.le
  refine ⟨⟨h.consecutive.snoc rfl, fun chunk hmem t ht ↦ ?_, fun t ht hout ↦ ?_,
    fun q other hother ↦ ?_⟩, hplaced.regular, h.grows.trans hsize, fun chunk hmem ↦ ?_,
    fun chunk hmem ↦ ?_⟩
  · rcases WriteHistory.mem_push.mp hmem with hold | rfl
    · -- an earlier chunk ends before the offset
      have hend := h.ends chunk hold
      have hrange := (h.consecutive.mem_iff (chunk.start + t)).mp ⟨chunk, hold, by
        rw [Set.mem_Ico]
        omega⟩
      rw [← h.bytes chunk hold t ht]
      exact hplaced.outside _ (by omega) (Or.inl hrange.2)
    · exact hplaced.inside t ht
  · have hgrows := h.grows
    dsimp only [setCall] at hout
    rw [Set.mem_Ico, not_and_or] at hout
    rw [← h.others t ht (by rw [Set.mem_Ico]; omega)]
    exact hplaced.outside t (by omega) (by omega)
  · rw [setCall_call] at hother
    rw [WriteHistory.ofCall_push, WriteHistory.calls_push]
    by_cases hq : q = p
    · subst hq
      rw [update_self] at hother
      cases hother
      obtain ⟨hown, haddr⟩ := h.own q call hcall
      rw [if_pos ⟨rfl, rfl⟩]
      refine ⟨hown.snoc rfl, fun chunk hmem ↦ ?_⟩
      rcases List.mem_append.mp hmem with hold | hnew
      · exact haddr chunk hold
      · rw [List.mem_singleton.mp hnew]
    · rw [update_of_ne hq] at hother
      rw [if_neg fun hboth ↦ hq hboth.1.symm, List.append_nil]
      exact h.own q other hother
  · rcases WriteHistory.mem_push.mp hmem with hold | rfl
    · exact (h.ends chunk hold).trans hsize
    · exact hplaced.size ▸ le_max_right _ _
  · rcases WriteHistory.mem_push.mp hmem with hold | rfl
    · exact h.serial chunk hold
    · exact le_rfl

end

theorem advance_eq_ok {r : ℤ} {result : Option ℤ}
    (h : file.advance p call r fs = .ok (file', result)) :
    (r < 0 ∧ file' = { file with fs := fs }.setCall p none) ∨ (r = call.n1 ∧ file' = { file with
        fs := fs
        off := if 0 < r then Word.add file.off call.n1 else file.off }.setCall p
          (some { call with i := call.i + call.n1 })) := by
  unfold advance at h
  dsimp only at h
  split at h
  · rename_i hneg
    obtain ⟨rfl, -⟩ := Prod.mk.inj (Except.ok.inj h)
    rw [if_neg (by omega)]
    exact Or.inl ⟨hneg, rfl⟩
  · split at h
    · cases h
    · rename_i hr
      rw [not_not] at hr
      obtain ⟨rfl, -⟩ := Prod.mk.inj (Except.ok.inj h)
      rw [hr, Int.toNat_natCast]
      exact Or.inr ⟨rfl, rfl⟩

theorem Steady.chunk (hsb : sb.LaidOut) (hip : ip < sb.ninodes)
    (h : Steady sb ip start file history) (hcall : file.call p = some call) {r : ℤ}
    {result : Option ℤ} (hwrite : writeChunk sb ip p call file.off file.fs = .ok (r, fs))
    (hadvance : file.advance p call r fs = .ok (file', result)) :
    Steady sb ip start file' (history.note file (.chunk p) file' result) := by
  rcases (writeChunk_ends hsb hip h.regular p call file.off).of_ok hwrite with
    ⟨rfl, hplaced⟩ | ⟨hneg, hfs⟩
  · rcases advance_eq_ok hadvance with ⟨hneg, -⟩ | ⟨-, rfl⟩
    · omega
    have hoff : (if 0 < (call.n1 : ℤ) then Word.add file.off call.n1 else file.off) =
        file.off + call.n1 := by
      split
      · exact Word.add_eq (hplaced.limit.trans_lt (by decide))
      · omega
    rw [hoff, WriteHistory.note]
    simp only [hcall, setCall_call, update_self, Nat.add_sub_cancel_left]
    exact h.written hcall hplaced
  · rcases advance_eq_ok hadvance with ⟨-, rfl⟩ | ⟨hr, -⟩
    · rw [WriteHistory.note]
      simp only [hcall, setCall_call, update_self]
      exact (h.undisturbed hfs).leave p
    · omega

theorem Steady.step (hsb : sb.LaidOut) (hip : ip < sb.ninodes) (h : Steady sb ip start file history)
    {label : SharedLabel Pid} (hpermitted : label.Permitted sb ip file.fs) {result : Option ℤ}
    (hstep : file.step sb ip label = .ok (file', result)) :
    Steady sb ip start file' (history.note file label file' result) := by
  cases label with
  | enter p addr n =>
    cases hcall : file.call p with
    | some call =>
      rw [SharedFile.step, hcall] at hstep
      cases hstep
    | none =>
      rw [SharedFile.step, hcall] at hstep
      cases hstep
      exact h.enter p addr n
  | chunk p =>
    cases hcall : file.call p with
    | none =>
      rw [SharedFile.step, hcall] at hstep
      cases hstep
    | some call =>
      rw [SharedFile.step, hcall] at hstep
      dsimp only at hstep
      split at hstep
      · obtain ⟨⟨r, fs⟩, hwrite, hadvance⟩ := bind_eq_ok.mp hstep
        exact h.chunk hsb hip hcall hwrite hadvance
      · cases hstep
  | leave p =>
    cases hcall : file.call p with
    | none =>
      rw [SharedFile.step, hcall] at hstep
      cases hstep
    | some call =>
      rw [SharedFile.step, hcall] at hstep
      dsimp only at hstep
      split at hstep
      · cases hstep
      · obtain ⟨rfl, -⟩ := Prod.mk.inj (Except.ok.inj hstep)
        exact h.leave p
  | outside fs =>
    cases hstep
    exact h.undisturbed hpermitted

/-- In every run of any writers, the chunks that are written are apart from each other and cover the
range from the first offset to the last, and every chunk is in the file with its own bytes. -/
theorem chunks_tile_of_runs (hsb : sb.LaidOut) (hip : ip < sb.ninodes)
    (hregular : start.fs.Regular sb ip) (hidle : ∀ p, start.call p = none)
    (hrun : Runs (observe (SharedFile.step sb ip) WriteHistory.note)
      (fun observed label ↦ label.Permitted sb ip observed.1.fs) (start, .initial) (file, history)) :
    Tiles sb ip start file history ∧
      history.chunks.Pairwise (fun chunk later ↦ ∀ t ∈ chunk.range, t ∉ later.range) ∧
      (∀ t, (∃ chunk ∈ history.chunks, t ∈ chunk.range) ↔ t ∈ Set.Ico start.off file.off) ∧
      file.off = start.off + (history.chunks.map Chunk.length).sum := by
  have hsteady := hrun.invariant
    (fun observed ↦ Steady sb ip start observed.1 observed.2) (.initial hregular hidle) ?_
  · have htiles := hsteady.toTiles
    refine ⟨htiles, ?_, htiles.consecutive.mem_iff, htiles.consecutive.last_eq⟩
    refine htiles.consecutive.pairwise.imp fun hbefore t hchunk hlater ↦ ?_
    exact absurd hlater.1 (not_le.mpr (hchunk.2.trans_le hbefore))
  · rintro ⟨file, history⟩ label ⟨file', history'⟩ result hsteady hpermitted hobserved
    obtain ⟨hstep, hnote⟩ := observe_eq_ok.mp hobserved
    dsimp only at hstep hnote
    subst hnote
    exact hsteady.step hsb hip hpermitted hstep

/-- A disk of 80 blocks, 30 of them for the log and 46 for data. -/
def tinySuperblock : Superblock where
  size := 80
  nblocks := 46
  ninodes := 3
  nlog := 30
  logstart := 2
  inodestart := 32
  bmapstart := 33

/-- The disk has one file, which is empty, with inode number 2. -/
def tinyDisk : Disk := fun b ↦
  if b = 32 then (fresh FileType.file.code).store Block.zero 2
  else if b = 33 then (List.range 34).foldl Block.setBit Block.zero
  else Block.zero

/-- The file is open, and nobody is writing. -/
def tinyFile : SharedFile Bool where
  fs := ⟨tinyDisk, fun _ ↦ ⟨1, none, false, fresh 0⟩, []⟩
  off := 0
  call := fun _ ↦ none

theorem tinySuperblock_laidOut : tinySuperblock.LaidOut := ⟨by decide, by decide, by decide, by decide⟩

theorem tinyFile_dinode (i : ℕ) : (tinyFile.fs.image tinySuperblock).dinode i =
    fresh (if i = 2 then FileType.file.code else 0) := by
  have hread (slot : ℕ) : read (tinyDisk 32) slot =
      fresh (if slot = 2 then FileType.file.code else 0) := by
    refine (read_store (fresh_inRange (by decide)) _ _ _).trans ?_
    rw [read_zero]
    split <;> rfl
  rw [image_dinode_one (by decide), show tinyFile.fs.disk tinySuperblock.inodestart =
    tinyDisk 32 from rfl, hread]
  split
  · rfl
  · rename_i hi
    have hne : i ≠ 2 := by
      rintro rfl
      exact hi (by decide)
    rw [if_neg hne]

theorem tinyFile_used : ∀ b < 80,
    (tinyFile.fs.image tinySuperblock).used b = decide (b < tinySuperblock.dataStart) := by
  decide +kernel

theorem tinyFile_regular : tinyFile.fs.Regular tinySuperblock 2 := by
  have howner (key : ℕ × ℕ) : (tinyFile.fs.image tinySuperblock).owner key = none := by
    rw [Image.owner, tinyFile_dinode]
    exact held_fresh _
  refine ⟨.of_empty howner tinyFile_used, ?_, ?_, ?_⟩
  · rw [tinyFile_dinode]
    rfl
  · rw [tinyFile_dinode]
    intro t ht
    exact absurd ht (Nat.not_lt_zero t)
  · intro hvalid
    cases hvalid

/-- A step of one of the writers. -/
def ownLabel : SharedLabel Bool → Bool
  | .outside _ => false
  | _ => true

theorem permitted_of_ownLabel {fs : FileSys Bool} {label : SharedLabel Bool}
    (h : ownLabel label = true) : label.Permitted tinySuperblock 2 fs := by
  cases label with
  | enter | chunk | leave => trivial
  | outside => cases h

/-- The call of one process has two chunks, and another process writes a byte between them. -/
theorem chunks_tile_of_runs_between : ∃ (file : SharedFile Bool) (history : WriteHistory Bool),
    Runs (observe (SharedFile.step tinySuperblock 2) WriteHistory.note)
      (fun observed label ↦ label.Permitted tinySuperblock 2 observed.1.fs)
      (tinyFile, .initial) (file, history) ∧
    file.off = 1538 ∧ history.chunks.map Chunk.writer = [true, false, true] ∧
    Tiles tinySuperblock 2 tinyFile file history ∧
      history.chunks.Pairwise (fun chunk later ↦ ∀ t ∈ chunk.range, t ∉ later.range) ∧
      (∀ t, (∃ chunk ∈ history.chunks, t ∈ chunk.range) ↔ t ∈ Set.Ico tinyFile.off file.off) ∧
      file.off = tinyFile.off + (history.chunks.map Chunk.length).sum := by
  have hreplay : (replay (observe (SharedFile.step tinySuperblock 2) WriteHistory.note)
      (fun _ ↦ ownLabel) (tinyFile, .initial)
      [.enter true (fun _ ↦ 7) 1537, .enter false (fun _ ↦ 5) 1, .chunk true, .chunk false,
        .chunk true]).any
      (fun observed ↦ decide (observed.1.off = 1538 ∧
        observed.2.chunks.map Chunk.writer = [true, false, true])) = true := by
    decide +kernel
  obtain ⟨⟨file, history⟩, hrun, hstate⟩ :=
    Runs.of_replay (fun _ _ hown ↦ permitted_of_ownLabel hown) hreplay
  obtain ⟨hoff, hwriters⟩ := of_decide_eq_true hstate
  exact ⟨file, history, hrun, hoff, hwriters, chunks_tile_of_runs tinySuperblock_laidOut (by decide)
    tinyFile_regular (fun _ ↦ rfl) hrun⟩

end SharedFile

end Xv6Shm
