import Xv6Shm.Fs.CacheCoherence

/-!
# Whole calls of the buffer cache

`bread`, `bwrite`, `brelse` and the effect of `log_write` as one process runs them when nobody else
is at work. A cache shows a disk: to a reader, the cache and the real disk behind it look like a
disk with the contents last logged or written.
-/

namespace Xv6Shm

open Fallible Function

namespace Storage

def bread (storage : Storage) (pid dev blockno : ℕ) : Except Fault (Storage × Fin nBuf) := do
  let (storage, b) ← storage.bget dev blockno
  let storage ← storage.breadLocked pid b
  pure (storage, b)

def brelse (storage : Storage) (pid : ℕ) (b : Fin nBuf) : Except Fault Storage := do
  let storage ← storage.releasesleep pid b
  pure (storage.unref b)

/-- Change the data of a buffer in place. -/
def modify (storage : Storage) (b : Fin nBuf) (data : Block) : Storage :=
  storage.set b { storage.buf b with data := data }

/-- What `log_write` does to the buffer. -/
def pin (storage : Storage) (b : Fin nBuf) : Storage :=
  storage.set b { storage.buf b with dirty := true }

/-- With the given sessions under way and all changes logged or written, a reader sees `view`. -/
structure Shows (storage : Storage) (sessions : List Session) (view : Disk) : Prop where
  serves : storage.bcache.Serves sessions
  mirrors : (⟨storage, sessions⟩ : CacheState).Mirrors ⟨view, ∅⟩

namespace Shows

variable {storage storage' : Storage} {sessions : List Session} {view : Disk} {session : Session}

theorem binit (disk : Disk) (disksize : ℕ) : (⟨disk, disksize, .binit⟩ : Storage).Shows [] disk := by
  refine ⟨CacheState.serves_start disk disksize, fun _ hvalid ↦ ?_, fun _ hne ↦ absurd rfl hne,
    fun _ hmem ↦ ?_⟩
  · cases hvalid
  · simp at hmem

section

variable (h : storage.Shows sessions view)

include h

theorem step {label : CacheLabel} {sessions' : List Session} {view' : Disk}
    (hstep : CacheState.Steps ⟨storage, sessions⟩ label ⟨storage', sessions'⟩)
    (hview : CacheState.note ⟨view, ∅⟩ ⟨storage, sessions⟩ label ⟨storage', sessions'⟩ () = ⟨view', ∅⟩) :
    storage'.Shows sessions' view' := by
  refine ⟨hstep.serves h.serves, hview ▸ hstep.mirrors h.serves h.mirrors ?_⟩
  cases label with
  | release session => exact Finset.notMem_empty session.b
  | bget | acquire | modify | logWrite | bwrite | unref => trivial

theorem bread {pid dev blockno : ℕ} {b : Fin nBuf}
    (hread : storage.bread pid dev blockno = .ok (storage', b)) :
    storage'.Shows (⟨pid, dev, blockno, b, .holding⟩ :: sessions) view ∧
      storage'.disk = storage.disk := by
  obtain ⟨⟨found, b'⟩, hget, hrest⟩ := bind_eq_ok.mp hread
  obtain ⟨locked, hlocked, hpure⟩ := bind_eq_ok.mp hrest
  cases hpure
  let waiting : Session := ⟨pid, dev, blockno, b, .waiting⟩
  have hfirst : found.Shows (waiting :: sessions) view := h.step (.bget hget) rfl
  have hsecond : CacheState.Steps ⟨found, waiting :: sessions⟩ (.acquire waiting)
      ⟨storage', CacheState.advance ⟨found, waiting :: sessions⟩ waiting .holding⟩ :=
    .acquire List.mem_cons_self rfl hlocked
  rw [CacheState.advance, List.erase_cons_head] at hsecond
  refine ⟨hfirst.step hsecond rfl, ?_⟩
  rw [← (Storage.bget_eq_ok hget).2.1]
  obtain ⟨-, ⟨-, rfl⟩ | ⟨-, -, -, rfl⟩⟩ :=
    Storage.breadLocked_eq_ok (hfirst.serves.each b).dirty hlocked
  · rfl
  · rfl

section

variable (hsession : session ∈ sessions)

include hsession

theorem blockno : (storage.buf session.b).blockno = session.blockno :=
  (Buf.isFor_iff.mp ((h.serves.own hsession).number session List.mem_cons_self)).2

theorem data (hphase : session.phase = .holding) :
    (storage.buf session.b).data = view session.blockno := by
  rw [← h.blockno hsession]
  exact h.mirrors.data session.b
    ((h.serves.own hsession).loaded session List.mem_cons_self hphase) (Finset.notMem_empty _)

theorem note_modify (data : Block) :
    (⟨update view ((storage.modify session.b data).buf session.b).blockno
        ((storage.modify session.b data).buf session.b).data,
      (insert session.b ∅ : Finset (Fin nBuf)).erase session.b⟩ : CacheHistory) =
      ⟨update view session.blockno data, ∅⟩ := by
  simp [Storage.modify, h.blockno hsession]

section

variable (hphase : session.phase = .holding)

include hphase

theorem change {label : CacheLabel} {data : Block}
    (hstep : CacheState.Steps ⟨storage.modify session.b data, sessions⟩ label ⟨storage', sessions⟩)
    (hlabel : label = .logWrite session ∨ label = .bwrite session) :
    storage'.Shows sessions (update view session.blockno data) := by
  have hmodify : CacheState.Steps ⟨storage, sessions⟩ (.modify session data)
      ⟨storage.modify session.b data, sessions⟩ := .modify hsession hphase
  have hserves := hmodify.serves h.serves
  have hmodified := hmodify.mirrors h.serves h.mirrors trivial
  obtain rfl | rfl := hlabel
  · exact ⟨hstep.serves hserves,
      h.note_modify hsession data ▸ hstep.mirrors hserves hmodified trivial⟩
  · exact ⟨hstep.serves hserves,
      h.note_modify hsession data ▸ hstep.mirrors hserves hmodified trivial⟩

theorem log (data : Block) : ((storage.modify session.b data).pin session.b).Shows sessions
      (update view session.blockno data) :=
  h.change hsession hphase (.logWrite hsession hphase) (Or.inl rfl)

theorem bwrite {data : Block}
    (hwrite : (storage.modify session.b data).bwrite session.pid session.b = .ok storage') :
    storage'.Shows sessions (update view session.blockno data) ∧
      storage'.disk = update storage.disk session.blockno data := by
  refine ⟨h.change hsession hphase (.bwrite hsession hphase hwrite) (Or.inr rfl), ?_⟩
  obtain ⟨-, -, rfl⟩ := Storage.bwrite_eq_ok hwrite
  simp [Storage.modify, h.blockno hsession]

theorem brelse (hrelse : storage.brelse session.pid session.b = .ok storage') :
    storage'.Shows (sessions.erase session) view ∧ storage'.disk = storage.disk := by
  obtain ⟨released, hrelease, hpure⟩ := bind_eq_ok.mp hrelse
  cases hpure
  let releasing : Session := { session with phase := .releasing }
  have hfirst := h.step (.release hsession hphase hrelease) rfl
  have hsecond : CacheState.Steps ⟨released, releasing :: sessions.erase session⟩ (.unref releasing)
      ⟨released.unref session.b, (releasing :: sessions.erase session).erase releasing⟩ :=
    .unref List.mem_cons_self rfl
  rw [List.erase_cons_head] at hsecond
  refine ⟨hfirst.step hsecond rfl, ?_⟩
  obtain ⟨-, rfl⟩ := Storage.releasesleep_eq_ok hrelease
  rfl

end

end

end

end Shows

end Storage

end Xv6Shm
