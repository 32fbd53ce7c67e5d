import Xv6Shm.Fs.Arrangement

/-!
# Users of the buffer cache

A session is one use of a buffer, from the `bread` that asks for a block to the `brelse` that gives
the buffer back; in between the data may be changed in place, logged and written. `bread` finds a
buffer and then waits for its sleep-lock, and `brelse` gives the sleep-lock back before it drops the
reference. `log_write` pins the buffer by `B_DIRTY`.
-/

namespace Xv6Shm

open Fallible Storage Function

/-- How far a session has come. -/
inductive SessionPhase where
  | waiting
  | holding
  | releasing
deriving DecidableEq, Repr

/-- One use of a buffer: who asked for which block, and the buffer `bget` found. -/
structure Session where
  pid : ℕ
  dev : ℕ
  blockno : ℕ
  b : Fin nBuf
  phase : SessionPhase
deriving DecidableEq, Repr

/-- The storage and all sessions under way. -/
structure CacheState where
  storage : Storage
  sessions : List Session

/-- The cache at the start: `binit` in front of a disk. -/
def CacheState.start (disk : Disk) (disksize : ℕ) : CacheState :=
  ⟨⟨disk, disksize, Bcache.binit⟩, []⟩

/-- The steps of the users. -/
inductive CacheLabel where
  | bget (pid dev blockno : ℕ)
  | acquire (session : Session)
  | modify (session : Session) (data : Block)
  | logWrite (session : Session)
  | bwrite (session : Session)
  | release (session : Session)
  | unref (session : Session)

namespace CacheState

/-- The session is under way and at the given point. -/
def has (state : CacheState) (session : Session) (phase : SessionPhase) : Bool :=
  decide (session ∈ state.sessions) && decide (session.phase = phase)

/-- The session goes on to its next phase. -/
def advance (state : CacheState) (session : Session) (phase : SessionPhase) : List Session :=
  { session with phase := phase } :: state.sessions.erase session

def buf (state : CacheState) (session : Session) : Buf := state.storage.buf session.b

/-- One step of one session. -/
def step (state : CacheState) : CacheLabel → Except Fault (CacheState × Unit)
  | .bget pid dev blockno => do
    let (storage, b) ← state.storage.bget dev blockno
    pure (⟨storage, ⟨pid, dev, blockno, b, .waiting⟩ :: state.sessions⟩, ())
  | .acquire session =>
    if state.has session .waiting then do
      let storage ← state.storage.breadLocked session.pid session.b
      pure (⟨storage, state.advance session .holding⟩, ())
    else .error .blocked
  | .modify session data =>
    if state.has session .holding then
      .ok (⟨state.storage.set session.b { state.buf session with data := data }, state.sessions⟩, ())
    else .error .blocked
  | .logWrite session =>
    if state.has session .holding then
      .ok (⟨state.storage.set session.b { state.buf session with dirty := true }, state.sessions⟩, ())
    else .error .blocked
  | .bwrite session =>
    if state.has session .holding then do
      let storage ← state.storage.bwrite session.pid session.b
      pure (⟨storage, state.sessions⟩, ())
    else .error .blocked
  | .release session =>
    if state.has session .holding then do
      let storage ← state.storage.releasesleep session.pid session.b
      pure (⟨storage, state.advance session .releasing⟩, ())
    else .error .blocked
  | .unref session =>
    if state.has session .releasing then
      .ok (⟨state.storage.unref session.b, state.sessions.erase session⟩, ())
    else .error .blocked

variable {state : CacheState}

variable {session : Session} {phase : SessionPhase} {next : CacheState} {result : Unit}

theorem has_iff :
    state.has session phase = true ↔ session ∈ state.sessions ∧ session.phase = phase := by
  simp [has]

/-- All that a step can do. -/
inductive Steps (state : CacheState) : CacheLabel → CacheState → Prop
  | bget {pid dev blockno : ℕ} {storage : Storage} {b : Fin nBuf}
      (hget : state.storage.bget dev blockno = .ok (storage, b)) :
      Steps state (.bget pid dev blockno)
        ⟨storage, ⟨pid, dev, blockno, b, .waiting⟩ :: state.sessions⟩
  | acquire {session : Session} {storage : Storage} (hsession : session ∈ state.sessions)
      (hphase : session.phase = .waiting)
      (hread : state.storage.breadLocked session.pid session.b = .ok storage) :
      Steps state (.acquire session) ⟨storage, state.advance session .holding⟩
  | modify {session : Session} {data : Block} (hsession : session ∈ state.sessions)
      (hphase : session.phase = .holding) :
      Steps state (.modify session data)
        ⟨state.storage.set session.b { state.buf session with data := data }, state.sessions⟩
  | logWrite {session : Session} (hsession : session ∈ state.sessions)
      (hphase : session.phase = .holding) :
      Steps state (.logWrite session)
        ⟨state.storage.set session.b { state.buf session with dirty := true }, state.sessions⟩
  | bwrite {session : Session} {storage : Storage} (hsession : session ∈ state.sessions)
      (hphase : session.phase = .holding)
      (hwrite : state.storage.bwrite session.pid session.b = .ok storage) :
      Steps state (.bwrite session) ⟨storage, state.sessions⟩
  | release {session : Session} {storage : Storage} (hsession : session ∈ state.sessions)
      (hphase : session.phase = .holding)
      (hrelease : state.storage.releasesleep session.pid session.b = .ok storage) :
      Steps state (.release session) ⟨storage, state.advance session .releasing⟩
  | unref {session : Session} (hsession : session ∈ state.sessions)
      (hphase : session.phase = .releasing) :
      Steps state (.unref session) ⟨state.storage.unref session.b, state.sessions.erase session⟩

theorem guarded {rest : Except Fault (CacheState × Unit)}
    (h : (if state.has session phase then rest else .error .blocked) = .ok (next, result)) :
    session ∈ state.sessions ∧ session.phase = phase ∧ rest = .ok (next, result) := by
  split at h
  · rename_i hhas
    obtain ⟨hsession, hphase⟩ := has_iff.mp hhas
    exact ⟨hsession, hphase, h⟩
  · cases h

theorem step_cases {label : CacheLabel}
    (h : state.step label = .ok (next, result)) : state.Steps label next := by
  cases label with
  | bget pid dev blockno =>
    obtain ⟨⟨storage, b⟩, hget, hpure⟩ := bind_eq_ok.mp h
    cases hpure
    exact .bget hget
  | acquire session =>
    obtain ⟨hsession, hphase, hrest⟩ := guarded h
    obtain ⟨storage, hread, hpure⟩ := bind_eq_ok.mp hrest
    cases hpure
    exact .acquire hsession hphase hread
  | modify session data =>
    obtain ⟨hsession, hphase, hrest⟩ := guarded h
    cases hrest
    exact .modify hsession hphase
  | logWrite session =>
    obtain ⟨hsession, hphase, hrest⟩ := guarded h
    cases hrest
    exact .logWrite hsession hphase
  | bwrite session =>
    obtain ⟨hsession, hphase, hrest⟩ := guarded h
    obtain ⟨storage, hwrite, hpure⟩ := bind_eq_ok.mp hrest
    cases hpure
    exact .bwrite hsession hphase hwrite
  | release session =>
    obtain ⟨hsession, hphase, hrest⟩ := guarded h
    obtain ⟨storage, hrelease, hpure⟩ := bind_eq_ok.mp hrest
    cases hpure
    exact .release hsession hphase hrelease
  | unref session =>
    obtain ⟨hsession, hphase, hrest⟩ := guarded h
    cases hrest
    exact .unref hsession hphase

end CacheState

variable {storage storage' : Storage} {pid : ℕ} {b : Fin nBuf}

theorem Storage.iderw_eq_ok (h : storage.iderw pid b = .ok storage') :
    (storage.buf b).dev = rootDev ∧
      if (storage.buf b).dirty then
        storage' = { storage.set b { storage.buf b with dirty := false, valid := true } with
          disk := update storage.disk (storage.buf b).blockno (storage.buf b).data }
      else storage' = storage.set b
        { storage.buf b with data := storage.disk (storage.buf b).blockno, valid := true } := by
  unfold iderw at h
  dsimp only at h
  split_ifs at h with hheld hnothing hdev hrange hdirty
  · cases h
    exact ⟨not_not.mp hdev, by rw [if_pos hdirty]⟩
  · cases h
    exact ⟨not_not.mp hdev, by rw [if_neg hdirty]⟩

theorem Buf.acquiresleep_eq_ok {buf buf' : Buf} (h : buf.acquiresleep pid = .ok buf') :
    buf.holder = none ∧ buf' = { buf with holder := some pid } := by
  unfold Buf.acquiresleep at h
  split at h
  · cases h
  · rename_i hfree
    cases h
    exact ⟨by simpa using hfree, rfl⟩

/-- A buffer that is taken by `bread`: the lock was free, and the data is read if it has to be. -/
theorem Storage.breadLocked_eq_ok
    (hdirty : (storage.buf b).dirty = true → (storage.buf b).valid = true)
    (h : storage.breadLocked pid b = .ok storage') :
    (storage.buf b).holder = none ∧
      ((storage.buf b).valid = true ∧
          storage' = storage.set b { storage.buf b with holder := some pid } ∨
        (storage.buf b).valid = false ∧ (storage.buf b).dirty = false ∧
          (storage.buf b).dev = rootDev ∧
          storage' = storage.set b
            { storage.buf b with holder := some pid, valid := true,
                                 data := storage.disk (storage.buf b).blockno }) := by
  obtain ⟨buf, hacquire, hrest⟩ := bind_eq_ok.mp h
  obtain ⟨hfree, rfl⟩ := Buf.acquiresleep_eq_ok hacquire
  refine ⟨hfree, ?_⟩
  split at hrest
  · rename_i hvalid
    cases hrest
    exact Or.inl ⟨hvalid, rfl⟩
  · rename_i hinvalid
    have hvalid : (storage.buf b).valid = false := by simpa using hinvalid
    have hclean : (storage.buf b).dirty = false := by
      by_contra hset
      rw [hdirty (by simpa using hset)] at hvalid
      cases hvalid
    obtain ⟨hdev, heffect⟩ := iderw_eq_ok hrest
    rw [set_buf_self] at hdev heffect
    rw [if_neg (by simp [hclean])] at heffect
    refine Or.inr ⟨hvalid, hclean, hdev, ?_⟩
    rw [heffect, set_set, set_disk]

theorem Storage.bwrite_eq_ok (h : storage.bwrite pid b = .ok storage') :
    (storage.buf b).holder = some pid ∧ (storage.buf b).dev = rootDev ∧
      storage' = { storage.set b { storage.buf b with dirty := false, valid := true } with
        disk := update storage.disk (storage.buf b).blockno (storage.buf b).data } := by
  unfold bwrite at h
  split at h
  · cases h
  · rename_i hheld
    obtain ⟨hdev, heffect⟩ := iderw_eq_ok h
    rw [set_buf_self] at hdev heffect
    rw [if_pos rfl] at heffect
    refine ⟨by simpa [Buf.holdingsleep] using hheld, hdev, ?_⟩
    rw [heffect, set_set, set_disk]

theorem Storage.releasesleep_eq_ok (h : storage.releasesleep pid b = .ok storage') :
    (storage.buf b).holder = some pid ∧
      storage' = storage.set b { storage.buf b with holder := none } := by
  unfold releasesleep at h
  split at h
  · cases h
  · rename_i hheld
    cases h
    exact ⟨by simpa [Buf.holdingsleep] using hheld, rfl⟩

theorem Storage.bget_eq_ok {dev blockno : ℕ} (h : storage.bget dev blockno = .ok (storage', b)) :
    storage.bcache.bget dev blockno = .ok (storage'.bcache, b) ∧
      storage'.disk = storage.disk ∧ storage'.disksize = storage.disksize := by
  obtain ⟨⟨bcache, found⟩, hget, hpure⟩ := bind_eq_ok.mp h
  cases hpure
  exact ⟨hget, rfl, rfl⟩

end Xv6Shm
