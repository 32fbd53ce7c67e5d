import Xv6Shm.Fs.Sessions

/-!
# Coherence of the buffer cache

In every reachable state the ring links all buffers and no two buffers in use hold the same block.
The reference count of a buffer is the number of its sessions.

As long as nobody gives back a buffer that was changed in place and neither logged nor written
since, `bread` returns what was last logged or written for the block: a block for which this is not
on disk has a dirty buffer, and a dirty buffer is not recycled.
-/

namespace Xv6Shm

open Fallible Function CacheState Storage

variable {sessions' : List Session} {buf' : Buf} {pid dev blockno : ℕ} {cache' : Bcache}
  {c : Fin nBuf} {next : CacheState} {label : CacheLabel} {storage : Storage}
  {order : List (Fin nBuf)}

def Session.isHolding (session : Session) : Bool := decide (session.phase = .holding)

/-- The count and the lock of a buffer are those of its sessions. -/
structure Buf.Serves (buf : Buf) (sessions : List Session) : Prop where
  refcnt : buf.refcnt = sessions.length
  holder : sessions.countP Session.isHolding = if buf.holder.isSome then 1 else 0
  number : ∀ session ∈ sessions, buf.isFor session.dev session.blockno = true
  loaded : ∀ session ∈ sessions, session.phase = .holding → buf.valid = true
  dirty : buf.dirty = true → buf.valid = true
  dev : buf.valid = true → buf.dev = rootDev

namespace Buf.Serves

variable {buf : Buf} {session : Session} {rest : List Session}

theorem perm {sessions : List Session} (h : buf.Serves sessions)
    (hperm : sessions.Perm sessions') : buf.Serves sessions' where
  refcnt := by rw [h.refcnt, hperm.length_eq]
  holder := by rw [← hperm.countP_eq, h.holder]
  number other hother := h.number other (hperm.mem_iff.mpr hother)
  loaded other hother := h.loaded other (hperm.mem_iff.mpr hother)
  dirty := h.dirty
  dev := h.dev

section

variable (h : buf.Serves (session :: rest))

include h

theorem used : buf.isIdle = false := by
  have hrefcnt : buf.refcnt ≠ 0 := by
    rw [h.refcnt]
    exact Nat.succ_ne_zero rest.length
  simp [Buf.isIdle, hrefcnt]

theorem locked (hphase : session.phase = .holding) :
    buf.holder.isSome = true ∧ rest.countP Session.isHolding = 0 := by
  have hcount := h.holder
  rw [List.countP_cons_of_pos (by simp [Session.isHolding, hphase])] at hcount
  split at hcount
  · rename_i hsome
    exact ⟨hsome, by omega⟩
  · omega

theorem change (hphase : session.phase = .holding)
    (hnumber : buf'.isFor buf.dev buf.blockno = true) (hrefcnt : buf'.refcnt = buf.refcnt)
    (hholder : buf'.holder = buf.holder) (hvalid : buf'.valid = true) :
    buf'.Serves (session :: rest) := by
  obtain ⟨hdev, hblockno⟩ := Buf.isFor_iff.mp hnumber
  refine ⟨hrefcnt.trans h.refcnt, by rw [h.holder, hholder], fun other hother ↦ ?_,
    fun _ _ _ ↦ hvalid, fun _ ↦ hvalid, fun _ ↦ ?_⟩
  · rw [Buf.isFor_iff, hdev, hblockno, ← Buf.isFor_iff]
    exact h.number other hother
  · rw [hdev]
    exact h.dev (h.loaded session List.mem_cons_self hphase)

theorem acquire (hphase : session.phase = .waiting)
    (hfree : buf.holder = none) (hnumber : buf'.isFor buf.dev buf.blockno = true)
    (hrefcnt : buf'.refcnt = buf.refcnt) (hholder : buf'.holder = some pid)
    (hvalid : buf'.valid = true) (hdev : buf.dev = rootDev) :
    buf'.Serves ({ session with phase := .holding } :: rest) := by
  obtain ⟨hsame, hblockno⟩ := Buf.isFor_iff.mp hnumber
  have hcount := h.holder
  rw [List.countP_cons_of_neg (by simp [Session.isHolding, hphase]), hfree] at hcount
  refine ⟨hrefcnt.trans h.refcnt, ?_, fun other hother ↦ ?_, fun _ _ _ ↦ hvalid, fun _ ↦ hvalid,
    fun _ ↦ hsame.trans hdev⟩
  · rw [List.countP_cons_of_pos (by simp [Session.isHolding]), hcount, hholder]
    rfl
  · rw [Buf.isFor_iff, hsame, hblockno, ← Buf.isFor_iff]
    rcases List.mem_cons.mp hother with rfl | hmem
    · exact h.number session List.mem_cons_self
    · exact h.number other (List.mem_cons_of_mem session hmem)

theorem release (hphase : session.phase = .holding) :
    ({ buf with holder := none } : Buf).Serves ({ session with phase := .releasing } :: rest) := by
  refine ⟨h.refcnt, ?_, fun other hother ↦ ?_, fun other hother hholding ↦ ?_, h.dirty, h.dev⟩
  · rw [List.countP_cons_of_neg (by simp [Session.isHolding]), (h.locked hphase).2]
    rfl
  · rcases List.mem_cons.mp hother with rfl | hmem
    · exact h.number session List.mem_cons_self
    · exact h.number other (List.mem_cons_of_mem session hmem)
  · exact h.loaded session List.mem_cons_self hphase

theorem unref (hphase : session.phase = .releasing) :
    ({ buf with refcnt := buf.refcnt - 1 } : Buf).Serves rest := by
  refine ⟨?_, ?_, fun other hother ↦ h.number other (List.mem_cons_of_mem session hother),
    fun other hother ↦ h.loaded other (List.mem_cons_of_mem session hother), h.dirty, h.dev⟩
  · simp only [h.refcnt, List.length_cons, Nat.add_sub_cancel]
  · rw [← h.holder, List.countP_cons_of_neg (by simp [Session.isHolding, hphase])]

end

theorem hit (h : buf.Serves rest) (hphase : session.phase = .waiting)
    (hnumber : buf.isFor session.dev session.blockno = true) :
    ({ buf with refcnt := buf.refcnt + 1 } : Buf).Serves (session :: rest) := by
  refine ⟨?_, ?_, fun other hother ↦ ?_, fun other hother hholding ↦ ?_, h.dirty, h.dev⟩
  · simp only [h.refcnt, List.length_cons]
  · rw [← h.holder, List.countP_cons_of_neg (by simp [Session.isHolding, hphase])]
  · rcases List.mem_cons.mp hother with rfl | hmem
    · exact hnumber
    · exact h.number other hmem
  · rcases List.mem_cons.mp hother with rfl | hmem
    · rw [hphase] at hholding
      cases hholding
    · exact h.loaded other hmem hholding

theorem miss (h : buf.Serves rest) (hunused : buf.isUnused = true)
    (hphase : session.phase = .waiting) :
    (buf.recycled session.dev session.blockno).Serves [session] ∧ rest = [] := by
  have hempty : rest = [] := by
    rw [← List.length_eq_zero_iff, ← h.refcnt]
    exact (Buf.isUnused_iff.mp hunused).1
  subst hempty
  refine ⟨⟨rfl, ?_, fun other hother ↦ ?_, fun other hother hholding ↦ ?_, fun hdirty ↦ ?_,
    fun hvalid ↦ ?_⟩, rfl⟩
  · rw [List.countP_cons_of_neg (by simp [Session.isHolding, hphase])]
    exact h.holder
  · rw [List.mem_singleton.mp hother, Buf.isFor_iff]
    exact ⟨rfl, rfl⟩
  · rw [List.mem_singleton.mp hother, hphase] at hholding
    cases hholding
  · cases hdirty
  · cases hvalid

end Buf.Serves

/-- The sessions that use the buffer `b`. -/
def onBuf (b : Fin nBuf) (session : Session) : Bool := decide (session.b = b)

structure Bcache.Serves (cache : Bcache) (sessions : List Session) : Prop where
  arranged : ∃ order, cache.Arranged order
  each : ∀ b, (cache.buf b).Serves (sessions.filter (onBuf b))

namespace Bcache.Serves

variable {cache : Bcache} {sessions : List Session} {session : Session}

theorem filter_cons_self (session : Session) (rest : List Session) :
    (session :: rest).filter (onBuf session.b) = session :: rest.filter (onBuf session.b) :=
  List.filter_cons_of_pos (decide_eq_true rfl)

variable {b : Fin nBuf}

theorem filter_cons_of_ne (session : Session) (h : b ≠ session.b) (rest : List Session) :
    (session :: rest).filter (onBuf b) = rest.filter (onBuf b) :=
  List.filter_cons_of_neg (by simpa [onBuf] using h.symm)

section

variable (h : cache.Serves sessions) (hsession : session ∈ sessions)

include h hsession

theorem split (b : Fin nBuf) :
    (cache.buf b).Serves ((session :: sessions.erase session).filter (onBuf b)) :=
  (h.each b).perm ((List.perm_cons_erase hsession).filter _)

theorem own :
    (cache.buf session.b).Serves (session :: (sessions.erase session).filter (onBuf session.b)) := by
  rw [← filter_cons_self]
  exact h.split hsession session.b

theorem update (harranged : ∃ order, cache'.Arranged order)
    (hothers : ∀ c, c ≠ session.b → cache'.buf c = cache.buf c)
    (hsessions : ∀ c, c ≠ session.b → sessions'.filter (onBuf c) =
      (sessions.erase session).filter (onBuf c))
    (hown : (cache'.buf session.b).Serves (sessions'.filter (onBuf session.b))) :
    cache'.Serves sessions' := by
  refine ⟨harranged, fun c ↦ ?_⟩
  by_cases hc : c = session.b
  · rw [hc]
    exact hown
  · rw [hothers c hc, hsessions c hc, ← filter_cons_of_ne session hc]
    exact h.split hsession c

theorem set (hphase : session.phase = .holding) {buf : Buf}
    (hnumber : buf.isFor (cache.buf session.b).dev (cache.buf session.b).blockno = true)
    (hrefcnt : buf.refcnt = (cache.buf session.b).refcnt)
    (hholder : buf.holder = (cache.buf session.b).holder) (hvalid : buf.valid = true) :
    (cache.set session.b buf).Serves sessions := by
  obtain ⟨order, horder⟩ := h.arranged
  have hown := h.own hsession
  refine ⟨⟨order, horder.set hown.used hnumber⟩, fun c ↦ ?_⟩
  by_cases hc : c = session.b
  · rw [hc, set_buf_self]
    refine Buf.Serves.perm ?_ ((List.perm_cons_erase hsession).symm.filter _)
    rw [filter_cons_self]
    exact hown.change hphase hnumber hrefcnt hholder hvalid
  · rw [set_buf_of_ne cache hc]
    exact h.each c

theorem advance {buf : Buf} {phase : SessionPhase}
    (hnumber : buf.isFor (cache.buf session.b).dev (cache.buf session.b).blockno = true)
    (hown : buf.Serves ({ session with phase := phase } ::
      (sessions.erase session).filter (onBuf session.b))) :
    (cache.set session.b buf).Serves ({ session with phase := phase } :: sessions.erase session) := by
  obtain ⟨order, horder⟩ := h.arranged
  refine h.update hsession ⟨order, horder.set (h.own hsession).used hnumber⟩
    (fun c hc ↦ set_buf_of_ne cache hc buf)
    (fun c hc ↦ filter_cons_of_ne { session with phase := phase } hc _) ?_
  rw [set_buf_self]
  exact (filter_cons_self { session with phase := phase } _).symm ▸ hown

end

theorem bget (h : cache.Serves sessions) {b : Fin nBuf}
    (hget : cache.bget dev blockno = .ok (cache', b)) :
    cache'.Serves (⟨pid, dev, blockno, b, .waiting⟩ :: sessions) := by
  obtain ⟨order, horder⟩ := h.arranged
  obtain ⟨horder', hgot⟩ := horder.bget hget
  refine ⟨⟨order, horder'⟩, fun c ↦ ?_⟩
  cases hgot with
  | hit hfor _ =>
    by_cases hc : c = b
    · rw [hc, set_buf_self, filter_cons_self ⟨pid, dev, blockno, b, .waiting⟩]
      exact (h.each b).hit rfl hfor
    · rw [set_buf_of_ne cache hc, filter_cons_of_ne _ hc]
      exact h.each c
  | miss _ hunused =>
    by_cases hc : c = b
    · obtain ⟨hserves, hempty⟩ :=
        (h.each b).miss hunused (show (⟨pid, dev, blockno, b, .waiting⟩ : Session).phase = _ from rfl)
      rw [hc, set_buf_self, filter_cons_self ⟨pid, dev, blockno, b, .waiting⟩]
      rw [hempty]
      exact hserves
    · rw [set_buf_of_ne cache hc, filter_cons_of_ne _ hc]
      exact h.each c

theorem unref_buf_of_ne (cache : Bcache) (h : c ≠ b) : (cache.unref b).buf c = cache.buf c := by
  rw [Bcache.unref]
  split
  · exact set_buf_of_ne cache h _
  · exact set_buf_of_ne cache h _

theorem unref_buf_self (cache : Bcache) (b : Fin nBuf) :
    (cache.unref b).buf b = { cache.buf b with refcnt := (cache.buf b).refcnt - 1 } := by
  rw [Bcache.unref]
  split
  · exact set_buf_self cache b _
  · exact set_buf_self cache b _

theorem unref (h : cache.Serves sessions) (hsession : session ∈ sessions)
    (hphase : session.phase = .releasing) :
    (cache.unref session.b).Serves (sessions.erase session) := by
  obtain ⟨order, horder⟩ := h.arranged
  have hown := h.own hsession
  refine h.update hsession (horder.unref hown.used) (fun c hc ↦ unref_buf_of_ne cache hc)
    (fun _ _ ↦ rfl) ?_
  rw [unref_buf_self]
  exact hown.unref hphase

theorem valid_unique (h : cache.Serves sessions) (hb : (cache.buf b).valid = true)
    (hc : (cache.buf c).valid = true) (hsame : (cache.buf c).blockno = (cache.buf b).blockno) :
    c = b := by
  by_contra hne
  obtain ⟨order, horder⟩ := h.arranged
  have hdev := ((h.each c).dev hc).trans ((h.each b).dev hb).symm
  rcases horder.idle_of_same (Ne.symm hne) ⟨hdev, hsame⟩ with hidle | hidle
  · rw [Buf.isIdle_iff, hb] at hidle
    cases hidle.2.1
  · rw [Buf.isIdle_iff, hc] at hidle
    cases hidle.2.1

end Bcache.Serves

theorem CacheState.serves_start (disk : Disk) (disksize : ℕ) :
    (start disk disksize).storage.bcache.Serves (start disk disksize).sessions where
  arranged := ⟨_, Bcache.binit_arranged⟩
  each b := by
    refine ⟨rfl, rfl, fun session hsession ↦ ?_, fun session hsession ↦ ?_, fun hdirty ↦ ?_,
      fun hvalid ↦ ?_⟩
    · exact absurd hsession List.not_mem_nil
    · exact absurd hsession List.not_mem_nil
    · cases hdirty
    · cases hvalid

theorem CacheState.Steps.serves {state : CacheState}
    (hstep : state.Steps label next) (h : state.storage.bcache.Serves state.sessions) :
    next.storage.bcache.Serves next.sessions := by
  cases hstep with
  | bget hget => exact h.bget (bget_eq_ok hget).1
  | acquire hsession hphase hread =>
    have hown := h.own hsession
    obtain ⟨hfree, ⟨hvalid, rfl⟩ | ⟨-, -, hdev, rfl⟩⟩ := breadLocked_eq_ok hown.dirty hread
    · exact h.advance hsession (Buf.isFor_iff.mpr ⟨rfl, rfl⟩) (hown.acquire hphase hfree
        (Buf.isFor_iff.mpr ⟨rfl, rfl⟩) rfl rfl hvalid (hown.dev hvalid))
    · exact h.advance hsession (Buf.isFor_iff.mpr ⟨rfl, rfl⟩) (hown.acquire hphase hfree
        (Buf.isFor_iff.mpr ⟨rfl, rfl⟩) rfl rfl rfl hdev)
  | modify hsession hphase =>
    exact h.set hsession hphase (Buf.isFor_iff.mpr ⟨rfl, rfl⟩) rfl rfl
      ((h.own hsession).loaded _ List.mem_cons_self hphase)
  | logWrite hsession hphase =>
    exact h.set hsession hphase (Buf.isFor_iff.mpr ⟨rfl, rfl⟩) rfl rfl
      ((h.own hsession).loaded _ List.mem_cons_self hphase)
  | bwrite hsession hphase hwrite =>
    obtain ⟨-, -, rfl⟩ := bwrite_eq_ok hwrite
    exact h.set hsession hphase (Buf.isFor_iff.mpr ⟨rfl, rfl⟩) rfl rfl rfl
  | release hsession hphase hrelease =>
    obtain ⟨-, rfl⟩ := releasesleep_eq_ok hrelease
    exact h.advance hsession (Buf.isFor_iff.mpr ⟨rfl, rfl⟩) ((h.own hsession).release hphase)
  | unref hsession hphase => exact h.unref hsession hphase

/-- The data last logged or written for each block, and the buffers changed in place since. -/
structure CacheHistory where
  latest : ℕ → Block
  changed : Finset (Fin nBuf)

/-- The history after a step. -/
def CacheState.note (history : CacheHistory) (state : CacheState) (label : CacheLabel)
    (_ : CacheState) (_ : Unit) : CacheHistory :=
  match label with
  | .modify session _ => { history with changed := insert session.b history.changed }
  | .logWrite session | .bwrite session =>
    { latest := update history.latest (state.buf session).blockno (state.buf session).data
      changed := history.changed.erase session.b }
  | _ => history

/-- A buffer that was changed is given back only after it was logged or written. -/
def Settled (observed : CacheState × CacheHistory) (label : CacheLabel) : Prop :=
  match label with
  | .release session => session.b ∉ observed.2.changed
  | _ => True

instance (observed : CacheState × CacheHistory) (label : CacheLabel) :
    Decidable (Settled observed label) :=
  match label with
  | .release session => inferInstanceAs (Decidable (session.b ∉ observed.2.changed))
  | .bget _ _ _ | .acquire _ | .modify _ _ | .logWrite _ | .bwrite _ | .unref _ =>
    inferInstanceAs (Decidable True)

/-- The cache and the disk hold what was last written. -/
structure CacheState.Mirrors (state : CacheState) (history : CacheHistory) : Prop where
  data : ∀ b, (state.storage.buf b).valid = true → b ∉ history.changed →
    (state.storage.buf b).data = history.latest (state.storage.buf b).blockno
  pinned : ∀ k, history.latest k ≠ state.storage.disk k →
    ∃ b, (state.storage.buf b).blockno = k ∧ (state.storage.buf b).dirty = true
  changed : ∀ b ∈ history.changed, (state.storage.buf b).holder.isSome = true

namespace CacheState.Mirrors

variable {state : CacheState} {history : CacheHistory}

theorem congr (h : state.Mirrors history) (hdisk : next.storage.disk = state.storage.disk)
    (hbuf : ∀ b, ∃ refcnt holder, next.storage.buf b =
      { state.storage.buf b with refcnt := refcnt, holder := holder } ∧
      (b ∈ history.changed → holder = (state.storage.buf b).holder)) : next.Mirrors history := by
  refine ⟨fun b ↦ ?_, fun k hne ↦ ?_, fun b hb ↦ ?_⟩
  · obtain ⟨refcnt, holder, heq, -⟩ := hbuf b
    rw [heq]
    exact h.data b
  · rw [hdisk] at hne
    obtain ⟨b, hk, hdirty⟩ := h.pinned k hne
    obtain ⟨refcnt, holder, heq, -⟩ := hbuf b
    exact ⟨b, by rw [heq, ← hk], by rw [heq, ← hdirty]⟩
  · obtain ⟨refcnt, holder, heq, hholder⟩ := hbuf b
    rw [heq, hholder hb]
    exact h.changed b hb

section

variable (h : state.Mirrors history) (hserves : state.storage.bcache.Serves state.sessions)

include h hserves

/-- A block that is not on disk as it was last written is that of the valid buffer `b`, which is
dirty then, or of another. -/
theorem pinned_cases {b : Fin nBuf} (hvalid : (state.storage.buf b).valid = true) (k : ℕ)
    (hne : history.latest k ≠ state.storage.disk k) :
    k = (state.storage.buf b).blockno ∧ (state.storage.buf b).dirty = true ∨
      k ≠ (state.storage.buf b).blockno ∧ history.latest k ≠ state.storage.disk k := by
  by_cases hk : k = (state.storage.buf b).blockno
  · obtain ⟨c, hblockno, hdirty⟩ := h.pinned k hne
    rw [hserves.valid_unique hvalid ((hserves.each c).dirty hdirty) (hblockno.trans hk)] at hdirty
    exact Or.inl ⟨hk, hdirty⟩
  · exact Or.inr ⟨hk, hne⟩

/-- The block of a buffer in use that is not valid is on disk as it was last written. -/
theorem latest_eq_disk {b : Fin nBuf} (hused : (state.storage.buf b).isIdle = false)
    (hclean : (state.storage.buf b).dirty = false) (hdev : (state.storage.buf b).dev = rootDev) :
    history.latest (state.storage.buf b).blockno =
      state.storage.disk (state.storage.buf b).blockno := by
  by_contra hne
  obtain ⟨c, hblockno, hdirty⟩ := h.pinned _ hne
  have hvalid := (hserves.each c).dirty hdirty
  have hcb : b ≠ c := by
    rintro rfl
    rw [hclean] at hdirty
    cases hdirty
  obtain ⟨order, horder⟩ := hserves.arranged
  rcases horder.idle_of_same hcb ⟨((hserves.each c).dev hvalid).trans hdev.symm, hblockno⟩ with
    hidle | hidle
  · exact absurd (hused.symm.trans hidle) Bool.false_ne_true
  · rw [Buf.isIdle_iff] at hidle
    exact absurd (hidle.2.2.symm.trans hdirty) Bool.false_ne_true

theorem bget {b : Fin nBuf} {sessions : List Session}
    (hget : state.storage.bget dev blockno = .ok (storage, b)) :
    (⟨storage, sessions⟩ : CacheState).Mirrors history := by
  obtain ⟨hcache, hdisk, -⟩ := bget_eq_ok hget
  obtain ⟨order, horder⟩ := hserves.arranged
  have hgot := (horder.bget hcache).2
  generalize hnew : storage.bcache = cache at hgot
  have hbuf (c : Fin nBuf) : storage.buf c = cache.buf c := by rw [← hnew, Storage.buf]
  cases hgot with
  | hit _ _ =>
    refine h.congr hdisk fun c ↦ ?_
    by_cases hc : c = b
    · subst hc
      exact ⟨_, _, (hbuf c).trans (Bcache.set_buf_self ..), fun _ ↦ rfl⟩
    · exact ⟨_, _, (hbuf c).trans (Bcache.set_buf_of_ne _ hc _), fun _ ↦ rfl⟩
  | miss _ hunused =>
    have hclean := (Buf.isUnused_iff.mp hunused).2
    have hself := (hbuf b).trans (Bcache.set_buf_self ..)
    have hother {c : Fin nBuf} (hc : c ≠ b) : storage.buf c = state.storage.buf c :=
      (hbuf c).trans (Bcache.set_buf_of_ne _ hc _)
    refine ⟨fun c hvalid ↦ ?_, fun k hne ↦ ?_, fun c hc ↦ ?_⟩
    · have hc : c ≠ b := by
        rintro rfl
        rw [hself] at hvalid
        cases hvalid
      rw [hother hc] at hvalid ⊢
      exact h.data c hvalid
    · rw [hdisk] at hne
      obtain ⟨c, hk, hdirty⟩ := h.pinned k hne
      have hc : c ≠ b := by
        rintro rfl
        exact absurd (hclean.symm.trans hdirty) Bool.false_ne_true
      exact ⟨c, by rw [hother hc, hk], by rw [hother hc, hdirty]⟩
    · by_cases hcb : c = b
      · rw [hcb, hself]
        exact hcb ▸ h.changed c hc
      · rw [hother hcb]
        exact h.changed c hc

end

theorem set {b : Fin nBuf} {buf : Buf} {disk : Disk} {sessions : List Session}
    {history' : CacheHistory} (h : state.Mirrors history)
    (hdata : buf.valid = true → b ∉ history'.changed → buf.data = history'.latest buf.blockno)
    (hothers : ∀ c, c ≠ b → (state.storage.buf c).valid = true →
      history'.latest (state.storage.buf c).blockno = history.latest (state.storage.buf c).blockno)
    (hpinned : ∀ k, history'.latest k ≠ disk k → k = buf.blockno ∧ buf.dirty = true ∨
      k ≠ (state.storage.buf b).blockno ∧ history.latest k ≠ state.storage.disk k)
    (hholder : b ∈ history'.changed → buf.holder.isSome = true)
    (hchanged : ∀ c, c ≠ b → (c ∈ history'.changed ↔ c ∈ history.changed)) :
    (⟨{ state.storage.set b buf with disk := disk }, sessions⟩ : CacheState).Mirrors history' := by
  have hbuf := state.storage.buf_set_cases b buf
  refine ⟨fun c ↦ ?_, fun k hne ↦ ?_, fun c ↦ ?_⟩
  · change ((state.storage.set b buf).buf c).valid = true → _ →
      ((state.storage.set b buf).buf c).data = history'.latest ((state.storage.set b buf).buf c).blockno
    rcases hbuf c with ⟨rfl, hc⟩ | ⟨hcb, hc⟩
    · rw [hc]
      exact hdata
    · rw [hc]
      intro hvalid hsettled
      rw [hothers c hcb hvalid]
      exact h.data c hvalid fun hmem ↦ hsettled ((hchanged c hcb).mpr hmem)
  · rcases hpinned k hne with ⟨hk, hdirty⟩ | ⟨hk, hold⟩
    · exact ⟨b, (congrArg Buf.blockno (state.storage.set_buf_self b buf)).trans hk.symm,
        (congrArg Buf.dirty (state.storage.set_buf_self b buf)).trans hdirty⟩
    · obtain ⟨c, hblockno, hdirty⟩ := h.pinned k hold
      have hcb : c ≠ b := by
        rintro rfl
        exact hk hblockno.symm
      have hc := state.storage.set_buf_of_ne hcb buf
      exact ⟨c, (congrArg Buf.blockno hc).trans hblockno, (congrArg Buf.dirty hc).trans hdirty⟩
  · change c ∈ history'.changed → ((state.storage.set b buf).buf c).holder.isSome = true
    rcases hbuf c with ⟨rfl, hc⟩ | ⟨hcb, hc⟩
    · rw [hc]
      exact hholder
    · rw [hc, hchanged c hcb]
      exact h.changed c

variable {session : Session}

section

variable (h : state.Mirrors history) (hserves : state.storage.bcache.Serves state.sessions)
  (hsession : session ∈ state.sessions)

include h hserves hsession

theorem acquire {sessions : List Session}
    (hread : state.storage.breadLocked session.pid session.b = .ok storage) :
    (⟨storage, sessions⟩ : CacheState).Mirrors history := by
  have hown := hserves.own hsession
  obtain ⟨hfree, ⟨hvalid, rfl⟩ | ⟨hinvalid, hclean, hdev, rfl⟩⟩ :=
    breadLocked_eq_ok hown.dirty hread
  · exact h.set (h.data session.b) (fun _ _ _ ↦ rfl) (h.pinned_cases hserves hvalid) (fun _ ↦ rfl)
      fun _ _ ↦ Iff.rfl
  · have hlatest := h.latest_eq_disk hserves hown.used hclean hdev
    refine h.set (fun _ _ ↦ hlatest.symm) (fun _ _ _ ↦ rfl) (fun k hne ↦ Or.inr ⟨?_, hne⟩)
      (fun _ ↦ rfl) fun _ _ ↦ Iff.rfl
    rintro rfl
    exact hne hlatest

theorem modify {data : Block} (hphase : session.phase = .holding) :
    (⟨state.storage.set session.b { state.buf session with data := data }, state.sessions⟩ :
      CacheState).Mirrors { history with changed := insert session.b history.changed } := by
  have hown := hserves.own hsession
  exact h.set (fun _ hself ↦ absurd (Finset.mem_insert_self _ _) hself) (fun _ _ _ ↦ rfl)
    (h.pinned_cases hserves (hown.loaded session List.mem_cons_self hphase))
    (fun _ ↦ (hown.locked hphase).1) fun c hc ↦ Finset.mem_insert.trans (or_iff_right hc)

end

theorem latest_of_ne (hserves : state.storage.bcache.Serves state.sessions)
    (hvalid : (state.buf session).valid = true) (hc : c ≠ session.b)
    (hother : (state.storage.buf c).valid = true) :
    update history.latest (state.buf session).blockno (state.buf session).data
        (state.storage.buf c).blockno = history.latest (state.storage.buf c).blockno :=
  update_of_ne (fun hsame ↦ hc (hserves.valid_unique hvalid hother hsame)) ..

theorem logWrite {session : Session} (h : state.Mirrors history)
    (hserves : state.storage.bcache.Serves state.sessions) (hsession : session ∈ state.sessions)
    (hphase : session.phase = .holding) :
    (⟨state.storage.set session.b { state.buf session with dirty := true }, state.sessions⟩ :
      CacheState).Mirrors
        ⟨update history.latest (state.buf session).blockno (state.buf session).data,
          history.changed.erase session.b⟩ := by
  have hvalid := (hserves.own hsession).loaded session List.mem_cons_self hphase
  have hdata := update_self (state.buf session).blockno (state.buf session).data history.latest
  refine h.set (fun _ _ ↦ hdata.symm)
    (fun c hc hother ↦ latest_of_ne hserves hvalid hc hother) (fun k hne ↦ ?_)
    (fun hself ↦ absurd hself (Finset.notMem_erase _ _))
    fun c hc ↦ Finset.mem_erase.trans (and_iff_right hc)
  by_cases hk : k = (state.buf session).blockno
  · exact Or.inl ⟨hk, rfl⟩
  · exact Or.inr ⟨hk, fun hsame ↦ hne ((update_of_ne hk ..).trans hsame)⟩

theorem bwrite (h : state.Mirrors history)
    (hserves : state.storage.bcache.Serves state.sessions) (hsession : session ∈ state.sessions)
    (hphase : session.phase = .holding)
    (hwrite : state.storage.bwrite session.pid session.b = .ok storage) :
    (⟨storage, state.sessions⟩ : CacheState).Mirrors
      ⟨update history.latest (state.buf session).blockno (state.buf session).data,
        history.changed.erase session.b⟩ := by
  have hvalid := (hserves.own hsession).loaded session List.mem_cons_self hphase
  obtain ⟨-, -, rfl⟩ := bwrite_eq_ok hwrite
  have hdata := update_self (state.buf session).blockno (state.buf session).data history.latest
  refine h.set (fun _ _ ↦ hdata.symm)
    (fun c hc hother ↦ latest_of_ne hserves hvalid hc hother) (fun k hne ↦ Or.inr ?_)
    (fun hself ↦ absurd hself (Finset.notMem_erase _ _))
    fun c hc ↦ Finset.mem_erase.trans (and_iff_right hc)
  have hk : k ≠ (state.buf session).blockno := by
    rintro rfl
    exact hne (hdata.trans
      (update_self (state.buf session).blockno (state.buf session).data state.storage.disk).symm)
  refine ⟨hk, fun hsame ↦ hne ?_⟩
  exact (update_of_ne hk ..).trans (hsame.trans (update_of_ne hk ..).symm)

end CacheState.Mirrors

/-- Every settled step keeps the cache and the disk at what was last written. -/
theorem CacheState.Steps.mirrors {state : CacheState}
    {history : CacheHistory} (hstep : state.Steps label next)
    (hserves : state.storage.bcache.Serves state.sessions) (h : state.Mirrors history)
    (hsettled : Settled (state, history) label) :
    next.Mirrors (note history state label next ()) := by
  cases hstep with
  | bget hget => exact h.bget hserves hget
  | acquire hsession _ hread => exact h.acquire hserves hsession hread
  | modify hsession hphase => exact h.modify hserves hsession hphase
  | logWrite hsession hphase => exact h.logWrite hserves hsession hphase
  | bwrite hsession hphase hwrite => exact h.bwrite hserves hsession hphase hwrite
  | @release session _ hsession hphase hrelease =>
    obtain ⟨-, rfl⟩ := releasesleep_eq_ok hrelease
    refine h.congr rfl fun c ↦ ?_
    rcases state.storage.buf_set_cases session.b
      { state.storage.buf session.b with holder := none } c with ⟨rfl, hc⟩ | ⟨-, hc⟩
    · exact ⟨_, _, hc, fun hchanged ↦ absurd hchanged hsettled⟩
    · exact ⟨_, _, hc, fun _ ↦ rfl⟩
  | @unref session hsession hphase =>
    refine h.congr rfl fun c ↦ ?_
    by_cases hc : c = session.b
    · subst hc
      exact ⟨_, _, Bcache.Serves.unref_buf_self .., fun _ ↦ rfl⟩
    · exact ⟨_, _, Bcache.Serves.unref_buf_of_ne _ hc, fun _ ↦ rfl⟩

/-- No two buffers that are referenced, valid or dirty hold the same block. -/
def Bcache.Exclusive (cache : Bcache) : Prop :=
  ∀ b c, b ≠ c → (cache.buf b).isIdle = false → (cache.buf c).isIdle = false → ¬ cache.Same b c

/-- The pointers lead from `head` through every buffer once and back, in both directions. -/
def Bcache.Linked (cache : Bcache) : Prop :=
  ∃ order : List (Fin nBuf), order.Nodup ∧ (∀ b, b ∈ order) ∧
    List.iterate cache.links.next none (nBuf + 2) = Links.tour order ∧
    List.iterate cache.links.prev none (nBuf + 2) = Links.tour order.reverse

theorem Bcache.Arranged.exclusive {cache : Bcache}
    (h : cache.Arranged order) : cache.Exclusive := by
  intro b c hne hb hc hsame
  rcases h.idle_of_same hne hsame with hidle | hidle
  · exact absurd (hb.symm.trans hidle) Bool.false_ne_true
  · exact absurd (hc.symm.trans hidle) Bool.false_ne_true

theorem Bcache.Arranged.linked {cache : Bcache} (h : cache.Arranged order) : cache.Linked := by
  have hlength : order.length = nBuf := by
    have hcard := List.toFinset_card_of_nodup h.ring.nodup
    rw [Finset.eq_univ_iff_forall.mpr fun b ↦ List.mem_toFinset.mpr (h.all b), Finset.card_univ,
      Fintype.card_fin] at hcard
    exact hcard.symm
  have hnext := h.ring.iterate_next
  have hprev := h.ring.iterate_prev
  rw [hlength] at hnext hprev
  exact ⟨order, h.ring.nodup, h.all, hnext, hprev⟩

theorem CacheState.mirrors_start (disk : Disk) (disksize : ℕ) :
    (start disk disksize).Mirrors ⟨disk, ∅⟩ where
  data b hvalid := by cases hvalid
  pinned k hne := absurd rfl hne
  changed b hb := absurd hb (Finset.notMem_empty b)

/-- The ring is whole and no block is held twice, whatever the users do; and where every changed
buffer is logged or written before it is given back, `bread` returns what was last logged or
written, or else what was on disk. -/
theorem cache_coherent_of_settled {disk : Disk} {disksize : ℕ} {state : CacheState}
    (hrun : Runs step (fun _ _ ↦ True) (start disk disksize) state) :
    state.storage.bcache.Exclusive ∧ state.storage.bcache.Linked ∧
      ∀ history, Runs (observe step note) Settled
          (start disk disksize, ⟨disk, ∅⟩) (state, history) →
        ∀ session next, state.step (.acquire session) = .ok (next, ()) →
          (next.buf session).isFor session.dev session.blockno = true ∧
            (next.buf session).data = history.latest session.blockno := by
  have hserves := hrun.invariant (fun state ↦ state.storage.bcache.Serves state.sessions)
    (serves_start disk disksize)
    fun _ _ _ _ hstate _ hstep ↦ (step_cases hstep).serves hstate
  obtain ⟨order, horder⟩ := hserves.arranged
  refine ⟨horder.exclusive, horder.linked, fun history hobserved session next hacquire ↦ ?_⟩
  have hboth := hobserved.invariant (fun observed ↦
      observed.1.storage.bcache.Serves observed.1.sessions ∧ observed.1.Mirrors observed.2)
      ⟨serves_start disk disksize, mirrors_start disk disksize⟩ (by
        rintro ⟨before, past⟩ label ⟨after, present⟩ result ⟨hserves, hmirrors⟩ hsettled hstep
        obtain ⟨hok, hnote⟩ := observe_eq_ok.mp hstep
        have hsteps := step_cases hok
        rw [hnote]
        exact ⟨hsteps.serves hserves, hsteps.mirrors hserves hmirrors hsettled⟩)
  have hsteps := step_cases hacquire
  have hserves' := hsteps.serves hserves
  have hmirrors' := hsteps.mirrors hserves hboth.2 trivial
  cases hsteps with
  | acquire hsession hphase hread =>
    have hmem : ({ session with phase := .holding } : Session) ∈
        state.advance session .holding := List.mem_cons_self
    have hown := hserves'.own hmem
    have hnumber := hown.number _ List.mem_cons_self
    have hfree := (breadLocked_eq_ok (hserves.own hsession).dirty hread).1
    have hsettled : session.b ∉ history.changed := by
      intro hchanged
      have hlocked := hboth.2.changed session.b hchanged
      rw [hfree] at hlocked
      cases hlocked
    refine ⟨hnumber, ?_⟩
    have hdata := hmirrors'.data session.b (hown.loaded _ List.mem_cons_self rfl) hsettled
    rw [← (Buf.isFor_iff.mp hnumber).2]
    exact hdata

/-- The one session of the runs below. -/
def oneSession (phase : SessionPhase) : Session := ⟨1, rootDev, 5, ⟨0, by decide⟩, phase⟩

def ones : Block := fun _ ↦ 1

/-- A buffer that is changed in place and given back, without being logged or written, is returned
by the next `bread` with the change. -/
theorem bread_returns_unlogged : ∃ (state : CacheState) (history : CacheHistory)
    (next : CacheState),
    Runs (observe step note) (fun _ _ ↦ True)
        (start (fun _ ↦ Block.zero) 10, ⟨fun _ ↦ Block.zero, ∅⟩) (state, history) ∧
      state.step (.acquire (oneSession .waiting)) = .ok (next, ()) ∧
      (next.buf (oneSession .waiting)).data 0 = 1 ∧
      history.latest 5 0 = 0 ∧ state.storage.disk 5 0 = 0 := by
  simp only [exists_and_left]
  apply Runs.of_labels_observed
    [.bget 1 rootDev 5, .acquire (oneSession .waiting), .modify (oneSession .holding) ones,
      .release (oneSession .holding), .unref (oneSession .releasing), .bget 1 rootDev 5]
  decide +kernel

/-- A block that was logged and given back is read again. -/
theorem cache_coherent_of_settled_logged : ∃ (state : CacheState) (history : CacheHistory)
    (next : CacheState),
    Runs (observe step note) Settled
        (start (fun _ ↦ Block.zero) 10, ⟨fun _ ↦ Block.zero, ∅⟩) (state, history) ∧
      state.step (.acquire (oneSession .waiting)) = .ok (next, ()) ∧ history.latest 5 0 = 1 ∧
      state.storage.bcache.Exclusive ∧ state.storage.bcache.Linked ∧
      (next.buf (oneSession .waiting)).data = history.latest 5 := by
  obtain ⟨state, history, hrun, hlatest, next, hstep⟩ : ∃ state history,
      Runs (observe step note) Settled
        (start (fun _ ↦ Block.zero) 10, ⟨fun _ ↦ Block.zero, ∅⟩) (state, history) ∧
      history.latest 5 0 = 1 ∧
      ∃ next, state.step (.acquire (oneSession .waiting)) = .ok (next, ()) := by
    apply Runs.of_labels_observed
      [.bget 1 rootDev 5, .acquire (oneSession .waiting), .modify (oneSession .holding) ones,
        .logWrite (oneSession .holding), .release (oneSession .holding),
        .unref (oneSession .releasing), .bget 1 rootDev 5]
    decide +kernel
  have hplain : Runs step (fun _ _ ↦ True) (start (fun _ ↦ Block.zero) 10) state :=
    Runs.forget (hrun.mono fun _ _ _ ↦ trivial)
  obtain ⟨hexclusive, hlinked, hreads⟩ := cache_coherent_of_settled hplain
  exact ⟨state, history, next, hrun, hstep, hlatest, hexclusive, hlinked,
    (hreads history hrun (oneSession .waiting) next hstep).2⟩

end Xv6Shm
