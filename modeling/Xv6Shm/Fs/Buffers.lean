import Xv6Shm.Fs.CacheCoherence
import Xv6Shm.Fs.Reservation

/-!
# Running out of buffers

The log and the buffer cache together. Processes use buffers, inside an operation or outside;
`log_write` pins a buffer and enters its block in the header; `commit` uses buffers of its own.

A buffer cannot be recycled while it is referenced or dirty, so `bget` finds one as long as the
sessions under way and the blocks in the header are together fewer than `NBUF`. Nothing enforces
that: readers reserve nothing.
-/

namespace Xv6Shm

open Fallible CacheState Bcache

/-- The block that the next step of `commit` writes, if it writes one. -/
def CommitPos.target (log : Log) : CommitPos → Option ℕ
  | .writeLog tail => if tail < log.lh.n then some (log.start + tail + 1) else none
  | .install tail => if tail < log.lh.n then some (log.lh.block tail) else none
  | .writeHead | .erase => some log.start
  | .start | .clear | .finished => none

/-- The blocks of the transaction that are not yet installed. -/
def CommitPos.pending (lh : LogHeader) : CommitPos → List ℕ
  | .install tail => lh.blocks.drop tail
  | .clear => []
  | .start | .writeLog _ | .writeHead | .erase | .finished => lh.blocks

def OpPhase.target (log : Log) : OpPhase → Option ℕ
  | .inCommit pos => pos.target log
  | .outside | .running _ | .checked _ _ => none

def OpPhase.pending (lh : LogHeader) : OpPhase → List ℕ
  | .inCommit pos => pos.pending lh
  | .outside | .running _ | .checked _ _ => lh.blocks

theorem OpPhase.pending_subset (lh : LogHeader) (phase : OpPhase) :
    phase.pending lh ⊆ lh.blocks := by
  cases phase with
  | outside | running | checked => exact List.Subset.refl _
  | inCommit pos =>
    cases pos with
    | install tail => exact List.drop_subset tail _
    | clear => exact List.nil_subset _
    | start | writeLog | writeHead | erase | finished => exact List.Subset.refl _

namespace GroupState

variable {Pid : Type} (state : GroupState Pid) (p : Pid)

def target : Option ℕ := (state.phase p).target state.log

def pending : List ℕ := (state.phase p).pending state.log.lh

/-- The process has made the tests of `log_write` for the block. -/
def hasChecked (blockno : ℕ) : Bool :=
  match state.phase p with
  | .checked _ other => decide (other = blockno)
  | .outside | .running _ | .inCommit _ => false

theorem hasChecked_iff {state : GroupState Pid} {p : Pid} {blockno : ℕ} :
    state.hasChecked p blockno = true ↔ ∃ logged, state.phase p = .checked logged blockno := by
  unfold hasChecked
  cases state.phase p <;> simp

end GroupState

/-- The log and the cache. -/
structure FsUse where
  group : GroupState ℕ
  cache : CacheState

/-- Steps that only use buffers, steps that only use the log, and steps on both. -/
inductive FsUseLabel where
  | cache (label : CacheLabel)
  | op (label : GroupLabel ℕ)
  | finishWrite (session : Session)
  | commitWrite (session : Session)

/-- The label does not write a buffer back or pin it. -/
def CacheLabel.isShared : CacheLabel → Bool
  | .bget _ _ _ | .acquire _ | .modify _ _ | .release _ | .unref _ => true
  | .logWrite _ | .bwrite _ => false

namespace FsUse

/-- The log after `initlog`, with no buffer in use. -/
def start (logstart size : ℕ) (cache : CacheState) : FsUse := ⟨.start logstart size, cache⟩

def stepCache (state : FsUse) (label : CacheLabel) : Except Fault FsUse := do
  let (cache, _) ← state.cache.step label
  pure { state with cache := cache }

def stepGroup (state : FsUse) (label : GroupLabel ℕ) : Except Fault FsUse := do
  let (group, _) ← state.group.step label
  pure { state with group := group }

/-- A call of `log_write` holds the buffer of the block it logs. -/
def mayOp (state : FsUse) (label : GroupLabel ℕ) : Bool :=
  match label.call with
  | .beginOp | .endOp => true
  | .logWrite blockno => state.cache.sessions.any fun session ↦
      decide (session.pid = label.proc ∧ session.blockno = blockno ∧ session.phase = .holding)
  | .finishWrite => false
  | .commit => (state.group.target label.proc).isNone

def step (state : FsUse) : FsUseLabel → Except Fault (FsUse × Unit)
  | .cache label =>
    if label.isShared then do pure (← state.stepCache label, ()) else .error .blocked
  | .op label =>
    if state.mayOp label then do pure (← state.stepGroup label, ()) else .error .blocked
  | .finishWrite session =>
    if state.group.hasChecked session.pid session.blockno then do
      let next ← state.stepGroup ⟨session.pid, .finishWrite⟩
      pure (← next.stepCache (.logWrite session), ())
    else .error .blocked
  | .commitWrite session =>
    if state.group.target session.pid = some session.blockno then do
      let next ← state.stepGroup ⟨session.pid, .commit⟩
      pure (← next.stepCache (.bwrite session), ())
    else .error .blocked

/-- All that a step can do. -/
inductive Steps (state : FsUse) : FsUseLabel → FsUse → Prop
  | cache {label : CacheLabel} {cache : CacheState} (hshared : label.isShared = true)
      (hcache : state.cache.Steps label cache) :
      Steps state (.cache label) ⟨state.group, cache⟩
  | op {label : GroupLabel ℕ} {group : GroupState ℕ} (hcall : label.call ≠ .finishWrite)
      (htarget : label.call = .commit → state.group.target label.proc = none)
      (hgroup : state.group.Steps label.proc label.call group) :
      Steps state (.op label) ⟨group, state.cache⟩
  | finishWrite {session : Session} {group : GroupState ℕ} {cache : CacheState}
      (hchecked : state.group.hasChecked session.pid session.blockno = true)
      (hgroup : state.group.Steps session.pid .finishWrite group)
      (hcache : state.cache.Steps (.logWrite session) cache) :
      Steps state (.finishWrite session) ⟨group, cache⟩
  | commitWrite {session : Session} {group : GroupState ℕ} {cache : CacheState}
      (htarget : state.group.target session.pid = some session.blockno)
      (hgroup : state.group.Steps session.pid .commit group)
      (hcache : state.cache.Steps (.bwrite session) cache) :
      Steps state (.commitWrite session) ⟨group, cache⟩

variable {state next : FsUse}

theorem stepCache_eq_ok {label : CacheLabel} (h : state.stepCache label = .ok next) :
    ∃ cache, state.cache.Steps label cache ∧ next = ⟨state.group, cache⟩ := by
  obtain ⟨⟨cache, _⟩, hstep, hpure⟩ := bind_eq_ok.mp h
  cases hpure
  exact ⟨cache, step_cases hstep, rfl⟩

theorem stepGroup_eq_ok {label : GroupLabel ℕ} (h : state.stepGroup label = .ok next) :
    ∃ group, state.group.Steps label.proc label.call group ∧ next = ⟨group, state.cache⟩ := by
  obtain ⟨⟨group, _⟩, hstep, hpure⟩ := bind_eq_ok.mp h
  cases hpure
  exact ⟨group, GroupState.step_cases hstep, rfl⟩

theorem step_cases {label : FsUseLabel} {result : Unit}
    (h : state.step label = .ok (next, result)) : state.Steps label next := by
  cases label with
  | cache label =>
    rw [step] at h
    split at h
    · rename_i hshared
      obtain ⟨_, hstep, hpure⟩ := bind_eq_ok.mp h
      cases hpure
      obtain ⟨cache, hcache, rfl⟩ := stepCache_eq_ok hstep
      exact .cache hshared hcache
    · cases h
  | op label =>
    rw [step] at h
    split at h
    · rename_i hmay
      obtain ⟨_, hstep, hpure⟩ := bind_eq_ok.mp h
      cases hpure
      obtain ⟨group, hgroup, rfl⟩ := stepGroup_eq_ok hstep
      refine .op (fun hcall ↦ ?_) (fun hcall ↦ ?_) hgroup
      · simp [mayOp, hcall] at hmay
      · simpa [mayOp, hcall] using hmay
    · cases h
  | finishWrite session =>
    rw [step] at h
    split at h
    · rename_i hchecked
      obtain ⟨_, hfirst, hrest⟩ := bind_eq_ok.mp h
      obtain ⟨_, hsecond, hpure⟩ := bind_eq_ok.mp hrest
      cases hpure
      obtain ⟨group, hgroup, rfl⟩ := stepGroup_eq_ok hfirst
      obtain ⟨cache, hcache, rfl⟩ := stepCache_eq_ok hsecond
      exact .finishWrite hchecked hgroup hcache
    · cases h
  | commitWrite session =>
    rw [step] at h
    split at h
    · rename_i htarget
      obtain ⟨_, hfirst, hrest⟩ := bind_eq_ok.mp h
      obtain ⟨_, hsecond, hpure⟩ := bind_eq_ok.mp hrest
      cases hpure
      obtain ⟨group, hgroup, rfl⟩ := stepGroup_eq_ok hfirst
      obtain ⟨cache, hcache, rfl⟩ := stepCache_eq_ok hsecond
      exact .commitWrite htarget hgroup hcache
    · cases h

end FsUse

/-- The dirty buffers of the second cache are dirty in the first, for the same blocks. -/
def Bcache.Cleaner (cache' cache : Bcache) : Prop :=
  ∀ c, (cache'.buf c).dirty = true →
    (cache.buf c).dirty = true ∧ (cache'.buf c).blockno = (cache.buf c).blockno

theorem Bcache.cleaner_set {cache : Bcache} {b : Fin nBuf} {buf : Buf}
    (hbuf : buf.dirty = true → (cache.buf b).dirty = true ∧ buf.blockno = (cache.buf b).blockno) :
    (cache.set b buf).Cleaner cache := by
  intro c hdirty
  by_cases hc : c = b
  · subst hc
    rw [set_buf_self] at hdirty ⊢
    exact hbuf hdirty
  · rw [set_buf_of_ne _ hc] at hdirty ⊢
    exact ⟨hdirty, rfl⟩

theorem CacheState.Steps.cleaner {state next : CacheState} {label : CacheLabel}
    (hstep : state.Steps label next) (hshared : label.isShared = true)
    (hserves : state.storage.bcache.Serves state.sessions) :
    next.storage.bcache.Cleaner state.storage.bcache := by
  cases hstep with
  | @bget pid dev blockno storage b hget =>
    obtain ⟨order, horder⟩ := hserves.arranged
    obtain ⟨-, hgot⟩ := horder.bget (Storage.bget_eq_ok hget).1
    generalize storage.bcache = cache' at hgot ⊢
    cases hgot with
    | hit => exact cleaner_set fun hdirty ↦ ⟨hdirty, rfl⟩
    | miss => exact cleaner_set fun hdirty ↦ nomatch hdirty
  | acquire hsession hphase hread =>
    obtain ⟨-, ⟨-, rfl⟩ | ⟨-, -, -, rfl⟩⟩ :=
      Storage.breadLocked_eq_ok (hserves.own hsession).dirty hread
    · exact cleaner_set fun hdirty ↦ ⟨hdirty, rfl⟩
    · exact cleaner_set fun hdirty ↦ ⟨hdirty, rfl⟩
  | modify hsession hphase => exact cleaner_set fun hdirty ↦ ⟨hdirty, rfl⟩
  | logWrite | bwrite => cases hshared
  | release hsession hphase hrelease =>
    obtain ⟨-, rfl⟩ := Storage.releasesleep_eq_ok hrelease
    exact cleaner_set fun hdirty ↦ ⟨hdirty, rfl⟩
  | @unref session hsession hphase =>
    intro c hdirty
    dsimp only [Storage.unref] at hdirty ⊢
    by_cases hc : c = session.b
    · subst hc
      rw [Bcache.Serves.unref_buf_self] at hdirty ⊢
      exact ⟨hdirty, rfl⟩
    · rw [Bcache.Serves.unref_buf_of_ne _ hc] at hdirty ⊢
      exact ⟨hdirty, rfl⟩

/-- Every dirty buffer is for a block of the transaction that is still to be installed. -/
structure FsUse.Pinned (state : FsUse) : Prop where
  serves : state.cache.storage.bcache.Serves state.cache.sessions
  grouped : ∃ history, Grouped state.group history
  dirty : ∀ p b, (state.cache.storage.bcache.buf b).dirty = true →
    (state.cache.storage.bcache.buf b).blockno ∈ state.group.pending p

namespace GroupState

variable {Pid : Type} {state : GroupState Pid} {history : GroupHistory}

theorem pending_of_free (hgrouped : Grouped state history) (hfree : state.log.committing = false)
    (q : Pid) : state.pending q = state.log.lh.blocks := by
  have hfits := hgrouped.fits q
  unfold pending
  cases hphase : state.phase q with
  | outside | running | checked => rfl
  | inCommit pos => simp [hphase, OpPhase.Fits, hfree] at hfits

variable [DecidableEq Pid] {p : Pid} {log : Log} {phase : OpPhase} {blockno : ℕ}

theorem mem_pending_move (hlh : log.lh = state.log.lh) (h : ∀ q, blockno ∈ state.pending q)
    (hself : blockno ∈ phase.pending state.log.lh) (q : Pid) :
    blockno ∈ (state.move p log phase).pending q := by
  unfold pending
  rw [show (state.move p log phase).log = log from rfl, hlh]
  rcases eq_or_ne q p with rfl | hq
  · rw [phase_move_self]
    exact hself
  · rw [phase_move_of_ne _ _ _ _ hq]
    exact h q

/-- A block stays pending until `commit` writes it home. -/
theorem Steps.mem_pending {call : GroupCall} {next : GroupState Pid}
    (hstep : state.Steps p call next) (hcall : call ≠ .finishWrite)
    (hne : call = .commit → state.target p ≠ some blockno) (h : ∀ q, blockno ∈ state.pending q) :
    ∀ q, blockno ∈ next.pending q := by
  have hin := OpPhase.pending_subset _ _ (h p)
  have hself := h p
  cases hstep with
  | beginOp | logWrite | lastOp | endOp => exact mem_pending_move rfl h hin
  | finishWrite => exact absurd rfl hcall
  | @commit pos hphase =>
    have htarget := hne rfl
    rw [pending, hphase] at hself
    rw [target, hphase] at htarget
    cases pos with
    | start =>
      refine mem_pending_move rfl h ?_
      dsimp only [Log.commitStep]
      split <;> exact hin
    | writeLog tail =>
      refine mem_pending_move rfl h ?_
      dsimp only [Log.commitStep]
      split <;> exact hin
    | writeHead => exact mem_pending_move rfl h hin
    | install tail =>
      refine mem_pending_move rfl h ?_
      dsimp only [OpPhase.pending, OpPhase.target, CommitPos.target, CommitPos.pending]
        at hself htarget
      by_cases htail : tail < state.log.lh.n
      · rw [if_pos htail] at htarget
        rw [Log.commitStep, if_pos htail]
        have hlength : tail < state.log.lh.blocks.length := by simpa using htail
        rw [List.drop_eq_getElem_cons hlength] at hself
        refine (List.mem_cons.mp hself).resolve_left fun hhead ↦ htarget (congrArg some ?_)
        rw [hhead]
        simp [LogHeader.blocks]
      · rw [List.drop_of_length_le (by simpa using htail)] at hself
        cases hself
    | clear => cases hself
    | erase => exact mem_pending_move rfl h hin
    | finished => exact mem_pending_move rfl h hin

end GroupState

variable {state : FsUse}

theorem FsUse.Steps.pinned {next : FsUse} {label : FsUseLabel}
    (hstep : state.Steps label next) (h : state.Pinned) : next.Pinned := by
  obtain ⟨history, hgrouped⟩ := h.grouped
  cases hstep with
  | cache hshared hcache =>
    refine ⟨hcache.serves h.serves, h.grouped, fun p b hdirty ↦ ?_⟩
    obtain ⟨hbefore, hblockno⟩ := hcache.cleaner hshared h.serves b hdirty
    rw [hblockno]
    exact h.dirty p b hbefore
  | op hcall htarget hgroup =>
    refine ⟨h.serves, ⟨_, hgroup.grouped hgrouped⟩, fun p b hdirty ↦ ?_⟩
    exact hgroup.mem_pending hcall (fun hcommit ↦ by simp [htarget hcommit])
      (fun q ↦ h.dirty q b hdirty) p
  | @finishWrite session group cache hchecked hgroup hcache =>
    have hserves := hcache.serves h.serves
    have hgrouped' := hgroup.grouped hgrouped
    refine ⟨hserves, ⟨_, hgrouped'⟩, fun p b hdirty ↦ ?_⟩
    obtain ⟨logged, hphase⟩ := GroupState.hasChecked_iff.mp hchecked
    have hfits := hgrouped.fits session.pid
    rw [hphase] at hfits
    cases hgroup with
    | finishWrite hphase' habsorb =>
      cases hphase.symm.trans hphase'
      obtain ⟨hblock, hgrow⟩ := LogHeader.blocks_subset_of_absorb habsorb
      rw [GroupState.pending_of_free hgrouped' hfits.1]
      cases hcache with
      | logWrite hsession hholding =>
        have hnumber := (h.serves.own hsession).number session List.mem_cons_self
        dsimp only [Storage.set] at hdirty ⊢
        by_cases hb : b = session.b
        · subst hb
          rw [set_buf_self]
          exact (Buf.isFor_iff.mp hnumber).2 ▸ hblock
        · rw [set_buf_of_ne _ hb] at hdirty ⊢
          exact hgrow (OpPhase.pending_subset _ _ (h.dirty p b hdirty))
  | @commitWrite session group cache htarget hgroup hcache =>
    refine ⟨hcache.serves h.serves, ⟨_, hgroup.grouped hgrouped⟩, fun p b hdirty ↦ ?_⟩
    cases hcache with
    | bwrite hsession hholding hwrite =>
      obtain ⟨-, -, rfl⟩ := Storage.bwrite_eq_ok hwrite
      have hown := h.serves.own hsession
      dsimp only [Storage.set] at hdirty ⊢
      by_cases hb : b = session.b
      · subst hb
        rw [set_buf_self] at hdirty
        cases hdirty
      · rw [set_buf_of_ne _ hb] at hdirty ⊢
        refine hgroup.mem_pending (by simp) (fun _ hsame ↦ hb ?_) (fun q ↦ h.dirty q b hdirty) p
        -- No second buffer is valid for the block just written.
        refine h.serves.valid_unique (hown.loaded session List.mem_cons_self hholding)
          ((h.serves.each b).dirty hdirty) ?_
        rw [(Buf.isFor_iff.mp (hown.number session List.mem_cons_self)).2]
        exact Option.some.inj (hsame.symm.trans htarget)

/-- No buffer is in use, and none is dirty. -/
structure CacheState.Rested (cache : CacheState) : Prop where
  sessions : cache.sessions = []
  serves : cache.storage.bcache.Serves []
  clean : ∀ b, (cache.storage.bcache.buf b).dirty = false

theorem CacheState.rested_start (disk : Disk) (disksize : ℕ) : (start disk disksize).Rested :=
  ⟨rfl, serves_start disk disksize, fun _ ↦ rfl⟩

theorem FsUse.Pinned.start {cache : CacheState} (hrested : cache.Rested) (logstart size : ℕ) :
    (FsUse.start logstart size cache).Pinned where
  serves := by
    rw [show (FsUse.start logstart size cache).cache = cache from rfl, hrested.sessions]
    exact hrested.serves
  grouped := ⟨_, .start logstart size⟩
  dirty p b hdirty := by
    rw [show (FsUse.start logstart size cache).cache = cache from rfl, hrested.clean b] at hdirty
    cases hdirty

theorem FsUse.Pinned.card_dirty_le (h : state.Pinned) :
    (Finset.univ.filter fun b ↦ (state.cache.storage.bcache.buf b).dirty = true).card ≤
      state.group.log.lh.n := by
  calc
    _ ≤ state.group.log.lh.blocks.toFinset.card := by
      refine Finset.card_le_card_of_injOn (fun b ↦ (state.cache.storage.bcache.buf b).blockno)
        (fun b hb ↦ ?_) fun b hb c hc hsame ↦ ?_
      · exact List.mem_toFinset.mpr (OpPhase.pending_subset _ _ (h.dirty 0 b (by simpa using hb)))
      · exact h.serves.valid_unique ((h.serves.each c).dirty (by simpa using hc))
          ((h.serves.each b).dirty (by simpa using hb)) hsame
    _ ≤ state.group.log.lh.blocks.length := List.toFinset_card_le _
    _ = state.group.log.lh.n := LogHeader.length_blocks _

theorem Bcache.Serves.card_referenced_le {cache : Bcache} {sessions : List Session}
    (h : cache.Serves sessions) :
    (Finset.univ.filter fun b ↦ (cache.buf b).refcnt ≠ 0).card ≤ sessions.length := by
  calc
    _ ≤ (sessions.map Session.b).toFinset.card := by
      refine Finset.card_le_card fun b hb ↦ ?_
      have hrefcnt : (cache.buf b).refcnt ≠ 0 := by simpa using hb
      rw [(h.each b).refcnt] at hrefcnt
      obtain ⟨session, hsession⟩ := List.exists_mem_of_length_pos (Nat.pos_of_ne_zero hrefcnt)
      obtain ⟨hmem, hb⟩ := List.mem_filter.mp hsession
      exact List.mem_toFinset.mpr (List.mem_map.mpr ⟨session, hmem, of_decide_eq_true hb⟩)
    _ ≤ (sessions.map Session.b).length := List.toFinset_card_le _
    _ = sessions.length := List.length_map _

/-- If `bget` finds no buffer, the sessions and the blocks of the transaction take them all. -/
theorem FsUse.Pinned.le_of_bget_error {dev blockno : ℕ} {fault : Fault}
    (h : state.Pinned) (hget : state.cache.storage.bcache.bget dev blockno = .error fault) :
    nBuf ≤ state.cache.sessions.length + state.group.log.lh.n := by
  obtain ⟨order, horder⟩ := h.serves.arranged
  obtain ⟨-, hused⟩ := horder.bget_error hget
  calc nBuf = (Finset.univ : Finset (Fin nBuf)).card := (Finset.card_fin nBuf).symm
    _ ≤ _ := Finset.card_le_card fun b _ ↦ by
      simpa [Buf.isUnused, imp_iff_not_or] using hused b
    _ ≤ _ := Finset.card_union_le
      (Finset.univ.filter fun b ↦ (state.cache.storage.bcache.buf b).refcnt ≠ 0)
      (Finset.univ.filter fun b ↦ (state.cache.storage.bcache.buf b).dirty = true)
    _ ≤ state.cache.sessions.length + state.group.log.lh.n :=
      Nat.add_le_add h.serves.card_referenced_le h.card_dirty_le

/-- There are `NPROC` processes, a process uses two buffers at a time, and an operation logs no more
blocks than it has reserved. -/
def FsUse.Fair (state : FsUse) : FsUseLabel → Prop
  | .cache (.bget pid _ _) =>
    pid < nProc ∧ (state.cache.sessions.filter fun session ↦ session.pid = pid).length < 2
  | .op label => Budgeted maxOpBlocks state.group label
  | .cache _ | .finishWrite _ | .commitWrite _ => True

instance (state : FsUse) (label : FsUseLabel) : Decidable (state.Fair label) := by
  unfold FsUse.Fair
  split <;> infer_instance

/-- Thirty readers hold a buffer each; the next one finds none. -/
theorem bget_panics_for_readers : ∃ state : FsUse, Runs FsUse.step FsUse.Fair
      (FsUse.start 2 logSize (start (fun _ ↦ Block.zero) fsSize)) state ∧
    state.Fair (.cache (.bget 30 rootDev 130)) ∧
    state.step (.cache (.bget 30 rootDev 130)) = .error (.panic "bget: no buffers") := by
  apply Runs.of_labels ((List.finRange nBuf).flatMap fun b : Fin nBuf ↦
    [.cache (.bget b.val rootDev (100 + b.val)),
      .cache (.acquire ⟨b.val, rootDev, 100 + b.val, b, .waiting⟩)])
  decide +kernel

/-- If fewer than `NBUF` buffers are in use or pinned when a process asks for one, it gets one. -/
theorem bget_finds_buffer {cache : CacheState} (hrested : cache.Rested) {logstart size : ℕ}
    {state : FsUse}
    (hrun : Runs FsUse.step (fun _ _ ↦ True) (FsUse.start logstart size cache) state)
    (pid dev blockno : ℕ) (hroom : state.cache.sessions.length + state.group.log.lh.n < nBuf) :
    state.step (.cache (.bget pid dev blockno)) ≠ .error (.panic "bget: no buffers") := by
  have hpinned : state.Pinned :=
    hrun.invariant FsUse.Pinned (.start hrested logstart size)
      fun _ _ _ _ hpinned _ hok ↦ (FsUse.step_cases hok).pinned hpinned
  intro herror
  have hget : state.cache.storage.bcache.bget dev blockno = .error (.panic "bget: no buffers") := by
    simpa [FsUse.step, CacheLabel.isShared, FsUse.stepCache, step, Storage.bget,
      bind_eq_error] using herror
  exact absurd (hpinned.le_of_bget_error hget) (not_le.mpr hroom)

/-- Twenty-nine readers leave one buffer. -/
theorem bget_finds_buffer_last : ∃ state : FsUse, Runs FsUse.step (fun _ _ ↦ True)
      (FsUse.start 2 logSize (start (fun _ ↦ Block.zero) fsSize)) state ∧
    state.cache.sessions.length = 29 ∧
    state.step (.cache (.bget 30 rootDev 130)) ≠ .error (.panic "bget: no buffers") := by
  obtain ⟨state, hrun, hcount, hn⟩ : ∃ state, Runs FsUse.step (fun _ _ ↦ True)
      (FsUse.start 2 logSize (start (fun _ ↦ Block.zero) fsSize)) state ∧
      state.cache.sessions.length = 29 ∧ state.group.log.lh.n = 0 := by
    apply Runs.of_labels ((List.range 29).map fun pid ↦ .cache (.bget pid rootDev (100 + pid)))
    decide +kernel
  refine ⟨state, hrun, hcount, bget_finds_buffer (rested_start _ _) hrun _ _ _ ?_⟩
  rw [hcount, hn]
  decide

end Xv6Shm
