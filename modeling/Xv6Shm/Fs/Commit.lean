import Xv6Shm.Fs.Bio
import Xv6Shm.Fs.GroupCommit

/-!
# Writing the log

The bodies of the loops of `log.c` and its transfers of the header, each with at most one disk
write, and what they do to the disk and to what a reader of the cache sees.
-/

namespace Xv6Shm

open Fallible

namespace LogHeader

/-- The header that `read_head` finds in a block. -/
def ofBlock (data : Block) : LogHeader where
  n := (Word.toInt (data.word 0)).toNat
  block i := if i < (Word.toInt (data.word 0)).toNat then data.word (4 + 4 * i) else 0

/-- The block after `write_head` has filled it in. -/
def store (lh : LogHeader) (data : Block) : Block :=
  (List.range lh.n).foldl (fun data i ↦ data.setWord (4 + 4 * i) (lh.block i)) (data.setWord 0 lh.n)

/-- The first header lists the same blocks as the second. -/
def Lists (lh' lh : LogHeader) : Prop := lh'.n = lh.n ∧ ∀ i < lh.n, lh'.block i = lh.block i

theorem Lists.blocks_eq {lh lh' : LogHeader} (h : lh'.Lists lh) : lh'.blocks = lh.blocks := by
  rw [blocks, blocks, h.1]
  exact List.map_congr_left fun i hi ↦ h.2 i (List.mem_range.mp hi)

theorem word_foldl_setWord (block : ℕ → ℕ) (data : Block) {m : ℕ}
    (hblock : ∀ i < m, block i < Word.size) :
    let filled := (List.range m).foldl (fun data i ↦ data.setWord (4 + 4 * i) (block i)) data
    filled.word 0 = data.word 0 ∧ ∀ i < m, filled.word (4 + 4 * i) = block i := by
  induction m with
  | zero => exact ⟨rfl, fun _ hi ↦ absurd hi (Nat.not_lt_zero _)⟩
  | succ m ih =>
    obtain ⟨hzero, hwords⟩ := ih fun i hi ↦ hblock i (Nat.lt_succ_of_lt hi)
    simp only [List.range_succ, List.foldl_append, List.foldl_cons, List.foldl_nil] at hzero hwords ⊢
    refine ⟨?_, fun i hi ↦ ?_⟩
    · rw [Block.word_setWord_of_disjoint (by omega), hzero]
    · rcases Nat.lt_succ_iff_lt_or_eq.mp hi with hlt | rfl
      · rw [Block.word_setWord_of_disjoint (by omega), hwords i hlt]
      · exact Block.word_setWord (hblock i hi)

theorem ofBlock_store {lh : LogHeader} (data : Block) (hn : lh.n ≤ logSize)
    (hblock : ∀ i < lh.n, lh.block i < Word.size) : (ofBlock (lh.store data)).Lists lh := by
  obtain ⟨hzero, hwords⟩ := word_foldl_setWord lh.block (data.setWord 0 lh.n) hblock
  have hsmall : lh.n < 2 ^ 31 := lt_of_le_of_lt hn (by decide)
  rw [Block.word_setWord (lt_trans hsmall (by decide))] at hzero
  have hcount : (ofBlock (lh.store data)).n = lh.n := by
    rw [ofBlock, store, hzero, Word.toInt, if_pos hsmall, Int.toNat_natCast]
  refine ⟨hcount, fun i hi ↦ ?_⟩
  rw [← hcount] at hi
  change (if i < (ofBlock (lh.store data)).n then _ else _) = _
  rw [if_pos hi]
  exact hwords i (hcount ▸ hi)

end LogHeader

namespace Storage

/-- `memmove(dst->data, src->data, BSIZE)`, `bwrite(dst)`, `brelse(src)` and `brelse(dst)`. -/
def copyOut (storage : Storage) (pid : ℕ) (src dst : Fin nBuf) : Except Fault Storage := do
  let storage ← (storage.modify dst (storage.buf src).data).bwrite pid dst
  let storage ← storage.brelse pid src
  storage.brelse pid dst

/-- One round of the loop of `write_log`. -/
def writeLog (storage : Storage) (pid : ℕ) (log : Log) (tail : ℕ) : Except Fault Storage := do
  let (storage, dst) ← storage.bread pid rootDev (log.start + tail + 1)
  let (storage, src) ← storage.bread pid rootDev (log.lh.block tail)
  storage.copyOut pid src dst

/-- One round of the loop of `install_trans`. -/
def installTrans (storage : Storage) (pid : ℕ) (log : Log) (tail : ℕ) : Except Fault Storage := do
  let (storage, src) ← storage.bread pid rootDev (log.start + tail + 1)
  let (storage, dst) ← storage.bread pid rootDev (log.lh.block tail)
  storage.copyOut pid src dst

def readHead (storage : Storage) (pid start : ℕ) : Except Fault (Storage × LogHeader) := do
  let (storage, b) ← storage.bread pid rootDev start
  let lh := LogHeader.ofBlock (storage.buf b).data
  if logSize < lh.n then .error (.outOfBounds .lhBlock)
  else do
    let storage ← storage.brelse pid b
    pure (storage, lh)

def writeHead (storage : Storage) (pid : ℕ) (log : Log) : Except Fault Storage := do
  let (storage, b) ← storage.bread pid rootDev log.start
  let storage ← (storage.modify b (log.lh.store (storage.buf b).data)).bwrite pid b
  storage.brelse pid b

/-- An update of a block as the file system makes it: `bread`, a change of the data, `log_write` and
`brelse`. -/
def update (storage : Storage) (pid : ℕ) (log : Log) (blockno : ℕ) (data : Block) :
    Except Fault (Storage × Log) := do
  let (storage, b) ← storage.bread pid rootDev blockno
  let storage := storage.modify b data
  log.logWriteCheck
  let log ← log.logWriteLocked (storage.buf b).blockno
  let storage ← (storage.pin b).brelse pid b
  pure (storage, log)

variable {storage storage' : Storage} {view : Disk} {pid : ℕ} {log : Log}

namespace Shows

theorem copyOut {sessions : List Session} {src dst : Session} (h : storage.Shows sessions view)
    (hperm : sessions.Perm [src, dst]) (hsrc : src.pid = pid ∧ src.phase = .holding)
    (hdst : dst.pid = pid ∧ dst.phase = .holding)
    (hcopy : storage.copyOut pid src.b dst.b = .ok storage') :
    storage'.Shows [] (Function.update view dst.blockno (view src.blockno)) ∧
      storage'.disk = Function.update storage.disk dst.blockno (view src.blockno) := by
  obtain ⟨written, hwrite, hrest⟩ := bind_eq_ok.mp hcopy
  obtain ⟨released, hfirst, hsecond⟩ := bind_eq_ok.mp hrest
  have hsrcmem : src ∈ sessions := hperm.mem_iff.mpr List.mem_cons_self
  have hdstmem : dst ∈ sessions := hperm.mem_iff.mpr (by simp)
  rw [h.data hsrcmem hsrc.2, ← hdst.1] at hwrite
  obtain ⟨hwritten, hdisk⟩ := h.bwrite hdstmem hdst.2 hwrite
  rw [← hsrc.1] at hfirst
  obtain ⟨hreleased, hsame⟩ := hwritten.brelse hsrcmem hsrc.2 hfirst
  have hleft : (sessions.erase src).Perm [dst] := by simpa using hperm.erase src
  rw [← hdst.1] at hsecond
  obtain ⟨hdone, hsame'⟩ :=
    hreleased.brelse (hleft.mem_iff.mpr List.mem_cons_self) hdst.2 hsecond
  have hnone : (sessions.erase src).erase dst = [] := by simpa using hleft.erase dst
  rw [hnone] at hdone
  exact ⟨hdone, by rw [hsame', hsame, hdisk]⟩

section

variable (h : storage.Shows [] view)

include h

theorem writeLog {tail : ℕ} (hok : storage.writeLog pid log tail = .ok storage') :
    storage'.Shows [] (Function.update view (log.start + tail + 1) (view (log.lh.block tail))) ∧
      storage'.disk =
        Function.update storage.disk (log.start + tail + 1) (view (log.lh.block tail)) := by
  obtain ⟨⟨first, dst⟩, hdst, hrest⟩ := bind_eq_ok.mp hok
  obtain ⟨⟨second, src⟩, hsrc, hcopy⟩ := bind_eq_ok.mp hrest
  obtain ⟨hfirst, hdisk⟩ := h.bread hdst
  obtain ⟨hsecond, hdisk'⟩ := hfirst.bread hsrc
  rw [← hdisk, ← hdisk']
  exact hsecond.copyOut (List.Perm.refl _) ⟨rfl, rfl⟩ ⟨rfl, rfl⟩ hcopy

theorem installTrans {tail : ℕ} (hok : storage.installTrans pid log tail = .ok storage') :
    storage'.Shows [] (Function.update view (log.lh.block tail) (view (log.start + tail + 1))) ∧
      storage'.disk =
        Function.update storage.disk (log.lh.block tail) (view (log.start + tail + 1)) := by
  obtain ⟨⟨first, src⟩, hsrc, hrest⟩ := bind_eq_ok.mp hok
  obtain ⟨⟨second, dst⟩, hdst, hcopy⟩ := bind_eq_ok.mp hrest
  obtain ⟨hfirst, hdisk⟩ := h.bread hsrc
  obtain ⟨hsecond, hdisk'⟩ := hfirst.bread hdst
  rw [← hdisk, ← hdisk']
  exact hsecond.copyOut (List.Perm.swap _ _ _) ⟨rfl, rfl⟩ ⟨rfl, rfl⟩ hcopy

theorem readHead {start : ℕ} {lh : LogHeader}
    (hok : storage.readHead pid start = .ok (storage', lh)) :
    storage'.Shows [] view ∧ storage'.disk = storage.disk ∧
      lh = LogHeader.ofBlock (view start) ∧ lh.n ≤ logSize := by
  obtain ⟨⟨read, b⟩, hread, hrest⟩ := bind_eq_ok.mp hok
  obtain ⟨hheld, hdisk⟩ := h.bread hread
  have hdata := hheld.data List.mem_cons_self rfl
  dsimp only at hdata hrest
  rw [hdata] at hrest
  split at hrest
  · cases hrest
  · rename_i hn
    obtain ⟨released, hrelse, hpure⟩ := bind_eq_ok.mp hrest
    cases hpure
    obtain ⟨hdone, hsame⟩ := hheld.brelse List.mem_cons_self rfl hrelse
    rw [List.erase_cons_head] at hdone
    exact ⟨hdone, hsame.trans hdisk, rfl, not_lt.mp hn⟩

theorem writeHead (hok : storage.writeHead pid log = .ok storage') :
    storage'.Shows [] (Function.update view log.start (log.lh.store (view log.start))) ∧
      storage'.disk = Function.update storage.disk log.start (log.lh.store (view log.start)) := by
  obtain ⟨⟨read, b⟩, hread, hrest⟩ := bind_eq_ok.mp hok
  obtain ⟨hheld, hdisk⟩ := h.bread hread
  have hdata := hheld.data List.mem_cons_self rfl
  obtain ⟨written, hwrite, hrelse⟩ := bind_eq_ok.mp hrest
  rw [hdata] at hwrite
  obtain ⟨hwritten, hdisk'⟩ := hheld.bwrite List.mem_cons_self rfl hwrite
  obtain ⟨hdone, hsame⟩ := hwritten.brelse List.mem_cons_self rfl hrelse
  rw [List.erase_cons_head] at hdone
  exact ⟨hdone, by rw [hsame, hdisk', hdisk]⟩

theorem update {blockno : ℕ} {data : Block} {log' : Log}
    (hok : storage.update pid log blockno data = .ok (storage', log')) :
    storage'.Shows [] (Function.update view blockno data) ∧ storage'.disk = storage.disk ∧
      log.logWriteCheck = .ok () ∧ log.logWriteLocked blockno = .ok log' := by
  obtain ⟨⟨read, b⟩, hread, hrest⟩ := bind_eq_ok.mp hok
  obtain ⟨hheld, hdisk⟩ := h.bread hread
  obtain ⟨_, hcheck, hrest⟩ := bind_eq_ok.mp hrest
  obtain ⟨_, hlocked, hrest⟩ := bind_eq_ok.mp hrest
  obtain ⟨released, hrelse, hpure⟩ := bind_eq_ok.mp hrest
  cases hpure
  have hblockno := hheld.blockno List.mem_cons_self
  obtain ⟨hdone, hsame⟩ := (hheld.log List.mem_cons_self rfl data).brelse List.mem_cons_self rfl hrelse
  rw [List.erase_cons_head] at hdone
  refine ⟨hdone, hsame.trans hdisk, hcheck, ?_⟩
  dsimp only [Storage.modify] at hlocked hblockno
  rwa [Storage.set_buf_self, hblockno] at hlocked

end

end Shows

end Storage

end Xv6Shm
