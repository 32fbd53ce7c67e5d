import Xv6Shm.Fs.Handling

/-!
# Every block belongs to one inode

The system calls on files, one after the other. A file that is opened for writing is not a
directory, so the entries of directories are written by the system only. Hence the disk stays
consistent: the free map marks the metadata and the blocks that the inodes refer to, each of which
is referred to once.
-/

namespace Xv6Shm

open Fallible Function Dinode Leads Token

namespace FsRecord

/-- The references of an idle process: to its current directory, and to the inodes of its open
files; those that are open for writing are kept. -/
def token (record : FsRecord) : Token := fun i ↦ {
  loose := (if i = record.cwd then 1 else 0) +
    record.files.countP fun file ↦ decide (file.inum = i) && !file.writable
  kept := record.files.countP fun file ↦ decide (file.inum = i) && file.writable
  lock := .unlocked }

variable {record : FsRecord} {file : OpenFile} {i : ℕ}

@[simp] theorem token_lock : (record.token i).lock = .unlocked := rfl

theorem token_cwd : 0 < (record.token record.cwd).loose := by
  simp [token]

theorem token_kept (hfile : file ∈ record.files) (hwritable : file.writable = true) :
    0 < (record.token file.inum).kept :=
  List.countP_pos_iff.mpr ⟨file, hfile, by simp [hwritable]⟩

theorem token_reader (hfile : file ∈ record.files) (hreader : file.writable = false) :
    0 < (record.token file.inum).loose :=
  Nat.add_pos_right _ (List.countP_pos_iff.mpr ⟨file, hfile, by simp [hreader]⟩)

theorem token_refs (hfile : file ∈ record.files) : 0 < (record.token file.inum).refs := by
  cases hwritable : file.writable with
  | true => exact Nat.add_pos_right _ (token_kept hfile hwritable)
  | false => exact Nat.add_pos_left (token_reader hfile hwritable) _

theorem token_chdir (ip : ℕ) :
    ({ record with cwd := ip } : FsRecord).token = (record.token.gain ip).lose record.cwd := by
  refine ext_share (fun j ↦ ?_) (fun j ↦ ?_) fun j ↦ ?_
  · rw [loose_lose, loose_gain]
    simp only [token]
    omega
  · simp [token]
  · simp

theorem token_open_reader (record : FsRecord) (file : OpenFile) (hreader : file.writable = false) :
    ({ record with files := file :: record.files } : FsRecord).token =
      record.token.gain file.inum := by
  refine ext_share (fun j ↦ ?_) (fun j ↦ ?_) fun j ↦ ?_
  · rw [loose_gain]
    simp only [token, List.countP_cons, hreader, Bool.not_false, Bool.and_true,
      decide_eq_true_eq, eq_comm (a := file.inum)]
    omega
  · simp [token, List.countP_cons, hreader]
  · simp

theorem token_open_writer (record : FsRecord) (file : OpenFile) (hwriter : file.writable = true)
    (t : ℕ) :
    ({ record with files := file :: record.files } : FsRecord).token =
      ((record.token.gain file.inum).setLock file.inum (.loaded t)).keep file.inum := by
  refine ext_share (fun j ↦ ?_) (fun j ↦ ?_) fun j ↦ ?_
  · simp [token, List.countP_cons, hwriter]
  · rw [kept_keep, kept_setLock, kept_gain]
    simp only [token, List.countP_cons, hwriter, Bool.and_true, decide_eq_true_eq,
      eq_comm (a := file.inum)]
  · simp

theorem token_of_perm {other : FsRecord} (hcwd : other.cwd = record.cwd)
    (hperm : other.files.Perm record.files) : other.token = record.token := by
  unfold token
  rw [hcwd]
  funext i
  rw [hperm.countP_eq, hperm.countP_eq]

theorem token_close {fd : ℕ} (hfile : record.files[fd]? = some file) :
    ({ record with files := record.files.eraseIdx fd } : FsRecord).token =
      if file.writable then (record.token.unkeep file.inum).lose file.inum
      else record.token.lose file.inum := by
  obtain ⟨hfd, rfl⟩ := List.getElem?_eq_some_iff.mp hfile
  set closed : FsRecord := { record with files := record.files.eraseIdx fd }
  have hopen : ({ closed with files := record.files[fd] :: closed.files } : FsRecord).token =
      record.token := token_of_perm rfl (List.getElem_cons_eraseIdx_perm hfd)
  split
  · rename_i hwriter
    rw [← hopen, token_open_writer closed _ hwriter 0]
    refine ext_share (fun j ↦ ?_) (fun j ↦ ?_) fun j ↦ ?_
    · simp only [loose_lose, loose_unkeep, loose_keep, loose_setLock, loose_gain]
      omega
    · simp only [kept_lose, kept_unkeep, kept_keep, kept_setLock, kept_gain]
      omega
    · simp
  · rename_i hreader
    rw [← hopen, token_open_reader closed _ (Bool.eq_false_iff.mpr hreader), lose_gain]

end FsRecord

namespace FsProgram

variable {Pid : Type} [Fintype Pid] [DecidableEq Pid]
variable {sb : Superblock} {tokens : Pid → Token} {p : Pid} {token : Token} {i : ℕ}

section Requests

variable (hsb : sb.LaidOut)

include hsb

theorem leads_linkBad (ip : ℕ) : Reaches sb tokens p (linkBad ip) (token.gain ip) token := by
  refine leads_ilock_gain.bind ?_
  rintro _ _ ⟨hlock, t, rfl⟩
  exact (leads_removeLink (t := t) (by simp) hsb).then fun _ ↦ leads_iunlockput_gain hsb hlock t

theorem leads_linkEntry (dp ip : ℕ) (name : Name) : Reaches sb tokens p (do
      call (.ilock dp)
      if ← dirlink dp name ip then do
        iunlockput dp
        iput ip
      else do
        iunlockput dp
        linkBad ip) ((token.gain ip).gain dp) token := by
  refine leads_ilock_gain.bind ?_
  rintro _ _ ⟨hlock, t, rfl⟩
  refine (leads_dirlink (t := t) hsb (by simp) name (by simp [Share.refs])).then fun _ ↦ ?_
  refine ite (fun _ ↦ ?_) fun _ ↦ ?_
  · exact (leads_iunlockput_gain hsb hlock t).then fun _ ↦ leads_iput_gain hsb
  · exact (leads_iunlockput_gain hsb hlock t).then fun _ ↦ leads_linkBad hsb ip

variable {cwd dp ip t : ℕ}

theorem leads_sysLink (hcwd : 0 < (token cwd).refs) (old new : List UInt8) :
    Reaches sb tokens p (sysLink cwd old new) token token := by
  refine (leads_namei hsb hcwd old).bind ?_
  rintro found _ rfl
  cases found with
  | none => exact pure rfl
  | some ip =>
    refine leads_ilock_gain.bind ?_
    rintro _ _ ⟨hlock, t, rfl⟩
    refine (leads_peek (t := t) (by simp)).bind ?_
    rintro (d : Dinode) _ ⟨-, rfl⟩
    refine ite (fun _ ↦ leads_iunlockput_gain hsb hlock t) fun _ ↦ ?_
    refine (leads_addLink (t := t) (by simp) hsb).then fun _ ↦ ?_
    refine (leads_iunlock_gain hlock t).then fun _ ↦ ?_
    refine (leads_namex hsb (refs_gain hcwd ip) new true).bind ?_
    rintro parent _ rfl
    cases parent with
    | none => exact leads_linkBad hsb ip
    | some parent => exact leads_linkEntry hsb parent.1 ip parent.2

/-- A new inode has the type that it was allocated with when it is locked: the inode is free until
then, so that nobody has it in memory. -/
theorem leads_ialloc_ilock {Value : Type} {rest : ℕ → FsProgram Value} {post : Value → Token → Prop}
    (type : FileType) (hrest : ∀ i, (token i).lock = .unlocked →
      Leads sb tokens p (rest i) ((token.gain i).setLock i (.loaded type.code)) post) :
    Leads sb tokens p (do
      let i ← ialloc type
      call (.ilock i)
      rest i) token post := by
  intro fs hfs
  refine Program.Keeps.bind (Program.Keeps.bind ?_)
  refine ((hfs.allocInode_ends hsb type).allow fun _ ↦ Fault.Harmless.ne_freeing).mono ?_
  rintro i fs₁ ⟨hi, htype, hfs₁⟩
  refine ⟨hfs₁.disk, Program.Keeps.bind ?_⟩
  refine ((hfs₁.iget_ends p hi).allow fun _ ↦ Fault.Harmless.ne_freeing).mono ?_
  rintro _ fs₂ ⟨himage, hfs₂⟩
  refine ⟨hfs₂.disk, Program.Keeps.bind ?_⟩
  rw [update_self, update_idem] at hfs₂
  have hrefs : 0 < (update tokens p (token.gain i) p i).refs := by
    rw [update_self]
    simp [Share.refs]
  refine (hfs₂.ilock_ends hrefs).mono ?_
  rintro _ fs₃ ⟨hlock, -, hfs₃⟩
  rw [update_self, lock_gain] at hlock
  rw [update_self, update_idem, himage, htype] at hfs₃
  exact ⟨hfs₃.disk, hrest i hlock fs₃ hfs₃⟩

section Pair

variable {dp ip : ℕ} {t t' : ℕ} (hne : ip ≠ dp) (hdp : (token dp).lock = .unlocked)
  (hip : (token ip).lock = .unlocked)

include hne hdp

theorem leads_iunlockput_first :
    Reaches sb tokens p (iunlockput dp) ((((token.gain dp).setLock dp (.loaded t)).gain ip).setLock ip
      (.loaded t')) ((token.gain ip).setLock ip (.loaded t')) := by
  refine (leads_iunlockput hsb (by simp [hne.symm]) (by simp)).mono ?_
  rintro _ _ rfl
  exact release_first hne hdp

include hip

theorem leads_unlinkErase (e : ℕ) (isDir : Bool) :
    Reaches sb tokens p (unlinkErase dp ip (direntSize * e) isDir)
      ((((token.gain dp).setLock dp (.loaded t)).gain ip).setLock ip (.loaded t'))
      token := by
  have hlock : (((((token.gain dp).setLock dp (.loaded t)).gain ip).setLock ip (.loaded t')) dp).lock =
      .loaded t := by simp [hne.symm]
  have hrest : Reaches sb tokens p (do iunlockput dp; call (.removeLink ip); iunlockput ip)
      ((((token.gain dp).setLock dp (.loaded t)).gain ip).setLock ip (.loaded t'))
      token := by
    refine (leads_iunlockput_first hsb hne hdp).then fun _ ↦ ?_
    exact (leads_removeLink (t := t') (by simp) hsb).then fun _ ↦ leads_iunlockput_gain hsb hip t'
  refine (leads_eraseEntry hlock hsb e).then fun _ ↦ ?_
  refine ite (fun _ ↦ ?_) fun _ ↦ hrest
  exact (leads_removeLink hlock hsb).then fun _ ↦ hrest

theorem leads_unlinkInode (e : ℕ) : Reaches sb tokens p (unlinkInode dp ip (direntSize * e))
      ((((token.gain dp).setLock dp (.loaded t)).gain ip).setLock ip (.loaded t'))
      token := by
  have hfree : (((token.gain dp).setLock dp (.loaded t)) ip).lock = .unlocked := by
    simp [hne, hip]
  refine (leads_peek (t := t') (by simp)).bind ?_
  rintro (d : Dinode) _ ⟨-, rfl⟩
  refine ite (fun _ ↦ leads_panic (by decide)) fun _ ↦ ite (fun _ ↦ ?_) fun _ ↦ ?_
  · refine (leads_isdirempty (t := t') (by simp)).bind ?_
    intro (empty : Bool) _ htoken
    subst htoken
    refine ite (fun _ ↦ leads_unlinkErase hsb hne hdp hip e true) fun _ ↦ ?_
    exact (leads_iunlockput_gain hsb hfree t').then fun _ ↦ leads_iunlockput_gain hsb hdp t
  · exact leads_unlinkErase hsb hne hdp hip e false

end Pair

theorem leads_sysUnlink (hcwd : 0 < (token cwd).refs) (path : List UInt8) :
    Reaches sb tokens p (sysUnlink cwd path) token token := by
  refine (leads_namex hsb hcwd path true).bind ?_
  rintro parent _ rfl
  cases parent with
  | none => exact pure rfl
  | some parent =>
    obtain ⟨dp, name⟩ := parent
    refine leads_ilock_gain.bind ?_
    rintro _ _ ⟨hdp, t, rfl⟩
    refine ite (fun _ ↦ leads_iunlockput_gain hsb hdp t) fun _ ↦ ?_
    refine (leads_dirlookup (t := t) (by simp) name).bind ?_
    rintro answer _ ⟨rfl, hoff⟩
    cases answer with
    | none => exact leads_iunlockput_gain hsb hdp t
    | some found =>
      obtain ⟨ip, off⟩ := found
      obtain ⟨e, rfl⟩ := hoff ip off rfl
      refine leads_ilock_gain.bind ?_
      rintro _ _ ⟨hlock, t', rfl⟩
      obtain ⟨hne, hip⟩ := ne_of_lock hlock
      exact leads_unlinkInode hsb hne hdp hip e

theorem leads_createDots (hlock : (token ip).lock = .loaded t)
    (hip : 0 < (token ip).refs) (hdp : 0 < (token dp).refs) :
    Reaches sb tokens p (createDots dp ip) token token := by
  refine (leads_dirlink hsb hlock dotName hip).then fun _ ↦ ?_
  refine ite (fun _ ↦ ?_) fun _ ↦ leads_panic (by decide)
  exact (leads_dirlink hsb hlock dotdotName hdp).then fun _ ↦
    ite (fun _ ↦ pure rfl) fun _ ↦ leads_panic (by decide)

/-- A locked inode was found, or nothing; under the condition the inode is not a directory. -/
def Found (token : Token) (condition : Prop) : Option ℕ → Token → Prop
  | none, token' => token' = token
  | some ip, token' => (token ip).lock = .unlocked ∧ ∃ t,
      token' = (token.gain ip).setLock ip (.loaded t) ∧ (condition → t ≠ FileType.dir.code)

omit hsb in
theorem Found.imp {condition stronger : Prop} {found : Option ℕ} {token' : Token}
    (h : Found token condition found token') (hstronger : stronger → condition) :
    Found token stronger found token' := by
  cases found with
  | none => exact h
  | some ip =>
    obtain ⟨hip, t, htoken, ht⟩ := h
    exact ⟨hip, t, htoken, fun hcondition ↦ ht (hstronger hcondition)⟩

theorem leads_createEntry {t' : ℕ} {condition : Prop} (hne : ip ≠ dp)
    (hdp : (token dp).lock = .unlocked) (hip : (token ip).lock = .unlocked)
    (ht' : condition → t' ≠ FileType.dir.code) (name : Name) :
    Leads sb tokens p (createEntry dp ip name)
      ((((token.gain dp).setLock dp (.loaded t)).gain ip).setLock ip (.loaded t'))
      (Found token condition) := by
  refine (leads_dirlink (t := t) hsb (by simp [hne.symm]) name (by simp [Share.refs])).then fun _ ↦ ?_
  refine ite (fun _ ↦ ?_) fun _ ↦ ?_
  · exact (leads_iunlockput_first hsb hne hdp).then fun _ ↦ pure ⟨hip, t', rfl, ht'⟩
  · have hpanic : Leads sb tokens p (call (.panic "create: dirlink"))
        ((((token.gain dp).setLock dp (.loaded t)).gain ip).setLock ip (.loaded t'))
        (fun _ _ ↦ False) := leads_panic (by decide)
    exact hpanic.bind fun _ _ hfalse ↦ hfalse.elim

theorem leads_createNew (hdp : (token dp).lock = .unlocked) (name : Name)
    (type : FileType) (major minor : ℕ) :
    Leads sb tokens p (createNew dp name type major minor)
      ((token.gain dp).setLock dp (.loaded t)) (Found token (type = .file)) := by
  refine leads_ialloc_ilock hsb type fun ip hlock ↦ ?_
  obtain ⟨hne, hip⟩ := ne_of_lock hlock
  refine (leads_initInode (t := type.code) (by simp) hsb major minor).then fun _ ↦ ?_
  have hfile : type = .file → type.code ≠ FileType.dir.code := by
    rintro rfl
    decide
  refine ite (fun _ ↦ ?_) fun _ ↦ leads_createEntry hsb hne hdp hip hfile name
  refine (leads_addLink (t := t) (by simp [hne.symm]) hsb).then fun _ ↦ ?_
  refine (leads_createDots (t := type.code) hsb (by simp) (by simp [Share.refs])
    (by simp [Share.refs])).then fun _ ↦ ?_
  exact leads_createEntry hsb hne hdp hip hfile name

theorem leads_createExisting (hdp : (token dp).lock = .unlocked) (type : FileType) :
    Leads sb tokens p (createExisting dp ip type)
      (((token.gain dp).setLock dp (.loaded t)).gain ip) (Found token (type = .file)) := by
  refine (leads_iunlockput hsb (by simp) (by simp)).then fun _ ↦ ?_
  rw [release_gain_gain hdp]
  refine leads_ilock_gain.bind ?_
  rintro _ _ ⟨hip, t', rfl⟩
  refine (leads_peek (t := t') (by simp)).bind ?_
  rintro (d : Dinode) _ ⟨rfl, rfl⟩
  refine ite (fun hfile ↦ pure ⟨hip, _, rfl, fun _ ↦ ?_⟩) fun _ ↦ ?_
  · rw [hfile.2]
    decide
  · exact (leads_iunlockput_gain hsb hip _).then fun _ ↦ pure rfl

section

variable (hcwd : 0 < (token cwd).refs) (path : List UInt8)

include hcwd path

theorem leads_create (type : FileType) (major minor : ℕ) :
    Leads sb tokens p (create cwd path type major minor) token (Found token (type = .file)) := by
  refine (leads_namex hsb hcwd path true).bind ?_
  rintro parent _ rfl
  cases parent with
  | none => exact pure rfl
  | some parent =>
    obtain ⟨dp, name⟩ := parent
    refine leads_ilock_gain.bind ?_
    rintro _ _ ⟨hdp, t, rfl⟩
    refine (leads_dirlookup (t := t) (by simp) name).bind ?_
    rintro answer _ ⟨rfl, -⟩
    cases answer with
    | none => exact leads_createNew hsb hdp name type major minor
    | some found => exact leads_createExisting hsb hdp type

theorem leads_sysMake (type : FileType) (major minor : ℕ) :
    Reaches sb tokens p (sysMake cwd path type major minor) token token := by
  refine (leads_create hsb hcwd path type major minor).bind ?_
  rintro found token' hfound
  cases found with
  | none => exact pure hfound
  | some ip =>
    obtain ⟨hip, t, rfl, -⟩ := hfound
    exact leads_iunlockput_gain hsb hip t

theorem leads_openExisting (omode : ℕ) :
    Leads sb tokens p (openExisting cwd path omode) token (Found token (omode ≠ 0)) := by
  refine (leads_namei hsb hcwd path).bind ?_
  rintro found _ rfl
  cases found with
  | none => exact pure rfl
  | some ip =>
    refine leads_ilock_gain.bind ?_
    rintro _ _ ⟨hip, t, rfl⟩
    refine (leads_peek (t := t) (by simp)).bind ?_
    rintro (d : Dinode) _ ⟨rfl, rfl⟩
    refine ite (fun _ ↦ ?_) fun hopen ↦ pure ⟨hip, _, rfl, fun hmode hdir ↦ ?_⟩
    · exact (leads_iunlockput_gain hsb hip _).then fun _ ↦ pure rfl
    · exact hopen ⟨hdir, hmode⟩

end

variable {record : FsRecord}

theorem leads_openFile {omode : ℕ} (room : Bool) {found : Option ℕ}
    (hfound : Found record.token (omode ≠ 0) found token) :
    Leads sb tokens p (openFile record omode room found) token
      (fun record' token' ↦ token' = record'.token) := by
  cases found with
  | none => exact pure hfound
  | some ip =>
    obtain ⟨hip, t, rfl, ht⟩ := hfound
    refine ite (fun _ ↦ ?_) fun _ ↦ ?_
    · by_cases hwriter : omode &&& oWronly ≠ 0 ∨ omode &&& oRdwr ≠ 0
      · -- a mode with a bit for writing is not `O_RDONLY`
        have hmode : omode ≠ 0 := by
          rintro rfl
          simp at hwriter
        exact (leads_iunlock_keep (t := t) (by simp) (ht hmode) (by simp)).then fun _ ↦
          pure (FsRecord.token_open_writer record ⟨ip, _, _⟩ (decide_eq_true hwriter) t).symm
      · exact (leads_iunlock_gain hip t).then fun _ ↦
          pure (FsRecord.token_open_reader record ⟨ip, _, _⟩ (decide_eq_false hwriter)).symm
    · exact (leads_iunlockput_gain hsb hip t).then fun _ ↦ pure rfl

theorem leads_sysOpen (path : List UInt8) (omode : ℕ) (room : Bool) :
    Leads sb tokens p (sysOpen record path omode room) record.token
      (fun record' token' ↦ token' = record'.token) := by
  have hcwd : 0 < (record.token record.cwd).refs := Nat.add_pos_left FsRecord.token_cwd _
  refine ite (fun _ ↦ ?_) fun _ ↦ ?_
  · refine (leads_create hsb hcwd path .file 0 0).bind fun found token' hfound ↦ ?_
    exact leads_openFile hsb room (hfound.imp fun _ ↦ rfl)
  · refine (leads_openExisting hsb hcwd path omode).bind fun found token' hfound ↦ ?_
    exact leads_openFile hsb room hfound

theorem leads_sysChdir (path : List UInt8) : Leads sb tokens p (sysChdir record path) record.token
      (fun record' token' ↦ token' = record'.token) := by
  have hcwd : 0 < (record.token record.cwd).loose := FsRecord.token_cwd
  refine (leads_namei hsb (Nat.add_pos_left hcwd _) path).bind ?_
  rintro found _ rfl
  cases found with
  | none => exact pure rfl
  | some ip =>
    refine leads_ilock_gain.bind ?_
    rintro _ _ ⟨hip, t, rfl⟩
    refine (leads_peek (t := t) (by simp)).bind ?_
    rintro (d : Dinode) _ ⟨-, rfl⟩
    refine ite (fun _ ↦ ?_) fun _ ↦ ?_
    · exact (leads_iunlockput_gain hsb hip t).then fun _ ↦ pure rfl
    · refine (leads_iunlock_gain hip t).then fun _ ↦ ?_
      refine (leads_iput hsb (i := record.cwd) ?_).bind ?_
      · rw [loose_gain]
        omega
      rintro _ _ rfl
      exact pure (FsRecord.token_chdir ip).symm

theorem leads_sysClose (fd : ℕ) : Leads sb tokens p (sysClose record fd) record.token
      (fun record' token' ↦ token' = record'.token) := by
  unfold sysClose
  split
  · exact pure rfl
  · rename_i file hfile
    have hmem := List.mem_of_getElem? hfile
    have hclose := FsRecord.token_close hfile
    cases hwritable : file.writable with
    | true =>
      rw [hwritable, if_pos rfl] at hclose
      refine unkeep ?_ (FsRecord.token_kept hmem hwritable)
      exact (leads_iput hsb (by simp)).then fun _ ↦ pure hclose.symm
    | false =>
      rw [hwritable, if_neg Bool.false_ne_true] at hclose
      exact (leads_iput hsb (FsRecord.token_reader hmem hwritable)).then fun _ ↦ pure hclose.symm

omit hsb in
theorem leads_iunlock_same (hlock : (token i).lock = .unlocked) :
    Reaches sb tokens p (call (.iunlock i)) (token.setLock i (.loaded t)) token := by
  refine (leads_iunlock (by simp)).mono ?_
  rintro _ _ rfl
  rw [setLock_setLock, setLock_of_lock hlock]

omit hsb in
theorem leads_sysRead (fd off : ℕ) {n : ℕ} (hn : n < Word.size) :
    Reaches sb tokens p (sysRead record fd off n) record.token record.token := by
  unfold sysRead
  split
  · exact pure rfl
  · rename_i file hfile
    refine ite (fun _ ↦ ?_) fun _ ↦ pure rfl
    refine (leads_ilock (FsRecord.token_refs (List.mem_of_getElem? hfile))).bind ?_
    rintro _ _ ⟨hlock, t, -, rfl⟩
    exact (leads_readi (t := t) (by simp) off hn).then fun _ ↦ leads_iunlock_same hlock

theorem leads_sysWrite (fd : ℕ) (src : ℕ → UInt8) (off : ℕ) {n : ℕ} (hn : n < Word.size) :
    Reaches sb tokens p (sysWrite record fd src off n) record.token record.token := by
  unfold sysWrite
  split
  · exact pure rfl
  · rename_i file hfile
    have hmem := List.mem_of_getElem? hfile
    refine ite (fun hwritable ↦ ?_) fun _ ↦ pure rfl
    refine (leads_ilock (FsRecord.token_refs hmem)).bind ?_
    rintro _ _ ⟨hlock, t, ht, rfl⟩
    have hdir := ht (FsRecord.token_kept hmem hwritable)
    exact (leads_writei (t := t) (by simp) hsb src off hn hdir).then fun _ ↦ leads_iunlock_same hlock

theorem leads_sysDirlink (name : Name) (fd : ℕ) :
    Reaches sb tokens p (sysDirlink record name fd) record.token record.token := by
  unfold sysDirlink
  split
  · exact pure rfl
  · rename_i file hfile
    have hrefs := FsRecord.token_refs (List.mem_of_getElem? hfile)
    refine (leads_ilock (Nat.add_pos_left FsRecord.token_cwd _)).bind ?_
    rintro _ _ ⟨hlock, t, -, rfl⟩
    exact (leads_dirlink (t := t) hsb (by simp) name (by simpa [Share.refs] using hrefs)).then fun _ ↦
      leads_iunlock_same hlock

omit hsb in
theorem leads_return {program : FsProgram Unit}
    (h : Reaches sb tokens p program record.token record.token) :
    Leads sb tokens p (do program; return record) record.token
      (fun record' token' ↦ token' = record'.token) := by
  refine h.then fun _ ↦ ?_
  exact pure rfl

theorem leads_syscall (request : FsRequest) :
    Leads sb tokens p (syscall record request) record.token
      (fun record' token' ↦ token' = record'.token) := by
  have hcwd : 0 < (record.token record.cwd).refs := Nat.add_pos_left FsRecord.token_cwd _
  cases request with
  | «open» path omode room => exact leads_sysOpen hsb path omode room
  | mkdir path => exact leads_return (leads_sysMake hsb hcwd path .dir 0 0)
  | mknod path major minor => exact leads_return (leads_sysMake hsb hcwd path .dev major minor)
  | link old new => exact leads_return (leads_sysLink hsb hcwd old new)
  | unlink path => exact leads_return (leads_sysUnlink hsb hcwd path)
  | chdir path => exact leads_sysChdir hsb path
  | close fd => exact leads_sysClose hsb fd
  | read fd off n => exact leads_return (leads_sysRead fd off.toNat n.toNat_lt)
  | write fd src off n => exact leads_return (leads_sysWrite hsb fd src off.toNat n.toNat_lt)
  | dirlink name fd => exact leads_return (leads_sysDirlink hsb name fd)

end Requests

end FsProgram

namespace FsPool

variable {Pid : Type} [Fintype Pid] [DecidableEq Pid] {sb : Superblock}

omit [Fintype Pid] in
theorem tokens_update (records : Pid → FsRecord) (p : Pid) (record : FsRecord) :
    (fun q ↦ (update records p record q).token) =
      update (fun q ↦ (records q).token) p record.token := by
  funext q
  by_cases hq : q = p
  · rw [hq, update_self, update_self]
  · rw [update_of_ne hq, update_of_ne hq]

theorem syscall_keeps (hsb : sb.LaidOut) (records : Pid → FsRecord) (p : Pid) (request : FsRequest)
    (fs : FileSys Pid) (h : Disciplined sb fs fun q ↦ (records q).token) :
    (FsProgram.syscall (records p) request).Keeps (FileSys.perform sb p)
      (fun fs ↦ (fs.image sb).Consistent sb) (fun fault ↦ fault ≠ .panic "freeing free block")
      (fun record fs' ↦ Disciplined sb fs' fun q ↦ (update records p record q).token)
      fs := by
  have hself := update_eq_self p fun q ↦ (records q).token
  refine (FsProgram.leads_syscall hsb request fs (hself.symm ▸ h)).mono ?_
  rintro record fs' ⟨_, rfl, hfs'⟩
  rwa [tokens_update]

theorem turn_of_runs [Nonempty Pid] (hsb : sb.LaidOut) {start finish : FsPool Pid}
    {records : Pid → FsRecord} (hidle : start.Idle records)
    (hstart : Disciplined sb start.store fun p ↦ (records p).token)
    (hrun : Runs (FsPool.step sb) Pool.InTurn start finish) :
    ∃ records p, finish.Turn (FileSys.perform sb) (fun fs ↦ (fs.image sb).Consistent sb)
      (fun fault ↦ fault ≠ .panic "freeing free block")
      (fun fs records ↦ Disciplined sb fs fun q ↦ (records q).token) records p := by
  refine Pool.Turn.run (fun records p request fs _ ↦ syscall_keeps hsb records p request fs) ?_ hrun
  obtain ⟨p⟩ := ‹Nonempty Pid›
  refine ⟨records, p, fun q _ ↦ hidle q, hstart.disk, ?_⟩
  rw [hidle p]
  change Disciplined _ _ _
  rwa [update_eq_self]

/-- The disk is consistent in every state of a run, and freeing a block cannot fail. -/
theorem consistent_of_runs (hsb : sb.LaidOut) {start finish : FsPool Pid} {records : Pid → FsRecord}
    (hidle : start.Idle records) (hstart : Disciplined sb start.store fun p ↦ (records p).token)
    (hrun : Runs (FsPool.step sb) Pool.InTurn start finish) :
    (finish.store.image sb).Consistent sb ∧ ∀ label fault, finish.InTurn label →
      FsPool.step sb finish label = .error fault → fault ≠ .panic "freeing free block" := by
  cases isEmpty_or_nonempty Pid with
  | inl hempty =>
    refine ⟨?_, fun label ↦ hempty.elim label.pid⟩
    exact hrun.invariant (fun pool ↦ (pool.store.image sb).Consistent sb) hstart.disk
      fun _ label _ _ _ _ _ ↦ hempty.elim label.pid
  | inr hsome =>
    obtain ⟨_, _, hturn⟩ := turn_of_runs hsb hidle hstart hrun
    refine ⟨hturn.holds, fun label fault hlabel herror ↦ ?_⟩
    obtain ⟨_, hturn'⟩ := hturn.pass hlabel
    rcases hturn'.error herror with rfl | hfault
    · decide
    · exact hfault

/-- In every state of a run of system calls, one after the other, a block is marked in the free map
if and only if it is metadata or an inode refers to it, and then one allocated inode does, in one
place. Freeing a block that is free cannot happen. -/
theorem blocks_owned_of_runs (hsb : sb.LaidOut) {start finish : FsPool Pid}
    {records : Pid → FsRecord} (hidle : start.Idle records)
    (hstart : Disciplined sb start.store fun p ↦ (records p).token)
    (hrun : Runs (FsPool.step sb) Pool.InTurn start finish) :
    (∀ b < sb.size, (finish.store.image sb).used b = true ↔
      b < sb.dataStart ∨ ∃ i k, (finish.store.image sb).owner (i, k) = some b) ∧
    (∀ i k b, (finish.store.image sb).owner (i, k) = some b →
      sb.IsData b ∧ i < sb.ninodes ∧ ((finish.store.image sb).dinode i).type ≠ 0 ∧
        ∀ j l, (finish.store.image sb).owner (j, l) = some b → j = i ∧ l = k) ∧
    ∀ label fault, finish.InTurn label → FsPool.step sb finish label = .error fault →
      fault ≠ .panic "freeing free block" := by
  obtain ⟨hcons, herror⟩ := consistent_of_runs hsb hidle hstart hrun
  have hholdings := hcons.sound.holdings
  refine ⟨fun b hb ↦ ?_, fun i k b howner ↦ ?_, herror⟩
  · by_cases hdata : b < sb.dataStart
    · exact iff_of_true (hcons.sound.metadata b hdata hb) (Or.inl hdata)
    · rw [hholdings.exact b ⟨not_lt.mp hdata, hb⟩]
      simp [hdata]
  · have hallocated : ((finish.store.image sb).dinode i).type ≠ 0 := by
      intro hfree
      rw [Image.owner, held_of_free hfree] at howner
      cases howner
    have hi : i < sb.ninodes := by
      by_contra hbeyond
      exact hallocated (congrArg type (if_neg hbeyond))
    refine ⟨hholdings.inside _ b howner, hi, hallocated, fun j l hother ↦ ?_⟩
    exact Prod.mk.inj (hholdings.apart _ _ b hother howner)

/-- System calls leave no reference and no lock behind: whenever all processes are idle, the count
of an inode is the number of current directories and open files that refer to it, and nobody has it
locked. -/
theorem references_exact_of_runs [Nonempty Pid] (hsb : sb.LaidOut) {start finish : FsPool Pid}
    {records records' : Pid → FsRecord} (hidle : start.Idle records)
    (hstart : Disciplined sb start.store fun p ↦ (records p).token)
    (hrun : Runs (FsPool.step sb) Pool.InTurn start finish) (hfinish : finish.Idle records')
    (i : ℕ) :
    (finish.store.inode i).ref = ∑ p, ((records' p).token i).refs ∧
    (finish.store.inode i).holder = none ∧
    (0 < (finish.store.inode i).ref → (finish.store.inode i).valid = true →
      (finish.store.inode i).copy = (finish.store.image sb).dinode i ∧
        ((finish.store.image sb).dinode i).type ≠ 0) := by
  obtain ⟨locals, p, hturn⟩ := turn_of_runs hsb hidle hstart hrun
  have hlocals : update locals p (records' p) = records' := by
    refine update_eq_iff.mpr ⟨rfl, fun q hq ↦ ?_⟩
    exact Program.done.inj ((hturn.others q hq).symm.trans (hfinish q))
  have hkeeps := hturn.keeps
  rw [hfinish p] at hkeeps
  change Disciplined sb finish.store fun q ↦ (update locals p (records' p) q).token at hkeeps
  rw [hlocals] at hkeeps
  have hheld := hkeeps.account i
  refine ⟨hheld.refs, ?_, hheld.synced⟩
  exact Option.eq_none_iff_forall_ne_some.mpr fun q hq ↦ (hheld.holder q).mp hq rfl

def treeSuperblock : Superblock where
  size := 10
  nblocks := 6
  ninodes := 4
  nlog := 0
  logstart := 2
  inodestart := 2
  bmapstart := 3

def dirBlock (entries : List (ℕ × Name)) : Block := fun t ↦
  match entries[t / direntSize]? with
  | some (inum, name) => Dirent.bytes ⟨inum, name⟩ (t % direntSize)
  | none => 0

/-- A directory with one block. -/
def dirDinode (nlink size block : ℕ) : Dinode where
  type := FileType.dir.code
  major := 0
  minor := 0
  nlink := nlink
  size := size
  addrs := fun k ↦ if k = 0 then block else 0

/-- The root directory 1 with a directory `a`, which is 2, and in it a directory `b`, which is 3. -/
def treeDinode (i : ℕ) : Dinode :=
  if i = 3 then dirDinode 1 32 6 else dirDinode 2 48 (i + 3)

def treeDisk : Disk := fun b ↦
  if b = 2 then
    (treeDinode 3).store ((treeDinode 2).store ((treeDinode 1).store Block.zero 1) 2) 3
  else if b = 3 then
    ((((((Block.zero.setBit 0).setBit 1).setBit 2).setBit 3).setBit 4).setBit 5).setBit 6
  else if b = 4 then dirBlock [(1, dotName), (1, dotdotName), (2, Name.ofList [97])]
  else if b = 5 then dirBlock [(2, dotName), (1, dotdotName), (3, Name.ofList [98])]
  else if b = 6 then dirBlock [(3, dotName), (2, dotdotName)]
  else Block.zero

/-- One process is in the root directory, and the other one in `/a/b`. -/
def treeRecord (p : Bool) : FsRecord := ⟨if p then 1 else 3, []⟩

def tree : FsPool Bool where
  store := ⟨treeDisk, fun i ↦ ⟨if i = 1 ∨ i = 3 then 1 else 0, none, false, fresh 0⟩, []⟩
  process := fun p ↦ .done (treeRecord p)

theorem treeSuperblock_laidOut : treeSuperblock.LaidOut :=
  ⟨by decide, by decide, by decide, by decide⟩

theorem dirDinode_inRange {nlink size block : ℕ} (hnlink : nlink < 65536) (hsize : size < Word.size)
    (hblock : block < Word.size) : (dirDinode nlink size block).InRange := by
  refine ⟨Nat.one_lt_succ_succ _, Nat.zero_lt_succ _, Nat.zero_lt_succ _, hnlink, hsize,
    fun k ↦ ?_, fun k hk ↦ ?_⟩
  · unfold dirDinode
    dsimp only
    split
    · exact hblock
    · decide
  · exact if_neg (Nat.ne_of_gt (Nat.zero_lt_of_lt hk))

theorem dirDinode_held {nlink size block : ℕ} (hblock : block ≠ 0) (data : ℕ → Block) (k : ℕ) :
    (dirDinode nlink size block).held data k = if k = 0 then some block else none := by
  rw [held_of_allocated (Nat.succ_ne_zero 0)]
  by_cases hk : k ≤ nDirect
  · rw [slot_of_le hk]
    change address (if k = 0 then block else 0) = _
    split
    · exact address_of_ne hblock
    · rfl
  · have hzero : k ≠ 0 := fun hzero ↦ hk (hzero ▸ Nat.zero_le _)
    have hnone : (dirDinode nlink size block).addrs nDirect = 0 := rfl
    rw [slot, if_neg hk, if_pos (Or.inl hnone), if_neg hzero]

theorem tree_dinode (i : ℕ) : (tree.store.image treeSuperblock).dinode i =
    if 1 ≤ i ∧ i ≤ 3 then treeDinode i else fresh 0 := by
  have hrange : (treeDinode 1).InRange ∧ (treeDinode 2).InRange ∧ (treeDinode 3).InRange :=
    ⟨dirDinode_inRange (by decide) (by decide) (by decide),
      dirDinode_inRange (by decide) (by decide) (by decide),
      dirDinode_inRange (by decide) (by decide) (by decide)⟩
  have hread : read (treeDisk 2) i = if i = 3 then treeDinode 3
      else if i = 2 then treeDinode 2 else if i = 1 then treeDinode 1 else fresh 0 := by
    refine (read_store hrange.2.2 _ _ _).trans ?_
    rw [read_store hrange.2.1, read_store hrange.1, read_zero]
  rw [FileSys.image_dinode_one (by decide), show tree.store.disk treeSuperblock.inodestart =
    treeDisk 2 from rfl, hread]
  change (if i < 4 then _ else _) = _
  split_ifs <;> first | rfl | omega | simp_all

theorem tree_owner (key : ℕ × ℕ) : (tree.store.image treeSuperblock).owner key =
    if 1 ≤ key.1 ∧ key.1 ≤ 3 ∧ key.2 = 0 then some (key.1 + 3) else none := by
  rw [Image.owner, tree_dinode]
  by_cases hi : 1 ≤ key.1 ∧ key.1 ≤ 3
  · rw [if_pos hi, treeDinode]
    split
    · rw [dirDinode_held (by decide)]
      simp_all
    · rw [dirDinode_held (by omega)]
      simp [hi]
  · rw [if_neg hi, held_fresh, if_neg fun h ↦ hi ⟨h.1, h.2.1⟩]

theorem tree_used : ∀ b < 10, (tree.store.image treeSuperblock).used b = decide (b < 7) := by
  decide +kernel

theorem tree_entries : ∀ d < 4, ∀ e < 3,
    ((tree.store.image treeSuperblock).entry d e).inum < treeSuperblock.ninodes := by
  decide +kernel

theorem tree_consistent : (tree.store.image treeSuperblock).Consistent treeSuperblock := by
  have howner {key : ℕ × ℕ} {b : ℕ} (h : (tree.store.image treeSuperblock).owner key = some b) :
      (1 ≤ key.1 ∧ key.1 ≤ 3 ∧ key.2 = 0) ∧ key.1 + 3 = b := by
    rw [tree_owner] at h
    split at h
    · exact ⟨‹_›, Option.some.inj h⟩
    · cases h
  have hallocated {i : ℕ} (h : ((tree.store.image treeSuperblock).dinode i).type ≠ 0) :
      (1 ≤ i ∧ i ≤ 3) ∧ ((tree.store.image treeSuperblock).dinode i).size ≤ 48 := by
    rw [tree_dinode] at h ⊢
    split at h
    · rename_i hi
      rw [if_pos hi, treeDinode]
      refine ⟨hi, ?_⟩
      split
      · exact (by decide : 32 ≤ 48)
      · exact le_refl 48
    · exact absurd rfl h
  refine ⟨⟨⟨?_, ?_, ?_, ?_, List.nodup_nil⟩, ?_⟩, ?_, ?_, ?_⟩
  · intro key b hkey
    obtain ⟨hi, rfl⟩ := howner hkey
    change 4 ≤ key.1 + 3 ∧ key.1 + 3 < 10
    omega
  · intro key other b hkey hother
    obtain ⟨hi, hb⟩ := howner hkey
    obtain ⟨hj, hb'⟩ := howner hother
    exact Prod.ext (by omega) (by omega)
  · rintro b ⟨hstart, hsize⟩
    change 4 ≤ b at hstart
    rw [tree_used b hsize, decide_eq_true_eq]
    constructor
    · intro hb
      refine Or.inl ⟨(b - 3, 0), ?_⟩
      rw [tree_owner, if_pos (by dsimp only; omega)]
      congr 1
      omega
    · rintro (⟨key, hkey⟩ | hmem)
      · have := (howner hkey).2
        have := (howner hkey).1
        omega
      · cases hmem
  · intro b hb
    cases hb
  · intro b hb hsize
    change b < 4 at hb
    rw [tree_used b hsize, decide_eq_true_eq]
    omega
  · intro i hi
    exact (hallocated hi).2.trans (by decide)
  · intro i hi t ht
    obtain ⟨hrange, hsize⟩ := hallocated hi
    have hzero : t / bsize = 0 := Nat.div_eq_of_lt ((ht.trans_le hsize).trans (by decide))
    refine ⟨i + 3, ?_⟩
    rw [hzero, tree_owner, if_pos ⟨hrange.1, hrange.2, rfl⟩]
  · intro d e hdir hwithin
    obtain ⟨hrange, hsize⟩ := hallocated (i := d) (by rw [hdir]; decide)
    unfold direntSize at hwithin
    exact tree_entries d (by omega) e (by omega)

theorem tree_disciplined : Disciplined treeSuperblock tree.store fun p ↦ (treeRecord p).token := by
  refine ⟨tree_consistent, fun i ↦ ⟨?_, fun hpos ↦ ?_, fun p ↦ ?_, fun p hlock ↦ absurd rfl hlock,
    fun _ hvalid ↦ ?_, fun p t hlock ↦ ?_, fun p hlock ↦ ?_, fun p hkept ↦ ?_⟩⟩
  · rw [Fintype.sum_bool]
    change (if i = 1 ∨ i = 3 then 1 else 0) =
      ((if i = 1 then 1 else 0) + 0 + 0) + ((if i = 3 then 1 else 0) + 0 + 0)
    split_ifs <;> omega
  · change 0 < if i = 1 ∨ i = 3 then 1 else 0 at hpos
    change i < 4
    split at hpos <;> omega
  · simp [tree]
  · cases hvalid
  · cases hlock
  · cases hlock
  · cases hkept

/-- The check that the other one of two processes is idle. -/
def otherIdle (pool : FsPool Bool) (label : PoolLabel Bool FsRequest) : Bool :=
  match pool.process (!label.pid) with
  | .done _ => true
  | .call _ _ => false

theorem inTurn_of_otherIdle {pool : FsPool Bool} {label : PoolLabel Bool FsRequest}
    (h : otherIdle pool label = true) : pool.InTurn label := by
  intro q hq
  have hother : q = !label.pid := by
    cases q <;> cases hpid : label.pid <;> simp_all
  unfold otherIdle at h
  rw [hother]
  split at h
  · exact ⟨_, ‹_›⟩
  · cases h

/-- A process in the root directory removes `a/b`, in which the other process is. -/
theorem blocks_owned_of_runs_unlink : ∃ finish : FsPool Bool,
    Runs (FsPool.step treeSuperblock) Pool.InTurn tree finish ∧
    (finish.store.image treeSuperblock).used 6 = true ∧
    (∀ b < treeSuperblock.size, (finish.store.image treeSuperblock).used b = true ↔
      b < treeSuperblock.dataStart ∨
        ∃ i k, (finish.store.image treeSuperblock).owner (i, k) = some b) ∧
    (∀ i k b, (finish.store.image treeSuperblock).owner (i, k) = some b →
      treeSuperblock.IsData b ∧ i < treeSuperblock.ninodes ∧
        ((finish.store.image treeSuperblock).dinode i).type ≠ 0 ∧
        ∀ j l, (finish.store.image treeSuperblock).owner (j, l) = some b → j = i ∧ l = k) ∧
    ∀ label fault, finish.InTurn label → FsPool.step treeSuperblock finish label = .error fault →
      fault ≠ .panic "freeing free block" := by
  have hreplay : (replay (FsPool.step treeSuperblock) otherIdle tree
      (.start true (.unlink [97, 47, 98]) :: List.replicate 32 (.advance true))).any
      (fun pool ↦ (pool.store.image treeSuperblock).used 6) = true := by
    decide +kernel
  obtain ⟨finish, hrun, hused⟩ := Runs.of_replay (fun _ _ ↦ inTurn_of_otherIdle) hreplay
  exact ⟨finish, hrun, hused,
    blocks_owned_of_runs treeSuperblock_laidOut (fun _ ↦ rfl) tree_disciplined hrun⟩

/-- A process goes from the root directory to `a`. -/
theorem references_exact_of_runs_chdir : ∃ (finish : FsPool Bool) (records' : Bool → FsRecord),
    Runs (FsPool.step treeSuperblock) Pool.InTurn tree finish ∧ finish.Idle records' ∧
    ∀ i, (finish.store.inode i).ref = ∑ p, ((records' p).token i).refs := by
  have hreplay : (replay (FsPool.step treeSuperblock) otherIdle tree
      (.start true (.chdir [97]) :: List.replicate 17 (.advance true))).any
      (fun pool ↦ otherIdle pool (.advance false) && otherIdle pool (.advance true)) = true := by
    decide +kernel
  obtain ⟨finish, hrun, hdone⟩ := Runs.of_replay (fun _ _ ↦ inTurn_of_otherIdle) hreplay
  rw [Bool.and_eq_true] at hdone
  have hidle (p : Bool) : ∃ record, finish.process p = .done record := by
    cases p with
    | true => exact inTurn_of_otherIdle hdone.1 true Bool.noConfusion
    | false => exact inTurn_of_otherIdle hdone.2 false Bool.noConfusion
  choose records' hidle using hidle
  exact ⟨finish, records', hrun, hidle, fun i ↦ (references_exact_of_runs treeSuperblock_laidOut
    (fun _ ↦ rfl) tree_disciplined hrun hidle i).1⟩

end FsPool

end Xv6Shm
