import Xv6Shm.Fs.Discipline
import Xv6Shm.Lib.Turns

/-!
# References and locks in programs

What a program does with references and locks, when no other process moves: a rule for each call,
and with these rules for `iput`, for the operations on directories and for the resolution of paths.
A path leads to a reference to the inode that it names, and to nothing else.
-/

namespace Xv6Shm

open Function Token Fault

namespace Token

variable {token : Token} {i j : ℕ} {hold : Hold}

theorem ext_share {other : Token} (hloose : ∀ j, (token j).loose = (other j).loose)
    (hkept : ∀ j, (token j).kept = (other j).kept)
    (hlock : ∀ j, (token j).lock = (other j).lock) : token = other := by
  funext j
  cases htoken : token j
  cases hother : other j
  have hl := hloose j
  have hk := hkept j
  have hh := hlock j
  rw [htoken, hother] at hl hk hh
  exact congr (congrArg₂ Share.mk hl hk) hh

@[simp] theorem loose_gain : (token.gain i j).loose = (token j).loose + if j = i then 1 else 0 := by
  by_cases hj : j = i <;> simp [gain, hj]

@[simp] theorem kept_gain : (token.gain i j).kept = (token j).kept := by
  by_cases hj : j = i <;> simp [gain, hj]

@[simp] theorem lock_gain : (token.gain i j).lock = (token j).lock := by
  by_cases hj : j = i <;> simp [gain, hj]

@[simp] theorem loose_lose : (token.lose i j).loose = (token j).loose - if j = i then 1 else 0 := by
  by_cases hj : j = i <;> simp [lose, hj]

@[simp] theorem kept_lose : (token.lose i j).kept = (token j).kept := by
  by_cases hj : j = i <;> simp [lose, hj]

@[simp] theorem lock_lose : (token.lose i j).lock = (token j).lock := by
  by_cases hj : j = i <;> simp [lose, hj]

@[simp] theorem loose_setLock : (token.setLock i hold j).loose = (token j).loose := by
  by_cases hj : j = i <;> simp [setLock, hj]

@[simp] theorem kept_setLock : (token.setLock i hold j).kept = (token j).kept := by
  by_cases hj : j = i <;> simp [setLock, hj]

@[simp] theorem lock_setLock :
    (token.setLock i hold j).lock = if j = i then hold else (token j).lock := by
  by_cases hj : j = i <;> simp [setLock, hj]

@[simp] theorem loose_keep : (token.keep i j).loose = (token j).loose - if j = i then 1 else 0 := by
  by_cases hj : j = i <;> simp [keep, hj]

@[simp] theorem kept_keep : (token.keep i j).kept = (token j).kept + if j = i then 1 else 0 := by
  by_cases hj : j = i <;> simp [keep, hj]

@[simp] theorem lock_keep :
    (token.keep i j).lock = if j = i then .unlocked else (token j).lock := by
  by_cases hj : j = i <;> simp [keep, hj]

@[simp] theorem loose_unkeep :
    (token.unkeep i j).loose = (token j).loose + if j = i then 1 else 0 := by
  by_cases hj : j = i <;> simp [unkeep, hj]

@[simp] theorem kept_unkeep :
    (token.unkeep i j).kept = (token j).kept - if j = i then 1 else 0 := by
  by_cases hj : j = i <;> simp [unkeep, hj]

@[simp] theorem lock_unkeep : (token.unkeep i j).lock = (token j).lock := by
  by_cases hj : j = i <;> simp [unkeep, hj]

/-- Give the lock and a reference back. -/
def release (token : Token) (i : ℕ) : Token := (token.setLock i .unlocked).lose i

/-- A reference to the inode that was found, if there is one. -/
def grant (token : Token) (found : Option ℕ) : Token := found.elim token token.gain

theorem setLock_of_lock (h : (token i).lock = hold) : token.setLock i hold = token := by
  refine ext_share (by simp) (by simp) fun j ↦ ?_
  by_cases hj : j = i <;> simp [hj, h]

@[simp] theorem setLock_setLock (other : Hold) :
    (token.setLock i other).setLock i hold = token.setLock i hold := by
  refine ext_share (by simp) (by simp) fun j ↦ ?_
  by_cases hj : j = i <;> simp [hj]

@[simp] theorem lose_gain : (token.gain i).lose i = token :=
  ext_share (by simp) (by simp) (by simp)

theorem refs_gain (h : 0 < (token j).refs) (i : ℕ) : 0 < (token.gain i j).refs := by
  unfold Share.refs at h ⊢
  rw [loose_gain, kept_gain]
  omega

theorem release_gain (h : (token i).lock = .unlocked) (hold : Hold) :
    ((token.gain i).setLock i hold).release i = token := by
  rw [release, setLock_setLock, setLock_of_lock (by rw [lock_gain, h]), lose_gain]

theorem release_gain_gain (h : (token i).lock = .unlocked) (hold : Hold) :
    (((token.gain i).setLock i hold).gain j).release i = token.gain j := by
  unfold release
  refine ext_share (fun k ↦ ?_) (by simp) fun k ↦ ?_
  · simp only [loose_lose, loose_setLock, loose_gain]
    omega
  · simp only [lock_lose, lock_setLock, lock_gain]
    split <;> simp_all

theorem release_first {hold hold' : Hold} (hne : j ≠ i) (h : (token i).lock = .unlocked) :
    ((((token.gain i).setLock i hold).gain j).setLock j hold').release i =
      (token.gain j).setLock j hold' := by
  unfold release
  refine ext_share (fun k ↦ ?_) (by simp) fun k ↦ ?_
  · simp only [loose_lose, loose_setLock, loose_gain]
    omega
  · simp only [lock_lose, lock_setLock, lock_gain]
    by_cases hk : k = i
    · subst hk
      simp [hne.symm, h]
    · simp [hk]

theorem ne_of_lock {t : ℕ} (h : (((token.gain i).setLock i (.loaded t)) j).lock = .unlocked) :
    j ≠ i ∧ (token j).lock = .unlocked := by
  rw [lock_setLock] at h
  split at h
  · cases h
  · rename_i hne
    exact ⟨hne, lock_gain.symm.trans h⟩

end Token

section Leads

variable {Pid : Type} [Fintype Pid] [DecidableEq Pid]

/-- With the token the program, run alone, keeps the disk consistent from call to call, and it ends
with another token. -/
def Leads (sb : Superblock) (tokens : Pid → Token) (p : Pid) {Value : Type}
    (program : FsProgram Value) (token : Token) (post : Value → Token → Prop) : Prop :=
  ∀ fs, Disciplined sb fs (update tokens p token) →
    program.Keeps (FileSys.perform sb p) (fun fs ↦ (fs.image sb).Consistent sb)
      (fun fault ↦ fault ≠ .panic "freeing free block")
      (fun value fs' ↦ ∃ token', post value token' ∧ Disciplined sb fs' (update tokens p token')) fs

variable {sb : Superblock} {tokens : Pid → Token} {p : Pid} {Value Result : Type} {token : Token}

variable {program : FsProgram Value} {post : Value → Token → Prop}

theorem Leads.mono {weaker : Value → Token → Prop} (h : Leads sb tokens p program token post)
    (hweaker : ∀ value token', post value token' → weaker value token') :
    Leads sb tokens p program token weaker := by
  intro fs hfs
  refine (h fs hfs).mono ?_
  rintro value fs' ⟨token', hpost, hfs'⟩
  exact ⟨token', hweaker value token' hpost, hfs'⟩

theorem Leads.bind {next : Value → FsProgram Result} {mid : Value → Token → Prop}
    {post : Result → Token → Prop} (h : Leads sb tokens p program token mid)
    (hnext : ∀ value token', mid value token' → Leads sb tokens p (next value) token' post) :
    Leads sb tokens p (program >>= next) token post := by
  intro fs hfs
  refine Program.Keeps.bind ((h fs hfs).mono ?_)
  rintro value fs' ⟨token', hmid, hfs'⟩
  exact hnext value token' hmid fs' hfs'

theorem Leads.pure {value : Value} (h : post value token) :
    Leads sb tokens p (Pure.pure value) token post := fun _ hfs ↦ ⟨token, h, hfs⟩

theorem Leads.ite {condition : Prop} [Decidable condition] {first second : FsProgram Value}
    (hfirst : condition → Leads sb tokens p first token post)
    (hsecond : ¬ condition → Leads sb tokens p second token post) :
    Leads sb tokens p (if condition then first else second) token post := by
  split
  · exact hfirst ‹_›
  · exact hsecond ‹_›

/-- The program ends with this token. -/
abbrev Reaches (sb : Superblock) (tokens : Pid → Token) (p : Pid) {Value : Type}
    (program : FsProgram Value) (token target : Token) : Prop :=
  Leads sb tokens p program token fun _ token' ↦ token' = target

theorem Reaches.then {target : Token} {next : Value → FsProgram Result}
    {post : Result → Token → Prop} (h : Reaches sb tokens p program token target)
    (hnext : ∀ value, Leads sb tokens p (next value) target post) :
    Leads sb tokens p (program >>= next) token post :=
  h.bind fun value _ htoken ↦ htoken ▸ hnext value

theorem Leads.unkeep {i : ℕ}
    (h : Leads sb tokens p program (token.unkeep i) post) (hkept : 0 < (token i).kept) :
    Leads sb tokens p program token post := by
  intro fs hfs
  apply h
  have hless := hfs.unkeep (p := p) (i := i) (by rwa [update_self])
  rwa [update_self, update_idem] at hless

end Leads

theorem Dinode.InRange.setNlink {d : Dinode} (h : d.InRange) {n : ℕ} (hn : n < 65536) :
    ({ d with nlink := n } : Dinode).InRange := { h with nlink := hn }

theorem Fault.Harmless.ne_freeing {fault : Fault} (h : fault.Harmless) :
    fault ≠ .panic "freeing free block" := h.1

namespace FsProgram

variable {Pid : Type} [Fintype Pid] [DecidableEq Pid]
variable {sb : Superblock} {tokens : Pid → Token} {p : Pid} {token : Token} {i : ℕ}

variable {op : FsCall} {allowed : Fault → Prop}

theorem leads_call {post : FsAnswer op → Token → Prop}
    (hallowed : ∀ fault, allowed fault → fault ≠ .panic "freeing free block")
    (h : ∀ fs tokens', Disciplined sb fs tokens' → tokens' p = token →
      Ends allowed (fun answer fs' ↦ ∃ token', post answer token' ∧
        Disciplined sb fs' (update tokens' p token')) (FileSys.perform sb p op fs)) :
    Leads sb tokens p (call op) token post := by
  intro fs hfs
  refine ((h fs _ hfs (update_self _ _ _)).allow hallowed).mono ?_
  rintro answer fs' ⟨token', hpost, hfs'⟩
  rw [update_idem] at hfs'
  exact ⟨hfs'.disk, token', hpost, hfs'⟩

theorem leads_move {target : Token}
    (hallowed : ∀ fault, allowed fault → fault ≠ .panic "freeing free block")
    (h : ∀ fs tokens', Disciplined sb fs tokens' → tokens' p = token →
      Ends allowed (fun _ fs' ↦ Disciplined sb fs' (update tokens' p target))
        (FileSys.perform sb p op fs)) :
    Reaches sb tokens p (call op) token target := by
  refine leads_call hallowed fun fs tokens' hfs htoken ↦ ?_
  exact (h fs tokens' hfs htoken).mono fun _ _ hfs' ↦ ⟨target, rfl, hfs'⟩

theorem leads_iget (hi : i < sb.ninodes) :
    Reaches sb tokens p (call (.iget i)) token (token.gain i) := by
  refine leads_move (fun _ ↦ Harmless.ne_freeing) fun fs tokens' hfs htoken ↦ ?_
  exact (hfs.iget_ends p hi).mono fun _ _ hfs' ↦ htoken ▸ hfs'.2

theorem leads_idup (hrefs : 0 < (token i).refs) :
    Reaches sb tokens p (call (.idup i)) token (token.gain i) := by
  refine leads_move (fun _ ↦ id) fun fs tokens' hfs htoken ↦ ?_
  exact htoken ▸ hfs.idup_ends (htoken ▸ hrefs)

theorem leads_drop (hloose : 0 < (token i).loose) (hlock : (token i).lock = .unlocked) :
    Reaches sb tokens p (call (.drop i)) token (token.lose i) := by
  refine leads_move (fun _ ↦ id) fun fs tokens' hfs htoken ↦ ?_
  exact htoken ▸ hfs.drop_ends (htoken ▸ hloose) (htoken ▸ hlock)

theorem leads_acquiresleep (hrefs : 0 < (token i).refs) :
    Leads sb tokens p (call (.acquiresleep i)) token (fun _ token' ↦
      (token i).lock = .unlocked ∧ token' = token.setLock i .acquired) := by
  refine leads_call (fun _ ↦ Harmless.ne_freeing) fun fs tokens' hfs htoken ↦ ?_
  refine (hfs.acquiresleep_ends (htoken ▸ hrefs)).mono ?_
  rintro _ fs' ⟨hlock, hfs'⟩
  exact ⟨_, ⟨htoken ▸ hlock, rfl⟩, htoken ▸ hfs'⟩

theorem leads_releasesleep (hlock : (token i).lock ≠ .unlocked) :
    Reaches sb tokens p (call (.releasesleep i)) token (token.setLock i .unlocked) := by
  refine leads_move (fun _ ↦ id) fun fs tokens' hfs htoken ↦ ?_
  exact htoken ▸ hfs.releasesleep_ends (htoken ▸ hlock)

theorem leads_iunlock (hlock : (token i).lock ≠ .unlocked) :
    Reaches sb tokens p (call (.iunlock i)) token (token.setLock i .unlocked) := by
  refine leads_move (fun _ ↦ id) fun fs tokens' hfs htoken ↦ ?_
  change Ends _ _ (FileSys.iunlock p i fs)
  rw [hfs.iunlock_eq (htoken ▸ hlock)]
  exact htoken ▸ hfs.releasesleep_ends (htoken ▸ hlock)

theorem leads_iunlock_keep {t : ℕ} (hlock : (token i).lock = .loaded t)
    (ht : t ≠ FileType.dir.code) (hloose : 0 < (token i).loose) :
    Reaches sb tokens p (call (.iunlock i)) token (token.keep i) := by
  refine leads_move (fun _ ↦ id) fun fs tokens' hfs htoken ↦ ?_
  exact htoken ▸ hfs.iunlock_keep_ends (htoken ▸ hlock) ht (htoken ▸ hloose)

theorem leads_orphaned (hlock : (token i).lock = .acquired) (hloose : 0 < (token i).loose) :
    Leads sb tokens p (call (.orphaned i)) token (fun (last : Bool) token' ↦
      token' = if last then token.setLock i .doomed else token) := by
  refine leads_call (fun _ ↦ id) fun fs tokens' hfs htoken ↦ ?_
  refine (hfs.orphaned_ends (htoken ▸ hlock) (htoken ▸ hloose)).mono fun last fs' hfs' ↦ ?_
  refine ⟨_, rfl, ?_⟩
  cases last with
  | true => exact htoken ▸ hfs'
  | false =>
    have hsame : fs' = fs := hfs'
    subst htoken hsame
    exact (update_eq_self p tokens').symm ▸ hfs

theorem leads_free (hsb : sb.LaidOut) (hlock : (token i).lock = .doomed) :
    Reaches sb tokens p (call (.free i)) token (token.setLock i .acquired) := by
  refine leads_move (fun _ ↦ Harmless.ne_freeing) fun fs tokens' hfs htoken ↦ ?_
  exact htoken ▸ hfs.free_ends hsb (htoken ▸ hlock)

theorem leads_ilock (hrefs : 0 < (token i).refs) :
    Leads sb tokens p (call (.ilock i)) token (fun _ token' ↦ (token i).lock = .unlocked ∧
      ∃ t, (0 < (token i).kept → t ≠ FileType.dir.code) ∧
        token' = token.setLock i (.loaded t)) := by
  refine leads_call (fun _ ↦ id) fun fs tokens' hfs htoken ↦ ?_
  refine (hfs.ilock_ends (htoken ▸ hrefs)).mono ?_
  rintro _ fs' ⟨hlock, hkept, hfs'⟩
  exact ⟨_, ⟨htoken ▸ hlock, _, htoken ▸ hkept, rfl⟩, htoken ▸ hfs'⟩

theorem leads_same (hallowed : ∀ fault, allowed fault → fault ≠ .panic "freeing free block")
    (h : ∀ fs tokens', Disciplined sb fs tokens' → tokens' p = token →
      Ends allowed (fun _ fs' ↦ Disciplined sb fs' tokens') (FileSys.perform sb p op fs)) :
    Reaches sb tokens p (call op) token token := by
  refine leads_move hallowed fun fs tokens' hfs htoken ↦ ?_
  rw [← htoken, update_eq_self]
  exact h fs tokens' hfs htoken

theorem leads_read {post : FsAnswer op → Prop}
    (hallowed : ∀ fault, allowed fault → fault ≠ .panic "freeing free block")
    (h : ∀ fs tokens', Disciplined sb fs tokens' → tokens' p = token →
      Ends allowed (fun answer fs' ↦ fs' = fs ∧ post answer) (FileSys.perform sb p op fs)) :
    Leads sb tokens p (call op) token (fun answer token' ↦ post answer ∧ token' = token) := by
  refine leads_call hallowed fun fs tokens' hfs htoken ↦ (h fs tokens' hfs htoken).mono ?_
  rintro answer fs' ⟨rfl, hpost⟩
  refine ⟨token, ⟨hpost, rfl⟩, ?_⟩
  rwa [← htoken, update_eq_self]

section Loaded

variable {t : ℕ} (hlock : (token i).lock = .loaded t)

include hlock

theorem leads_peek : Leads sb tokens p (call (.peek i)) token (fun (d : Dinode) token' ↦
      d.type = t ∧ token' = token) := by
  refine leads_read (fun _ ↦ id) fun fs tokens' hfs htoken ↦ ?_
  have hsynced := hfs.synced (htoken ▸ hlock)
  have htype : (fs.inode i).copy.type = t := by
    rw [hsynced]
    exact hfs.type_eq (htoken ▸ hlock)
  exact ⟨rfl, htype⟩

theorem leads_lookup (name : Name) :
    Leads sb tokens p (call (.lookup i name)) token (fun (answer : Option (ℕ × ℕ)) token' ↦
      (∀ inum off, answer = some (inum, off) → inum < sb.ninodes ∧ ∃ e, off = direntSize * e) ∧
        token' = token) :=
  leads_read (fun _ ↦ Harmless.ne_freeing) fun _ _ hfs htoken ↦
    hfs.lookup_ends (htoken ▸ hlock) name

theorem leads_emptyEntry : Leads sb tokens p (call (.emptyEntry i)) token (fun (off : ℕ) token' ↦
      (∃ e, off = direntSize * e) ∧ token' = token) :=
  leads_read (fun _ ↦ Harmless.ne_freeing) fun _ _ hfs htoken ↦ hfs.emptyEntry_ends (htoken ▸ hlock)

theorem leads_isdirempty : Reaches sb tokens p (call (.isdirempty i)) token token := by
  refine leads_same (fun _ ↦ Harmless.ne_freeing) fun fs tokens' hfs htoken ↦ ?_
  exact (hfs.isdirempty_ends (htoken ▸ hlock)).mono fun _ _ hsame ↦ hsame ▸ hfs

theorem leads_readi (off : ℕ) {n : ℕ} (hn : n < Word.size) :
    Reaches sb tokens p (call (.readi i off n)) token token := by
  refine leads_same (fun _ ↦ Harmless.ne_freeing) fun fs tokens' hfs htoken ↦ ?_
  exact (hfs.readi_ends (htoken ▸ hlock) hn).mono fun _ _ hsame ↦ hsame ▸ hfs

variable (hsb : sb.LaidOut)

include hsb

theorem leads_initInode (major minor : ℕ) :
    Reaches sb tokens p (call (.initInode i major minor)) token token := by
  refine leads_same (fun _ ↦ id) fun fs tokens' hfs htoken ↦ ?_
  refine hfs.change_ends hsb (htoken ▸ hlock) (fun _ ↦ ?_) fun d hd ↦ ?_
  · exact ⟨rfl, rfl, rfl⟩
  · exact { hd with
      major := Nat.mod_lt _ (by decide)
      minor := Nat.mod_lt _ (by decide)
      nlink := (by decide : 1 < 65536) }

theorem leads_addLink : Reaches sb tokens p (call (.addLink i)) token token := by
  refine leads_same (fun _ ↦ id) fun fs tokens' hfs htoken ↦ ?_
  exact hfs.change_ends hsb (htoken ▸ hlock) (fun _ ↦ ⟨rfl, rfl, rfl⟩) fun d hd ↦
    hd.setNlink (Nat.mod_lt _ (by decide))

theorem leads_removeLink : Reaches sb tokens p (call (.removeLink i)) token token := by
  refine leads_same (fun _ ↦ id) fun fs tokens' hfs htoken ↦ ?_
  exact hfs.change_ends hsb (htoken ▸ hlock) (fun _ ↦ ⟨rfl, rfl, rfl⟩) fun d hd ↦
    hd.setNlink (Nat.mod_lt _ (by decide))

theorem leads_putEntry {e inum : ℕ} {name : Name} (hrefs : 0 < (token inum).refs) :
    Reaches sb tokens p (call (.putEntry i (direntSize * e) ⟨inum, name⟩)) token token := by
  refine leads_same (fun _ ↦ Harmless.ne_freeing) fun fs tokens' hfs htoken ↦ ?_
  have hinum := (hfs.account inum).range ((hfs.account inum).ref_pos (p := p) (htoken ▸ hrefs))
  exact hfs.putEntry_ends hsb (htoken ▸ hlock) (by decide) e hinum

theorem leads_eraseEntry (e : ℕ) :
    Reaches sb tokens p (call (.eraseEntry i (direntSize * e))) token token := by
  refine leads_same (fun _ ↦ Harmless.ne_freeing) fun fs tokens' hfs htoken ↦ ?_
  exact hfs.putEntry_ends hsb (htoken ▸ hlock) (by decide) e (Nat.zero_lt_of_lt hsb.root)

theorem leads_writei (src : ℕ → UInt8) (off : ℕ) {n : ℕ} (hn : n < Word.size)
    (hdir : t ≠ FileType.dir.code) :
    Reaches sb tokens p (call (.writei i src off n)) token token :=
  leads_same (fun _ ↦ Harmless.ne_freeing) fun _ _ hfs htoken ↦
    hfs.writei_ends hsb (htoken ▸ hlock) hn hdir

end Loaded

theorem leads_panic {post : Unit → Token → Prop} {message : String}
    (hmessage : message ≠ "freeing free block") :
    Leads sb tokens p (call (.panic message)) token post := by
  intro fs _ hpanic
  exact hmessage (panic.inj hpanic)

section References

variable (hsb : sb.LaidOut)

theorem leads_give (hlock : (token i).lock = .unlocked) (hloose : 0 < (token i).loose) :
    Reaches sb tokens p (do call (.releasesleep i); call (.drop i)) (token.setLock i .acquired)
      (token.lose i) := by
  refine (leads_releasesleep (by simp)).then fun _ ↦ ?_
  rw [setLock_setLock, setLock_of_lock hlock]
  exact leads_drop hloose hlock

include hsb

theorem leads_iput (hloose : 0 < (token i).loose) :
    Reaches sb tokens p (iput i) token (token.lose i) := by
  refine (leads_acquiresleep (Nat.add_pos_left hloose _)).bind ?_
  rintro _ _ ⟨hlock, rfl⟩
  refine (leads_orphaned (by simp) (by simpa using hloose)).bind ?_
  intro (last : Bool) _ htoken
  subst htoken
  refine Leads.ite (fun hlast ↦ ?_) fun hlast ↦ ?_
  · rw [if_pos hlast]
    refine (leads_free hsb (by simp)).then fun _ ↦ ?_
    rw [setLock_setLock, setLock_setLock]
    exact leads_give hlock hloose
  · rw [if_neg hlast]
    exact leads_give hlock hloose

theorem leads_iunlockput (hlock : (token i).lock ≠ .unlocked) (hloose : 0 < (token i).loose) :
    Reaches sb tokens p (iunlockput i) token (token.release i) := by
  exact (leads_iunlock hlock).then fun _ ↦ leads_iput hsb (by simpa using hloose)

theorem leads_iput_gain : Reaches sb tokens p (iput i) (token.gain i) token := by
  refine (leads_iput hsb (by simp)).mono ?_
  rintro _ _ rfl
  exact lose_gain

theorem leads_iunlockput_gain (hlock : (token i).lock = .unlocked) (t : ℕ) :
    Reaches sb tokens p (iunlockput i) ((token.gain i).setLock i (.loaded t)) token := by
  refine (leads_iunlockput hsb (by simp) (by simp)).mono ?_
  rintro _ _ rfl
  exact release_gain hlock _

omit hsb in
theorem leads_ilock_gain : Leads sb tokens p (call (.ilock i)) (token.gain i) (fun _ token' ↦
      (token i).lock = .unlocked ∧ ∃ t, token' = (token.gain i).setLock i (.loaded t)) := by
  refine (leads_ilock (by simp [Share.refs])).mono ?_
  rintro _ _ ⟨hlock, t, -, rfl⟩
  exact ⟨lock_gain.symm.trans hlock, t, rfl⟩

omit hsb in
theorem leads_iunlock_gain (hlock : (token i).lock = .unlocked) (t : ℕ) :
    Reaches sb tokens p (call (.iunlock i)) ((token.gain i).setLock i (.loaded t))
      (token.gain i) := by
  refine (leads_iunlock (by simp)).mono ?_
  rintro _ _ rfl
  rw [setLock_setLock, setLock_of_lock (by rw [lock_gain, hlock])]

omit hsb in
theorem leads_dirlookup {t dp : ℕ} (hlock : (token dp).lock = .loaded t) (name : Name) :
    Leads sb tokens p (dirlookup dp name) token (fun answer token' ↦
      token' = token.grant (answer.map Prod.fst) ∧
        ∀ inum off, answer = some (inum, off) → ∃ e, off = direntSize * e) := by
  refine (leads_lookup hlock name).bind ?_
  rintro answer _ ⟨hanswer, rfl⟩
  cases answer with
  | none => exact Leads.pure ⟨rfl, fun _ _ hnone ↦ by cases hnone⟩
  | some found =>
    obtain ⟨inum, off⟩ := found
    obtain ⟨hinum, hoff⟩ := hanswer inum off rfl
    refine (leads_iget hinum).then fun _ ↦ ?_
    refine Leads.pure ⟨rfl, fun _ _ hsome ↦ ?_⟩
    cases hsome
    exact hoff

theorem leads_dirlink {t dp : ℕ} (hlock : (token dp).lock = .loaded t) (name : Name)
    (hrefs : 0 < (token i).refs) :
    Reaches sb tokens p (dirlink dp name i) token token := by
  refine (leads_dirlookup hlock name).bind ?_
  rintro answer _ ⟨rfl, -⟩
  cases answer with
  | none =>
    refine (leads_emptyEntry hlock).bind ?_
    rintro off _ ⟨⟨e, rfl⟩, rfl⟩
    exact (leads_putEntry hlock hsb hrefs).then fun _ ↦ Leads.pure rfl
  | some found =>
    exact (leads_iput_gain hsb).then fun _ ↦ Leads.pure rfl

theorem leads_namexDone (parent : Bool) (ip : ℕ) (name : Name) :
    Leads sb tokens p (namexDone parent ip name) (token.gain ip) (fun found token' ↦
      token' = token.grant (found.map Prod.fst)) := by
  refine Leads.ite (fun _ ↦ ?_) fun _ ↦ Leads.pure rfl
  exact (leads_iput_gain hsb).then fun _ ↦ Leads.pure rfl

/-- The loop has a reference to the inode that it has reached and to no other. -/
theorem leads_namexLoop (parent : Bool) (rounds : ℕ) : ∀ (ip : ℕ) (path : List UInt8) (name : Name),
      Leads sb tokens p (namexLoop parent rounds ip path name) (token.gain ip) (fun found token' ↦
        token' = token.grant (found.map Prod.fst)) := by
  induction rounds with
  | zero =>
    intro ip path name
    exact leads_namexDone hsb parent ip name
  | succ rounds ih =>
    intro ip path name
    unfold namexLoop
    split
    · exact leads_namexDone hsb parent ip name
    rename_i element rest _
    refine leads_ilock_gain.bind ?_
    rintro _ _ ⟨hlock, t, rfl⟩
    refine (leads_peek (t := t) (by simp)).bind ?_
    rintro (d : Dinode) _ ⟨-, rfl⟩
    have hput : Leads sb tokens p (do iunlockput ip; return none)
        ((token.gain ip).setLock ip (.loaded t)) (fun (found : Option (ℕ × Name)) token' ↦
          token' = token.grant (found.map Prod.fst)) := by
      exact (leads_iunlockput_gain hsb hlock t).then fun _ ↦ Leads.pure rfl
    refine Leads.ite (fun _ ↦ hput) fun _ ↦ Leads.ite (fun _ ↦ ?_) fun _ ↦ ?_
    · exact (leads_iunlock_gain hlock t).then fun _ ↦ Leads.pure rfl
    · refine (leads_dirlookup (t := t) (by simp) element).bind ?_
      rintro answer _ ⟨rfl, -⟩
      cases answer with
      | none => exact hput
      | some found =>
        refine (leads_iunlockput hsb (by simp [grant]) (by simp [grant])).then fun _ ↦ ?_
        have hnext : (((token.gain ip).setLock ip (.loaded t)).grant
            (Option.map Prod.fst (some found))).release ip = token.gain found.1 :=
          release_gain_gain hlock _
        rw [hnext]
        exact ih found.1 rest element

theorem leads_namex {cwd : ℕ} (hcwd : 0 < (token cwd).refs) (path : List UInt8) (parent : Bool) :
    Leads sb tokens p (namex cwd path parent) token (fun found token' ↦
      token' = token.grant (found.map Prod.fst)) := by
  refine Leads.ite (fun _ ↦ ?_) fun _ ↦ ?_
  · exact (leads_iget hsb.root).then fun _ ↦ leads_namexLoop hsb parent _ _ _ _
  · exact (leads_idup hcwd).then fun _ ↦ leads_namexLoop hsb parent _ _ _ _

theorem leads_namei {cwd : ℕ} (hcwd : 0 < (token cwd).refs) (path : List UInt8) :
    Leads sb tokens p (namei cwd path) token (fun found token' ↦ token' = token.grant found) := by
  refine (leads_namex hsb hcwd path false).bind ?_
  rintro found _ rfl
  exact Leads.pure rfl

end References

end FsProgram

end Xv6Shm
