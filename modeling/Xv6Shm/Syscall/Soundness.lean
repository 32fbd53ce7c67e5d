import Xv6Shm.Syscall.Handlers

/-!
# User pointers

Every handler but one passes to the checks the size that is then accessed, so it stays inside the
memory of its caller. `sys_shmctl` checks the size of a pointer and accesses a structure.
-/

namespace Xv6Shm

open Fallible Traced Caller

variable {base size buf : ℕ} {fields : List (ℕ × ℕ)}

section Accesses

variable {caller : Caller} {env : Environment}

variable (hsz : caller.sz < heapLimit)

include hsz

theorem sz_le_size : caller.sz ≤ Word.size := by
  unfold heapLimit at hsz
  unfold Word.size
  omega

theorem passes_inside {start bound : ℕ} (hbound : start + bound ≤ caller.sz) :
    (env.passes start bound).All (Access.Inside caller.sz) := by
  unfold Environment.passes
  rw [all_emit]
  intro access haccess
  rw [List.mem_singleton] at haccess
  subst haccess
  apply Access.inside_of_le (sz_le_size hsz)
  omega

theorem fieldsAt_inside (hbase : base + size ≤ caller.sz)
    (hfields : ∀ field ∈ fields, 0 < field.2 ∧ field.1 + field.2 ≤ size) :
    ∀ access ∈ fieldsAt base fields, access.Inside caller.sz := by
  intro access haccess
  obtain ⟨field, hfield, rfl⟩ := List.mem_map.mp haccess
  obtain ⟨hpos, hend⟩ := hfields field hfield
  have hsize := sz_le_size hsz
  apply Access.inside_of_le hsize
  rw [Word.add_eq (by omega)]
  omega

/-- They are inside it only if it is, when one of them ends where the structure ends. -/
theorem fieldsAt_inside_iff (hbase : base < caller.sz)
    (hsize : size ≤ pgSize) (hfields : ∀ field ∈ fields, 0 < field.2 ∧ field.1 + field.2 ≤ size)
    (hlast : ∃ field ∈ fields, field.1 + field.2 = size) :
    (∀ access ∈ fieldsAt base fields, access.Inside caller.sz) ↔ base + size ≤ caller.sz := by
  refine ⟨fun h ↦ ?_, fun h ↦ fieldsAt_inside hsz h hfields⟩
  obtain ⟨field, hfield, hend⟩ := hlast
  have hpos := (hfields field hfield).1
  have hbyte := h _ (List.mem_map.mpr ⟨field, hfield, rfl⟩) (field.2 - 1) (by dsimp only; omega)
  dsimp only at hbyte
  unfold heapLimit at hsz
  unfold pgSize at hsize
  unfold Word.add Word.size at hbyte
  omega

theorem argfd_inside (n : ℕ) : (caller.argfd n).All (Access.Inside caller.sz) := by
  refine (argint_inside hsz n).bind fun fd _ ↦ ?_
  split
  · exact all_stop _
  · exact all_pure _

/-- The strings of an argument vector are inside the process. -/
theorem argvLoop_spec (uargv : ℕ) : ∀ remaining i : ℕ,
    (caller.argvLoop uargv remaining i).All (Access.Inside caller.sz) ∧
      ∀ argv, (caller.argvLoop uargv remaining i).value = .ok argv →
        ∀ string ∈ argv, string.start + (string.length + 1) ≤ caller.sz := by
  intro remaining
  induction remaining with
  | zero =>
    intro i
    exact ⟨all_stop _, fun argv h ↦ by cases h⟩
  | succ remaining ih =>
    intro i
    obtain ⟨hrest, hargv⟩ := ih (i + 1)
    rw [argvLoop]
    constructor
    · refine (fetchint_inside hsz _).bind fun uarg _ ↦ ?_
      dsimp only
      split
      · exact all_pure _
      · refine (fetchstr_inside hsz _).bind fun argument _ ↦ ?_
        exact (hrest).bind fun _ _ ↦ all_pure _
    · intro argv h
      obtain ⟨uarg, -, h⟩ := value_bind.mp h
      dsimp only at h
      split at h
      · cases h
        intro string hstring
        exact absurd hstring List.not_mem_nil
      · obtain ⟨argument, hargument, h⟩ := value_bind.mp h
        obtain ⟨rest, hvalue, h⟩ := value_bind.mp h
        cases h
        intro string hstring
        rcases List.mem_cons.mp hstring with rfl | htail
        · exact fetchstr_bound hsz hargument
        · exact hargv rest hvalue string htail

end Accesses

/-- The handler accesses bytes of the caller only. -/
def Handler.Sound (handler : Handler) : Prop :=
  ∀ caller env, caller.sz < heapLimit → (handler caller env).All (Access.Inside caller.sz)

namespace Handler

theorem sound_plain (request : Request) : (sysPlain request).Sound :=
  fun _ _ _ ↦ all_pure _

theorem sound_oneInt (request : ℤ → Request) : (sysOneInt request).Sound := by
  intro caller env hsz
  exact (argint_inside hsz 0).bind fun _ _ ↦ all_pure _

theorem sound_descriptor : sysDescriptor.Sound := by
  intro caller env hsz
  exact (argfd_inside hsz 0).bind fun _ _ ↦ all_pure _

theorem sound_transfer : sysTransfer.Sound := by
  intro caller env hsz
  refine (argfd_inside hsz 0).bind fun _ _ ↦ ?_
  refine (argint_inside hsz 2).bind fun n hn ↦ ?_
  refine (argptr_inside hsz 1 n).bind fun p hp ↦ ?_
  exact (passes_inside hsz (argptr_bound hsz (argint_lt hn) hp).2).bind fun _ _ ↦ all_pure _

theorem sound_fstat : sysFstat.Sound := by
  intro caller env hsz
  refine (argfd_inside hsz 0).bind fun _ _ ↦ ?_
  refine (argptr_inside hsz 1 _).bind fun st hst ↦ ?_
  have hbound := (argptr_bound hsz (by decide) hst).2
  refine Traced.All.bind ?_ fun _ _ ↦ all_pure _
  split
  · exact fieldsAt_inside hsz hbound (by decide)
  · exact all_pure _

theorem sound_onPath (integers : List ℕ) : (sysOnPath integers).Sound := by
  intro caller env hsz
  refine (argstr_inside hsz 0).bind fun path hpath ↦ ?_
  refine (all_forM fun n _ ↦ ?_).bind fun _ _ ↦ ?_
  · exact (argint_inside hsz n).bind fun _ _ ↦ all_pure _
  · exact (passes_inside hsz (argstr_bound hsz hpath)).bind fun _ _ ↦ all_pure _

theorem sound_link : sysLink.Sound := by
  intro caller env hsz
  refine (argstr_inside hsz 0).bind fun old hold ↦ ?_
  refine (argstr_inside hsz 1).bind fun new hnew ↦ ?_
  refine (passes_inside hsz (argstr_bound hsz hold)).bind fun _ _ ↦ ?_
  exact (passes_inside hsz (argstr_bound hsz hnew)).bind fun _ _ ↦ all_pure _

theorem sound_exec : sysExec.Sound := by
  intro caller env hsz
  refine (argstr_inside hsz 0).bind fun path hpath ↦ ?_
  refine (argint_inside hsz 1).bind fun uargv _ ↦ ?_
  obtain ⟨hloop, hargv⟩ := argvLoop_spec hsz (Word.ofInt uargv) maxArg 0
  refine (hloop).bind fun argv hvalue ↦ ?_
  refine (passes_inside hsz (argstr_bound hsz hpath)).bind fun _ _ ↦ ?_
  exact Traced.All.bind (all_forM fun string hstring ↦
    passes_inside hsz (hargv argv hvalue string hstring)) fun _ _ ↦ all_pure _

theorem sound_pipe : sysPipe.Sound := by
  intro caller env hsz
  refine (argptr_inside hsz 0 8).bind fun fd hfd ↦ ?_
  have hbound := (argptr_bound hsz (by decide) hfd).2
  refine Traced.All.bind ?_ fun _ _ ↦ all_pure _
  split
  · exact fieldsAt_inside hsz hbound (by decide)
  · exact all_pure _

theorem sound_shmget : sysShmget.Sound := by
  intro caller env hsz
  refine (argint_inside hsz 0).bind fun _ _ ↦ ?_
  refine (argint_inside hsz 1).bind fun _ _ ↦ ?_
  exact (argint_inside hsz 2).bind fun _ _ ↦ all_pure _

theorem sound_shmat : sysShmat.Sound := by
  intro caller env hsz
  refine Traced.All.bind (argint_inside hsz 0) fun _ _ ↦ ?_
  refine Traced.All.bind (argint_inside hsz 1) fun _ _ ↦ ?_
  exact Traced.All.bind (argint_inside hsz 2) fun _ _ ↦ all_pure _

theorem sound_removeshm : sysRemoveshm.Sound := by
  intro caller env hsz
  refine (argint_inside hsz 0).bind fun _ _ ↦ ?_
  exact (argint_inside hsz 1).bind fun _ _ ↦ all_pure _

end Handler

/-- All handlers but that of `shmctl` are sound. -/
theorem Syscall.sound_of_ne_shmctl {call : Syscall} (h : call ≠ .shmctl) :
    call.handler.Sound := by
  cases call with
  | fork | exit | wait | getpid | uptime | shminfo => exact Handler.sound_plain _
  | kill | sbrk | sleep | shmdt => exact Handler.sound_oneInt _
  | dup | close => exact Handler.sound_descriptor
  | read | write => exact Handler.sound_transfer
  | chdir | «open» | mknod | unlink | mkdir => exact Handler.sound_onPath _
  | fstat => exact Handler.sound_fstat
  | link => exact Handler.sound_link
  | exec => exact Handler.sound_exec
  | pipe => exact Handler.sound_pipe
  | shmget => exact Handler.sound_shmget
  | shmat => exact Handler.sound_shmat
  | removeshm => exact Handler.sound_removeshm
  | shmctl => exact absurd rfl h

/-- The command copies more of the structure at `buf` than lies inside the process. -/
def Overruns (caller : Caller) (table : ShmPgTable) (shmid cmd : ℤ) (buf : ℕ) : Prop :=
  0 ≤ shmid ∧ shmid ≤ table.lastShmSegIndex ∧ (table.shmSegs shmid.toNat).shmPerm.key ≠ -1 ∧
    (cmd = ipcStat ∧ caller.sz < buf + 36 ∨
      cmd = ipcSet ∧ (table.shmSegs shmid.toNat).shmPerm.mode &&& shmR = 0 ∧ (caller.sz < buf + 12 ∨
          table.locked = false ∧ (caller.shmidDs buf).pages ≠ 0 ∧ caller.sz < buf + 36))

theorem copyIn_inside_iff {sz pages : ℕ} {locked : Bool} :
    (copyIn locked buf pages).All (Access.Inside sz) ↔ (locked = false → pages ≠ 0 →
        ∀ access ∈ fieldsAt buf shmidDsFields, access.Inside sz) := by
  unfold copyIn
  cases locked with
  | true => exact iff_of_true (all_stop _) fun h ↦ by cases h
  | false =>
    rw [if_neg Bool.false_ne_true, all_emit]
    constructor
    · intro h _ hpages access haccess
      exact h access (List.mem_flatten.mpr ⟨_, List.mem_replicate.mpr ⟨hpages, rfl⟩, haccess⟩)
    · intro h access haccess
      obtain ⟨fields, hfields, hmem⟩ := List.mem_flatten.mp haccess
      obtain ⟨hpages, rfl⟩ := List.mem_replicate.mp hfields
      exact h rfl hpages access hmem

theorem shmctlAccesses_inside_iff {caller : Caller} {table : ShmPgTable} {shmid cmd : ℤ}
    (hsz : caller.sz < heapLimit) (hbuf : buf < caller.sz) :
    (caller.shmctlAccesses table shmid cmd buf).All (Access.Inside caller.sz) ↔
      ¬ Overruns caller table shmid cmd buf := by
  have hwhole : (∀ access ∈ fieldsAt buf shmidDsFields, access.Inside caller.sz) ↔
      buf + 36 ≤ caller.sz := fieldsAt_inside_iff hsz hbuf (by decide) (by decide) (by decide)
  have hsegsz : (∀ access ∈ fieldsAt buf [(8, 4)], access.Inside caller.sz) ↔
      buf + 12 ≤ caller.sz := fieldsAt_inside_iff hsz hbuf (by decide) (by decide) (by decide)
  unfold shmctlAccesses Overruns
  dsimp only
  split
  · rename_i hrange
    exact iff_of_true (all_pure _) (by omega)
  · rename_i hrange
    split
    · rename_i hkey
      exact iff_of_true (all_pure _) fun h ↦ h.2.2.1 hkey
    · rename_i hkey
      split
      · rename_i hstat
        subst hstat
        rw [all_emit, hwhole]
        constructor
        · rintro hinside ⟨-, -, -, ⟨-, hover⟩ | ⟨hset, -⟩⟩
          · omega
          · exact absurd hset (by decide)
        · intro hnot
          by_contra hover
          exact hnot ⟨by omega, by omega, hkey, Or.inl ⟨rfl, by omega⟩⟩
      · rename_i hstat
        split
        · rename_i hset
          split
          · rename_i hmode
            exact iff_of_true (all_pure _) fun h ↦
              h.2.2.2.elim (fun hcmd ↦ hstat hcmd.1) fun hcmd ↦ hmode hcmd.2.1
          · rename_i hmode
            rw [not_not] at hmode
            rw [all_emit_bind, hsegsz, copyIn_inside_iff, hwhole]
            constructor
            · rintro ⟨hfirst, hrest⟩ ⟨-, -, -, ⟨hcmd, -⟩ | ⟨-, -, hover⟩⟩
              · exact hstat hcmd
              · rcases hover with hover | ⟨hunlocked, hpages, hover⟩
                · omega
                · have hinside := hrest hunlocked hpages
                  omega
            · intro hnot
              refine ⟨?_, fun hunlocked hpages ↦ ?_⟩
              · by_contra hover
                exact hnot ⟨by omega, by omega, hkey, Or.inr ⟨hset, hmode, Or.inl (by omega)⟩⟩
              · by_contra hover
                exact hnot ⟨by omega, by omega, hkey,
                  Or.inr ⟨hset, hmode, Or.inr ⟨hunlocked, hpages, by omega⟩⟩⟩
        · rename_i hset
          exact iff_of_true (all_pure _) fun h ↦
            h.2.2.2.elim (fun hcmd ↦ hstat hcmd.1) fun hcmd ↦ hset hcmd.1

/-- The arguments of the call make `shmctl` overrun its buffer. -/
def ShmctlOverruns (caller : Caller) (table : ShmPgTable) : Prop :=
  ∃ shmid cmd buf, (caller.argint 0).value = .ok shmid ∧ (caller.argint 1).value = .ok cmd ∧
    (caller.argptr 2 pointerSize).value = .ok buf ∧ Overruns caller table shmid cmd buf

theorem sysShmctl_inside_iff {caller : Caller} {env : Environment} (hsz : caller.sz < heapLimit) :
    (Handler.sysShmctl caller env).All (Access.Inside caller.sz) ↔
      ¬ ShmctlOverruns caller env.kernel.shmpgtable := by
  constructor
  · rintro hall ⟨shmid, cmd, buf, hshmid, hcmd, hbuf, hover⟩
    have hcmds := (all_bind.mp hall).2 shmid hshmid
    have hbufs := (all_bind.mp hcmds).2 cmd hcmd
    have hrest := (all_bind.mp hbufs).2 buf hbuf
    have hlt := (argptr_bound hsz (by decide) hbuf).1
    exact (shmctlAccesses_inside_iff hsz hlt).mp (all_bind.mp hrest).1 hover
  · intro hnot
    refine (argint_inside hsz 0).bind fun shmid hshmid ↦ ?_
    refine (argint_inside hsz 1).bind fun cmd hcmd ↦ ?_
    refine (argptr_inside hsz 2 _).bind fun buf hbuf ↦ ?_
    have hlt := (argptr_bound hsz (by decide) hbuf).1
    refine ((shmctlAccesses_inside_iff hsz hlt).mpr fun hover ↦ ?_).bind fun _ _ ↦ all_pure _
    exact hnot ⟨shmid, cmd, buf, hshmid, hcmd, hbuf, hover⟩

/-- Whatever the number, the arguments and the rest of the kernel, a system call accesses user bytes
of the caller only, unless it is a `shmctl` whose buffer is cut off by the end of the process. -/
theorem syscall_inside_iff {caller : Caller} (env : Environment) (num : ℤ)
    (hsz : caller.sz < heapLimit) :
    (syscall caller env num).All (Access.Inside caller.sz) ↔
      ¬ (Syscall.ofNumber num = some .shmctl ∧ ShmctlOverruns caller env.kernel.shmpgtable) := by
  unfold syscall
  cases hnum : Syscall.ofNumber num with
  | none => exact iff_of_true (all_stop _) fun h ↦ by cases h.1
  | some call =>
    dsimp only
    by_cases hcall : call = .shmctl
    · subst hcall
      rw [Syscall.handler, sysShmctl_inside_iff hsz]
      exact not_congr (and_iff_right rfl).symm
    · refine iff_of_true (Syscall.sound_of_ne_shmctl hcall caller env hsz) fun h ↦ hcall ?_
      exact Option.some.inj h.1

/-- A process of one page with the arguments 0, `IPC_STAT` and `buf` on its stack. -/
def statCaller (buf : ℕ) : Caller :=
  { sz := 4096
    esp := 0
    byte := fun addr ↦
      if addr = 8 then UInt8.ofNat ipcStat.toNat
      else if addr = 12 then UInt8.ofNat buf
      else if addr = 13 then UInt8.ofNat (buf / 2 ^ 8)
      else 0
    ofile := fun _ ↦ false }

/-- A system whose files are empty, after a segment was created. -/
def statEnvironment (kernel : Kernel) : Environment :=
  { kernel := kernel, reach := fun _ ↦ 0, isInode := false, piped := false, program := none }

/-- `IPC_STAT` with a buffer in the last word of the process writes 32 bytes behind its end. -/
theorem shmctl_writes_outside : ∃ created : Kernel,
    step (startKernel 1) (startLabel (.shmget 5 4096 ipcCreat)) = .ok (created, 0) ∧
      (statCaller 4092).sz < heapLimit ∧
      ⟨4124, 4⟩ ∈ (syscall (statCaller 4092) (statEnvironment created) 25).log ∧
      ¬ (⟨4124, 4⟩ : Access).Inside (statCaller 4092).sz := by
  obtain ⟨created, hget, hlog⟩ : ∃ created,
      step (startKernel 1) (startLabel (.shmget 5 4096 ipcCreat)) = .ok (created, 0) ∧
        ⟨4124, 4⟩ ∈ (syscall (statCaller 4092) (statEnvironment created) 25).log := by
    decide +kernel
  exact ⟨created, hget, by decide, hlog, by decide⟩

/-- A buffer at the start of the process is filled from the segment. -/
theorem syscall_inside_iff_created : ∃ created : Kernel,
    step (startKernel 1) (startLabel (.shmget 5 4096 ipcCreat)) = .ok (created, 0) ∧
      ⟨32, 4⟩ ∈ (syscall (statCaller 0) (statEnvironment created) 25).log ∧
      (syscall (statCaller 0) (statEnvironment created) 25).All
        (Access.Inside (statCaller 0).sz) := by
  obtain ⟨created, hget, hlog⟩ : ∃ created,
      step (startKernel 1) (startLabel (.shmget 5 4096 ipcCreat)) = .ok (created, 0) ∧
        ⟨32, 4⟩ ∈ (syscall (statCaller 0) (statEnvironment created) 25).log := by
    decide +kernel
  refine ⟨created, hget, hlog, (syscall_inside_iff _ 25 (by decide)).mpr ?_⟩
  rintro ⟨-, shmid, cmd, buf, -, -, hbuf, -, -, -, hover⟩
  have hzero : buf = 0 := (Except.ok.inj hbuf).symm.trans (by decide)
  have hsz : (statCaller 0).sz = 4096 := rfl
  omega

end Xv6Shm
