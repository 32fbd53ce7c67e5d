import Xv6Shm.System.Detachment

/-!
# Attach counts along runs

The attach count of a segment should be the number of attachments that processes hold, as the
history of calls gives them. `fork` and `exec` count runs of window slots instead, `exit` counts
nothing, and a detach believes what its slot records. The counts are right as long as what these
calls see is what the processes hold.
-/

namespace Xv6Shm

open Fallible ShmPgTable Function Kernel

variable {count shmflag : ℕ} {flag shmid shmaddr : ℤ} {process : Proc}

/-- Neither unused nor a zombie. -/
def Proc.isAlive (process : Proc) : Bool := process.state != .unused && process.state != .zombie

/-- The attachments of segment `s` in a list. -/
def attachmentsOf (s : ℕ) (held : List Attachment) : ℕ :=
  held.countP fun attachment ↦ attachment.shmid == s

/-- The attachments of segment `s` that process `q` holds. -/
def Kernel.attachmentsAt (kernel : Kernel) (held : ℕ → List Attachment) (s q : ℕ) : ℕ :=
  if (kernel.proc q).isAlive then attachmentsOf s (held q) else 0

/-- The attachments of segment `s` that the processes hold. -/
def Kernel.attachments (kernel : Kernel) (held : ℕ → List Attachment) (s : ℕ) : ℕ :=
  ∑ q ∈ Finset.range nProc, kernel.attachmentsAt held s q

/-- The count of every segment is the number of its attachments. -/
def AttachCountsExact (kernel : Kernel) (held : ℕ → List Attachment) : Prop :=
  ∀ s ∈ kernel.shmpgtable.bases, (kernel.shmpgtable.shmSegs s).shmNattch = kernel.attachments held s

@[simp] theorem attachmentsOf_nil (s : ℕ) : attachmentsOf s [] = 0 := rfl

theorem attachmentsOf_cons (s : ℕ) (attachment : Attachment) (held : List Attachment) :
    attachmentsOf s (attachment :: held) =
      attachmentsOf s held + if attachment.shmid = s then 1 else 0 := by
  simp [attachmentsOf, List.countP_cons]

theorem attachmentsOf_filter (s : ℕ) (ends : Attachment → Bool) (held : List Attachment) :
    attachmentsOf s (held.filter fun attachment ↦ !ends attachment) +
      attachmentsOf s (held.filter ends) = attachmentsOf s held := by
  unfold attachmentsOf
  rw [List.countP_filter, List.countP_filter]
  induction held with
  | nil => rfl
  | cons attachment rest ih =>
    rw [List.countP_cons, List.countP_cons, List.countP_cons, ← ih]
    cases ends attachment <;> cases attachment.shmid == s <;> simp <;> omega

section Attachments

variable {kernel kernel' : Kernel} {held held' : ℕ → List Attachment} {p s : ℕ}

theorem Kernel.attachments_congr
    (h : ∀ q, kernel'.attachmentsAt held' s q = kernel.attachmentsAt held s q) :
    kernel'.attachments held' s = kernel.attachments held s :=
  Finset.sum_congr rfl fun q _ ↦ h q

theorem Kernel.attachmentsAt_congr {q : ℕ}
    (hstate : (kernel'.proc q).state = (kernel.proc q).state) (hheld : held' q = held q) :
    kernel'.attachmentsAt held' s q = kernel.attachmentsAt held s q := by
  unfold attachmentsAt Proc.isAlive
  rw [hstate, hheld]

theorem Kernel.attachments_exchange (hp : p < nProc)
    (hothers : ∀ q ≠ p, (kernel'.proc q).state = (kernel.proc q).state ∧ held' q = held q) :
    kernel'.attachments held' s + kernel.attachmentsAt held s p =
      kernel.attachments held s + kernel'.attachmentsAt held' s p :=
  Cells.sum_exchange _ _ (Finset.mem_range.mpr hp) fun q _ hq ↦
    attachmentsAt_congr (hothers q hq).1 (hothers q hq).2

theorem Kernel.attachmentsOf_le (hp : p < nProc) (halive : (kernel.proc p).isAlive = true) :
    attachmentsOf s (held p) ≤ kernel.attachments held s := by
  calc attachmentsOf s (held p) = kernel.attachmentsAt held s p := (if_pos halive).symm
    _ ≤ kernel.attachments held s := Finset.single_le_sum_of_canonicallyOrdered
      (f := kernel.attachmentsAt held s) (Finset.mem_range.mpr hp)

end Attachments

/-- What `updateShmSeg` does to a count. -/
def countStep (flag : ℤ) (count : ℕ) : ℕ := if flag = 0 then Word.add count 1 else Word.sub count 1

theorem iterate_add_one : ∀ {times : ℕ}, count + times < Word.size →
    (countStep 0)^[times] count = count + times := by
  intro times
  induction times with
  | zero => exact fun _ ↦ rfl
  | succ times ih =>
    intro h
    rw [iterate_succ_apply', ih (by omega), countStep, if_pos rfl,
      Word.add_eq (by omega), Nat.add_assoc]

theorem iterate_sub_one (hword : count < Word.size) : ∀ {times : ℕ}, times ≤ count →
    (countStep 1)^[times] count = count - times := by
  intro times
  induction times with
  | zero => exact fun _ ↦ rfl
  | succ times ih =>
    intro h
    rw [iterate_succ_apply', ih (by omega), countStep, if_neg (by decide),
      Word.sub_eq (by omega) (by omega), Nat.sub_sub]

theorem Coherent.nattch_onPages {table : ShmPgTable} (h : Coherent table) {s t : ℕ}
    (hs : s ∈ table.bases) (ht : t ∈ table.bases) (change : ShmidDs → ShmidDs) :
    ((table.onPages s (table.pagesAt s) change).shmSegs t).shmNattch =
      if t = s then (change (table.shmSegs t)).shmNattch else (table.shmSegs t).shmNattch := by
  split
  · rename_i hts
    subst hts
    rw [onPages_of_mem le_rfl (Nat.lt_add_of_pos_right (h.tiling.positive t ht))]
  · rename_i hts
    rw [h.onPages_other hs ht hts]

/-- A traversal counts each segment as often as it names it. -/
theorem updateAll_nattch {clock : Clock} {pid : ℤ} :
    ∀ {shmids : List ℤ} {table next : ShmPgTable}, Coherent table →
      (∀ shmid ∈ shmids, table.isMiddle shmid = false) →
      updateAll clock pid flag shmids table = .ok next → ∀ s ∈ table.bases,
      (next.shmSegs s).shmNattch =
        (countStep flag)^[shmids.count (s : ℤ)] (table.shmSegs s).shmNattch := by
  intro shmids
  induction shmids with
  | nil =>
    intro table next _ _ h s _
    cases h
    rfl
  | cons shmid rest ih =>
    intro table next hcoherent hmiddle h s hs
    rw [updateAll] at h
    obtain ⟨middle, hfirst, hrest⟩ := bind_eq_ok.mp h
    have hone : updateAll clock pid flag [shmid] table = .ok middle := by
      rw [updateAll, hfirst]
      rfl
    have hcounted := Recounted.updateAll hcoherent
      (List.forall_mem_singleton.mpr (hmiddle shmid List.mem_cons_self)) hone
    obtain ⟨t, rfl, -, -, -, hupdated⟩ := updateShmSeg_eq_ok.mp hfirst
    change middle = table.onPages t (table.pagesAt t) _ at hupdated
    rw [ih hcounted.coherent (fun other hother ↦ (hcounted.isMiddle other).trans
      (hmiddle other (List.mem_cons_of_mem _ hother))) hrest s (hcounted.bases ▸ hs)]
    have hvalue (slot : ShmidDs) :
        (slot.updated clock pid flag).shmNattch = countStep flag slot.shmNattch := by
      unfold ShmidDs.updated countStep
      split <;> rfl
    by_cases hts : t = s
    · subst hts
      rw [List.count_cons_self, iterate_succ_apply, hupdated,
        hcoherent.nattch_onPages hs hs, if_pos rfl, hvalue]
    · have hne : (t : ℤ) ≠ s := fun h ↦ hts (Int.ofNat_inj.mp h)
      rw [List.count_cons_of_ne hne, hupdated]
      rcases hcoherent.base_or_empty (hmiddle t List.mem_cons_self) with hbase | hempty
      · rw [hcoherent.onPages_other hbase hs (Ne.symm hts)]
      · rw [hempty, onPages_zero]

/-- The counts are exact and fit their words, and only segments have attachments. -/
structure Kernel.Counted (kernel : Kernel) (held : ℕ → List Attachment) : Prop where
  exact : AttachCountsExact kernel held
  only : ∀ s ∉ kernel.shmpgtable.bases, kernel.attachments held s = 0
  word : ∀ s, kernel.attachments held s < Word.size

/-- The condition on a call of process `p`: a detach ends the attachment that the slot records;
`fork` and `exec` count each segment as often as it is attached; a process that exits has nothing
attached; and no count overflows or is overwritten. -/
def CountsMatch (kernel : Kernel) (held : ℕ → List Attachment) (label : Label) : Prop :=
  let process := kernel.proc label.proc
  let own := held label.proc
  match label.call with
  | .shmat shmid _ _ => (kernel.shmpgtable.shmSegs shmid.toNat).shmNattch + 1 < Word.size
  | .shmdt shmaddr => heapLimit ≤ shmaddr →
      (process.shmsegs (addrSlot shmaddr)).isAttached = true →
      ∃ attachment, own.filter (fun attachment ↦ attachment.start == shmaddr) = [attachment] ∧
        (process.shmsegs (addrSlot shmaddr)).shmid = attachment.shmid
  | .shmctl shmid cmd buf =>
      cmd = ipcSet → buf.shmNattch = (kernel.shmpgtable.shmSegs shmid.toNat).shmNattch
  | .fork => ∀ s : ℕ,
      (if process.pid > 2 then inheritedIds process.shmsegs else []).count (s : ℤ) =
          attachmentsOf s own ∧
        (s ∈ kernel.shmpgtable.bases →
          (kernel.shmpgtable.shmSegs s).shmNattch + attachmentsOf s own < Word.size)
  | .exec _ _ => ∀ s : ℕ, (droppedIds process.shmsegs).count (s : ℤ) = attachmentsOf s own
  | .exit => own = []
  | _ => True

theorem Proc.isAlive_of_canRun (h : process.canRun = true) : process.isAlive = true := by
  unfold canRun at h
  unfold isAlive
  cases hstate : process.state <;> simp_all

section Calls

variable {kernel kernel' : Kernel} {held : ℕ → List Attachment} {p : ℕ} {clock : Clock} {result : ℤ}

theorem Kernel.state_of_update (hprocs : kernel'.proc = update kernel.proc p process)
    (hstate : process.state = (kernel.proc p).state) (q : ℕ) :
    (kernel'.proc q).state = (kernel.proc q).state := by
  rw [hprocs, update_apply]
  split
  · rename_i hq
    rw [hq, hstate]
  · rfl

theorem Kernel.putAttaching_state (table : ShmPgTable) (st : Attaching) (q : ℕ) :
    ((kernel.putAttaching p table st).proc q).state = (kernel.proc q).state :=
  state_of_update (putAttaching_proc _ _ _ _) rfl q

section

variable (h : kernel.Counted held)

include h

theorem Kernel.Counted.congr {held' : ℕ → List Attachment}
    (hbases : kernel'.shmpgtable.bases = kernel.shmpgtable.bases)
    (hnattch : ∀ s ∈ kernel.shmpgtable.bases,
      (kernel'.shmpgtable.shmSegs s).shmNattch = (kernel.shmpgtable.shmSegs s).shmNattch)
    (hattachments : ∀ s, kernel'.attachments held' s = kernel.attachments held s) :
    kernel'.Counted held' where
  exact s hs := by
    rw [hbases] at hs
    rw [hnattch s hs, hattachments s]
    exact h.exact s hs
  only s hs := by
    rw [hbases] at hs
    rw [hattachments s]
    exact h.only s hs
  word s := by
    rw [hattachments s]
    exact h.word s

theorem Kernel.Counted.of_same (htable : kernel'.shmpgtable = kernel.shmpgtable)
    (hstate : ∀ q, (kernel'.proc q).state = (kernel.proc q).state) : kernel'.Counted held := by
  refine h.congr (by rw [htable]) (fun s _ ↦ by rw [htable]) fun s ↦ ?_
  exact attachments_congr fun q ↦ attachmentsAt_congr (hstate q) rfl

theorem Kernel.Counted.exchange {held' : ℕ → List Attachment} (hp : p < nProc)
    (hothers : ∀ q ≠ p, (kernel'.proc q).state = (kernel.proc q).state ∧ held' q = held q)
    (hbases : kernel'.shmpgtable.bases = kernel.shmpgtable.bases)
    (hnattch : ∀ s ∈ kernel.shmpgtable.bases,
      (kernel'.shmpgtable.shmSegs s).shmNattch + kernel.attachmentsAt held s p =
        (kernel.shmpgtable.shmSegs s).shmNattch + kernel'.attachmentsAt held' s p)
    (honly : ∀ s ∉ kernel.shmpgtable.bases, kernel'.attachmentsAt held' s p = 0)
    (hword : ∀ s ∈ kernel.shmpgtable.bases, (kernel'.shmpgtable.shmSegs s).shmNattch < Word.size) :
    kernel'.Counted held' := by
  have hexact (s : ℕ) (hs : s ∈ kernel.shmpgtable.bases) :
      (kernel'.shmpgtable.shmSegs s).shmNattch = kernel'.attachments held' s := by
    have hexchange := @attachments_exchange _ _ _ _ p s hp hothers
    have hchange := hnattch s hs
    have hold := h.exact s hs
    omega
  have hout (s : ℕ) (hs : s ∉ kernel.shmpgtable.bases) : kernel'.attachments held' s = 0 := by
    have hexchange := @attachments_exchange _ _ _ _ p s hp hothers
    rw [h.only s hs, honly s hs] at hexchange
    omega
  refine ⟨fun s hs ↦ hexact s (hbases ▸ hs), fun s hs ↦ hout s (hbases ▸ hs), fun s ↦ ?_⟩
  by_cases hs : s ∈ kernel.shmpgtable.bases
  · exact lt_of_eq_of_lt (hexact s hs).symm (hword s hs)
  · rw [hout s hs]
    exact Nat.two_pow_pos 32

theorem Kernel.Counted.update (hp : p < nProc) (halive : (kernel.proc p).isAlive = true)
    (hstate : ∀ q, (kernel'.proc q).state = (kernel.proc q).state)
    (hbases : kernel'.shmpgtable.bases = kernel.shmpgtable.bases) {list : List Attachment}
    (hnattch : ∀ s ∈ kernel.shmpgtable.bases,
      (kernel'.shmpgtable.shmSegs s).shmNattch + attachmentsOf s (held p) =
        (kernel.shmpgtable.shmSegs s).shmNattch + attachmentsOf s list)
    (honly : ∀ s ∉ kernel.shmpgtable.bases, attachmentsOf s list = 0)
    (hword : ∀ s ∈ kernel.shmpgtable.bases, (kernel'.shmpgtable.shmSegs s).shmNattch < Word.size) :
    kernel'.Counted (update held p list) := by
  have halive' : (kernel'.proc p).isAlive = true := by
    rw [Proc.isAlive, hstate]
    exact halive
  have hbefore (s : ℕ) : kernel.attachmentsAt held s p = attachmentsOf s (held p) := if_pos halive
  have hafter (s : ℕ) :
      kernel'.attachmentsAt (Function.update held p list) s p = attachmentsOf s list := by
    rw [attachmentsAt, if_pos halive', Function.update_self]
  refine h.exchange hp (fun q hq ↦ ⟨hstate q, Function.update_of_ne hq _ _⟩) hbases
    (fun s hs ↦ ?_) (fun s hs ↦ ?_) hword
  · rw [hbefore, hafter]
    exact hnattch s hs
  · rw [hafter]
    exact honly s hs

end

variable (h : kernel.Counted held)

include h

theorem Kernel.Counted.attachmentsOf_eq_zero (hp : p < nProc)
    (halive : (kernel.proc p).isAlive = true) {s : ℕ} (hs : s ∉ kernel.shmpgtable.bases) :
    attachmentsOf s (held p) = 0 := by
  have hle := @attachmentsOf_le kernel held p s hp halive
  rw [h.only s hs] at hle
  exact Nat.le_zero.mp hle

variable (hintact : kernel.Intact)

include hintact

theorem counted_shmget {key : ℤ} {size : ℕ}
    (hmay : MayCreate kernel (shmgetKey clock key) size shmflag)
    (hcall : shmgetHelper kernel p clock key size shmflag = .ok (kernel', result)) :
    kernel'.Counted held := by
  rcases structured_shmget hintact hmay hcall with ⟨rfl, -⟩ |
    ⟨-, -, index, append, frames, kmem, -, hlength, -, hkernel, hnew⟩
  · exact h
  have hattachments (s : ℕ) : kernel'.attachments held s = kernel.attachments held s := by
    rw [hkernel]
    rfl
  have hnotMem : index ∉ kernel.shmpgtable.bases := by
    intro hmem
    have hout := hnew.apart hintact.coherent hmem le_rfl
      (Nat.lt_add_of_pos_right (hintact.coherent.tiling.positive index hmem))
    have hpos := hnew.nonempty
    omega
  have hbases := (hintact.coherent.insert hnew).2
  refine ⟨fun s hs ↦ ?_, fun s hs ↦ ?_, fun s ↦ ?_⟩
  · rw [hattachments s]
    rw [hbases] at hs
    rcases Finset.mem_insert.mp hs with rfl | hold
    · rw [h.only s hnotMem, hkernel, Kernel.created,
        created_of_mem le_rfl (by rw [hlength]; exact Nat.lt_add_of_pos_right hnew.nonempty)]
      rfl
    · rw [hnew.others s (hnew.apart hintact.coherent hold le_rfl
        (Nat.lt_add_of_pos_right (hintact.coherent.tiling.positive s hold)))]
      exact h.exact s hold
  · rw [hattachments s]
    rw [hbases] at hs
    exact h.only s fun hold ↦ hs (Finset.mem_insert_of_mem hold)
  · rw [hattachments s]
    exact h.word s

theorem counted_removeshm {shmIdentifier : ℤ} (hmay : MayRemove kernel.shmpgtable shmIdentifier flag)
    (hcall : removeshmHelper kernel shmIdentifier flag = .ok (kernel', result)) :
    kernel'.Counted held := by
  rcases structured_removeshm hintact hmay hcall with ⟨htable, hproc, -, -⟩ |
    ⟨s, -, hs, ⟨-, -, rfl⟩ | ⟨-, hnattch, kmem, -, rfl⟩⟩
  · exact h.of_same htable fun q ↦ by rw [hproc]
  · refine h.congr (Recounted.setDest hintact.coherent hs).bases (fun t _ ↦ ?_) fun _ ↦ rfl
    exact onPages_field ShmidDs.setDest ShmidDs.shmNattch (fun _ ↦ rfl) t
  · have hbases := (hintact.coherent.freed hs).2
    refine ⟨fun t ht ↦ ?_, fun t ht ↦ ?_, h.word⟩
    · obtain ⟨hne, hold⟩ := Finset.mem_erase.mp (hbases ▸ ht)
      rw [hintact.coherent.nattch_onPages hs hold, if_neg hne]
      exact h.exact t hold
    · by_cases hts : t = s
      · subst hts
        exact (h.exact t hs).symm.trans hnattch
      · refine h.only t fun hold ↦ ht ?_
        rw [hbases]
        exact Finset.mem_erase.mpr ⟨hts, hold⟩

theorem counted_shmctl {cmd : ℤ} {buf buf' : ShmidDs}
    (hmay : MayControl kernel.shmpgtable shmid cmd buf)
    (hset : cmd = ipcSet → buf.shmNattch = (kernel.shmpgtable.shmSegs shmid.toNat).shmNattch)
    (hcall : shmctlHelper kernel shmid cmd buf = .ok (kernel', result, buf')) :
    kernel'.Counted held := by
  rcases structured_shmctl hintact hmay hcall with
    rfl | ⟨s, rfl, -, ⟨hcmd, hs, hpages, hkey, -, rfl⟩ | ⟨-, rfl⟩⟩
  · exact h
  · refine h.congr (hintact.coherent.onPages hs (KeepsSegment.set hpages hkey)).2 (fun t ht ↦ ?_)
      fun _ ↦ rfl
    rw [hintact.coherent.nattch_onPages hs ht]
    split
    · rename_i hts
      subst hts
      exact hset hcmd
    · rfl
  · refine h.congr (Recounted.markDest hintact.coherent s _).bases (fun t _ ↦ ?_) fun _ ↦ rfl
    exact onPages_field ShmidDs.markDest ShmidDs.shmNattch (fun _ ↦ rfl) t

variable (hp : p < nProc) (halive : (kernel.proc p).isAlive = true)

include hp halive

theorem counted_shmat (hmiddle : kernel.shmpgtable.isMiddle shmid = false)
    (hroom : (kernel.shmpgtable.shmSegs shmid.toNat).shmNattch + 1 < Word.size)
    (hcall : shmatHelper kernel p clock shmid shmaddr shmflag = .ok (kernel', result))
    {attachment : Attachment} (hid : attachment.shmid = shmid.toNat) :
    kernel'.Counted (if 0 ≤ result then update held p (attachment :: held p) else held) := by
  rcases structured_shmat hintact hmiddle hcall with
    ⟨rfl, hneg⟩ | ⟨s, w, rfl, hs, -, -, ⟨st, -, hkernel, rfl⟩ | ⟨-, -, rfl, rfl⟩⟩
  · rw [if_neg (by omega)]
    exact h
  · rw [if_pos (Int.natCast_nonneg _)]
    rw [Int.toNat_natCast] at hid hroom
    have htable : kernel'.shmpgtable = kernel.shmpgtable.onPages s (kernel.shmpgtable.pagesAt s)
        (ShmidDs.attached clock (kernel.proc p).pid) := by
      rw [hkernel]
      rfl
    have hnattch (t : ℕ) (ht : t ∈ kernel.shmpgtable.bases) :
        (kernel'.shmpgtable.shmSegs t).shmNattch =
          (kernel.shmpgtable.shmSegs t).shmNattch + if attachment.shmid = t then 1 else 0 := by
      rw [htable, hintact.coherent.nattch_onPages hs ht, hid]
      by_cases hts : t = s
      · subst hts
        rw [if_pos rfl, if_pos rfl]
        exact Word.add_eq hroom
      · rw [if_neg hts, if_neg (Ne.symm hts), Nat.add_zero]
    have hbases : kernel'.shmpgtable.bases = kernel.shmpgtable.bases := by
      rw [htable]
      exact (Recounted.attached hintact.coherent hs clock (kernel.proc p).pid).bases
    refine h.update hp halive (hkernel ▸ putAttaching_state _ _) hbases
      (fun t ht ↦ ?_) (fun t ht ↦ ?_) fun t ht ↦ ?_
    · rw [attachmentsOf_cons, hnattch t ht]
      omega
    · have hne : attachment.shmid ≠ t := fun hsame ↦ ht (hsame ▸ hid ▸ hs)
      rw [attachmentsOf_cons, if_neg hne, h.attachmentsOf_eq_zero hp halive ht]
    · rw [hnattch t ht, hid]
      have hword := lt_of_eq_of_lt (h.exact t ht) (h.word t)
      split
      · rename_i hst
        exact hst ▸ hroom
      · exact hword
  · -- the slot is recorded, but nothing is attached
    rw [if_neg (by decide)]
    refine h.congr rfl (fun _ _ ↦ rfl) fun t ↦ ?_
    exact attachments_congr fun q ↦ attachmentsAt_congr (putAttaching_state _ _ q) rfl

theorem counted_shmdt (hends : heapLimit ≤ shmaddr →
      ((kernel.proc p).shmsegs (addrSlot shmaddr)).isAttached = true →
      ∃ attachment, (held p).filter (fun attachment ↦ attachment.start == shmaddr) = [attachment] ∧
        ((kernel.proc p).shmsegs (addrSlot shmaddr)).shmid = attachment.shmid)
    (hcall : shmdtHelper kernel p clock shmaddr = .ok (kernel', result)) :
    kernel'.Counted (if result = 0 then
      update held p ((held p).filter fun attachment ↦ attachment.start != shmaddr)
    else held) := by
  rcases shmdtHelper_cases hintact.sane.table hcall with
    ⟨rfl, hneg⟩ | ⟨rfl, hlow, -, hattached, s, st, hdetaches⟩
  · rw [if_neg (by omega)]
    exact h
  rw [if_pos rfl]
  obtain ⟨attachment, hfilter, hrecorded⟩ := hends hlow hattached
  have hid : attachment.shmid = s := Int.ofNat_inj.mp (hrecorded.symm.trans hdetaches.recorded)
  -- the attachment that ends is one of a segment
  have hsplit (t : ℕ) :
      attachmentsOf t ((held p).filter fun attachment ↦ attachment.start != shmaddr) +
        (if s = t then 1 else 0) = attachmentsOf t (held p) := by
    have hall := attachmentsOf_filter t (fun attachment ↦ attachment.start == shmaddr) (held p)
    rw [hfilter, attachmentsOf_cons, hid, attachmentsOf_nil, Nat.zero_add] at hall
    exact hall
  have hs : s ∈ kernel.shmpgtable.bases := by
    by_contra hout
    have hnone := hsplit s
    rw [h.attachmentsOf_eq_zero hp halive hout, if_pos rfl] at hnone
    omega
  have hnattch (t : ℕ) (ht : t ∈ kernel.shmpgtable.bases) :
      (kernel'.shmpgtable.shmSegs t).shmNattch + (if s = t then 1 else 0) =
        (kernel.shmpgtable.shmSegs t).shmNattch := by
    have hcount := hdetaches.nattch t
    by_cases hst : s = t
    · subst hst
      have hexact := h.exact s hs
      have hle := @attachmentsOf_le kernel held p s hp halive
      have hlist := hsplit s
      have hword := h.word s
      rw [if_pos rfl] at hlist ⊢
      rw [if_pos ⟨le_rfl, Nat.lt_add_of_pos_right (hintact.coherent.tiling.positive s hs)⟩,
        Word.sub_eq (by omega) (by omega)] at hcount
      omega
    · have hout := hintact.coherent.outside hs ht (Ne.symm hst) le_rfl
        (Nat.lt_add_of_pos_right (hintact.coherent.tiling.positive t ht))
      rw [if_neg (by omega)] at hcount
      rw [if_neg hst, hcount, Nat.add_zero]
  have hbases : kernel'.shmpgtable.bases = kernel.shmpgtable.bases := by
    rw [hdetaches.result]
    exact (Recounted.detached hintact.coherent (Or.inl hs) clock (kernel.proc p).pid).bases
  refine h.update hp halive (hdetaches.result ▸ putAttaching_state _ _) hbases
    (fun t ht ↦ ?_) (fun t ht ↦ ?_) fun t ht ↦ ?_
  · have hcount := hnattch t ht
    have hlist := hsplit t
    omega
  · have hlist := hsplit t
    rw [h.attachmentsOf_eq_zero hp halive ht] at hlist
    omega
  · have hcount := hnattch t ht
    have hword := lt_of_eq_of_lt (h.exact t ht) (h.word t)
    omega

/-- The child of a `fork` holds what its parent holds. -/
theorem Kernel.Counted.forked (hmiddle : ∀ w < shmMaxSeg,
      kernel.shmpgtable.isMiddle ((kernel.proc p).shmsegs w).shmid = false)
    (hids : ∀ s : ℕ, (if (kernel.proc p).pid > 2 then inheritedIds (kernel.proc p).shmsegs
        else []).count (s : ℤ) = attachmentsOf s (held p) ∧
      (s ∈ kernel.shmpgtable.bases →
        (kernel.shmpgtable.shmSegs s).shmNattch + attachmentsOf s (held p) < Word.size))
    {np kstack : ℕ} {pgdir : Pgdir} (hforked : Forked kernel p clock np kstack pgdir kernel') :
    kernel'.Counted fun q ↦
      if (kernel.proc q).state = .unused ∧ (kernel'.proc q).state ≠ .unused then held p
      else held q := by
  have hstructured : ∀ shmid ∈ (if (kernel.proc p).pid > 2 then
      inheritedIds (kernel.proc p).shmsegs else []), kernel.shmpgtable.isMiddle shmid = false := by
    split
    · exact inheritedIds_structured hmiddle
    · simp
  have hnattch (s : ℕ) (hs : s ∈ kernel.shmpgtable.bases) :
      (kernel'.shmpgtable.shmSegs s).shmNattch =
        (kernel.shmpgtable.shmSegs s).shmNattch + attachmentsOf s (held p) := by
    obtain ⟨hcount, hroom⟩ := hids s
    rw [updateAll_nattch hintact.coherent hstructured hforked.table s hs, hcount]
    exact iterate_add_one (hroom hs)
  have hchild : (kernel'.proc np).state = .runnable := by
    rw [hforked.procs, update_self]
    rfl
  have hbefore (s : ℕ) : kernel.attachmentsAt held s np = 0 := by
    rw [attachmentsAt, Proc.isAlive, hforked.unused]
    rfl
  have hothers (q : ℕ) (hq : q ≠ np) : (kernel'.proc q).state = (kernel.proc q).state := by
    rw [hforked.procs, update_of_ne hq]
  have hafter (s : ℕ) : kernel'.attachmentsAt (fun q ↦
      if (kernel.proc q).state = .unused ∧ (kernel'.proc q).state ≠ .unused then held p
      else held q) s np = attachmentsOf s (held p) := by
    rw [attachmentsAt, Proc.isAlive, hchild, hforked.unused]
    rfl
  refine h.exchange hforked.slot_lt (fun q hq ↦ ⟨hothers q hq, ?_⟩)
    (Recounted.updateAll hintact.coherent hstructured hforked.table).bases (fun s hs ↦ ?_)
    (fun s hs ↦ ?_) fun s hs ↦ ?_
  · rw [hothers q hq, if_neg (fun hboth ↦ hboth.2 hboth.1)]
  · rw [hbefore, hafter, hnattch s hs, Nat.add_zero]
  · rw [hafter, h.attachmentsOf_eq_zero hp halive hs]
  · rw [hnattch s hs]
    exact (hids s).2 hs

theorem counted_exec {file : Option ExecFile} {argv : List (List UInt8)}
    (hmiddle : ∀ w < shmMaxSeg, ((kernel.proc p).shmsegs w).isAttached = true →
      kernel.shmpgtable.isMiddle ((kernel.proc p).shmsegs w).shmid = false)
    (hids : ∀ s : ℕ, (droppedIds (kernel.proc p).shmsegs).count (s : ℤ) = attachmentsOf s (held p))
    (hcall : exec kernel p clock file argv = .ok (kernel', result)) :
    kernel'.Counted (if 0 ≤ result then update held p [] else held) := by
  rcases exec_cases hcall with ⟨rfl, kmem, rfl, -⟩ | ⟨rfl, image, hexeced⟩
  · rw [if_neg (by decide)]
    exact h.of_same rfl fun _ ↦ rfl
  rw [if_pos le_rfl]
  have hstructured := droppedIds_structured hmiddle
  have hnattch (s : ℕ) (hs : s ∈ kernel.shmpgtable.bases) :
      (kernel'.shmpgtable.shmSegs s).shmNattch + attachmentsOf s (held p) =
        (kernel.shmpgtable.shmSegs s).shmNattch := by
    have hexact := h.exact s hs
    have hword := h.word s
    have hle := @attachmentsOf_le kernel held p s hp halive
    rw [updateAll_nattch hintact.coherent hstructured hexeced.table s hs, hids s,
      iterate_sub_one (by omega) (by omega)]
    omega
  refine h.update hp halive (state_of_update hexeced.procs rfl)
    (Recounted.updateAll hintact.coherent hstructured hexeced.table).bases hnattch
    (fun s _ ↦ rfl) fun s hs ↦ ?_
  have hcount := hnattch s hs
  have hword := lt_of_eq_of_lt (h.exact s hs) (h.word s)
  omega

omit hp halive

omit hintact

theorem counted_exit (hnone : held p = []) (hcall : exit kernel p = .ok (kernel', result)) :
    kernel'.Counted (update held p []) := by
  obtain ⟨-, htable, -, hprocs⟩ := exit_cases hcall
  rw [← hnone, update_eq_self]
  refine h.congr (by rw [htable]) (fun s _ ↦ by rw [htable]) fun s ↦ ?_
  apply attachments_congr
  intro q
  by_cases hq : q = p
  · subst hq
    simp [attachmentsAt, hnone]
  · apply attachmentsAt_congr _ rfl
    obtain ⟨parent, hproc⟩ := hprocs q
    rw [hproc, if_neg hq]

theorem counted_wait (hcall : wait kernel p = .ok (kernel', result)) : kernel'.Counted held := by
  rcases wait_cases hcall with rfl | ⟨q, kmem, -, hzombie, -, rfl⟩
  · exact h
  refine h.congr rfl (fun _ _ ↦ rfl) fun s ↦ ?_
  apply attachments_congr
  intro r
  by_cases hr : r = q
  · subst hr
    simp [attachmentsAt, Proc.isAlive, hzombie]
  · apply attachmentsAt_congr _ rfl
    rw [setProc_proc_of_ne _ _ hr]

end Calls

theorem Kernel.Counted.step {kernel kernel' : Kernel} {held : ℕ → List Attachment} {label : Label}
    {result : ℤ} (h : kernel.Counted held) (hintact : kernel.Intact)
    (hstructured : Structured kernel label) (hmatch : CountsMatch kernel held label)
    (hstep : step kernel label = .ok (kernel', result)) :
    kernel'.Counted (noteAttachments held kernel label kernel' result) := by
  obtain ⟨hp, hrun, hcall⟩ := step_eq_ok hstep
  have halive := Proc.isAlive_of_canRun hrun
  have hsizes := hintact.sane.sizes label.proc
  unfold noteAttachments
  obtain ⟨p, clock, call⟩ := label
  cases call with
  | shmget key size shmflag =>
    exact counted_shmget h hintact hstructured hcall
  | shmat shmid shmaddr shmflag =>
    exact counted_shmat h hintact hp halive hstructured hmatch hcall rfl
  | shmdt shmaddr =>
    exact counted_shmdt h hintact hp halive hmatch hcall
  | shmctl shmid cmd buf =>
    obtain ⟨buf', hctl⟩ := perform_shmctl hcall
    exact counted_shmctl h hintact hstructured hmatch hctl
  | removeshm shmIdentifier flag =>
    exact counted_removeshm h hintact hstructured hcall
  | sbrk n =>
    rcases sysSbrk_cases hsizes hcall with rfl | ⟨vm, sz, hresized⟩
    · exact h
    · rw [hresized.result]
      exact h.of_same rfl (state_of_update rfl rfl)
  | fork =>
    rcases fork_cases hsizes hcall with ⟨-, hfailed⟩ | ⟨-, np, kstack, pgdir, hforked⟩
    · have hstate (q : ℕ) : (kernel'.proc q).state = (kernel.proc q).state := by
        rcases hfailed.procs q with hsame | ⟨-, pid, kstack, hslot⟩
        · rw [hsame]
        · rw [hslot]
      have hheld : (fun q ↦ if (kernel.proc q).state = .unused ∧ (kernel'.proc q).state ≠ .unused
          then held p else held q) = held := by
        ext1 q
        rw [hstate q, if_neg fun hboth ↦ hboth.2 hboth.1]
      rw [hheld]
      exact h.of_same hfailed.table hstate
    · exact h.forked hintact hp halive hstructured hmatch hforked
  | exec file argv =>
    exact counted_exec h hintact hp halive hstructured hmatch hcall
  | exit =>
    exact counted_exit h hmatch hcall
  | wait =>
    exact counted_wait h hcall

/-- In a run whose steps all meet the conditions the attach counts are exact. -/
theorem attach_counts_exact_of_runs {start kernel : Kernel} {held : ℕ → List Attachment}
    (hboot : Boot start) (hrun : Runs (observe step noteAttachments) (fun observed label ↦
        Structured observed.1 label ∧ CountsMatch observed.1 observed.2 label)
      (start, fun _ ↦ []) (kernel, held)) : AttachCountsExact kernel held := by
  have hnone (s : ℕ) : start.attachments (fun _ ↦ []) s = 0 := by
    simp [attachments, attachmentsAt]
  have hstart : start.Counted fun _ ↦ [] := by
    refine ⟨fun s hs ↦ ?_, fun s _ ↦ hnone s, fun s ↦ ?_⟩
    · rw [hboot.table, bases_initial] at hs
      exact absurd hs (Finset.notMem_empty s)
    · rw [hnone s]
      exact Nat.two_pow_pos 32
  have hinvariant := hrun.invariant
    (fun observed ↦ observed.1.Intact ∧ observed.1.Counted observed.2) ⟨hboot.intact, hstart⟩ ?_
  · exact hinvariant.2.exact
  · rintro ⟨kernel, held⟩ label ⟨kernel', held'⟩ result ⟨hintact, hcounted⟩ ⟨hstructured, hmatch⟩
      hobserved
    obtain ⟨hstep, hnote⟩ := observe_eq_ok.mp hobserved
    dsimp only at hstep hnote
    subst hnote
    exact ⟨(hintact.step hstructured hstep).1, hcounted.step hintact hstructured hmatch hstep⟩

/-- A segment is attached by the process with pid 3, and the process exits. -/
theorem exit_keeps_count : ∃ kernel held, Runs (observe step noteAttachments) (fun _ _ ↦ True)
      (startKernel 3, fun _ ↦ []) (kernel, held) ∧
    ((startKernel 3).proc 2).pid = 3 ∧ 0 ∈ kernel.shmpgtable.bases ∧
    (kernel.shmpgtable.shmSegs 0).shmNattch = 1 ∧ kernel.attachments held 0 = 0 := by
  apply Runs.of_labels_observed
    [startLabel (.shmget 5 4096 ipcCreat), startLabel (.shmat 0 0 2), startLabel .exit]
  decide +kernel

/-- One page is attached. -/
theorem attach_counts_exact_of_runs_attached : ∃ kernel held, Runs (observe step noteAttachments)
      (fun observed label ↦ Structured observed.1 label ∧ CountsMatch observed.1 observed.2 label)
      (startKernel 3, fun _ ↦ []) (kernel, held) ∧
    0 ∈ kernel.shmpgtable.bases ∧ (kernel.shmpgtable.shmSegs 0).shmNattch = 1 ∧
    AttachCountsExact kernel held := by
  obtain ⟨created, id, hget, hattach, hroom, attached, va, hat, hbase, hnattch⟩ : ∃ created id,
      step (startKernel 3) (startLabel (.shmget 5 4096 ipcCreat)) = .ok (created, id) ∧
      Structured created (startLabel (.shmat 0 0 2)) ∧
      (created.shmpgtable.shmSegs 0).shmNattch + 1 < Word.size ∧
      ∃ attached va, step created (startLabel (.shmat 0 0 2)) = .ok (attached, va) ∧
        0 ∈ attached.shmpgtable.bases ∧ (attached.shmpgtable.shmSegs 0).shmNattch = 1 := by
    decide +kernel
  have hfirst : Runs (observe step noteAttachments) (fun observed label ↦
        Structured observed.1 label ∧ CountsMatch observed.1 observed.2 label)
      (startKernel 3, fun _ ↦ []) (created, _) :=
    (Runs.refl _).observed ⟨by decide +kernel, by trivial⟩ hget
  have hsteps := hfirst.observed ⟨hattach, hroom⟩ hat
  exact ⟨attached, _, hsteps, hbase, hnattch,
    attach_counts_exact_of_runs (startKernel_boot _) hsteps⟩

end Xv6Shm
