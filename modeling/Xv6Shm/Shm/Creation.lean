import Xv6Shm.Shm.Cases

/-!
# Interleaved calls of shmget

`shmget` takes the lock of the table only while it enters a page. Its calls are taken apart into the
steps between which other calls can run. A call keeps the list of its frames, where the source keeps
their number.
-/

namespace Xv6Shm

open Fallible

/-- The arguments of a call, with the clock it reads and the pid of its process. -/
structure ShmgetArgs where
  key : ℤ
  size : ℕ
  shmflag : ℕ
  clock : Clock
  pid : ℤ

namespace ShmgetArgs

/-- The key that is searched for and entered. -/
def searchKey (args : ShmgetArgs) : ℤ := shmgetKey args.clock args.key

def pages (args : ShmgetArgs) : ℕ := sizePages args.size

/-- The slot that is entered for the page at address `mem`. -/
def slot (args : ShmgetArgs) (mem : ℕ) : ShmidDs :=
  ShmidDs.fresh (v2p mem) args.searchKey (pgRoundUp args.size) args.pid (args.shmflag &&& 3)

/-- The call fails if its key exists. -/
def isExclusive (args : ShmgetArgs) : Bool := args.shmflag == ipcCreat ||| ipcExcl

end ShmgetArgs

/-- Where a call enters its segment, and whether it is behind the last slot. -/
structure Room where
  index : ℤ
  append : Bool
deriving DecidableEq

/-- What a call does next. -/
inductive Phase where
  | ready
  | searched (found : Option ℕ)
  | sized
  | allocating (room : Room) (frames : List ℕ)
  | mapping (room : Room) (frames : List ℕ) (mem : ℕ)
  | counting (room : Room) (frames : List ℕ)
  | created (room : Room) (frames : List ℕ)
  | returned (result : ℤ)
deriving DecidableEq

structure ShmgetCall where
  args : ShmgetArgs
  phase : Phase

/-- The state that the calls share, and the calls. -/
structure Creation (Id : Type) where
  kmem : Kmem
  table : ShmPgTable
  calls : Id → ShmgetCall

/-- Entering `allocShmSeg`. -/
def ShmgetArgs.enter (args : ShmgetArgs) : Phase :=
  if args.size < shmMin ∨ args.size > maxSegSize then .returned eInval else .sized

/-- The decision of `shmgetHelper` behind the key search. -/
def ShmgetArgs.choose (args : ShmgetArgs) (table : ShmPgTable) (found : Option ℕ) : Phase :=
  if args.shmflag = ipcCreat ||| ipcExcl then
    match found with
    | some _ => .returned eExist
    | none => args.enter
  else if args.shmflag = ipcCreat then
    match found with
    | some i =>
      if (table.shmSegs i).shmSegsz ≤ args.size then .returned i
      else if ¬ (table.shmSegs i).shmSegsz > args.size then .returned eInval
      else args.enter
    | none => args.enter
  else
    match found with
    | some i => .returned i
    | none => .returned eNoent

/-- The next step of a call. -/
def ShmgetArgs.advance (args : ShmgetArgs) (kmem : Kmem) (table : ShmPgTable) :
    Phase → Except Fault (Kmem × ShmPgTable × Phase)
  | .ready => do
    let found ← table.findKey args.searchKey
    pure (kmem, table, .searched found)
  | .searched found => pure (kmem, table, args.choose table found)
  | .sized => do
    let bound ← table.scanBound
    let (index, append) := table.findRoom args.pages bound
    if index + args.pages > shmMaxSeg then pure (kmem, table, .returned eNospc)
    else pure (kmem, table, .allocating ⟨index, append⟩ [])
  | .allocating room frames =>
    if frames.length = args.pages then pure (kmem, table, .created room frames)
    else
      match kmem.kalloc with
      | none => do
        let table ← unmapShmSegPage table frames.length
        pure (kmem, table, .returned (-1))
      | some (mem, kmem) => pure (kmem.memset mem 0 pgSize, table, .mapping room frames mem)
  | .mapping room frames mem => do
    let table ← mapShmSegPage table (v2p mem) args.searchKey (pgRoundUp args.size)
      (room.index + frames.length) args.pid (args.shmflag &&& 3)
    pure (kmem, table, .counting room (frames ++ [mem]))
  | .counting room frames =>
    let table :=
      if room.append then { table with lastShmSegIndex := table.lastShmSegIndex + 1 } else table
    pure (kmem, table, .allocating room frames)
  | .created _ _ | .returned _ => .error .blocked

/-- One step of call `c`. -/
def Creation.step {Id : Type} [DecidableEq Id] (state : Creation Id) (c : Id) :
    Except Fault (Creation Id × Unit) := do
  let call := state.calls c
  let (kmem, table, phase) ← call.args.advance state.kmem state.table call.phase
  pure ({ kmem := kmem, table := table
          calls := Function.update state.calls c { call with phase := phase } }, ())

/-- The result of a call that has ended. -/
def Phase.result? : Phase → Option ℤ
  | created room _ => some room.index
  | returned result => some result
  | _ => none

/-- The steps of a call between which no other call runs. -/
def ShmgetArgs.Solo (args : ShmgetArgs) :
    Kmem × ShmPgTable × Phase → Kmem × ShmPgTable × Phase → Prop :=
  Relation.ReflTransGen fun state next ↦ args.advance state.1 state.2.1 state.2.2 = .ok next

section Solo

variable {args : ShmgetArgs} {kernel kernel' : Kernel} {p : ℕ} {result : ℤ}

variable {kmem kmem' : Kmem} {table table' : ShmPgTable}

theorem ShmgetArgs.Solo.head {phase phase' : Phase} {finish : Kmem × ShmPgTable × Phase}
    (hstep : args.advance kmem table phase = .ok (kmem', table', phase'))
    (hrest : args.Solo (kmem', table', phase') finish) : args.Solo (kmem, table, phase) finish :=
  Relation.ReflTransGen.head hstep hrest

theorem ShmgetArgs.solo_loop {room : Room} {remaining : ℕ} {frames : List ℕ} {ok : Bool}
    (hlength : frames.length + remaining = args.pages)
    (h : allocShmSegLoop args.searchKey (pgRoundUp args.size) args.pid (args.shmflag &&& 3) room.append
      remaining frames.length (room.index + frames.length) kmem table = .ok (kmem', table', ok)) :
    ∃ phase, phase.result? = some (if ok then room.index else -1) ∧ args.Solo (kmem, table,
      .allocating room frames) (kmem', table', phase) := by
  induction remaining generalizing frames kmem kmem' table table' ok with
  | zero =>
    cases h
    refine ⟨.created room frames, rfl, Relation.ReflTransGen.single ?_⟩
    exact if_pos hlength
  | succ remaining ih =>
    have hmore : frames.length ≠ args.pages := by omega
    rw [allocShmSegLoop] at h
    cases hkalloc : kmem.kalloc with
    | none =>
      rw [hkalloc] at h
      obtain ⟨unmapped, hunmap, h⟩ := bind_eq_ok.mp h
      cases h
      refine ⟨.returned (-1), rfl, Relation.ReflTransGen.single ?_⟩
      dsimp only [advance]
      rw [if_neg hmore, hkalloc]
      rw [hunmap, ok_bind, pure_eq_ok]
    | some pair =>
      obtain ⟨mem, rest⟩ := pair
      rw [hkalloc] at h
      obtain ⟨mapped, hmap, h⟩ := bind_eq_ok.mp h
      have hcast : room.index + frames.length + 1 = room.index + (frames ++ [mem]).length := by
        rw [List.length_append, List.length_singleton]
        omega
      have hdone : frames.length + 1 = (frames ++ [mem]).length := by
        rw [List.length_append, List.length_singleton]
      rw [hcast, hdone] at h
      obtain ⟨phase, hphase, hrest⟩ := ih (by omega) h
      have hallocate : args.advance kmem table (.allocating room frames) =
          .ok (rest.memset mem 0 pgSize, table, .mapping room frames mem) := by
        dsimp only [advance]
        rw [if_neg hmore, hkalloc]
        rfl
      have hmapping : args.advance (rest.memset mem 0 pgSize) table (.mapping room frames mem) =
          .ok (rest.memset mem 0 pgSize, mapped, .counting room (frames ++ [mem])) := by
        dsimp only [advance]
        rw [hmap, ok_bind, pure_eq_ok]
      exact ⟨phase, hphase, Solo.head hallocate (Solo.head hmapping (Solo.head rfl hrest))⟩

theorem allocShmSeg_solo (hpid : args.pid = (kernel.proc p).pid)
    (h : allocShmSeg kernel p args.size args.searchKey args.shmflag = .ok (kernel', result)) :
    ∃ phase, phase.result? = some result ∧ args.Solo (kernel.kmem, kernel.shmpgtable, args.enter)
        (kernel'.kmem, kernel'.shmpgtable, phase) := by
  unfold allocShmSeg at h
  unfold ShmgetArgs.enter
  split at h
  · rename_i hsize
    cases h
    rw [if_pos hsize]
    exact ⟨.returned eInval, rfl, Relation.ReflTransGen.refl⟩
  · rename_i hsize
    rw [if_neg hsize]
    have hpages : pgRoundUp args.size / pgSize = args.pages := rfl
    dsimp only at h
    rw [hpages] at h
    obtain ⟨bound, hbound, h⟩ := bind_eq_ok.mp h
    generalize hroom : kernel.shmpgtable.findRoom args.pages bound = room at h
    obtain ⟨index, append⟩ := room
    have hsearch : args.advance kernel.kmem kernel.shmpgtable .sized =
        (if index + args.pages > shmMaxSeg then
          .ok (kernel.kmem, kernel.shmpgtable, .returned eNospc)
        else .ok (kernel.kmem, kernel.shmpgtable, .allocating ⟨index, append⟩ [])) := by
      dsimp only [ShmgetArgs.advance]
      rw [hbound, ok_bind, hroom]
      rfl
    split at h
    · rename_i hfits
      cases h
      rw [if_pos hfits] at hsearch
      exact ⟨.returned eNospc, rfl, Relation.ReflTransGen.single hsearch⟩
    · rename_i hfits
      rw [if_neg hfits] at hsearch
      obtain ⟨⟨kmem, table, ok⟩, hloop, h⟩ := bind_eq_ok.mp h
      rw [← hpid] at hloop
      have hstart : index + (([] : List ℕ).length : ℤ) = index := by
        rw [List.length_nil, Nat.cast_zero, add_zero]
      obtain ⟨phase, hphase, hsolo⟩ := ShmgetArgs.solo_loop (Nat.zero_add args.pages)
        (show allocShmSegLoop args.searchKey _ args.pid _ (⟨index, append⟩ : Room).append
          args.pages ([] : List ℕ).length
          ((⟨index, append⟩ : Room).index + (([] : List ℕ).length : ℤ)) kernel.kmem
          kernel.shmpgtable = .ok (kmem, table, ok) by
            rw [hstart]
            exact hloop)
      cases ok with
      | false | true =>
        cases h
        exact ⟨phase, hphase, .head hsearch hsolo⟩

/-- Without interruption the steps of a call compute `shmgetHelper`. -/
theorem shmgetHelper_solo (hpid : args.pid = (kernel.proc p).pid)
    (h : shmgetHelper kernel p args.clock args.key args.size args.shmflag = .ok (kernel', result)) :
    ∃ phase, phase.result? = some result ∧ args.Solo (kernel.kmem, kernel.shmpgtable, .ready)
        (kernel'.kmem, kernel'.shmpgtable, phase) := by
  obtain ⟨found, hfind, h⟩ := bind_eq_ok.mp h
  have hready : args.advance kernel.kmem kernel.shmpgtable .ready =
      .ok (kernel.kmem, kernel.shmpgtable, .searched found) := by
    dsimp only [ShmgetArgs.advance, ShmgetArgs.searchKey]
    rw [hfind, ok_bind, pure_eq_ok]
  have hchoose : args.advance kernel.kmem kernel.shmpgtable (.searched found) =
      .ok (kernel.kmem, kernel.shmpgtable, args.choose kernel.shmpgtable found) := rfl
  suffices hrest : ∃ phase, phase.result? = some result ∧
      args.Solo (kernel.kmem, kernel.shmpgtable, args.choose kernel.shmpgtable found)
        (kernel'.kmem, kernel'.shmpgtable, phase) by
    obtain ⟨phase, hphase, hsolo⟩ := hrest
    exact ⟨phase, hphase, .head hready (.head hchoose hsolo)⟩
  have hends {code : ℤ} (hcode : (.ok (kernel, code) : Except Fault (Kernel × ℤ)) =
      .ok (kernel', result)) : ∃ phase, phase.result? = some result ∧
      args.Solo (kernel.kmem, kernel.shmpgtable, .returned code)
        (kernel'.kmem, kernel'.shmpgtable, phase) := by
    cases hcode
    exact ⟨.returned result, rfl, Relation.ReflTransGen.refl⟩
  unfold ShmgetArgs.choose
  split at h
  · rename_i hflag
    rw [if_pos hflag]
    cases found with
    | some i => exact hends h
    | none => exact allocShmSeg_solo hpid h
  · rename_i hflag
    rw [if_neg hflag]
    split at h
    · rename_i hcreat
      rw [if_pos hcreat]
      cases found with
      | some i =>
        dsimp only at h ⊢
        split at h
        · rename_i hsize
          rw [if_pos hsize]
          exact hends h
        · rename_i hsize
          rw [if_neg hsize]
          split at h
          · rename_i hlarger
            rw [if_pos hlarger]
            exact hends h
          · rename_i hlarger
            rw [if_neg hlarger]
            exact allocShmSeg_solo hpid h
      | none => exact allocShmSeg_solo hpid h
    · rename_i hcreat
      rw [if_neg hcreat]
      cases found with
      | some i => exact hends h
      | none => exact hends h

end Solo

namespace Phase

/-- The call is between its search for room and its end. -/
def inSection : Phase → Bool
  | allocating _ _ | mapping _ _ _ | counting _ _ => true
  | _ => false

/-- The call has begun and has not ended. -/
def inProgress : Phase → Bool
  | ready | created _ _ | returned _ => false
  | _ => true

/-- The call may still create a segment, or has done so. -/
def isLive : Phase → Bool
  | searched none | sized | allocating _ _ | mapping _ _ _ | counting _ _ | created _ _ => true
  | _ => false

/-- The room of a call that has found one. -/
def room? : Phase → Option Room
  | allocating room _ | mapping room _ _ | counting room _ | created room _ => some room
  | _ => none

end Phase

/-- The first slot of the room. -/
def Room.start (room : Room) : ℕ := room.index.toNat

/-- The slots of two rooms of the given lengths do not meet. -/
def Room.Apart (room : Room) (pages : ℕ) (other : Room) (others : ℕ) : Prop :=
  room.start + pages ≤ other.start ∨ other.start + others ≤ room.start

end Xv6Shm
