import Xv6Shm.Shm.Creation
import Xv6Shm.System.Boot

/-!
# Creations side by side

Two calls of `shmget` side by side can find the same room or miss each other's key. They cannot if
an exclusive call for a key does not start while another one is under way, and if a call looks for
room only while no other one is filling its own.
-/

namespace Xv6Shm

open Fallible ShmPgTable Function

variable {other : ShmgetCall} {append : Bool} {found : Option ℕ} {mem : ℕ}

/-- A call alone creates the first segment. -/
theorem shmgetHelper_solo_first : ∃ (kernel : Kernel) (phase : Phase), phase.result? = some 0 ∧
    (ShmgetArgs.mk 5 4096 ipcCreat startClock 3).Solo ((startKernel 1).kmem, initial, .ready)
      (kernel.kmem, kernel.shmpgtable, phase) := by
  obtain ⟨kernel, h⟩ : ∃ kernel, shmgetHelper (startKernel 1) 2 startClock 5 4096
      ipcCreat = .ok (kernel, 0) := by
    decide +kernel
  exact ⟨kernel, @shmgetHelper_solo ⟨5, 4096, ipcCreat, startClock, 3⟩ _ _ _ _ rfl h⟩

variable {Id : Type}

/-- An exclusive call does not start while another one for its key is under way; a call looks for
room only while no other one is filling its own, for a key other than -1, and with enough free
frames. -/
def Separate (state : Creation Id) (c : Id) : Prop :=
  match (state.calls c).phase with
  | .ready => (state.calls c).args.isExclusive = true → ∀ d ≠ c,
      (state.calls d).args.isExclusive = true →
      (state.calls d).args.searchKey = (state.calls c).args.searchKey →
      (state.calls d).phase.inProgress = false
  | .sized => (∀ d ≠ c, (state.calls d).phase.inSection = false) ∧
      (state.calls c).args.searchKey ≠ -1 ∧
      (state.calls c).args.pages ≤ state.kmem.freelist.length
  | _ => True

/-- The slots entered so far by a call that has found room. -/
structure Entered (table : ShmPgTable) (args : ShmgetArgs) (room : Room) (frames : List ℕ) :
    Prop where
  index_eq : room.index = room.start
  key : args.searchKey ≠ -1
  pages_pos : 0 < args.pages
  fits : room.start + args.pages ≤ shmMaxSeg
  length_le : frames.length ≤ args.pages
  slots : ∀ j < frames.length, table.shmSegs (room.start + j) = args.slot (frames.getD j 0)

/-- The slots still to be entered by a call that has entered `done` of them and has counted
`counted`: they are behind the last slot, or inside the table and free. -/
structure Ahead (table : ShmPgTable) (args : ShmgetArgs) (room : Room) (done counted : ℕ) :
    Prop where
  extend : room.append = true → ((room.start + counted : ℕ) : ℤ) = table.lastShmSegIndex + 1
  reuse : room.append = false → ((room.start + args.pages : ℕ) : ℤ) ≤ table.lastShmSegIndex + 1 ∧
      ∀ j, done ≤ j → j < args.pages → table.isFree (room.start + j) = true

/-- What is known of a call in each phase. -/
def CallInv (kmem : Kmem) (table : ShmPgTable) (args : ShmgetArgs) : Phase → Prop
  | .ready | .searched _ | .returned _ => True
  | .sized => shmMin ≤ args.size ∧ args.size ≤ maxSegSize
  | .allocating room frames =>
    Entered table args room frames ∧ Ahead table args room frames.length frames.length ∧
      args.pages ≤ kmem.freelist.length + frames.length
  | .mapping room frames _ =>
    Entered table args room frames ∧ Ahead table args room frames.length frames.length ∧
      frames.length < args.pages ∧ args.pages ≤ kmem.freelist.length + (frames.length + 1)
  | .counting room frames =>
    Entered table args room frames ∧ Ahead table args room frames.length (frames.length - 1) ∧
      0 < frames.length ∧ args.pages ≤ kmem.freelist.length + frames.length
  | .created room frames =>
    Entered table args room frames ∧ frames.length = args.pages ∧
      ((room.start + args.pages : ℕ) : ℤ) ≤ table.lastShmSegIndex + 1

/-- Two calls that do not get in each other's way. -/
structure Compatible (call other : ShmgetCall) : Prop where
  alone : call.phase.inSection = true → other.phase.inSection = false
  apart : ∀ room room', call.phase.room? = some room → other.phase.room? = some room' →
    room.Apart call.args.pages room' other.args.pages
  exclusive : call.args.isExclusive = true → other.args.isExclusive = true →
    other.args.searchKey = call.args.searchKey → call.phase.isLive = true →
    other.phase.isLive = false

/-- What holds in every state of a run. -/
structure Creation.Inv (state : Creation Id) : Prop where
  last_ge : -1 ≤ state.table.lastShmSegIndex
  last_lt : state.table.lastShmSegIndex < shmMaxSeg
  calls : ∀ c, CallInv state.kmem state.table (state.calls c).args (state.calls c).phase
  pairs : ∀ c d, c ≠ d → Compatible (state.calls c) (state.calls d)

theorem Compatible.symm {call : ShmgetCall} (h : Compatible call other) :
    Compatible other call where
  alone hother := by
    rw [Bool.eq_false_iff]
    intro hcall
    rw [h.alone hcall] at hother
    cases hother
  apart room room' hroom hroom' := (h.apart room' room hroom' hroom).symm
  exclusive hother hcall hkey hlive := by
    rw [Bool.eq_false_iff]
    intro hcallLive
    rw [h.exclusive hcall hother hkey.symm hcallLive] at hlive
    cases hlive

theorem Compatible.goes_on {args : ShmgetArgs} {phase phase' : Phase}
    (h : Compatible ⟨args, phase⟩ other)
    (hsection : phase'.inSection = true → phase.inSection = true)
    (hroom : ∀ room, phase'.room? = some room → phase.room? = some room)
    (hlive : phase'.isLive = true → phase.isLive = true) : Compatible ⟨args, phase'⟩ other where
  alone hnew := h.alone (hsection hnew)
  apart room room' hnew hroom' := h.apart room room' (hroom room hnew) hroom'
  exclusive hcall hother hkey hnew := h.exclusive hcall hother hkey (hlive hnew)

theorem Entered.congr {table table' : ShmPgTable} {args : ShmgetArgs} {room : Room}
    {frames : List ℕ} (h : Entered table args room frames)
    (hsame : ∀ j < args.pages, table'.shmSegs (room.start + j) = table.shmSegs (room.start + j)) :
    Entered table' args room frames :=
  ⟨h.index_eq, h.key, h.pages_pos, h.fits, h.length_le, fun j hj ↦ by
    rw [hsame j (lt_of_lt_of_le hj h.length_le)]
    exact h.slots j hj⟩

section Update

variable {state : Creation Id} {c : Id} {args : ShmgetArgs} {phase phase' : Phase}
  {kmem : Kmem} {table : ShmPgTable}

theorem Creation.Inv.known (h : state.Inv) (hcall : state.calls c = ⟨args, phase⟩) :
    CallInv state.kmem state.table args phase := by
  have hknown := h.calls c
  rw [hcall] at hknown
  exact hknown

variable {d : Id} {room : Room} {frames : List ℕ}

theorem Creation.Inv.pair (h : state.Inv) (hcall : state.calls c = ⟨args, phase⟩)
    (hd : d ≠ c) : Compatible ⟨args, phase⟩ (state.calls d) := by
  have hpair := h.pairs c d (Ne.symm hd)
  rw [hcall] at hpair
  exact hpair

/-- The key of a created segment is found by every later search. -/
theorem Creation.Inv.lookup_created (h : state.Inv)
    (hphase : (state.calls d).phase = .created room frames) :
    state.table.lookup (state.calls d).args.searchKey ≠ none := by
  intro hnone
  have hknown := h.calls d
  rw [hphase] at hknown
  obtain ⟨hentered, hlength, hbound⟩ := hknown
  have hpos := hentered.pages_pos
  have hslot := hentered.slots 0 (by omega)
  refine lookup_none hnone (room.start + 0) (by omega) ?_
  rw [hslot]
  rfl

/-- A room that was just found does not meet the segments created so far. -/
theorem Creation.Inv.apart_of_placed (h : state.Inv) {index : ℕ}
    (hpos : 0 < args.pages) (hplaced : Placed state.table args.pages index append)
    {room' : Room} (hphase : (state.calls d).phase = .created room' frames) :
    (⟨index, append⟩ : Room).Apart args.pages room' (state.calls d).args.pages := by
  have hknown := h.calls d
  rw [hphase] at hknown
  obtain ⟨hentered, hlength, hbound⟩ := hknown
  have hstart : (⟨index, append⟩ : Room).start = index := Int.toNat_natCast index
  unfold Room.Apart
  rw [hstart]
  cases append with
  | true =>
    have hextend := hplaced.extend rfl
    omega
  | false =>
    obtain ⟨-, hfree⟩ := hplaced.reuse rfl
    have hpos' := hentered.pages_pos
    by_contra hmeet
    -- The larger of the two first slots would be free and in use.
    obtain ⟨i, j, hi, hj, hsame⟩ : ∃ i j, i < args.pages ∧ j < (state.calls d).args.pages ∧
        index + i = room'.start + j :=
      ⟨room'.start - index, index - room'.start, by omega, by omega, by omega⟩
    have hkey := hfree i hi
    rw [hsame, isFree, hentered.slots j (by omega), beq_iff_eq] at hkey
    exact hentered.key hkey

/-- A step inside the section writes to the room of its call only. -/
theorem Creation.Inv.others (h : state.Inv) (hcall : state.calls c = ⟨args, phase⟩)
    (hsection : phase.inSection = true) (hroom : phase.room? = some room)
    (hsame : ∀ i, i < room.start ∨ room.start + args.pages ≤ i →
      table.shmSegs i = state.table.shmSegs i)
    (hlast : state.table.lastShmSegIndex ≤ table.lastShmSegIndex) :
    ∀ d ≠ c, CallInv kmem table (state.calls d).args (state.calls d).phase := by
  intro d hd
  have hpair := h.pair hcall hd
  have halone := hpair.alone hsection
  have hknown := h.calls d
  cases hphase : (state.calls d).phase with
  | ready => trivial
  | searched found => trivial
  | returned result => trivial
  | sized =>
    rw [hphase] at hknown
    exact hknown
  | allocating room' frames =>
    rw [hphase] at halone
    cases halone
  | mapping room' frames mem =>
    rw [hphase] at halone
    cases halone
  | counting room' frames =>
    rw [hphase] at halone
    cases halone
  | created room' frames =>
    rw [hphase] at hknown
    obtain ⟨hentered, hlength, hbound⟩ := hknown
    have hapart := hpair.apart room room' hroom (by rw [hphase]; rfl)
    refine ⟨hentered.congr fun j hj ↦ hsame _ ?_, hlength, by omega⟩
    unfold Room.Apart at hapart
    dsimp only at hapart
    omega

variable [DecidableEq Id]

theorem Creation.Inv.update (h : state.Inv)
    (hlast : -1 ≤ table.lastShmSegIndex ∧ table.lastShmSegIndex < shmMaxSeg)
    (hown : CallInv kmem table args phase)
    (hothers : ∀ d ≠ c, CallInv kmem table (state.calls d).args (state.calls d).phase)
    (hpairs : ∀ d ≠ c, Compatible ⟨args, phase⟩ (state.calls d)) :
    Creation.Inv ⟨kmem, table, update state.calls c ⟨args, phase⟩⟩ where
  last_ge := hlast.1
  last_lt := hlast.2
  calls d := by
    dsimp only
    by_cases hd : d = c
    · rw [hd, update_self]
      exact hown
    · rw [update_of_ne hd]
      exact hothers d hd
  pairs a b hab := by
    dsimp only
    by_cases ha : a = c
    · subst ha
      rw [update_self, update_of_ne (Ne.symm hab)]
      exact hpairs b (Ne.symm hab)
    · rw [update_of_ne ha]
      by_cases hb : b = c
      · rw [hb, update_self]
        exact (hpairs a ha).symm
      · rw [update_of_ne hb]
        exact h.pairs a b hab

theorem Creation.Inv.same (h : state.Inv) (hown : CallInv state.kmem state.table args phase)
    (hpairs : ∀ d ≠ c, Compatible ⟨args, phase⟩ (state.calls d)) :
    Creation.Inv ⟨state.kmem, state.table, Function.update state.calls c ⟨args, phase⟩⟩ :=
  h.update ⟨h.last_ge, h.last_lt⟩ hown (fun d _ ↦ h.calls d) hpairs

/-- A call without room can only get in the way of an exclusive one. -/
theorem Compatible.of_roomless (hroom : phase.room? = none)
    (hexclusive : args.isExclusive = true → other.args.isExclusive = true →
      other.args.searchKey = args.searchKey → phase.isLive = true → other.phase.isLive = false) :
    Compatible ⟨args, phase⟩ other where
  alone hsection := by
    cases phase with
    | ready | searched | sized | returned => cases hsection
    | allocating | mapping | counting | created => cases hroom
  apart room room' hnew := by
    rw [hroom] at hnew
    cases hnew
  exclusive := hexclusive

theorem Compatible.returned (args : ShmgetArgs) (result : ℤ) (other : ShmgetCall) :
    Compatible ⟨args, .returned result⟩ other :=
  Compatible.of_roomless rfl fun _ _ _ hlive ↦ by cases hlive

theorem ShmgetArgs.choose_cases (args : ShmgetArgs) (table : ShmPgTable) (found : Option ℕ) :
    (∃ result, args.choose table found = .returned result) ∨
      (args.choose table found = .sized ∧ shmMin ≤ args.size ∧ args.size ≤ maxSegSize ∧
        (args.isExclusive = true → found = none)) := by
  have henter : (∃ result, args.enter = .returned result) ∨
      (args.enter = .sized ∧ shmMin ≤ args.size ∧ args.size ≤ maxSegSize) := by
    unfold enter
    split
    · exact Or.inl ⟨_, rfl⟩
    · exact Or.inr ⟨rfl, by omega, by omega⟩
  unfold choose isExclusive
  split
  · cases found with
    | some i => exact Or.inl ⟨_, rfl⟩
    | none => exact henter.imp_right fun ⟨hsized, hmin, hmax⟩ ↦ ⟨hsized, hmin, hmax, fun _ ↦ rfl⟩
  · rename_i hflag
    have hnot : (args.shmflag == ipcCreat ||| ipcExcl) = true → found = none :=
      fun h ↦ absurd (beq_iff_eq.mp h) hflag
    split
    · cases found with
      | some i =>
        dsimp only
        split
        · exact Or.inl ⟨_, rfl⟩
        · split
          · exact Or.inl ⟨_, rfl⟩
          · exact henter.imp_right fun ⟨hsized, hmin, hmax⟩ ↦ ⟨hsized, hmin, hmax, hnot⟩
      | none => exact henter.imp_right fun ⟨hsized, hmin, hmax⟩ ↦ ⟨hsized, hmin, hmax, hnot⟩
    · cases found with
      | some i => exact Or.inl ⟨_, rfl⟩
      | none => exact Or.inl ⟨_, rfl⟩

section

variable (h : state.Inv)

include h

theorem Creation.Inv.ready (hcall : state.calls c = ⟨args, .ready⟩) (hseparate : Separate state c)
    (hfind : state.table.findKey args.searchKey = .ok found) :
    Creation.Inv ⟨state.kmem, state.table,
      Function.update state.calls c ⟨args, .searched found⟩⟩ := by
  refine h.same trivial fun d hd ↦
    Compatible.of_roomless rfl fun hexclusive hexclusive' hkey hlive ↦ ?_
  unfold Separate at hseparate
  rw [hcall] at hseparate
  have hidle := hseparate hexclusive d hd hexclusive' hkey
  rw [Bool.eq_false_iff]
  intro hother
  -- The other call is not under way, so it has created its segment before the search.
  cases hphase : (state.calls d).phase with
  | created room frames =>
    apply h.lookup_created hphase
    rw [findKey_eq h.last_lt] at hfind
    cases hfind
    rw [hkey]
    cases hlookup : state.table.lookup args.searchKey with
    | none => rfl
    | some i =>
      rw [hlookup] at hlive
      cases hlive
  | ready =>
    rw [hphase] at hother
    cases hother
  | returned result =>
    rw [hphase] at hother
    cases hother
  | searched found' =>
    rw [hphase] at hidle
    cases hidle
  | sized =>
    rw [hphase] at hidle
    cases hidle
  | allocating room frames =>
    rw [hphase] at hidle
    cases hidle
  | mapping room frames mem =>
    rw [hphase] at hidle
    cases hidle
  | counting room frames =>
    rw [hphase] at hidle
    cases hidle

theorem Creation.Inv.searched (hcall : state.calls c = ⟨args, .searched found⟩) :
    Creation.Inv ⟨state.kmem, state.table,
      Function.update state.calls c ⟨args, args.choose state.table found⟩⟩ := by
  rcases args.choose_cases state.table found with
    ⟨result, hreturned⟩ | ⟨hsized, hmin, hmax, hnone⟩
  · rw [hreturned]
    exact h.same trivial fun d _ ↦ Compatible.returned args result _
  · rw [hsized]
    refine h.same ⟨hmin, hmax⟩ fun d hd ↦
      Compatible.of_roomless rfl fun hexclusive hexclusive' hkey _ ↦ ?_
    rw [hnone hexclusive] at hcall
    exact (h.pair hcall hd).exclusive hexclusive hexclusive' hkey rfl

theorem Creation.Inv.sized (hcall : state.calls c = ⟨args, .sized⟩) (hseparate : Separate state c)
    (hfits : (state.table.findRoom args.pages (state.table.lastShmSegIndex + 1).toNat).1 + args.pages ≤
      shmMaxSeg)
    {index : ℤ}
    (hroom : state.table.findRoom args.pages (state.table.lastShmSegIndex + 1).toNat = (index, append)) :
    Creation.Inv ⟨state.kmem, state.table,
      Function.update state.calls c ⟨args, .allocating ⟨index, append⟩ []⟩⟩ := by
  unfold Separate at hseparate
  rw [hcall] at hseparate
  obtain ⟨hmin, hmax⟩ := h.known hcall
  obtain ⟨hpos, -, -⟩ := sizePages_spec hmin hmax
  obtain ⟨hnone, hkey, hframes⟩ := hseparate
  obtain ⟨start, append', hfound, hplaced⟩ := findRoom_spec hpos h.last_ge hfits
  change state.table.findRoom args.pages _ = _ at hfound
  rw [hroom, Prod.mk.injEq] at hfound
  obtain ⟨rfl, rfl⟩ := hfound
  have hstart : (⟨start, append⟩ : Room).start = start := Int.toNat_natCast start
  refine h.same ⟨⟨by rw [hstart], hkey, hpos, ?_, Nat.zero_le _, fun j hj ↦ ?_⟩, ⟨?_, ?_⟩,
    hframes⟩ fun d hd ↦ ?_
  · rw [hstart]
    exact hplaced.fits
  · exact absurd hj (Nat.not_lt_zero j)
  · intro happend
    have hextend := hplaced.extend happend
    rw [hstart]
    exact hextend
  · intro happend
    obtain ⟨hbound, hfree⟩ := hplaced.reuse happend
    rw [hstart]
    exact ⟨hbound, fun j _ hj ↦ hfree j hj⟩
  · have hpair := h.pair hcall hd
    refine ⟨fun _ ↦ hnone d hd, fun room room' hnew hother ↦ ?_, fun hexclusive hexclusive' hsame _ ↦
      hpair.exclusive hexclusive hexclusive' hsame rfl⟩
    cases hnew
    have hidle := hnone d hd
    cases hphase : (state.calls d).phase with
    | created other frames =>
      rw [hphase] at hother
      cases hother
      exact h.apart_of_placed hpos hplaced hphase
    | ready | searched | sized | returned =>
      rw [hphase] at hother
      cases hother
    | allocating | mapping | counting =>
      rw [hphase] at hidle
      cases hidle

theorem Creation.Inv.finish (hcall : state.calls c = ⟨args, .allocating room frames⟩)
    (hlength : frames.length = args.pages) :
    Creation.Inv ⟨state.kmem, state.table,
      Function.update state.calls c ⟨args, .created room frames⟩⟩ := by
  obtain ⟨hentered, hahead, -⟩ := h.known hcall
  refine h.same ⟨hentered, hlength, ?_⟩ fun d hd ↦ ?_
  · cases happend : room.append with
    | true =>
      have hextend := hahead.extend happend
      omega
    | false => exact (hahead.reuse happend).1
  · exact (h.pair hcall hd).goes_on (fun hsection ↦ by cases hsection) (fun _ hroom ↦ hroom) fun _ ↦ rfl

theorem Creation.Inv.allocate {kmem : Kmem}
    (hcall : state.calls c = ⟨args, .allocating room frames⟩) (hlength : frames.length ≠ args.pages)
    (hkalloc : state.kmem.kalloc = some (mem, kmem)) :
    Creation.Inv ⟨kmem.memset mem 0 pgSize, state.table,
      Function.update state.calls c ⟨args, .mapping room frames mem⟩⟩ := by
  obtain ⟨hentered, hahead, hframes⟩ := h.known hcall
  have hle := hentered.length_le
  rw [(Kmem.kalloc_eq_some.mp hkalloc).1, List.length_cons] at hframes
  refine h.update ⟨h.last_ge, h.last_lt⟩ ⟨hentered, hahead, by omega, ?_⟩
    (h.others hcall rfl rfl (fun _ _ ↦ rfl) le_rfl) fun d hd ↦ ?_
  · rw [Kmem.memset_freelist]
    omega
  · exact (h.pair hcall hd).goes_on (fun _ ↦ rfl) (fun _ hroom ↦ hroom) fun _ ↦ rfl

theorem Creation.Inv.map {s : ℕ} (hcall : state.calls c = ⟨args, .mapping room frames mem⟩)
    (hindex : room.index + frames.length = s) :
    Creation.Inv ⟨state.kmem,
      { state.table with shmSegs := Function.update state.table.shmSegs s (args.slot mem) },
      Function.update state.calls c ⟨args, .counting room (frames ++ [mem])⟩⟩ := by
  obtain ⟨hentered, hahead, hlt, hframes⟩ := h.known hcall
  have hs : s = room.start + frames.length := by
    have hroom := hentered.index_eq
    omega
  subst hs
  have hlength : (frames ++ [mem]).length = frames.length + 1 := by
    rw [List.length_append, List.length_singleton]
  refine h.update ⟨h.last_ge, h.last_lt⟩ ⟨?_, ?_, by omega, by omega⟩
    (h.others hcall rfl rfl (fun i hi ↦ update_of_ne (by omega) _ _) le_rfl)
    fun d hd ↦ ?_
  · refine ⟨hentered.index_eq, hentered.key, hentered.pages_pos, hentered.fits, by omega,
      fun j hj ↦ ?_⟩
    dsimp only
    by_cases hlast : j = frames.length
    · subst hlast
      rw [update_self, List.getD_append_right _ _ _ _ le_rfl, Nat.sub_self]
      rfl
    · rw [update_of_ne (by omega), List.getD_append _ _ _ _ (by omega)]
      exact hentered.slots j (by omega)
  · rw [hlength, Nat.add_sub_cancel]
    refine ⟨hahead.extend, fun happend ↦ ⟨(hahead.reuse happend).1, fun j hj hjlt ↦ ?_⟩⟩
    unfold isFree
    dsimp only
    rw [update_of_ne (by omega)]
    exact (hahead.reuse happend).2 j (by omega) hjlt
  · exact (h.pair hcall hd).goes_on (fun _ ↦ rfl) (fun _ hroom ↦ hroom) fun _ ↦ rfl

theorem Creation.Inv.count (hcall : state.calls c = ⟨args, .counting room frames⟩) :
    Creation.Inv ⟨state.kmem,
      if room.append then
        { state.table with lastShmSegIndex := state.table.lastShmSegIndex + 1 }
      else state.table,
      Function.update state.calls c ⟨args, .allocating room frames⟩⟩ := by
  obtain ⟨hentered, hahead, hpos, hframes⟩ := h.known hcall
  have hpairs : ∀ d ≠ c, Compatible ⟨args, .allocating room frames⟩ (state.calls d) := by
    intro d hd
    exact (h.pair hcall hd).goes_on (fun _ ↦ rfl) (fun _ hroom ↦ hroom) fun _ ↦ rfl
  cases happend : room.append with
  | false =>
    rw [if_neg Bool.false_ne_true]
    refine h.same ⟨hentered, ⟨fun hextend ↦ ?_, hahead.reuse⟩, hframes⟩ hpairs
    rw [happend] at hextend
    cases hextend
  | true =>
    rw [if_pos rfl]
    have hextend := hahead.extend happend
    have hfits := hentered.fits
    have hle := hentered.length_le
    refine h.update ⟨by dsimp only; omega, by dsimp only; omega⟩
      ⟨⟨hentered.index_eq, hentered.key, hentered.pages_pos, hfits, hle, hentered.slots⟩,
        ⟨fun _ ↦ by dsimp only; omega, fun hreuse ↦ ?_⟩, hframes⟩
      (h.others hcall rfl rfl (fun _ _ ↦ rfl) (by dsimp only; omega)) hpairs
    rw [happend] at hreuse
    cases hreuse

end

end Update

theorem Creation.Inv.step [DecidableEq Id] {state state' : Creation Id} {c : Id} {done : Unit}
    (h : state.Inv) (hseparate : Separate state c) (hstep : state.step c = .ok (state', done)) :
    state'.Inv := by
  obtain ⟨⟨kmem, table, phase'⟩, hadvance, hnext⟩ := bind_eq_ok.mp hstep
  cases hnext
  cases hcall : state.calls c with
  | mk args phase =>
    rw [hcall] at hadvance
    cases phase with
    | ready =>
      obtain ⟨found, hfind, hnext⟩ := bind_eq_ok.mp hadvance
      cases hnext
      exact h.ready hcall hseparate hfind
    | searched found =>
      cases hadvance
      exact h.searched hcall
    | sized =>
      dsimp only [ShmgetArgs.advance] at hadvance
      rw [scanBound_eq_ok h.last_lt, ok_bind] at hadvance
      split at hadvance
      · cases hadvance
        exact h.same trivial fun d _ ↦ Compatible.returned args _ _
      · rename_i hfits
        cases hadvance
        exact h.sized hcall hseparate (not_lt.mp hfits) rfl
    | allocating room frames =>
      dsimp only [ShmgetArgs.advance] at hadvance
      split at hadvance
      · rename_i hlength
        cases hadvance
        exact h.finish hcall hlength
      · rename_i hlength
        split at hadvance
        · rename_i hkalloc
          obtain ⟨hentered, -, hframes⟩ := h.known hcall
          have hle := hentered.length_le
          rw [Kmem.kalloc_eq_none.mp hkalloc, List.length_nil] at hframes
          omega
        · rename_i mem kmem hkalloc
          cases hadvance
          exact h.allocate hcall hlength hkalloc
    | mapping room frames mem =>
      obtain ⟨table, hmap, hnext⟩ := bind_eq_ok.mp hadvance
      cases hnext
      obtain ⟨s, hindex, -, -, rfl⟩ := mapShmSegPage_eq_ok.mp hmap
      exact h.map hcall hindex
    | counting room frames =>
      cases hadvance
      exact h.count hcall
    | created room frames => cases hadvance
    | returned result => cases hadvance

theorem Creation.Inv.start {state : Creation Id} (hsane : state.table.Sane)
    (hready : ∀ c, (state.calls c).phase = .ready) : state.Inv where
  last_ge := hsane.last_ge
  last_lt := hsane.last_lt
  calls c := by
    rw [hready]
    trivial
  pairs c d _ := by
    have hcall := hready c
    exact ⟨fun hsection ↦ (by rw [hcall] at hsection; cases hsection),
      fun room room' hroom ↦ (by rw [hcall] at hroom; cases hroom),
      fun _ _ _ hlive ↦ (by rw [hcall] at hlive; cases hlive)⟩

/-- However the steps of separate calls are interleaved, a created segment is that of its call, no
two segments share a slot, and no two exclusive calls create segments with the same key. -/
theorem creations_apart_of_separate [DecidableEq Id] {start finish : Creation Id}
    (hsane : start.table.Sane) (hready : ∀ c, (start.calls c).phase = .ready)
    (hrun : Runs Creation.step Separate start finish) {c : Id} {room : Room} {frames : List ℕ}
    (hcreated : (finish.calls c).phase = .created room frames) :
    frames.length = (finish.calls c).args.pages ∧ (∀ j < frames.length,
        finish.table.shmSegs (room.start + j) = (finish.calls c).args.slot (frames.getD j 0)) ∧
      ∀ d ≠ c, ∀ room' frames', (finish.calls d).phase = .created room' frames' →
        room.Apart (finish.calls c).args.pages room' (finish.calls d).args.pages ∧
          ¬ ((finish.calls c).args.isExclusive = true ∧ (finish.calls d).args.isExclusive = true ∧
            (finish.calls d).args.searchKey = (finish.calls c).args.searchKey) := by
  have h : finish.Inv := hrun.invariant Creation.Inv (Creation.Inv.start hsane hready)
    fun _ _ _ _ hinv hseparate hstep ↦ hinv.step hseparate hstep
  have hknown := h.calls c
  rw [hcreated] at hknown
  obtain ⟨hentered, hlength, -⟩ := hknown
  refine ⟨hlength, hentered.slots, fun d hd room' frames' hcreated' ↦ ⟨?_, ?_⟩⟩
  · exact (h.pairs c d (Ne.symm hd)).apart room room' (by rw [hcreated]; rfl)
      (by rw [hcreated']; rfl)
  · rintro ⟨hexclusive, hexclusive', hkey⟩
    have hdead := (h.pairs c d (Ne.symm hd)).exclusive hexclusive hexclusive' hkey
      (by rw [hcreated]; rfl)
    rw [hcreated'] at hdead
    cases hdead

instance [DecidableEq Id] [Fintype Id] (state : Creation Id) (c : Id) :
    Decidable (Separate state c) := by
  unfold Separate
  split <;> infer_instance

/-- Two processes that are about to create a segment of one page with key 5. -/
def twoCreations : Creation (Fin 2) :=
  { kmem := startKmem 2 (by decide)
    table := initial
    calls := fun c ↦ ⟨⟨5, 4096, ipcCreat ||| ipcExcl, startClock, 3 + c⟩, .ready⟩ }

/-- Both calls search for the key and for room before one of them enters its page; both succeed, with
the same slot, and one of the frames is lost. -/
theorem shmget_race_loses_segment : ∃ finish : Creation (Fin 2),
    Runs Creation.step (fun _ _ ↦ True) twoCreations finish ∧
      (∀ c, (finish.calls c).args.isExclusive = true ∧ (finish.calls c).args.searchKey = 5) ∧
      (finish.calls 0).phase = .created ⟨0, true⟩ [frameAt 4] ∧
      (finish.calls 1).phase = .created ⟨0, true⟩ [frameAt 5] ∧
      (finish.table.shmSegs 0).pa = v2p (frameAt 5) := by
  apply Runs.of_labels [0, 1, 0, 1, 0, 1, 0, 0, 0, 0, 1, 1, 1, 1]
  decide +kernel

/-- The first call runs to its end, and the second one then finds the key. -/
theorem creations_apart_of_separate_serial : ∃ (finish : Creation (Fin 2)) (room : Room)
    (frames : List ℕ), Runs Creation.step Separate twoCreations finish ∧
      (finish.calls 0).phase = .created room frames ∧
      (finish.calls 1).phase = .returned eExist ∧
      frames.length = (finish.calls 0).args.pages ∧
      (∀ j < frames.length,
        finish.table.shmSegs (room.start + j) = (finish.calls 0).args.slot (frames.getD j 0)) ∧
      ∀ d ≠ 0, ∀ room' frames', (finish.calls d).phase = .created room' frames' →
        room.Apart (finish.calls 0).args.pages room' (finish.calls d).args.pages ∧
          ¬ ((finish.calls 0).args.isExclusive = true ∧ (finish.calls d).args.isExclusive = true ∧
            (finish.calls d).args.searchKey = (finish.calls 0).args.searchKey) := by
  obtain ⟨finish, hrun, hcreated, hreturned⟩ : ∃ finish,
      Runs Creation.step Separate twoCreations finish ∧
      (finish.calls 0).phase = .created ⟨0, true⟩ [frameAt 4] ∧
      (finish.calls 1).phase = .returned eExist := by
    apply Runs.of_labels [0, 0, 0, 0, 0, 0, 0, 1, 1]
    decide +kernel
  exact ⟨finish, _, _, hrun, hcreated, hreturned, creations_apart_of_separate
    (startKernel_boot (show 2 ≤ 10000 by decide)).sane.table (fun _ ↦ rfl) hrun hcreated⟩

end Xv6Shm
