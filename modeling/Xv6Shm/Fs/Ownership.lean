import Xv6Shm.Fs.Image

/-!
# Who owns a block

The addresses of an inode are its slots: `0` to `11` are the direct addresses, `12` is the address
of the indirect block and the slots behind it are the entries of that block. On a sound image the
slots of the allocated inodes hold data blocks, each in one slot only, and the free map marks
exactly these blocks and the metadata.
-/

namespace Xv6Shm

open Function Dinode

/-- An address; zero stands for none. -/
def address (a : ℕ) : Option ℕ := if a = 0 then none else some a

@[simp] theorem address_zero : address 0 = none := rfl

variable {a : ℕ}

theorem address_of_ne (h : a ≠ 0) : address a = some a := if_neg h

theorem address_eq_some {b : ℕ} : address a = some b ↔ a = b ∧ b ≠ 0 := by
  unfold address
  split
  · simp_all
  · simp_all only [Option.some.injEq]
    exact ⟨fun h ↦ ⟨h, h ▸ ‹_›⟩, And.left⟩

theorem address_eq_none : address a = none ↔ a = 0 := by
  unfold address
  split <;> simp_all

/-- The slot of a block of a file. -/
def fileSlot (bn : ℕ) : ℕ := if bn < nDirect then bn else bn + 1

theorem fileSlot_ne_indirect (bn : ℕ) : fileSlot bn ≠ nDirect := by
  unfold fileSlot
  split <;> omega

theorem fileSlot_injective : Function.Injective fileSlot := by
  intro a b h
  unfold fileSlot at h
  split at h <;> split at h <;> omega

namespace Dinode

/-- The address in a slot of an inode. -/
def slot (d : Dinode) (data : ℕ → Block) (k : ℕ) : Option ℕ :=
  if k ≤ nDirect then address (d.addrs k)
  else if d.addrs nDirect = 0 ∨ maxFile < k then none
  else address ((data (d.addrs nDirect)).word (4 * (k - (nDirect + 1))))

variable {d : Dinode} {data : ℕ → Block} {k b : ℕ}

theorem slot_of_le (hk : k ≤ nDirect) : d.slot data k = address (d.addrs k) := if_pos hk

theorem slot_entry (hind : d.addrs nDirect ≠ 0) {j : ℕ} (hj : j < nIndirect) :
    d.slot data (nDirect + 1 + j) = address ((data (d.addrs nDirect)).word (4 * j)) := by
  have hmax : ¬ maxFile < nDirect + 1 + j := by
    rw [maxFile]
    omega
  rw [slot, if_neg (by omega), if_neg (by simp [hind, hmax]), Nat.add_sub_cancel_left]

/-- A slot behind the direct ones holds nothing, or it is an entry of the indirect block. -/
theorem slot_cases (hk : nDirect < k) :
    (d.addrs nDirect ≠ 0 ∧ ∃ j < nIndirect, k = nDirect + 1 + j) ∨
      (∀ data : ℕ → Block, d.slot data k = none) := by
  by_cases hind : d.addrs nDirect = 0
  · right
    intro data
    rw [slot, if_neg hk.not_ge, if_pos (Or.inl hind)]
  · by_cases hmax : maxFile < k
    · right
      intro data
      rw [slot, if_neg hk.not_ge, if_pos (Or.inr hmax)]
    · refine Or.inl ⟨hind, k - (nDirect + 1), ?_, ?_⟩
      · rw [maxFile] at hmax
        omega
      · omega

theorem slot_congr {other : Dinode} {data' : ℕ → Block} (haddrs : other.addrs = d.addrs)
    (hdata : d.addrs nDirect ≠ 0 → data' (d.addrs nDirect) = data (d.addrs nDirect)) :
    other.slot data' k = d.slot data k := by
  unfold slot
  rw [haddrs]
  split
  · rfl
  · split
    · rfl
    · rename_i hguard
      rw [hdata fun hzero ↦ hguard (Or.inl hzero)]

theorem slot_update_data (h : d.slot data nDirect ≠ some b) (block : Block) :
    d.slot (update data b block) k = d.slot data k := by
  apply slot_congr rfl
  intro hind
  apply update_of_ne
  rintro rfl
  exact h (by rw [slot_of_le le_rfl, address_of_ne hind])

theorem word_zero (off : ℕ) : Block.zero.word off = 0 := rfl

theorem slot_setAddr (hk : k ≤ nDirect) (hnone : d.addrs k = 0) (hb : b ≠ 0)
    (hzero : k = nDirect → data b = Block.zero) :
    (d.setAddr k b).slot data = update (d.slot data) k (some b) := by
  funext l
  by_cases hlk : l = k
  · subst hlk
    rw [slot_of_le hk, addrs_setAddr, update_self, update_self, address_of_ne hb]
  · rw [update_of_ne hlk]
    by_cases hl : l ≤ nDirect
    · rw [slot_of_le hl, slot_of_le hl, addrs_setAddr, update_of_ne hlk]
    · by_cases hind : k = nDirect
      · -- a new indirect block has no entries yet
        subst hind
        have hbefore : d.slot data l = none := by
          rw [slot, if_neg hl, if_pos (Or.inl hnone)]
        rw [hbefore, slot, if_neg hl]
        split
        · rfl
        · rw [addrs_setAddr, update_self, hzero rfl, word_zero, address_zero]
      · unfold slot
        rw [addrs_setAddr, update_of_ne (Ne.symm hind), if_neg hl, if_neg hl]

theorem slot_setEntry (hind : d.addrs nDirect ≠ 0) {j : ℕ} (hj : j < nIndirect) (hb : b ≠ 0)
    (hword : b < Word.size) :
    d.slot (update data (d.addrs nDirect) ((data (d.addrs nDirect)).setWord (4 * j) b)) =
      update (d.slot data) (nDirect + 1 + j) (some b) := by
  funext l
  by_cases hl : l ≤ nDirect
  · rw [update_of_ne (by omega), slot_of_le hl, slot_of_le hl]
  · rcases slot_cases (d := d) (not_le.mp hl) with ⟨-, e, he, rfl⟩ | hnone
    · rw [slot_entry hind he, update_self]
      by_cases hej : e = j
      · subst hej
        rw [update_self, Block.word_setWord hword, address_of_ne hb]
      · rw [update_of_ne (by omega), slot_entry hind he, Block.word_setWord_of_disjoint (by omega)]
    · by_cases hlj : l = nDirect + 1 + j
      · -- the slot would be an entry after all
        subst hlj
        have hentry := hnone fun _ _ ↦ 1
        rw [slot_entry hind hj] at hentry
        cases address_eq_none.mp hentry
      · rw [update_of_ne hlj, hnone, hnone]

/-- The address in a slot, if the inode is allocated. -/
def held (d : Dinode) (data : ℕ → Block) (k : ℕ) : Option ℕ :=
  if d.type = 0 then none else d.slot data k

theorem held_of_allocated (h : d.type ≠ 0) : d.held data k = d.slot data k := if_neg h

theorem held_of_free (h : d.type = 0) : d.held data k = none := if_pos h

theorem held_fresh (type : ℕ) : (fresh type).held data k = none := by
  unfold held
  split
  · rfl
  · unfold slot
    split
    · rfl
    · exact if_pos (Or.inl rfl)

theorem held_congr {other : Dinode} (htype : other.type = d.type) (haddrs : other.addrs = d.addrs) :
    other.held data k = d.held data k := by
  unfold held
  rw [slot_congr haddrs fun _ ↦ rfl]
  simp only [htype]

end Dinode

namespace Image

def slot (image : Image) (i k : ℕ) : Option ℕ := (image.dinode i).slot image.data k

/-- What the slots of the allocated inodes hold. -/
def owner (image : Image) (key : ℕ × ℕ) : Option ℕ := (image.dinode key.1).held image.data key.2

/-- The slots of the allocated inodes and the list `transit` hold data blocks, each one in one
place, and exactly they and the metadata are marked in the free map. -/
structure Sound (sb : Superblock) (image : Image) (transit : List ℕ) : Prop where
  holdings : Holdings sb.IsData image.owner image.used transit
  metadata : ∀ b < sb.dataStart, b < sb.size → image.used b = true

variable {image : Image} {sb : Superblock} {transit : List ℕ} {i k b : ℕ}

theorem owner_of_allocated (h : (image.dinode i).type ≠ 0) : image.owner (i, k) = image.slot i k :=
  held_of_allocated h

theorem owner_of_addr_zero (h : (image.dinode i).type ≠ 0) (hk : k ≤ nDirect)
    (hnone : (image.dinode i).addrs k = 0) : image.owner (i, k) = none := by
  rw [owner_of_allocated h, slot, slot_of_le hk, hnone, address_zero]

theorem owner_setDinode_self (d : Dinode) :
    (image.setDinode i d).owner (i, k) = d.held image.data k := by
  simp [owner, setDinode]

variable {j ind : ℕ} {d : Dinode}

theorem owner_setDinode_of_ne (hne : j ≠ i) (d : Dinode) :
    (image.setDinode i d).owner (j, k) = image.owner (j, k) := by
  simp [owner, setDinode, hne]

theorem owner_setData (h : ∀ i, image.owner (i, nDirect) ≠ some b) (block : Block) :
    (image.setData b block).owner = image.owner := by
  funext ⟨i, k⟩
  by_cases htype : (image.dinode i).type = 0
  · exact (held_of_free htype).trans (held_of_free htype).symm
  · refine (held_of_allocated htype).trans (Eq.trans ?_ (held_of_allocated htype).symm)
    apply slot_update_data
    intro hslot
    exact h i ((owner_of_allocated htype).trans hslot)

theorem owner_setDinode {value : Option ℕ}
    (hheld : d.held image.data = update ((image.dinode i).held image.data) k value) :
    (image.setDinode i d).owner = update image.owner (i, k) value := by
  funext ⟨j, l⟩
  by_cases hj : j = i
  · subst hj
    rw [owner_setDinode_self, hheld]
    by_cases hl : l = k
    · subst hl
      rw [update_self, update_self]
    · rw [update_of_ne hl, update_of_ne (by simp [hl])]
      rfl
  · rw [owner_setDinode_of_ne hj, update_of_ne (by simp [hj])]

theorem owner_setDinode_of_same (hheld : ∀ k, d.held image.data k = image.owner (i, k)) :
    (image.setDinode i d).owner = image.owner := by
  funext ⟨j, l⟩
  by_cases hj : j = i
  · subst hj
    rw [owner_setDinode_self, hheld]
  · exact owner_setDinode_of_ne hj d

theorem owner_setDinode_fields (htype : d.type = (image.dinode i).type)
    (haddrs : d.addrs = (image.dinode i).addrs) : (image.setDinode i d).owner = image.owner :=
  owner_setDinode_of_same fun _ ↦ held_congr htype haddrs

theorem Sound.isData {key : ℕ × ℕ} (h : image.Sound sb transit) (hkey : image.owner key = some b) :
    sb.IsData b := h.holdings.inside key b hkey

theorem Sound.of_empty (howner : ∀ key, image.owner key = none)
    (hused : ∀ b < sb.size, image.used b = decide (b < sb.dataStart)) : image.Sound sb [] := by
  refine ⟨⟨fun key r hkey ↦ ?_, fun key other r hkey ↦ ?_, fun r hr ↦ ?_, fun r hr ↦ ?_,
    List.nodup_nil⟩, fun b hb hsize ↦ ?_⟩
  · rw [howner] at hkey
    cases hkey
  · rw [howner] at hkey
    cases hkey
  · rw [hused r hr.2, decide_eq_false (not_lt.mpr hr.1)]
    simp [howner]
  · cases hr
  · rw [hused b hsize, decide_eq_true hb]

section

variable (h : image.Sound sb transit)

include h

theorem Sound.ne_indirect {bn : ℕ} (hkey : image.owner (i, fileSlot bn) = some b) (j : ℕ) :
    image.owner (j, nDirect) ≠ some b := by
  intro hind
  have hsame := h.holdings.apart _ _ _ hkey hind
  exact fileSlot_ne_indirect bn (Prod.mk.inj hsame).2

theorem Sound.isData_of_unused (hb : b < sb.size) (hunused : image.used b = false) :
    sb.IsData b := by
  refine ⟨not_lt.mp fun hlt ↦ ?_, hb⟩
  rw [h.metadata b hlt hb] at hunused
  cases hunused

theorem Sound.metadata_setUsed (hb : sb.IsData b) (value : Bool) :
    ∀ c < sb.dataStart, c < sb.size → (image.setUsed b value).used c = true := by
  intro c hc hsize
  have hne : c ≠ b := (hc.trans_le hb.1).ne
  simpa [setUsed, hne] using h.metadata c hc hsize

theorem Sound.take (hb : b < sb.size) (hunused : image.used b = false) :
    ((image.setUsed b true).setData b Block.zero).Sound sb (b :: transit) := by
  have hdata := h.isData_of_unused hb hunused
  have howner : ((image.setUsed b true).setData b Block.zero).owner = image.owner :=
    owner_setData (fun i ↦ h.holdings.owner_ne_of_unused hunused (i, nDirect)) Block.zero
  refine ⟨?_, h.metadata_setUsed hdata true⟩
  rw [howner]
  exact h.holdings.take hdata hunused

end

theorem Sound.release (h : image.Sound sb (b :: transit)) :
    (image.setUsed b false).Sound sb transit :=
  ⟨h.holdings.release, h.metadata_setUsed (h.holdings.moving b List.mem_cons_self).1 false⟩

theorem owner_setAddr (htype : (image.dinode i).type ≠ 0) (hk : k ≤ nDirect)
    (hnone : (image.dinode i).addrs k = 0) (hb : b ≠ 0)
    (hzero : k = nDirect → image.data b = Block.zero) :
    (image.setDinode i ((image.dinode i).setAddr k b)).owner =
      update image.owner (i, k) (some b) := by
  apply owner_setDinode
  funext l
  have hheld : (image.dinode i).held image.data = (image.dinode i).slot image.data :=
    funext fun _ ↦ held_of_allocated htype
  have hkept : ((image.dinode i).setAddr k b).type ≠ 0 := htype
  rw [held_of_allocated hkept, slot_setAddr hk hnone hb hzero, hheld]

theorem Sound.setAddr (h : image.Sound sb (b :: transit)) (htype : (image.dinode i).type ≠ 0)
    (hk : k ≤ nDirect) (hnone : (image.dinode i).addrs k = 0)
    (hzero : k = nDirect → image.data b = Block.zero) :
    (image.setDinode i ((image.dinode i).setAddr k b)).Sound sb transit := by
  have hb : b ≠ 0 := (h.holdings.moving b List.mem_cons_self).1.pos
  have hkey : image.owner (i, k) = none := by
    rw [owner_of_allocated htype, slot, slot_of_le hk, hnone, address_zero]
  refine ⟨?_, h.metadata⟩
  rw [owner_setAddr htype hk hnone hb hzero]
  exact h.holdings.give hkey

section

variable (htype : (image.dinode i).type ≠ 0) (hind : (image.dinode i).addrs nDirect = ind)
  (hne : ind ≠ 0)

include htype hind hne

theorem owner_indirect : image.owner (i, nDirect) = some ind := by
  rw [owner_of_allocated htype, slot, slot_of_le le_rfl, hind, address_of_ne hne]

theorem owner_entry (hj : j < nIndirect) :
    image.owner (i, nDirect + 1 + j) = address ((image.data ind).word (4 * j)) := by
  subst hind
  rw [owner_of_allocated htype, slot, slot_entry hne hj]

end

theorem Sound.owner_setEntry (h : image.Sound sb transit) (htype : (image.dinode i).type ≠ 0)
    (hind : (image.dinode i).addrs nDirect = ind) (hne : ind ≠ 0) (hj : j < nIndirect)
    (hb : b ≠ 0) (hword : b < Word.size) :
    (image.setData ind ((image.data ind).setWord (4 * j) b)).owner =
      update image.owner (i, nDirect + 1 + j) (some b) := by
  have hkey := owner_indirect htype hind hne
  subst hind
  funext ⟨l, k⟩
  by_cases hl : l = i
  · subst hl
    refine (held_of_allocated htype).trans ((congrFun (slot_setEntry hne hj hb hword) k).trans ?_)
    by_cases hk : k = nDirect + 1 + j
    · subst hk
      rw [update_self, update_self]
    · rw [update_of_ne hk, update_of_ne (by simp [hk]), owner_of_allocated htype]
      rfl
  · -- another inode has another indirect block
    rw [update_of_ne (by simp [hl])]
    by_cases hfree : (image.dinode l).type = 0
    · exact (held_of_free hfree).trans (held_of_free hfree).symm
    · refine (held_of_allocated hfree).trans (Eq.trans ?_ (held_of_allocated hfree).symm)
      apply slot_update_data
      intro hslot
      have hother := (owner_of_allocated hfree).trans hslot
      exact hl (Prod.mk.inj (h.holdings.apart _ _ _ hother hkey)).1

theorem Sound.setEntry (h : image.Sound sb (b :: transit)) (hsb : sb.LaidOut)
    (htype : (image.dinode i).type ≠ 0) (hind : (image.dinode i).addrs nDirect = ind)
    (hne : ind ≠ 0) (hj : j < nIndirect) (hnone : (image.data ind).word (4 * j) = 0) :
    (image.setData ind ((image.data ind).setWord (4 * j) b)).Sound sb transit := by
  have hb := (h.holdings.moving b List.mem_cons_self).1
  have hfree : image.owner (i, nDirect + 1 + j) = none := by
    rw [owner_entry htype hind hne hj, hnone, address_zero]
  refine ⟨?_, h.metadata⟩
  rw [h.owner_setEntry htype hind hne hj hb.pos (hb.2.trans hsb.size_lt)]
  exact h.holdings.give hfree

theorem Sound.setFileBlock (h : image.Sound sb transit) {bn : ℕ}
    (hkey : image.owner (i, fileSlot bn) = some b) (block : Block) :
    (image.setData b block).Sound sb transit := by
  refine ⟨?_, h.metadata⟩
  rw [owner_setData (h.ne_indirect hkey) block]
  exact h.holdings

theorem Sound.setDinode (h : image.Sound sb transit)
    (hheld : ∀ k, d.held image.data k = image.owner (i, k)) :
    (image.setDinode i d).Sound sb transit := by
  refine ⟨?_, h.metadata⟩
  rw [owner_setDinode_of_same hheld]
  exact h.holdings

theorem Sound.withdraw (h : image.Sound sb []) {taken : List ℕ}
    (hnone : ∀ k, d.held image.data k = none)
    (htaken : ∀ b, b ∈ taken ↔ ∃ k, image.owner (i, k) = some b) (hnodup : taken.Nodup) :
    (image.setDinode i d).Sound sb taken := by
  refine ⟨h.holdings.withdraw (fun ⟨j, k⟩ ↦ ?_) (fun b ↦ ?_) hnodup, h.metadata⟩
  · by_cases hj : j = i
    · subst hj
      exact Or.inr ((owner_setDinode_self d).trans (hnone k))
    · exact Or.inl (owner_setDinode_of_ne hj d)
  · rw [htaken]
    constructor
    · rintro ⟨k, hk⟩
      exact ⟨(i, k), hk, (owner_setDinode_self d).trans (hnone k)⟩
    · rintro ⟨⟨j, k⟩, hk, hlost⟩
      by_cases hj : j = i
      · subst hj
        exact ⟨k, hk⟩
      · rw [owner_setDinode_of_ne hj, hk] at hlost
        cases hlost

end Image

end Xv6Shm
