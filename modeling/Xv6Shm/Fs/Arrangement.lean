import Xv6Shm.Fs.Buf

/-!
# The arrangement of the buffer cache

The ring visits all buffers, and of two buffers for one block the one that comes later is idle.
What `bget` returns is told from this: either the one buffer in use for the block, or a recycled one
when no buffer has the number of the block. All changes of buffers that the cache makes keep the
arrangement.
-/

namespace Xv6Shm

open Fallible

namespace Bcache

/-- The buffers have the same number. -/
def Same (cache : Bcache) (b c : Fin nBuf) : Prop :=
  (cache.buf c).dev = (cache.buf b).dev ∧ (cache.buf c).blockno = (cache.buf b).blockno

/-- The ring visits all buffers in this order, and a later buffer for the same block is idle. -/
structure Arranged (cache : Bcache) (order : List (Fin nBuf)) : Prop where
  ring : cache.links.IsRing order
  all : ∀ b, b ∈ order
  later : order.Pairwise fun b c ↦ cache.Same b c → (cache.buf c).isIdle = true

variable {cache : Bcache} {order : List (Fin nBuf)} {b : Fin nBuf}

theorem Arranged.length_le (h : cache.Arranged order) : order.length ≤ nBuf := by
  simpa using h.ring.nodup.length_le_card

theorem Arranged.idle_of_same (h : cache.Arranged order)
    {c : Fin nBuf} (hne : b ≠ c) (hsame : cache.Same b c) :
    (cache.buf b).isIdle = true ∨ (cache.buf c).isIdle = true := by
  have hsymm : Std.Symm fun b c ↦ cache.Same b c →
      (cache.buf b).isIdle = true ∨ (cache.buf c).isIdle = true :=
    ⟨fun _ _ hidle hsame ↦ (hidle ⟨hsame.1.symm, hsame.2.symm⟩).symm⟩
  have heither := h.later.imp (S := fun b c ↦ cache.Same b c →
    (cache.buf b).isIdle = true ∨ (cache.buf c).isIdle = true) fun hidle hsame ↦ Or.inr (hidle hsame)
  exact heither.forall (h.all b) (h.all c) hne hsame

theorem Arranged.set_of_split {before after : List (Fin nBuf)} {buf : Buf}
    (h : cache.Arranged (before ++ b :: after))
    (hbefore : ∀ a ∈ before, buf.isFor (cache.buf a).dev (cache.buf a).blockno = true →
      buf.isIdle = true) (hafter : ∀ c ∈ after, (cache.buf c).isFor buf.dev buf.blockno = true →
      (cache.buf c).isIdle = true) :
    (cache.set b buf).Arranged (before ++ b :: after) := by
  obtain ⟨hring, hall, hlater⟩ := h
  refine ⟨hring, hall, ?_⟩
  have hnodup := List.nodup_middle.mp hring.nodup
  have hother {a : Fin nBuf} (ha : a ∈ before ++ after) : (cache.set b buf).buf a = cache.buf a := by
    refine set_buf_of_ne cache ?_ buf
    rintro rfl
    exact (List.nodup_cons.mp hnodup).1 ha
  rw [List.pairwise_append, List.pairwise_cons] at hlater ⊢
  obtain ⟨hfirst, ⟨-, hlast⟩, hcross⟩ := hlater
  refine ⟨?_, ⟨?_, ?_⟩, ?_⟩
  · refine hfirst.imp_of_mem fun {a c} ha hc hidle ↦ ?_
    rwa [Same, hother (List.mem_append_left after ha), hother (List.mem_append_left after hc)]
  · intro c hc hsame
    rw [Same, hother (List.mem_append_right before hc), set_buf_self] at hsame
    rw [hother (List.mem_append_right before hc)]
    exact hafter c hc (Buf.isFor_iff.mpr hsame)
  · refine hlast.imp_of_mem fun {a c} ha hc hidle ↦ ?_
    rwa [Same, hother (List.mem_append_right before ha), hother (List.mem_append_right before hc)]
  · intro a ha c hc hsame
    rw [Same, hother (List.mem_append_left after ha)] at hsame
    rcases List.mem_cons.mp hc with rfl | hmem
    · rw [set_buf_self] at hsame ⊢
      exact hbefore a ha (Buf.isFor_iff.mpr hsame)
    · rw [hother (List.mem_append_right before hmem)] at hsame ⊢
      exact hcross a ha c hc hsame

theorem Arranged.set {cache : Bcache} {order : List (Fin nBuf)} {b : Fin nBuf} {buf : Buf}
    (h : cache.Arranged order) (hused : (cache.buf b).isIdle = false)
    (hsame : buf.isFor (cache.buf b).dev (cache.buf b).blockno = true) :
    (cache.set b buf).Arranged order := by
  obtain ⟨before, after, rfl⟩ := List.append_of_mem (h.all b)
  rw [Buf.isFor_iff] at hsame
  have hlater := h.later
  rw [List.pairwise_append, List.pairwise_cons] at hlater
  refine h.set_of_split (fun a ha hfor ↦ ?_) fun c hc hfor ↦ ?_
  · rw [Buf.isFor_iff, hsame.1, hsame.2] at hfor
    have hidle := hlater.2.2 a ha b List.mem_cons_self hfor
    rw [hused] at hidle
    cases hidle
  · rw [Buf.isFor_iff, hsame.1, hsame.2] at hfor
    exact hlater.2.1.1 c hc hfor

theorem Arranged.toFront (h : cache.Arranged order)
    (hfirst : ∀ c, c ≠ b → cache.Same b c → (cache.buf c).isIdle = true) :
    ({ cache with links := (cache.links.unlink b).pushFront b } : Bcache).Arranged
      (b :: order.erase b) := by
  refine ⟨h.ring.toFront (h.all b), fun c ↦ ?_, List.pairwise_cons.mpr ⟨fun c hc ↦ ?_, ?_⟩⟩
  · by_cases hcb : c = b
    · exact hcb ▸ List.mem_cons_self
    · exact List.mem_cons_of_mem b ((List.mem_erase_of_ne hcb).mpr (h.all c))
  · exact hfirst c (h.ring.nodup.mem_erase_iff.mp hc).1
  · exact h.later.sublist List.erase_sublist

theorem Arranged.unref {cache : Bcache} {order : List (Fin nBuf)} {b : Fin nBuf}
    (h : cache.Arranged order) (hused : (cache.buf b).isIdle = false) :
    ∃ order', (cache.unref b).Arranged order' := by
  have hset : (cache.set b { cache.buf b with refcnt := (cache.buf b).refcnt - 1 }).Arranged order :=
    h.set hused (Buf.isFor_iff.mpr ⟨rfl, rfl⟩)
  rw [Bcache.unref]
  split
  · refine ⟨_, hset.toFront fun c hc hsame ↦ ?_⟩
    rw [set_buf_of_ne cache hc]
    rw [Same, set_buf_of_ne cache hc, set_buf_self] at hsame
    rcases h.idle_of_same hc.symm hsame with hidle | hidle
    · rw [hused] at hidle
      cases hidle
    · exact hidle
  · exact ⟨order, hset⟩

/-- The two ways in which `bget` can return. -/
inductive Got (cache : Bcache) (dev blockno : ℕ) : Bcache → Fin nBuf → Prop
  | hit {b : Fin nBuf} (hfor : (cache.buf b).isFor dev blockno = true)
      (hothers : ∀ c, c ≠ b → (cache.buf c).isFor dev blockno = true → (cache.buf c).isIdle = true) :
      Got cache dev blockno (cache.set b { cache.buf b with refcnt := (cache.buf b).refcnt + 1 }) b
  | miss {b : Fin nBuf} (hnone : ∀ c, (cache.buf c).isFor dev blockno = false)
      (hunused : (cache.buf b).isUnused = true) :
      Got cache dev blockno (cache.set b ((cache.buf b).recycled dev blockno)) b

theorem Arranged.cached_eq (h : cache.Arranged order) (dev blockno : ℕ) :
    cache.cached dev blockno = order.find? fun b ↦ (cache.buf b).isFor dev blockno :=
  h.ring.search_next _ h.length_le

theorem Arranged.leastRecent_eq (h : cache.Arranged order) :
    cache.leastRecent = order.reverse.find? fun b ↦ (cache.buf b).isUnused :=
  h.ring.search_prev _ h.length_le

theorem Arranged.bget {cache cache' : Bcache} {order : List (Fin nBuf)} {dev blockno : ℕ}
    {b : Fin nBuf} (h : cache.Arranged order) (hget : cache.bget dev blockno = .ok (cache', b)) :
    cache'.Arranged order ∧ cache.Got dev blockno cache' b := by
  unfold Bcache.bget at hget
  rw [h.cached_eq, h.leastRecent_eq] at hget
  split at hget
  · rename_i found hfound
    cases hget
    obtain ⟨hfor, before, after, rfl, hbefore⟩ := List.find?_eq_some_iff_append.mp hfound
    have hlater := h.later
    rw [List.pairwise_append, List.pairwise_cons] at hlater
    have hid := Buf.isFor_iff.mp hfor
    have hafter : ∀ c ∈ after, (cache.buf c).isFor dev blockno = true →
        (cache.buf c).isIdle = true := by
      intro c hc hsame
      rw [Buf.isFor_iff, ← hid.1, ← hid.2] at hsame
      exact hlater.2.1.1 c hc hsame
    have hclear : ∀ a ∈ before, (cache.buf a).isFor dev blockno = false := by
      intro a ha
      simpa using hbefore a ha
    refine ⟨h.set_of_split (fun a ha hsame ↦ ?_) fun c hc hsame ↦ ?_, .hit hfor fun c hc hsame ↦ ?_⟩
    · rw [Buf.isFor_iff] at hsame
      have hmatch := Buf.isFor_iff.mpr ⟨hsame.1.symm.trans hid.1, hsame.2.symm.trans hid.2⟩
      rw [hclear a ha] at hmatch
      cases hmatch
    · rw [hid.1, hid.2] at hsame
      exact hafter c hc hsame
    · rcases List.mem_append.mp (h.all c) with hmem | hmem
      · rw [hclear c hmem] at hsame
        cases hsame
      · exact hafter c ((List.mem_cons.mp hmem).resolve_left hc) hsame
  · rename_i hfound
    have hnone : ∀ c, (cache.buf c).isFor dev blockno = false := by
      intro c
      simpa using List.find?_eq_none.mp hfound c (h.all c)
    split at hget
    · rename_i victim hvictim
      cases hget
      have hunused : (cache.buf b).isUnused = true := by simpa using List.find?_some hvictim
      refine ⟨?_, .miss hnone hunused⟩
      obtain ⟨before, after, rfl⟩ := List.append_of_mem (h.all b)
      refine h.set_of_split (fun a ha hsame ↦ ?_) fun c hc hsame ↦ ?_
      · rw [Buf.isFor_iff] at hsame
        have hmatch : (cache.buf a).isFor dev blockno = true :=
          Buf.isFor_iff.mpr ⟨hsame.1.symm, hsame.2.symm⟩
        rw [hnone a] at hmatch
        cases hmatch
      · change (cache.buf c).isFor dev blockno = true at hsame
        rw [hnone c] at hsame
        cases hsame
    · cases hget

/-- `bget` fails only when every buffer is referenced or dirty. -/
theorem Arranged.bget_error {dev blockno : ℕ}
    {fault : Fault} (h : cache.Arranged order) (hget : cache.bget dev blockno = .error fault) :
    fault = .panic "bget: no buffers" ∧ ∀ b, (cache.buf b).isUnused = false := by
  unfold Bcache.bget at hget
  rw [h.leastRecent_eq] at hget
  split at hget
  · cases hget
  · split at hget
    · cases hget
    · rename_i hfound
      cases hget
      refine ⟨rfl, fun b ↦ ?_⟩
      simpa using List.find?_eq_none.mp hfound b (List.mem_reverse.mpr (h.all b))

theorem isRing_foldl_pushFront {Node : Type} [DecidableEq Node] (nodes : List Node)
    {links : Links Node} {order : List Node} (h : links.IsRing order)
    (hnodup : (nodes.reverse ++ order).Nodup) :
    (nodes.foldl Links.pushFront links).IsRing (nodes.reverse ++ order) := by
  induction nodes generalizing links order with
  | nil => exact h
  | cons node rest ih =>
    rw [List.reverse_cons, List.append_assoc, List.singleton_append] at hnodup ⊢
    refine ih (h.pushFront ?_) hnodup
    exact (List.nodup_cons.mp (List.nodup_append.mp hnodup).2.1).1

theorem binit_arranged : binit.Arranged (List.finRange nBuf).reverse := by
  refine ⟨?_, fun b ↦ List.mem_reverse.mpr (List.mem_finRange b), ?_⟩
  · have hempty : (⟨fun _ ↦ none, fun _ ↦ none⟩ : Links (Fin nBuf)).IsRing [] := by
      refine ⟨List.nodup_nil, ?_⟩
      rw [Links.tour, List.map_nil, List.nil_append, List.isChain_pair]
      exact ⟨rfl, rfl⟩
    have hring := isRing_foldl_pushFront (List.finRange nBuf) hempty
      (by simpa using List.nodup_finRange nBuf)
    rwa [List.append_nil] at hring
  · exact List.pairwise_of_forall fun _ _ _ ↦ rfl

end Bcache

end Xv6Shm
