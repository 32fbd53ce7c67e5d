import Mathlib.Data.List.Chain
import Mathlib.Data.List.Iterate
import Mathlib.Data.List.Nodup
import Mathlib.Data.Option.Basic

/-!
# Circular doubly linked lists

Nodes are linked by `next` and `prev` in a circle through a sentinel, here `none`. `IsRing` names
the order in which the circle visits them. Taking a node out and putting it behind the sentinel keep
the circle closed, and a loop that follows the pointers until it is back at the sentinel searches
the list.
-/

namespace Xv6Shm

open Function

/-- The pointers of all nodes and of the sentinel. -/
structure Links (Node : Type) where
  next : Option Node → Option Node
  prev : Option Node → Option Node

namespace Links

variable {Node : Type}

/-- Each of the two nodes points to the other one. -/
def Joined (links : Links Node) (first second : Option Node) : Prop :=
  links.next first = second ∧ links.prev second = first

/-- The circle, starting and ending at the sentinel. -/
def tour (order : List Node) : List (Option Node) := none :: (order.map some ++ [none])

/-- The pointers form one circle, which visits the nodes in this order. -/
structure IsRing (links : Links Node) (order : List Node) : Prop where
  nodup : order.Nodup
  joined : (tour order).IsChain links.Joined

/-- The pointers the other way round. -/
def flip (links : Links Node) : Links Node := ⟨links.prev, links.next⟩

variable {links : Links Node} {order : List Node} {rounds : ℕ} {node : Node}

theorem IsRing.flip (h : links.IsRing order) : links.flip.IsRing order.reverse := by
  refine ⟨List.nodup_reverse.mpr h.nodup, ?_⟩
  have htour : tour order.reverse = (tour order).reverse := by
    simp [tour]
  rw [htour, List.isChain_reverse]
  exact h.joined.imp fun first second hjoined ↦ ⟨hjoined.2, hjoined.1⟩

theorem isChain_congr {links' : Links Node} {part : List (Option Node)}
    (hchain : part.IsChain links.Joined)
    (hnext : ∀ node ∈ part.dropLast, links'.next node = links.next node)
    (hprev : ∀ node ∈ part.tail, links'.prev node = links.prev node) :
    part.IsChain links'.Joined := by
  induction part with
  | nil => exact .nil
  | cons first rest ih =>
    cases rest with
    | nil => exact .singleton first
    | cons second rest =>
      rw [List.isChain_cons_cons] at hchain ⊢
      refine ⟨⟨?_, ?_⟩, ih hchain.2 (fun node hnode ↦ hnext node ?_) fun node hnode ↦ hprev node ?_⟩
      · rw [hnext first (by simp), hchain.1.1]
      · rw [hprev second (by simp), hchain.1.2]
      · simpa using Or.inr hnode
      · exact List.mem_cons_of_mem second hnode

variable {step : Option Node → Option Node} {first : Option Node}

theorem iterate_of_isChain
    {rest : List (Option Node)} (hchain : (first :: rest).IsChain fun a b ↦ step a = b) :
    List.iterate step first (rest.length + 1) = first :: rest := by
  induction rest generalizing first with
  | nil => rfl
  | cons second rest ih =>
    rw [List.isChain_cons_cons] at hchain
    rw [List.length_cons, List.iterate, hchain.1, ih hchain.2]

/-- Following `next` from the sentinel visits every node once and comes back. -/
theorem IsRing.iterate_next (h : links.IsRing order) :
    List.iterate links.next none (order.length + 2) = tour order := by
  have hlength : order.length + 2 = (order.map some ++ [none]).length + 1 := by
    rw [List.length_append, List.length_map, List.length_singleton]
  rw [hlength]
  exact iterate_of_isChain (h.joined.imp fun _ _ hjoined ↦ hjoined.1)

theorem IsRing.iterate_prev (h : links.IsRing order) :
    List.iterate links.prev none (order.length + 2) = tour order.reverse := by
  have hflip := h.flip.iterate_next
  rw [List.length_reverse] at hflip
  exact hflip

/-- Follow the pointers to a node or back to the sentinel, in at most as many rounds as the first
argument says. -/
def search (step : Option Node → Option Node) (found : Node → Bool) : ℕ → Option Node → Option Node
  | 0, _ => none
  | _ + 1, none => none
  | rounds + 1, some node =>
    if found node then some node else search step found rounds (step (some node))

theorem search_of_isChain {found : Node → Bool} {nodes : List Node}
    (hchain : (first :: (nodes.map some ++ [none])).IsChain fun a b ↦ step a = b)
    (hrounds : nodes.length ≤ rounds) :
    search step found rounds (step first) = nodes.find? found := by
  induction nodes generalizing first rounds with
  | nil =>
    have hnone : step first = none := by simpa using hchain
    rw [hnone]
    cases rounds <;> rfl
  | cons node nodes ih =>
    rw [List.map_cons, List.cons_append, List.isChain_cons_cons] at hchain
    rw [List.length_cons] at hrounds
    obtain ⟨rounds, rfl⟩ : ∃ fewer, rounds = fewer + 1 := ⟨rounds - 1, by omega⟩
    rw [hchain.1, search, List.find?_cons]
    cases hfound : found node with
    | true => rfl
    | false => exact ih hchain.2 (by omega)

theorem IsRing.search_next (h : links.IsRing order)
    (found : Node → Bool) (hrounds : order.length ≤ rounds) :
    search links.next found rounds (links.next none) = order.find? found :=
  search_of_isChain (h.joined.imp fun _ _ hjoined ↦ hjoined.1) hrounds

theorem IsRing.search_prev (h : links.IsRing order)
    (found : Node → Bool) (hrounds : order.length ≤ rounds) :
    search links.prev found rounds (links.prev none) = order.reverse.find? found :=
  h.flip.search_next found (by simpa using hrounds)

variable [DecidableEq Node]

/-- Take a node out of the circle: its neighbours are joined. -/
def unlink (links : Links Node) (node : Node) : Links Node :=
  let prev := update links.prev (links.next (some node)) (links.prev (some node))
  { next := update links.next (prev (some node)) (links.next (some node))
    prev := prev }

/-- Put a node behind the sentinel. -/
def pushFront (links : Links Node) (node : Node) : Links Node :=
  let next := update links.next (some node) (links.next none)
  let prev := update links.prev (some node) none
  { next := update next none (some node)
    prev := update prev (next none) (some node) }

/-- Cutting a node out joins its neighbours and nothing else. -/
theorem isChain_unlink {left right : Option Node} {before after : List (Option Node)}
    (hchain : (before ++ left :: some node :: right :: after).IsChain links.Joined)
    (hnext : (before ++ left :: some node :: (right :: after).dropLast).Nodup)
    (hprev : ((before ++ [left]).tail ++ some node :: right :: after).Nodup) :
    (before ++ left :: right :: after).IsChain (links.unlink node).Joined := by
  rw [List.isChain_append_cons_cons, List.isChain_cons_cons] at hchain
  obtain ⟨hbefore, hleft, hright, hafter⟩ := hchain
  have hnodes := (List.nodup_append.mp hprev).2.1
  have hne : right ≠ some node := by
    rintro rfl
    exact (List.nodup_cons.mp hnodes).1 List.mem_cons_self
  have hunlink : links.unlink node =
      ⟨update links.next left right, update links.prev right left⟩ := by
    simp only [Links.unlink, hright.1, hleft.2, update_of_ne hne.symm]
  rw [hunlink, List.isChain_append_cons_cons]
  refine ⟨isChain_congr hbefore ?_ ?_, ⟨update_self .., update_self ..⟩, isChain_congr hafter ?_ ?_⟩
  · intro other hother
    refine update_of_ne ?_ _ _
    rintro rfl
    rw [List.dropLast_concat] at hother
    exact (List.nodup_append.mp hnext).2.2 other hother other List.mem_cons_self rfl
  · intro other hother
    refine update_of_ne ?_ _ _
    rintro rfl
    exact (List.nodup_append.mp hprev).2.2 other hother other (by simp) rfl
  · intro other hother
    refine update_of_ne ?_ _ _
    rintro rfl
    have hlast := (List.nodup_cons.mp (List.nodup_append.mp hnext).2.1).1
    exact hlast (List.mem_cons_of_mem _ hother)
  · intro other hother
    refine update_of_ne ?_ _ _
    rintro rfl
    exact (List.nodup_cons.mp (List.nodup_cons.mp hnodes).2).1 hother

theorem IsRing.unlink {before after : List Node}
    (h : links.IsRing (before ++ node :: after)) : (links.unlink node).IsRing (before ++ after) := by
  obtain ⟨hnodup, hjoined⟩ := h
  have hsublist : (before ++ after).Sublist (before ++ node :: after) := by simp
  refine ⟨hnodup.sublist hsublist, ?_⟩
  -- The circle is cut to the left and to the right of the node.
  obtain ⟨front, left, hfront⟩ : ∃ front left, none :: before.map some = front ++ [left] :=
    ⟨_, _, (List.dropLast_append_getLast (List.cons_ne_nil none (before.map some))).symm⟩
  obtain ⟨right, back, hback⟩ : ∃ right back, after.map some ++ [none] = right :: back :=
    List.exists_cons_of_ne_nil (by simp)
  have hcut (middle : List (Option Node)) :
      none :: (before.map some ++ (middle ++ (after.map some ++ [none]))) =
        front ++ left :: (middle ++ right :: back) := by
    rw [← List.cons_append, hfront, hback, List.append_assoc, List.singleton_append]
  have hnodes : (before.map some ++ some node :: after.map some).Nodup := by
    simpa using hnodup.map (Option.some_injective Node)
  have htour : tour (before ++ node :: after) = front ++ left :: some node :: right :: back := by
    simpa [tour] using hcut [some node]
  have hgoal : tour (before ++ after) = front ++ left :: right :: back := by
    simpa [tour] using hcut []
  rw [htour] at hjoined
  rw [hgoal]
  refine isChain_unlink hjoined ?_ ?_
  · have hdrop : front ++ left :: some node :: (right :: back).dropLast =
        none :: (before.map some ++ some node :: after.map some) := by
      rw [← hback, List.dropLast_concat, ← List.cons_append, hfront, List.append_assoc,
        List.singleton_append]
    rw [hdrop, List.nodup_cons]
    exact ⟨by simp, hnodes⟩
  · have htail : (front ++ [left]).tail ++ some node :: right :: back =
        (before.map some ++ some node :: after.map some) ++ [none] := by
      rw [← hfront, ← hback, List.tail_cons, List.append_assoc, List.cons_append]
    rw [htail, List.nodup_append]
    refine ⟨hnodes, List.nodup_singleton none, fun other hother last hlast ↦ ?_⟩
    rw [List.mem_singleton.mp hlast]
    rintro rfl
    simp at hother

theorem IsRing.pushFront
    (h : links.IsRing order) (hnode : node ∉ order) : (links.pushFront node).IsRing (node :: order) := by
  obtain ⟨hnodup, hjoined⟩ := h
  refine ⟨List.nodup_cons.mpr ⟨hnode, hnodup⟩, ?_⟩
  obtain ⟨first, rest, hrest⟩ : ∃ first rest, order.map some ++ [none] = first :: rest :=
    List.exists_cons_of_ne_nil (by simp)
  have hnodes : (first :: rest).Nodup := by
    rw [← hrest, List.nodup_append]
    exact ⟨hnodup.map (Option.some_injective Node), List.nodup_singleton none, by simp⟩
  have hmem {other : Option Node} (hother : other ∈ first :: rest) : other ≠ some node := by
    rw [← hrest] at hother
    rintro rfl
    simp [hnode] at hother
  rw [tour, hrest, List.isChain_cons_cons] at hjoined
  obtain ⟨⟨hfirst, -⟩, hchain⟩ := hjoined
  have hpush : links.pushFront node =
      ⟨update (update links.next (some node) first) none (some node),
        update (update links.prev (some node) none) first (some node)⟩ := by
    simp only [Links.pushFront, hfirst, update_of_ne (Option.some_ne_none node).symm]
  have hlist : tour (node :: order) = none :: some node :: first :: rest := by
    rw [tour, List.map_cons, List.cons_append, hrest]
  rw [hlist, hpush, List.isChain_cons_cons, List.isChain_cons_cons]
  refine ⟨⟨?_, ?_⟩, ⟨?_, ?_⟩, isChain_congr hchain ?_ ?_⟩
  · simp only [update_self]
  · simp only [update_of_ne (hmem List.mem_cons_self).symm, update_self]
  · simp only [update_of_ne (Option.some_ne_none node), update_self]
  · simp only [update_self]
  · intro other hother
    have hsome : other ∈ order.map some := by
      rwa [← hrest, List.dropLast_concat] at hother
    refine (update_of_ne ?_ ..).trans (update_of_ne ?_ ..)
    · rintro rfl
      simp at hsome
    · exact hmem (List.dropLast_subset _ hother)
  · intro other hother
    refine (update_of_ne ?_ ..).trans (update_of_ne ?_ ..)
    · rintro rfl
      exact (List.nodup_cons.mp hnodes).1 hother
    · exact hmem (List.mem_cons_of_mem first hother)

theorem IsRing.toFront (h : links.IsRing order) (hnode : node ∈ order) :
    ((links.unlink node).pushFront node).IsRing (node :: order.erase node) := by
  obtain ⟨before, after, hout, rfl, herase⟩ := List.exists_erase_eq hnode
  rw [herase]
  refine h.unlink.pushFront fun hmem ↦ ?_
  have hnodes := List.nodup_middle.mp h.nodup
  exact (List.nodup_cons.mp hnodes).1 hmem

end Links

end Xv6Shm
