import Xv6Shm.User.Match

/-!
# The loop of grep

`grep` keeps the bytes behind the last newline for the next read. If no newline is in the buffer it
drops all of them, also when a read brings only a part of a line; and `strchr` does not look behind
a null byte. The lines come out right for every pattern exactly if no line has a null byte and every
read brings a newline.
-/

namespace Xv6Shm.Grep

def newline : UInt8 := 10

/-- The loop over the lines in the buffer: those that `strchr` ends, and the bytes from `p` on that
are left; `line` are the bytes from `p` on that are passed already. -/
def takeLines (line : List UInt8) : List UInt8 → List (List UInt8) × List UInt8
  | [] => ([], line)
  | b :: buf =>
    if b = 0 then ([], line ++ b :: buf)
    else if b = newline then (line :: (takeLines [] buf).1, (takeLines [] buf).2)
    else takeLines (line ++ [b]) buf

/-- The lines that reach `match` when the reads bring `pieces` behind the bytes `held`. -/
def grepLines (held : List UInt8) : List (List UInt8) → List (List UInt8)
  | [] => []
  | piece :: pieces =>
    let taken := takeLines [] (held ++ piece)
    -- `if(p == buf) m = 0;`
    taken.1 ++ grepLines (if taken.1 = [] then [] else taken.2) pieces

def ended (line : List UInt8) : List UInt8 := line ++ [newline]

/-- What is written for a line; `match` sees it up to a null byte. -/
def written (re line : List UInt8) : List UInt8 :=
  if matchRe re (line.takeWhile (· != 0)) then ended line else []

/-- The output for the pieces that `read` returns one after the other. -/
def grep (re : List UInt8) (pieces : List (List UInt8)) : List UInt8 :=
  (grepLines [] pieces).flatMap (written re)

/-- No end of a line and no end of a string. -/
def IsText (line : List UInt8) : Prop := ∀ b ∈ line, b ≠ 0 ∧ b ≠ newline

variable {line buf held rest : List UInt8} {lines pieces : List (List UInt8)}

theorem takeLines_join (line buf : List UInt8) :
    (takeLines line buf).1.flatMap ended ++ (takeLines line buf).2 = line ++ buf := by
  fun_induction takeLines line buf with
  | case1 => simp
  | case2 => simp
  | case3 line buf _ ih => simp_all [ended]
  | case4 line b buf _ _ ih => rw [ih, List.append_assoc, List.singleton_append]

theorem takeLines_isText (h : IsText line) : (∀ l ∈ (takeLines line buf).1, IsText l) ∧
    (0 ∉ (takeLines line buf).2 → IsText (takeLines line buf).2) := by
  fun_induction takeLines line buf with
  | case1 => simpa using fun _ ↦ h
  | case2 => simp
  | case3 line buf _ ih =>
    obtain ⟨hlines, hrest⟩ := ih (by simp [IsText])
    exact ⟨List.forall_mem_cons.mpr ⟨h, hlines⟩, hrest⟩
  | case4 line b buf hnull hnewline ih =>
    exact ih (List.forall_mem_append.mpr ⟨h, by simpa using ⟨hnull, hnewline⟩⟩)

theorem takeLines_text (h : IsText buf) (more : List UInt8) :
    takeLines line (buf ++ more) = takeLines (line ++ buf) more := by
  induction buf generalizing line with
  | nil => simp
  | cons b buf ih =>
    obtain ⟨⟨hnull, hnewline⟩, hbuf⟩ := List.forall_mem_cons.mp h
    rw [List.cons_append, takeLines, if_neg hnull, if_neg hnewline, ih hbuf, List.append_assoc,
      List.singleton_append]

theorem takeLines_append (hlines : ∀ line ∈ lines, IsText line) (rest : List UInt8) :
    (takeLines [] (lines.flatMap ended ++ rest)).1 = lines ++ (takeLines [] rest).1 := by
  induction lines with
  | nil => rfl
  | cons line lines ih =>
    obtain ⟨hline, hlines⟩ := List.forall_mem_cons.mp hlines
    rw [List.flatMap_cons, ended, List.append_assoc, List.append_assoc, takeLines_text hline,
      List.singleton_append, takeLines, if_neg (by decide), if_pos rfl, ih hlines]
    rfl

theorem null_notMem_lines : 0 ∉ lines.flatMap ended ↔ ∀ line ∈ lines, 0 ∉ line := by
  simp [ended, newline]

/-- Bytes are lost at a null byte and at a piece without a newline. -/
theorem grepLines_length (hpieces : ∀ piece ∈ pieces, piece ≠ []) :
    ((grepLines held pieces).flatMap ended).length ≤ held.length + pieces.flatten.length ∧
    (((grepLines held pieces).flatMap ended).length = held.length + pieces.flatten.length →
      0 ∉ held ++ pieces.flatten ∧ (newline ∉ held → ∀ piece ∈ pieces, newline ∈ piece)) := by
  induction pieces generalizing held with
  | nil => simp +contextual [grepLines, eq_comm]
  | cons piece pieces ih =>
    obtain ⟨hpiece, hpieces⟩ := List.forall_mem_cons.mp hpieces
    have hjoin := takeLines_join [] (held ++ piece)
    obtain ⟨hlines, hrest⟩ := @takeLines_isText [] (held ++ piece) (by simp [IsText])
    have hlength := congrArg List.length hjoin
    have hpos := List.length_pos_iff.mpr hpiece
    rw [grepLines]
    generalize takeLines [] (held ++ piece) = taken at *
    simp only [List.length_append, List.nil_append, List.flatMap_append, List.flatten_cons] at *
    split
    · rename_i hnone
      have hlater := (@ih [] hpieces).1
      rw [List.length_nil] at hlater
      rw [hnone, List.flatMap_nil, List.length_nil]
      omega
    · rename_i hsome
      obtain ⟨hle, heq⟩ := @ih taken.2 hpieces
      refine ⟨by omega, fun hall ↦ ?_⟩
      obtain ⟨hnull, hnewlines⟩ := heq (by omega)
      rw [List.mem_append, not_or] at hnull
      obtain ⟨first, hfirst⟩ := List.exists_mem_of_ne_nil _ hsome
      have hfound : newline ∈ held ++ piece := by
        rw [← hjoin]
        exact List.mem_append_left _ (List.mem_flatMap.mpr ⟨first, hfirst, by simp [ended]⟩)
      refine ⟨?_, fun hheld ↦ List.forall_mem_cons.mpr
        ⟨(List.mem_append.mp hfound).resolve_left hheld,
          hnewlines fun h ↦ (hrest hnull.1 _ h).2 rfl⟩⟩
      rw [← List.append_assoc, ← hjoin, List.mem_append, List.mem_append, not_or, not_or,
        null_notMem_lines]
      exact ⟨⟨fun l hl h ↦ (hlines l hl 0 h).1 rfl, hnull.1⟩, hnull.2⟩

/-- If nothing is lost, the lines are those of one pass over all bytes. -/
theorem grepLines_takeLines (hheld : IsText held) (hnull : 0 ∉ pieces.flatten)
    (hnewlines : ∀ piece ∈ pieces, newline ∈ piece) :
    (takeLines [] (held ++ pieces.flatten)).1 = grepLines held pieces := by
  induction pieces generalizing held with
  | nil => rw [List.flatten_nil, takeLines_text hheld, takeLines, grepLines]
  | cons piece pieces ih =>
    obtain ⟨hnewline, hnewlines⟩ := List.forall_mem_cons.mp hnewlines
    rw [List.flatten_cons, List.mem_append, not_or] at hnull
    have hjoin := takeLines_join [] (held ++ piece)
    obtain ⟨hlines, hrest⟩ := @takeLines_isText [] (held ++ piece) (by simp [IsText])
    rw [grepLines]
    generalize takeLines [] (held ++ piece) = taken at *
    have hclean : 0 ∉ taken.2 := by
      intro h
      have hmem : 0 ∈ held ++ piece := by
        rw [← List.nil_append (held ++ piece), ← hjoin]
        exact List.mem_append_right _ h
      exact (List.mem_append.mp hmem).elim (fun h ↦ (hheld _ h).1 rfl) hnull.1
    have hsome : taken.1 ≠ [] := by
      intro hnone
      rw [hnone, List.flatMap_nil, List.nil_append, List.nil_append] at hjoin
      rw [hjoin] at hrest hclean
      exact (hrest hclean newline (List.mem_append_right _ hnewline)).2 rfl
    rw [if_neg hsome, ← ih (hrest hclean) hnull.2 hnewlines, List.flatten_cons, ← List.append_assoc,
      ← List.nil_append (held ++ piece), ← hjoin, List.append_assoc, takeLines_append hlines]

/-- Each line that matches comes out once and in order, for every pattern, exactly then. -/
theorem grep_iff {texts : List (List UInt8)} (hpieces : ∀ piece ∈ pieces, piece ≠ [])
    (htexts : ∀ text ∈ texts, newline ∉ text) (hinput : pieces.flatten = texts.flatMap ended) :
    (∀ re, grep re pieces = texts.flatMap (written re)) ↔
      (∀ text ∈ texts, 0 ∉ text) ∧ ∀ piece ∈ pieces, newline ∈ piece := by
  rw [← null_notMem_lines, ← hinput]
  constructor
  · intro hgrep
    have hall : written [] = ended := by
      funext line
      unfold written matchRe
      cases line.takeWhile (· != 0) <;> rfl
    have hlength := hgrep []
    rw [grep, hall, ← hinput] at hlength
    obtain ⟨hnull, hnewlines⟩ := (@grepLines_length [] pieces hpieces).2 (by simp [hlength])
    exact ⟨hnull, hnewlines (by simp)⟩
  · rintro ⟨hnull, hnewlines⟩ re
    have hlines := @grepLines_takeLines [] pieces (by simp [IsText]) hnull hnewlines
    rw [hinput, null_notMem_lines] at hnull
    have htaken := @takeLines_append texts (fun text htext b hb ↦
      ⟨fun h ↦ hnull text htext (h ▸ hb), fun h ↦ htexts text htext (h ▸ hb)⟩) []
    rw [List.nil_append, hinput, ← List.append_nil (texts.flatMap ended), htaken] at hlines
    rw [grep, ← hlines]
    simp [takeLines]

/-- Four lines, of which the second comes in two reads. -/
theorem grep_iff_split_line :
    grep [97] [[98, 10, 97], [97, 10, 10], [99, 97, 10]] = [97, 97, 10, 99, 97, 10] :=
  ((@grep_iff [[98, 10, 97], [97, 10, 10], [99, 97, 10]] [[98], [97, 97], [], [99, 97]] (by decide)
    (by decide) rfl).mpr ⟨by decide, by decide⟩) [97]

/-- A line in two reads is lost. -/
theorem grep_two_reads : grep [97] [[97], [10]] = [] ∧ written [97] [97] = [97, 10] := by
  decide

end Xv6Shm.Grep
