import Mathlib.Data.List.Basic
import TermCalc.Text.Blank

/-!
# The lines of a text

Lines that are written one after the other, each with its end, are what the text is cut into again.
Lines that are deleted from a typed text, together with their ends, are missing from what it is cut
into, and the others stay as they are.

## Main definitions

* `Text.ofLines lines`: the text of those lines, each with its end
* `Text.removeLines flags s`: the text without the lines whose flags are set
* `Text.survivors flags xs`: the entries of a list whose flags are not set

## Main results

* `Text.fileLines_ofLines`: the lines of a file
* `Text.inputLines_removeLines`: the lines of typed input after some have been deleted
-/

namespace TermCalc.Text

/-! ## Texts of lines -/

/-- The text of lines, each with its end. -/
def ofLines (lines : List String) : String :=
  String.join (lines.map (· ++ "\n"))

theorem normalizeLineEnds_of_notMem {cs : List Char} (h : '\r' ∉ cs) :
    normalizeLineEnds cs = cs := by
  induction cs with
  | nil => rfl
  | cons c cs ih =>
    have hc : c ≠ '\r' := (List.ne_of_not_mem_cons h).symm
    rw [normalizeLineEnds, ih (List.not_mem_of_not_mem_cons h)]
    · exact fun _ hr => absurd hr hc
    · exact hc

/-- A line ends at its line end. -/
theorem splitLines_append {cs : List Char} (h : '\n' ∉ cs) (line rest : List Char) :
    splitLines line (cs ++ '\n' :: rest) = (line.reverse ++ cs) :: splitLines [] rest := by
  induction cs generalizing line with
  | nil => rw [List.nil_append, splitLines, List.append_nil]
  | cons c cs ih =>
    rw [List.cons_append, splitLines, ih (List.not_mem_of_not_mem_cons h), List.reverse_cons,
      List.append_assoc, List.singleton_append]
    exact (List.ne_of_not_mem_cons h).symm

theorem toList_ofLines_cons (line : String) (lines : List String) :
    (ofLines (line :: lines)).toList = line.toList ++ '\n' :: (ofLines lines).toList := by
  rw [ofLines, List.map_cons, String.join_cons, String.toList_append, String.toList_append,
    List.append_assoc]
  rfl

/-- Lines without line ends in them are the lines of their text. -/
theorem fileLines_ofLines {lines : List String}
    (h : ∀ line ∈ lines, '\n' ∉ line.toList ∧ '\r' ∉ line.toList) :
    fileLines (ofLines lines) = lines := by
  have hreturn : '\r' ∉ (ofLines lines).toList := by
    induction lines with
    | nil => simp [ofLines]
    | cons line lines ih =>
      obtain ⟨hline, hlines⟩ := List.forall_mem_cons.1 h
      rw [toList_ofLines_cons]
      exact List.not_mem_append hline.2 (List.not_mem_cons_of_ne_of_not_mem (by decide) (ih hlines))
  rw [fileLines, normalizeLineEnds_of_notMem hreturn]
  clear hreturn
  induction lines with
  | nil => simp [ofLines, splitLines]
  | cons line lines ih =>
    obtain ⟨hline, hlines⟩ := List.forall_mem_cons.1 h
    rw [toList_ofLines_cons, splitLines_append hline.1, List.map_cons, ih hlines, List.reverse_nil,
      List.nil_append, String.ofList_toList]

/-! ## Deleting lines -/

/-- The entries of a list whose flags are not set; those without a flag are among them. -/
def survivors {α : Type*} : List Bool → List α → List α
  | true :: flags, _ :: xs => survivors flags xs
  | false :: flags, x :: xs => x :: survivors flags xs
  | [], xs => xs
  | _ :: _, [] => []

/-- The text without the lines whose flags are set, and without the ends of those lines. -/
def removeFrom : List Bool → List Char → List Char
  | true :: flags, '\n' :: rest => removeFrom flags rest
  | true :: flags, _ :: rest => removeFrom (true :: flags) rest
  | false :: flags, '\n' :: rest => '\n' :: removeFrom flags rest
  | false :: flags, c :: rest => c :: removeFrom (false :: flags) rest
  | [], rest => rest
  | _ :: _, [] => []

/-- The text without the lines whose flags are set. -/
def removeLines (flags : List Bool) (s : String) : String :=
  String.ofList (removeFrom flags s.toList)

@[simp] theorem survivors_nil {α : Type*} (flags : List Bool) :
    survivors flags ([] : List α) = [] := by
  rcases flags with _ | ⟨_ | _, flags⟩ <;> rfl

theorem map_survivors {α β : Type*} (f : α → β) (flags : List Bool) (xs : List α) :
    (survivors flags xs).map f = survivors flags (xs.map f) := by
  induction xs generalizing flags with
  | nil => simp
  | cons x xs ih =>
    match flags with
    | [] => rfl
    | true :: flags => exact ih flags
    | false :: flags => exact congrArg (f x :: ·) (ih flags)

/-- The same from the middle of a line on, whose characters so far are deleted with it. -/
theorem splitLines_removeFrom_cons (flag : Bool) (flags : List Bool) (line cs : List Char) :
    splitLines (if flag then [] else line) (removeFrom (flag :: flags) cs) =
      survivors (flag :: flags) (splitLines line cs) := by
  induction cs generalizing flag flags line with
  | nil =>
    cases line with
    | nil => cases flag <;> rfl
    | cons c line => cases flag <;> simp [removeFrom, splitLines, survivors]
  | cons c cs ih =>
    by_cases hc : c = '\n'
    · subst hc
      have hrest : splitLines [] (removeFrom flags cs) = survivors flags (splitLines [] cs) := by
        cases flags with
        | nil => cases cs <;> rfl
        | cons flag flags =>
          have hcons := ih flag flags []
          rwa [ite_self] at hcons
      cases flag with
      | true => exact hrest
      | false => exact congrArg (line.reverse :: ·) hrest
    · have hsplit : ∀ line cs, splitLines line (c :: cs) = splitLines (c :: line) cs :=
        fun line cs => splitLines.eq_3 line c cs hc
      have hremove : removeFrom (flag :: flags) (c :: cs) =
          (if flag then [] else [c]) ++ removeFrom (flag :: flags) cs := by
        cases flag with
        | true => exact removeFrom.eq_2 flags c cs hc
        | false => exact removeFrom.eq_4 flags c cs hc
      rw [hremove, hsplit, ← ih flag flags (c :: line)]
      cases flag with
      | true => rfl
      | false => exact hsplit line _

/-- The lines that are left are those without a flag. -/
theorem splitLines_removeFrom (flags : List Bool) (cs : List Char) :
    splitLines [] (removeFrom flags cs) = survivors flags (splitLines [] cs) := by
  cases flags with
  | nil => cases cs <;> rfl
  | cons flag flags =>
    have hcons := splitLines_removeFrom_cons flag flags [] cs
    rwa [ite_self] at hcons

/-- The lines of typed input that are left are those without a flag. -/
theorem inputLines_removeLines (flags : List Bool) (s : String) :
    inputLines (removeLines flags s) = survivors flags (inputLines s) := by
  rw [inputLines, removeLines, String.toList_ofList, splitLines_removeFrom, map_survivors]
  rfl

end TermCalc.Text
