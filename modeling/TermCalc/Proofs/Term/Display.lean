import TermCalc.Proofs.Number.Display
import TermCalc.Proofs.Term.Readable
import TermCalc.Proofs.Token.Scan
import TermCalc.Term.Printer

/-!
# The text of a readable term

What the text of a term looks like: a number, a name, a minus sign and an operand, two operands
with a sign between them, or a call. A text begins with something visible and has one line.

## Main definitions

* `Term.text t`: the characters of the text of `t`
* `Term.Shown name args cs`: how an application of the symbol `name` is shown

## Main results

* `Term.shown_text`: an application is shown in one of four ways
* `Term.visible_text`: a text begins with something visible and has no line break
-/

namespace TermCalc

open Grammar (sumTags productTags)

open Text (Visible)

theorem visible_of_symbolName {name : List Char} (h : Lexer.SymbolName name) : Visible name := by
  obtain ⟨c, tail, rfl, hc, ht⟩ := h.shape
  refine ⟨⟨c, tail, rfl, (Lexer.symbolStart_foreign hc).2.2.2.1⟩, fun hmem => ?_⟩
  have hbreak : Lexer.isSymbolPart '\n' = false := by decide
  rcases List.mem_cons.1 hmem with rfl | hmem
  · exact absurd hc (by decide)
  · exact Bool.noConfusion (hbreak.symm.trans (ht _ hmem))

theorem visible_minus {cs : List Char} (h : '\n' ∉ cs) : Visible ('-' :: cs) := by
  refine ⟨⟨'-', cs, rfl, by decide⟩, fun hmem => ?_⟩
  rcases List.mem_cons.1 hmem with hc | hmem
  · exact absurd hc (by decide)
  · exact h hmem

theorem visible_of_unsigned {cs : List Char}
    (h : cs = "Infinity".toList ∨ Literal.Numeral Char.isDigit cs) : Visible cs := by
  rcases h with rfl | h
  · exact ⟨⟨'I', "nfinity".toList, rfl, by decide⟩, by decide⟩
  · have hall : ∀ c ∈ cs, Text.isBlank c = false := by
      intro c hc
      rcases h.mem hc with hd | hm
      · obtain ⟨d, hv⟩ := Option.isSome_iff_exists.1 (Text.isDigit_of_ascii hd)
        exact Text.isBlank_of_digitValue?_eq_some hv
      · have hmarks : ∀ c ∈ Literal.numeralMarks, Text.isBlank c = false :=
          List.all_iff_forall_prop.1 (by decide)
        exact hmarks c hm
    obtain ⟨c, tail, rfl⟩ := List.exists_cons_of_ne_nil h.ne_nil
    refine ⟨⟨c, tail, rfl, hall c List.mem_cons_self⟩, fun hmem => ?_⟩
    exact absurd (hall _ hmem) (by decide)

theorem NumberText.visible {x : Float} {cs : List Char} (h : NumberText x cs) : Visible cs := by
  cases h with
  | nan => exact ⟨⟨'N', "aN".toList, rfl, by decide⟩, by decide⟩
  | @number negative _ _ _ hcs =>
    cases negative with
    | false => exact visible_of_unsigned hcs
    | true => exact visible_minus (visible_of_unsigned hcs).unbroken

namespace Term

/-! ## Layouts -/

/-- The characters of the text of a term. -/
def text (t : Term) : List Char :=
  t.display.toList

/-- The texts of a list of terms, with commas between them. -/
def joined (ts : List Term) : List Char :=
  List.intercalate [',', ' '] (ts.map text)

theorem joined_singleton (t : Term) : joined [t] = t.text := by
  simp [joined]

theorem joined_cons (t : Term) {ts : List Term} (h : ts ≠ []) :
    joined (t :: ts) = t.text ++ ([',', ' '] ++ joined ts) := by
  obtain ⟨u, us, rfl⟩ := List.exists_cons_of_ne_nil h
  simp [joined]

theorem toList_intercalate (ts : List Term) :
    (String.intercalate ", " (displayAll ts)).toList = joined ts := by
  rw [String.toList_intercalate, displayAll_eq_map, List.map_map]
  rfl

/-- How an assignment is shown. -/
theorem text_assignment (l r : Term) :
    text (binary "$let" l r) = l.text ++ ([' ', '=', ' '] ++ r.text) := by
  show (layoutCall (some "$let") "$let" (displayAll [l, r])).toList = _
  rw [displayAll, displayAll, displayAll, layoutCall, if_pos rfl, String.toList_append,
    String.toList_append, List.append_assoc]
  rfl

/-- How the application of the symbol `name` to arguments is shown: with a minus sign in front, with
a sign between two operands, or as a call. -/
inductive Shown (name : String) : List Term → List Char → Prop
  | negation {a} : name = "$neg" → Shown name [a] (['-'] ++ a.text)
  | assignment {l r} : name = "$let" → Shown name [l, r] (l.text ++ ([' ', '=', ' '] ++ r.text))
  | operator {c l r} : c ∈ Lexer.infixSigns →
      (String.ofList [c], name) ∈ sumTags ++ productTags →
      Shown name [l, r] (['('] ++ (l.text ++ ([' ', c, ' '] ++ r.text) ++ [')']))
  | call {args} : (name = "$neg" → ∀ a, args ≠ [a]) → (name = "$let" → ∀ l r, args ≠ [l, r]) →
      Shown name args (name.toList ++ ['('] ++ (joined args ++ [')']))

variable {name : String} {args : List Term}

theorem infixSign?_eq_some {sign : String} (h : infixSign? name = some sign) :
    ∃ c ∈ Lexer.infixSigns, sign = String.ofList [c] ∧ (sign, name) ∈ sumTags ++ productTags := by
  have hall : ∀ p ∈ sumTags ++ productTags,
      p.1 ∈ Lexer.infixSigns.map fun c => String.ofList [c] := by
    decide
  have hmem : (sign, name) ∈ sumTags ++ productTags := by
    rw [infixSign?] at h
    grind [sumTags, productTags]
  obtain ⟨c, hc, hsign⟩ := List.mem_map.1 (hall _ hmem)
  exact ⟨c, hc, hsign.symm, hmem⟩

/-- An application that is laid out as a call. -/
theorem shown_call
    (h : layoutCall (some name) name (displayAll args) =
      name ++ "(" ++ String.intercalate ", " (displayAll args) ++ ")")
    (hneg : name = "$neg" → ∀ a, args ≠ [a]) (hlet : name = "$let" → ∀ l r, args ≠ [l, r]) :
    Shown name args (text (.app (.sym name) args)) := by
  have htext : text (.app (.sym name) args) =
      name.toList ++ ['('] ++ (joined args ++ [')']) := by
    show (layoutCall (some name) name (displayAll args)).toList = _
    rw [h, String.toList_append, String.toList_append, String.toList_append, toList_intercalate,
      List.append_assoc]
    rfl
  rw [htext]
  exact .call hneg hlet

theorem shown_one (name : String) (a : Term) :
    Shown name [a] (text (.app (.sym name) [a])) := by
  by_cases hneg : name = "$neg"
  · have htext : text (.app (.sym name) [a]) = ['-'] ++ a.text := by
      show (layoutCall (some name) name (displayAll [a])).toList = _
      rw [displayAll, displayAll, layoutCall, if_pos hneg, String.toList_append]
      rfl
    rw [htext]
    exact .negation hneg
  · apply shown_call
    · rw [displayAll, displayAll, layoutCall, if_neg hneg, String.intercalate_singleton]
    · exact fun h => absurd h hneg
    · simp

theorem shown_two (name : String) (l r : Term) :
    Shown name [l, r] (text (.app (.sym name) [l, r])) := by
  by_cases hlet : name = "$let"
  · subst hlet
    show Shown "$let" [l, r] (text (binary "$let" l r))
    rw [text_assignment]
    exact .assignment rfl
  · cases hsign : infixSign? name with
    | some sign =>
      obtain ⟨c, hc, rfl, hmem⟩ := infixSign?_eq_some hsign
      have htext : text (.app (.sym name) [l, r]) =
          ['('] ++ (l.text ++ ([' ', c, ' '] ++ r.text) ++ [')']) := by
        show (layoutCall (some name) name (displayAll [l, r])).toList = _
        rw [displayAll, displayAll, displayAll, layoutCall, if_neg hlet, hsign]
        simp [text]
      rw [htext]
      exact .operator hc hmem
    | none =>
      apply shown_call
      · rw [displayAll, displayAll, displayAll, layoutCall, if_neg hlet, hsign,
          String.intercalate_cons_cons, String.intercalate_singleton]
        simp [String.append_assoc]
      · simp
      · exact fun h => absurd h hlet

/-- An application is shown in one of the ways. -/
theorem shown_text (name : String) (args : List Term) :
    Shown name args (text (.app (.sym name) args)) := by
  rcases args with _ | ⟨a, _ | ⟨b, _ | ⟨c, ds⟩⟩⟩
  · exact shown_call rfl (by simp) (by simp)
  · exact shown_one name a
  · exact shown_two name a b
  · exact shown_call rfl (by simp) (by simp)

/-! ## Visibility -/

theorem visible_joined {ts : List Term} (hne : ts ≠ []) (h : ∀ t ∈ ts, Visible t.text) :
    Visible (joined ts) := by
  induction ts with
  | nil => exact absurd rfl hne
  | cons t ts ih =>
    have ht := h t List.mem_cons_self
    by_cases hts : ts = []
    · rw [hts, joined_singleton]
      exact ht
    · have hrest := ih hts fun u hu => h u (List.mem_cons_of_mem t hu)
      rw [joined_cons t hts]
      exact ht.append (List.not_mem_append (by decide) hrest.unbroken)

/-- The text of a readable term begins with something visible and has one line. -/
theorem visible_text {v : Term} (h : Readable v) : Visible v.text := by
  induction h with
  | const x => exact (numberText_displayNumber x).visible
  | sym hname => exact visible_of_symbolName hname
  | @app name args hname hne _ ih =>
    have hname := visible_of_symbolName hname
    have hvisible : ∀ cs, Shown name args cs → Visible cs := by
      intro cs hcs
      cases hcs with
      | negation => exact visible_minus (ih _ List.mem_cons_self).unbroken
      | @assignment l r =>
        have hr := ih r (List.mem_cons_of_mem _ List.mem_cons_self)
        exact (ih l List.mem_cons_self).append (List.not_mem_append (by decide) hr.unbroken)
      | @operator c l r hc =>
        have hl := ih l List.mem_cons_self
        have hr := ih r (List.mem_cons_of_mem _ List.mem_cons_self)
        have hopener : Visible ['('] := ⟨⟨'(', [], rfl, by decide⟩, by decide⟩
        exact hopener.append (List.not_mem_append (List.not_mem_append hl.unbroken
          (List.not_mem_append (Lexer.unbroken_sign c hc) hr.unbroken)) (by decide))
      | call =>
        have hargs := visible_joined hne ih
        rw [List.append_assoc]
        exact hname.append (List.not_mem_append (by decide)
          (List.not_mem_append hargs.unbroken (by decide)))
    exact hvisible _ (shown_text name args)

end Term

end TermCalc
