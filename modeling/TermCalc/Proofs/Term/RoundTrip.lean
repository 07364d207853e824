import TermCalc.Proofs.Term.Display
import TermCalc.Proofs.Term.Printed

/-!
# Reading back what is shown

The text of a term is read as an equivalent term, with two exceptions. An assignment is a statement
and no operand, so its text is read back only where the whole text is an assignment to a symbol.
And a minus sign is lost in front of a number, where it becomes part of the number, and in front of
another one, where the two begin a comment.

Negation takes part in the induction over terms: for every term it is shown what becomes of its
text and what becomes of its text with a minus sign in front.

## Main definitions

* `Term.CutsBoth v cs`: what becomes of the text `cs` of `v`, with and without a minus sign in front

## Main results

* `Term.cuts_text`: the tokens of the text of a readable term
* `Term.read?_display_iff`: which terms are read back
-/

namespace TermCalc.Term

open Grammar (Statement sumTags productTags)
open Lexer (Cuts Lexes IsToken lexeme?)
open Text (Visible)

variable {name : String} {args : List Term} {v : Term} {x : Float} {cs : List Char}

/-! ## Cutting the text of a term -/

/-- A minus sign in front of a text that is lost neither in a number nor in a comment. -/
theorem cuts_negation (h : Cuts cs (Printed v) (Lossy v)) (hm : ¬ Merges v)
    (hminus : ∀ rest, lexeme? true ('-' :: (cs ++ rest)) = some (.operator, 1)) :
    Cuts ('-' :: cs) (Printed (unary "$neg" v)) (Lossy (unary "$neg" v)) := by
  refine (h.prepend fun rest => Lexer.scans_minus (hminus rest)).mono ?_ ?_
  · rintro _ ⟨_, us, rfl, ⟨t, rfl, ht⟩, hus⟩
    exact printed_negation ht hus hm
  · exact Or.imp assigns_neg.2 fun h => ambiguous_neg.2 (.inr h)

/-- Both texts of an operand: its own, and that with a minus sign in front. -/
structure CutsBoth (v : Term) (cs : List Char) : Prop where
  plain : Cuts cs (Printed v) (Lossy v)
  negated : Cuts ('-' :: cs) (Printed (unary "$neg" v)) (Lossy (unary "$neg" v))

/-- The texts of a number. -/
theorem cuts_number (h : NumberText x cs) : CutsBoth (.const x) cs := by
  cases h with
  | nan hx =>
    have hread : number? (String.ofList "NaN".toList) = some (0.0 / 0.0) := by decide +kernel
    have hsame : sameNumber (0.0 / 0.0) x = true := by
      have hnan : (0.0 / 0.0 : Float).isNaN = true := by decide +kernel
      rw [sameNumber, hnan, hx, Bool.or_eq_true_iff]
      exact .inr rfl
    have hplain : Cuts "NaN".toList (Printed (.const x)) (Lossy (.const x)) :=
      .inl fun rest _ => (Lexer.scans_constant Lexer.lexeme?_nan).mono fun _ hts =>
        printed_const hts hread hsame
    refine ⟨hplain, cuts_negation hplain ?_ fun _ => ?_⟩
    · rintro (hnot | _)
      exact Bool.noConfusion (hx.symm.trans hnot)
    · exact Lexer.lexeme?_minus_cons (by decide) (Lexer.unsignedExtent_mark (by decide))
  | @number negative cs y hx hcs hread hsame =>
    have hunsigned := Lexer.unsigned_of_ascii hcs
    cases negative with
    | false =>
      have hnumber : (number? (String.ofList (['-'] ++ cs))).isSome = true :=
        Lexer.number?_isSome_of_unsigned (by decide) hunsigned
      obtain ⟨z, hz⟩ := Option.isSome_iff_exists.1 hnumber
      constructor
      · exact .inl fun rest hr => (Lexer.scans_constant (Lexer.lexeme?_unsigned hunsigned hr)).mono
          fun _ hts => printed_const hts hread hsame
      · exact .inl fun rest hr => (Lexer.scans_constant (Lexer.lexeme?_negative hunsigned hr)).mono
          fun _ hts => printed_merged hts hz hx
    | true =>
      constructor
      · exact .inl fun rest hr => (Lexer.scans_constant (Lexer.lexeme?_negative hunsigned hr)).mono
          fun _ hts => printed_const hts hread hsame
      · exact .inr ⟨Lexer.dangles_comment (visible_of_unsigned hcs).unbroken,
          lossy_neg (.number hx)⟩

/-- The texts of a symbol. -/
theorem cuts_symbol (h : Lexer.SymbolName name.toList) :
    CutsBoth (.sym name) name.toList := by
  have hplain : Lexes name.toList (Printed (.sym name)) := fun rest hr =>
    (Lexer.scans_symbol (Lexer.lexeme?_symbol h hr)).mono fun _ hts => printed_sym hts
  refine ⟨.inl hplain, .inl ?_⟩
  have hminus := hplain.prepend fun rest hr => Lexer.scans_minus (h.lexeme?_minus hr)
  refine hminus.mono ?_
  rintro _ ⟨_, us, rfl, ⟨t, rfl, ht⟩, hus⟩
  exact printed_negation ht hus (fun hm => nomatch hm)

/-- The texts of an assignment. -/
theorem cuts_assignment {l r : Term} (hl : CutsBoth l l.text) (hr : CutsBoth r r.text)
    (hvisible : Visible r.text) :
    CutsBoth (binary "$let" l r) (l.text ++ ([' ', '=', ' '] ++ r.text)) := by
  have hassigns : Assigns (binary "$let" l r) := ⟨l, r, .self⟩
  have hnegated := assigns_neg.2 hassigns
  constructor
  · refine (hl.plain.sign (by decide) hr.plain hvisible).mono ?_ fun _ => .inl hassigns
    rintro _ ⟨us, t, ws, rfl, -, ht, -⟩
    exact printed_assignment ht hassigns
  · refine (hl.negated.sign (by decide) hr.plain hvisible).mono ?_ fun _ => .inl hnegated
    rintro _ ⟨us, t, ws, rfl, -, ht, -⟩
    exact printed_assignment ht hnegated

/-- The texts of two operands with an operator between them. -/
theorem cuts_operator {l r : Term} {d : Char} (hd : d ∈ Lexer.infixSigns)
    (hmem : (String.ofList [d], name) ∈ sumTags ++ productTags) (hl : CutsBoth l l.text)
    (hr : CutsBoth r r.text) (hvisible : Visible r.text) :
    CutsBoth (binary name l r) (['('] ++ (l.text ++ ([' ', d, ' '] ++ r.text) ++ [')'])) := by
  have hlossy : Lossy l ∨ Lossy r → Lossy (binary name l r) := by
    rintro (h | h)
    · exact lossy_of_mem List.mem_cons_self h
    · exact lossy_of_mem (List.mem_cons_of_mem l List.mem_cons_self) h
  have hbetween := (hl.plain.sign hd hr.plain hvisible).close
  have hplain : Cuts (['('] ++ (l.text ++ ([' ', d, ' '] ++ r.text) ++ [')']))
      (Printed (binary name l r)) (Lossy (binary name l r)) := by
    refine (hbetween.prepend fun _ => Lexer.scans_opener).mono ?_ hlossy
    rintro _ ⟨_, _, rfl, ⟨o, rfl, ho⟩, _, _, rfl, ⟨us, t, ws, rfl, hus, ht, hws⟩, ⟨c, rfl, hc⟩⟩
    exact printed_operator ho hus ht hmem hws hc
  refine ⟨hplain, cuts_negation hplain (fun hm => nomatch hm) fun _ => ?_⟩
  exact Lexer.lexeme?_minus_cons (by decide) (Lexer.unsignedExtent_mark (by decide))

/-- The texts of several terms with commas between them. -/
theorem cuts_joined {vs : List Term} (hne : vs ≠ [])
    (h : ∀ v ∈ vs, Cuts v.text (Printed v) (Lossy v)) (hvisible : ∀ v ∈ vs, Visible v.text) :
    Cuts (joined vs) (PrintedAll vs) (∃ v ∈ vs, Lossy v) := by
  induction vs with
  | nil => exact absurd rfl hne
  | cons v vs ih =>
    have hv := h v List.mem_cons_self
    by_cases hvs : vs = []
    · rw [hvs, joined_singleton]
      exact hv.mono (fun _ hts => hts.all) fun hb => ⟨v, List.mem_cons_self, hb⟩
    · have hmore : ∀ u ∈ vs, Visible u.text := fun u hu => hvisible u (List.mem_cons_of_mem v hu)
      have hrest := ih hvs (fun u hu => h u (List.mem_cons_of_mem v hu)) hmore
      rw [joined_cons v hvs]
      refine (hv.comma hrest (visible_joined hvs hmore)).mono ?_ ?_
      · rintro _ ⟨us, t, ws, rfl, hus, ht, hws⟩
        exact .cons hus ht hws
      · rintro (hb | ⟨u, hu, hb⟩)
        · exact ⟨v, List.mem_cons_self, hb⟩
        · exact ⟨u, List.mem_cons_of_mem v hu, hb⟩

/-- The texts of a call. -/
theorem cuts_call (hname : Lexer.SymbolName name.toList)
    (hargs : Cuts (joined args) (PrintedAll args) (∃ a ∈ args, Lossy a))
    (hneg : name = "$neg" → ∀ a, args ≠ [a]) (hlet : name = "$let" → ∀ l r, args ≠ [l, r]) :
    CutsBoth (.app (.sym name) args) (name.toList ++ ['('] ++ (joined args ++ [')'])) := by
  have hopener : ∀ rest, Lexer.Boundary ('(' :: rest) := fun _ => Lexer.boundary_cons (by decide)
  have hfront : ∀ rest, Lexer.Scans true (name.toList ++ ['(']) rest true
      fun ts => ∃ us vs, ts = us ++ vs ∧ IsToken .symbol name.toList us ∧ Lexer.IsMark "(" vs :=
    fun rest => (Lexer.scans_symbol (Lexer.lexeme?_symbol hname (hopener rest))).append
      Lexer.scans_opener
  have hplain : Cuts (name.toList ++ ['('] ++ (joined args ++ [')']))
      (Printed (.app (.sym name) args)) (Lossy (.app (.sym name) args)) := by
    refine (hargs.close.prepend fun _ => hfront _).mono ?_ fun ⟨_, ha, h⟩ => lossy_of_mem ha h
    rintro _ ⟨_, _, rfl, ⟨_, _, rfl, ⟨t, rfl, hk, himage⟩, ⟨o, rfl, ho⟩⟩, us, _, rfl, hus,
      ⟨c, rfl, hc⟩⟩
    rw [String.ofList_toList] at himage
    exact printed_call hk himage ho hus hc hneg hlet
  refine ⟨hplain, cuts_negation hplain ?_ fun rest => ?_⟩
  · intro hm
    cases hm with
    | negation operand => exact hneg rfl operand rfl
  · rw [List.append_assoc, List.append_assoc]
    exact hname.lexeme?_minus (hopener _)

/-- The tokens of the text of a readable term, and of that text with a minus sign in front. -/
theorem cuts_text (h : Readable v) : CutsBoth v v.text := by
  induction h with
  | const x => exact cuts_number (numberText_displayNumber x)
  | sym hname => exact cuts_symbol hname
  | @app name args hname hne hargs ih =>
    have hvisible : ∀ a ∈ args, Visible a.text := fun a ha => visible_text (hargs a ha)
    have hall : ∀ cs, Shown name args cs → CutsBoth (.app (.sym name) args) cs := by
      intro cs hcs
      cases hcs with
      | @negation a hneg =>
        subst hneg
        have ha := ih a List.mem_cons_self
        refine ⟨ha.negated, .inr ⟨?_, lossy_neg (.negation a)⟩⟩
        exact Lexer.dangles_comment (hvisible a List.mem_cons_self).unbroken
      | @assignment l r hlet =>
        subst hlet
        have hmem : r ∈ [l, r] := List.mem_cons_of_mem l List.mem_cons_self
        exact cuts_assignment (ih l List.mem_cons_self) (ih r hmem) (hvisible r hmem)
      | @operator c l r hc hmem =>
        have hr : r ∈ [l, r] := List.mem_cons_of_mem l List.mem_cons_self
        exact cuts_operator hc hmem (ih l List.mem_cons_self) (ih r hr) (hvisible r hr)
      | call hneg hlet =>
        exact cuts_call hname (cuts_joined hne (fun a ha => (ih a ha).plain) hvisible) hneg hlet
    exact hall _ (shown_text name args)

/-! ## Reading back -/

/-- A text with a comment that swallows an operand is no statement. -/
theorem not_read?_of_dangles (h : Lexer.Dangles v.text) (w : Term) : read? v.display ≠ .ok w := by
  intro hread
  obtain ⟨ts, hts, hw⟩ := read?_eq_ok_iff.1 hread
  have hscans := h [] List.not_mem_nil
  rw [List.append_nil] at hscans
  obtain ⟨us, -, hoperand, hus⟩ := hscans.ofSource?
  rw [text, String.ofList_toList] at hus
  obtain rfl := Except.ok.inj (hts.symm.trans hus)
  have hnone := hw.operand_not_expected true
  rw [Token.foldl_significant, hoperand] at hnone
  cases hnone

/-- The text of a term is read as whatever statement its significant tokens are. -/
theorem exists_tokens_of_lexes {P : List Token → Prop} (h : Lexes v.text P) :
    ∃ ts, P ts ∧ ∀ w, read? v.display = .ok w ↔ Statement ts w := by
  obtain ⟨ts, hP, -, hts⟩ := (h [] Lexer.boundary_nil).ofSource?
  rw [text, String.ofList_toList] at hts
  refine ⟨Token.significant ts, hP, fun w => read?_eq_ok_iff.trans ⟨?_, fun hw => ⟨ts, hts, hw⟩⟩⟩
  rintro ⟨us, hus, hw⟩
  obtain rfl := Except.ok.inj (hts.symm.trans hus)
  exact hw

/-- What is equivalent to an assignment to a symbol is one to the same symbol. -/
theorem exists_of_equivalent_assignment {w : Term}
    (h : (binary "$let" (.sym name) w).equivalent v = true) :
    ∃ r, v = binary "$let" (.sym name) r ∧ w.equivalent r = true := by
  cases v with
  | app f bs =>
    obtain ⟨hf, hbs⟩ := equivalent_app_iff.1 h
    obtain rfl := equivalent_sym_left.1 hf
    obtain ⟨b, _, hb, hrest, rfl⟩ := List.forall₂_cons_left_iff.1 hbs
    obtain ⟨r, _, hr, hnil, rfl⟩ := List.forall₂_cons_left_iff.1 hrest
    obtain rfl := List.forall₂_nil_left_iff.1 hnil
    obtain rfl := equivalent_sym_left.1 hb
    exact ⟨r, rfl, hr⟩
  | _ => simp [binary, equivalent] at h

/-- A term that is no assignment to a symbol is read back if nothing in it is lossy. -/
theorem read?_display_expression_iff (hv : Readable v)
    (hroot : ∀ name r, v ≠ binary "$let" (.sym name) r) :
    (∃ w, read? v.display = .ok w ∧ w.equivalent v = true) ↔ ¬ Lossy v := by
  rcases (cuts_text hv).plain with hlexes | ⟨hdangles, hlossy⟩
  · obtain ⟨ts, hts, hread⟩ := exists_tokens_of_lexes hlexes
    constructor
    · rintro ⟨w, hw, he⟩
      cases (hread w).1 hw with
      | assignment _ _ _ =>
        obtain ⟨r, hr, -⟩ := exists_of_equivalent_assignment he
        exact absurd hr (hroot _ r)
      | expression hexpression =>
        have hassigns : ¬ Assigns v := by
          rw [← hts.sign]
          rintro ⟨t, ht, hsign⟩
          exact hexpression.free_of_sign t ht hsign
        obtain ⟨u, hu, hreads⟩ := hts.factor hassigns
        have hstatement := (hread u).2 (.expression (.product (.factor hu)))
        obtain rfl := Except.ok.inj (hw.symm.trans hstatement)
        exact not_or.2 ⟨hassigns, hreads.not_ambiguous he⟩
    · intro hnot
      obtain ⟨w, hw, hreads⟩ := hts.factor fun h => hnot (.inl h)
      refine ⟨w, (hread w).2 (.expression (.product (.factor hw))), ?_⟩
      rcases hreads with ⟨-, he⟩ | ⟨hambiguous, -⟩
      · exact he
      · exact absurd (.inr hambiguous) hnot
  · refine iff_of_false ?_ fun hnot => hnot hlossy
    rintro ⟨w, hw, -⟩
    exact not_read?_of_dangles hdangles w hw

/-- An assignment to a symbol is read back if nothing in its definition is lossy. -/
theorem read?_display_assignment_iff {r : Term} (hname : Lexer.SymbolName name.toList)
    (hr : Readable r) :
    (∃ w, read? (binary "$let" (.sym name) r).display = .ok w ∧
      w.equivalent (binary "$let" (.sym name) r) = true) ↔ ¬ Lossy r := by
  have hsymbol : Cuts name.toList (IsToken .symbol name.toList) False :=
    .inl fun rest hrest => Lexer.scans_symbol (Lexer.lexeme?_symbol hname hrest)
  have hcuts : Cuts (binary "$let" (.sym name) r).text
      (fun ts => ∃ t s us, ts = t :: s :: us ∧ t.kind = .symbol ∧ t.image = name ∧ s.Is "=" ∧
        Printed r us) (Lossy r) := by
    rw [text_assignment]
    refine (hsymbol.sign (by decide) (cuts_text hr).plain (visible_text hr)).mono ?_ ?_
    · rintro _ ⟨_, s, us, rfl, ⟨t, rfl, hk, himage⟩, hs, hus⟩
      rw [String.ofList_toList] at himage
      exact ⟨t, s, us, rfl, hk, himage, hs, hus⟩
    · exact fun h => h.resolve_left not_false
  rcases hcuts with hlexes | ⟨hdangles, hlossy⟩
  · obtain ⟨_, ⟨t, s, us, rfl, hk, rfl, hs, hus⟩, hread⟩ := exists_tokens_of_lexes hlexes
    constructor
    · rintro ⟨w, hw, he⟩
      cases (hread w).1 hw with
      | expression hexpression =>
        exact absurd hs (hexpression.free_of_sign s (List.mem_cons_of_mem t List.mem_cons_self))
      | assignment _ _ hdefinition =>
        have hassigns : ¬ Assigns r := by
          rw [← hus.sign]
          rintro ⟨u, hu, hsign⟩
          exact hdefinition.free_of_sign u hu hsign
        obtain ⟨w', hw', hreads⟩ := hus.factor hassigns
        have hstatement := (hread _).2 (.assignment hk hs (.product (.factor hw')))
        obtain ⟨r', hr', he'⟩ := exists_of_equivalent_assignment he
        cases Except.ok.inj (hw.symm.trans hstatement)
        cases hr'
        exact not_or.2 ⟨hassigns, hreads.not_ambiguous he'⟩
    · intro hnot
      obtain ⟨w, hw, hreads⟩ := hus.factor fun h => hnot (.inl h)
      refine ⟨_, (hread _).2 (.assignment hk hs (.product (.factor hw))), ?_⟩
      rcases hreads with ⟨-, he⟩ | ⟨hambiguous, -⟩
      · exact equivalent_app_iff.2 ⟨equivalent_refl _,
          .cons (equivalent_refl _) (.cons he .nil)⟩
      · exact absurd (.inr hambiguous) hnot
  · refine iff_of_false ?_ fun hnot => hnot hlossy
    rintro ⟨w, hw, -⟩
    exact not_read?_of_dangles hdangles w hw

/-! ## The conditions -/

/-- No assignment occurs in a term but the term itself, and that is one to a symbol. -/
def AssignsAtRoot (v : Term) : Prop :=
  ∀ l r, Part (binary "$let" l r) v → binary "$let" l r = v ∧ ∃ name, l = .sym name

theorem assignsAtRoot_iff_of_ne (hroot : ∀ name r, v ≠ binary "$let" (.sym name) r) :
    AssignsAtRoot v ↔ ¬ Assigns v := by
  constructor
  · rintro h ⟨l, r, hpart⟩
    obtain ⟨rfl, name, rfl⟩ := h l r hpart
    exact hroot name r rfl
  · intro h l r hpart
    exact absurd ⟨l, r, hpart⟩ h

theorem assignsAtRoot_assignment_iff {r : Term} :
    AssignsAtRoot (binary "$let" (.sym name) r) ↔ ¬ Assigns r := by
  constructor
  · rintro h ⟨l, r', hpart⟩
    have hlt := hpart.size_le
    obtain ⟨hwhole, -⟩ := h l r' (.arg (List.mem_cons_of_mem _ List.mem_cons_self) hpart)
    rw [hwhole] at hlt
    simp only [binary, size, sizeAll] at hlt
    omega
  · intro h l r' hpart
    rcases part_app.1 hpart with heq | heq | ⟨a, ha, hinner⟩
    · cases heq
      exact ⟨rfl, name, rfl⟩
    · cases heq
    · simp only [List.mem_cons, List.not_mem_nil, or_false] at ha
      rcases ha with rfl | rfl
      · cases part_sym.1 hinner
      · exact absurd ⟨l, r', hinner⟩ h

theorem ambiguous_assignment {r : Term} :
    Ambiguous (binary "$let" (.sym name) r) ↔ Ambiguous r := by
  rw [binary, ambiguous_app]
  simp [not_ambiguous_sym]

theorem ambiguous_iff : Ambiguous v ↔
    ¬ ∀ operand, Part (unary "$neg" operand) v →
      (∀ x, operand = .const x → x.isNaN = true) ∧ ∀ inner, operand ≠ unary "$neg" inner := by
  constructor
  · rintro ⟨operand, hpart, hm⟩ h
    obtain ⟨hconst, hneg⟩ := h operand hpart
    cases hm with
    | number hx => exact Bool.noConfusion (hx.symm.trans (hconst _ rfl))
    | negation inner => exact hneg inner rfl
  · intro h
    by_contra hnot
    refine h fun operand hpart => ⟨?_, ?_⟩
    · rintro x rfl
      cases hx : x.isNaN with
      | true => rfl
      | false => exact absurd ⟨_, hpart, .number hx⟩ hnot
    · rintro inner rfl
      exact hnot ⟨_, hpart, .negation inner⟩

/-- Which terms are read back: a term that some text is read as is displayed as a text that is read
as an equivalent term, if and only if every assignment in it is the term itself and one to a symbol,
and no minus sign in it stands in front of a number or of another minus sign. -/
theorem read?_display_iff {source : String} (h : read? source = .ok v) :
    (∃ w, read? v.display = .ok w ∧ w.equivalent v = true) ↔
      (∀ l r, Part (binary "$let" l r) v → binary "$let" l r = v ∧ ∃ name, l = .sym name) ∧
      ∀ operand, Part (unary "$neg" operand) v →
        (∀ x, operand = .const x → x.isNaN = true) ∧ ∀ inner, operand ≠ unary "$neg" inner := by
  have hv := readable_of_read? h
  show _ ↔ AssignsAtRoot v ∧ _
  rw [← not_not (a := ∀ operand, _), ← ambiguous_iff]
  by_cases hroot : ∃ name r, v = binary "$let" (.sym name) r
  · obtain ⟨name, r, rfl⟩ := hroot
    have hparts : Lexer.SymbolName name.toList ∧ Readable r := by
      cases hv with
      | app _ _ hargs =>
        have hsym := hargs (.sym name) List.mem_cons_self
        refine ⟨?_, hargs r (List.mem_cons_of_mem _ List.mem_cons_self)⟩
        cases hsym with
        | sym hname => exact hname
    rw [read?_display_assignment_iff hparts.1 hparts.2, assignsAtRoot_assignment_iff,
      ambiguous_assignment]
    exact not_or
  · rw [read?_display_expression_iff hv fun name r hr => hroot ⟨name, r, hr⟩,
      assignsAtRoot_iff_of_ne fun name r hr => hroot ⟨name, r, hr⟩]
    exact not_or

/-- A negated symbol in an assigned difference is read back, a negated number is not. -/
theorem read?_display_assigned_difference :
    (read? "x = -(y) - 1" =
        .ok (binary "$let" (.sym "x") (binary "$sub" (unary "$neg" (.sym "y")) (.const 1))) ∧
      ∃ w, read? (display (binary "$let" (.sym "x")
          (binary "$sub" (unary "$neg" (.sym "y")) (.const 1)))) = .ok w ∧
        w.equivalent (binary "$let" (.sym "x")
          (binary "$sub" (unary "$neg" (.sym "y")) (.const 1))) = true) ∧
    (read? "-(2)" = .ok (unary "$neg" (.const 2)) ∧
      ¬ ∃ w, read? (display (unary "$neg" (.const 2))) = .ok w ∧
        w.equivalent (unary "$neg" (.const 2)) = true) := by
  have hdifference : read? "x = -(y) - 1" =
      .ok (binary "$let" (.sym "x") (binary "$sub" (unary "$neg" (.sym "y")) (.const 1))) := by
    with_unfolding_all rfl
  have hnegation : read? "-(2)" = .ok (unary "$neg" (.const 2)) := by
    with_unfolding_all rfl
  refine ⟨⟨hdifference, (read?_display_iff hdifference).2 ⟨?_, ?_⟩⟩, hnegation, fun h => ?_⟩
  · intro l r h
    obtain ⟨rfl, rfl⟩ : l = .sym "x" ∧ r = binary "$sub" (unary "$neg" (.sym "y")) (.const 1) := by
      simpa [binary, unary, part_app, part_sym, part_const] using h
    exact ⟨rfl, "x", rfl⟩
  · intro operand h
    obtain rfl : operand = .sym "y" := by
      simpa [binary, unary, part_app, part_sym, part_const] using h
    constructor
    · rintro _ ⟨⟩
    · rintro _ ⟨⟩
  · have hnan := (((read?_display_iff hnegation).1 h).2 _ .self).1 2 rfl
    exact absurd hnan (by decide +kernel)

end TermCalc.Term
