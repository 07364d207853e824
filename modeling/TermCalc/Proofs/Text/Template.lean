import TermCalc.Proofs.Text.Field

/-!
# Templates that are filled with nothing

A text without braces is a template of itself. No other text is: filled with an empty snippet, a
field has no more words than there are between its braces, so that a template with braces loses
words or braces.

## Main definitions

* `Template.KeepsWords nested`: the way to fill nested templates makes no more words
* `Template.Shrinks out cs`: the text has fewer words than the template, or as many and fewer braces

## Main results

* `fillField_shrinks`: a field has no more words than what is written of it
* `shrinks_fillWithin`: what a template is filled to is less than the template
* `fill_of_braceFree`, `braceFree_of_fill_eq_self`: the templates that are filled to themselves
-/

namespace TermCalc.Template

/-! ## Filling with nothing -/

/-- A text has fewer words than a template, or as many and fewer braces, if there are any. -/
def Shrinks (out cs : List Char) : Prop :=
  ∀ b, words b out ≤ words b cs ∧
    (words b out = words b cs → braces out < max 1 (braces cs))

/-- What a nested template is filled to has no more words than the template. -/
def KeepsWords (nested : Numbering → List Char → Except TemplateError (List Char × Numbering)) :
    Prop :=
  ∀ numbering cs out numbering', nested numbering cs = .ok (out, numbering') →
    words true out ≤ words true cs

section

variable {nested : Numbering → List Char → Except TemplateError (List Char × Numbering)}
  {numbering numbering' : Numbering} {out : List Char}

/-- What a field does that is filled with nothing. -/
theorem exists_written_of_fillField {f : Field} (hnested : KeepsWords nested)
    (h : fillField [[]] nested numbering f = .ok (out, numbering')) :
    ∃ n found converted spec, access (.text []) (f.selector.drop n) = .ok found ∧
      convert found f.conversion = .ok converted ∧ converted.write spec = .ok out ∧
      words true spec ≤ words true f.spec ∧ (f.spec = [] → spec = []) := by
  unfold fillField at h
  obtain ⟨⟨index, numbering₁⟩, -, h⟩ := exists_ok_of_bind h
  dsimp only at h
  split at h
  · exact nomatch h
  next snippet hsnippet =>
  obtain rfl : snippet = [] := by simpa using List.mem_of_getElem? hsnippet
  obtain ⟨found, hfound, h⟩ := exists_ok_of_bind h
  obtain ⟨converted, hconverted, h⟩ := exists_ok_of_bind h
  split_ifs at h with hopen
  · obtain ⟨⟨spec, numbering₂⟩, hspec, h⟩ := exists_ok_of_bind h
    obtain ⟨shown, hshown, h⟩ := exists_ok_of_bind h
    obtain ⟨rfl, rfl⟩ : shown = out ∧ numbering₂ = numbering' := by simpa using h
    refine ⟨_, found, converted, spec, hfound, hconverted, hshown, hnested _ _ _ _ hspec, ?_⟩
    intro hnil
    rw [hnil] at hopen
    exact absurd hopen (by simp)
  · obtain ⟨⟨spec, numbering₂⟩, hspec, h⟩ := exists_ok_of_bind h
    obtain ⟨shown, hshown, h⟩ := exists_ok_of_bind h
    obtain ⟨rfl, rfl⟩ : shown = out ∧ numbering₂ = numbering' := by simpa using h
    obtain ⟨rfl, -⟩ : f.spec = spec ∧ numbering₁ = numbering₂ := by simpa using hspec
    exact ⟨_, found, converted, f.spec, hfound, hconverted, hshown, Nat.le_refl _, id⟩

/-- A field has no more words than what is written of it, and no more braces if it has as many. -/
theorem fillField_shrinks {f : Field} {front : List Char} (hfront : Front f front)
    (hnested : KeepsWords nested)
    (h : fillField [[]] nested numbering f = .ok (out, numbering')) :
    words false out ≤ words false (front ++ f.spec) ∧
      (words false out = words false (front ++ f.spec) →
        braces out ≤ braces (front ++ f.spec)) := by
  obtain ⟨n, found, converted, spec, hfound, hconverted, hwrite, hspec, hnil⟩ :=
    exists_written_of_fillField hnested h
  by_cases hne : front = []
  · obtain ⟨hconversion, hempty⟩ := hfront.bare hne
    obtain rfl := hnil hempty
    have hselector : f.selector = [] := List.sublist_nil.1 (hne ▸ hfront.selector)
    rw [hselector, List.drop_nil, access] at hfound
    obtain rfl := Except.ok.inj hfound
    rw [hconversion] at hconverted
    obtain rfl := Except.ok.inj hconverted
    obtain rfl : [] = out := Except.ok.inj hwrite
    exact ⟨Nat.zero_le _, fun _ => Nat.zero_le _⟩
  · obtain ⟨hstretches, hbraces⟩ := access_front hfront hne hfound
    obtain ⟨hplain, hplain'⟩ := convert_plain hconverted
    rw [← hplain] at hstretches
    rw [← hplain'] at hbraces
    obtain ⟨fill, m, n, cut, hcut, rfl, hfill⟩ := write_eq hwrite
    have hpadded := words_padded_le fill m n cut
    have hcut' := stretches_le_of_sublist hcut
    have hle := words_le_of_sublist (List.sublist_append_left front f.spec) false
    refine ⟨by omega, fun heq => ?_⟩
    cases hbrace : isBrace fill with
    | true =>
      have hword := hfill hbrace
      have hne' : f.spec ≠ [] := by
        intro hempty
        rw [hnil hempty, words_nil] at hword
        omega
      obtain ⟨cs, rfl⟩ := hfront.colon hne'
      have hcolon := words_append_plain (c := ':') (by decide) false cs f.spec
      rw [List.append_cons] at hcolon
      omega
    | false =>
      have hfree := braceFree_replicate hbrace
      rw [braces_append, braces_append, braces_eq_zero_iff.2 (hfree m),
        braces_eq_zero_iff.2 (hfree n), braces_append]
      have hcut' := braces_le_of_sublist hcut
      omega

/-! ## Filling a template -/

theorem shrinks_nil (cs : List Char) : Shrinks [] cs :=
  fun _ => ⟨Nat.zero_le _, fun _ => Nat.lt_of_lt_of_le Nat.zero_lt_one (Nat.le_max_left _ _)⟩

theorem Shrinks.literal {cs : List Char} {c : Char} (h : Shrinks out cs)
    (hc : isBrace c = false) : Shrinks (c :: out) (c :: cs) := by
  intro b
  obtain ⟨hle, hlt⟩ := h true
  rw [braces_cons, braces_cons, hc]
  cases b with
  | true =>
    rw [words_true_cons hc, words_true_cons hc]
    exact ⟨hle, hlt⟩
  | false =>
    rw [words_false_cons hc, words_false_cons hc]
    exact ⟨Nat.succ_le_succ hle, fun heq => hlt (Nat.succ.inj heq)⟩

theorem Shrinks.escaped {cs : List Char} {c : Char} (h : Shrinks out cs)
    (hc : isBrace c = true) : Shrinks (c :: out) (c :: c :: cs) := by
  intro b
  obtain ⟨hle, hlt⟩ := h false
  rw [words_cons_brace hc, words_cons_brace hc, words_cons_brace hc, braces_cons, braces_cons,
    braces_cons, if_pos hc]
  refine ⟨hle, fun heq => ?_⟩
  have := hlt heq
  omega

theorem Shrinks.field {shown cs xs : List Char} (h : Shrinks out cs)
    (hle : words false shown ≤ words false xs)
    (hbraces : words false shown = words false xs → braces shown ≤ braces xs) :
    Shrinks (shown ++ out) ('\x7b' :: (xs ++ '\x7d' :: cs)) := by
  intro b
  obtain ⟨hle', hlt⟩ := h false
  have hshown := words_append_le b shown out
  have hinside := words_le_false b shown
  rw [words_cons_brace (by decide), words_append_brace (by decide)]
  refine ⟨by omega, fun heq => ?_⟩
  have hshown' := hbraces (by omega)
  have hout := hlt (by omega)
  rw [braces_append, braces_cons, braces_append, braces_cons, if_pos (by decide),
    if_pos (by decide)]
  omega

theorem exists_of_fillPieces_literal {snippets : List (List Char)} {c : Char} {ps : List Piece}
    (h : fillPieces snippets nested numbering (.literal c :: ps) = .ok (out, numbering')) :
    ∃ text, fillPieces snippets nested numbering ps = .ok (text, numbering') ∧ out = c :: text := by
  rw [fillPieces] at h
  obtain ⟨⟨text, numbering₁⟩, hfill, h⟩ := exists_ok_of_bind h
  obtain ⟨rfl, rfl⟩ : c :: text = out ∧ numbering₁ = numbering' := by simpa using h
  exact ⟨text, hfill, rfl⟩

theorem exists_of_fillPieces_field {snippets : List (List Char)} {f : Field} {ps : List Piece}
    (h : fillPieces snippets nested numbering (.field f :: ps) = .ok (out, numbering')) :
    ∃ shown text numbering₁, fillField snippets nested numbering f = .ok (shown, numbering₁) ∧
      fillPieces snippets nested numbering₁ ps = .ok (text, numbering') ∧ out = shown ++ text := by
  rw [fillPieces] at h
  obtain ⟨⟨shown, numbering₁⟩, hfield, h⟩ := exists_ok_of_bind h
  obtain ⟨⟨text, numbering₂⟩, hfill, h⟩ := exists_ok_of_bind h
  obtain ⟨rfl, rfl⟩ : shown ++ text = out ∧ numbering₂ = numbering' := by simpa using h
  exact ⟨shown, text, numbering₁, hfield, hfill, rfl⟩

theorem fillPieces_shrinks (hnested : KeepsWords nested) {fuel : Nat} {cs : List Char}
    (h : fillPieces [[]] nested numbering (piecesWithin fuel cs) = .ok (out, numbering')) :
    Shrinks out cs := by
  fun_induction piecesWithin fuel cs generalizing numbering out
  case case1 | case2 =>
    obtain ⟨rfl, -⟩ : [] = out ∧ numbering = numbering' := by simpa [fillPieces] using h
    exact shrinks_nil _
  case case3 | case7 | case9 => exact nomatch h
  case case4 hopen next rest hnext ih | case8 hopen next rest hnext ih =>
    obtain ⟨text, hfill, rfl⟩ := exists_of_fillPieces_literal h
    rw [beq_iff_eq] at hopen hnext
    rw [hopen, hnext]
    exact (ih hfill).escaped rfl
  case case5 hopen next cs _ f rest hsplit ih =>
    rw [hsplit] at h
    obtain ⟨shown, text, numbering₁, hfield, hfill, rfl⟩ := exists_of_fillPieces_field h
    obtain ⟨front, hfront, hsplit⟩ := splitField_eq hsplit
    obtain ⟨hwords, hbraces⟩ := fillField_shrinks hfront hnested hfield
    rw [hsplit, beq_iff_eq.1 hopen]
    exact (ih hfill).field hwords hbraces
  case case6 hsplit =>
    rw [hsplit] at h
    exact nomatch h
  case case10 c cs hopen hclose ih =>
    obtain ⟨text, hfill, rfl⟩ := exists_of_fillPieces_literal h
    refine (ih hfill).literal ?_
    rw [isBrace, Bool.or_eq_false_iff]
    exact ⟨by simpa using hopen, by simpa using hclose⟩

end

/-- What a template is filled to without snippets of text is less than the template. -/
theorem shrinks_fillWithin {depth : Nat} {numbering numbering' : Numbering} {cs out : List Char}
    (h : fillWithin [[]] depth numbering cs = .ok (out, numbering')) : Shrinks out cs := by
  induction depth generalizing numbering numbering' cs out with
  | zero => exact nomatch h
  | succ depth ih => exact fillPieces_shrinks (fun _ _ _ _ hnested => (ih hnested true).1) h

/-! ## Templates that are filled to themselves -/

theorem piecesWithin_of_braceFree {fuel : Nat} {cs : List Char} (hfuel : cs.length ≤ fuel)
    (hcs : BraceFree cs) : piecesWithin fuel cs = cs.map .literal := by
  induction fuel generalizing cs with
  | zero =>
    obtain rfl := List.eq_nil_of_length_eq_zero (Nat.le_zero.1 hfuel)
    rfl
  | succ fuel ih =>
    cases cs with
    | nil => rfl
    | cons c cs =>
      obtain ⟨hc, hcs⟩ := braceFree_cons.1 hcs
      obtain ⟨hopen, hclose⟩ := Bool.or_eq_false_iff.1 hc
      simp only [piecesWithin, hopen, hclose, Bool.false_eq_true, if_false, List.map_cons,
        ih (Nat.le_of_succ_le_succ hfuel) hcs]

theorem fillPieces_literals {snippets : List (List Char)}
    {nested : Numbering → List Char → Except TemplateError (List Char × Numbering)}
    {numbering : Numbering} (cs : List Char) :
    fillPieces snippets nested numbering (cs.map .literal) = .ok (cs, numbering) := by
  induction cs with
  | nil => rfl
  | cons c cs ih =>
    rw [List.map_cons, fillPieces, ih]
    rfl

/-- A text without braces is filled to itself, whatever the snippets are. -/
theorem fill_of_braceFree {template : String} (h : BraceFree template.toList)
    (snippets : List String) : fill template snippets = .ok template := by
  rw [fill, fillWithin, pieces, piecesWithin_of_braceFree (Nat.le_refl _) h, fillPieces_literals]
  show Except.ok _ = _
  rw [String.ofList_toList]

/-- A template that is filled with nothing and stays as it is has no braces. -/
theorem braceFree_of_fill_eq_self {template : String} (h : fill template [""] = .ok template) :
    BraceFree template.toList := by
  rw [fill] at h
  obtain ⟨⟨out, numbering⟩, hfill, h⟩ := exists_ok_of_bind h
  obtain rfl : String.ofList out = template := Except.ok.inj h
  rw [String.toList_ofList] at hfill ⊢
  have hbraces := (shrinks_fillWithin hfill false).2 rfl
  rw [← braces_eq_zero_iff]
  omega

end TermCalc.Template
