import TermCalc.Proofs.Text.Subject
import TermCalc.Text.Template

/-!
# What stands in a field

A field of a template consists of a front, a specification and a closing brace. What it finds and
shows has no more words than there are in the front, unless it is padded with braces, and for that
the specification has a word of its own.

## Main definitions

* `Template.Front f front`: what is written of a field ahead of its specification

## Main results

* `splitField_eq`: the text of a field
* `access_found`: what a field can find
* `access_front`: what an empty snippet leads to has no more braces than the front
* `write_eq`: what is shown of a subject
-/

namespace TermCalc.Template

theorem exists_ok_of_bind {ε α β : Type} {x : Except ε α} {f : α → Except ε β} {b : β}
    (h : x >>= f = .ok b) : ∃ a, x = .ok a ∧ f a = .ok b := by
  cases x with
  | error e => exact nomatch h
  | ok a => exact ⟨a, rfl, h⟩

/-! ## The text of a field -/

/-- What is written of a field ahead of its specification. -/
structure Front (f : Field) (front : List Char) : Prop where
  selector : f.selector.Sublist front
  word : front ≠ [] → 1 ≤ words false front
  bare : front = [] → f.conversion = none ∧ f.spec = []
  colon : f.spec ≠ [] → ∃ cs, front = cs ++ [':']

theorem front_append {f : Field} {t : List Char}
    (hword : f.selector ≠ [] → 1 ≤ words false f.selector) (hplain : BraceFree (t.take 1))
    (hbare : t = [] → f.conversion = none ∧ f.spec = [])
    (hcolon : f.spec ≠ [] → ∃ cs, t = cs ++ [':']) : Front f (f.selector ++ t) where
  selector := List.sublist_append_left _ _
  word hne := by
    cases t with
    | nil =>
      rw [List.append_nil] at hne ⊢
      exact hword hne
    | cons c t =>
      have hsub : [c].Sublist (f.selector ++ c :: t) :=
        (List.singleton_sublist.2 List.mem_cons_self).trans (List.sublist_append_right _ _)
      have hc := words_le_of_sublist hsub false
      rwa [words_false_cons (braceFree_cons.1 hplain).1] at hc
  bare hnil := hbare (List.append_eq_nil_iff.1 hnil).2
  colon hne := by
    obtain ⟨cs, rfl⟩ := hcolon hne
    exact ⟨f.selector ++ cs, by rw [List.append_assoc]⟩

theorem splitSelector_eq {bracketed : Bool} {cs selector rest : List Char} {stop : Char}
    (h : splitSelector bracketed cs = .ok (selector, stop, rest)) :
    cs = selector ++ stop :: rest ∧ (stop = '\x7d' ∨ stop = ':' ∨ stop = '!') ∧
      (bracketed = false → selector ≠ [] → 1 ≤ words false selector) := by
  induction cs generalizing bracketed selector with
  | nil => simp [splitSelector] at h
  | cons c cs ih =>
    rw [splitSelector] at h
    split_ifs at h with hbracketed hopen hstop
    · obtain ⟨⟨name, stop', rest'⟩, hsplit, h⟩ := exists_ok_of_bind h
      obtain ⟨rfl, rfl, rfl⟩ : c :: name = selector ∧ stop' = stop ∧ rest' = rest := by
        simpa using h
      obtain ⟨rfl, hstops, -⟩ := ih hsplit
      exact ⟨rfl, hstops, fun hb => absurd (hbracketed.symm.trans hb) (by simp)⟩
    · obtain ⟨rfl, rfl, rfl⟩ : [] = selector ∧ c = stop ∧ cs = rest := by simpa using h
      refine ⟨rfl, ?_, fun _ hne => absurd rfl hne⟩
      simpa [or_assoc] using hstop
    · obtain ⟨⟨name, stop', rest'⟩, hsplit, h⟩ := exists_ok_of_bind h
      obtain ⟨rfl, rfl, rfl⟩ : c :: name = selector ∧ stop' = stop ∧ rest' = rest := by
        simpa using h
      obtain ⟨rfl, hstops, -⟩ := ih hsplit
      refine ⟨rfl, hstops, fun _ _ => ?_⟩
      have hc : isBrace c = false := by
        simp only [Bool.or_eq_true, not_or, Bool.not_eq_true] at hopen hstop
        rw [isBrace, hopen, hstop.1.1]
        rfl
      rw [words_false_cons hc]
      omega

theorem splitSpec_eq {depth : Nat} {cs spec rest : List Char}
    (h : splitSpec depth cs = .ok (spec, rest)) : cs = spec ++ '\x7d' :: rest := by
  fun_induction splitSpec depth cs generalizing spec with
  | case1 => simp at h
  | case2 c cs hclose =>
    obtain ⟨rfl, rfl⟩ : [] = spec ∧ cs = rest := by simpa using h
    rw [beq_iff_eq] at hclose
    rw [hclose]
    rfl
  | case3 c cs hclose depth ih =>
    obtain ⟨⟨spec', rest'⟩, hsplit, h⟩ := exists_ok_of_bind h
    obtain ⟨rfl, rfl⟩ : c :: spec' = spec ∧ rest' = rest := by simpa using h
    rw [ih hsplit]
    rfl
  | case4 depth c cs hclose ih =>
    obtain ⟨⟨spec', rest'⟩, hsplit, h⟩ := exists_ok_of_bind h
    obtain ⟨rfl, rfl⟩ : c :: spec' = spec ∧ rest' = rest := by simpa using h
    rw [ih hsplit]
    rfl

/-- A field consists of its front, its specification and the closing brace. -/
theorem splitField_eq {cs rest : List Char} {f : Field} (h : splitField cs = .ok (f, rest)) :
    ∃ front, Front f front ∧ cs = front ++ f.spec ++ '\x7d' :: rest := by
  unfold splitField at h
  obtain ⟨⟨selector, stop, rest'⟩, hselector, hfield⟩ := exists_ok_of_bind h
  obtain ⟨rfl, hstop, hword⟩ := splitSelector_eq hselector
  have hword := hword rfl
  dsimp only at hfield
  split_ifs at hfield with hclose hcolon
  · obtain ⟨rfl, rfl⟩ : (⟨selector, none, []⟩ : Field) = f ∧ rest' = rest := by simpa using hfield
    rw [beq_iff_eq.1 hclose]
    exact ⟨_, front_append (t := []) hword (by simp) (by simp) (by simp), by simp⟩
  · obtain ⟨⟨spec, rest''⟩, hspec, hfield⟩ := exists_ok_of_bind hfield
    obtain ⟨rfl, rfl⟩ : (⟨selector, none, spec⟩ : Field) = f ∧ rest'' = rest := by simpa using hfield
    rw [beq_iff_eq.1 hcolon, splitSpec_eq hspec]
    exact ⟨_, front_append (t := [':']) hword (by decide) (by simp) fun _ => ⟨[], rfl⟩,
      by simp⟩
  · simp only [beq_iff_eq] at hclose hcolon
    obtain rfl : stop = '!' := (hstop.resolve_left hclose).resolve_left hcolon
    have hmark : BraceFree ['!'] := by decide
    split at hfield
    · simp at hfield
    · simp at hfield
    · next conversion next rest' =>
      split_ifs at hfield with hclose' hcolon'
      · obtain ⟨rfl, rfl⟩ : (⟨selector, some conversion, []⟩ : Field) = f ∧ rest' = rest := by
          simpa using hfield
        rw [beq_iff_eq.1 hclose']
        exact ⟨_, front_append (t := ['!', conversion]) hword hmark (by simp) (by simp), by simp⟩
      · obtain ⟨⟨spec, rest''⟩, hspec, hfield⟩ := exists_ok_of_bind hfield
        obtain ⟨rfl, rfl⟩ : (⟨selector, some conversion, spec⟩ : Field) = f ∧ rest'' = rest := by
          simpa using hfield
        rw [beq_iff_eq.1 hcolon', splitSpec_eq hspec]
        exact ⟨_, front_append (t := ['!', conversion, ':']) hword hmark (by simp)
          fun _ => ⟨['!', conversion], rfl⟩, by simp⟩

/-! ## What a field finds -/

theorem takeWhile_append_of_drop {p : Char → Bool} {cs rest : List Char} {stop : Char}
    (h : cs.drop (cs.takeWhile p).length = stop :: rest) :
    cs = cs.takeWhile p ++ stop :: rest ∧ p stop = false := by
  induction cs with
  | nil => simp at h
  | cons c cs ih =>
    cases hc : p c with
    | true =>
      rw [List.takeWhile_cons_of_pos hc] at h ⊢
      exact ⟨by rw [List.cons_append, ← (ih h).1], (ih h).2⟩
    | false =>
      rw [List.takeWhile_cons_of_neg (by simp [hc])] at h ⊢
      obtain ⟨rfl, rfl⟩ := List.cons.inj h
      exact ⟨rfl, hc⟩

/-- What a field finds: the snippet if it does not look behind it, something clean, or a kind with
an item that stands in brackets in the field. -/
theorem access_found {s t : Subject} {accessors : List Char} (hs : s.Tame)
    (h : access s accessors = .ok t) :
    (accessors = [] ∧ t = s) ∨ t.Clean ∨
      ∃ k item, t = .applied k (Text.quoted (String.ofList item)) ∧
        ('[' :: (item ++ [']'])).Sublist accessors := by
  fun_induction access s accessors with
  | case1 s => exact .inl ⟨rfl, (Except.ok.inj h).symm⟩
  | case2 => cases h
  | case3 s rest name jump hname ih =>
    obtain ⟨next, hnext, h⟩ := exists_ok_of_bind h
    have hclean := hs.clean_named hnext
    rcases ih next (.inl hclean) h with ⟨-, rfl⟩ | ht | ⟨k, item, ht, hsub⟩
    · exact .inr (.inl hclean)
    · exact .inr (.inl ht)
    · exact .inr (.inr ⟨k, item, ht, (hsub.trans (List.drop_sublist _ _)).cons _⟩)
  | case4 => cases h
  | case5 s rest index stop rest' hrest ih =>
    obtain ⟨place, hplace, h⟩ := exists_ok_of_bind h
    dsimp only at h
    split_ifs at h
    · cases h
    · obtain ⟨hsplit, hstop⟩ := takeWhile_append_of_drop hrest
      obtain rfl : stop = ']' := by simpa using hstop
      replace hsplit : index ++ ']' :: rest' = rest := hsplit.symm
      have hafter : rest'.Sublist ('[' :: rest) := by
        rw [← hsplit]
        exact ((List.sublist_cons_self ']' rest').trans (List.sublist_append_right index _)).cons _
      have hitem : ('[' :: (index ++ [']'])).Sublist ('[' :: rest) := by
        rw [← hsplit]
        have hclose : [']'].Sublist (']' :: rest') := (List.nil_sublist rest').cons_cons _
        exact (hclose.append_left index).cons_cons _
      split at h
      · next n =>
        obtain ⟨next, hnext, h⟩ := exists_ok_of_bind h
        have hclean := hs.clean_item hnext
        rcases ih next (.inl hclean) h with ⟨-, rfl⟩ | ht | ⟨k, item, ht, hsub⟩
        · exact .inr (.inl hclean)
        · exact .inr (.inl ht)
        · exact .inr (.inr ⟨k, item, ht, hsub.trans hafter⟩)
      · obtain ⟨next, hnext, h⟩ := exists_ok_of_bind h
        obtain ⟨k, rfl⟩ := Subject.exists_applied_of_entry hnext
        rcases ih _ (.inr ⟨k, _, rfl⟩) h with ⟨-, rfl⟩ | ht | ⟨k', item, ht, hsub⟩
        · exact .inr (.inr ⟨k, index, rfl, hitem⟩)
        · exact .inr (.inl ht)
        · exact .inr (.inr ⟨k', item, ht, hsub.trans hafter⟩)
  | case6 => cases h

/-- A text spelled out has the braces of the text as it is shown. -/
theorem spelled_plain (s : Subject) :
    stretches s.spelled.toList = stretches s.plain ∧ braces s.spelled.toList = braces s.plain := by
  cases s with
  | text cs => exact ⟨stretches_quoted cs, braces_quoted cs⟩
  | _ => exact ⟨rfl, rfl⟩

/-- In every form that a field asks for a subject has the same braces. -/
theorem convert_plain {s t : Subject} {conversion : Option Char}
    (h : convert s conversion = .ok t) :
    stretches t.plain = stretches s.plain ∧ braces t.plain = braces s.plain := by
  unfold convert at h
  split at h
  · obtain rfl := Except.ok.inj h
    exact ⟨rfl, rfl⟩
  · split_ifs at h <;> obtain rfl := Except.ok.inj h
    · exact ⟨rfl, rfl⟩
    · exact ⟨rfl, rfl⟩
    · exact spelled_plain s
    · refine ⟨(stretches_asciiOnly _).trans (spelled_plain s).1, ?_⟩
      exact (braces_asciiOnly _).trans (spelled_plain s).2

/-- What is found in a field that is filled with nothing has no more braces, and no more stretches
of braces, than what is written of the field. -/
theorem access_front {f : Field} {front : List Char} {t : Subject} {n : Nat}
    (hfront : Front f front) (hne : front ≠ [])
    (h : access (.text []) (f.selector.drop n) = .ok t) :
    stretches t.plain + 1 ≤ words false front ∧ braces t.plain ≤ braces front := by
  have hclean : t.Clean → stretches t.plain + 1 ≤ words false front ∧
      braces t.plain ≤ braces front := by
    intro ht
    rw [ht.braceFree_plain.stretches_eq, braces_eq_zero_iff.2 ht.braceFree_plain]
    exact ⟨hfront.word hne, Nat.zero_le _⟩
  have htame : (Subject.text []).Tame := .inl braceFree_nil
  rcases access_found htame h with ⟨-, rfl⟩ | ht | ⟨k, item, rfl, hitem⟩
  · exact hclean braceFree_nil
  · exact hclean ht
  · have hsub := (hitem.trans (List.drop_sublist _ _)).trans hfront.selector
    have hwords := words_le_of_sublist hsub false
    have hbraces := braces_le_of_sublist hsub
    rw [words_enclosed (by decide) (by decide)] at hwords
    rw [braces_cons, braces_append] at hbraces
    rw [Subject.stretches_applied, Subject.braces_applied]
    exact ⟨hwords, by omega⟩

/-! ## Cutting and padding -/

theorem of_splitIf {p : Char → Bool} {cs : List Char} {c : Char}
    (h : (splitIf p cs).1 = some c) : p c = true := by
  cases cs with
  | nil => exact nomatch h
  | cons d cs =>
    cases hd : p d with
    | true =>
      rw [splitIf, if_pos hd] at h
      rwa [← Option.some.inj h]
    | false =>
      rw [splitIf, if_neg (by simp [hd])] at h
      exact nomatch h

/-- The fill character is split off with the alignment, or it is a zero or a blank. -/
theorem fill_of_readSpec {cs : List Char} {s : Spec} (h : readSpec cs = .ok s) :
    (splitAlignment cs).1 = some s.fill ∨ s.fill = '0' ∨ s.fill = ' ' := by
  unfold readSpec at h
  split at h
  next fill align rest₁ hfill =>
  split at h
  next sign rest₂ _ =>
  split at h
  next zero rest₃ _ =>
  split at h
  next alternate rest₄ _ =>
  split at h
  next zeros rest₅ hzeros =>
  obtain ⟨⟨width, rest₆⟩, -, h⟩ := exists_ok_of_bind h
  obtain ⟨⟨separator, rest₇⟩, -, h⟩ := exists_ok_of_bind h
  obtain ⟨⟨precision, rest₈⟩, -, h⟩ := exists_ok_of_bind h
  have hs : s.fill = fill.getD (zeros.getD ' ') := by
    dsimp only at h
    split at h
    case h_3 => exact nomatch h
    all_goals
      split at h
      all_goals obtain ⟨kind, -, h⟩ := exists_ok_of_bind h
      · split_ifs at h
        · exact nomatch h
        · rw [← Except.ok.inj h]
      · rw [← Except.ok.inj h]
  rw [hs, hfill]
  cases fill with
  | some c => exact .inl rfl
  | none =>
    cases zeros with
    | none => exact .inr (.inr rfl)
    | some c =>
      replace hzeros : splitIf (· == '0') rest₄ = (some c, rest₅) := hzeros
      have hzero := of_splitIf (congrArg Prod.fst hzeros)
      exact .inr (.inl (beq_iff_eq.1 hzero))

theorem words_of_splitAlignment {cs : List Char} {fill : Char}
    (h : (splitAlignment cs).1 = some fill) (hfill : isBrace fill = true) : 1 ≤ words true cs := by
  match cs, h with
  | c :: align :: rest, h =>
    rw [splitAlignment] at h
    split_ifs at h with halign
    · obtain rfl := Option.some.inj h
      have hbrace : isBrace align = false := by
        simp only [isAlignment, Bool.or_eq_true, beq_iff_eq] at halign
        rcases halign with ((rfl | rfl) | rfl) | rfl <;> rfl
      rw [words_cons_brace hfill, words_false_cons hbrace]
      omega
  | [align], h =>
    rw [splitAlignment] at h
    split_ifs at h
  | [], h => exact nomatch h

/-- A fill character that is a brace stands at the front of the specification, and behind it there
is an alignment. -/
theorem words_of_fill {cs : List Char} {s : Spec} (h : readSpec cs = .ok s)
    (hfill : isBrace s.fill = true) : 1 ≤ words true cs := by
  rcases fill_of_readSpec h with hs | hs | hs
  · exact words_of_splitAlignment hs hfill
  all_goals
    rw [hs] at hfill
    exact absurd hfill (by decide)

/-- A text that is shown has fill characters around what is left of it. -/
theorem applySpec_eq {cs spec shown : List Char} (h : applySpec cs spec = .ok shown) :
    ∃ fill m n cut, cut.Sublist cs ∧
      shown = List.replicate m fill ++ cut ++ List.replicate n fill ∧
      (isBrace fill = true → 1 ≤ words true spec) := by
  unfold applySpec at h
  split_ifs at h with hempty
  · obtain rfl := Except.ok.inj h
    exact ⟨' ', 0, 0, cs, List.Sublist.refl _, by simp, fun hspace => absurd hspace (by decide)⟩
  · obtain ⟨s, hread, h⟩ := exists_ok_of_bind h
    obtain ⟨_, -, h⟩ := exists_ok_of_bind h
    split_ifs at h with hwidth
    · exact nomatch h
    · refine ⟨s.fill, _, _, _, ?_, (Except.ok.inj h).symm, words_of_fill hread⟩
      split
      · exact List.take_sublist _ _
      · exact List.Sublist.refl _

/-- A subject that is shown has fill characters around what is left of it. -/
theorem write_eq {s : Subject} {spec shown : List Char} (h : s.write spec = .ok shown) :
    ∃ fill m n cut, cut.Sublist s.plain ∧
      shown = List.replicate m fill ++ cut ++ List.replicate n fill ∧
      (isBrace fill = true → 1 ≤ words true spec) := by
  unfold Subject.write at h
  split at h
  · exact applySpec_eq h
  · split_ifs at h
    obtain rfl := Except.ok.inj h
    exact ⟨' ', 0, 0, _, List.Sublist.refl _, by simp, fun hspace => absurd hspace (by decide)⟩

end TermCalc.Template
