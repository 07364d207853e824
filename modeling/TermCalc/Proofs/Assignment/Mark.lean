import TermCalc.Proofs.Assignment.Target
import TermCalc.Proofs.Assignment.Warning
import TermCalc.Proofs.Diagnostic.Underline
import TermCalc.Proofs.Token.Ahead

/-!
# What a warning marks

The warning that an assignment binds nothing underlines the name in the line. It looks the name up
in the characters of the line and marks its first occurrence, which need not be the token that the
target was read from. The token is missed exactly if the name begins somewhere ahead of it. On a
single line nothing but blanks, brackets and the call of `$let` can stand ahead of the target, and
of the two constants only `e` occurs in those: a call `$let(e, d)` has the `e` of `$let` underlined.

## Main definitions

* `Diagnostic.Marks d t`: the span of the diagnostic is that of the token

## Main results

* `marks_bindsNothing_iff`: whether a warning is about the token that it names
* `constant_warning_marks_target_iff`: whether it marks the target of its statement
-/

namespace TermCalc

/-! ## The span of a warning -/

/-- The span of the diagnostic is that of the token. -/
def Diagnostic.Marks (d : Diagnostic) (t : Token) : Prop :=
  d.start = t.position ∧ d.stop = t.position + t.image.length

/-- A warning whose span lies within the excerpt underlines it. -/
theorem Reporter.warningReport_of_fits (r : Reporter) {d : Diagnostic} (hfits : d.Fits)
    (hd : d.isPositioned = true) :
    ∃ head, r.warningReport d = head ++ (d.underlined r.ink .magenta ++ "\n") := by
  have hexcerpt : r.excerptLines .magenta d = d.underlined r.ink .magenta ++ "\n" := by
    simp only [excerptLines, Diagnostic.underlineError?_of_fits hfits, Option.isSome_none,
      Bool.false_eq_true, if_false]
  rw [warningReport]
  simp only [hd, if_true, hexcerpt]
  exact ⟨_, rfl⟩

namespace Session

open Grammar (NamesTarget Statement)

variable {s : Session} {q : Queued} {x line : String} {v : Term}

/-- The tokens of a line that holds a statement are derived as one. -/
theorem exists_tokens_of_statement? (h : statement? line = .ok (some v)) :
    ∃ tokens, Token.ofSource? line = .ok tokens ∧ Statement (Token.significant tokens) v := by
  apply Term.read?_eq_ok_iff.1
  rw [Term.read?]
  rw [statement?] at h
  cases hread : Token.read? line with
  | error e =>
    rw [hread] at h
    cases h
  | ok tokens =>
    rw [hread] at h
    simp only [bind, Except.bind] at h ⊢
    split_ifs at h
    · cases h
    · cases hparse : Term.parse? tokens with
      | error e =>
        rw [hparse] at h
        cases h
      | ok w =>
        rw [hparse] at h
        exact congrArg Except.ok (Option.some.inj (Except.ok.inj h))

theorem exists_firstIndex?_of_eq_append {us vs : List Char}
    (h : line.toList = us ++ (x.toList ++ vs)) :
    ∃ k, k ≤ us.length ∧ Text.firstIndex? x.toList line.toList = some k := by
  apply Text.exists_firstIndex?
  · rw [h, List.length_append]
    exact Nat.le_add_right _ _
  · rw [h, List.drop_left]
    exact List.prefix_append _ _

/-- The warning is about the first occurrence of the name. -/
theorem span_bindsNothing (ink : Ink) {k : Nat}
    (h : Text.firstIndex? x.toList line.toList = some k) :
    (bindsNothing ink line x).start = k ∧ (bindsNothing ink line x).stop = k + x.length := by
  have hstop : Diagnostic.resolveStop line ((k : Int) + x.length) = k + x.length :=
    if_neg (by omega)
  simp only [bindsNothing, h, Diagnostic.ofParts, Option.map_some, Option.getD_some]
  exact ⟨rfl, hstop⟩

/-- The span of the warning lies within the line and spells the name. -/
theorem slice_bindsNothing (ink : Ink) {k : Nat}
    (h : Text.firstIndex? x.toList line.toList = some k) :
    (bindsNothing ink line x).Fits ∧
      Text.slice line (bindsNothing ink line x).start (bindsNothing ink line x).stop = x := by
  obtain ⟨hstart, hstop⟩ := span_bindsNothing ink h
  obtain ⟨hle, ⟨rest, hrest⟩, -⟩ := Text.firstIndex?_eq_some_iff.1 h
  have hline : line.toList = line.toList.take k ++ (x.toList ++ rest) := by
    rw [hrest, List.take_append_drop]
  have htake : (line.toList.take k).length = k := List.length_take_of_le hle
  have hlength : k + x.length ≤ line.length := by
    have hlengths := congrArg List.length hline
    simp only [List.length_append, htake, String.length_toList] at hlengths
    omega
  refine ⟨⟨by rw [hstart]; omega, ?_, ?_⟩, ?_⟩
  · rw [hstart]
    show (k : Int) ≤ line.length
    omega
  · rw [hstop]
    show (k : Int) + x.length ≤ line.length + 1
    omega
  · have hslice := Text.slice_of_eq_append hline
    rwa [htake, String.ofList_toList, String.length_toList, Nat.cast_add, ← hstop, ← hstart]
      at hslice

/-- The warning about a name that a token stands for is about that token, unless the name begins
ahead of it. -/
theorem marks_bindsNothing_iff (ink : Ink) {t : Token} {us vs : List Char}
    (hline : line.toList = us ++ (t.image.toList ++ vs)) (hposition : t.position = us.length) :
    (bindsNothing ink line t.image).Marks t ↔
      ∀ j < us.length, ¬ t.image.toList <+: line.toList.drop j := by
  obtain ⟨k, hk, hfirst⟩ := exists_firstIndex?_of_eq_append hline
  obtain ⟨hstart, hstop⟩ := span_bindsNothing ink hfirst
  obtain ⟨-, hoccurs, hearlier⟩ := Text.firstIndex?_eq_some_iff.1 hfirst
  rw [Diagnostic.Marks, hstart, hstop, hposition]
  constructor
  · rintro ⟨hk, -⟩ j hj
    exact hearlier j (by omega)
  · intro hnone
    have hnot : ¬ k < us.length := fun hlt => hnone k hlt hoccurs
    omega

/-- The warning about a constant is shown with its span underlined. -/
theorem exists_warning_eq {k : Nat} (ht : s.table.OfSession) (htarget : target? q.term = some x)
    (hx : x = "pi" ∨ x = "e") (h : Text.firstIndex? x.toList q.line.toList = some k) :
    ∃ head, (s.activate q.line q.number).warning q = head ++
      ((bindsNothing s.reporter.ink q.line x).underlined s.reporter.ink .magenta ++ "\n") := by
  have hne : q.line ≠ "" := by
    rintro hempty
    rw [hempty] at h
    rcases hx with rfl | rfl <;> simp [Text.firstIndex?] at h
  have hpositioned : (bindsNothing s.reporter.ink q.line x).isPositioned = true := by
    simp [Diagnostic.isPositioned, bindsNothing, Diagnostic.ofParts, hne]
  rw [warning_activate ht htarget, if_pos hx]
  exact Reporter.warningReport_of_fits _ (slice_bindsNothing s.reporter.ink h).1 hpositioned

/-! ## What stands ahead of a target -/

/-- Ahead of a target only the call of `$let` has a letter. -/
theorem mem_of_mem_leads {before after : List Token} {r : Token} {c : Char}
    (h : Grammar.Leads before after) (hr : r ∈ before) (hc : c ∈ r.image.toList) :
    c ∈ ['(', '$', 'l', 'e', 't'] := by
  have hopener : ∀ o : Token, o.Is "(" → c ∈ o.image.toList → c = '(' := by
    intro o ho hc
    rw [ho.2] at hc
    exact List.mem_singleton.1 hc
  cases h with
  | sign => exact absurd hr List.not_mem_nil
  | call hcall =>
    cases hcall with
    | @call os ns h o hos _ hlet ho hns =>
      simp only [List.mem_append, List.mem_cons] at hr
      rcases hr with hr | rfl | rfl | hr
      · simp [hopener r (hos r hr) hc]
      · rw [hlet] at hc
        exact List.mem_cons_of_mem _ hc
      · simp [hopener r ho hc]
      · simp [hopener r (hns r hr) hc]

/-- What begins a call of `$let` has an `e` in it. -/
theorem exists_e_of_beginsCall {before : List Token} (h : Grammar.BeginsCall before) :
    ∃ r ∈ before, 'e' ∈ r.image.toList := by
  cases h with
  | @call os ns h o _ _ hlet _ _ =>
    refine ⟨h, by simp, ?_⟩
    rw [hlet]
    decide

/-- What stands at an offset within the first part of a text begins in that part. -/
theorem mem_of_prefix_drop {c : Char} {tail us rest : List Char} {j : Nat} (hj : j < us.length)
    (h : c :: tail <+: (us ++ rest).drop j) : c ∈ us := by
  rw [List.drop_append_of_le_length hj.le, List.drop_eq_getElem_cons hj, List.cons_append,
    List.cons_prefix_cons] at h
  exact h.1 ▸ List.getElem_mem hj

/-- On a single line a constant begins ahead of the target only if it is the `e` of `$let`. -/
theorem exists_earlier_iff {before after : List Token} {us : List Char} (rest : List Char)
    (hx : x = "pi" ∨ x = "e") (hleads : Grammar.Leads before after)
    (hmem : ∀ r ∈ before, ∀ c ∈ r.image.toList, c ∈ us)
    (hahead : ∀ c ∈ us, Text.isBlank c = true ∨ ∃ r ∈ before, c ∈ r.image.toList) :
    (∃ j < us.length, x.toList <+: (us ++ rest).drop j) ↔ x = "e" ∧ before ≠ [] := by
  constructor
  · rintro ⟨j, hj, hprefix⟩
    have hfirst : ∃ c tail, x.toList = c :: tail ∧ Text.isBlank c = false ∧
        (c ∈ ['(', '$', 'l', 'e', 't'] → x = "e") := by
      rcases hx with rfl | rfl
      · exact ⟨'p', ['i'], by decide, by decide, by decide⟩
      · exact ⟨'e', [], by decide, by decide, fun _ => rfl⟩
    obtain ⟨c, tail, htoList, hblank, hletter⟩ := hfirst
    have hc : c ∈ us := mem_of_prefix_drop hj (htoList ▸ hprefix)
    rcases hahead c hc with hc | ⟨r, hr, hc⟩
    · exact Bool.noConfusion (hblank.symm.trans hc)
    · exact ⟨hletter (mem_of_mem_leads hleads hr hc), List.ne_nil_of_mem hr⟩
  · rintro ⟨rfl, hne⟩
    cases hleads with
    | sign => exact absurd rfl hne
    | call hcall =>
      obtain ⟨r, hr, hc⟩ := exists_e_of_beginsCall hcall
      obtain ⟨j, hj, he⟩ := List.mem_iff_getElem.1 (hmem r hr 'e' hc)
      refine ⟨j, hj, ?_⟩
      rw [List.drop_append_of_le_length hj.le, List.drop_eq_getElem_cons hj, he]
      exact ⟨_, rfl⟩

/-! ## Warnings and targets -/

/-- **A warning marks the target unless its name begins earlier.** The next statement of a reachable
session assigns to a constant. Its target is read from one token of its line and from no other. The
warning is about a part of the line that spells the name, and it is shown with that part underlined.
This part is the token of the target if and only if the name begins nowhere ahead of it. On a single
line that is so unless the statement is a call that assigns to `e`. -/
theorem constant_warning_marks_target_iff {rest : List Queued} (hs : s.Reachable)
    (hqueue : s.queue = q :: rest) (htarget : target? q.term = some x)
    (hprotects : s.table.protects x = true) :
    ∃ tokens before t after, Token.read? q.line = .ok tokens ∧
      Token.significant tokens = before ++ t :: after ∧ NamesTarget before t after ∧
      (∀ before' t' after', Token.significant tokens = before' ++ t' :: after' →
        NamesTarget before' t' after' → before' = before ∧ t' = t ∧ after' = after) ∧
      t.image = x ∧
      let d := bindsNothing s.reporter.ink q.line x
      d.excerpt = q.line ∧ Text.slice q.line d.start d.stop = x ∧
        (∃ head, (s.activate q.line q.number).warning q =
          head ++ (d.underlined s.reporter.ink .magenta ++ "\n")) ∧
        (d.Marks t ↔ ∀ j : Nat, j < t.position → ¬ x.toList <+: q.line.toList.drop j) ∧
        ('\n' ∉ q.line.toList → (d.Marks t ↔ ¬ (x = "e" ∧ before ≠ []))) := by
  have hstatement := hs.statement_of_mem_queue q (hqueue ▸ List.mem_cons_self)
  have hx := hs.ofSession.protects_iff.1 hprotects
  obtain ⟨tokens, htokens, hgrammar⟩ := exists_tokens_of_statement? hstatement
  obtain ⟨before, t, after, hsplit, hleads, rfl, hnames⟩ := hgrammar.exists_namesTarget htarget
  obtain ⟨us, vs, hline, hposition, hmem, hahead⟩ := Token.exists_ahead htokens hsplit
  obtain ⟨k, hk, hfirst⟩ := exists_firstIndex?_of_eq_append hline
  have hmarks := marks_bindsNothing_iff s.reporter.ink hline hposition
  refine ⟨tokens, before, t, after, Token.read?_eq_ok_iff.2 htokens, hsplit, hnames, ?_, rfl,
    rfl, (slice_bindsNothing s.reporter.ink hfirst).2,
    exists_warning_eq hs.ofSession htarget hx hfirst, ?_, fun hbreak => ?_⟩
  · intro before' t' after' hsplit' hnames'
    exact hnames'.unique hnames (hsplit'.symm.trans hsplit)
  · rw [hmarks, hposition]
    simp only [Nat.cast_lt]
  · have hearlier := exists_earlier_iff (t.image.toList ++ vs) hx hleads hmem (hahead hbreak)
    rw [hmarks, ← hearlier, hline]
    simp

/-- In `$let(e, a)` the warning underlines the `e` of `$let`, and not the argument. -/
theorem warning_underlines_call :
    let s := ((typed 0 []).add "$let(e, a)" 0).1
    let q : Queued := ⟨0, "$let(e, a)", .binary "$let" (.sym "e") (.sym "a")⟩
    let e : Token := ⟨.symbol, "e", 5⟩
    s.Reachable ∧ s.queue = [q] ∧ target? q.term = some "e" ∧ s.table.protects "e" = true ∧
      (∃ tokens before after, Token.read? q.line = .ok tokens ∧
        Token.significant tokens = before ++ e :: after ∧ NamesTarget before e after) ∧
      (bindsNothing s.reporter.ink q.line "e").start = 2 ∧
      ¬ (bindsNothing s.reporter.ink q.line "e").Marks e := by
  intro s q e
  have hs : s.Reachable := (reachable_typed 0 []).add "$let(e, a)" 0
  have hqueue : s.queue = [q] := by with_unfolding_all rfl
  have hprotects : s.table.protects "e" = true := hs.ofSession.protects_iff.2 (.inr rfl)
  have hread : Token.read? q.line = .ok [⟨.symbol, "$let", 0⟩, ⟨.operator, "(", 4⟩, e,
      ⟨.operator, ",", 6⟩, ⟨.whitespace, " ", 7⟩, ⟨.symbol, "a", 8⟩, ⟨.operator, ")", 9⟩] := by
    decide +kernel
  obtain ⟨tokens, before, t, after, htokens, hsplit, hnames, -, himage, -, -, -, -, hmarks⟩ :=
    constant_warning_marks_target_iff hs hqueue rfl hprotects
  have hmem : t ∈ Token.significant tokens := hsplit ▸ List.mem_append_right _ List.mem_cons_self
  obtain rfl := Except.ok.inj (hread.symm.trans htokens)
  obtain rfl : t = e := by
    have hall := (List.mem_filter.1 hmem).1
    simp only [List.mem_cons, List.not_mem_nil, or_false] at hall
    rcases hall with rfl | rfl | ht | rfl | rfl | rfl | rfl
    · simp at himage
    · simp at himage
    · exact ht
    all_goals simp at himage
  have hbefore : before ≠ [] := by
    rintro rfl
    have hfirst := congrArg List.head? hsplit
    simp [Token.significant, Token.isSignificant, e] at hfirst
  refine ⟨hs, hqueue, rfl, hprotects, ⟨_, before, after, hread, hsplit, hnames⟩, ?_, ?_⟩
  · decide
  · rw [hmarks (by decide)]
    simp [hbefore]

end Session

end TermCalc
