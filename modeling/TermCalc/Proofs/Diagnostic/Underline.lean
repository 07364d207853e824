import TermCalc.Proofs.Diagnostic.Excerpt
import TermCalc.Proofs.Term.Readable
import TermCalc.Proofs.Text.Span
import TermCalc.Proofs.Token.Stopping

/-!
# What the report of an unreadable line marks

Where no token begins, or at which token a statement breaks off, is found out from offsets and
indices. The report shows it as a column and as a caret below the line. Since the tokens make up the
line, the characters above the caret and its tildes are those of the token at fault. At the end of
the tokens the caret stands behind the last visible character, be it that of a comment.

## Main definitions

* `ReadError.Marks source e start stop`: the part of `source` between the offsets is at fault
* `Reporter.Shows r path line number`: that line of that file is the only active one

## Main results

* `Token.Tiles.slice_of_mem`: a token's image is the part of the text where it stands
* `Token.marks_of_read?`, `Term.marks_of_parse?`: where a text is at fault
* `Reporter.errorReport_of_shows`: the report of an error in the only active line
* `Reporter.unreadable_line_marked`: what is marked in a line that cannot be read
-/

namespace TermCalc

/-! ## Where a text is at fault -/

/-- A text that cannot be read is at fault from the offset `start` on, up to `stop`: at the first
character that no kind of token begins with, at a token that the grammar refuses, or behind the last
visible character. -/
inductive ReadError.Marks (source : String) : ReadError → Int → Int → Prop
  | noToken {position : Nat} (hwidth : Token.width (Token.consumed source) = position)
    (hnone : ∀ operand, Lexer.lexeme? operand (source.toList.drop position) = none) :
    Marks source (.noToken source position) position (position + 1)
  | token {tokens : List Token} {problem : Problem} {index : Nat} {t : Token}
    (hread : Token.read? source = .ok tokens)
    (ht : (Token.significant tokens)[index]? = some t)
    (himage : Text.slice source t.position (t.position + t.image.length) = t.image) :
    Marks source (.noStatement tokens (.refused problem index)) t.position
      (t.position + t.image.length)
  | atEnd {tokens : List Token} {problem : Problem} (hread : Token.read? source = .ok tokens) :
    Marks source (.noStatement tokens (.refused problem (Token.significant tokens).length))
      (Text.trimEnd source).length ((Text.trimEnd source).length + 1)

namespace Token

variable {source : String} {tokens : List Token} {t : Token}

/-- What is in front of a token, its image and what is behind it make up the text. -/
theorem Tiles.exists_of_mem {position : Nat} {cs : List Char} (h : Tiles position tokens cs)
    (ht : t ∈ tokens) : ∃ before after, cs = before ++ (t.image.toList ++ after) ∧
      t.position = ((position + before.length : Nat) : Int) := by
  induction h with
  | nil => cases ht
  | @cons position kind image cs ts _ _ ih =>
    rcases List.mem_cons.1 ht with rfl | ht
    · exact ⟨[], cs, by rw [String.toList_ofList, List.nil_append], rfl⟩
    · obtain ⟨before, after, rfl, hposition⟩ := ih ht
      refine ⟨image ++ before, after, by rw [List.append_assoc], ?_⟩
      rw [hposition, List.length_append, Nat.add_assoc]

/-- The image of a token is the part of the text where the token stands. -/
theorem Tiles.slice_of_mem (h : Tiles 0 tokens source.toList) (ht : t ∈ tokens) :
    Text.slice source t.position (t.position + t.image.length) = t.image := by
  obtain ⟨before, after, hsource, hposition⟩ := h.exists_of_mem ht
  have hslice := Text.slice_of_eq_append hsource
  rw [String.ofList_toList, String.length_toList, Nat.cast_add] at hslice
  rwa [hposition, Nat.zero_add]

/-- Where no token is found the text is at fault, and there is something left of it. -/
theorem marks_of_read? {e : ReadError} (h : read? source = .error e) :
    ∃ position, e = .noToken source position ∧ position < source.length ∧
      e.Marks source position (position + 1) := by
  obtain ⟨us, c, rest, hsource, htiles, rfl, -⟩ := exists_left_of_read? h
  have hlength := congrArg List.length hsource
  rw [String.length_toList, List.length_append, List.length_cons] at hlength
  refine ⟨us.length, rfl, by omega, .noToken htiles.length_eq.symm fun operand => ?_⟩
  have hnone := Lexer.ne_nil_iff_begins (List.append_nil (consumed source)).symm
  rw [← htiles.length_eq, ← @Lexer.lexeme?_isSome_iff operand, Option.isSome_iff_ne_none] at hnone
  by_contra hsome
  exact hnone.2 hsome rfl

end Token

/-- Tokens of a text that are no statement are at fault at one of them or behind the last visible
character, and this place is the span that is shown. -/
theorem Term.marks_of_parse? {source : String} {tokens : List Token} {e : ReadError}
    (hread : Token.read? source = .ok tokens) (h : Term.parse? tokens = .error e) :
    ∃ problem index, e = .noStatement tokens (.refused problem index) ∧
      e.Marks source (Diagnostic.tokenSpan tokens index).1 (Diagnostic.tokenSpan tokens index).2 ∧
      (Diagnostic.tokenSpan tokens index).1 < (Diagnostic.tokenSpan tokens index).2 := by
  have htokens := Token.read?_eq_ok_iff.1 hread
  have htiles := Token.tiles_of_ofSource? htokens
  obtain ⟨problem, index, rfl, hindex⟩ := Term.refused_of_parse? htokens h
  refine ⟨problem, index, rfl, ?_⟩
  rw [Diagnostic.tokenSpan]
  cases ht : (Token.significant tokens)[index]? with
  | some t =>
    have hmem : t ∈ tokens := List.mem_of_mem_filter (List.mem_of_getElem? ht)
    obtain ⟨-, hpos, -⟩ := htiles.span_of_mem hmem
    exact ⟨.token hread ht (htiles.slice_of_mem hmem), by dsimp only; omega⟩
  | none =>
    obtain rfl : index = (Token.significant tokens).length :=
      Nat.le_antisymm hindex (List.getElem?_eq_none_iff.1 ht)
    have hsource : Token.sourceOf tokens = source := by
      rw [htiles.sourceOf_eq, String.ofList_toList]
    rw [hsource]
    exact ⟨.atEnd hread, by dsimp only; omega⟩

/-- The failure to read a text is a diagnostic on the part of it that is at fault, the same in every
ink. -/
theorem Failure.exists_ofParts_of_read? {source : String} {e : ReadError}
    (h : Term.read? source = .error e) :
    ∃ parts start stop cause, e.Marks source start stop ∧
      0 ≤ start ∧ start ≤ source.length ∧ start < stop ∧ stop ≤ source.length + 1 ∧
      ∀ ink, Failure.ofReadError ink e =
        .diagnostic (.ofParts ink parts source start stop cause) := by
  rw [Term.read?] at h
  cases hread : Token.read? source with
  | error e' =>
    rw [hread] at h
    obtain rfl : e' = e := Except.error.inj h
    obtain ⟨position, rfl, hlt, hmarks⟩ := Token.marks_of_read? hread
    exact ⟨_, position, position + 1, _, hmarks, by omega, by omega, by omega, by omega,
      fun ink => rfl⟩
  | ok tokens =>
    rw [hread] at h
    obtain ⟨problem, index, rfl, hmarks, hlt⟩ := Term.marks_of_parse? hread h
    have htiles := Token.tiles_of_ofSource? (Token.read?_eq_ok_iff.1 hread)
    obtain ⟨hstart, hle, -, hstop⟩ := Diagnostic.tokenSpan_of_tiles htiles index
    rw [htiles.sourceOf_eq, String.ofList_toList] at hle hstop
    refine ⟨[.words (Diagnostic.problemWords problem ++ " in '"), .snippet source, .words "'"],
      _, _, .noStatement index tokens.length, hmarks, hstart, hle, hlt, hstop, fun ink => ?_⟩
    simp only [Failure.ofReadError, Diagnostic.noStatement, htiles.sourceOf_eq,
      String.ofList_toList]

/-! ## The report of the only active line -/

namespace Diagnostic

variable {d : Diagnostic}

/-- Without colours the excerpt is shown as it is, and its span is marked in the line below. -/
theorem underlined_plain (hue : Hue) (hstart : 0 ≤ d.start) (hstop : d.start < d.stop) :
    d.underlined .plain hue = "  " ++ d.excerpt ++ "\n" ++
      "  " ++ Text.repeated ' ' d.start ++ "^" ++ Text.repeated '~' (d.stop - d.start - 1) := by
  obtain ⟨m, hm⟩ := Int.eq_ofNat_of_zero_le hstart
  obtain ⟨n, hn⟩ := Int.eq_ofNat_of_zero_le (hstart.trans hstop.le)
  have hspan : d.spanStop = d.stop := max_eq_left hstop
  have hparts : Text.upTo d.excerpt d.start ++ Text.slice d.excerpt d.start d.stop ++
      Text.startingAt d.excerpt d.stop = d.excerpt := by
    rw [hm, hn]
    apply Text.upTo_slice_startingAt
    omega
  rw [underlined, hspan, Ink.bright_plain, Ink.bright_plain]
  conv_rhs => rw [← hparts]
  simp only [String.append_assoc]

end Diagnostic

namespace Reporter

variable {r : Reporter} {d : Diagnostic} {path line : String} {number : Int}

/-- The line is the only active one. -/
def Shows (r : Reporter) (path line : String) (number : Int) : Prop :=
  r.active.filter (·.shown?.isSome) = [⟨path, some line, some number⟩]

/-- The active line is reported with the column at which the diagnostic starts. -/
theorem lineReports_of_shows (h : r.Shows path line number) (hd : d.isPositioned = true) :
    r.active.filterMap (lineReport d) = ["  File '" ++ path ++ "', line " ++
      Text.signedText number ++ ", column " ++ Text.signedText (d.start + 1) ++ ":\n    " ++ line ++
      "\n"] := by
  have hshown : (⟨path, some line, some number⟩ : ActiveLine).shown?.isSome = true := by
    have hmem : (⟨path, some line, some number⟩ : ActiveLine) ∈
        r.active.filter (·.shown?.isSome) := h ▸ List.mem_cons_self
    exact (List.mem_filter.1 hmem).2
  obtain ⟨shown, hline⟩ := Option.isSome_iff_exists.1 hshown
  obtain ⟨hsome, -⟩ := Option.filter_eq_some_iff.1 hline
  obtain rfl : line = shown := Option.some.inj hsome
  have hfilter : r.active.filterMap (lineReport d) =
      (r.active.filter (·.shown?.isSome)).filterMap (lineReport d) := by
    rw [List.filterMap_filter]
    apply List.filterMap_congr
    intro a _
    cases ha : a.shown? with
    | none => simp [lineReport, ha]
    | some _ => rfl
  rw [hfilter, h, List.filterMap_cons, List.filterMap_nil, lineReport, hline, hd]
  simp only [Option.map_some, if_true, ActiveLine.numberText, Option.getD_some, String.append_assoc]

/-- The report of an error in a line, the part of it from `start` to `stop` at fault: where it is,
the line, the message, and the line again with a caret and tildes below that part. -/
def markedReport (path line : String) (number : Int) (words : String) (start stop : Int) : String :=
  "  File '" ++ path ++ "', line " ++ Text.signedText number ++ ", column " ++
      Text.signedText (start + 1) ++ ":\n    " ++ line ++ "\n" ++
    "error: " ++ words ++ "\n" ++
    "  " ++ line ++ "\n" ++
    "  " ++ Text.repeated ' ' start ++ "^" ++ Text.repeated '~' (stop - start - 1) ++ "\n"

/-- The report of an error on the only active line. -/
theorem errorReport_of_shows (hink : r.ink = .plain) (h : r.Shows path d.excerpt number)
    (hd : d.isPositioned = true) (hinternal : d.internal = false) (hfits : d.Fits)
    (hstop : d.start < d.stop) :
    r.errorReport d = markedReport path d.excerpt number d.marked d.start d.stop := by
  have hdetails : r.errorDetails d = d.underlined .plain .red ++ "\n" := by
    simp only [errorDetails, hd, if_true, excerptLines, Diagnostic.underlineError?_of_fits hfits,
      hink, Option.isSome_none, Bool.false_eq_true, if_false]
  have hunderlined := Diagnostic.underlined_plain .red hfits.start_nonneg hstop
  unfold markedReport
  simp only [errorReport, lineReports_of_shows h hd, hdetails, hunderlined, hinternal, hink,
    List.length_singleton, Nat.lt_irrefl, if_false, Bool.false_eq_true, Ink.bright_plain,
    String.join_cons, String.join_nil, String.empty_append, String.append_empty,
    String.append_assoc]

/-- A reporter that goes on after errors reports what is wrong with a part of the only active line,
and that is all. -/
theorem settle_of_shows {parts : List MessagePart} {start stop : Int} {cause : Cause}
    (hne : line ≠ "") (hstart : 0 ≤ start) (hle : start ≤ line.length) (hlt : start < stop)
    (hstop : stop ≤ line.length + 1) (hink : r.ink = .plain) (hfatal : r.fatal = false)
    (h : r.Shows path line number) :
    r.settle (.diagnostic (.ofParts r.ink parts line start stop cause)) =
      ⟨markedReport path line number (Diagnostic.messageOf .plain parts) start stop, r.clear,
        none⟩ := by
  have hfits : (Diagnostic.ofParts r.ink parts line start stop cause).Fits :=
    Diagnostic.fits_ofParts hstart hle (hstart.trans hlt.le) hstop
  have hresolve : Diagnostic.resolveStop line stop = stop := if_neg (by omega)
  have hpositioned :
      (Diagnostic.ofParts r.ink parts line start stop cause).isPositioned = true := by
    simp [Diagnostic.isPositioned, Diagnostic.ofParts, hne]
  have hreport := errorReport_of_shows (d := .ofParts r.ink parts line start stop cause) hink h
    hpositioned rfl hfits (hlt.trans_eq hresolve.symm)
  rw [settle_diagnostic hfatal (excerptError?_of_fits hfits), hreport]
  simp only [Diagnostic.ofParts, hresolve, hink]

/-- **The caret and the column mark what is at fault.** A text that is not empty and cannot be read
is at fault in a part that begins within it or right behind it and is not empty: where no token
begins, at a token of its own, or behind its last visible character. The diagnostic has the text as
its excerpt and that part as its span. A reporter that goes on after errors, with the text as its
only active line and without colours, names the column of that part, shows the text as it is with a
caret and tildes below that part, and nothing goes on. -/
theorem unreadable_line_marked {source : String} {e : ReadError} (hne : source ≠ "")
    (h : Term.read? source = .error e) :
    ∃ start stop words, e.Marks source start stop ∧
      0 ≤ start ∧ start ≤ source.length ∧ start < stop ∧
      (∀ ink, ∃ d, Failure.ofReadError ink e = .diagnostic d ∧ d.excerpt = source ∧
        d.start = start ∧ d.stop = stop ∧ d.message = words) ∧
      ∀ (r : Reporter) (path : String) (number : Int), r.ink = .plain → r.fatal = false →
        r.Shows path source number →
        r.settle (Failure.ofReadError r.ink e) =
          ⟨markedReport path source number words start stop, r.clear, none⟩ := by
  obtain ⟨parts, start, stop, cause, hmarks, hstart, hle, hlt, hstop, hdiagnostic⟩ :=
    Failure.exists_ofParts_of_read? h
  have hresolve : Diagnostic.resolveStop source stop = stop := if_neg (by omega)
  refine ⟨start, stop, Diagnostic.messageOf .plain parts, hmarks, hstart, hle, hlt, fun ink => ?_,
    fun r path number hink hfatal h => ?_⟩
  · exact ⟨_, hdiagnostic ink, rfl, rfl, hresolve, rfl⟩
  · rw [hdiagnostic]
    exact settle_of_shows hne hstart hle hlt hstop hink hfatal h

/-- A call that is not closed is at fault behind the comment that follows it, and the blanks at the
end of the line do not count. -/
theorem unclosed_call_marked :
    let line := "f(1, -- c  "
    let tokens : List Token := [⟨.symbol, "f", 0⟩, ⟨.operator, "(", 1⟩, ⟨.constant, "1", 2⟩,
      ⟨.operator, ",", 3⟩, ⟨.whitespace, " ", 4⟩, ⟨.comment, "-- c  ", 5⟩]
    let e : ReadError := .noStatement tokens (.refused .unexpectedEnd 4)
    let r : Reporter := ⟨.plain, false, [.idle "a", ⟨"<in>", some line, some 3⟩]⟩
    line ≠ "" ∧ Term.read? line = .error e ∧ e.Marks line 9 10 ∧ r.Shows "<in>" line 3 ∧
      ∃ words, r.settle (Failure.ofReadError r.ink e) =
        ⟨markedReport "<in>" line 3 words 9 10, r.clear, none⟩ := by
  intro line tokens e r
  have hne : line ≠ "" := by decide
  have htokens : Token.read? line = .ok tokens := by decide +kernel
  have hread : Term.read? line = .error e := by
    rw [Term.read?, htokens]
    with_unfolding_all rfl
  have hshows : r.Shows "<in>" line 3 := by
    simp [Shows, r, line, ActiveLine.shown?, ActiveLine.idle]
  have hend : ∀ e' start stop, e'.Marks line start stop → e' = e → start = 9 ∧ stop = 10 := by
    intro e' start stop h he
    cases h with
    | noToken _ _ => exact ReadError.noConfusion he
    | token _ ht _ =>
      obtain ⟨rfl, hrefused⟩ := ReadError.noStatement.inj he
      obtain ⟨-, rfl⟩ := ParseError.refused.inj hrefused
      cases ht
    | atEnd _ => exact ⟨by decide, by decide⟩
  obtain ⟨start, stop, words, hmarks, -, -, -, -, hreport⟩ := unreadable_line_marked hne hread
  obtain ⟨rfl, rfl⟩ := hend e start stop hmarks rfl
  exact ⟨hne, hread, hmarks, hshows, words, hreport r "<in>" 3 rfl rfl hshows⟩

end Reporter

end TermCalc
