import TermCalc.Proofs.Term.Refusal
import TermCalc.Proofs.Token.Trailing
import TermCalc.Session

/-!
# Excerpts of what was read

The report of an error underlines a span of the text at fault. Spans that are taken from tokens, or
from where no token starts, lie within the text or right behind it, so the report of a line that
cannot be read can always be written: it ends the line and nothing else.

## Main definitions

* `Diagnostic.Fits d`: the span of `d` lies within its excerpt or right behind it

## Main results

* `Diagnostic.underlineError?_of_fits`: such a span can be underlined
* `Diagnostic.fits_noToken`, `Diagnostic.fits_noStatement`: the diagnostics of reading fit
* `Session.diagnostic_of_statement?`: a line that cannot be read is reported
* `Reporter.settle_diagnostic`: a reporter that goes on after errors forgets the active lines
-/

namespace TermCalc

namespace Diagnostic

variable {d : Diagnostic} {ink : Ink}

/-! ## Spans within an excerpt -/

/-- The span lies within the excerpt or is the character behind it. -/
structure Fits (d : Diagnostic) : Prop where
  start_nonneg : 0 ≤ d.start
  start_le : d.start ≤ d.excerpt.length
  stop_le : d.stop ≤ d.excerpt.length + 1

theorem lineError?_eq_none {excerpt : String} {n : Int} (h : 0 ≤ n) (h' : n ≤ excerpt.length) :
    lineError? excerpt n = none := by
  rw [lineError?, if_neg (by omega), if_pos (by omega)]

/-- A span that fits can be underlined. -/
theorem underlineError?_of_fits (h : d.Fits) : d.underlineError? = none := by
  obtain ⟨hstart, hle, hstop⟩ := h
  have hspan : 0 ≤ d.spanStop - d.start - 1 ∧ d.spanStop - d.start - 1 ≤ d.excerpt.length := by
    rw [spanStop]
    omega
  rw [underlineError?, lineError?_eq_none hstart hle, lineError?_eq_none hspan.1 hspan.2]
  rfl

theorem fits_ofParts {parts : List MessagePart} {excerpt : String} {start stop : Int}
    {cause : Cause} (hstart : 0 ≤ start) (hle : start ≤ excerpt.length) (hstop : 0 ≤ stop)
    (hstop' : stop ≤ excerpt.length + 1) : (ofParts ink parts excerpt start stop cause).Fits where
  start_nonneg := hstart
  start_le := hle
  stop_le := by
    have hne : stop ≠ -1 := by omega
    simp only [ofParts, resolveStop, if_neg hne]
    exact hstop'

/-! ## The diagnostics of reading -/

theorem fits_noToken {source : String} {position : Nat} (h : position < source.length) :
    (noToken ink source position).Fits := by
  apply fits_ofParts <;> omega

theorem length_trimEnd_le (s : String) : (Text.trimEnd s).length ≤ s.length := by
  obtain ⟨ds, hds, -⟩ := Text.exists_dropEndWhile Text.isBlank s.toList
  have hlength := congrArg List.length hds
  rw [List.length_append, String.length_toList] at hlength
  rw [Text.trimEnd, String.length_ofList]
  omega

/-- A significant token lies within the source, and the end of the tokens does too. -/
theorem tokenSpan_of_tiles {tokens : List Token} {cs : List Char} (h : Token.Tiles 0 tokens cs)
    (index : Nat) :
    0 ≤ (tokenSpan tokens index).1 ∧
      (tokenSpan tokens index).1 ≤ (Token.sourceOf tokens).length ∧
      0 ≤ (tokenSpan tokens index).2 ∧
      (tokenSpan tokens index).2 ≤ (Token.sourceOf tokens).length + 1 := by
  rw [h.sourceOf_eq, String.length_ofList, tokenSpan]
  split
  next t ht =>
    have hmem := List.mem_of_mem_filter (List.mem_of_getElem? ht)
    have hspan := h.span_of_mem hmem
    dsimp only
    omega
  next =>
    have htrim := length_trimEnd_le (Token.sourceOf tokens)
    rw [h.sourceOf_eq, String.length_ofList] at htrim
    dsimp only
    rw [h.sourceOf_eq]
    omega

theorem fits_noStatement {tokens : List Token} {cs : List Char} (h : Token.Tiles 0 tokens cs)
    (problem : Problem) (index : Nat) : (noStatement ink tokens problem index).Fits := by
  obtain ⟨hstart, hle, hstop, hstop'⟩ := tokenSpan_of_tiles h index
  exact fits_ofParts hstart hle hstop hstop'

end Diagnostic

/-! ## Reports -/

namespace Reporter

variable {r : Reporter} {d : Diagnostic}

theorem excerptError?_of_fits (h : d.Fits) : excerptError? d = none := by
  rw [excerptError?, Diagnostic.underlineError?_of_fits h, ite_self]

/-- The report of a ceiling shows no excerpt. -/
theorem excerptError?_ceiling (limit : Ceiling) (trace : List Term) :
    excerptError? (.ceiling limit trace) = none :=
  rfl

/-- A reporter that goes on after errors reports a diagnostic and forgets the active lines. -/
theorem settle_diagnostic (hfatal : r.fatal = false) (h : excerptError? d = none) :
    r.settle (.diagnostic d) = ⟨r.errorReport d, r.clear, none⟩ := by
  rw [settle, throw, h, hfatal]
  rfl

end Reporter

/-- What keeps a line from being read is a diagnostic, and it can be reported. -/
theorem Session.diagnostic_of_statement? {line : String} {e : ReadError}
    (h : Session.statement? line = .error e) (ink : Ink) :
    ∃ d, Failure.ofReadError ink e = .diagnostic d ∧ Reporter.excerptError? d = none := by
  cases htokens : Token.ofSource? line with
  | error position =>
    have hread : Token.read? line = .error (.noToken line position) := by
      rw [Token.read?, htokens]
      rfl
    rw [statement?, hread] at h
    obtain rfl : .noToken line position = e := Except.error.inj h
    exact ⟨_, rfl, Reporter.excerptError?_of_fits
      (Diagnostic.fits_noToken (Token.ofSource?_error htokens))⟩
  | ok tokens =>
    have hread : Token.read? line = .ok tokens := by
      rw [Token.read?, htokens]
      rfl
    simp only [statement?, hread, bind, Except.bind] at h
    split_ifs at h
    cases hparse : Term.parse? tokens with
    | ok v =>
      rw [hparse] at h
      cases h
    | error e' =>
      rw [hparse] at h
      obtain rfl : e' = e := Except.error.inj h
      obtain ⟨problem, index, rfl, -⟩ := Term.refused_of_parse? htokens hparse
      exact ⟨_, rfl, Reporter.excerptError?_of_fits
        (Diagnostic.fits_noStatement (Token.tiles_of_ofSource? htokens) problem index)⟩

end TermCalc
