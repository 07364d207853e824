import TermCalc.Program
import TermCalc.Proofs.Diagnostic.Excerpt
import TermCalc.Proofs.Session.Evaluation

/-!
# The shell between two lines

Between two lines the session of a shell is as it was when the shell started, its table apart:
nothing is queued, no trace is kept and no line is active. A line leaves it so again, whatever it
holds. What it does is determined by the line and the table; the number of the line shows in reports
only.

## Main definitions

* `Shell.rested ink ceiling t`: the session of a shell between two lines, with the table `t`
* `Shell.verdict`: what a line comes to, a trace and a table or a failure
* `Shell.notice`: the warning that a line with that number gives
* `Shell.SameWarning`: the same warning but for the number of the line

## Main results

* `verdict_error`: a line fails with a diagnostic that can be reported, unless patience runs out
* `evaluate_of_ok`, `evaluate_of_diagnostic`, `evaluate_of_patience`: what a line does
* `sameWarning_notice`: a line gives the same warning under every number
-/

namespace TermCalc.Shell

open Session (statement? warning traceText)

variable {ink : Ink} {ceiling : Ceiling} {patience : Nat} {t : Table} {line : String} {n : Nat}

/-! ## Sessions at rest -/

/-- The session of a shell between two lines: with the table `t`, and otherwise as it started. -/
def rested (ink : Ink) (ceiling : Ceiling) (t : Table) : Session :=
  { Program.shellSession ink ceiling with table := t }

/-! ## What a line comes to -/

/-- What a line comes to in the table `t`: a failure, or a trace with the table after it, or nothing
if the line holds blanks and comments only. -/
def verdict (ink : Ink) (ceiling : Ceiling) (patience : Nat) (t : Table) (line : String) :
    Except Failure (Option (List Term × Table)) :=
  match statement? line with
  | .error e => .error (.ofReadError ink e)
  | .ok none => .ok none
  | .ok (some v) =>
    match t.reduce patience ceiling v with
    | (.error e, _) => .error (.ofReductionError e)
    | (.ok trace, t') => .ok (some (trace, t'))

/-- The warning that a line with that number gives. -/
def notice (ink : Ink) (ceiling : Ceiling) (t : Table) (line : String) (number : Int) : String :=
  match statement? line with
  | .ok (some v) => ((rested ink ceiling t).activate line number).warning ⟨number, line, v⟩
  | _ => ""

/-- The table after a line that does not fail. -/
def tableAfter (t : Table) (r : Option (List Term × Table)) : Table :=
  (r.map Prod.snd).getD t

/-- The terms that a line gives if it does not fail. -/
def termsOf (r : Option (List Term × Table)) : List Term :=
  (r.map Prod.fst).getD []

/-- The table keeps its shape. -/
theorem ofSession_tableAfter {r : Option (List Term × Table)} (ht : t.OfSession)
    (h : verdict ink ceiling patience t line = .ok r) : (tableAfter t r).OfSession := by
  unfold verdict at h
  split at h
  next => cases h
  next =>
    obtain rfl : none = r := Except.ok.inj h
    exact ht
  next v hstatement =>
    split at h
    next => cases h
    next trace t' hreduce =>
      obtain rfl : some (trace, t') = r := Except.ok.inj h
      exact (Table.rewriting_of_reduce ht.standard hreduce).ofSession ht

/-- A line fails with a diagnostic that can be reported, unless nothing limits the rewrites and the
patience runs out. -/
theorem verdict_error {e : Failure} (hceiling : ceiling ≠ .empty) (ht : t.OfSession)
    (h : verdict ink ceiling patience t line = .error e) :
    (∃ d, e = .diagnostic d ∧ Reporter.excerptError? d = none) ∨
      e = .patience ∧ ceiling = .unlimited := by
  unfold verdict at h
  split at h
  next error hstatement =>
    obtain ⟨d, hd, hshown⟩ := Session.diagnostic_of_statement? hstatement ink
    exact .inl ⟨d, (Except.error.inj h).symm.trans hd, hshown⟩
  next => cases h
  next v hstatement =>
    split at h
    next error t' hreduce =>
      obtain ⟨trace, rfl⟩ := Table.error_of_reduce ht.standard hreduce
      obtain rfl := Except.error.inj h
      cases ceiling with
      | unlimited => exact .inr ⟨rfl, rfl⟩
      | limited limit => exact .inl ⟨_, rfl, Reporter.excerptError?_ceiling _ _⟩
      | empty => exact absurd rfl hceiling
    next => cases h

/-! ## What a line does -/

/-- A line of a session at rest is evaluated to its verdict. -/
theorem evaluate_rested (line : String) (number : Int) :
    (rested ink ceiling t).evaluate patience line number =
      ⟨notice ink ceiling t line number,
        match verdict ink ceiling patience t line with
        | .error _ => (rested ink ceiling t).activate line number
        | .ok r => rested ink ceiling (tableAfter t r),
        (verdict ink ceiling patience t line).map (Option.map Prod.fst)⟩ := by
  have hqueue : (rested ink ceiling t).queue = [] := rfl
  cases hstatement : statement? line with
  | error e =>
    simp only [Session.evaluate_unread hstatement, notice, verdict, hstatement]
    rfl
  | ok statement =>
    cases statement with
    | none =>
      simp only [Session.evaluate_blank hstatement, notice, verdict, hstatement]
      rfl
    | some v =>
      obtain ⟨result, t', hreduce⟩ : ∃ result t', t.reduce patience ceiling v = (result, t') :=
        ⟨_, _, rfl⟩
      cases result with
      | error e =>
        simp only [Session.evaluate_fails hqueue hstatement hreduce, notice, verdict, hstatement,
          hreduce]
        rfl
      | ok trace =>
        have hinteractive : (rested ink ceiling t).interactive = true := rfl
        simp only [Session.evaluate_reduces hqueue hstatement hreduce, notice, verdict, hstatement,
          hreduce, hinteractive, if_true, String.append_empty]
        rfl

variable {r : Option (List Term × Table)}

/-- A line that does not fail leaves a shell at rest. -/
theorem evaluate_of_ok
    (h : verdict ink ceiling patience t (Session.preprocess line) = .ok r) :
    Shell.evaluate ⟨rested ink ceiling t, n⟩ patience line =
      (notice ink ceiling t (Session.preprocess line) (n + 1 : Nat) ++ traceText (termsOf r),
        ⟨rested ink ceiling (tableAfter t r), n + 1⟩, none) := by
  simp only [Shell.evaluate, evaluate_rested, h]
  rfl

/-- So does a line that fails with a diagnostic, and the table is as it was. -/
theorem evaluate_of_diagnostic {d : Diagnostic} (hd : Reporter.excerptError? d = none)
    (h : verdict ink ceiling patience t (Session.preprocess line) = .error (.diagnostic d)) :
    (Shell.evaluate ⟨rested ink ceiling t, n⟩ patience line).2 =
      (⟨rested ink ceiling t, n + 1⟩, none) := by
  have hsettle : ((rested ink ceiling t).activate (Session.preprocess line)
      (n + 1 : Nat)).reporter.settle (.diagnostic d) = ⟨_, (rested ink ceiling t).reporter, none⟩ :=
    Reporter.settle_diagnostic rfl hd
  simp only [Shell.evaluate, evaluate_rested, h]
  exact congrArg (fun settled : Reporter.Settled =>
    ((⟨{ rested ink ceiling t with reporter := settled.reporter }, n + 1⟩, settled.failure) :
      Shell × Option Failure)) hsettle

/-- Only patience can end the shell. -/
theorem evaluate_of_patience
    (h : verdict ink ceiling patience t (Session.preprocess line) = .error .patience) :
    (Shell.evaluate ⟨rested ink ceiling t, n⟩ patience line).2.2 = some .patience := by
  simp only [Shell.evaluate, evaluate_rested, h]
  rfl

/-! ## Warnings -/

/-- The place that a warning about typed input begins with. -/
def place (ink : Ink) (number : Int) : String :=
  ink.bold (Session.inputPath ++ ":" ++ Text.signedText number ++ ": ")

/-- Two warnings are the same, but for the number of the line in the place that they begin with. -/
inductive SameWarning (ink : Ink) : String → String → Prop
  | same (w : String) : SameWarning ink w w
  | numbered (number number' : Int) (rest : String) :
    SameWarning ink (place ink number ++ rest) (place ink number' ++ rest)

theorem sameWarning_warningReport (line : String) (number number' : Int) (d : Diagnostic) :
    SameWarning ink (((rested ink ceiling t).activate line number).reporter.warningReport d)
      (((rested ink ceiling t).activate line number').reporter.warningReport d) := by
  by_cases hline : line = ""
  · subst hline
    exact .same _
  · have hreport : ∀ number,
        ((rested ink ceiling t).activate line number).reporter.warningReport d =
          place ink number ++ (ink.bright .magenta "warning: " ++ d.marked ++ "\n" ++
            if d.isPositioned then (rested ink ceiling t).reporter.excerptLines .magenta d
            else "") := by
      intro number
      have hshown : (ActiveLine.mk Session.inputPath (some line) (some number)).shown?.isSome =
          true := by
        simp [ActiveLine.shown?, hline]
      have hfind : ((rested ink ceiling t).activate line number).reporter.active.find?
          (·.shown?.isSome) = some ⟨Session.inputPath, some line, some number⟩ :=
        List.find?_cons_of_pos hshown
      simp only [Reporter.warningReport, hfind, String.append_assoc]
      rfl
    rw [hreport number, hreport number']
    exact .numbered number number' _

/-- A line gives the same warning under every number. -/
theorem sameWarning_notice (line : String) (number number' : Int) :
    SameWarning ink (notice ink ceiling t line number) (notice ink ceiling t line number') := by
  have htable : ∀ number, ((rested ink ceiling t).activate line number).table = t := fun _ => rfl
  unfold notice
  split
  next v hstatement =>
    simp only [warning, htable]
    split
    next name =>
      split_ifs
      · exact sameWarning_warningReport line number number' _
      · exact .same _
    next => exact .same _
  next => exact .same _

end TermCalc.Shell
