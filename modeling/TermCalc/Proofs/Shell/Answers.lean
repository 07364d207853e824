import TermCalc.Proofs.Shell.Rest
import TermCalc.Proofs.Text.Lines

/-!
# Lines that fail

A line that cannot be read or reduced is reported and leaves nothing behind. The shell goes on as if
the line had not been there: deleting all such lines from the input changes neither the table at the
end nor what is written for the other lines, except for the line numbers in warnings.

## Main definitions

* `Shell.Answer`, `Shell.answer`: what a shell answers to a line
* `Shell.answers`: the answers to lines up to the one that ends the shell
* `Shell.SameAnswer`: the same answer but for the number of the line in a warning

## Main results

* `loop_out`: what a shell writes is made up of its answers
* `loop_take_rested`: after any number of lines the shell is at rest
* `loop_survivors`: the shell with and without the lines that fail
* `failing_lines_are_inert`: the same from the text of the input on
-/

namespace TermCalc.Shell

variable {ink : Ink} {ceiling : Ceiling} {patience : Nat} {t : Table} {n : Nat}

/-! ## Answers -/

/-- What a shell answers to a line: whether the line fails, the warning that comes first, and what
is written below it. -/
structure Answer where
  line : String
  fails : Bool
  warning : String
  text : String

/-- What is written for a line, with the prompt in front of it. -/
def Answer.written (a : Answer) : String :=
  prompt ++ a.warning ++ a.text

/-- The answer to a line. Only statements can fail, and only they give warnings. -/
def answer (sh : Shell) (patience : Nat) (line : String) : Answer :=
  match command line with
  | .statement s =>
    let outcome := sh.session.evaluate patience (Session.preprocess s) (sh.count + 1 : Nat)
    match outcome.result with
    | .ok trace => ⟨line, false, outcome.out, Session.traceText (trace.getD [])⟩
    | .error e => ⟨line, true, outcome.out, (outcome.session.reporter.settle e).out⟩
  | c => ⟨line, false, "", (sh.step patience c).1⟩

/-- The answers to lines, up to the one that ends the shell; the end of the input is the line
`EOF`. -/
def answers (sh : Shell) (patience : Nat) : List String → List Answer
  | [] => [sh.answer patience "EOF"]
  | line :: lines =>
    match sh.step patience (command line) with
    | (_, after, .goOn) => sh.answer patience line :: after.answers patience lines
    | _ => [sh.answer patience line]

/-- What a command writes is its answer. -/
theorem step_out (sh : Shell) (patience : Nat) (line : String) :
    (sh.step patience (command line)).1 =
      (sh.answer patience line).warning ++ (sh.answer patience line).text := by
  unfold answer
  cases command line with
  | statement s =>
    simp only [step, evaluate]
    cases (sh.session.evaluate patience (Session.preprocess s) (sh.count + 1 : Nat)).result with
    | ok trace => rfl
    | error e =>
      dsimp only
      split <;> next heq => rw [← congrArg Prod.fst heq]
  | nothing => rfl
  | help => exact String.empty_append.symm
  | exit => rfl
  | endOfInput => exact String.empty_append.symm

/-! ## The loop, line by line -/

section Loop

variable {sh after : Shell} {line : String} (lines : List String)

theorem loop_of_goOn (h : (sh.step patience (command line)).2 = (after, .goOn)) :
    sh.loop patience (line :: lines) =
        ((sh.answer patience line).written ++ (after.loop patience lines).1,
          (after.loop patience lines).2) ∧
      sh.answers patience (line :: lines) =
        sh.answer patience line :: after.answers patience lines := by
  have hstep : sh.step patience (command line) = (_, after, .goOn) :=
    Prod.ext (step_out sh patience line) h
  simp only [loop, answers, hstep, Answer.written, String.append_assoc, and_self]

theorem loop_of_stop (h : (sh.step patience (command line)).2 = (after, .stop)) :
    sh.loop patience (line :: lines) = ((sh.answer patience line).written, after, none) ∧
      sh.answers patience (line :: lines) = [sh.answer patience line] := by
  have hstep : sh.step patience (command line) = (_, after, .stop) :=
    Prod.ext (step_out sh patience line) h
  simp only [loop, answers, hstep, Answer.written, String.append_assoc, and_self]

theorem loop_of_fail {e : Failure} (h : (sh.step patience (command line)).2.2 = .fail e) :
    sh.loop patience (line :: lines) =
        ((sh.answer patience line).written, (sh.step patience (command line)).2.1, some e) ∧
      sh.answers patience (line :: lines) = [sh.answer patience line] := by
  obtain ⟨after, hafter⟩ : ∃ after, (sh.step patience (command line)).2.1 = after := ⟨_, rfl⟩
  have hstep : sh.step patience (command line) = (_, after, .fail e) :=
    Prod.ext (step_out sh patience line) (Prod.ext hafter h)
  simp only [loop, answers, hstep, Answer.written, String.append_assoc, and_self]

end Loop

/-- What a shell writes is made up of its answers. -/
theorem loop_out (sh : Shell) (patience : Nat) (lines : List String) :
    (sh.loop patience lines).1 =
      String.join ((sh.answers patience lines).map Answer.written) := by
  induction lines generalizing sh with
  | nil => exact (String.append_empty (s := prompt ++ "\n")).symm
  | cons line lines ih =>
    obtain ⟨after, next, h⟩ : ∃ after next, (sh.step patience (command line)).2 = (after, next) :=
      ⟨_, _, rfl⟩
    cases next with
    | goOn =>
      obtain ⟨hloop, hanswers⟩ := loop_of_goOn lines h
      rw [hloop, hanswers, List.map_cons, String.join_cons, ← ih after]
    | stop =>
      obtain ⟨hloop, hanswers⟩ := loop_of_stop lines h
      rw [hloop, hanswers, List.map_singleton, String.join_cons]
      exact String.append_empty.symm
    | fail e =>
      obtain ⟨hloop, hanswers⟩ := loop_of_fail lines (congrArg Prod.snd h)
      rw [hloop, hanswers, List.map_singleton, String.join_cons]
      exact String.append_empty.symm

/-- A shell begins with its introduction. -/
theorem run_eq (session : Session) (patience : Nat) (input : String) :
    run session patience input =
      (intro ++ (loop ⟨session, 0⟩ patience (Text.inputLines input)).1,
        (loop ⟨session, 0⟩ patience (Text.inputLines input)).2) := by
  rw [run]

/-! ## A line in two shells at rest -/

/-- The same answer to the same line, but for the number of the line in a warning. Neither line
fails. -/
structure SameAnswer (ink : Ink) (a b : Answer) : Prop where
  line : a.line = b.line
  fails : a.fails = false
  fails' : b.fails = false
  warning : SameWarning ink a.warning b.warning
  text : a.text = b.text

/-- What a line does to two shells at rest that have the same table and may have counted
differently: both go on with the same table, both stop, the line fails in both and leaves them at
rest, or patience runs out. -/
inductive Course (ink : Ink) (ceiling : Ceiling) (patience : Nat) (t : Table) (line : String)
    (n n' : Nat) : Prop
  | goesOn {t' : Table} {m m' : Nat} (ht' : t'.OfSession)
    (h : (step ⟨rested ink ceiling t, n⟩ patience (command line)).2 =
      (⟨rested ink ceiling t', m⟩, .goOn))
    (h' : (step ⟨rested ink ceiling t, n'⟩ patience (command line)).2 =
      (⟨rested ink ceiling t', m'⟩, .goOn))
    (same : SameAnswer ink (answer ⟨rested ink ceiling t, n⟩ patience line)
      (answer ⟨rested ink ceiling t, n'⟩ patience line))
  | stops (h : (step ⟨rested ink ceiling t, n⟩ patience (command line)).2 =
      (⟨rested ink ceiling t, n⟩, .stop))
    (h' : (step ⟨rested ink ceiling t, n'⟩ patience (command line)).2 =
      (⟨rested ink ceiling t, n'⟩, .stop))
    (same : SameAnswer ink (answer ⟨rested ink ceiling t, n⟩ patience line)
      (answer ⟨rested ink ceiling t, n'⟩ patience line))
  | fails (hfails : (answer ⟨rested ink ceiling t, n⟩ patience line).fails = true)
    (h : (step ⟨rested ink ceiling t, n⟩ patience (command line)).2 =
      (⟨rested ink ceiling t, n + 1⟩, .goOn))
  | loses (hceiling : ceiling = .unlimited)
    (h : (step ⟨rested ink ceiling t, n⟩ patience (command line)).2.2 = .fail .patience)

/-- The answer to a statement that does not fail. -/
theorem answer_of_ok {line s : String} {r : Option (List Term × Table)}
    (hcommand : command line = .statement s)
    (h : verdict ink ceiling patience t (Session.preprocess s) = .ok r) :
    answer ⟨rested ink ceiling t, n⟩ patience line =
      ⟨line, false, notice ink ceiling t (Session.preprocess s) (n + 1 : Nat),
        Session.traceText (termsOf r)⟩ := by
  simp only [answer, hcommand, evaluate_rested, h]
  rfl

theorem answer_fails {line s : String} {e : Failure} (hcommand : command line = .statement s)
    (h : verdict ink ceiling patience t (Session.preprocess s) = .error e) :
    (answer ⟨rested ink ceiling t, n⟩ patience line).fails = true := by
  simp only [answer, hcommand, evaluate_rested, h]
  rfl

/-- Other commands are answered without a look at the session. -/
theorem sameAnswer_of_command {line : String} (h : ∀ s, command line ≠ .statement s) (n n' : Nat) :
    SameAnswer ink (answer ⟨rested ink ceiling t, n⟩ patience line)
      (answer ⟨rested ink ceiling t, n'⟩ patience line) := by
  have hanswer : ∀ n, answer ⟨rested ink ceiling t, n⟩ patience line =
      ⟨line, false, "", (step ⟨rested ink ceiling t, 0⟩ patience (command line)).1⟩ := by
    intro n
    unfold answer
    cases hcommand : command line with
    | statement s => exact absurd hcommand (h s)
    | nothing => rfl
    | help => rfl
    | exit => rfl
    | endOfInput => rfl
  rw [hanswer n, hanswer n']
  exact ⟨rfl, rfl, rfl, .same _, rfl⟩

/-- Nor do they change the session or its count of lines: the shell goes on or stops. -/
theorem step_of_command (patience : Nat) {line : String}
    (h : ∀ s, command line ≠ .statement s) :
    ∃ next, (next = .goOn ∨ next = .stop) ∧
      ∀ sh : Shell, (sh.step patience (command line)).2 = (sh, next) := by
  cases hcommand : command line with
  | nothing => exact ⟨.goOn, .inl rfl, fun _ => rfl⟩
  | help => exact ⟨.goOn, .inl rfl, fun _ => rfl⟩
  | exit => exact ⟨.stop, .inr rfl, fun _ => rfl⟩
  | endOfInput => exact ⟨.stop, .inr rfl, fun _ => rfl⟩
  | statement s => exact absurd hcommand (h s)

/-- How a shell goes on after a statement. -/
theorem step_statement {sh after : Shell} {s : String} {failure : Option Failure}
    (h : (sh.evaluate patience s).2 = (after, failure)) :
    (sh.step patience (.statement s)).2 =
      (after, match failure with | none => .goOn | some e => .fail e) := by
  obtain ⟨out, hevaluate⟩ : ∃ out, sh.evaluate patience s = (out, after, failure) :=
    ⟨_, Prod.ext rfl h⟩
  simp only [step, hevaluate]
  cases failure <;> rfl

/-- Every line takes one of the courses. -/
theorem course (ink : Ink) (patience : Nat) (hceiling : ceiling ≠ .empty) (ht : t.OfSession)
    (line : String) (n n' : Nat) :
    Course ink ceiling patience t line n n' := by
  by_cases hcommand : ∃ s, command line = .statement s
  · obtain ⟨s, hcommand⟩ := hcommand
    cases hverdict : verdict ink ceiling patience t (Session.preprocess s) with
    | ok r =>
      have hstep : ∀ n, (step ⟨rested ink ceiling t, n⟩ patience (command line)).2 =
          (⟨rested ink ceiling (tableAfter t r), n + 1⟩, .goOn) := by
        intro n
        rw [hcommand]
        exact step_statement (congrArg Prod.snd (evaluate_of_ok hverdict))
      refine .goesOn (ofSession_tableAfter ht hverdict) (hstep n) (hstep n') ?_
      rw [answer_of_ok hcommand hverdict, answer_of_ok hcommand hverdict]
      exact ⟨rfl, rfl, rfl, sameWarning_notice _ _ _, rfl⟩
    | error e =>
      rcases verdict_error hceiling ht hverdict with ⟨d, rfl, hd⟩ | ⟨rfl, hunlimited⟩
      · refine .fails (answer_fails hcommand hverdict) ?_
        rw [hcommand]
        exact step_statement (evaluate_of_diagnostic hd hverdict)
      · refine .loses hunlimited ?_
        have hevaluate : (Shell.evaluate ⟨rested ink ceiling t, n⟩ patience s).2 =
            (_, some .patience) := Prod.ext rfl (evaluate_of_patience hverdict)
        rw [hcommand]
        exact congrArg Prod.snd (step_statement hevaluate)

  · have hother : ∀ s, command line ≠ .statement s := fun s hs => hcommand ⟨s, hs⟩
    have hsame : SameAnswer ink (answer ⟨rested ink ceiling t, n⟩ patience line)
        (answer ⟨rested ink ceiling t, n'⟩ patience line) :=
      sameAnswer_of_command hother n n'
    obtain ⟨next, rfl | rfl, hstep⟩ := step_of_command patience hother
    · exact .goesOn ht (hstep _) (hstep _) hsame
    · exact .stops (hstep _) (hstep _) hsame

/-! ## Lines that fail -/

/-- After any number of lines a shell is at rest. -/
theorem loop_take_rested (hceiling : ceiling ≠ .empty) (ht : t.OfSession) (lines : List String)
    (h : ceiling = .unlimited →
      (loop ⟨rested ink ceiling t, n⟩ patience lines).2.2 ≠ some .patience) (k : Nat) :
    ∃ t' m, (loop ⟨rested ink ceiling t, n⟩ patience (lines.take k)).2 =
      (⟨rested ink ceiling t', m⟩, none) := by
  induction lines generalizing t n k with
  | nil => exact ⟨t, n, by rw [List.take_nil]; rfl⟩
  | cons line lines ih =>
    cases k with
    | zero => exact ⟨t, n, rfl⟩
    | succ k =>
      rw [List.take_succ_cons]
      cases course ink patience hceiling ht line n n with
      | goesOn ht' hstep _ _ =>
        rw [(loop_of_goOn lines hstep).1] at h
        rw [(loop_of_goOn (lines.take k) hstep).1]
        exact ih ht' h k
      | stops hstep _ _ =>
        rw [(loop_of_stop (lines.take k) hstep).1]
        exact ⟨t, n, rfl⟩
      | fails _ hstep =>
        rw [(loop_of_goOn lines hstep).1] at h
        rw [(loop_of_goOn (lines.take k) hstep).1]
        exact ih ht h k
      | loses hunlimited hstep =>
        rw [(loop_of_fail lines hstep).1] at h
        exact absurd rfl (h hunlimited)

/-- Two shells at rest with the same table, the second without the lines that fail in the first.
They end with the same session and without a failure, and give the same answers to the lines that do
not fail. -/
theorem loop_survivors (hceiling : ceiling ≠ .empty) (ht : t.OfSession) (lines : List String)
    (n n' : Nat) (h : ceiling = .unlimited →
      (loop ⟨rested ink ceiling t, n⟩ patience lines).2.2 ≠ some .patience) :
    let given := answers ⟨rested ink ceiling t, n⟩ patience lines
    let left := Text.survivors (given.map Answer.fails) lines
    (loop ⟨rested ink ceiling t, n⟩ patience lines).2.2 = none ∧
      (loop ⟨rested ink ceiling t, n'⟩ patience left).2.2 = none ∧
      (loop ⟨rested ink ceiling t, n⟩ patience lines).2.1.session =
        (loop ⟨rested ink ceiling t, n'⟩ patience left).2.1.session ∧
      List.Forall₂ (SameAnswer ink) (given.filter (!·.fails))
        (answers ⟨rested ink ceiling t, n'⟩ patience left) := by
  -- induction on the lines, for all tables and numbers that the two shells can have come to
  induction lines generalizing t n n' with
  | nil =>
    have hcommand : command "EOF" = .endOfInput := by decide
    have hsame : SameAnswer ink (answer ⟨rested ink ceiling t, n⟩ patience "EOF")
        (answer ⟨rested ink ceiling t, n'⟩ patience "EOF") :=
      sameAnswer_of_command (fun s hs => nomatch hcommand.symm.trans hs) n n'
    exact ⟨rfl, rfl, rfl, .cons hsame .nil⟩
  | cons line lines ih =>
    cases course ink patience hceiling ht line n n' with
    | @goesOn t' m m' ht' hstep hstep' same =>
      obtain ⟨hloop, hgiven⟩ := loop_of_goOn lines hstep
      rw [hloop] at h
      obtain ⟨hfailure, hfailure', hsession, hanswers⟩ := ih ht' m m' h
      obtain ⟨hloop', hleft⟩ := loop_of_goOn (Text.survivors
        ((answers ⟨rested ink ceiling t', m⟩ patience lines).map Answer.fails) lines) hstep'
      simp only [hloop, hgiven, List.map_cons, same.fails, Text.survivors, hloop', hleft]
      refine ⟨hfailure, hfailure', hsession, ?_⟩
      rw [List.filter_cons_of_pos (by rw [same.fails]; rfl)]
      exact .cons same hanswers
    | stops hstep hstep' same =>
      obtain ⟨hloop, hgiven⟩ := loop_of_stop lines hstep
      obtain ⟨hloop', hleft⟩ := loop_of_stop lines hstep'
      simp only [hloop, hgiven, List.map_cons, List.map_nil, same.fails, Text.survivors, hloop',
        hleft]
      refine ⟨trivial, trivial, trivial, ?_⟩
      rw [List.filter_cons_of_pos (by rw [same.fails]; rfl)]
      exact .cons same .nil
    | fails hfails hstep =>
      obtain ⟨hloop, hgiven⟩ := loop_of_goOn lines hstep
      rw [hloop] at h
      simp only [hloop, hgiven, List.map_cons, hfails, Text.survivors]
      rw [List.filter_cons_of_neg (by rw [hfails]; decide)]
      exact ih ht (n + 1) n' h
    | loses hunlimited hstep =>
      rw [(loop_of_fail lines hstep).1] at h
      exact absurd rfl (h hunlimited)

/-- **Lines that fail leave nothing behind.** With a ceiling that is a number or none at all, and
statements that converge or fail, no failure leaves the shell. After any number of lines the session
is as it was at the start, its table apart: nothing is queued and no trace is kept. Deleting the
lines that fail from the input leaves the table at the end as it is. What is written is made up of
the answers to the lines, and those to the lines that do not fail stay as they are, but for the line
numbers in warnings. -/
theorem failing_lines_are_inert (ink : Ink) (hceiling : ceiling ≠ .empty) (patience : Nat)
    (input : String) (hdecides : ceiling = .unlimited →
      (run (Program.shellSession ink ceiling) patience input).2.2 ≠ some .patience) :
    let start : Shell := ⟨Program.shellSession ink ceiling, 0⟩
    let given := start.answers patience (Text.inputLines input)
    let input' := Text.removeLines (given.map Answer.fails) input
    let left := start.answers patience (Text.inputLines input')
    let before := run (Program.shellSession ink ceiling) patience input
    let after := run (Program.shellSession ink ceiling) patience input'
    before.2.2 = none ∧ after.2.2 = none ∧
      (∀ k, let session := (start.loop patience ((Text.inputLines input).take k)).2.1.session
        session.queue = [] ∧ session.results = [] ∧
          session = { Program.shellSession ink ceiling with table := session.table }) ∧
      before.2.1.session.table = after.2.1.session.table ∧
      before.1 = intro ++ String.join (given.map Answer.written) ∧
      after.1 = intro ++ String.join (left.map Answer.written) ∧
      List.Forall₂ (SameAnswer ink) (given.filter (!·.fails)) left := by
  have hrested : rested ink ceiling .default = Program.shellSession ink ceiling := rfl
  rw [run_eq, ← hrested] at hdecides
  obtain ⟨hbefore, hafter, hsession, hanswers⟩ :=
    loop_survivors hceiling Table.ofSession_default (Text.inputLines input) 0 0 hdecides
  have hbetween :=
    loop_take_rested hceiling Table.ofSession_default (Text.inputLines input) hdecides
  rw [← Text.inputLines_removeLines] at hafter hsession hanswers
  simp only [run_eq, loop_out]
  rw [← hrested]
  refine ⟨hbefore, hafter, fun k => ?_, congrArg Session.table hsession, trivial, trivial, hanswers⟩
  obtain ⟨t, m, ht⟩ := hbetween k
  rw [ht]
  exact ⟨rfl, rfl, rfl⟩

/-- Of seven lines one cannot be cut into tokens, one is no statement and one needs three rewrites
where two are allowed. Without them the second warning names the third line in the place of the
sixth. -/
theorem failing_lines_are_inert_of_each_kind :
    let input := "x = 1\n2 ? 3\npi = 4\nx = 2 +\nz = x + x + 3\npi = 4\ny = x"
    let start : Shell := ⟨Program.shellSession .plain (.limited 2), 0⟩
    let given := start.answers 1 (Text.inputLines input)
    let input' := "x = 1\npi = 4\npi = 4\ny = x"
    let left := start.answers 1 (Text.inputLines input')
    let before := run (Program.shellSession .plain (.limited 2)) 1 input
    let after := run (Program.shellSession .plain (.limited 2)) 1 input'
    given.map Answer.fails = [false, true, false, true, true, false, false, false] ∧
      before.2.2 = none ∧ after.2.2 = none ∧
      before.2.1.session.table = after.2.1.session.table ∧
      List.Forall₂ (SameAnswer .plain) (given.filter (!·.fails)) left := by
  have hceiling : Ceiling.limited 2 ≠ .empty := by decide
  have hflags : (answers ⟨Program.shellSession .plain (.limited 2), 0⟩ 1 (Text.inputLines
      "x = 1\n2 ? 3\npi = 4\nx = 2 +\nz = x + x + 3\npi = 4\ny = x")).map Answer.fails =
        [false, true, false, true, true, false, false, false] := by
    decide +kernel
  have htext : Text.removeLines [false, true, false, true, true, false, false, false]
      "x = 1\n2 ? 3\npi = 4\nx = 2 +\nz = x + x + 3\npi = 4\ny = x" =
        "x = 1\npi = 4\npi = 4\ny = x" := by
    decide +kernel
  obtain ⟨hbefore, hafter, -, htable, -, -, hanswers⟩ :=
    failing_lines_are_inert .plain hceiling 1
      "x = 1\n2 ? 3\npi = 4\nx = 2 +\nz = x + x + 3\npi = 4\ny = x" fun h => nomatch h
  rw [hflags, htext] at hafter htable hanswers
  exact ⟨hflags, hbefore, hafter, htable, hanswers⟩

end TermCalc.Shell
