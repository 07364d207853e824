import TermCalc.Program
import TermCalc.Proofs.Diagnostic.Excerpt
import TermCalc.Proofs.Session.Batch

/-!
# The program on a file

What the program writes about a file, and the code that it ends with. A line that cannot be read is
found before any statement is reduced, and its report is all that is written. If all lines can be
read, the statements are reduced from the first to the last. Each of them writes its warning, if it
assigns to one of the constants, and then its trace. The first that has no normal form under the
ceiling writes its warning too, and its report comes last.

## Main definitions

* `Program.filed`: the session on a file between two statements
* `Program.reporterAt`: the reporter of a file while one of its lines is active
* `Program.notice ink path q`: the warning that the statement `q` of a file gives
* `Program.transcript ink path qs traces`: what statements with those traces write

## Main results

* `addLines_filed`: a file whose lines can be read is queued as a whole
* `runQueue_of_reduces`: what statements that are reduced write
* `runQueue_filed`: how far statements are worked off
* `runFile_refused`, `runFile_queued`: files with and without a line that cannot be read
* `run_file_all_or_prefix`: the program on a file
-/

namespace TermCalc

namespace Program

open Session (statement? preprocess statements Reduces)

variable {ink : Ink} {path : String} {ceiling : Ceiling} {patience : Nat} {t t' : Table}
  {queue : List Queued} {results : List (List Term)} {lines : List String}

/-! ## The session on a file -/

/-- The session on a file between two statements: no line is active. -/
def filed (ink : Ink) (path : String) (ceiling : Ceiling) (t : Table) (queue : List Queued)
    (results : List (List Term)) : Session where
  reporter := ⟨ink, true, [.idle path]⟩
  path := path
  interactive := false
  ceiling := ceiling
  table := t
  queue := queue
  results := results

/-- The reporter of a file while one of its lines is active. -/
def reporterAt (ink : Ink) (path line : String) (number : Int) : Reporter :=
  ⟨ink, true, [⟨path, some line, some number⟩]⟩

theorem activate_filed (line : String) (number : Int) :
    (filed ink path ceiling t queue results).activate line number =
      { filed ink path ceiling t queue results with
        reporter := reporterAt ink path line number } := by
  simp [filed, reporterAt, Session.activate, Reporter.registerLine, Reporter.put, Reporter.putIn,
    ActiveLine.idle]

theorem deactivate_filed :
    (filed ink path ceiling t queue results).deactivate =
      filed ink path ceiling t queue results := by
  simp [filed, Session.deactivate, Reporter.removeLine, Reporter.put, Reporter.putIn,
    ActiveLine.idle]

/-- An error ends the program with code 1 after its report. -/
theorem settle_fatal {s : Session} {d : Diagnostic} (hfatal : s.reporter.fatal = true)
    (hd : Reporter.excerptError? d = none) (out : String) :
    settle s out (.diagnostic d) = ⟨out ++ s.reporter.errorReport d, some (.exit (some 1))⟩ := by
  simp only [settle, Reporter.settle, Reporter.throw, hd, hfatal, if_true]

/-! ## Queueing the lines -/

theorem addLines_append (s : Session) (number : Nat) (before after : List String) :
    s.addLines number (before ++ after) =
      match s.addLines number before with
      | (s, .error e) => (s, .error e)
      | (s, .ok ()) => s.addLines (number + before.length) after := by
  induction before generalizing s number with
  | nil => rfl
  | cons line before ih =>
    rw [List.cons_append, Session.addLines, Session.addLines]
    split
    · rfl
    · rw [ih, List.length_cons, Nat.add_assoc, Nat.add_comm 1]

/-- A file whose lines can be read is queued as a whole. -/
theorem addLines_filed {number : Nat} (hqueue : ∀ q ∈ queue, q.number < number)
    (hread : ∀ line ∈ lines, ∃ statement, statement? (preprocess line) = .ok statement) :
    (filed ink path ceiling t queue results).addLines number lines =
      (filed ink path ceiling t (queue ++ statements number lines) results, .ok ()) := by
  induction lines generalizing queue number with
  | nil => rw [Session.addLines, statements, List.append_nil]
  | cons line lines ih =>
    obtain ⟨⟨statement, hstatement⟩, hread⟩ := List.forall_mem_cons.1 hread
    have hnumber : ∀ q ∈ queue ++ (statement.map (Queued.mk number (preprocess line))).toList,
        q.number < (number + 1 : Nat) := by
      intro q hq
      rcases List.mem_append.1 hq with hq | hq
      · have hlt := hqueue q hq
        omega
      · obtain ⟨v, -, rfl⟩ := Option.map_eq_some_iff.1 (Option.mem_toList.1 hq)
        exact Int.lt_succ number
    have hadd : (filed ink path ceiling t queue results).add (preprocess line) number =
        (filed ink path ceiling t
          (queue ++ (statement.map (Queued.mk number (preprocess line))).toList) results,
          .ok statement) := by
      refine (Session.add_reads hqueue hstatement).trans ?_
      rw [deactivate_filed]
      rfl
    rw [Session.addLines, hadd]
    simp only [ih hnumber hread, List.append_assoc, statements, hstatement]
    cases statement <;> rfl

/-- The first line that cannot be read ends the queueing and stays active. -/
theorem addLines_filed_error {line : String} {e : ReadError} (after : List String)
    (hread : ∀ line ∈ lines, ∃ statement, statement? (preprocess line) = .ok statement)
    (h : statement? (preprocess line) = .error e) :
    (filed ink path ceiling t [] results).addLines 1 (lines ++ line :: after) =
      ({ filed ink path ceiling t (statements 1 lines) results with
          reporter := reporterAt ink path (preprocess line) ((lines.length + 1 : Nat) : Int) },
        .error (.ofReadError ink e)) := by
  have hbefore : (filed ink path ceiling t [] results).addLines 1 lines =
      (filed ink path ceiling t ([] ++ statements 1 lines) results, .ok ()) :=
    addLines_filed (fun _ hq => nomatch hq) hread
  rw [addLines_append, hbefore, List.nil_append]
  simp only [Session.addLines, Session.add, h, activate_filed, Nat.add_comm 1]
  rfl

/-! ## What statements write -/

/-- The warning that a statement of a file gives: it assigns to one of the constants. -/
def notice (ink : Ink) (path : String) (q : Queued) : String :=
  match Session.target? q.term with
  | some name =>
    if name = "pi" ∨ name = "e" then
      (reporterAt ink path q.line q.number).warningReport (Session.bindsNothing ink q.line name)
    else ""
  | none => ""

/-- What statements with those traces write, one after the other: the warning and the trace of
each. -/
def transcript (ink : Ink) (path : String) (qs : List Queued) (traces : List (List Term)) :
    String :=
  String.join (List.zipWith (fun q trace => notice ink path q ++ Session.traceText trace) qs traces)

theorem transcript_cons (q : Queued) (qs : List Queued) (trace : List Term)
    (traces : List (List Term)) : transcript ink path (q :: qs) (trace :: traces) =
      notice ink path q ++ Session.traceText trace ++ transcript ink path qs traces := by
  rw [transcript, List.zipWith_cons_cons, String.join_cons]
  rfl

theorem warning_filed (ht : t.OfSession) (q : Queued) :
    ((filed ink path ceiling t queue results).activate q.line q.number).warning q =
      notice ink path q := by
  rw [activate_filed, Session.warning, notice]
  cases Session.target? q.term with
  | none => rfl
  | some name =>
    dsimp only
    by_cases hname : name = "pi" ∨ name = "e"
    · have hprotects : t.protects name = true := ht.protects_iff.2 hname
      rw [if_pos hname]
      exact if_pos hprotects
    · have hprotects : ¬ t.protects name = true := mt ht.protects_iff.1 hname
      rw [if_neg hname]
      exact if_neg hprotects

/-- A statement that is reduced writes its warning and its trace. -/
theorem reduceOne_filed {q : Queued} {trace : List Term} (ht : t.OfSession)
    (h : t.reduce patience ceiling q.term = (.ok trace, t')) :
    (filed ink path ceiling t queue results).reduceOne patience q =
      ⟨notice ink path q ++ Session.traceText trace,
        filed ink path ceiling t' queue (results ++ [trace]), .ok ()⟩ := by
  have hactive : ((filed ink path ceiling t queue results).activate q.line q.number).table.reduce
      patience ((filed ink path ceiling t queue results).activate q.line q.number).ceiling q.term =
        (.ok trace, t') := h
  have hidle : ((filed ink path ceiling t' queue (results ++ [trace])).activate q.line
      q.number).deactivate = filed ink path ceiling t' queue (results ++ [trace]) := by
    rw [Session.deactivate_activate, deactivate_filed]
  simp only [Session.reduceOne, hactive, warning_filed ht]
  exact congrArg (fun s => Outcome.mk _ s _) hidle

/-- One that cannot be reduced writes its warning only, and its line stays active. -/
theorem reduceOne_filed_error {q : Queued} {error : ReductionError} (ht : t.OfSession)
    (h : (t.reduce patience ceiling q.term).1 = .error error) :
    (filed ink path ceiling t queue results).reduceOne patience q =
      ⟨notice ink path q, { filed ink path ceiling t queue results with
        reporter := reporterAt ink path q.line q.number }, .error (.ofReductionError error)⟩ := by
  obtain ⟨t', hreduce⟩ : ∃ t', t.reduce patience ceiling q.term = (.error error, t') :=
    ⟨_, Prod.ext h rfl⟩
  have hactive : ((filed ink path ceiling t queue results).activate q.line q.number).table.reduce
      patience ((filed ink path ceiling t queue results).activate q.line q.number).ceiling q.term =
        (.error error, t') := hreduce
  simp only [Session.reduceOne, hactive, warning_filed ht]
  rw [activate_filed]

/-- Which statements are queued makes no difference to those that are worked off. -/
theorem runQueue_queue (queue queue' after : List Queued) :
    (filed ink path ceiling t queue results).runQueue patience after =
      (filed ink path ceiling t queue' results).runQueue patience after := by
  cases after with
  | nil => rfl
  | cons q rest => rfl

/-- What statements that are reduced write stands in front of what the others write. -/
theorem runQueue_of_reduces {before : List Queued} {traces : List (List Term)}
    (h : Reduces patience ceiling t before traces t') (ht : t.OfSession) (after : List Queued) :
    (filed ink path ceiling t queue results).runQueue patience (before ++ after) =
      let rest := (filed ink path ceiling t' queue (results ++ traces)).runQueue patience after
      { rest with out := transcript ink path before traces ++ rest.out } := by
  -- induction on the reduction of the statements, each in a table of the same shape
  induction h generalizing queue results with
  | nil t =>
    rw [List.nil_append, List.append_nil]
    exact congrArg (fun out => Outcome.mk out _ _) String.empty_append.symm
  | @cons t t₁ t' q before trace traces hfirst hrest ih =>
    have hone : ({ filed ink path ceiling t queue results with
        queue := before ++ after } : Session).reduceOne patience q =
          ⟨notice ink path q ++ Session.traceText trace,
            filed ink path ceiling t₁ (before ++ after) (results ++ [trace]), .ok ()⟩ :=
      reduceOne_filed ht hfirst
    have ht₁ : t₁.OfSession := (Table.rewriting_of_reduce ht.standard hfirst).ofSession ht
    rw [List.cons_append, Session.runQueue, hone]
    dsimp only
    rw [ih ht₁, runQueue_queue (before ++ after) queue, transcript_cons, List.append_assoc,
      List.singleton_append]
    exact congrArg (fun out => Outcome.mk out _ _) (String.append_assoc ..).symm

/-- Statements that are reduced keep the shape of the table. -/
theorem ofSession_of_reduces {qs : List Queued} {traces : List (List Term)}
    (h : Reduces patience ceiling t qs traces t') (ht : t.OfSession) : t'.OfSession := by
  induction h with
  | nil => exact ht
  | cons hfirst _ ih => exact ih ((Table.rewriting_of_reduce ht.standard hfirst).ofSession ht)

/-- Statements are worked off to their end, or up to the first that has no normal form under the
ceiling; its line is the active one then. -/
theorem runQueue_filed (ink : Ink) (path : String) (queue : List Queued)
    (results : List (List Term)) (ht : t.OfSession) (qs : List Queued) :
    (∃ traces t', Reduces patience ceiling t qs traces t' ∧
      ((filed ink path ceiling t queue results).runQueue patience qs).out =
        transcript ink path qs traces ∧
      ((filed ink path ceiling t queue results).runQueue patience qs).result = .ok ()) ∨
    ∃ before q rest traces t' trace, qs = before ++ q :: rest ∧
      Reduces patience ceiling t before traces t' ∧
      (t'.reduce patience ceiling q.term).1 = .error (ceiling.error trace) ∧
      (filed ink path ceiling t queue results).runQueue patience qs =
        ⟨transcript ink path before traces ++ notice ink path q,
          { filed ink path ceiling t' rest (results ++ traces) with
            reporter := reporterAt ink path q.line q.number },
          .error (.ofReductionError (ceiling.error trace))⟩ := by
  rcases Session.runQueue_cases (filed ink path ceiling t queue results) patience qs with
    ⟨hresult, ⟨traces, hreduces, -⟩, -⟩ |
      ⟨q, error, -, ⟨before, traces, hqs, hreduces, -⟩, hfails, -⟩
  · obtain ⟨t', hreduces⟩ : ∃ t', Reduces patience ceiling t qs traces t' := ⟨_, hreduces⟩
    have hrun : (filed ink path ceiling t queue results).runQueue patience (qs ++ []) = _ :=
      runQueue_of_reduces hreduces ht []
    refine .inl ⟨traces, t', hreduces, ?_, hresult⟩
    rw [List.append_nil] at hrun
    rw [hrun]
    exact String.append_empty
  · obtain ⟨t', rest, hqs, hreduces, hfails⟩ : ∃ t' rest, qs = before ++ q :: rest ∧
        Reduces patience ceiling t before traces t' ∧
        (t'.reduce patience ceiling q.term).1 = .error error := ⟨_, _, hqs, hreduces, hfails⟩
    have ht' := ofSession_of_reduces hreduces ht
    obtain ⟨trace, rfl⟩ := Table.error_of_reduce ht'.standard (Prod.ext hfails rfl)
    have hone : ({ filed ink path ceiling t' queue (results ++ traces) with
        queue := rest } : Session).reduceOne patience q =
          ⟨notice ink path q, { filed ink path ceiling t' rest (results ++ traces) with
            reporter := reporterAt ink path q.line q.number },
            .error (.ofReductionError (ceiling.error trace))⟩ :=
      reduceOne_filed_error ht' hfails
    refine .inr ⟨before, q, rest, traces, t', trace, hqs, hreduces, hfails, ?_⟩
    rw [hqs, runQueue_of_reduces hreduces ht, Session.runQueue, hone]

/-! ## The program -/

theorem start_filed (hpath : path ≠ Session.inputPath) (hnul : '\x00' ∉ path.toList)
    (text : String) : Session.start (reporter ink) path false ceiling (some text) =
      (filed ink path ceiling .default [] []).addLines 1 (Text.fileLines text) := by
  have hcontains : path.toList.contains '\x00' = false := by simpa using hnul
  simp only [Session.start, if_neg hpath, hcontains, Bool.false_eq_true, if_false]
  rfl

/-- A line that cannot be read is all that a file gives: it is reported, and the table is the one
that a session starts with. -/
theorem runFile_refused {text line : String} {before after : List String} {e : ReadError}
    (hpath : path ≠ Session.inputPath) (hnul : '\x00' ∉ path.toList)
    (hlines : Text.fileLines text = before ++ line :: after)
    (hread : ∀ l ∈ before, ∃ statement, statement? (preprocess l) = .ok statement)
    (h : statement? (preprocess line) = .error e) :
    (∃ d, Failure.ofReadError ink e = .diagnostic d ∧
      runFile ink patience ceiling path (some text) =
        ⟨(reporterAt ink path (preprocess line) ((before.length + 1 : Nat) : Int)).errorReport d,
          some (.exit (some 1))⟩) ∧
    ∃ s e', Session.start (reporter ink) path false ceiling (some text) = (s, .error e') ∧
      s.table = .default ∧ s.results = [] := by
  obtain ⟨d, hd, hshown⟩ := Session.diagnostic_of_statement? h ink
  rw [runFile, start_filed hpath hnul, hlines, addLines_filed_error after hread h, hd]
  refine ⟨⟨d, rfl, ?_⟩, _, _, rfl, rfl, rfl⟩
  exact (settle_fatal rfl hshown "").trans (by rw [String.empty_append])

/-- A file whose lines can be read comes down to its statements. -/
theorem runFile_queued {text : String} (hpath : path ≠ Session.inputPath)
    (hnul : '\x00' ∉ path.toList)
    (hread : ∀ line ∈ Text.fileLines text,
      ∃ statement, statement? (preprocess line) = .ok statement) :
    runFile ink patience ceiling path (some text) =
      match (filed ink path ceiling .default (statements 1 (Text.fileLines text)) []).runQueue
        patience (statements 1 (Text.fileLines text)) with
      | ⟨out, s, .error e⟩ => settle s out e
      | ⟨out, _, .ok ()⟩ => ⟨out, none⟩ := by
  have hlines : (filed ink path ceiling .default [] []).addLines 1 (Text.fileLines text) =
      (filed ink path ceiling .default ([] ++ statements 1 (Text.fileLines text)) [], .ok ()) :=
    addLines_filed (fun _ hq => nomatch hq) hread
  rw [runFile, start_filed hpath hnul, hlines, List.nil_append]
  rfl

/-- **A file is read as a whole or not at all, and worked off as far as its statements have normal
forms.** The file is one that can be opened. If one of its lines cannot be read, the first such line
is reported under its number and nothing else is written; the program ends with code 1 and no
statement has been reduced. If all its lines can be read, the statements are reduced one after the
other, and each writes its warning, if it assigns to one of the constants, and then its trace. If
that comes to their end, nothing else is written and the program ends without a failure. Otherwise
the next statement does not reach a normal form under the ceiling: its warning and its report are
written last, and the program ends with code 1. Without a ceiling each statement that is reached
must have a normal form. -/
theorem run_file_all_or_prefix (ink : Ink) (patience : Nat) (contents : String → Option String)
    (input : String) {args : List String} {text : String}
    (hargs : Arguments.parse args = .ok (.run (some path) ceiling))
    (hceiling : ceiling ≠ .empty) (hpath : path ≠ Session.inputPath)
    (hnul : '\x00' ∉ path.toList) (hcontents : contents path = some text) :
    let lines := Text.fileLines text
    let finished := run ink patience contents args input
    (∀ before line after e, lines = before ++ line :: after →
      (∀ l ∈ before, ∃ statement, statement? (preprocess l) = .ok statement) →
      statement? (preprocess line) = .error e →
      (∃ d, Failure.ofReadError ink e = .diagnostic d ∧
        finished =
          ⟨(reporterAt ink path (preprocess line) ((before.length + 1 : Nat) : Int)).errorReport d,
            some (.exit (some 1))⟩) ∧
      ∃ s e', Session.start (reporter ink) path false ceiling (some text) = (s, .error e') ∧
        s.table = .default ∧ s.results = []) ∧
    ((∀ line ∈ lines, ∃ statement, statement? (preprocess line) = .ok statement) →
      (ceiling = .unlimited → ∀ before q after traces t,
        statements 1 lines = before ++ q :: after →
        Reduces patience ceiling .default before traces t →
        (t.reduce patience ceiling q.term).1 ≠ .error .patience) →
      ∃ before after traces t, statements 1 lines = before ++ after ∧
        Reduces patience ceiling .default before traces t ∧
        (after = [] ∧ finished = ⟨transcript ink path before traces, none⟩ ∨
          ∃ q rest limit trace, after = q :: rest ∧ ceiling = .limited limit ∧
            (t.reduce patience ceiling q.term).1 = .error (.ceiling limit trace) ∧
            finished = ⟨transcript ink path before traces ++ notice ink path q ++
              (reporterAt ink path q.line q.number).errorReport (.ceiling ceiling trace),
              some (.exit (some 1))⟩)) := by
  have hrun : run ink patience contents args input =
      runFile ink patience ceiling path (some text) := by
    rw [run, hargs, ← hcontents]
  dsimp only
  rw [hrun]
  refine ⟨fun before line after e => runFile_refused hpath hnul, fun hread hends => ?_⟩
  rw [runFile_queued hpath hnul hread]
  rcases runQueue_filed ink path (statements 1 (Text.fileLines text)) []
      Table.ofSession_default (statements 1 (Text.fileLines text)) with
    ⟨traces, t', hreduces, hout, hresult⟩ |
      ⟨before, q, rest, traces, t', trace, hqs, hreduces, hfails, hqueue⟩
  · refine ⟨_, [], traces, t', (List.append_nil _).symm, hreduces, .inl ⟨rfl, ?_⟩⟩
    generalize (filed ink path ceiling .default (statements 1 (Text.fileLines text)) []).runQueue
      patience (statements 1 (Text.fileLines text)) = outcome at hout hresult ⊢
    obtain ⟨out, s, result⟩ := outcome
    cases hout
    cases hresult
    rfl
  · refine ⟨before, q :: rest, traces, t', hqs, hreduces, .inr ?_⟩
    rw [hqueue]
    cases ceiling with
    | unlimited => exact absurd hfails (hends rfl before q rest traces t' hqs hreduces)
    | empty => exact absurd rfl hceiling
    | limited limit =>
      exact ⟨q, rest, limit, trace, rfl, rfl, hfails,
        settle_fatal rfl (Reporter.excerptError?_ceiling _ _) _⟩

/-- Three files: the second line of the first cannot be read, and a line of each of the others needs
more than one rewrite; one of these assigns to a constant. -/
def files : String → Option String
  | "unreadable" => some "x = 1\ny = (\n)"
  | "unfinished" => some "x = 1\n\ny = x + 2 \nz = 3"
  | "constant" => some "pi = 1 + 1\n"
  | _ => none

/-- Under a ceiling of one rewrite the first file gives the report of its second line; the second
file gives the trace of its first line and the report of its third. -/
theorem run_file_all_or_prefix_of_files :
    (∃ d, run .plain 1 files ["unreadable", "--max-steps", "1"] "" =
      ⟨(reporterAt .plain "unreadable" "y = (" 2).errorReport d, some (.exit (some 1))⟩) ∧
    ∃ before q rest traces t trace,
      statements 1 (Text.fileLines "x = 1\n\ny = x + 2 \nz = 3") = before ++ q :: rest ∧
      Reduces 1 (.limited 1) .default before traces t ∧
      (t.reduce 1 (.limited 1) q.term).1 = .error (.ceiling 1 trace) ∧
      run .plain 1 files ["unfinished", "--max-steps", "1"] "" =
        ⟨transcript .plain "unfinished" before traces ++ notice .plain "unfinished" q ++
          (reporterAt .plain "unfinished" q.line q.number).errorReport
            (.ceiling (.limited 1) trace), some (.exit (some 1))⟩ := by
  constructor
  · have hargs : Arguments.parse ["unreadable", "--max-steps", "1"] =
        .ok (.run (some "unreadable") (.limited 1)) := by decide +kernel
    have hlines : Text.fileLines "x = 1\ny = (\n)" = ["x = 1"] ++ "y = (" :: [")"] := by decide
    have hread : ∀ l ∈ ["x = 1"], ∃ statement, statement? (preprocess l) = .ok statement := by
      intro l hl
      rw [List.mem_singleton.1 hl]
      exact ⟨_, by with_unfolding_all rfl⟩
    have hrun := run_file_all_or_prefix .plain 1 files "" hargs (by decide) (by decide)
      (by decide) rfl
    obtain ⟨⟨d, -, hfinished⟩, -⟩ := hrun.1 _ _ _ _ hlines hread (by with_unfolding_all rfl)
    exact ⟨d, hfinished⟩
  · have hargs : Arguments.parse ["unfinished", "--max-steps", "1"] =
        .ok (.run (some "unfinished") (.limited 1)) := by decide +kernel
    have hlines : Text.fileLines "x = 1\n\ny = x + 2 \nz = 3" =
        ["x = 1", "", "y = x + 2 ", "z = 3"] := by decide
    have hread : ∀ line ∈ Text.fileLines "x = 1\n\ny = x + 2 \nz = 3",
        ∃ statement, statement? (preprocess line) = .ok statement := by
      rw [hlines]
      simp only [List.forall_mem_cons]
      exact ⟨⟨_, by with_unfolding_all rfl⟩, ⟨_, by with_unfolding_all rfl⟩,
        ⟨_, by with_unfolding_all rfl⟩, ⟨_, by with_unfolding_all rfl⟩, fun _ h => nomatch h⟩
    have hfailed :
        (run .plain 1 files ["unfinished", "--max-steps", "1"] "").failure.isSome = true := by
      decide +kernel
    have hrun := run_file_all_or_prefix .plain 1 files "" hargs (by decide) (by decide)
      (by decide) rfl
    obtain ⟨before, after, traces, t, hqs, hreduces, ⟨-, hend⟩ | hend⟩ :=
      hrun.2 hread (fun h => nomatch h)
    · rw [hend] at hfailed
      cases hfailed
    · obtain ⟨q, rest, limit, trace, rfl, hlimit, hfails, hend⟩ := hend
      cases hlimit
      exact ⟨before, q, rest, traces, t, trace, hqs, hreduces, hfails, hend⟩

/-- What the third file gives is more than the report of its only statement, which has no normal
form under that ceiling: the warning stands in front of it. -/
theorem constant_file_warns_before_report : ∃ q trace,
    statements 1 (Text.fileLines "pi = 1 + 1\n") = [q] ∧
    (Table.default.reduce 1 (.limited 1) q.term).1 = .error (.ceiling 1 trace) ∧
    (run .plain 1 files ["constant", "--max-steps", "1"] "").out ≠
      (reporterAt .plain "constant" q.line q.number).errorReport
        (.ceiling (.limited 1) trace) := by
  refine ⟨_, _, by with_unfolding_all rfl, by with_unfolding_all rfl, ?_⟩
  decide +kernel

end Program

end TermCalc
