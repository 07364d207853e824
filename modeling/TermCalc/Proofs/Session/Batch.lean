import TermCalc.Proofs.Session.Evaluation
import TermCalc.Proofs.Text.Lines

/-!
# Files and typed lines

A file is read as a whole before its first statement is reduced, and the statements wait in the
queue under the numbers of their lines. Typed lines are read, reduced and answered one after the
other. Both come to the same: the same traces, the same table, and on a failure the same error at
the same line.

## Main definitions

* `Session.statements number lines`: what is queued of lines that are numbered from `number` on
* `Session.evaluateLines`: lines are evaluated one after the other until one fails

## Main results

* `addLines_reads`: a file whose lines can be read is queued as a whole
* `runQueue_statements`: working off the statements of lines and evaluating the lines go together
* `run_file_eq_evaluateLines`: a file and its lines, typed one after the other, come to the same
-/

namespace TermCalc.Session

variable {s s' : Session} {patience : Nat} {lines : List String}

/-! ## Queueing the lines of a file -/

/-- What is queued of lines that are numbered from `number` on. -/
def statements (number : Nat) : List String → List Queued
  | [] => []
  | line :: lines =>
    match statement? (preprocess line) with
    | .ok (some v) => ⟨number, preprocess line, v⟩ :: statements (number + 1) lines
    | _ => statements (number + 1) lines

/-- A statement with a number of its own goes to the end of the queue. -/
theorem enqueue_of_ne {q : Queued} {queue : List Queued} (h : ∀ p ∈ queue, p.number ≠ q.number) :
    enqueue q queue = queue ++ [q] := by
  induction queue with
  | nil => rfl
  | cons p queue ih =>
    obtain ⟨hp, hqueue⟩ := List.forall_mem_cons.1 h
    rw [enqueue, if_neg hp, ih hqueue, List.cons_append]

/-- A line that can be read is queued, if it holds a statement. -/
theorem add_reads {line : String} {number : Int} {statement : Option Term}
    (hqueue : ∀ q ∈ s.queue, q.number < number) (h : statement? line = .ok statement) :
    s.add line number =
      ({ s.deactivate with
          queue := s.queue ++ (statement.map (Queued.mk number line)).toList }, .ok statement) := by
  have hsession := deactivate_activate s line number
  cases statement with
  | none =>
    simp only [add, h, hsession, Option.map_none, Option.toList_none, List.append_nil]
    rfl
  | some v =>
    let q : Queued := ⟨number, line, v⟩
    have henqueue : enqueue q (s.activate line number).queue = s.queue ++ [q] :=
      enqueue_of_ne fun p hp => ne_of_lt (hqueue p hp)
    simp only [add, h]
    rw [henqueue]
    exact congrArg (fun s' : Session => ({ s' with queue := s.queue ++ [q] }, _)) hsession

/-- The lines of a file are queued behind those with smaller numbers, if they can be read. -/
theorem addLines_reads {number : Nat} (hqueue : ∀ q ∈ s.queue, q.number < number)
    (hread : ∀ line ∈ lines, ∃ statement, statement? (preprocess line) = .ok statement) :
    ∃ reporter, s.addLines number lines =
      ({ s with queue := s.queue ++ statements number lines, reporter }, .ok ()) := by
  induction lines generalizing s number with
  | nil => exact ⟨s.reporter, by rw [addLines, statements, List.append_nil]⟩
  | cons line lines ih =>
    obtain ⟨⟨statement, hstatement⟩, hread⟩ := List.forall_mem_cons.1 hread
    have hadd := add_reads hqueue hstatement
    have hnumber : ∀ q ∈ s.queue ++ (statement.map (Queued.mk number (preprocess line))).toList,
        q.number < (number + 1 : Nat) := by
      intro q hq
      rcases List.mem_append.1 hq with hq | hq
      · have hlt := hqueue q hq
        omega
      · obtain ⟨v, -, rfl⟩ := Option.map_eq_some_iff.1 (Option.mem_toList.1 hq)
        exact Int.lt_succ number
    obtain ⟨reporter, hlines⟩ := ih (s := { s.deactivate with
      queue := s.queue ++ (statement.map (Queued.mk number (preprocess line))).toList })
      hnumber hread
    refine ⟨reporter, ?_⟩
    rw [addLines, hadd]
    simp only [hlines, List.append_assoc, statements, hstatement]
    cases statement <;> rfl

/-! ## Typed lines -/

/-- What comes of lines that are evaluated one after the other: the traces, the session after them
and the failure that ended it, if one did. -/
structure Answered where
  traces : List (List Term)
  session : Session
  result : Except Failure Unit

/-- Evaluates lines that are numbered from `number` on, one after the other, until one fails. -/
def evaluateLines (s : Session) (patience : Nat) (number : Nat) : List String → Answered
  | [] => ⟨[], s, .ok ()⟩
  | line :: lines =>
    match s.evaluate patience (preprocess line) number with
    | ⟨_, s, .error e⟩ => ⟨[], s, .error e⟩
    | ⟨_, s, .ok trace⟩ =>
      let after := s.evaluateLines patience (number + 1) lines
      { after with traces := trace.toList ++ after.traces }

/-! ## One statement after the other -/

/-- The statements of lines have been worked off in `s` and the lines have been evaluated in `s'`,
with the same traces, the same table and, if one failed, the same failure at the same line. -/
structure SameCourse (s s' : Session) (number : Nat) (lines : List String) (batch : Outcome Unit)
    (typed : Answered) : Prop where
  traces : batch.session.results = s.results ++ typed.traces
  table : batch.session.table = typed.session.table
  result : batch.result = typed.result
  active : ∀ e, batch.result = .error e → ∃ k line, lines[k]? = some line ∧
    batch.session.reporter.active? s.path =
      some ⟨s.path, some (preprocess line), some ((number + k : Nat) : Int)⟩ ∧
    typed.session.reporter.active? s'.path =
      some ⟨s'.path, some (preprocess line), some ((number + k : Nat) : Int)⟩

/-- A line in front of those that have taken the same course, whose trace both sessions have. -/
theorem SameCourse.cons {s₀ s₀' : Session} {number : Nat} {line : String} {batch : Outcome Unit}
    {typed : Answered} (h : SameCourse s s' (number + 1) lines batch typed) (out : String)
    (trace : Option (List Term)) (hresults : s.results = s₀.results ++ trace.toList)
    (hpath : s.path = s₀.path) (hpath' : s'.path = s₀'.path) :
    SameCourse s₀ s₀' number (line :: lines) { batch with out := out ++ batch.out }
      { typed with traces := trace.toList ++ typed.traces } where
  traces := by rw [h.traces, hresults, List.append_assoc]
  table := h.table
  result := h.result
  active e he := by
    obtain ⟨k, l, hk, hbatch, htyped⟩ := h.active e he
    rw [hpath, Nat.add_right_comm] at hbatch
    rw [hpath', Nat.add_right_comm] at htyped
    exact ⟨k + 1, l, hk, hbatch, htyped⟩

/-- Working off the statements of lines and evaluating the lines, in sessions with the same table
and ceiling, go together. -/
theorem runQueue_statements {number : Nat} (htable : s.table = s'.table)
    (hceiling : s.ceiling = s'.ceiling) (hqueue : s'.queue = [])
    (hread : ∀ line ∈ lines, ∃ statement, statement? (preprocess line) = .ok statement) :
    SameCourse s s' number lines (s.runQueue patience (statements number lines))
      (s'.evaluateLines patience number lines) := by
  -- induction on the lines, for all sessions that agree at a line
  induction lines generalizing number s s' with
  | nil => exact ⟨(List.append_nil _).symm, htable, rfl, fun e he => nomatch he⟩
  | cons line lines ih =>
    obtain ⟨⟨statement, hstatement⟩, hread⟩ := List.forall_mem_cons.1 hread
    cases statement with
    | none =>
      have hrest : SameCourse s s'.deactivate (number + 1) lines _ _ :=
        ih htable hceiling hqueue hread
      have hline : SameCourse s s' number (line :: lines) _ _ :=
        hrest.cons "" none (List.append_nil _).symm rfl rfl
      simpa only [statements, hstatement, evaluateLines, evaluate_blank hstatement,
        String.empty_append] using hline
    | some v =>
      obtain ⟨result, t, hreduce⟩ : ∃ result t,
          s.table.reduce patience s.ceiling v = (result, t) := ⟨_, _, rfl⟩
      have hreduce' : s'.table.reduce patience s'.ceiling v = (result, t) := by
        rw [← htable, ← hceiling, hreduce]
      cases result with
      | error error =>
        obtain ⟨out, hone⟩ := reduceOne_fails
          (s := { s with queue := statements (number + 1) lines })
          (q := ⟨number, preprocess line, v⟩) hreduce
        simp only [statements, hstatement, runQueue, hone, evaluateLines,
          evaluate_fails hqueue hstatement hreduce']
        refine ⟨(List.append_nil _).symm, htable, rfl, fun e _ => ⟨0, line, rfl, ?_, ?_⟩⟩
        · exact Reporter.active?_registerLine _ _ _ _
        · exact Reporter.active?_registerLine _ _ _ _
      | ok trace =>
        obtain ⟨out, reporter, hone, -⟩ := reduceOne_reduces
          (s := { s with queue := statements (number + 1) lines })
          (q := ⟨number, preprocess line, v⟩) hreduce
        have hrest : SameCourse
            { s with table := t, queue := statements (number + 1) lines,
                     results := s.results ++ [trace], reporter }
            { s' with table := t }.deactivate (number + 1) lines _ _ :=
          ih rfl hceiling hqueue hread
        have hline : SameCourse s s' number (line :: lines) _ _ :=
          hrest.cons out (some trace) rfl rfl rfl
        simpa only [statements, hstatement, runQueue, hone, evaluateLines,
          evaluate_reduces hqueue hstatement hreduce'] using hline

/-! ## A file and its lines -/

/-- **A file and its lines, typed one after the other.** Lines without line ends, each of which can
be read or is blank, are the lines of a file. Any such file can be started; running it and
evaluating the lines, numbered from 1 on and without their trailing blanks, in a session on typed
input find the same traces, leave the same table and end with the same failure, if with one. On a
failure the same line with the same number is active in both. -/
theorem run_file_eq_evaluateLines
    (hlines : ∀ line ∈ lines, '\n' ∉ line.toList ∧ '\r' ∉ line.toList)
    (hread : ∀ line ∈ lines, ∃ statement, statement? line = .ok statement)
    {path : String} (hpath : path ≠ inputPath) (hnul : '\x00' ∉ path.toList)
    (reporter reporter' : Reporter) (ceiling : Ceiling) (patience : Nat) :
    (∃ text, Text.fileLines text = lines) ∧ ∀ text, Text.fileLines text = lines →
      let file := start reporter path false ceiling (some text)
      let batch := file.1.run patience
      let typed := (start reporter' inputPath true ceiling none).1.evaluateLines patience 1 lines
      file.2 = .ok () ∧ batch.session.results = typed.traces ∧
        batch.session.table = typed.session.table ∧ batch.result = typed.result ∧
        ∀ e, batch.result = .error e → ∃ k line, lines[k]? = some line ∧
          batch.session.reporter.active? path =
            some ⟨path, some (preprocess line), some ((1 + k : Nat) : Int)⟩ ∧
          typed.session.reporter.active? inputPath =
            some ⟨inputPath, some (preprocess line), some ((1 + k : Nat) : Int)⟩ := by
  refine ⟨⟨_, Text.fileLines_ofLines hlines⟩, ?_⟩
  rintro text rfl
  have hread' : ∀ line ∈ Text.fileLines text,
      ∃ statement, statement? (preprocess line) = .ok statement := by
    intro line hline
    obtain ⟨statement, hstatement⟩ := hread line hline
    exact ⟨statement, statement?_preprocess (hlines line hline).1 hstatement⟩
  let s := fresh (reporter.registerFile path) path false ceiling
  obtain ⟨queued, hadd⟩ : ∃ queued, s.addLines 1 (Text.fileLines text) =
      ({ s with queue := statements 1 (Text.fileLines text), reporter := queued }, .ok ()) :=
    addLines_reads (fun q hq => nomatch hq) hread'
  have hfile : start reporter path false ceiling (some text) =
      ({ s with queue := statements 1 (Text.fileLines text), reporter := queued }, .ok ()) := by
    have hcontains : path.toList.contains '\x00' = false := by simpa using hnul
    simp only [start, if_neg hpath, hcontains, Bool.false_eq_true, if_false]
    exact hadd
  have hcourse : SameCourse
      { s with queue := statements 1 (Text.fileLines text), reporter := queued }
      (start reporter' inputPath true ceiling none).1 1 (Text.fileLines text)
      (run { s with queue := statements 1 (Text.fileLines text), reporter := queued } patience) _ :=
    runQueue_statements rfl rfl rfl hread'
  rw [hfile]
  exact ⟨rfl, hcourse.traces, hcourse.table, hcourse.result, hcourse.active⟩

/-- A run of a file with a note between two statements, the second of which needs three rewrites and
may take two. -/
def noted : Outcome Unit :=
  (start ⟨.plain, true, []⟩ "f" false (.limited 2)
    (some "x = 1 \n-- a note\r\ny = x + 2 + 3")).1.run 1

/-- In the file and typed, it is the third line that fails, after the trace of the first and with
`x` bound. -/
theorem run_file_eq_evaluateLines_of_ceiling :
    let lines := ["x = 1 ", "-- a note", "y = x + 2 + 3"]
    let session := (start ⟨.plain, true, []⟩ inputPath true (.limited 2) none).1
    let typed := session.evaluateLines 1 1 lines
    noted.session.results.length = 1 ∧
      (noted.session.lookup? "x").any (Term.equivalent (.const 1)) = true ∧
      (noted.session.lookup? "y").isNone = true ∧ noted.result.toBool = false ∧
      noted.session.results = typed.traces ∧ noted.session.table = typed.session.table ∧
      noted.result = typed.result ∧
      ∃ k line, lines[k]? = some line ∧
        noted.session.reporter.active? "f" =
          some ⟨"f", some (preprocess line), some ((1 + k : Nat) : Int)⟩ ∧
        typed.session.reporter.active? inputPath =
          some ⟨inputPath, some (preprocess line), some ((1 + k : Nat) : Int)⟩ := by
  have hlines : ∀ line ∈ ["x = 1 ", "-- a note", "y = x + 2 + 3"],
      '\n' ∉ line.toList ∧ '\r' ∉ line.toList :=
    List.all_iff_forall_prop.1 (by decide)
  have hread : ∀ line ∈ ["x = 1 ", "-- a note", "y = x + 2 + 3"],
      ∃ statement, statement? line = .ok statement := by
    have hall : ∀ line ∈ ["x = 1 ", "-- a note", "y = x + 2 + 3"],
        (statement? line).toBool = true :=
      List.all_iff_forall_prop.1 (by with_unfolding_all rfl)
    intro line hline
    cases hstatement : statement? line with
    | error e =>
      have hok := hall line hline
      rw [hstatement] at hok
      cases hok
    | ok statement => exact ⟨statement, rfl⟩
  have hfailed : noted.result.toBool = false := by decide +kernel
  have hpath : "f" ≠ inputPath := by decide
  obtain ⟨-, hsame⟩ := run_file_eq_evaluateLines hlines hread hpath (by decide)
    ⟨.plain, true, []⟩ ⟨.plain, true, []⟩ (.limited 2) 1
  obtain ⟨-, htraces, htable, hresult, hactive⟩ := hsame
    "x = 1 \n-- a note\r\ny = x + 2 + 3" (by decide)
  cases herror : noted.result with
  | ok u =>
    rw [herror] at hfailed
    cases hfailed
  | error e =>
    refine ⟨?_, ?_, ?_, rfl, htraces, htable, herror ▸ hresult, hactive e herror⟩
    all_goals decide +kernel

end TermCalc.Session
