import TermCalc.Proofs.Session.Recovery
import TermCalc.Proofs.Term.Parser
import TermCalc.Proofs.Token.Trailing

/-!
# The evaluation of one line

What a line does to a session in which nothing is queued. The line is blank, it cannot be read, it
cannot be reduced or it is reduced; in each case the whole outcome is determined by how its
statement is read and reduced. Trailing blanks do not matter for how it is read.

## Main results

* `statement?_preprocess`: a line reads without its trailing blanks as it does with them
* `evaluate_unread`, `evaluate_blank`, `evaluate_fails`, `evaluate_reduces`: the four cases
-/

namespace TermCalc

/-! ## Active lines -/

namespace Reporter

/-- Of two entries for one path the second takes the place of the first. -/
theorem putIn_putIn {a b : ActiveLine} (h : a.path = b.path) (entries : List ActiveLine) :
    putIn b (putIn a entries) = putIn b entries := by
  induction entries with
  | nil => simp [putIn, h]
  | cons c rest ih =>
    by_cases hc : c.path = b.path
    · simp [putIn, h, hc]
    · simp [putIn, h, hc, ih]

theorem put_put {a b : ActiveLine} (h : a.path = b.path) (r : Reporter) :
    (r.put a).put b = r.put b :=
  congrArg (Reporter.mk r.ink r.fatal) (putIn_putIn h r.active)

end Reporter

namespace Session

variable {s : Session} {patience : Nat} {line : String} {number : Int} {v : Term}

@[simp] theorem deactivate_activate (s : Session) (line : String) (number : Int) :
    (s.activate line number).deactivate = s.deactivate :=
  congrArg (fun reporter => { s with reporter })
    (Reporter.put_put (a := ⟨s.path, some line, some number⟩) (b := .idle s.path) rfl s.reporter)

@[simp] theorem activate_deactivate (s : Session) (line : String) (number : Int) :
    s.deactivate.activate line number = s.activate line number :=
  congrArg (fun reporter => { s with reporter })
    (Reporter.put_put (a := .idle s.path) (b := ⟨s.path, some line, some number⟩) rfl s.reporter)

/-! ## How a line is read -/

/-- How a line is read depends on its significant tokens only, if it can be read. -/
theorem statement?_congr {line' : String} {tokens tokens' : List Token} {statement : Option Term}
    (htokens : Token.read? line = .ok tokens) (htokens' : Token.read? line' = .ok tokens')
    (hsame : Token.significant tokens' = Token.significant tokens)
    (h : statement? line = .ok statement) : statement? line' = .ok statement := by
  simp only [statement?, htokens, htokens', bind, Except.bind, hsame] at h ⊢
  split
  next hempty => rwa [if_pos hempty] at h
  next hempty =>
    rw [if_neg hempty] at h
    cases hparse : Term.parse? tokens with
    | error e =>
      rw [hparse] at h
      cases h
    | ok v =>
      have hparse' : Term.parse? tokens' = .ok v := by
        rw [Term.parse?_eq_ok_iff, hsame]
        exact Term.parse?_eq_ok_iff.1 hparse
      rw [hparse']
      rwa [hparse] at h

/-- A line that can be read reads without its trailing blanks as it does with them. -/
theorem statement?_preprocess {statement : Option Term} (hline : '\n' ∉ line.toList)
    (h : statement? line = .ok statement) : statement? (preprocess line) = .ok statement := by
  cases htokens : Token.read? line with
  | error e =>
    rw [statement?, htokens] at h
    cases h
  | ok tokens =>
    obtain ⟨tokens', htokens', hsame⟩ := Token.read?_trimEnd hline htokens
    exact statement?_congr htokens htokens' hsame h

/-! ## What a line does -/

/-- A line that cannot be read stays active. -/
theorem evaluate_unread {e : ReadError} (h : statement? line = .error e) :
    s.evaluate patience line number =
      ⟨"", s.activate line number, .error (.ofReadError s.reporter.ink e)⟩ := by
  simp only [evaluate, add, h]
  rfl

/-- A line without a statement leaves the session as it was. -/
theorem evaluate_blank (h : statement? line = .ok none) :
    s.evaluate patience line number = ⟨"", s.deactivate, .ok none⟩ := by
  simp only [evaluate, add, h, deactivate_activate]

/-- A statement is the only one in the queue when it is reduced. -/
theorem evaluate_of_statement {out : String} {s' : Session} {result : Except Failure Unit}
    (hqueue : s.queue = []) (h : statement? line = .ok (some v))
    (hone : s.deactivate.reduceOne patience ⟨number, line, v⟩ = ⟨out, s', result⟩) :
    s.evaluate patience line number =
      match result with
      | .error e => ⟨out, s', .error e⟩
      | .ok () =>
        let popped := { s' with queue := [] }.pop
        ⟨out, popped.1, popped.2.map some⟩ := by
  have hadd : s.add line number =
      ({ s.deactivate with queue := [⟨number, line, v⟩] }, .ok (some v)) := by
    have henqueue : enqueue ⟨number, line, v⟩ (s.activate line number).queue =
        [⟨number, line, v⟩] := congrArg (enqueue _) hqueue
    simp only [add, h, henqueue]
    exact congrArg (fun s : Session => ({ s with queue := [⟨number, line, v⟩] }, _))
      (deactivate_activate s line number)
  have hempty : { s.deactivate with queue := [] } = s.deactivate := by
    obtain ⟨_, _, _, _, _, _, _⟩ := s
    cases hqueue
    rfl
  simp only [evaluate, hadd, run, runQueue, hempty, hone]
  cases result with
  | error e => rfl
  | ok u => simp only [String.append_empty]

/-- A statement that cannot be reduced stays active. -/
theorem evaluate_fails {error : ReductionError} {t : Table} (hqueue : s.queue = [])
    (h : statement? line = .ok (some v))
    (hreduce : s.table.reduce patience s.ceiling v = (.error error, t)) :
    s.evaluate patience line number =
      ⟨(s.activate line number).warning ⟨number, line, v⟩, s.activate line number,
        .error (.ofReductionError error)⟩ := by
  have hactive : (s.activate line number).table.reduce patience (s.activate line number).ceiling v =
      (.error error, t) := hreduce
  have hone : s.deactivate.reduceOne patience ⟨number, line, v⟩ =
      ⟨(s.activate line number).warning ⟨number, line, v⟩, s.activate line number,
        .error (.ofReductionError error)⟩ := by
    simp only [reduceOne, activate_deactivate, hactive]
  exact evaluate_of_statement hqueue h hone

/-- The latest trace is taken off. -/
theorem pop_append (results : List (List Term)) (trace : List Term) :
    { s with results := results ++ [trace] }.pop = ({ s with results }, .ok trace) := by
  simp only [pop, List.getLast?_concat, List.dropLast_concat]

/-- A statement that is reduced leaves the table of its reduction and gives its trace. -/
theorem evaluate_reduces {trace : List Term} {t : Table} (hqueue : s.queue = [])
    (h : statement? line = .ok (some v))
    (hreduce : s.table.reduce patience s.ceiling v = (.ok trace, t)) :
    s.evaluate patience line number =
      ⟨(s.activate line number).warning ⟨number, line, v⟩ ++
          (if s.interactive then "" else traceText trace),
        { s with table := t }.deactivate, .ok (some trace)⟩ := by
  have hactive : (s.activate line number).table.reduce patience (s.activate line number).ceiling v =
      (.ok trace, t) := hreduce
  have hone : s.deactivate.reduceOne patience ⟨number, line, v⟩ =
      ⟨(s.activate line number).warning ⟨number, line, v⟩ ++
          (if s.interactive then "" else traceText trace),
        { s.deactivate with table := t, results := s.results ++ [trace] }, .ok ()⟩ := by
    have hsession := congrArg
      (fun s : Session => { s with table := t, results := s.results ++ [trace] })
      (deactivate_activate s line number)
    simp only [reduceOne, activate_deactivate, hactive]
    exact congrArg (fun s => Outcome.mk _ s _) hsession
  have hempty : { s.deactivate with table := t, queue := [] } =
      { s with table := t }.deactivate := by
    rw [← hqueue]
    rfl
  rw [evaluate_of_statement hqueue h hone]
  simp only [pop_append (s := { s.deactivate with table := t, queue := [] })]
  exact congrArg (fun s => Outcome.mk _ s _) hempty

end Session

end TermCalc
