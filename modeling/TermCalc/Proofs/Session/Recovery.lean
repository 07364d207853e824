import TermCalc.Proofs.Session.Reachable

/-!
# Sessions after a failure

What a failure leaves behind. A line that cannot be read changes nothing but the active line. A
statement that cannot be reduced is taken off the queue and stays active, and nothing that its scans
have bound survives: the session stands where the statements before it have brought it.

## Main definitions

* `Reporter.active? r path`: the active line of a file
* `Session.Reduces`: queued statements are reduced one after the other, from table to table
* `Session.Emptied`, `Session.Stopped`: the two ways in which a queue is worked off

## Main results

* `reduceOne_reduces`, `reduceOne_fails`: what one statement does to the session
* `runQueue_cases`: a queue is worked off to its end, or up to the first failure
* `failure_restores_session`: the state of a session after a failure, and without one
-/

namespace TermCalc

/-! ## The active line of a file -/

namespace Reporter

/-- The entry of a file among the active lines. -/
def active? (r : Reporter) (path : String) : Option ActiveLine :=
  r.active.find? (·.path == path)

theorem find?_putIn (a : ActiveLine) (entries : List ActiveLine) :
    (putIn a entries).find? (·.path == a.path) = some a := by
  induction entries with
  | nil => simp [putIn]
  | cons b rest ih =>
    rw [putIn]
    split
    · simp
    · next h => rw [List.find?_cons_of_neg (by simpa using h), ih]

@[simp] theorem active?_registerLine (r : Reporter) (path line : String) (number : Int) :
    (r.registerLine path line number).active? path = some ⟨path, some line, some number⟩ :=
  find?_putIn ⟨path, some line, some number⟩ r.active

@[simp] theorem active?_removeLine (r : Reporter) (path : String) :
    (r.removeLine path).active? path = some (.idle path) :=
  find?_putIn (.idle path) r.active

end Reporter

namespace Session

/-! ## One statement -/

variable {s : Session} {patience : Nat} {q : Queued}

/-- A statement that is reduced leaves the table of its reduction and its trace; what is queued
stays queued, and no line of the session is active. -/
theorem reduceOne_reduces {trace : List Term} {t : Table}
    (h : s.table.reduce patience s.ceiling q.term = (.ok trace, t)) :
    ∃ out reporter, s.reduceOne patience q =
      ⟨out, { s with table := t, results := s.results ++ [trace], reporter }, .ok ()⟩ ∧
        reporter.active? s.path = some (.idle s.path) := by
  have hactive : (s.activate q.line q.number).table.reduce patience
      (s.activate q.line q.number).ceiling q.term = (.ok trace, t) := h
  simp only [reduceOne, hactive]
  exact ⟨_, _, rfl, Reporter.active?_removeLine _ _⟩

/-- A statement that cannot be reduced stays the active line; nothing else has changed. -/
theorem reduceOne_fails {error : ReductionError} {t : Table}
    (h : s.table.reduce patience s.ceiling q.term = (.error error, t)) :
    ∃ out, s.reduceOne patience q =
      ⟨out, s.activate q.line q.number, .error (.ofReductionError error)⟩ := by
  have hactive : (s.activate q.line q.number).table.reduce patience
      (s.activate q.line q.number).ceiling q.term = (.error error, t) := h
  simp only [reduceOne, hactive]
  exact ⟨_, rfl⟩

/-- A line that cannot be queued changes neither the table nor the queue nor the results. -/
theorem add_error {line : String} {number : Int} {e : Failure}
    (h : (s.add line number).2 = .error e) :
    (s.add line number).1.table = s.table ∧ (s.add line number).1.queue = s.queue ∧
      (s.add line number).1.results = s.results := by
  revert h
  simp only [add]
  split
  · exact fun _ => ⟨rfl, rfl, rfl⟩
  · intro h
    cases h
  · intro h
    cases h

/-! ## The statements of a queue -/

/-- Statements are reduced one after the other, the first in the table `t` and each in the table
that the one before it leaves; these are their traces, and `t'` is the table at the end. -/
inductive Reduces (patience : Nat) (ceiling : Ceiling) :
    Table → List Queued → List (List Term) → Table → Prop
  | nil (t : Table) : Reduces patience ceiling t [] [] t
  | cons {t t' t'' : Table} {q : Queued} {rest : List Queued} {trace : List Term}
    {traces : List (List Term)}
    (hfirst : t.reduce patience ceiling q.term = (.ok trace, t'))
    (hrest : Reduces patience ceiling t' rest traces t'') :
    Reduces patience ceiling t (q :: rest) (trace :: traces) t''

/-- All statements of a queue have been reduced, and `s'` is the session then. -/
structure Emptied (s : Session) (patience : Nat) (queue : List Queued) (s' : Session) : Prop where
  reduces : ∃ traces, Reduces patience s.ceiling s.table queue traces s'.table ∧
    s'.results = s.results ++ traces
  queue_eq : s'.queue = []
  idle : queue ≠ [] ∨ s.reporter.active? s.path = some (.idle s.path) →
    s'.reporter.active? s.path = some (.idle s.path)

/-- The statement `q` of a queue was the first that could not be reduced, for the reason `error`, and
`s'` is the session then. -/
structure Stopped (s : Session) (patience : Nat) (queue : List Queued) (q : Queued)
    (error : ReductionError) (s' : Session) : Prop where
  reduces : ∃ before traces, queue = before ++ q :: s'.queue ∧
    Reduces patience s.ceiling s.table before traces s'.table ∧ s'.results = s.results ++ traces
  fails : (s'.table.reduce patience s.ceiling q.term).1 = .error error
  active : s'.reporter.active? s.path = some ⟨s.path, some q.line, some q.number⟩

/-- A queue is worked off to its end, or up to the first statement that cannot be reduced. -/
theorem runQueue_cases (s : Session) (patience : Nat) (queue : List Queued) :
    ((s.runQueue patience queue).result = .ok () ∧
        s.Emptied patience queue (s.runQueue patience queue).session) ∨
      ∃ q error, (s.runQueue patience queue).result = .error (.ofReductionError error) ∧
        s.Stopped patience queue q error (s.runQueue patience queue).session := by
  induction queue generalizing s with
  | nil =>
    left
    refine ⟨rfl, ⟨[], .nil _, (List.append_nil _).symm⟩, rfl, ?_⟩
    rintro (hne | hidle)
    · exact absurd rfl hne
    · exact hidle
  | cons q rest ih =>
    obtain ⟨result, t, hreduce⟩ : ∃ result t,
        s.table.reduce patience s.ceiling q.term = (result, t) := ⟨_, _, rfl⟩
    cases result with
    | error error =>
      obtain ⟨out, hone⟩ := reduceOne_fails (s := { s with queue := rest }) hreduce
      rw [runQueue, hone]
      exact .inr ⟨q, error, rfl, ⟨[], [], rfl, .nil _, (List.append_nil _).symm⟩,
        congrArg Prod.fst hreduce, Reporter.active?_registerLine _ _ _ _⟩
    | ok trace =>
      obtain ⟨out, reporter, hone, hidle⟩ := reduceOne_reduces (s := { s with queue := rest }) hreduce
      rw [runQueue, hone]
      rcases ih { s with table := t, results := s.results ++ [trace], queue := rest, reporter } with
        ⟨hresult, ⟨traces, hreduces, hresults⟩, hqueue, hcleared⟩ |
        ⟨p, error, hresult, ⟨before, traces, hqueue, hreduces, hresults⟩, hfails, hactive⟩
      · left
        refine ⟨hresult, ⟨trace :: traces, .cons hreduce hreduces, ?_⟩, hqueue, fun _ => ?_⟩
        · rw [hresults, List.append_assoc, List.singleton_append]
        · exact hcleared (.inr hidle)
      · right
        refine ⟨p, error, hresult, ⟨q :: before, trace :: traces, ?_, .cons hreduce hreduces, ?_⟩,
          hfails, hactive⟩
        · rw [List.cons_append, ← hqueue]
        · rw [hresults, List.append_assoc, List.singleton_append]

/-- **What a failure leaves behind.** If a line cannot be queued, the table, the queue and the results
stay as they are. If a run fails, the statements `before` the failing statement `q` have been
reduced one after the other: the table is the one that the last of them has left, the results have
gained their traces and nothing else, the queue holds what comes after `q`, and `q` is the active
line. If a run does not fail, all statements have been reduced in this way, the queue is empty, and
unless it was empty before no line is active. -/
theorem failure_restores_session (s : Session) (patience : Nat) :
    (∀ line number e, (s.add line number).2 = .error e →
      (s.add line number).1.table = s.table ∧ (s.add line number).1.queue = s.queue ∧
        (s.add line number).1.results = s.results) ∧
    let s' := (s.run patience).session
    (∀ e, (s.run patience).result = .error e →
      ∃ before q traces error, s.queue = before ++ q :: s'.queue ∧
        Reduces patience s.ceiling s.table before traces s'.table ∧
        s'.results = s.results ++ traces ∧
        (s'.table.reduce patience s.ceiling q.term).1 = .error error ∧
        e = .ofReductionError error ∧
        s'.reporter.active? s.path = some ⟨s.path, some q.line, some q.number⟩) ∧
    ((s.run patience).result = .ok () →
      ∃ traces, Reduces patience s.ceiling s.table s.queue traces s'.table ∧
        s'.results = s.results ++ traces ∧ s'.queue = [] ∧
        (s.queue ≠ [] → s'.reporter.active? s.path = some (.idle s.path))) := by
  refine ⟨fun line number e h => add_error h, ?_⟩
  rcases runQueue_cases s patience s.queue with
    ⟨hresult, ⟨traces, hreduces, hresults⟩, hqueue, hidle⟩ |
    ⟨q, error, hresult, ⟨before, traces, hqueue, hreduces, hresults⟩, hfails, hactive⟩
  · refine ⟨fun e h => ?_, fun _ => ⟨traces, hreduces, hresults, hqueue, fun hne => hidle (.inl hne)⟩⟩
    cases hresult.symm.trans h
  · refine ⟨fun e h => ?_, fun h => ?_⟩
    · obtain rfl : .ofReductionError error = e := Except.error.inj (hresult.symm.trans h)
      exact ⟨before, q, traces, error, hqueue, hreduces, hresults, hfails, rfl, hactive⟩
    · cases hresult.symm.trans h

/-- A session with the value 1 for `x` in which three lines wait; a statement may take three
rewrites, which do not suffice for the second line. -/
def waiting : Session :=
  ((({ typed 1 ["x = 1"] with ceiling := .limited 3 }.add "y = x" 1).1.add "x = x + 1" 2).1.add
    "z = 2" 3).1

theorem reachable_waiting : waiting.Reachable :=
  ((((reachable_typed 1 _).limit _).add _ _).add _ _).add _ _

/-- The second line binds `x` anew on its way and then fails: `y` has got its value, `x` keeps the one
that it had, and the third line is still queued. -/
theorem failure_restores_rebound_name :
    let s' := (waiting.run 1).session
    waiting.Reachable ∧ s'.lookup? "x" = some (.const 1) ∧ s'.lookup? "y" = some (.const 1) ∧
      (s'.table.reduce 1 (.limited 3)
        (.binary "$let" (.sym "x") (.binary "$add" (.sym "x") (.const 1)))).2.lookup? "x" =
          some (.binary "$add" (.sym "x") (.const 1)) ∧
      ∃ before q traces error, waiting.queue = before ++ q :: s'.queue ∧
        Reduces 1 waiting.ceiling waiting.table before traces s'.table ∧
        s'.results = waiting.results ++ traces ∧
        (s'.table.reduce 1 waiting.ceiling q.term).1 = .error error ∧
        s'.reporter.active? waiting.path = some ⟨waiting.path, some q.line, some q.number⟩ := by
  have hfailed : (waiting.run 1).result.toBool = false := by with_unfolding_all rfl
  obtain ⟨-, hfails, -⟩ := failure_restores_session waiting 1
  cases hresult : (waiting.run 1).result with
  | ok u =>
    rw [hresult] at hfailed
    cases hfailed
  | error e =>
    obtain ⟨before, q, traces, error, hqueue, hreduces, hresults, hq, -, hactive⟩ := hfails e hresult
    refine ⟨reachable_waiting, ?_, ?_, ?_, before, q, traces, error, hqueue, hreduces, hresults, hq,
      hactive⟩
    all_goals with_unfolding_all rfl

end Session

end TermCalc
