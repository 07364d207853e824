import TermCalc.Proofs.Session.Tables
import TermCalc.Session

/-!
# Reachable sessions

The states that a session can come into, whatever lines are queued, whichever of them cannot be read
and whichever statements fail. Every one of them has a table of the shape that sessions start with.

## Main definitions

* `Session.Reachable s`: the session comes about from one without statements
* `Session.typed patience lines`: the session in which those lines have been typed

## Main results

* `Reachable.run`, `Reachable.evaluate`, `reachable_start`: the composed operations stay within the
  reachable sessions
* `reduceOne_ok`: a statement that is reduced leaves its trace and the table of its reduction
* `Reachable.ofSession`: the invariant of the table
* `Reachable.statement_of_mem_queue`: the invariant of the queue
* `rewriting_of_reduceOne`: the trace of a statement rewrites it from table to table
-/

namespace TermCalc.Session

/-- The sessions that come about from one without statements: lines are queued, the statement at the
head of the queue is reduced, traces are taken off and the ceiling is set. -/
inductive Reachable : Session → Prop
  | fresh (reporter : Reporter) (path : String) (interactive : Bool) (ceiling : Ceiling) :
    Reachable (Session.fresh reporter path interactive ceiling)
  | add {s : Session} (h : Reachable s) (line : String) (number : Int) :
    Reachable (s.add line number).1
  | next {s : Session} {q : Queued} {rest : List Queued} (h : Reachable s)
    (hqueue : s.queue = q :: rest) (patience : Nat) :
    Reachable ({ s with queue := rest }.reduceOne patience q).session
  | pop {s : Session} (h : Reachable s) : Reachable s.pop.1
  | limit {s : Session} (h : Reachable s) (ceiling : Ceiling) : Reachable { s with ceiling }

variable {s : Session}

/-! ## Reducing a statement -/

/-- A statement that fails leaves the table and the results as they were. -/
theorem reduceOne_error {patience : Nat} {q : Queued} {e : Failure}
    (h : (s.reduceOne patience q).result = .error e) :
    (s.reduceOne patience q).session.table = s.table ∧
      (s.reduceOne patience q).session.results = s.results := by
  revert h
  simp only [reduceOne]
  split
  · exact fun _ => ⟨rfl, rfl⟩
  · intro h
    simp at h

/-- A statement that is reduced leaves its trace and the table of its reduction. -/
theorem reduceOne_ok {patience : Nat} {q : Queued} (h : (s.reduceOne patience q).result = .ok ()) :
    ∃ trace, s.table.reduce patience s.ceiling q.term =
        (.ok trace, (s.reduceOne patience q).session.table) ∧
      (s.reduceOne patience q).session.results = s.results ++ [trace] := by
  revert h
  simp only [reduceOne]
  split
  · intro h
    simp at h
  · next trace table hreduce => exact fun _ => ⟨trace, hreduce, rfl⟩

/-- A statement whose term can be reduced is reduced. -/
theorem reduceOne_of_reduce {patience : Nat} {q : Queued} {trace : List Term} {t : Table}
    (h : s.table.reduce patience s.ceiling q.term = (.ok trace, t)) :
    (s.reduceOne patience q).result = .ok () ∧ (s.reduceOne patience q).session.table = t ∧
      (s.reduceOne patience q).session.results = s.results ++ [trace] := by
  have hactive : (s.activate q.line q.number).table.reduce patience
      (s.activate q.line q.number).ceiling q.term = (.ok trace, t) := h
  simp only [reduceOne, hactive]
  exact ⟨trivial, rfl, rfl⟩

theorem queue_reduceOne (patience : Nat) (q : Queued) :
    (s.reduceOne patience q).session.queue = s.queue := by
  simp only [reduceOne]
  split <;> rfl

/-! ## Composed operations -/

theorem Reachable.runQueue {queue : List Queued} (h : s.Reachable) (hqueue : s.queue = queue)
    (patience : Nat) : (s.runQueue patience queue).session.Reachable := by
  induction queue generalizing s with
  | nil =>
    rw [Session.runQueue, ← hqueue]
    exact h
  | cons q rest ih =>
    have hnext := h.next hqueue patience
    have hrest := queue_reduceOne (s := { s with queue := rest }) patience q
    rw [Session.runQueue]
    split
    · next out s' e hreduce =>
      rw [hreduce] at hnext
      exact hnext
    · next out s' hreduce =>
      rw [hreduce] at hnext hrest
      exact ih hnext hrest

/-- Reducing the queue stays within the reachable sessions, also if a statement of it fails. -/
theorem Reachable.run (h : s.Reachable) (patience : Nat) : (s.run patience).session.Reachable :=
  h.runQueue rfl patience

/-- So does the evaluation of a line. -/
theorem Reachable.evaluate (h : s.Reachable) (patience : Nat) (line : String) (number : Int) :
    (s.evaluate patience line number).session.Reachable := by
  have hadd := h.add line number
  unfold Session.evaluate
  split
  · next s' e heq =>
    rw [heq] at hadd
    exact hadd
  · next s' heq =>
    rw [heq] at hadd
    exact hadd
  · next s' t heq =>
    rw [heq] at hadd
    have hrun := hadd.run patience
    split
    · next out s'' e heq =>
      rw [heq] at hrun
      exact hrun
    · next out s'' heq =>
      rw [heq] at hrun
      exact hrun.pop

theorem Reachable.addLines (h : s.Reachable) (number : Nat) (lines : List String) :
    (s.addLines number lines).1.Reachable := by
  induction lines generalizing s number with
  | nil => exact h
  | cons line lines ih =>
    have hadd := h.add (preprocess line) number
    rw [Session.addLines]
    split
    · next s' e heq =>
      rw [heq] at hadd
      exact hadd
    · next s' t heq =>
      rw [heq] at hadd
      exact ih hadd (number + 1)

/-- A session is reachable when it starts, on a file or on typed input. -/
theorem reachable_start (reporter : Reporter) (path : String) (interactive : Bool)
    (ceiling : Ceiling) (contents : Option String) :
    (start reporter path interactive ceiling contents).1.Reachable := by
  have hfresh := Reachable.fresh (reporter.registerFile path) path interactive ceiling
  simp only [start]
  split_ifs
  · exact hfresh
  · exact hfresh
  · exact hfresh
  · cases contents with
    | none => exact hfresh
    | some text => exact hfresh.addLines 1 _

/-- The session in which lines have been typed, each evaluated with at most `patience` rewrites. -/
def typed (patience : Nat) (lines : List String) : Session :=
  lines.foldl (fun s line => (s.evaluate patience line 0).session)
    (fresh ⟨.plain, false, []⟩ inputPath true .unlimited)

theorem reachable_typed (patience : Nat) (lines : List String) :
    (typed patience lines).Reachable := by
  apply List.foldlRecOn lines _ (Reachable.fresh _ _ _ _)
  intro s hs line _
  exact hs.evaluate patience line 0

/-! ## The invariants -/

theorem ofSession_reduceOne (h : s.table.OfSession) (patience : Nat) (q : Queued) :
    (s.reduceOne patience q).session.table.OfSession := by
  cases hresult : (s.reduceOne patience q).result with
  | error e =>
    rw [(reduceOne_error hresult).1]
    exact h
  | ok u =>
    obtain ⟨trace, hreduce, -⟩ := reduceOne_ok hresult
    exact (Table.rewriting_of_reduce h.standard hreduce).ofSession h

theorem table_add (line : String) (number : Int) : (s.add line number).1.table = s.table := by
  simp only [add]
  split <;> rfl

theorem table_pop : s.pop.1.table = s.table := by
  unfold pop
  split <;> rfl

theorem queue_pop : s.pop.1.queue = s.queue := by
  unfold pop
  split <;> rfl

/-- The table of a reachable session holds the builtin rules and then substitutions for other names
than those of the constants, and no name is renamed by two of them. -/
theorem Reachable.ofSession (h : s.Reachable) : s.table.OfSession := by
  -- only the reduction of a statement touches the table
  induction h with
  | fresh => exact Table.ofSession_default
  | add _ line number ih => rwa [table_add]
  | @next s q rest _ _ patience ih =>
    exact ofSession_reduceOne (s := { s with queue := rest }) ih patience q
  | pop _ ih => rwa [table_pop]
  | limit _ ceiling ih => exact ih

theorem mem_of_mem_enqueue {p q : Queued} {queue : List Queued} (h : p ∈ enqueue q queue) :
    p = q ∨ p ∈ queue := by
  induction queue with
  | nil => exact .inl (List.mem_singleton.1 h)
  | cons r queue ih =>
    rw [enqueue] at h
    split_ifs at h with hnumber
    · exact (List.mem_cons.1 h).imp_right (List.mem_cons_of_mem r)
    · rcases List.mem_cons.1 h with rfl | h
      · exact .inr List.mem_cons_self
      · exact (ih h).imp_right (List.mem_cons_of_mem r)

/-- Every statement that waits in a reachable session was read from its line. -/
theorem Reachable.statement_of_mem_queue (h : s.Reachable) :
    ∀ q ∈ s.queue, statement? q.line = .ok (some q.term) := by
  induction h with
  | fresh => exact fun q hq => nomatch hq
  | @add s _ line number ih =>
    cases hline : statement? line with
    | error e =>
      simp only [Session.add, hline]
      exact ih
    | ok statement =>
      cases statement with
      | none =>
        simp only [Session.add, hline]
        exact ih
      | some v =>
        intro q hq
        simp only [Session.add, hline] at hq
        rcases mem_of_mem_enqueue hq with rfl | hq
        · exact hline
        · exact ih q hq
  | @next s q rest _ hqueue patience ih =>
    rw [queue_reduceOne]
    exact fun p hp => ih p (hqueue ▸ List.mem_cons_of_mem q hp)
  | pop _ ih => rwa [queue_pop]
  | limit _ _ ih => exact ih

/-- The trace of a statement that is reduced begins with it and is a rewriting, from the table
before the statement to the one after it. -/
theorem rewriting_of_reduceOne {patience : Nat} {q : Queued} {trace : List Term}
    (hs : s.Reachable) (h : (s.reduceOne patience q).result = .ok ())
    (htrace : (s.reduceOne patience q).session.results.getLast? = some trace) :
    Table.Rewriting s.table trace (s.reduceOne patience q).session.table ∧
      trace.head? = some q.term := by
  obtain ⟨trace', hreduce, hresults⟩ := reduceOne_ok h
  obtain rfl : trace' = trace := by simpa [hresults] using htrace
  exact ⟨Table.rewriting_of_reduce hs.ofSession.standard hreduce, Table.head?_of_reduce hreduce⟩

end TermCalc.Session
