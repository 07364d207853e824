import TermCalc.Proofs.Session.Calls

/-!
# The calls of a session, move by move

A call can do several things to a session, and it can break off in between: running works off the
queue until a statement fails, and evaluating a line queues it, runs the queue and takes off a
trace. Each call is a sequence of moves that do one thing each. Between two moves the session can be
looked at, so what holds after every sequence of moves holds in the middle of a call too.

## Main definitions

* `Session.Move`: queueing a line, reducing the next statement, taking off a trace, setting the
  ceiling
* `Session.moves patience s ms`: the session after a sequence of moves
* `Session.movesOf patience s c`: the moves that a call makes

## Main results

* `run_eq_moves`: a run reduces one statement after the other
* `calls_eq_moves`: calls come to what their moves come to
* `exists_calls_of_start`: the lines of a file are queued by calls
-/

namespace TermCalc.Session

variable {s : Session} {patience : Nat}

/-! ## Moves -/

/-- What a session does at a time. -/
inductive Move where
  | add (line : String) (number : Int)
  | next
  | pop
  | limit (ceiling : Ceiling)

/-- The session after the statement at the head of its queue, if one waits, has been taken off and
reduced. -/
def next (patience : Nat) (s : Session) : Session :=
  match s.queue with
  | [] => s
  | q :: rest => ({ s with queue := rest }.reduceOne patience q).session

/-- The session after a move, whether it fails or not. -/
def move (patience : Nat) (s : Session) : Move → Session
  | .add line number => (s.add line number).1
  | .next => s.next patience
  | .pop => s.pop.1
  | .limit ceiling => { s with ceiling }

/-- The session after a sequence of moves. -/
def moves (patience : Nat) (s : Session) (ms : List Move) : Session :=
  ms.foldl (move patience) s

theorem moves_append (patience : Nat) (s : Session) (ms ns : List Move) :
    s.moves patience (ms ++ ns) = (s.moves patience ms).moves patience ns :=
  List.foldl_append

/-- What a reduction adds to the results: its trace, if it succeeds. -/
theorem results_reduceOne (patience : Nat) (q : Queued) :
    (s.reduceOne patience q).session.results =
      s.results ++ (s.table.reduce patience s.ceiling q.term).1.toOption.toList := by
  cases hresult : (s.reduceOne patience q).result with
  | ok u =>
    obtain ⟨trace, hreduce, hresults⟩ := reduceOne_ok hresult
    rw [hresults, hreduce]
    rfl
  | error e =>
    rw [(reduceOne_error hresult).2]
    cases hreduce : (s.table.reduce patience s.ceiling q.term).1 with
    | error error => exact (List.append_nil _).symm
    | ok trace =>
      have hok := (reduceOne_of_reduce (Prod.ext hreduce rfl)).1
      cases hresult.symm.trans hok

theorem next_eq (patience : Nat) {q : Queued} {rest : List Queued} (h : s.queue = q :: rest) :
    s.next patience = ({ s with queue := rest }.reduceOne patience q).session := by
  rw [next, h]

/-! ## The moves of a call -/

/-- The moves of a run: a reduction for each statement that it takes off the queue. -/
def runMoves (patience : Nat) (s : Session) : List Move :=
  List.replicate (s.queue.length - (s.run patience).session.queue.length) .next

/-- The moves that a call makes. Only a line that is a statement is followed by a run, and only a
run that does not fail is followed by taking off a trace. -/
def movesOf (patience : Nat) (s : Session) : Call → List Move
  | .add line number => [.add line number]
  | .run => s.runMoves patience
  | .evaluate line number =>
    .add line number ::
      match s.add line number with
      | (s, .ok (some _)) =>
        s.runMoves patience ++
          match (s.run patience).result with
          | .ok () => [.pop]
          | .error _ => []
      | _ => []
  | .pop => [.pop]
  | .lookup _ => []
  | .limit ceiling => [.limit ceiling]

/-- The moves that a sequence of calls makes. -/
def movesOfAll (patience : Nat) (s : Session) : List Call → List Move
  | [] => []
  | c :: cs => s.movesOf patience c ++ (s.call patience c).movesOfAll patience cs

/-- The statements of a queue are reduced one after the other, as many as are taken off. -/
theorem runQueue_eq_moves (patience : Nat) {queue : List Queued} (hqueue : s.queue = queue) :
    ∃ n, (s.runQueue patience queue).session = s.moves patience (List.replicate n .next) ∧
      n + (s.runQueue patience queue).session.queue.length = queue.length := by
  induction queue generalizing s with
  | nil =>
    refine ⟨0, ?_, rfl⟩
    rw [runQueue, ← hqueue]
    rfl
  | cons q rest ih =>
    have hnext := next_eq patience hqueue
    have hrest := queue_reduceOne (s := { s with queue := rest }) patience q
    rw [runQueue]
    split
    · next out s' e hone =>
      rw [hone] at hnext hrest
      refine ⟨1, hnext.symm, ?_⟩
      rw [List.length_cons, Nat.add_comm]
      exact congrArg (fun queue => queue.length + 1) hrest
    · next out s' hone =>
      rw [hone] at hnext hrest
      obtain ⟨n, hmoves, hlength⟩ := ih hrest
      refine ⟨n + 1, ?_, ?_⟩
      · rw [List.replicate_succ]
        exact hmoves.trans (congrArg (moves patience · _) hnext.symm)
      · rw [List.length_cons, ← hlength, Nat.add_right_comm]

/-- A run reduces one statement of the queue after the other. -/
theorem run_eq_moves (patience : Nat) (s : Session) :
    (s.run patience).session = s.moves patience (s.runMoves patience) := by
  obtain ⟨n, hmoves, hlength⟩ := runQueue_eq_moves patience (s := s) rfl
  have hn : s.queue.length - (s.run patience).session.queue.length = n := by
    rw [← hlength, run, Nat.add_sub_cancel]
  rw [runMoves, hn]
  exact hmoves

/-- A call comes to what its moves come to. -/
theorem call_eq_moves (patience : Nat) (s : Session) (c : Call) :
    s.call patience c = s.moves patience (s.movesOf patience c) := by
  cases c with
  | add line number => rfl
  | run => exact run_eq_moves patience s
  | pop => rfl
  | lookup name => rfl
  | limit ceiling => rfl
  | evaluate line number =>
    have hmove : s.move patience (.add line number) = (s.add line number).1 := rfl
    rw [call, movesOf, moves, List.foldl_cons, hmove, evaluate]
    split
    · next s' e hadd => rw [hadd]; rfl
    · next s' hadd => rw [hadd]; rfl
    · next s' v hadd =>
      have hrun := run_eq_moves patience s'
      rw [hadd]
      simp only
      split
      · next out s'' e heq =>
        rw [heq] at hrun
        rw [← moves, heq, List.append_nil]
        exact hrun
      · next out s'' heq =>
        rw [heq] at hrun
        rw [← moves, heq, moves_append, ← hrun]
        rfl

/-- Calls come to what their moves come to. -/
theorem calls_eq_moves (patience : Nat) (s : Session) (cs : List Call) :
    s.calls patience cs = s.moves patience (s.movesOfAll patience cs) := by
  induction cs generalizing s with
  | nil => rfl
  | cons c cs ih =>
    rw [movesOfAll, moves_append, ← call_eq_moves, ← ih]
    rfl

/-! ## Files -/

/-- Lines are queued by calls, up to the first that cannot be read. -/
theorem exists_calls_of_addLines (patience : Nat) (s : Session) (number : Nat)
    (lines : List String) : ∃ cs : List Call, (∀ c ∈ cs, ∃ line number, c = .add line number) ∧
      (s.addLines number lines).1 = s.calls patience cs := by
  induction lines generalizing s number with
  | nil => exact ⟨[], List.forall_mem_nil _, rfl⟩
  | cons line lines ih =>
    have hcall : s.call patience (.add (preprocess line) number) =
        (s.add (preprocess line) number).1 := rfl
    rw [addLines]
    split
    · next s' e hadd =>
      rw [hadd] at hcall
      exact ⟨[_], List.forall_mem_singleton.2 ⟨_, _, rfl⟩, hcall.symm⟩
    · next s' v hadd =>
      rw [hadd] at hcall
      obtain ⟨cs, hcs, hlines⟩ := ih s' (number + 1)
      refine ⟨.add (preprocess line) number :: cs,
        List.forall_mem_cons.2 ⟨⟨_, _, rfl⟩, hcs⟩, hlines.trans ?_⟩
      exact congrArg (calls patience · cs) hcall.symm

/-- A session that starts on a file or on typed input has queued lines and done nothing else. -/
theorem exists_calls_of_start (patience : Nat) (reporter : Reporter) (path : String)
    (interactive : Bool) (ceiling : Ceiling) (contents : Option String) :
    ∃ cs : List Call, (∀ c ∈ cs, ∃ line number, c = .add line number) ∧
      (start reporter path interactive ceiling contents).1 =
        (fresh (reporter.registerFile path) path interactive ceiling).calls patience cs := by
  have hnone : ∃ cs : List Call, (∀ c ∈ cs, ∃ line number, c = .add line number) ∧
      fresh (reporter.registerFile path) path interactive ceiling =
        (fresh (reporter.registerFile path) path interactive ceiling).calls patience cs :=
    ⟨[], List.forall_mem_nil _, rfl⟩
  simp only [start]
  split_ifs
  · exact hnone
  · exact hnone
  · exact hnone
  · cases contents with
    | none => exact hnone
    | some text => exact exists_calls_of_addLines patience _ 1 _

end TermCalc.Session
