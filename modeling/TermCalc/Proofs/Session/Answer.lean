import TermCalc.Proofs.Session.Evaluation

/-!
# The answer to a line

To evaluate a line is to queue its statement under the number of the line, to work off the whole
queue and to take off the latest trace. A number that waits already keeps its place in the queue.
The statements behind that place are then reduced after the line, and the answer is the trace of the
last of them.

## Main definitions

* `Session.ahead number queue`, `Session.behind number queue`: what waits ahead of the place of a
  number, and behind it

## Main results

* `enqueue_eq`: a statement is put between what is ahead of its number and what is behind it
* `Reduces.split`: a queue is worked off part by part
* `evaluate_ok`: what has been done when a line is answered
* `evaluate_answers_line_iff`: when the answer is the trace of the line
-/

namespace TermCalc.Session

variable {s : Session} {patience : Nat} {ceiling : Ceiling} {t t' : Table}
  {queue before after : List Queued} {traces : List (List Term)} {trace : List Term}

/-! ## The place of a number -/

/-- The statements that wait ahead of the one with that number; all of them if there is none. -/
def ahead (number : Int) (queue : List Queued) : List Queued :=
  queue.takeWhile (·.number != number)

/-- The statements that wait behind the one with that number; none if there is none. -/
def behind (number : Int) (queue : List Queued) : List Queued :=
  (queue.dropWhile (·.number != number)).tail

/-- A statement is put between what is ahead of its number and what is behind it. -/
theorem enqueue_eq (q : Queued) (queue : List Queued) :
    enqueue q queue = ahead q.number queue ++ q :: behind q.number queue := by
  induction queue with
  | nil => rfl
  | cons p queue ih =>
    by_cases h : p.number = q.number
    · simp [enqueue, ahead, behind, h]
    · rw [enqueue, if_neg h, ih]
      simp [ahead, behind, h]

/-! ## Parts of a queue -/

/-- A queue is worked off part by part. -/
theorem Reduces.split (h : Reduces patience ceiling t (before ++ after) traces t') :
    ∃ us vs s, traces = us ++ vs ∧ Reduces patience ceiling t before us s ∧
      Reduces patience ceiling s after vs t' := by
  induction before generalizing t traces with
  | nil => exact ⟨[], traces, t, rfl, .nil t, h⟩
  | cons q before ih =>
    cases h with
    | cons hfirst hrest =>
      obtain ⟨us, vs, s, rfl, hbefore, hafter⟩ := ih hrest
      exact ⟨_ :: us, vs, s, rfl, .cons hfirst hbefore, hafter⟩

theorem Reduces.ne_nil (h : Reduces patience ceiling t queue traces t') {q : Queued}
    (hq : q ∈ queue) : traces ≠ [] := by
  cases h with
  | nil => cases hq
  | cons => exact List.cons_ne_nil _ _

/-- The latest trace begins with the last statement. -/
theorem Reduces.head?_of_getLast? (h : Reduces patience ceiling t queue traces t') {q : Queued}
    (hq : queue.getLast? = some q) (htrace : traces.getLast? = some trace) :
    trace.head? = some q.term := by
  induction h with
  | nil t => cases hq
  | @cons t t' t'' p rest own later hfirst hrest ih =>
    cases hrest with
    | nil =>
      obtain rfl := Option.some.inj hq
      obtain rfl := Option.some.inj htrace
      exact Table.head?_of_reduce hfirst
    | cons hnext hlater =>
      rw [List.getLast?_cons_cons] at hq htrace
      exact ih hq htrace

/-! ## The answer -/

variable {line : String} {number : Int} {v : Term}

/-- When a line is answered its statement has been queued, the queue has been worked off and the
latest trace is the answer. -/
theorem evaluate_ok (hline : statement? line = .ok (some v))
    (h : (s.evaluate patience line number).result = .ok (some trace)) :
    ∃ traces,
      Reduces patience s.ceiling s.table (enqueue ⟨number, line, v⟩ s.queue) traces
        (s.evaluate patience line number).session.table ∧
      traces.getLast? = some trace ∧
      (s.evaluate patience line number).session.results = s.results ++ traces.dropLast ∧
      (s.evaluate patience line number).session.queue = [] := by
  obtain ⟨s₁, hs₁⟩ : ∃ s₁, ({ s.activate line number with
      queue := enqueue ⟨number, line, v⟩ s.queue } : Session).deactivate = s₁ := ⟨_, rfl⟩
  have hadd : s.add line number = (s₁, .ok (some v)) := by
    simp only [add, hline]
    exact congrArg (fun s => (s, _)) hs₁
  have htable : s₁.table = s.table := hs₁ ▸ rfl
  have hceiling : s₁.ceiling = s.ceiling := hs₁ ▸ rfl
  have hresults₁ : s₁.results = s.results := hs₁ ▸ rfl
  have hqueue₁ : s₁.queue = enqueue ⟨number, line, v⟩ s.queue := hs₁ ▸ rfl
  rcases runQueue_cases s₁ patience s₁.queue with
    ⟨hresult, ⟨traces, hreduces, hresults⟩, hqueue, -⟩ | ⟨q, error, hresult, -⟩
  · obtain ⟨out, s₂, hrun⟩ : ∃ out s₂, s₁.runQueue patience s₁.queue = ⟨out, s₂, .ok ()⟩ :=
      ⟨_, _, congrArg (Outcome.mk _ _) hresult⟩
    rw [hrun] at hreduces hresults hqueue
    simp only [evaluate, hadd, run, hrun] at h ⊢
    rw [htable, hceiling, hqueue₁] at hreduces
    rw [hresults₁] at hresults
    have hmem : ⟨number, line, v⟩ ∈ enqueue ⟨number, line, v⟩ s.queue := by
      rw [enqueue_eq]
      exact List.mem_append_right _ List.mem_cons_self
    obtain ⟨rest, own, rfl⟩ :=
      (List.eq_nil_or_concat' traces).resolve_left (hreduces.ne_nil hmem)
    rw [← List.append_assoc] at hresults
    have hpop : s₂.pop = ({ s₂ with results := s.results ++ rest }, .ok own) := by
      rw [← pop_append, ← hresults]
    rw [hpop] at h ⊢
    obtain rfl := Option.some.inj (Except.ok.inj h)
    refine ⟨rest ++ [own], hreduces, List.getLast?_concat, ?_, hqueue⟩
    rw [List.dropLast_concat]
  · simp only [evaluate, hadd, run] at h
    obtain ⟨out, s₂, hrun⟩ : ∃ out s₂, s₁.runQueue patience s₁.queue =
        ⟨out, s₂, .error (.ofReductionError error)⟩ := ⟨_, _, congrArg (Outcome.mk _ _) hresult⟩
    rw [hrun] at h
    cases h

/-- **The answer to a line.** Let a line that is a statement be answered, whatever waits in the
queue. The statements ahead of its number have been reduced first, the statement of the line in the
table that they have left, and then the statements behind it. The answer is the latest of all these
traces. So it is the trace of the line if nothing waits behind its number, and it begins with the
statement of the line exactly if the last statement behind the number is the same one. -/
theorem evaluate_answers_line_iff (hline : statement? line = .ok (some v))
    (h : (s.evaluate patience line number).result = .ok (some trace)) :
    let s' := (s.evaluate patience line number).session
    ∃ earlier own later t t',
      Reduces patience s.ceiling s.table (ahead number s.queue) earlier t ∧
      t.reduce patience s.ceiling v = (.ok own, t') ∧ own.head? = some v ∧
      Reduces patience s.ceiling t' (behind number s.queue) later s'.table ∧
      s'.queue = [] ∧ s'.results ++ [trace] = s.results ++ earlier ++ own :: later ∧
      (behind number s.queue = [] → trace = own) ∧
      (trace.head? = some v ↔ ∀ q ∈ (behind number s.queue).getLast?, q.term = v) := by
  intro s'
  obtain ⟨traces, hreduces, hlast, hresults, hqueue⟩ := evaluate_ok hline h
  rw [enqueue_eq] at hreduces
  obtain ⟨earlier, traces, t, rfl, hahead, hbehind⟩ := hreduces.split
  cases hbehind with
  | @cons _ t' _ _ _ own later hown hlater =>
    replace hlater : Reduces patience s.ceiling t' (behind number s.queue) later s'.table := hlater
    have hhead : own.head? = some v := Table.head?_of_reduce hown
    have hanswer : (own :: later).getLast? = some trace := by
      rwa [List.getLast?_append_of_ne_nil _ (List.cons_ne_nil _ _)] at hlast
    have hall : s'.results ++ [trace] = s.results ++ earlier ++ own :: later := by
      rw [hresults, List.append_assoc, List.append_assoc, List.dropLast_append_getLast? _ hlast]
    refine ⟨earlier, own, later, t, t', hahead, hown, hhead, hlater, hqueue, hall, ?_⟩
    -- either nothing is behind the number, or what is behind it has a latest trace of its own
    generalize behind number s.queue = rest at hlater
    cases hlater with
    | nil =>
      obtain rfl := Option.some.inj hanswer
      exact ⟨fun _ => rfl, iff_of_true hhead fun q hq => nomatch hq⟩
    | @cons _ _ _ p queue next others hnext hothers =>
      obtain ⟨q, hq⟩ := Option.isSome_iff_exists.1
        (List.getLast?_isSome.2 (List.cons_ne_nil p queue))
      rw [List.getLast?_cons_cons] at hanswer
      refine ⟨fun hnone => absurd hnone (List.cons_ne_nil _ _), ?_⟩
      rw [(Reduces.cons hnext hothers).head?_of_getLast? hq hanswer, hq]
      simp

/-- Two statements wait, and a line takes the place of the first: its trace is kept as a result, and
the answer is the trace of the second. -/
theorem evaluate_answers_later_line :
    let s := (((typed 0 []).add "a" 1).1.add "b" 2).1
    s.Reachable ∧ statement? "c" = .ok (some (.sym "c")) ∧
      (s.evaluate 0 "c" 1).result = .ok (some [.sym "b"]) ∧
      (s.evaluate 0 "c" 1).session.results = [[.sym "c"]] ∧
      behind 1 s.queue = [⟨2, "b", .sym "b"⟩] ∧
      [Term.sym "b"].head? ≠ some (.sym "c") := by
  intro s
  have hline : statement? "c" = .ok (some (.sym "c")) := by with_unfolding_all rfl
  have hanswer : (s.evaluate 0 "c" 1).result = .ok (some [.sym "b"]) := by with_unfolding_all rfl
  have hbehind : behind 1 s.queue = [⟨2, "b", .sym "b"⟩] := by with_unfolding_all rfl
  obtain ⟨_, _, _, _, _, -, -, -, -, -, -, -, hiff⟩ := evaluate_answers_line_iff hline hanswer
  have hresults : (s.evaluate 0 "c" 1).session.results = [[.sym "c"]] := by with_unfolding_all rfl
  refine ⟨((reachable_typed 0 _).add _ _).add _ _, hline, hanswer, hresults, hbehind, ?_⟩
  intro hhead
  have hsame := hiff.1 hhead ⟨2, "b", .sym "b"⟩ (by rw [hbehind]; rfl)
  exact absurd (Term.sym.inj hsame) (by decide)

end TermCalc.Session
