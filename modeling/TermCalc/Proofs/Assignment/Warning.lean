import TermCalc.Proofs.Reduction.Bindings
import TermCalc.Proofs.Session.Reachable

/-!
# Assignments bind or warn

Before a statement that assigns to a name is reduced, a session writes a warning if the name is
protected. Whether the name is bound turns out during the reduction. In a session both come to the
same for an assignment of two operands: the two constants are protected, and no scan binds a term in
which one of them still occurs. Any other name is bound once the constants are gone, since no rule
ahead of the assignment touches the shape `x = d`.

An application of `$let` to more or fewer operands counts as an assignment for the warning, but the
operation does not apply to it. It can neither bind its name nor warn of it.

## Main definitions

* `Session.constantReport s q x`: the warning that the statement `q` assigns to the constant `x`
* `Session.written s trace`: what a session writes of a trace

## Main results

* `OfSession.boundIn_eq`: a finished run has made the bindings of the terms of its trace
* `Rewriting.binds_name`: on the way an assignment to another name than a constant binds it
* `assignment_binds_or_warns`: what is written of an assignment, and what it binds
-/

namespace TermCalc

namespace Table

variable {t t' : Table} {v w d : Term} {x : String}

/-! ## The bindings of a run in a session -/

/-- In a session a scan has made the bindings of its term when it ends at a rule. -/
theorem FirstChange.madeAt_succ (ht : t.OfSession) {place : Nat} (h : t.FirstChange v place w) :
    t.madeAt v (place + 1) = v.bindings := by
  rw [madeAt_eq, ht.flatMap_take]
  rcases h.place_cases ht with ⟨hplace, hbindings⟩ | ⟨hplace, hbindings⟩
  · rw [hbindings, if_neg (by omega)]
  · rw [hbindings, if_pos (by omega)]

/-- So it has when it has gone through the whole table. -/
theorem OfSession.madeAt_of_reaches (ht : t.OfSession) (h : ∀ k, t.Reaches v k) :
    t.madeAt v t.rules.length = v.bindings := by
  rw [madeAt_eq, ht.flatMap_take, if_pos ht.two_lt_length, ht.bindings_of_reaches (h 2)]

/-- A run that ends with a normal form has made the bindings of the terms of its trace. -/
theorem OfSession.boundIn_eq (ht : t.OfSession) {n : Nat} (h : (t.run n v).ending = .normal) :
    t.boundIn n v = (t.run n v).trace.flatMap Term.bindings := by
  induction n generalizing t v with
  | zero =>
    rcases scan_cases ht.standard v with ⟨hscan, hreaches⟩ | ⟨place, w, hscan, -⟩
    · rw [boundIn_of_scan_visited 0 hscan, ht.madeAt_of_reaches hreaches,
        run_of_scan_unchanged 0 hscan, List.flatMap_singleton]
    · rw [run_zero_of_scan_changed hscan] at h
      cases h
  | succ n ih =>
    rcases scan_cases ht.standard v with ⟨hscan, hreaches⟩ | ⟨place, w, hscan, hfirst⟩
    · rw [boundIn_of_scan_visited (n + 1) hscan, ht.madeAt_of_reaches hreaches,
        run_of_scan_unchanged (n + 1) hscan, List.flatMap_singleton]
    · rw [run_succ_of_scan_changed n hscan] at h ⊢
      rw [boundIn_succ_of_scan_changed n hscan, hfirst.madeAt_succ ht, Run.cons,
        List.flatMap_cons]
      congr 1
      refine ih ?_ h
      rw [hfirst.visited_eq ht]
      exact ht.bindAll_bindings v

/-- No run in a session binds a constant. -/
theorem OfSession.ne_of_mem_boundIn (ht : t.OfSession) {n : Nat} {b : Binding}
    (h : (t.run n v).ending = .normal) (hb : b ∈ t.boundIn n v) :
    b.name ≠ "pi" ∧ b.name ≠ "e" := by
  rw [ht.boundIn_eq h] at hb
  obtain ⟨u, -, hb⟩ := List.mem_flatMap.1 hb
  exact ne_of_mem_bindings hb

/-! ## An assignment to another name than a constant -/

/-- The rules ahead of the assignment give a constant. -/
theorem OfSession.met?_of_lt (ht : t.OfSession) {place : Nat} (hplace : place < 2) (v : Term) :
    ∃ name c, t.met? v place = some (.substitution name (.const c)) ∧
      (name = "pi" ∨ name = "e") := by
  match place with
  | 0 => exact ⟨"pi", _, ht.met?_zero, .inl rfl⟩
  | 1 => exact ⟨"e", _, ht.met?_one, .inr rfl⟩

/-- The assignment itself is among the assignments of its term. -/
theorem mem_assignments_assign (x : String) (d : Term) :
    ⟨x, d⟩ ∈ (Term.binary "$let" (.sym x) d).assignments := by
  have hhere : Operation.assigned (.sym "$let") [.sym x, d] = [⟨x, d⟩] := rfl
  rw [Term.binary, Term.assignments, hhere]
  simp

/-- A scan that ends at a constant leaves an assignment to another name with its name. -/
theorem FirstChange.assign_of_lt (ht : t.OfSession) {place : Nat} (hplace : place < 2)
    (hpi : x ≠ "pi") (he : x ≠ "e") (h : t.FirstChange (.binary "$let" (.sym x) d) place w) :
    ∃ d', w = .binary "$let" (.sym x) d' := by
  obtain ⟨-, r, hr, -, rfl⟩ := h
  obtain ⟨name, c, hmet, hname⟩ := ht.met?_of_lt hplace (.binary "$let" (.sym x) d)
  rw [hmet, Option.some.injEq] at hr
  subst hr
  have hx : x ≠ name := by
    rcases hname with rfl | rfl
    · exact hpi
    · exact he
  have hlet : "$let" ≠ name := by
    rcases hname with rfl | rfl <;> decide
  rw [(Rule.Standard.substitution name (.const c)).output_assign]
  simp only [Rule.output_substitution, Rule.substitute_sym_of_ne hx,
    Rule.substitute_sym_of_ne hlet]
  exact ⟨_, rfl⟩

/-- On the way to its normal form an assignment to another name than a constant binds the name. -/
theorem Rewriting.binds_name {trace : List Term} (h : Rewriting t trace t') (ht : t.OfSession)
    (hpi : x ≠ "pi") (he : x ≠ "e") (hhead : trace.head? = some (.binary "$let" (.sym x) d)) :
    ∃ v ∈ trace, ∃ b ∈ v.bindings, b.name = x := by
  -- induction on the rewriting: until a scan gets past the constants the term keeps its shape
  induction h generalizing d with
  | @normal t v hreaches =>
    rw [List.head?_cons, Option.some.injEq] at hhead
    subst hhead
    refine ⟨_, List.mem_singleton_self _, ⟨x, d⟩, ?_, rfl⟩
    rw [ht.bindings_of_reaches (hreaches 2)]
    exact mem_assignments_assign x d
  | @step t t' v w vs place hfirst hrest ih =>
    rw [List.head?_cons, Option.some.injEq] at hhead
    subst hhead
    rcases hfirst.place_cases ht with ⟨hplace, -⟩ | ⟨-, hbindings⟩
    · obtain ⟨d', rfl⟩ := hfirst.assign_of_lt ht hplace hpi he
      have hvisited : (t.visited (.binary "$let" (.sym x) d) place).OfSession := by
        rwa [ht.visited_of_le (by omega)]
      obtain ⟨v, hv, hbinds⟩ := ih hvisited rfl
      exact ⟨v, List.mem_cons_of_mem _ hv, hbinds⟩
    · refine ⟨_, List.mem_cons_self, ⟨x, d⟩, ?_, rfl⟩
      rw [hbindings]
      exact mem_assignments_assign x d

/-- A finished run of an assignment to a name binds it if and only if it is not a constant. -/
theorem OfSession.exists_boundIn_iff (ht : t.OfSession) {n : Nat}
    (h : (t.run n (.binary "$let" (.sym x) d)).ending = .normal) :
    (∃ b ∈ t.boundIn n (.binary "$let" (.sym x) d), b.name = x) ↔ ¬ (x = "pi" ∨ x = "e") := by
  constructor
  · rintro ⟨b, hb, rfl⟩
    exact not_or.2 (ht.ne_of_mem_boundIn h hb)
  · intro hx
    obtain ⟨hpi, he⟩ := not_or.1 hx
    have hrewriting := rewriting_of_run ht.standard h
    obtain ⟨v, hv, b, hb, hname⟩ := hrewriting.binds_name ht hpi he (run_trace_head? n _ t)
    refine ⟨b, ?_, hname⟩
    rw [ht.boundIn_eq h]
    exact List.mem_flatMap.2 ⟨v, hv, hb⟩

end Table

/-! ## What is written -/

theorem Reporter.warningReport_ne_empty (r : Reporter) (d : Diagnostic) :
    r.warningReport d ≠ "" := by
  intro h
  have hlength := congrArg String.length h
  simp [Reporter.warningReport, String.length_append] at hlength

namespace Session

variable {s : Session} {q : Queued} {x : String} {patience : Nat}

/-- The warning that a statement assigns to the constant `x`. -/
def constantReport (s : Session) (q : Queued) (x : String) : String :=
  (s.activate q.line q.number).reporter.warningReport (bindsNothing s.reporter.ink q.line x)

/-- What is written of a trace: nothing in an interactive session. -/
def written (s : Session) (trace : List Term) : String :=
  if s.interactive then "" else traceText trace

/-- A statement that assigns to a constant is warned of. -/
theorem warning_activate (ht : s.table.OfSession) (htarget : target? q.term = some x) :
    (s.activate q.line q.number).warning q =
      if x = "pi" ∨ x = "e" then s.constantReport q x else "" := by
  have hprotects : (s.activate q.line q.number).table.protects x = true ↔ x = "pi" ∨ x = "e" :=
    ht.protects_iff
  simp only [warning, htarget, hprotects]
  rfl

/-- A statement that is reduced writes its warning, and then its trace. -/
theorem out_reduceOne {trace : List Term} {t : Table} (ht : s.table.OfSession)
    (htarget : target? q.term = some x)
    (h : s.table.reduce patience s.ceiling q.term = (.ok trace, t)) :
    (s.reduceOne patience q).out =
      (if x = "pi" ∨ x = "e" then s.constantReport q x else "") ++ s.written trace := by
  have hactive : (s.activate q.line q.number).table.reduce patience
      (s.activate q.line q.number).ceiling q.term = (.ok trace, t) := h
  simp only [reduceOne, hactive, warning_activate ht htarget]
  rfl

/-- A run writes what its first statement writes, and then what the others do. -/
theorem out_run {rest : List Queued} {trace : List Term} {t : Table}
    (hqueue : s.queue = q :: rest)
    (h : s.table.reduce patience s.ceiling q.term = (.ok trace, t)) :
    (s.run patience).out =
      ({ s with queue := rest }.reduceOne patience q).out ++
        (({ s with queue := rest }.reduceOne patience q).session.runQueue patience rest).out := by
  obtain ⟨hok, -, -⟩ := reduceOne_of_reduce (s := { s with queue := rest }) h
  rw [run, hqueue, runQueue]
  split
  · next out s' e heq =>
    rw [heq] at hok
    cases hok
  · next out s' heq => rw [heq]

/-! ## Binding or warning -/

/-- **An assignment binds or warns.** The next statement of a reachable session, which assigns to
`x`, is reduced. If it has two operands, then the warning is written if and only if no scan of the
reduction binds `x`. With another number of operands it is warned of if and only if `x` is a
constant, which no scan binds. The bindings are those that have made the table at the end. -/
theorem assignment_binds_or_warns {rest : List Queued} {trace : List Term} {t' : Table}
    (hs : s.Reachable) (hqueue : s.queue = q :: rest) (htarget : target? q.term = some x)
    (hreduce : s.table.reduce patience s.ceiling q.term = (.ok trace, t')) :
    let bound := s.table.boundIn (s.ceiling.rewrites patience) q.term
    let report := s.constantReport q x
    let one := { s with queue := rest }.reduceOne patience q
    (s.run patience).out = one.out ++ (one.session.runQueue patience rest).out ∧
      t' = s.table.bindAll bound ∧ report ≠ "" ∧
      ((∃ d, q.term = .binary "$let" (.sym x) d) →
        (one.out = report ++ s.written trace ↔ ∀ b ∈ bound, b.name ≠ x) ∧
          (one.out = s.written trace ↔ ∃ b ∈ bound, b.name = x)) ∧
      (x = "pi" ∨ x = "e" → one.out = report ++ s.written trace ∧ ∀ b ∈ bound, b.name ≠ x) ∧
      (¬ (x = "pi" ∨ x = "e") → one.out = s.written trace) := by
  intro bound report one
  have ht := hs.ofSession
  have hrun := Table.reduce_eq_ok hreduce
  have hending : (s.table.run (s.ceiling.rewrites patience) q.term).ending = .normal := by
    rw [hrun]
  have hreport : report ≠ "" := Reporter.warningReport_ne_empty _ _
  have hone : one.out = (if x = "pi" ∨ x = "e" then report else "") ++ s.written trace :=
    out_reduceOne (s := { s with queue := rest }) ht htarget hreduce
  -- the report is not empty, so what is written tells whether there was a warning
  have hwarned : one.out = report ++ s.written trace ↔ x = "pi" ∨ x = "e" := by
    rw [hone, String.append_left_inj]
    split_ifs with hx
    · simp [hx]
    · simp [hx, hreport.symm]
  have hsilent : one.out = s.written trace ↔ ¬ (x = "pi" ∨ x = "e") := by
    rw [hone, String.append_eq_right_iff]
    split_ifs with hx
    · simp [hx, hreport]
    · simp [hx]
  refine ⟨out_run hqueue hreduce, ?_, hreport, ?_,
    fun hx => ⟨hwarned.2 hx, fun b hb hname => ?_⟩, hsilent.2⟩
  · rw [← Table.table_run_eq_bindAll ht.standard, hrun]
  · rintro ⟨d, hd⟩
    have hbound : (∃ b ∈ bound, b.name = x) ↔ ¬ (x = "pi" ∨ x = "e") := by
      have hiff := ht.exists_boundIn_iff (x := x) (d := d) (hd ▸ hending)
      rwa [← hd] at hiff
    rw [hwarned, hsilent, hbound, ← not_iff_not, ← hbound]
    simp
  · obtain ⟨hpi, he⟩ := ht.ne_of_mem_boundIn hending hb
    exact not_or.2 ⟨hpi, he⟩ (hname ▸ hx)

/-- `pi = a` is warned of, and it binds nothing: `pi` has become its number when the assignment gets
its turn. -/
theorem assignment_to_pi_warns :
    let s := ((typed 0 []).add "pi = a" 1).1
    let q : Queued := ⟨1, "pi = a", .binary "$let" (.sym "pi") (.sym "a")⟩
    let trace := [q.term, .binary "$let" (.const Rule.piValue) (.sym "a")]
    s.Reachable ∧ s.queue = [q] ∧ target? q.term = some "pi" ∧
      s.table.reduce 1 s.ceiling q.term = (.ok trace, s.table) ∧
      (s.run 1).out = s.constantReport q "pi" ∧
      ∀ b ∈ s.table.boundIn (s.ceiling.rewrites 1) q.term, b.name ≠ "pi" := by
  intro s q trace
  have hs : s.Reachable := (reachable_typed 0 []).add "pi = a" 1
  have hqueue : s.queue = [q] := by with_unfolding_all rfl
  have htarget : target? q.term = some "pi" := rfl
  have hreduce : s.table.reduce 1 s.ceiling q.term = (.ok trace, s.table) := by
    with_unfolding_all rfl
  obtain ⟨hout, -, -, -, hconstant, -⟩ := assignment_binds_or_warns hs hqueue htarget hreduce
  obtain ⟨hone, hbound⟩ := hconstant (.inl rfl)
  refine ⟨hs, hqueue, htarget, hreduce, ?_, hbound⟩
  rw [hout, hone]
  have hwritten : s.written trace = "" := if_pos (by with_unfolding_all rfl)
  rw [hwritten, runQueue, String.append_empty, String.append_empty]

/-- The call `$let(x)` counts as an assignment to `x`, but the operation does not apply to one
operand: nothing is bound, and no warning is written. -/
theorem unary_assignment_neither_binds_nor_warns :
    let s := ((typed 0 []).add "$let(x)" 1).1
    let q : Queued := ⟨1, "$let(x)", .unary "$let" (.sym "x")⟩
    let bound := s.table.boundIn (s.ceiling.rewrites 0) q.term
    s.Reachable ∧ s.queue = [q] ∧ target? q.term = some "x" ∧ s.table.lookup? "$let" = none ∧
      s.table.reduce 0 s.ceiling q.term = (.ok [q.term], s.table) ∧
      (s.run 0).out = "" ∧ bound = [] ∧
      ¬ ((s.run 0).out = s.constantReport q "x" ++ s.written [q.term] ↔
        ∀ b ∈ bound, b.name ≠ "x") := by
  intro s q bound
  have hs : s.Reachable := (reachable_typed 0 []).add "$let(x)" 1
  have hqueue : s.queue = [q] := by with_unfolding_all rfl
  have hreduce : s.table.reduce 0 s.ceiling q.term = (.ok [q.term], s.table) := by
    with_unfolding_all rfl
  have hwritten : s.written [q.term] = "" := if_pos (by with_unfolding_all rfl)
  have hone : ({ s with queue := [] }.reduceOne 0 q).out =
      (if "x" = "pi" ∨ "x" = "e" then s.constantReport q "x" else "") ++ s.written [q.term] :=
    out_reduceOne (s := { s with queue := [] }) hs.ofSession rfl hreduce
  have hout : (s.run 0).out = "" := by
    rw [out_run hqueue hreduce, hone, if_neg (by decide), hwritten]
    rfl
  have hrun := Table.reduce_eq_ok hreduce
  have hbound : bound = [] := by
    refine (hs.ofSession.boundIn_eq (by rw [hrun])).trans ?_
    rw [hrun]
    rfl
  have hlookup : s.table.lookup? "$let" = none := by with_unfolding_all rfl
  refine ⟨hs, hqueue, rfl, hlookup, hreduce, hout, hbound, fun hiff => ?_⟩
  have hwarned := hiff.2 (by simp [hbound])
  rw [hout, eq_comm, String.append_eq_empty_iff] at hwarned
  exact Reporter.warningReport_ne_empty _ _ hwarned.1

end Session

end TermCalc
