import TermCalc.Proofs.Reduction.Scan

/-!
# Reduction reaches a normal form

A reduction that comes to an end has rewritten its term step by step with the first rule that
changes it, and no rule of the table at the end changes the last term. Since assignments bind during
the scans, every step comes with the table that it leaves to the next one.

The last scan has changed the table too, so that it stays unchanged in a further scan is a property
of its own: the bindings of a normal form are such that they never give a name a rule that renames
it, if they did not do so in the last scan.

## Main definitions

* `Table.Rewriting t trace t'`: the trace is rewritten step by step from table `t` to table `t'`

## Main results

* `rewriting_of_reduce`: a finished reduction is such a rewriting
* `error_of_reduce`: one without a result was ended by its ceiling
* `Normal.scan_eq`: a normal form is left unchanged by every further scan
* `reduce_reaches_normal_form`: what a finished reduction gives
-/

namespace TermCalc.Table

variable {t t' : Table} {v w : Term}

/-- A rewriting of the terms of a trace, one after the other, from one table to another: each is
made by the first rule that changes the term before it, and no rule changes the last. A rule counts
as it is when the scan meets it, with the bindings of the rules ahead of it made. -/
inductive Rewriting : Table → List Term → Table → Prop
  | normal {t : Table} {v : Term} (h : ∀ k, t.Reaches v k) :
    Rewriting t [v] (t.visited v t.rules.length)
  | step {t t' : Table} {v w : Term} {vs : List Term} {place : Nat}
    (hstep : t.FirstChange v place w) (hrest : Rewriting (t.visited v place) (w :: vs) t') :
    Rewriting t (v :: w :: vs) t'

/-! ## Runs as rewritings -/

theorem run_of_scan_unchanged (n : Nat) (h : t.scan v 0 = .unchanged t') :
    t.run n v = ⟨[v], t', .normal⟩ := by
  rw [run, h]

theorem run_trace_head? (n : Nat) (v : Term) (t : Table) : (t.run n v).trace.head? = some v := by
  cases n <;> rw [run] <;> split <;> rfl

/-- A run of a standard table that ends with a normal form is a rewriting. -/
theorem rewriting_of_run {n : Nat} (ht : t.Standard) (h : (t.run n v).ending = .normal) :
    Rewriting t (t.run n v).trace (t.run n v).table := by
  -- induction on the rewrites that are left; each scan ends the run or takes one of them
  induction n generalizing t v with
  | zero =>
    rcases scan_cases ht v with ⟨hscan, hnormal⟩ | ⟨place, w, hscan, hfirst⟩
    · rw [run_of_scan_unchanged 0 hscan]
      exact .normal hnormal
    · rw [run, hscan] at h
      simp at h
  | succ n ih =>
    rcases scan_cases ht v with ⟨hscan, hnormal⟩ | ⟨place, w, hscan, hfirst⟩
    · rw [run_of_scan_unchanged (n + 1) hscan]
      exact .normal hnormal
    · have hrun : t.run (n + 1) v = ((t.visited v place).run n w).cons v := by
        rw [run, hscan]
      rw [hrun] at h ⊢
      have hrest := ih (ht.visited v place) h
      obtain ⟨vs, hvs⟩ := List.head?_eq_some_iff.1 (run_trace_head? n w (t.visited v place))
      simp only [Run.cons, hvs] at hrest ⊢
      exact .step hfirst hrest

theorem reduce_eq_ok {patience : Nat} {ceiling : Ceiling} {trace : List Term}
    (h : t.reduce patience ceiling v = (.ok trace, t')) :
    t.run (ceiling.rewrites patience) v = ⟨trace, t', .normal⟩ := by
  unfold reduce at h
  generalize t.run (ceiling.rewrites patience) v = run at h ⊢
  obtain ⟨vs, s, ending⟩ := run
  cases ending <;> simp_all

theorem head?_of_reduce {patience : Nat} {ceiling : Ceiling} {trace : List Term}
    (h : t.reduce patience ceiling v = (.ok trace, t')) : trace.head? = some v := by
  have hhead := run_trace_head? (ceiling.rewrites patience) v t
  rwa [reduce_eq_ok h] at hhead

/-- A reduction with a result is a rewriting. -/
theorem rewriting_of_reduce {patience : Nat} {ceiling : Ceiling} {trace : List Term}
    (ht : t.Standard) (h : t.reduce patience ceiling v = (.ok trace, t')) :
    Rewriting t trace t' := by
  have hrun := reduce_eq_ok h
  have hrewriting := rewriting_of_run (n := ceiling.rewrites patience) (v := v) ht (by rw [hrun])
  rwa [hrun] at hrewriting

/-! ## Reductions without a result -/

/-- No rule of a standard table fails in a run. -/
theorem ending_run_ne_failed (ht : t.Standard) (n : Nat) (v : Term) (e : OperandMismatch) :
    (t.run n v).ending ≠ .failed e := by
  induction n generalizing t v with
  | zero =>
    rcases scan_cases ht v with ⟨hscan, -⟩ | ⟨place, w, hscan, -⟩
    · rw [run_of_scan_unchanged 0 hscan]
      exact fun h => nomatch h
    · rw [run, hscan]
      exact fun h => nomatch h
  | succ n ih =>
    rcases scan_cases ht v with ⟨hscan, -⟩ | ⟨place, w, hscan, -⟩
    · rw [run_of_scan_unchanged (n + 1) hscan]
      exact fun h => nomatch h
    · rw [run, hscan]
      exact ih (ht.visited v place) w

/-- A reduction in a standard table has a result, or its ceiling ends it. -/
theorem error_of_reduce {patience : Nat} {ceiling : Ceiling} {error : ReductionError}
    (ht : t.Standard) (h : t.reduce patience ceiling v = (.error error, t')) :
    ∃ trace, error = ceiling.error trace := by
  have hending := ending_run_ne_failed ht (ceiling.rewrites patience) v
  unfold reduce at h
  cases hrun : (t.run (ceiling.rewrites patience) v).ending with
  | normal => simp [hrun] at h
  | failed e => exact absurd hrun (hending e)
  | unfinished =>
    simp only [hrun, Prod.mk.injEq, Except.error.injEq] at h
    exact ⟨_, h.1.symm⟩

/-! ## What no rule changes -/

/-- An operation of the visited table was there before. -/
theorem mem_of_mem_visited {k : Nat} {r : Rule} (h : r ∈ (t.visited v k).rules)
    (hop : r.isOperation = true) : r ∈ t.rules := by
  obtain ⟨j, hj, rfl⟩ := List.getElem_of_mem h
  rcases slot_visited (List.getElem?_eq_getElem hj) with ⟨q, hq, hslot⟩ | ⟨-, name, hslot⟩
  · have heq : q = (t.visited v k).rules[j] := by
      revert hslot hop
      generalize (t.visited v k).rules[j] = r
      cases q <;> cases r <;> simp [Rule.slot, Rule.isOperation]
    exact heq ▸ List.mem_of_getElem? hq
  · revert hslot hop
    generalize (t.visited v k).rules[j] = r
    cases r <;> simp [Rule.slot, Rule.isOperation]

/-- No rule changes a term exactly if no operation does and no rule renames one of its symbols. -/
theorem normal_iff : t.Normal v ↔
    (∀ r ∈ t.rules, r.isOperation = true → ¬ r.Changes v) ∧
      ∀ name, v.mentions name = true → t.renamers name = 0 := by
  constructor
  · intro h
    refine ⟨fun r hr _ => h r hr, fun name hname => renamers_eq_zero_iff.2 fun r hr => ?_⟩
    by_contra hren
    exact h r hr (Rule.changes_of_renames (by simpa using hren) hname)
  · rintro ⟨hop, hname⟩ r hr
    cases r with
    | operation => exact hop _ hr rfl
    | substitution name u =>
      intro hc
      obtain ⟨hren, hmentions⟩ := Rule.changes_substitution_iff.1 hc
      rw [renamers_eq_zero_iff.1 (hname name hmentions) _ hr] at hren
      exact Bool.noConfusion hren

/-- Standard rules bind the assignments of a term over and over. -/
theorem exists_flatMap_bindings_eq {rs : List Rule} (h : ∀ r ∈ rs, r.Standard) (v : Term) :
    ∃ m, (rs.flatMap fun r => r.bindings v) = (List.replicate m v.assignments).flatten := by
  induction rs with
  | nil => exact ⟨0, rfl⟩
  | cons r rs ih =>
    obtain ⟨m, hm⟩ := ih fun q hq => h q (List.mem_cons_of_mem _ hq)
    rw [List.flatMap_cons, hm]
    rcases (h r List.mem_cons_self).bindings_eq v with hb | hb
    · exact ⟨m + 1, by rw [hb, List.replicate_succ, List.flatten_cons]⟩
    · exact ⟨m, by rw [hb, List.nil_append]⟩

/-- If no rule renames a name after the bindings of a scan, then binding the assignments of the term
gives it no rule that renames it either. -/
theorem renamers_bindAll_assignments {s : Table} {name : String} {r : Rule} (ht : t.Standard)
    (hr : r ∈ t.rules) (hb : r.bindings v ≠ [])
    (h : (t.visited v t.rules.length).renamers name = 0) (hs : s.renamers name = 0) :
    (s.bindAll v.assignments).renamers name = 0 := by
  obtain ⟨m, hm⟩ := exists_flatMap_bindings_eq ht v
  cases m with
  | zero =>
    have hnil := List.flatMap_eq_nil_iff.1 (hm.trans rfl) r hr
    exact absurd hnil hb
  -- the last round of bindings left no rule, and it started from at least as many
  | succ m =>
    have hvisited : t.visited v t.rules.length =
        (t.bindAll (List.replicate m v.assignments).flatten).bindAll v.assignments := by
      rw [visited, List.take_length, hm, List.replicate_succ', List.flatten_append,
        List.flatten_singleton, bindAll_append]
    have hfewer : s.renamers name ≤
        (t.bindAll (List.replicate m v.assignments).flatten).renamers name := by
      omega
    have hmono := renamers_bindAll_mono hfewer v.assignments
    rw [← hvisited, h] at hmono
    omega

/-- A normal form stays normal while the table that its last scan has left is scanned again. -/
theorem Normal.visited (ht : t.Standard) (h : (t.visited v t.rules.length).Normal v) (k : Nat) :
    ((t.visited v t.rules.length).visited v k).Normal v := by
  have hstd : (t.visited v t.rules.length).Standard := ht.visited v _
  obtain ⟨hop, hname⟩ := normal_iff.1 h
  refine normal_iff.2 ⟨fun r hr hrop => hop r (mem_of_mem_visited hr hrop) hrop, ?_⟩
  intro name hmentions
  have hzero := hname name hmentions
  -- operations are the old ones; for names, induction on how far the new scan has got
  induction k with
  | zero => exact hzero
  | succ k ih =>
    cases hr : (t.visited v t.rules.length).rules[k]? with
    | none =>
      have hlen := List.getElem?_eq_none_iff.1 hr
      rwa [visited_of_length_le (Nat.le_succ_of_le hlen), ← visited_of_length_le hlen]
    | some r =>
      have hmem := List.mem_of_getElem? hr
      rw [visited_succ hr]
      rcases (hstd r hmem).bindings_eq v with hb | hb
      · by_cases hnil : r.bindings v = []
        · rwa [hnil, bindAll_nil]
        · have hrop : r.isOperation = true := by
            cases r with
            | substitution => exact absurd rfl hnil
            | operation => rfl
          rw [hb]
          exact renamers_bindAll_assignments ht (mem_of_mem_visited hmem hrop) hnil hzero ih
      · rwa [hb, bindAll_nil]

/-- A further scan of the table that the last scan has left does not change a normal form. -/
theorem Normal.scan_eq (ht : t.Standard) (h : (t.visited v t.rules.length).Normal v) :
    ∃ s, (t.visited v t.rules.length).scan v 0 = .unchanged s := by
  rcases scan_cases (ht.visited v t.rules.length) v with ⟨hscan, -⟩ | ⟨place, w, -, -, r, hr, hc, -⟩
  · exact ⟨_, hscan⟩
  · exact absurd hc (h.visited ht place r (List.mem_of_getElem? hr))

/-! ## What a rewriting gives -/

/-- Every term of a rewriting differs from the next one. -/
theorem Rewriting.isChain {trace : List Term} (h : Rewriting t trace t') :
    trace.IsChain fun u w => ¬ u.equivalent w = true := by
  induction h with
  | normal _ => exact .singleton _
  | step hstep _ ih =>
    obtain ⟨-, r, -, hc, rfl⟩ := hstep
    exact .cons_cons hc ih

theorem Rewriting.ne_nil {trace : List Term} (h : Rewriting t trace t') : trace ≠ [] := by
  cases h <;> exact List.cons_ne_nil _ _

/-- The last term of a rewriting is normal for the table that its last scan has left. -/
theorem Rewriting.exists_last {trace : List Term} (h : Rewriting t trace t') (ht : t.Standard) :
    ∃ (s : Table) (v : Term), s.Standard ∧ trace.getLast? = some v ∧
      t' = s.visited v s.rules.length ∧ t'.Normal v := by
  induction h with
  | @normal t v h => exact ⟨t, v, ht, rfl, rfl, normal_of_reaches ht h⟩
  | @step t t' v w vs place hstep hrest ih =>
    obtain ⟨s, u, hs, hlast, hs', hnormal⟩ := ih (ht.visited v place)
    exact ⟨s, u, hs, by rw [List.getLast?_cons_cons, hlast], hs', hnormal⟩

/-- **A finished reduction has reached a normal form.** It starts with the given term, rewrites each
term by the first rule that changes it, and leaves a table none of whose rules changes the last
term; reducing the last term again on that table leaves it as it is. -/
theorem reduce_reaches_normal_form {patience : Nat} {ceiling : Ceiling} {trace : List Term}
    (ht : t.Standard) (h : t.reduce patience ceiling v = (.ok trace, t')) :
    trace.head? = some v ∧
      trace.IsChain (fun u w => ¬ u.equivalent w = true) ∧
      Rewriting t trace t' ∧
      ∃ last, trace.getLast? = some last ∧ (∀ r ∈ t'.rules, ¬ r.Changes last) ∧
        ∀ patience' ceiling', (t'.reduce patience' ceiling' last).1 = .ok [last] := by
  have hrewriting := rewriting_of_reduce ht h
  obtain ⟨s, last, hs, hlast, hs', hnormal⟩ := hrewriting.exists_last ht
  refine ⟨head?_of_reduce h, hrewriting.isChain, hrewriting, last, hlast, hnormal, ?_⟩
  intro patience' ceiling'
  subst hs'
  obtain ⟨s', hscan⟩ := hnormal.scan_eq hs
  rw [reduce, run_of_scan_unchanged _ hscan]

/-- The reduction of `x = y` on the table that sessions start with: the first scan binds `x`, whose
rule then puts `y` in its place, and the second scan binds `y`. -/
theorem reduce_alias_reaches_normal_form :
    Table.default.Standard ∧
      Table.default.reduce 1 .unlimited (.binary "$let" (.sym "x") (.sym "y")) =
        (.ok [.binary "$let" (.sym "x") (.sym "y"), .binary "$let" (.sym "y") (.sym "y")],
          ⟨Rule.builtin ++ [.substitution "x" (.sym "y"), .substitution "y" (.sym "y")]⟩) ∧
      ∃ last, [Term.binary "$let" (.sym "x") (.sym "y"),
          .binary "$let" (.sym "y") (.sym "y")].getLast? = some last ∧
        ∀ r ∈ Rule.builtin ++ [.substitution "x" (.sym "y"), .substitution "y" (.sym "y")],
          ¬ r.Changes last := by
  have hreduce : Table.default.reduce 1 .unlimited (.binary "$let" (.sym "x") (.sym "y")) =
      (.ok [.binary "$let" (.sym "x") (.sym "y"), .binary "$let" (.sym "y") (.sym "y")],
        ⟨Rule.builtin ++ [.substitution "x" (.sym "y"), .substitution "y" (.sym "y")]⟩) := by
    with_unfolding_all rfl
  obtain ⟨-, -, -, last, hlast, hnormal, -⟩ :=
    reduce_reaches_normal_form standard_default hreduce
  exact ⟨standard_default, hreduce, last, hlast, hnormal⟩

end TermCalc.Table
