import TermCalc.Proofs.Reduction.Termination

/-!
# Reduction under a ceiling

A ceiling on the number of rewrites does not change what is rewritten. A run that may take fewer
rewrites visits the first terms of one that may take more, through the same tables, and a run that
comes to an end by itself is the same for every number of rewrites that suffices for it.

## Main definitions

* `Table.Finishes t v trace t'`: without a ceiling the reduction of `v` ends with that trace and
  table

## Main results

* `run_eq_of_length_le`: a run that came to an end is the run for every number that suffices
* `unfinished_of_lt`: a run that may take fewer rewrites than another one took is not finished
* `trace_run_of_le`: fewer rewrites give the first part of the trace
* `ceiling_only_truncates`: reductions with and without a ceiling
-/

namespace TermCalc.Table

variable {t t' : Table} {v w : Term} {m n place : Nat}

/-! ## One rewrite of a run -/

theorem run_of_scan_failed {e : OperandMismatch} (n : Nat) (h : t.scan v 0 = .failed e t') :
    t.run n v = ⟨[v], t', .failed e⟩ := by
  rw [run, h]

theorem run_zero_of_scan_changed (h : t.scan v 0 = .changed place w t') :
    t.run 0 v = ⟨[v], t', .unfinished⟩ := by
  rw [run, h]

theorem run_succ_of_scan_changed (n : Nat) (h : t.scan v 0 = .changed place w t') :
    t.run (n + 1) v = (t'.run n w).cons v := by
  rw [run, h]

/-! ## Runs with different numbers of rewrites -/

/-- A run that had to stop has taken all the rewrites that it was allowed. -/
theorem length_trace_of_unfinished (h : (t.run n v).ending = .unfinished) :
    (t.run n v).trace.length = n + 1 := by
  induction n generalizing t v with
  | zero =>
    cases hscan : t.scan v 0 with
    | unchanged s => rw [run_of_scan_unchanged 0 hscan]; rfl
    | failed e s => rw [run_of_scan_failed 0 hscan]; rfl
    | changed place w s => rw [run_zero_of_scan_changed hscan]; rfl
  | succ n ih =>
    cases hscan : t.scan v 0 with
    | unchanged s => simp [run_of_scan_unchanged _ hscan] at h
    | failed e s => simp [run_of_scan_failed _ hscan] at h
    | changed place w s =>
      rw [run_succ_of_scan_changed n hscan] at h ⊢
      rw [Run.cons, List.length_cons, ih h]

/-- A run that came to an end by itself is the run for every number of rewrites that suffices. -/
theorem run_eq_of_length_le (h : (t.run n v).ending ≠ .unfinished)
    (hm : (t.run n v).trace.length ≤ m + 1) : t.run m v = t.run n v := by
  induction n generalizing t v m with
  | zero =>
    cases hscan : t.scan v 0 with
    | unchanged s => rw [run_of_scan_unchanged m hscan, run_of_scan_unchanged 0 hscan]
    | failed e s => rw [run_of_scan_failed m hscan, run_of_scan_failed 0 hscan]
    | changed place w s =>
      rw [run_zero_of_scan_changed hscan] at h
      exact absurd rfl h
  | succ n ih =>
    cases hscan : t.scan v 0 with
    | unchanged s => rw [run_of_scan_unchanged m hscan, run_of_scan_unchanged _ hscan]
    | failed e s => rw [run_of_scan_failed m hscan, run_of_scan_failed _ hscan]
    | changed place w s =>
      rw [run_succ_of_scan_changed n hscan] at h hm ⊢
      obtain ⟨vs, hvs⟩ := List.head?_eq_some_iff.1 (run_trace_head? n w s)
      simp only [Run.cons, hvs, List.length_cons] at hm
      obtain ⟨k, rfl⟩ : ∃ k, m = k + 1 := Nat.exists_eq_add_one_of_ne_zero (by omega)
      rw [run_succ_of_scan_changed k hscan, ih h (by rw [hvs, List.length_cons]; omega)]

/-- A run that may take fewer rewrites than another one has taken is not finished. -/
theorem unfinished_of_lt (h : m + 1 < (t.run n v).trace.length) :
    (t.run m v).ending = .unfinished := by
  induction n generalizing t v m with
  | zero =>
    cases hscan : t.scan v 0 with
    | unchanged s => simp [run_of_scan_unchanged _ hscan] at h
    | failed e s => simp [run_of_scan_failed _ hscan] at h
    | changed place w s => simp [run_zero_of_scan_changed hscan] at h
  | succ n ih =>
    cases hscan : t.scan v 0 with
    | unchanged s => simp [run_of_scan_unchanged _ hscan] at h
    | failed e s => simp [run_of_scan_failed _ hscan] at h
    | changed place w s =>
      rw [run_succ_of_scan_changed n hscan] at h
      cases m with
      | zero => rw [run_zero_of_scan_changed hscan]
      | succ m =>
        rw [run_succ_of_scan_changed m hscan]
        exact ih (by simpa [Run.cons] using h)

/-- A run that may take fewer rewrites visits the first terms of one that may take more. -/
theorem trace_run_of_le (h : m ≤ n) :
    (t.run m v).trace = (t.run n v).trace.take (m + 1) := by
  induction n generalizing t v m with
  | zero =>
    obtain rfl := Nat.le_zero.1 h
    cases hscan : t.scan v 0 with
    | unchanged s => rw [run_of_scan_unchanged 0 hscan]; rfl
    | failed e s => rw [run_of_scan_failed 0 hscan]; rfl
    | changed place w s => rw [run_zero_of_scan_changed hscan]; rfl
  | succ n ih =>
    cases hscan : t.scan v 0 with
    | unchanged s =>
      rw [run_of_scan_unchanged m hscan, run_of_scan_unchanged _ hscan]
      simp
    | failed e s =>
      rw [run_of_scan_failed m hscan, run_of_scan_failed _ hscan]
      simp
    | changed place w s =>
      rw [run_succ_of_scan_changed n hscan]
      cases m with
      | zero => rw [run_zero_of_scan_changed hscan]; rfl
      | succ m =>
        rw [run_succ_of_scan_changed m hscan]
        simp only [Run.cons, List.take_succ_cons, ih (Nat.le_of_succ_le_succ h)]

theorem length_trace_run_le (n : Nat) (v : Term) (t : Table) :
    (t.run n v).trace.length ≤ n + 1 := by
  rw [trace_run_of_le (Nat.le_refl n)]
  exact List.length_take_le _ _

/-! ## Reductions -/

/-- Without a ceiling the reduction of `v` comes to an end by itself, with that trace and table. -/
def Finishes (t : Table) (v : Term) (trace : List Term) (t' : Table) : Prop :=
  ∃ patience, t.reduce patience .unlimited v = (.ok trace, t')

/-- A run of a standard table is normal in the end, or it had to stop. -/
theorem ending_run_cases (ht : t.Standard) (n : Nat) (v : Term) :
    (t.run n v).ending = .normal ∨ (t.run n v).ending = .unfinished := by
  cases h : (t.run n v).ending with
  | normal => exact .inl rfl
  | unfinished => exact .inr rfl
  | failed e => exact absurd h (ending_run_ne_failed ht n v e)

theorem reduce_of_normal {ceiling : Ceiling} {patience : Nat} {trace : List Term}
    (h : t.run (ceiling.rewrites patience) v = ⟨trace, t', .normal⟩) :
    t.reduce patience ceiling v = (.ok trace, t') := by
  rw [reduce, h]

theorem reduce_of_unfinished {ceiling : Ceiling} {patience : Nat}
    (h : (t.run (ceiling.rewrites patience) v).ending = .unfinished) :
    (t.reduce patience ceiling v).1 =
      .error (ceiling.error (t.run (ceiling.rewrites patience) v).trace) := by
  rw [reduce]
  simp only [h]

/-- If the reduction without a ceiling does not come to an end, then no run does. -/
theorem unfinished_of_not_finishes (ht : t.Standard) (h : ∀ trace t', ¬ t.Finishes v trace t')
    (n : Nat) : (t.run n v).ending = .unfinished := by
  refine (ending_run_cases ht n v).resolve_left fun hnormal => ?_
  refine h (t.run n v).trace (t.run n v).table ⟨n, reduce_of_normal ?_⟩
  rw [Ceiling.rewrites, ← hnormal]

/-- **A ceiling only truncates.** If the reduction without a ceiling ends after `k` rewrites, then
one with a ceiling of `k` or more gives the same trace and the same table, and one with a smaller
ceiling of `limit` fails with the first `limit + 1` terms. If it does not end, then every ceiling
fails with one term more than its number, and each trace is the beginning of those under larger
ceilings. -/
theorem ceiling_only_truncates (ht : t.Standard) (v : Term) :
    (∀ trace t' k, t.Finishes v trace t' → trace.length = k + 1 → ∀ limit patience : Nat,
      (k ≤ limit → t.reduce patience (.limited limit) v = (.ok trace, t')) ∧
      (limit < k → (t.reduce patience (.limited limit) v).1 =
        .error (.ceiling limit (trace.take (limit + 1))))) ∧
    ((∀ trace t', ¬ t.Finishes v trace t') →
      ∃ visited : Nat → List Term,
        (∀ limit patience : Nat, (t.reduce patience (.limited limit) v).1 =
          .error (.ceiling limit (visited limit))) ∧
        (∀ limit, (visited limit).length = limit + 1) ∧
        ∀ small large, small ≤ large → visited small <+: visited large) := by
  constructor
  · rintro trace t' k ⟨n, hreduce⟩ hlength limit patience
    have hrun : t.run n v = ⟨trace, t', .normal⟩ := reduce_eq_ok hreduce
    have hrewrites : (Ceiling.limited limit).rewrites patience = limit := Int.toNat_natCast limit
    constructor
    · intro hle
      apply reduce_of_normal
      rw [hrewrites, ← hrun]
      apply run_eq_of_length_le
      · rw [hrun]
        exact fun h => nomatch h
      · rw [hrun]
        show trace.length ≤ limit + 1
        omega
    · intro hlt
      have hlonger : limit + 1 < (t.run n v).trace.length := by
        rw [hrun]
        show limit + 1 < trace.length
        omega
      have hle : limit ≤ n := by
        have hallowed := length_trace_run_le n v t
        omega
      have hunfinished := unfinished_of_lt hlonger
      rw [← hrewrites] at hunfinished
      rw [reduce_of_unfinished hunfinished, hrewrites, trace_run_of_le hle, hrun]
      rfl
  · intro hnever
    have hunfinished := unfinished_of_not_finishes ht hnever
    refine ⟨fun limit => (t.run limit v).trace, ?_, ?_, ?_⟩
    · intro limit patience
      rw [reduce_of_unfinished (hunfinished _)]
      rfl
    · exact fun limit => length_trace_of_unfinished (hunfinished limit)
    · intro small large hle
      show (t.run small v).trace <+: (t.run large v).trace
      rw [trace_run_of_le hle]
      exact List.take_prefix _ _

/-! ## A binding that refers to itself -/

/-- The table after `x = x + 1`. -/
def counting : Table :=
  Table.default.append (.substitution "x" (.binary "$add" (.sym "x") (.const 1)))

/-- The terms that `x` becomes there: `x`, `x + 1`, `(x + 1) + 1` and so on. -/
def counted : Nat → Term
  | 0 => .sym "x"
  | k + 1 => .binary "$add" (counted k) (.const 1)

theorem mentions_counted_self (k : Nat) : (counted k).mentions "x" = true := by
  induction k with
  | zero => rfl
  | succ k ih => exact Term.mentions_binary.2 (.inr (.inl ih))

theorem not_mentions_counted {name : String} (hx : name ≠ "x") (hadd : name ≠ "$add") (k : Nat) :
    (counted k).mentions name = false := by
  induction k with
  | zero => exact Term.mentions_sym_eq_false.2 (Ne.symm hx)
  | succ k ih =>
    rw [← Bool.not_eq_true, counted, Term.mentions_binary, ih]
    simp [Ne.symm hadd]

theorem everywhere_counted (op : Operation) (k : Nat) :
    op.everywhere (counted k) = counted k := by
  induction k with
  | zero => rfl
  | succ k ih =>
    rw [counted, Term.binary, Operation.everywhere_app, Operation.everywhere_sym, List.map_cons,
      ih, List.map_cons, Operation.everywhere_const, List.map_nil]
    cases op
    case add => cases k <;> with_unfolding_all rfl
    all_goals exact Operation.close_of_not_applies fun h => absurd h.1 (by simp [Operation.tag])

theorem substitute_counted (k : Nat) :
    Rule.substitute "x" (.binary "$add" (.sym "x") (.const 1)) (counted k) = counted (k + 1) := by
  induction k with
  | zero => rfl
  | succ k ih =>
    have hparts : Rule.substitute "x" (.binary "$add" (.sym "x") (.const 1)) (counted (k + 1)) =
        .app (.sym "$add") ([counted k, .const 1].map
          (Rule.substitute "x" (.binary "$add" (.sym "x") (.const 1)))) :=
      Rule.substitute_app _ _
    rw [List.map_cons, ih] at hparts
    exact hparts

theorem standard_counting : counting.Standard := by
  intro r hr
  rcases List.mem_append.1 hr with hr | hr
  · exact standard_default r hr
  · obtain rfl := List.mem_singleton.1 hr
    exact .substitution _ _

/-- Every scan there finds the rule for `x`. -/
theorem scan_counted (k : Nat) :
    ∃ place, counting.scan (counted k) 0 = .changed place (counted (k + 1)) counting := by
  have hfree : (counted k).mentions "$let" = false := not_mentions_counted (by decide) (by decide) k
  have hvisited : ∀ j, counting.visited (counted k) j = counting :=
    visited_of_free standard_counting hfree
  have hx : Rule.substitution "x" (.binary "$add" (.sym "x") (.const 1)) ∈ counting.rules :=
    List.mem_append_right _ (List.mem_singleton.2 rfl)
  rcases scan_cases standard_counting (counted k) with
    ⟨-, hreaches⟩ | ⟨place, w, hscan, -, r, hr, hc, rfl⟩
  · have hnormal := normal_of_reaches standard_counting hreaches
    rw [hvisited] at hnormal
    refine absurd (Rule.changes_of_renames ?_ (mentions_counted_self k)) (hnormal _ hx)
    exact renames_substitution_self.2 fun h => nomatch h
  · rw [met?, hvisited] at hr
    rw [hvisited] at hscan
    refine ⟨place, ?_⟩
    rw [hscan]
    have hmem := List.mem_of_getElem? hr
    rcases standard_counting r hmem with ⟨name, u⟩ | ⟨op⟩
    · have hname := (Rule.changes_substitution_iff.1 hc).2
      have hbound : name = "x" ∧ u = .binary "$add" (.sym "x") (.const 1) := by
        simp only [counting, Table.append, Table.default, Rule.builtin, Rule.ofOperation,
          List.cons_append, List.nil_append, List.mem_cons, Rule.substitution.injEq, reduceCtorEq,
          List.not_mem_nil, or_false, false_or] at hmem
        rcases hmem with ⟨rfl, -⟩ | ⟨rfl, -⟩ | hmem
        · rw [not_mentions_counted (by decide) (by decide)] at hname
          exact Bool.noConfusion hname
        · rw [not_mentions_counted (by decide) (by decide)] at hname
          exact Bool.noConfusion hname
        · exact hmem
      rw [hbound.1, hbound.2, Rule.output_substitution, substitute_counted]
    · rw [Rule.Changes, Rule.output_ofOperation, everywhere_counted, Term.equivalent_refl] at hc
      exact absurd rfl hc

theorem unfinished_counted (n k : Nat) : (counting.run n (counted k)).ending = .unfinished := by
  induction n generalizing k with
  | zero =>
    obtain ⟨place, hscan⟩ := scan_counted k
    rw [run_zero_of_scan_changed hscan]
  | succ n ih =>
    obtain ⟨place, hscan⟩ := scan_counted k
    rw [run_succ_of_scan_changed n hscan]
    exact ih (k + 1)

/-- On the table that sessions start with `x = y` takes one rewrite, by the rule that the first scan
has bound, and the scan that finds nothing more to do binds `y`. A ceiling of zero stops the
reduction before that, and one of one does not. After `x = x + 1` no ceiling is enough for `x`. -/
theorem ceiling_only_truncates_counting :
    let assignment : Term := .binary "$let" (.sym "x") (.sym "y")
    Table.default.Standard ∧ counting.Standard ∧
      (Table.default.reduce 0 (.limited 0) assignment).1 = .error (.ceiling 0 [assignment]) ∧
      Table.default.reduce 0 (.limited 1) assignment =
        (.ok [assignment, .binary "$let" (.sym "y") (.sym "y")],
          ⟨Rule.builtin ++ [.substitution "x" (.sym "y"), .substitution "y" (.sym "y")]⟩) ∧
      ∃ visited : Nat → List Term, ∀ limit : Nat,
        (counting.reduce 0 (.limited limit) (.sym "x")).1 =
          .error (.ceiling limit (visited limit)) ∧ (visited limit).length = limit + 1 := by
  intro assignment
  have hfinishes : Table.default.Finishes assignment
      [assignment, .binary "$let" (.sym "y") (.sym "y")]
      ⟨Rule.builtin ++ [.substitution "x" (.sym "y"), .substitution "y" (.sym "y")]⟩ :=
    ⟨1, by with_unfolding_all rfl⟩
  have hnever : ∀ trace t', ¬ counting.Finishes (.sym "x") trace t' := by
    rintro trace t' ⟨n, hreduce⟩
    have hunfinished : (counting.run n (.sym "x")).ending = .unfinished := unfinished_counted n 0
    have hnormal : counting.run n (.sym "x") = ⟨trace, t', .normal⟩ := reduce_eq_ok hreduce
    rw [hnormal] at hunfinished
    exact Ending.noConfusion hunfinished
  obtain ⟨htruncates, -⟩ := ceiling_only_truncates standard_default assignment
  obtain ⟨visited, hvisited, hlength, -⟩ :=
    (ceiling_only_truncates standard_counting (.sym "x")).2 hnever
  exact ⟨standard_default, standard_counting, (htruncates _ _ 1 hfinishes rfl 0 0).2 (by decide),
    (htruncates _ _ 1 hfinishes rfl 1 0).1 (by decide), visited, fun limit =>
      ⟨hvisited limit 0, hlength limit⟩⟩

end TermCalc.Table
