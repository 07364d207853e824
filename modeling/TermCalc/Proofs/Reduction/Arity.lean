import TermCalc.Proofs.Reduction.Value
import TermCalc.Proofs.Rule.DoubleNegation

/-!
# Reductions of terms whose tags are set apart

The tag of an operation that is applied to a wrong number of arguments should be as good as any
other symbol in a reduction: with a name of its own in its place the same rewrites should be made.
Runs of terms without assignments are compared step by step. The rule that fires first on a term
fires first on the term whose tags have been set apart and makes the corresponding term, as long as
nothing is mistaken for a double negation. As soon as something is, the two reductions part.

## Main definitions

* `Term.Separable fresh v`: a term as it is reduced with its tags set apart or not

## Main results

* `changer?_setApart`: the same rule fires first where nothing is mistaken for a double negation
* `trace_run_setApart`: the trace of a run in which nothing is mistaken for a double negation
* `not_mistakable_of_trace_run`: the traces part where something is mistaken
* `reduce_setApart`: what a reduction does with tags that have a wrong number of arguments
-/

namespace TermCalc

open Operation (Fresh apartName)
open Term (setApart Lacks Mistakable FirstOrder)

/-- There are no abstractions, no assignments and none of the new names in the term, and nothing but
symbols and constants is applied. -/
structure Term.Separable (fresh : Operation → String) (v : Term) : Prop where
  firstOrder : v.FirstOrder
  free : v.mentions "$let" = false
  lacks : v.Lacks fresh

namespace Table

variable {fresh : Operation → String} {t : Table} {v w : Term} {r : Rule} {n : Nat}

/-! ## Traces without assignments -/

theorem trace_run_zero (v : Term) (t : Table) : (t.run 0 v).trace = [v] := by
  rw [run]
  split <;> rfl

/-- The trace of a run of a term without an assignment, one rewrite after the other. -/
theorem trace_run_succ (ht : t.Standard) (hv : v.mentions "$let" = false) (n : Nat) :
    (t.run (n + 1) v).trace = v ::
      match t.changer? v with
      | none => []
      | some r => (t.run n (r.output v)).trace := by
  rcases run_cases_of_free ht hv with ⟨hnone, hrun⟩ | ⟨r, hsome, -, hrun⟩
  · rw [hnone, hrun]
  · rw [hsome, hrun]
    rfl

/-! ## The builtin rules -/

theorem default_cases (hr : r ∈ default.rules) :
    (∃ name c, r = .substitution name (.const c) ∧ (name = "pi" ∨ name = "e")) ∨
      ∃ op, r = .ofOperation op := by
  simp only [default, Rule.builtin, List.mem_cons, List.not_mem_nil, or_false] at hr
  rcases hr with rfl | rfl | rfl | rfl | rfl | rfl | rfl | rfl
  · exact .inl ⟨_, _, rfl, .inl rfl⟩
  · exact .inl ⟨_, _, rfl, .inr rfl⟩
  all_goals exact .inr ⟨_, rfl⟩

/-- A term in which something is mistaken for a double negation is changed, first by a substitution
or by the negation: no other operation that changes it is ahead of the negation. -/
theorem changer?_of_mistakable (hv : v.FirstOrder) (hm : v.Mistakable) :
    ∃ r, default.changer? v = some r ∧
      (r = .ofOperation .negate ∨ ∃ name u, r = .substitution name u) := by
  have hassign : ¬ (Rule.ofOperation .assign).Changes v := by
    rw [(Rule.Standard.builtin .assign).not_changes_iff, Rule.output_ofOperation,
      Operation.everywhere_assign]
  have hnegate : (Rule.ofOperation .negate).Changes v := by
    by_contra hsame
    rw [(Rule.Standard.builtin .negate).not_changes_iff, Rule.output_ofOperation] at hsame
    exact Operation.not_mistakable_negate hv (hsame.symm ▸ hm)
  rw [changer?, default, Rule.builtin, List.find?_cons, List.find?_cons, List.find?_cons,
    List.find?_cons, decide_eq_false hassign, decide_eq_true hnegate]
  split
  · exact ⟨_, rfl, .inr ⟨_, _, rfl⟩⟩
  · split
    · exact ⟨_, rfl, .inr ⟨_, _, rfl⟩⟩
    · exact ⟨_, rfl, .inl rfl⟩

/-! ## One rewrite -/

theorem free_setApart (hfresh : Fresh fresh) (hv : v.Separable fresh) :
    (v.setApart fresh).mentions "$let" = false := by
  rw [← Bool.not_eq_true]
  intro h
  have hlet := Term.mentions_of_mentions_setApart (fun op => hfresh.ne_tag op .assign) h
  exact Bool.noConfusion (hlet.symm.trans hv.free)

/-- A builtin rule makes a term that can have its tags set apart of one that can. -/
theorem separable_output (hfresh : Fresh fresh) (hr : r ∈ default.rules) (hv : v.Separable fresh) :
    (r.output v).Separable fresh where
  firstOrder := by
    rcases default_cases hr with ⟨name, c, rfl, -⟩ | ⟨op, rfl⟩
    · exact Rule.firstOrder_substitute hv.firstOrder
    · rw [Rule.output_ofOperation]
      exact Operation.firstOrder_everywhere hv.firstOrder
  free := (numeric_default.avoids _).not_mentions_output standard_default hr hv.free
  lacks op := (standard_default r hr).not_mentions_output
    (fun name u hu => numeric_default.avoids _ name u (hu ▸ hr)) (hfresh.ne_tag op .negate)
    (hv.lacks op)

/-- A builtin rule makes the corresponding term of a term whose tags have been set apart, the
negation where nothing is mistaken for a double negation. -/
theorem output_setApart (hfresh : Fresh fresh) (hr : r ∈ default.rules) (hv : v.Separable fresh)
    (hneg : r = .ofOperation .negate → ¬ v.Mistakable) :
    r.output (v.setApart fresh) = (r.output v).setApart fresh := by
  rcases default_cases hr with ⟨name, c, rfl, hname⟩ | ⟨op, rfl⟩
  · obtain ⟨hne, htag⟩ := hfresh.ne_of_number hname
    exact Rule.substitute_setApart hne htag
  · rw [Rule.output_ofOperation, Rule.output_ofOperation]
    exact Operation.everywhere_setApart hfresh hv.firstOrder hv.lacks fun hop => hneg (hop ▸ rfl)

theorem changes_setApart_iff (hfresh : Fresh fresh) (hr : r ∈ default.rules)
    (hv : v.Separable fresh) (hneg : r = .ofOperation .negate → ¬ v.Mistakable) :
    r.Changes (v.setApart fresh) ↔ r.Changes v := by
  have hstd := standard_default r hr
  rw [← not_iff_not, hstd.not_changes_iff, hstd.not_changes_iff, output_setApart hfresh hr hv hneg,
    Term.setApart_inj hfresh (separable_output hfresh hr hv).lacks hv.lacks]

/-- The same rule fires first on a term whose tags have been set apart, where nothing is mistaken for
a double negation. -/
theorem changer?_setApart (hfresh : Fresh fresh) (hv : v.Separable fresh) (hm : ¬ v.Mistakable) :
    default.changer? (v.setApart fresh) = default.changer? v := by
  have hsame : ∀ r ∈ default.rules,
      decide (r.Changes (v.setApart fresh)) = decide (r.Changes v) := fun r hr =>
    decide_eq_decide.2 (changes_setApart_iff hfresh hr hv fun _ => hm)
  exact List.find?_congr hsame

/-- Where something is mistaken for a double negation, no rule makes of the term whose tags have
been set apart what the negation makes of the term. -/
theorem output_setApart_ne (hfresh : Fresh fresh) (hr : r ∈ default.rules) (hv : v.Separable fresh)
    (hm : v.Mistakable) :
    r.output (v.setApart fresh) ≠ (Operation.negate.everywhere v).setApart fresh := by
  intro heq
  by_cases hneg : r = .ofOperation .negate
  · rw [hneg, Rule.output_ofOperation] at heq
    exact Operation.negate_setApart_ne hfresh hv.firstOrder hm heq
  · rw [output_setApart hfresh hr hv fun h => absurd h hneg,
      Term.setApart_inj hfresh (separable_output hfresh hr hv).lacks
        (Operation.lacks_everywhere hfresh hv.lacks)] at heq
    rcases default_cases hr with ⟨name, c, rfl, hname⟩ | ⟨op, rfl⟩
    · -- what has been negated holds nothing that is mistaken any more
      have hnot := Operation.not_mistakable_negate hv.firstOrder
      rw [← heq, Rule.output_substitution] at hnot
      have hne := (hfresh.ne_of_number hname).2 .negate
      exact hnot (Rule.mistakable_substitute hne.symm hv.firstOrder hm)
    · rw [Rule.output_ofOperation] at heq
      have hop : op ≠ .negate := fun h => hneg (h ▸ rfl)
      exact Operation.everywhere_ne_negate_of_mistakable hop hv.firstOrder hm heq

/-- If a rule makes of the term whose tags have been set apart what the first rule that changes the
term makes of the term, and in that nothing is mistaken for a double negation, then nothing in the
term is. -/
theorem not_mistakable_of_output_eq {r' : Rule} (hfresh : Fresh fresh) (hv : v.Separable fresh)
    (hr : default.changer? v = some r) (hr' : r' ∈ default.rules)
    (heq : r'.output (v.setApart fresh) = (r.output v).setApart fresh)
    (hm : ¬ (r.output v).Mistakable) : ¬ v.Mistakable := by
  intro hv'
  obtain ⟨q, hq, hcases⟩ := changer?_of_mistakable hv.firstOrder hv'
  obtain rfl := Option.some.inj (hr.symm.trans hq)
  rcases hcases with rfl | ⟨name, u, rfl⟩
  · rw [Rule.output_ofOperation] at heq
    exact output_setApart_ne hfresh hr' hv hv' heq
  · rcases default_cases (changer?_mem hr) with ⟨name', c, hsub, hname⟩ | ⟨op, hop⟩
    · obtain ⟨rfl, rfl⟩ := Rule.substitution.inj hsub
      have hne := (hfresh.ne_of_number hname).2 .negate
      rw [Rule.output_substitution] at hm
      exact hm (Rule.mistakable_substitute hne.symm hv.firstOrder hv')
    · cases hop

/-! ## Whole runs -/

/-- As long as nothing is mistaken for a double negation, the run of a term whose tags have been set
apart goes through the terms of the run with their tags set apart. -/
theorem trace_run_setApart (hfresh : Fresh fresh) (hv : v.Separable fresh)
    (hm : ∀ u ∈ (default.run n v).trace, ¬ u.Mistakable) :
    (default.run n (v.setApart fresh)).trace =
      (default.run n v).trace.map (Term.setApart fresh) := by
  induction n generalizing v with
  | zero =>
    rw [trace_run_zero, trace_run_zero]
    rfl
  | succ n ih =>
    have htrace := trace_run_succ standard_default hv.free n
    have hfirst : ¬ v.Mistakable := hm v (htrace ▸ List.mem_cons_self)
    rw [trace_run_succ standard_default (free_setApart hfresh hv), htrace,
      changer?_setApart hfresh hv hfirst, List.map_cons]
    cases hr : default.changer? v with
    | none => rfl
    | some r =>
      rw [hr] at htrace
      have hmem := changer?_mem hr
      refine congrArg (v.setApart fresh :: ·) ?_
      show (default.run n (r.output (v.setApart fresh))).trace = _
      rw [output_setApart hfresh hmem hv fun _ => hfirst]
      exact ih (separable_output hfresh hmem hv) fun u hu =>
        hm u (htrace ▸ List.mem_cons_of_mem _ hu)

/-- In a term that no rule changes nothing is mistaken for a double negation. -/
theorem not_mistakable_of_changer?_eq_none (hv : v.Separable fresh)
    (h : default.changer? v = none) : ∀ u ∈ (default.run n v).trace, ¬ u.Mistakable := by
  rcases run_cases_of_free standard_default hv.free with ⟨-, hrun⟩ | ⟨r, hr, -⟩
  · rw [hrun]
    intro u hu hm
    rw [List.mem_singleton.1 hu] at hm
    obtain ⟨r, hr, -⟩ := changer?_of_mistakable hv.firstOrder hm
    cases h.symm.trans hr
  · cases h.symm.trans hr

/-- If the traces of two such runs correspond and the first run is at an end, then nothing in it was
mistaken for a double negation. -/
theorem not_mistakable_of_trace_run (hfresh : Fresh fresh) (hv : v.Separable fresh)
    (hend : (default.run n v).ending = .normal)
    (heq : (default.run n (v.setApart fresh)).trace =
      (default.run n v).trace.map (Term.setApart fresh)) :
    ∀ u ∈ (default.run n v).trace, ¬ u.Mistakable := by
  induction n generalizing v with
  | zero =>
    rcases run_cases_of_free standard_default hv.free with ⟨hnone, -⟩ | ⟨r, -, hrun, -⟩
    · exact not_mistakable_of_changer?_eq_none hv hnone
    · rw [hrun] at hend
      cases hend
  | succ n ih =>
    rcases run_cases_of_free standard_default hv.free with ⟨hnone, -⟩ | ⟨r, hr, -, hrun⟩
    · exact not_mistakable_of_changer?_eq_none hv hnone
    · have hmem := changer?_mem hr
      rw [hrun] at hend heq ⊢
      rw [trace_run_succ standard_default (free_setApart hfresh hv)] at heq
      replace heq := (List.cons.inj heq).2
      have hhead := congrArg List.head? heq
      rw [List.head?_map, run_trace_head?] at hhead
      cases hr' : default.changer? (v.setApart fresh) with
      | none =>
        rw [hr'] at hhead
        cases hhead
      | some r' =>
        rw [hr'] at heq hhead
        have houtput : r'.output (v.setApart fresh) = (r.output v).setApart fresh :=
          Option.some.inj ((run_trace_head? n _ default).symm.trans hhead)
        simp only [houtput] at heq
        have hrest := ih (separable_output hfresh hmem hv) hend heq
        intro u hu
        rcases List.mem_cons.1 hu with rfl | hu
        · refine not_mistakable_of_output_eq hfresh hv hr (changer?_mem hr') houtput ?_
          exact hrest _ (List.mem_of_mem_head? (run_trace_head? n _ default))
        · exact hrest u hu

/-! ## Reductions -/

/-- **Tags with a wrong number of arguments.** A term without abstractions and assignments, in which
nothing but symbols and constants is applied, is reduced without a ceiling, and so is the term in
which every tag that has a wrong number of arguments has been replaced by a name of its own. The
second trace comes from the first by the same replacement in all of its terms exactly if in none of
them an application of `$neg` to several arguments is negated. -/
theorem reduce_setApart (hfresh : Fresh fresh) (hfirst : v.FirstOrder)
    (hlet : v.mentions "$let" = false) (hlacks : v.Lacks fresh) :
    ∃ trace trace' n,
      (∀ patience ≥ n, default.reduce patience .unlimited v = (.ok trace, default) ∧
        default.reduce patience .unlimited (v.setApart fresh) = (.ok trace', default)) ∧
      (trace' = trace.map (Term.setApart fresh) ↔ ∀ u ∈ trace, ¬ u.Mistakable) := by
  have hv : v.Separable fresh := ⟨hfirst, hlet, hlacks⟩
  obtain ⟨trace, n, hreduce⟩ := numeric_default.exists_reduce hlet
  obtain ⟨trace', n', hreduce'⟩ := numeric_default.exists_reduce (free_setApart hfresh hv)
  refine ⟨trace, trace', max n n', fun patience hpatience =>
    ⟨hreduce _ (le_of_max_le_left hpatience), hreduce' _ (le_of_max_le_right hpatience)⟩, ?_⟩
  have hrun : default.run (max n n') v = ⟨trace, default, .normal⟩ :=
    reduce_eq_ok (hreduce _ (le_max_left n n'))
  have hrun' : default.run (max n n') (v.setApart fresh) = ⟨trace', default, .normal⟩ :=
    reduce_eq_ok (hreduce' _ (le_max_right n n'))
  constructor
  · intro heq
    have hnot := not_mistakable_of_trace_run (n := max n n') hfresh hv (by rw [hrun])
      (by rw [hrun, hrun', heq])
    rwa [hrun] at hnot
  · intro hnot
    have htrace := trace_run_setApart (n := max n n') hfresh hv (by rwa [hrun])
    rwa [hrun, hrun'] at htrace

/-- The tags with a question mark behind them, as names of their own. -/
def marked (op : Operation) : String :=
  op.tag ++ "?"

theorem fresh_marked : Fresh marked where
  injective op op' h := by cases op <;> cases op' <;> first | rfl | exact absurd h (by decide)
  ne_tag op op' := by cases op <;> cases op' <;> decide
  ne_number op := by cases op <;> decide

/-- An application of `$neg` to two arguments stays as it is, but its negation becomes the first of
them, which nothing becomes if the tag is set apart. -/
theorem reduce_setApart_neg_neg :
    let two : Term := .app (.sym "$neg") [.sym "a", .sym "b"]
    Fresh marked ∧ (Term.unary "$neg" two).FirstOrder ∧
      (Term.unary "$neg" two).mentions "$let" = false ∧ (Term.unary "$neg" two).Lacks marked ∧
      (∃ trace n, ∀ patience ≥ n,
        default.reduce patience .unlimited two = (.ok trace, default) ∧
        default.reduce patience .unlimited (two.setApart marked) =
          (.ok (trace.map (Term.setApart marked)), default)) ∧
      ∃ trace trace' n, (∀ patience ≥ n,
        default.reduce patience .unlimited (.unary "$neg" two) = (.ok trace, default) ∧
        default.reduce patience .unlimited ((Term.unary "$neg" two).setApart marked) =
          (.ok trace', default)) ∧
        trace' ≠ trace.map (Term.setApart marked) := by
  intro two
  have hfirst : two.FirstOrder := .app trivial fun a ha => by
    rcases List.mem_pair.1 ha with rfl | rfl <;> exact .sym _
  have hnegated : (Term.unary "$neg" two).FirstOrder := .app trivial fun a ha => by
    rw [List.mem_singleton.1 ha]
    exact hfirst
  have hlacks : two.Lacks marked := fun op => by cases op <;> decide
  have hlacks' : (Term.unary "$neg" two).Lacks marked := fun op => by cases op <;> decide
  refine ⟨fresh_marked, hnegated, rfl, hlacks', ?_, ?_⟩
  · obtain ⟨trace, trace', n, hreduce, hiff⟩ := reduce_setApart fresh_marked hfirst rfl hlacks
    have hnone : default.changer? two = none := by with_unfolding_all rfl
    have hnot := not_mistakable_of_changer?_eq_none (n := n) ⟨hfirst, rfl, hlacks⟩ hnone
    have hrun : default.run n two = ⟨trace, default, .normal⟩ :=
      reduce_eq_ok (hreduce n (Nat.le_refl n)).1
    rw [hrun] at hnot
    exact ⟨trace, n, hiff.2 hnot ▸ hreduce⟩
  · obtain ⟨trace, trace', n, hreduce, hiff⟩ := reduce_setApart fresh_marked hnegated rfl hlacks'
    refine ⟨trace, trace', n, hreduce, fun heq => ?_⟩
    have hmem := List.mem_of_mem_head? (head?_of_reduce (hreduce n (Nat.le_refl n)).1)
    exact hiff.1 heq _ hmem (Term.NegatesSeveral.mistakable ⟨_, _, _, rfl⟩)

-- the traces of `-$neg(a, b)`, with the tag of the inner application and with a name of its own
example :
    let two (tag : String) : Term := .app (.sym tag) [.sym "a", .sym "b"]
    (default.run 2 (.unary "$neg" (two "$neg"))).trace =
        [.unary "$neg" (two "$neg"), .sym "a"] ∧
      (default.run 2 (.unary "$neg" (two "$neg?"))).trace = [.unary "$neg" (two "$neg?")] := by
  with_unfolding_all exact ⟨rfl, rfl⟩

end Table

end TermCalc
