import Mathlib.Data.List.Chain
import TermCalc.Proofs.Reduction.NormalForm
import TermCalc.Proofs.Rule.Pass

/-!
# The rules that fire

Every rewrite of a run is made by one rule, the one at the place where its scan has stopped. The
rules that fire in a run, one after the other, make its trace out of the first term. A builtin
operation leaves nothing behind that it could rewrite again, so between two firings of it another
rule fires.

## Main definitions

* `Table.fired n v t`: the rules that fire in the run of `v` with at most `n` rewrites

## Main results

* `rule_of_scan_changed`: the rule that ends a scan
* `trace_run_eq_scanl`: the fired rules make the trace of a run
* `operation_completes_in_one_pass`: what a builtin operation makes of a term, and that it never
  fires twice in succession
-/

namespace TermCalc.Table

variable {t t' : Table} {v w : Term} {place : Nat} {r : Rule} {n : Nat}

/-! ## The rule that ends a scan -/

/-- Binding leaves the rules where they are that are no substitutions. -/
theorem getElem?_bindAll_operation {tag : String} {op : Operation} {arity : Option Int}
    (bs : List Binding) (h : t.rules[place]? = some (.operation tag op arity)) :
    (t.bindAll bs).rules[place]? = some (.operation tag op arity) := by
  obtain ⟨names, hslots⟩ := slots_bindAll t bs
  have hslot : (t.bindAll bs).slots[place]? = some (.operation tag op arity) := by
    rw [hslots, List.getElem?_append_left]
    · rw [slots, List.getElem?_map, h]
      rfl
    · rw [slots, List.length_map]
      exact (List.getElem?_eq_some_iff.1 h).1
  rw [slots, List.getElem?_map, Option.map_eq_some_iff] at hslot
  obtain ⟨q, hq, hslot⟩ := hslot
  cases q with
  | substitution => simp [Rule.slot] at hslot
  | operation => simp_all [Rule.slot]

/-- A scan that changes a term leaves the rule that has changed it at the place where it stopped. -/
theorem rule_of_scan_changed {k : Nat} (h : t.scan v k = .changed place w t') :
    ∃ r, t'.rules[place]? = some r ∧ r.output v = w ∧ r.Changes v := by
  fun_induction Table.scan t v k with
  | case1 => simp at h
  | case2 => simp at h
  | case3 t k r hr bs u hrewrite heq ih => exact ih h
  | case4 t k r hr bs u hrewrite hne =>
    obtain ⟨rfl, rfl, rfl⟩ := Scan.changed.inj h
    have houtput : r.output v = u := by rw [Rule.output, hrewrite]
    refine ⟨r, ?_, houtput, by rwa [Rule.Changes, houtput]⟩
    -- a substitution has bound nothing, and what an operation has bound is elsewhere
    cases r with
    | substitution name replacement =>
      have hbs : bs = [] := (Effect.mk.inj hrewrite).1.symm
      rwa [hbs, bindAll_nil]
    | operation tag op arity => exact getElem?_bindAll_operation bs hr

/-! ## The rules of a run -/

/-- The rules that make the rewrites of the run of `v` with at most `n` rewrites, in order. -/
def fired : (n : Nat) → Term → Table → List Rule
  | 0, _, _ => []
  | n + 1, v, t =>
    match t.scan v 0 with
    | .changed place w t => t.rules[place]?.toList ++ fired n w t
    | _ => []

theorem fired_of_scan_changed (h : t.scan v 0 = .changed place w t')
    (hr : t'.rules[place]? = some r) : t.fired (n + 1) v = r :: t'.fired n w := by
  rw [fired, h]
  simp [hr]

/-- Either the rules that fire in a run are none and its trace is its term, or a first one fires and
the others are those of the rest of the run. -/
theorem fired_cases (n : Nat) (v : Term) (t : Table) :
    (t.fired n v = [] ∧ (t.run n v).trace = [v]) ∨
      ∃ (m : Nat) (r : Rule) (t' : Table), n = m + 1 ∧ r.Changes v ∧
        t.fired n v = r :: t'.fired m (r.output v) ∧
        (t.run n v).trace = v :: (t'.run m (r.output v)).trace := by
  cases hscan : t.scan v 0 with
  | unchanged s =>
    left
    cases n <;> simp [fired, run, hscan]
  | failed e s =>
    left
    cases n <;> simp [fired, run, hscan]
  | changed place w s =>
    cases n with
    | zero =>
      left
      simp [fired, run, hscan]
    | succ n =>
      obtain ⟨r, hr, rfl, hc⟩ := rule_of_scan_changed hscan
      refine .inr ⟨n, r, s, rfl, hc, fired_of_scan_changed hscan hr, ?_⟩
      rw [run, hscan]
      rfl

/-- The rules that fire in a run make its trace out of the first term. -/
theorem trace_run_eq_scanl (n : Nat) (v : Term) (t : Table) :
    (t.run n v).trace = (t.fired n v).scanl (fun u r => r.output u) v := by
  induction n generalizing v t with
  | zero =>
    rcases fired_cases 0 v t with ⟨hfired, htrace⟩ | ⟨m, r, t', hm, -⟩
    · rw [hfired, htrace]
      rfl
    · exact absurd hm (Nat.succ_ne_zero m).symm
  | succ n ih =>
    rcases fired_cases (n + 1) v t with ⟨hfired, htrace⟩ | ⟨m, r, t', hm, -, hfired, htrace⟩
    · rw [hfired, htrace]
      rfl
    · obtain rfl := Nat.succ.inj hm
      rw [hfired, htrace, ih, List.scanl_cons]

/-- A rule that fires in a run changes the term that stands in the trace there. -/
theorem changes_of_mem_zip_fired (n : Nat) (v : Term) (t : Table) :
    ∀ p ∈ (t.run n v).trace.zip (t.fired n v), p.2.Changes p.1 := by
  induction n generalizing v t with
  | zero => simp [fired]
  | succ n ih =>
    rcases fired_cases (n + 1) v t with ⟨hfired, -⟩ | ⟨m, r, t', hm, hc, hfired, htrace⟩
    · simp [hfired]
    · obtain rfl := Nat.succ.inj hm
      rw [hfired, htrace, List.zip_cons_cons]
      intro p hp
      rcases List.mem_cons.1 hp with rfl | hp
      · exact hc
      · exact ih _ _ p hp

theorem changes_of_head?_fired (h : (t.fired n v).head? = some r) : r.Changes v := by
  rcases fired_cases n v t with ⟨hfired, -⟩ | ⟨m, q, t', -, hc, hfired, -⟩
  · simp [hfired] at h
  · rw [hfired, List.head?_cons, Option.some.injEq] at h
    exact h ▸ hc

/-! ## Operations in succession -/

/-- What an operation has made of a term is not changed by the operation. -/
theorem not_changes_everywhere (op : Operation) (v : Term) :
    ¬ (Rule.ofOperation op).Changes (op.everywhere v) := by
  rw [(Rule.Standard.builtin op).not_changes_iff, Rule.output_ofOperation,
    Operation.everywhere_everywhere]

/-- No builtin operation fires twice in succession. -/
theorem isChain_fired (op : Operation) (n : Nat) (v : Term) (t : Table) :
    (t.fired n v).IsChain fun r q => r = .ofOperation op → q ≠ .ofOperation op := by
  induction n generalizing v t with
  | zero => exact .nil
  | succ n ih =>
    rcases fired_cases (n + 1) v t with ⟨hfired, -⟩ | ⟨m, r, t', hm, -, hfired, -⟩
    · rw [hfired]
      exact .nil
    · obtain rfl := Nat.succ.inj hm
      rw [hfired, List.isChain_cons]
      refine ⟨?_, ih _ _⟩
      rintro q hq rfl rfl
      have hc := changes_of_head?_fired hq
      rw [Rule.output_ofOperation] at hc
      exact not_changes_everywhere op v hc

/-- **One pass of an operation.** A builtin operation gives every term back as it is, or it makes
the term smaller. It brings in no symbol but `$neg` and no abstraction, and a second pass gives its
result back. So in the trace of every run, which the rules that fire in it have made, it does not
fire twice in succession. -/
theorem operation_completes_in_one_pass (op : Operation) :
    (∀ v : Term, ∃ w, ((Rule.ofOperation op).rewrite v).result = .ok w ∧
      (w = v ∨ w.size < v.size) ∧
      (∀ name, Term.Part (.sym name) w → name = "$neg" ∨ Term.Part (.sym name) v) ∧
      (∀ params body, Term.Part (.lam params body) w → Term.Part (.lam params body) v) ∧
      ((Rule.ofOperation op).rewrite w).result = .ok w) ∧
    ∀ (n : Nat) (v : Term) (t : Table),
      (t.run n v).trace = (t.fired n v).scanl (fun u r => r.output u) v ∧
      (∀ p ∈ (t.run n v).trace.zip (t.fired n v), p.2.Changes p.1) ∧
      (t.fired n v).IsChain fun r q => r = .ofOperation op → q ≠ .ofOperation op := by
  have hrewrite : ∀ v, ((Rule.ofOperation op).rewrite v).result = .ok (op.everywhere v) :=
    fun v => congrArg Effect.result (Rule.operate_builtin op v)
  constructor
  · intro v
    refine ⟨op.everywhere v, hrewrite v, Operation.everywhere_eq_or_size_lt v, ?_, ?_, ?_⟩
    · intro name hpart
      have hname := Operation.part_of_part_everywhere (by simp) (by simp) hpart
      exact hname.imp_left Term.sym.inj
    · intro params body hpart
      have hlam := Operation.part_of_part_everywhere (by simp) (by simp) hpart
      exact hlam.resolve_left fun h => Term.noConfusion h
    · rw [hrewrite, Operation.everywhere_everywhere]
  · intro n v t
    exact ⟨trace_run_eq_scanl n v t, changes_of_mem_zip_fired n v t, isChain_fired op n v t⟩

-- `0 - (0 - x)` is subtracted in one pass, and then a double negation is taken away
example :
    Table.default.fired 2 (.binary "$sub" (.const 0) (.binary "$sub" (.const 0) (.sym "x"))) =
      [.ofOperation .subtract, .ofOperation .negate] := by
  with_unfolding_all rfl

end TermCalc.Table
