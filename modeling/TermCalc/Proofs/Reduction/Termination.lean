import TermCalc.Proofs.Assignment.Course
import TermCalc.Proofs.Reduction.NormalForm
import TermCalc.Proofs.Rule.Weight

/-!
# Reductions that end

A term without an assignment is reduced in a table that stays as it is. If the symbols of the table
have weights, every rewrite makes the term lighter, so that the reduction ends by itself and never
comes back to a term that it has visited. Such weights exist whenever the replacements of the table
are ranked.

## Main definitions

* `Table.changer? t v`: the first rule of `t` that changes `v`

## Main results

* `visited_of_free`: a scan of a term without an assignment leaves the table as it is
* `run_cases_of_free`: a run of such a term goes on with the first rule that changes it
* `Weighs.exists_run`, `Weighs.exists_reduce`: a run and a reduction in a table with weights end
* `reduce_terminates_of_ranked`: without a ceiling a reduction in a table with a ranking ends
-/

namespace TermCalc.Table

variable {t : Table} {v : Term}

/-- A scan of a term without an assignment leaves the table as it is. -/
theorem visited_of_free (ht : t.Standard) (hv : v.mentions "$let" = false) (k : Nat) :
    t.visited v k = t := by
  have hnothing : ((t.rules.take k).flatMap fun r => r.bindings v) = [] := by
    apply List.flatMap_eq_nil_iff.2
    intro r hr
    rcases (ht r (List.mem_of_mem_take hr)).bindings_eq v with hb | hb
    · rw [hb, Term.assignments_eq_nil hv]
    · exact hb
  rw [visited, hnothing, bindAll_nil]

/-- The first rule of the table that changes the term. -/
def changer? (t : Table) (v : Term) : Option Rule :=
  t.rules.find? fun r => decide (r.Changes v)

theorem changer?_mem {r : Rule} (h : t.changer? v = some r) : r ∈ t.rules :=
  List.mem_of_find?_eq_some h

theorem changes_of_changer? {r : Rule} (h : t.changer? v = some r) : r.Changes v := by
  simpa using List.find?_some h

/-- A scan of a term without an assignment ends at the first rule of the table that changes the
term. -/
theorem scan_cases_of_free (ht : t.Standard) (hv : v.mentions "$let" = false) :
    (t.changer? v = none ∧ t.scan v 0 = .unchanged t) ∨
      ∃ r place, t.changer? v = some r ∧ t.scan v 0 = .changed place (r.output v) t := by
  have hmet : ∀ k, t.met? v k = t.rules[k]? := fun k => by rw [met?, visited_of_free ht hv]
  rcases scan_cases ht v with ⟨hscan, hreaches⟩ | ⟨place, w, hscan, hreaches, r, hr, hc, rfl⟩
  · left
    rw [visited_of_free ht hv] at hscan
    refine ⟨List.find?_eq_none.2 fun r hr => ?_, hscan⟩
    obtain ⟨k, hk⟩ := List.getElem?_of_mem hr
    simpa using hreaches (k + 1) k (Nat.lt_succ_self k) r ((hmet k).trans hk)
  · right
    rw [visited_of_free ht hv] at hscan
    obtain ⟨hplace, heq⟩ := List.getElem?_eq_some_iff.1 ((hmet place).symm.trans hr)
    refine ⟨r, place, List.find?_eq_some_iff_getElem.2 ⟨by simpa using hc, place, hplace, heq, ?_⟩,
      hscan⟩
    intro k hk
    simpa using hreaches k hk _ ((hmet k).trans (List.getElem?_eq_getElem (hk.trans hplace)))

/-- A run of a term without an assignment ends, or it goes on with the first rule that changes the
term. -/
theorem run_cases_of_free (ht : t.Standard) (hv : v.mentions "$let" = false) :
    (t.changer? v = none ∧ ∀ n, t.run n v = ⟨[v], t, .normal⟩) ∨
      ∃ r, t.changer? v = some r ∧ t.run 0 v = ⟨[v], t, .unfinished⟩ ∧
        ∀ n, t.run (n + 1) v = (t.run n (r.output v)).cons v := by
  rcases scan_cases_of_free ht hv with ⟨hnone, hscan⟩ | ⟨r, place, hsome, hscan⟩
  · exact .inl ⟨hnone, fun n => run_of_scan_unchanged n hscan⟩
  · exact .inr ⟨r, hsome, by rw [run, hscan], fun n => by rw [run, hscan]⟩

/-- A run in a table with weights ends after no more rewrites than the weight of its term, and each
of its terms is lighter than the one before. -/
theorem Weighs.exists_run {W : String → Nat} (hW : t.Weighs W) (ht : t.Standard)
    (hlet : t.Avoids "$let") (hv : v.mentions "$let" = false) :
    ∃ trace, (∀ u ∈ trace, u.weight W ≤ v.weight W) ∧
      trace.Pairwise (fun u w => w.weight W < u.weight W) ∧
      ∀ n ≥ v.weight W, t.run n v = ⟨trace, t, .normal⟩ := by
  -- induction on the weight, which every rewrite makes smaller
  induction hweight : v.weight W using Nat.strong_induction_on generalizing v with
  | _ weight ih =>
    subst hweight
    rcases run_cases_of_free ht hv with ⟨-, hend⟩ | ⟨r, hfirst, -, hstep⟩
    · refine ⟨[v], ?_, List.pairwise_singleton _ _, fun n _ => hend n⟩
      intro u hu
      rw [List.mem_singleton.1 hu]
    · have hr := changer?_mem hfirst
      have hlighter := hW.weight_output_lt hr (ht r hr) (changes_of_changer? hfirst)
      obtain ⟨trace, hle, hpairwise, hrun⟩ :=
        ih _ hlighter (hlet.not_mentions_output ht hr hv) rfl
      refine ⟨v :: trace, ?_, List.pairwise_cons.2 ⟨?_, hpairwise⟩, ?_⟩
      · intro u hu
        rcases List.mem_cons.1 hu with rfl | hu
        · exact Nat.le_refl _
        · exact Nat.le_trans (hle u hu) (Nat.le_of_lt hlighter)
      · intro u hu
        exact Nat.lt_of_le_of_lt (hle u hu) hlighter
      · intro n hn
        cases n with
        | zero => omega
        | succ n =>
          rw [hstep, hrun n (by omega)]
          rfl

/-- Without a ceiling a reduction in a table with weights ends: there is a trace that it gives as soon
as it may take enough rewrites, and it leaves the table as it is. -/
theorem Weighs.exists_reduce {W : String → Nat} (hW : t.Weighs W) (ht : t.Standard)
    (hlet : t.Avoids "$let") (hv : v.mentions "$let" = false) :
    ∃ trace, trace.Pairwise (fun u w => w.weight W < u.weight W) ∧
      ∃ n, ∀ patience ≥ n, t.reduce patience .unlimited v = (.ok trace, t) := by
  obtain ⟨trace, -, hpairwise, hrun⟩ := hW.exists_run ht hlet hv
  refine ⟨trace, hpairwise, v.weight W, ?_⟩
  intro patience hpatience
  rw [reduce, Ceiling.rewrites, hrun patience hpatience]

/-- **A reduction in a table with a ranking ends.** If the symbols of every replacement rank below
the name that it is for, then the reduction of a term without an assignment ends without a ceiling:
there is a trace, without two equivalent terms, that it gives as soon as it may take enough
rewrites, and it leaves the table as it is. -/
theorem reduce_terminates_of_ranked {α : Type*} [Preorder α] {rank : String → α}
    (ht : t.Standard)
    (htags : ∀ name u, .substitution name u ∈ t.rules → ∀ op : Operation, name ≠ op.tag)
    (hrank : t.Ranked rank) (hlet : t.Avoids "$let") (hv : v.mentions "$let" = false) :
    ∃ trace, trace.Pairwise (fun u w => ¬ u.equivalent w = true) ∧
      ∃ n, ∀ patience ≥ n, t.reduce patience .unlimited v = (.ok trace, t) := by
  obtain ⟨W, hW⟩ : ∃ W, t.Weighs W := ⟨_, hrank.weighs_charge htags⟩
  obtain ⟨trace, hpairwise, hreduce⟩ := hW.exists_reduce ht hlet hv
  refine ⟨trace, hpairwise.imp ?_, hreduce⟩
  intro u w hlt heq
  rw [Term.weight_eq_of_equivalent heq] at hlt
  exact Nat.lt_irrefl _ hlt

/-- A table in which `z` stands for an application of the head `f`, and `f` for a tag; its last rule
puts a symbol in its own place. -/
def expanding : Table :=
  ⟨Rule.builtin ++ [.substitution "z" (.app (.sym "f") [.sym "y", .const 1]),
    .substitution "f" (.sym "$add"), .substitution "y" (.const 2), .substitution "w" (.sym "w")]⟩

theorem standard_expanding : expanding.Standard := by
  intro r hr
  rcases List.mem_append.1 hr with hr | hr
  · exact standard_default r hr
  · simp only [List.mem_cons, List.not_mem_nil, or_false] at hr
    rcases hr with rfl | rfl | rfl | rfl
    all_goals exact .substitution _ _

theorem mem_expanding {name : String} {u : Term} (h : .substitution name u ∈ expanding.rules) :
    name = "pi" ∧ u = .const Rule.piValue ∨ name = "e" ∧ u = .const Rule.eValue ∨
      name = "z" ∧ u = .app (.sym "f") [.sym "y", .const 1] ∨ name = "f" ∧ u = .sym "$add" ∨
      name = "y" ∧ u = .const 2 ∨ name = "w" ∧ u = .sym "w" := by
  simpa [expanding, Rule.builtin, Rule.ofOperation] using h

/-- The rank of a name in the table: how often a symbol of it has to be replaced at most. -/
def expandingRank (name : String) : Nat :=
  if name = "z" then 2 else if name = "$add" then 0 else 1

/-- In such a table `z * w` becomes a sum by itself, and then a product. -/
theorem reduce_terminates_expanding :
    expanding.Ranked expandingRank ∧
      ∃ trace, trace.Pairwise (fun u w => ¬ u.equivalent w = true) ∧
        ∃ n, ∀ patience ≥ n, expanding.reduce patience .unlimited
          (.binary "$mul" (.sym "z") (.sym "w")) = (.ok trace, expanding) := by
  have htags : ∀ name u, .substitution name u ∈ expanding.rules →
      ∀ op : Operation, name ≠ op.tag := by
    intro name u h op
    rcases mem_expanding h with ⟨rfl, -⟩ | ⟨rfl, -⟩ | ⟨rfl, -⟩ | ⟨rfl, -⟩ | ⟨rfl, -⟩ | ⟨rfl, -⟩
    all_goals cases op <;> decide
  have hrank : expanding.Ranked expandingRank := by
    intro name u h hne y hy
    rcases mem_expanding h with ⟨rfl, rfl⟩ | ⟨rfl, rfl⟩ | ⟨rfl, rfl⟩ | ⟨rfl, rfl⟩ | ⟨rfl, rfl⟩ |
      ⟨rfl, rfl⟩
    · simp at hy
    · simp at hy
    · have hcases : "f" = y ∨ "y" = y := by simpa using hy
      rcases hcases with rfl | rfl <;> decide
    · obtain rfl : "$add" = y := by simpa using hy
      decide
    · simp at hy
    · exact absurd rfl hne
  have hlet : expanding.Avoids "$let" := by
    intro name u h
    rcases mem_expanding h with ⟨-, rfl⟩ | ⟨-, rfl⟩ | ⟨-, rfl⟩ | ⟨-, rfl⟩ | ⟨-, rfl⟩ | ⟨-, rfl⟩
    all_goals rfl
  exact ⟨hrank, reduce_terminates_of_ranked standard_expanding htags hrank hlet (by rfl)⟩

end TermCalc.Table
