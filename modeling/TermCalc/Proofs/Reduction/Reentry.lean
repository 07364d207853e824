import TermCalc.Proofs.Reduction.Value
import TermCalc.Proofs.Rule.Arity
import TermCalc.Proofs.Rule.Congruence
import TermCalc.Proofs.Term.RoundTrip

/-!
# Results can be entered again

Not every term is displayed as a text that is read as the same term: a minus sign in front of a
number or of another minus sign is lost, and so is an assignment inside of a term. In a table of
numbers none of this is left at the end of a reduction. No rule brings in an assignment, and the
negation takes away every minus sign that would be lost. What is displayed is therefore read as an
equivalent term, and that term is as normal as the result.

A number in the place of a symbol that is applied to something cannot be displayed. So the names of
numbers must not be applied to anything in the term that is reduced; the rules never bring in such
an application.

## Main definitions

* `Term.Calling p v`: a readable term in which only names with the property `p` are applied

## Main results

* `Table.Numeric.calling_output`: the rules of a table of numbers bring in no applied number
* `Term.not_lossy_of_negate`: what the negation leaves as it is is read back
* `Table.Numeric.read?_display_of_normal`: a normal form is read back as a normal form
* `Table.result_reenters`: the result of a reduction is read back, and it reduces to itself
-/

namespace TermCalc

open Lexer (SymbolName)

/-! ## What is applied -/

namespace Term

/-- The constants, the symbols with proper names, and such symbols applied to terms of this kind if
their names have the property. -/
inductive Calling (p : String → Prop) : Term → Prop
  | const (x : Float) : Calling p (.const x)
  | sym {name : String} : SymbolName name.toList → Calling p (.sym name)
  | app {name : String} {args : List Term} : SymbolName name.toList → p name → args ≠ [] →
      (∀ a ∈ args, Calling p a) → Calling p (.app (.sym name) args)

variable {p : String → Prop} {s t v w : Term} {args : List Term}

theorem Calling.readable (h : Calling p v) : Readable v := by
  induction h with
  | const x => exact .const x
  | sym hname => exact .sym hname
  | app hname _ hne _ ih => exact .app hname hne ih

/-- A readable term calls what is applied in it. -/
theorem calling_of_readable (h : Readable v)
    (hp : ∀ name args, Part (.app (.sym name) args) v → p name) : Calling p v := by
  induction h with
  | const x => exact .const x
  | sym hname => exact .sym hname
  | app hname hne _ ih =>
    refine .app hname (hp _ _ .self) hne fun a ha => ?_
    exact ih a ha fun name args hpart => hp name args (.arg ha hpart)

theorem symbolName_operation (op : Operation) : SymbolName op.tag.toList := by
  cases op <;> exact symbolName_tag (by decide)

theorem Calling.unary_neg (hp : ∀ op : Operation, p op.tag) (h : Calling p v) :
    Calling p (unary "$neg" v) :=
  .app (symbolName_operation .negate) (hp .negate) (List.cons_ne_nil _ _)
    (List.forall_mem_singleton.2 h)

/-- A contraction takes its result from the operands, or it is a negation. -/
theorem Calling.contraction {op : Operation} (hp : ∀ op : Operation, p op.tag)
    (h : Operation.Contraction op.tag args t) (hne : args ≠ [])
    (hargs : ∀ a ∈ args, Calling p a) : Calling p t := by
  cases h with
  | whole => exact .app (symbolName_operation op) (hp op) hne hargs
  | const => exact .const _
  | left => exact hargs _ (by simp)
  | right => exact hargs _ (by simp)
  | negLeft => exact (hargs _ (by simp)).unary_neg hp
  | negRight => exact (hargs _ (by simp)).unary_neg hp
  | double =>
    cases hargs _ List.mem_cons_self with
    | app _ _ _ hinner => exact hinner _ List.mem_cons_self

/-- An operation applies nothing that has not been applied, but for its tags. -/
theorem Calling.everywhere {op : Operation} (hp : ∀ op : Operation, p op.tag) (h : Calling p v) :
    Calling p (op.everywhere v) := by
  induction h with
  | const x => exact .const x
  | sym hname => exact .sym hname
  | @app name args hname hcalled hne _ ih =>
    have hmap : ∀ b ∈ args.map op.everywhere, Calling p b := by
      intro b hb
      obtain ⟨a, ha, rfl⟩ := List.mem_map.1 hb
      exact ih a ha
    have hne' : args.map op.everywhere ≠ [] := mt List.map_eq_nil_iff.1 hne
    rw [Operation.everywhere_app, Operation.everywhere_sym]
    rcases @Operation.contraction_close op (.sym name) (args.map op.everywhere) with
      hclose | ⟨-, hclose⟩
    · rw [hclose]
      exact .app hname hcalled hne' hmap
    · exact .contraction hp hclose hne' hmap

/-- A number is put in the place of symbols that are not applied. -/
theorem Calling.substitute {name : String} {c : Float} (hname : ¬ p name) (h : Calling p v) :
    Calling p (Rule.substitute name (.const c) v) := by
  induction h with
  | const x => exact .const x
  | @sym n hn =>
    rw [Rule.substitute]
    split_ifs
    · exact .const c
    · exact .sym hn
  | @app n args hn hcalled hne _ ih =>
    have hother : n ≠ name := by
      rintro rfl
      exact hname hcalled
    rw [Rule.substitute_app, Rule.substitute_sym_of_ne hother]
    refine .app hn hcalled (mt List.map_eq_nil_iff.1 hne) fun b hb => ?_
    obtain ⟨a, ha, rfl⟩ := List.mem_map.1 hb
    exact ih a ha

/-! ## What is read back -/

/-- An assignment mentions its tag. -/
theorem not_assigns_of_not_mentions (hv : Readable v) (hlet : v.mentions "$let" = false) :
    ¬ Assigns v := by
  induction hv with
  | const x => exact not_assigns_const
  | sym _ => exact not_assigns_sym
  | @app name args _ _ _ ih =>
    obtain ⟨hname, hargs⟩ := mentions_app_eq_false.1 hlet
    rw [assigns_app]
    rintro (⟨rfl, -⟩ | ⟨a, ha, h⟩)
    · simp at hname
    · exact ih a ha (hargs a ha) h

/-- The negation leaves no minus sign in front of a number or of another minus sign. -/
theorem not_ambiguous_of_negate (hv : Readable v) (h : Operation.negate.everywhere v = v) :
    ¬ Ambiguous v := by
  induction hv with
  | const x => exact not_ambiguous_const
  | sym _ => exact not_ambiguous_sym
  | @app name args _ _ _ ih =>
    obtain ⟨-, hargs, hclose⟩ := Operation.everywhere_app_eq_self_iff.1 h
    rw [ambiguous_app]
    rintro (⟨rfl, operand, rfl, hm⟩ | ⟨a, ha, hambiguous⟩)
    · rw [Operation.close_eq_self_iff] at hclose
      apply hclose
      cases hm <;> exact ⟨rfl, rfl, rfl⟩
    · exact ih a ha (hargs a ha) hambiguous

theorem not_lossy_of_negate (hv : Readable v) (hlet : v.mentions "$let" = false)
    (h : Operation.negate.everywhere v = v) : ¬ Lossy v :=
  not_or.2 ⟨not_assigns_of_not_mentions hv hlet, not_ambiguous_of_negate hv h⟩

/-- A term without an assignment that the negation leaves as it is is read back. -/
theorem exists_read?_display (hv : Readable v) (hlet : v.mentions "$let" = false)
    (h : Operation.negate.everywhere v = v) :
    ∃ w, read? v.display = .ok w ∧ w.equivalent v = true := by
  refine (read?_display_expression_iff hv ?_).2 (not_lossy_of_negate hv hlet h)
  rintro name r rfl
  exact mentions_sym_eq_false.1 (mentions_app_eq_false.1 hlet).1 rfl

end Term

/-! ## Tables of numbers -/

namespace Table

open Term (Calling Readable Part)

variable {t t' : Table} {v w : Term}

/-- The table has no number for the name. -/
def Unnumbered (t : Table) (name : String) : Prop :=
  ∀ u, .substitution name u ∉ t.rules

theorem Numeric.unnumbered_tag (ht : t.Numeric) (op : Operation) : t.Unnumbered op.tag :=
  fun u hu => (ht.number op.tag u hu).2 op rfl

/-- A rule of a table of numbers applies no number to anything. -/
theorem Numeric.calling_output (ht : t.Numeric) {r : Rule} (hr : r ∈ t.rules)
    (hv : Calling t.Unnumbered v) : Calling t.Unnumbered (r.output v) := by
  have hstd := ht.standard r hr
  cases hstd with
  | substitution name u =>
    obtain ⟨⟨c, rfl⟩, -⟩ := ht.number name u hr
    exact hv.substitute fun hname => hname _ hr
  | builtin op =>
    rw [Rule.output_ofOperation]
    exact hv.everywhere ht.unnumbered_tag

/-- What is true of the first term of a rewriting without assignments, and stays true when a rule of
the table rewrites it, is true of the last one. -/
theorem Rewriting.exists_last_of_free {I : Term → Prop} {trace : List Term}
    (h : Rewriting t trace t') (ht : t.Standard) (hlet : t.Avoids "$let")
    (hstep : ∀ r ∈ t.rules, ∀ u, I u → I (r.output u)) (hhead : trace.head? = some v)
    (hfree : v.mentions "$let" = false) (hv : I v) :
    ∃ last, trace.getLast? = some last ∧ last.mentions "$let" = false ∧ I last ∧
      t.Normal last := by
  induction h generalizing v with
  | @normal t u hu =>
    obtain rfl : u = v := Option.some.inj hhead
    have hnormal := normal_of_reaches ht hu
    rw [visited_of_free ht hfree] at hnormal
    exact ⟨u, rfl, hfree, hv, hnormal⟩
  | @step t t' u w vs place hfirst hrest ih =>
    obtain rfl : u = v := Option.some.inj hhead
    obtain ⟨-, r, hr, -, rfl⟩ := hfirst
    rw [met?, visited_of_free ht hfree] at hr
    rw [visited_of_free ht hfree] at ih
    have hmem := List.mem_of_getElem? hr
    obtain ⟨last, hlast, hrest⟩ := ih ht hlet hstep rfl
      (hlet.not_mentions_output ht hmem hfree) (hstep r hmem u hv)
    exact ⟨last, by rw [List.getLast?_cons_cons, hlast], hrest⟩

/-- A normal form without an assignment reduces to itself under every ceiling. -/
theorem Normal.reduce_eq (ht : t.Standard) (hv : v.mentions "$let" = false) (h : t.Normal v)
    (patience : Nat) (ceiling : Ceiling) : t.reduce patience ceiling v = (.ok [v], t) := by
  rcases run_cases_of_free ht hv with ⟨-, hrun⟩ | ⟨r, hr, -⟩
  · rw [reduce, hrun]
  · exact absurd (changes_of_changer? hr) (h r (changer?_mem hr))

/-- A normal form is read back as a term that is a normal form, too. -/
theorem Numeric.read?_display_of_normal (ht : t.Numeric) (hv : Readable v)
    (hlet : v.mentions "$let" = false) (h : t.Normal v) :
    ∃ w, Term.read? v.display = .ok w ∧ w.equivalent v = true ∧
      ∀ patience ceiling, t.reduce patience ceiling w = (.ok [w], t) := by
  have hnegate := ht.operation .negate
  have hself := (ht.standard _ hnegate).not_changes_iff.1 (h _ hnegate)
  rw [Rule.output_ofOperation] at hself
  obtain ⟨w, hread, hw⟩ := Term.exists_read?_display hv hlet hself
  have hwlet : w.mentions "$let" = false := by rwa [Term.mentions_eq_of_equivalent hw]
  have hnormal : t.Normal w := fun r hr =>
    (ht.standard r hr).not_changes_of_equivalent (Term.equivalent_symm hw) (h r hr)
  exact ⟨w, hread, hw, hnormal.reduce_eq ht.standard hwlet⟩

/-- In a table of numbers the reduction of a readable term without an assignment, in which no number
is applied, ends with a term that is read back and reduces to itself. -/
theorem Numeric.exists_reentry (ht : t.Numeric) (hv : Calling t.Unnumbered v)
    (hlet : v.mentions "$let" = false) :
    ∃ last, t.EndsWith v last ∧ ∃ w, Term.read? last.display = .ok w ∧ w.equivalent last = true ∧
      ∀ patience ceiling, t.reduce patience ceiling w = (.ok [w], t) := by
  obtain ⟨trace, n, hreduce⟩ := ht.exists_reduce hlet
  have hn := hreduce n (Nat.le_refl n)
  obtain ⟨last, hlast, hfree, hcalling, hnormal⟩ :=
    (rewriting_of_reduce ht.standard hn).exists_last_of_free ht.standard (ht.avoids "$let")
      (fun r hr u hu => ht.calling_output hr hu) (head?_of_reduce hn) hlet hv
  exact ⟨last, ⟨trace, hlast, n, hreduce⟩,
    ht.read?_display_of_normal hcalling.readable hfree hnormal⟩

theorem unnumbered_default {name : String} (hpi : name ≠ "pi") (he : name ≠ "e") :
    default.Unnumbered name := by
  intro u hu
  simp [default, Rule.builtin, Rule.ofOperation, hpi, he] at hu

/-- **A displayed result can be entered again.** If a text is read as a term without an assignment,
in which neither `pi` nor `e` is applied to anything, then the reduction of that term on the table
that sessions start with ends by itself. Its last term is displayed as a text that is read as an
equivalent term, and on that table this term is not rewritten any further. -/
theorem result_reenters {source : String} (hread : Term.read? source = .ok v)
    (hlet : v.mentions "$let" = false) (hpi : ∀ args, ¬ Part (.app (.sym "pi") args) v)
    (he : ∀ args, ¬ Part (.app (.sym "e") args) v) :
    ∃ last, default.EndsWith v last ∧
      ∃ w, Term.read? last.display = .ok w ∧ w.equivalent last = true ∧
        ∀ patience ceiling, default.reduce patience ceiling w = (.ok [w], default) := by
  refine numeric_default.exists_reentry (Term.calling_of_readable (Term.readable_of_read? hread) ?_)
    hlet
  intro name args hpart
  apply unnumbered_default
  · rintro rfl
    exact hpi args hpart
  · rintro rfl
    exact he args hpart

/-- The result of `0 - -(x) * e` can be entered again, though the negation that the difference with
zero brings in stands in front of a product with a negation. -/
theorem result_reenters_difference :
    Term.read? "0 - -(x) * e" = .ok (.binary "$sub" (.const 0)
        (.binary "$mul" (.unary "$neg" (.sym "x")) (.sym "e"))) ∧
      ∃ last, default.EndsWith (.binary "$sub" (.const 0)
          (.binary "$mul" (.unary "$neg" (.sym "x")) (.sym "e"))) last ∧
        ∃ w, Term.read? last.display = .ok w ∧ w.equivalent last = true ∧
          ∀ patience ceiling, default.reduce patience ceiling w = (.ok [w], default) := by
  have hread : Term.read? "0 - -(x) * e" = .ok (.binary "$sub" (.const 0)
      (.binary "$mul" (.unary "$neg" (.sym "x")) (.sym "e"))) := by
    with_unfolding_all rfl
  refine ⟨hread, result_reenters hread (by rfl) ?_ ?_⟩
  all_goals
    intro args hpart
    simp [Term.binary, Term.unary, Term.part_app, Term.part_sym, Term.part_const] at hpart

end Table

end TermCalc
