import TermCalc.Proofs.Rule.Operation
import TermCalc.Proofs.Rule.Substitution

/-!
# Standard rules

The rules that a session can hold: substitutions, and the builtin operations for their own tags and
numbers of operands. Such a rule makes a term of every term.

## Main definitions

* `Rule.Standard r`: `r` is a substitution or a builtin operation
* `Rule.output r t`, `Rule.bindings r t`: what `r` makes of `t` and what it binds on the way
* `Rule.Changes r t`: the output is not equivalent to `t`

## Main results

* `Standard.rewrite_eq`: a standard rule never fails
* `Standard.not_changes_iff`: a standard rule that does not change a term gives it back
* `Standard.bindings_of_changes`: a standard rule that changes a term binds nothing
-/

namespace TermCalc

namespace Rule

/-- A substitution, or a builtin operation for its own tag and number of operands. -/
inductive Standard : Rule → Prop
  | substitution (name : String) (replacement : Term) : Standard (.substitution name replacement)
  | builtin (op : Operation) : Standard (ofOperation op)

/-- The term that a rule makes of `t`; where the rule fails, `t` itself. -/
def output (r : Rule) (t : Term) : Term :=
  match (r.rewrite t).result with
  | .ok u => u
  | .error _ => t

/-- The bindings that a rule makes on `t`, in order. -/
def bindings (r : Rule) (t : Term) : List Binding :=
  (r.rewrite t).bindings

/-- The rule makes something else of `t`. -/
def Changes (r : Rule) (t : Term) : Prop :=
  ¬ t.equivalent (r.output t) = true

instance (r : Rule) (t : Term) : Decidable (r.Changes t) :=
  inferInstanceAs (Decidable (¬ t.equivalent (r.output t) = true))

variable {r : Rule} {t : Term}

@[simp] theorem output_substitution (name : String) (u t : Term) :
    (substitution name u).output t = substitute name u t :=
  rfl

@[simp] theorem output_ofOperation (op : Operation) (t : Term) :
    (ofOperation op).output t = op.everywhere t := by
  rw [output, ofOperation, rewrite, operate_builtin]

@[simp] theorem bindings_ofOperation (op : Operation) (t : Term) :
    (ofOperation op).bindings t = boundBy op t := by
  rw [bindings, ofOperation, rewrite, operate_builtin]

/-- A standard rule never fails. -/
theorem Standard.rewrite_eq (h : r.Standard) (t : Term) :
    r.rewrite t = ⟨r.bindings t, .ok (r.output t)⟩ := by
  cases h with
  | substitution name u => rfl
  | builtin op =>
    rw [output_ofOperation, bindings_ofOperation]
    exact operate_builtin op t

/-- A standard rule that does not change a term gives it back. -/
theorem Standard.not_changes_iff (h : r.Standard) : ¬ r.Changes t ↔ r.output t = t := by
  rw [Changes, not_not]
  constructor
  · intro heq
    cases h with
    | substitution name u =>
      by_cases ht : t.mentions name = true
      · rw [output_substitution, eq_sym_of_equivalent_substitute heq ht, substitute_sym]
      · rw [output_substitution, substitute_of_not_mentions (by simpa using ht)]
    | builtin op =>
      -- an operation that changes a term makes it smaller, hence not equivalent
      rw [output_ofOperation] at heq ⊢
      exact Operation.everywhere_eq_of_equivalent heq
  · intro heq
    rw [heq]
    exact Term.equivalent_refl t

/-- A standard rule that changes a term binds nothing: only the assignment binds, and it changes no
term. -/
theorem Standard.bindings_of_changes (h : r.Standard) (hc : r.Changes t) : r.bindings t = [] := by
  cases h with
  | substitution name u => rfl
  | builtin op =>
    rw [bindings_ofOperation, boundBy, if_neg]
    rintro rfl
    apply hc
    rw [output_ofOperation, Operation.everywhere_assign]
    exact Term.equivalent_refl t

/-! ## Bindings and occurrence -/

/-- The bindings of a standard rule are the assignments of the term, or none. -/
theorem Standard.bindings_eq (h : r.Standard) (t : Term) :
    r.bindings t = t.assignments ∨ r.bindings t = [] := by
  cases h with
  | substitution name u => exact .inr rfl
  | builtin op =>
    rw [bindings_ofOperation, boundBy]
    split_ifs
    · exact .inl rfl
    · exact .inr rfl

/-- Only an application of `$let` to a symbol and a definition assigns. -/
theorem eq_of_mem_assigned {head : Term} {args : List Term} {b : Binding}
    (h : b ∈ Operation.assigned head args) :
    Term.app head args = .binary "$let" (.sym b.name) b.definition := by
  unfold Operation.assigned at h
  split at h
  · split_ifs at h with htag
    · obtain rfl := List.mem_singleton.1 h
      rw [htag]
      rfl
    · exact absurd h List.not_mem_nil
  · exact absurd h List.not_mem_nil

theorem mem_assignmentsAll_iff {b : Binding} {ts : List Term} :
    b ∈ Term.assignmentsAll ts ↔ ∃ t ∈ ts, b ∈ t.assignments := by
  induction ts with
  | nil => simp [Term.assignmentsAll]
  | cons t ts ih => simp [Term.assignmentsAll, ih]

/-- The symbols of an assignment that a term makes occur in the term. -/
theorem mentions_of_mentions_assignment {b : Binding} {t : Term} {name : String}
    (h : b ∈ t.assignments)
    (hname : (Term.binary "$let" (.sym b.name) b.definition).mentions name = true) :
    t.mentions name = true := by
  induction t using Term.induction with
  | const x => simp [Term.assignments] at h
  | sym n => simp [Term.assignments] at h
  | app head args hh ha =>
    rw [Term.assignments, List.mem_append, List.mem_append] at h
    rcases h with h | h | h
    · exact Term.mentions_app.2 (.inl (hh h))
    · obtain ⟨a, hm, h⟩ := mem_assignmentsAll_iff.1 h
      exact Term.mentions_app.2 (.inr ⟨a, hm, ha a hm h⟩)
    · rwa [eq_of_mem_assigned h]
  | lam params body => simp [Term.assignments] at h

/-- A name that a term binds occurs in the term. -/
theorem mentions_of_mem_assignments {b : Binding} {t : Term} (h : b ∈ t.assignments) :
    t.mentions b.name = true :=
  mentions_of_mentions_assignment h (Term.mentions_binary.2 (.inr (.inl (Term.mentions_sym.2 rfl))))

/-- A rule binds no definition with other symbols than those of the term. -/
theorem Standard.not_mentions_definition (h : r.Standard) {b : Binding} {name : String}
    (hb : b ∈ r.bindings t) (ht : t.mentions name = false) :
    b.definition.mentions name = false := by
  rw [← Bool.not_eq_true] at ht ⊢
  intro hname
  rcases h.bindings_eq t with hbindings | hbindings
  · rw [hbindings] at hb
    exact ht (mentions_of_mentions_assignment hb (Term.mentions_binary.2 (.inr (.inr hname))))
  · exact absurd (hbindings ▸ hb) List.not_mem_nil

/-- A rule renames a symbol exactly if it substitutes something else for it. -/
theorem renames_iff {name : String} :
    r.renames name = true ↔ ∃ u, r = .substitution name u ∧ u ≠ .sym name := by
  cases r with
  | operation tag op arity => simp [renames]
  | substitution n u =>
    simp only [renames, Bool.and_eq_true, beq_iff_eq, Bool.not_eq_true', substitution.injEq]
    rw [← Bool.not_eq_true, Term.equivalent_sym_left]
    constructor
    · rintro ⟨rfl, hu⟩
      exact ⟨u, ⟨rfl, rfl⟩, hu⟩
    · rintro ⟨u', ⟨rfl, rfl⟩, hu⟩
      exact ⟨rfl, hu⟩

/-- A rule that renames a symbol changes the terms in which it occurs. -/
theorem changes_of_renames {name : String} (h : r.renames name = true)
    (ht : t.mentions name = true) : r.Changes t := by
  obtain ⟨u, rfl, hu⟩ := renames_iff.1 h
  exact fun heq => hu (eq_sym_of_equivalent_substitute heq ht)

/-- A substitution changes a term exactly if it renames a symbol that occurs there. -/
theorem changes_substitution_iff {name : String} {u : Term} :
    (substitution name u).Changes t ↔
      (substitution name u).renames name = true ∧ t.mentions name = true := by
  rw [Changes, output_substitution, equivalent_substitute_iff, renames_iff]
  constructor
  · intro h
    push Not at h
    exact ⟨⟨u, rfl, h.2⟩, h.1⟩
  · rintro ⟨⟨u', hu', hne⟩, ht⟩ h
    obtain rfl : u = u' := by simpa using hu'
    exact hne (h ht)

/-! ## Symbols and assignments -/

/-- A symbol is changed by the rules that rename it, and by no other. -/
theorem Standard.changes_sym_iff (h : r.Standard) {name : String} :
    r.Changes (.sym name) ↔ r.renames name = true := by
  cases h with
  | substitution n u =>
    rw [changes_substitution_iff, Term.mentions_sym, renames_iff, renames_iff]
    constructor
    · rintro ⟨⟨u', hu', hne⟩, rfl⟩
      exact ⟨u', hu', hne⟩
    · rintro ⟨u', hu', hne⟩
      obtain ⟨rfl, rfl⟩ := substitution.inj hu'
      exact ⟨⟨u, rfl, hne⟩, rfl⟩
  | builtin op =>
    rw [Changes, output_ofOperation, Operation.everywhere_sym, Term.equivalent_refl]
    exact iff_of_false (fun h => h rfl) Bool.false_ne_true

/-- A rule that does not rename a symbol gives it back. -/
theorem Standard.output_sym_of_not_renames (h : r.Standard) {name : String}
    (hname : r.renames name ≠ true) : r.output (.sym name) = .sym name :=
  h.not_changes_iff.1 (mt h.changes_sym_iff.1 hname)

/-- An assignment is rewritten part by part. -/
theorem Standard.output_assign (h : r.Standard) (n d : Term) :
    r.output (.binary "$let" n d) = .app (r.output (.sym "$let")) [r.output n, r.output d] := by
  cases h with
  | substitution name u => exact substitute_app _ _
  | builtin op =>
    simp only [output_ofOperation, Term.binary, Operation.everywhere_app, List.map_cons,
      List.map_nil, Operation.everywhere_sym]
    by_cases hop : op = .assign
    · subst hop
      exact Operation.close_assign _ _
    · apply Operation.close_of_not_applies
      rintro ⟨htag, -⟩
      cases op <;> simp [Operation.tag] at htag hop

/-- A rule changes an assignment exactly if it renames the tag or changes one of the parts. -/
theorem Standard.changes_assign_iff (h : r.Standard) {n d : Term} :
    r.Changes (.binary "$let" n d) ↔ r.renames "$let" = true ∨ r.Changes n ∨ r.Changes d := by
  -- compared by their outputs, since a rule that changes nothing gives the term back
  have hparts : r.output (.binary "$let" n d) = .binary "$let" n d ↔
      r.output (.sym "$let") = .sym "$let" ∧ r.output n = n ∧ r.output d = d := by
    rw [h.output_assign, Term.binary]
    simp only [Term.app.injEq, List.cons.injEq, and_true]
  rw [← h.changes_sym_iff, ← not_iff_not]
  simp only [not_or, h.not_changes_iff]
  exact hparts

/-- A rule brings no symbol into a term but those of its replacement and `$neg`. -/
theorem Standard.not_mentions_output (h : r.Standard) {name : String}
    (hu : ∀ n u, r = .substitution n u → u.mentions name = false) (hneg : name ≠ "$neg")
    (ht : t.mentions name = false) : (r.output t).mentions name = false := by
  cases h with
  | substitution n u =>
    rw [← Bool.not_eq_true, output_substitution, mentions_substitute_iff, ht, hu n u rfl]
    simp
  | builtin op =>
    rw [← Bool.not_eq_true, output_ofOperation]
    intro hmentions
    rcases Operation.mentions_of_mentions_everywhere hmentions with h | h
    · exact hneg h
    · rw [ht] at h
      exact Bool.noConfusion h

end Rule

end TermCalc
