import TermCalc.Proofs.Rule.Standard
import TermCalc.Proofs.Term.Address

/-!
# What a substitution makes of a term

A substitution puts its replacement at the addresses of its symbol and leaves every other node where
it was, an abstraction with all that is in it. This determines the result. So a second pass changes
nothing unless the replacement brings the symbol in again, and the order of two substitutions does
not matter unless one of them brings in the symbol of the other.

## Main definitions

* `Term.Replaced name u v w`: `w` is the tree of `v` with `u` at the addresses of the symbol `name`

## Main results

* `Rule.replaced_iff`: the result of a substitution is the only such tree
* `Rule.substitute_comm`: substitutions that do not bring in each other's symbols commute
* `Rule.substitution_replaces_occurrences`: when a substitution fires, and what it does
-/

namespace TermCalc

open Term (Turn Occurs)

/-- The term `w` is the tree of `v` with `u` at exactly the addresses of the symbol `name`. At every
other address of `v` it has the same node, which of an abstraction is the whole of it. -/
structure Term.Replaced (name : String) (u v w : Term) : Prop where
  at_symbol : ∀ address, v.part? address = some (.sym name) → w.part? address = some u
  elsewhere : ∀ address t, v.part? address = some t → t ≠ .sym name →
    ∃ s, w.part? address = some s ∧ s.node = t.node

namespace Term

variable {name : String} {u v w head head' : Term} {args args' : List Term}

/-! ## The parts of a tree with replacements -/

theorem Replaced.node_eq (h : Replaced name u v w) (hv : v ≠ .sym name) : w.node = v.node := by
  obtain ⟨s, hs, hnode⟩ := h.elsewhere [] v rfl hv
  rwa [← Option.some.inj hs] at hnode

theorem Replaced.of_head (h : Replaced name u (.app head args) (.app head' args')) :
    Replaced name u head head' where
  at_symbol address := h.at_symbol (.head :: address)
  elsewhere address := h.elsewhere (.head :: address)

theorem Replaced.of_arg (h : Replaced name u (.app head args) (.app head' args')) {index : Nat}
    {a b : Term} (ha : args[index]? = some a) (hb : args'[index]? = some b) :
    Replaced name u a b := by
  have hv : ∀ address, (app head args).part? (.arg index :: address) = a.part? address :=
    fun address => by rw [part?_arg, ha, Option.bind_some]
  have hw : ∀ address, (app head' args').part? (.arg index :: address) = b.part? address :=
    fun address => by rw [part?_arg, hb, Option.bind_some]
  constructor
  · intro address hsym
    rw [← hw]
    exact h.at_symbol _ ((hv address).trans hsym)
  · intro address t ht hne
    rw [← hw]
    exact h.elsewhere _ t ((hv address).trans ht) hne

theorem exists_app_of_node_eq (h : w.node = (app head args).node) :
    ∃ head' args', w = .app head' args' ∧ args'.length = args.length := by
  cases w with
  | app head' args' => exact ⟨head', args', rfl, Node.app.inj h⟩
  | _ => simp [node] at h

end Term

namespace Rule

variable {name name' : String} {u u' v w t : Term} {address : List Turn}

/-! ## The result of a substitution -/

/-- The parts of the result are the results of the parts. -/
theorem part?_substitute (h : v.part? address = some t) :
    (substitute name u v).part? address = some (substitute name u t) := by
  induction address generalizing v with
  | nil =>
    obtain rfl := Option.some.inj h
    rfl
  | cons turn address ih =>
    cases v with
    | app head args =>
      rw [substitute_app]
      cases turn with
      | head => exact ih h
      | arg index =>
        obtain ⟨a, ha, h⟩ := Term.part?_arg_eq_some_iff.1 h
        refine Term.part?_arg_eq_some_iff.2 ⟨substitute name u a, ?_, ih h⟩
        rw [List.getElem?_map, ha, Option.map_some]
    | _ => simp at h

theorem node_substitute (h : t ≠ .sym name) : (substitute name u t).node = t.node := by
  cases t with
  | const x => rfl
  | sym n =>
    have hne : n ≠ name := fun heq => h (congrArg Term.sym heq)
    rw [substitute_sym_of_ne hne]
  | app head args =>
    rw [substitute_app, Term.node, Term.node, List.length_map]
  | lam params body => rfl

theorem replaced_substitute (name : String) (u v : Term) :
    Term.Replaced name u v (substitute name u v) where
  at_symbol address h := by
    rw [part?_substitute h, substitute_sym_self]
  elsewhere address t h hne := ⟨substitute name u t, part?_substitute h, node_substitute hne⟩

/-- The nodes of a tree with replacements determine it. -/
theorem eq_substitute_of_replaced (h : Term.Replaced name u v w) : w = substitute name u v := by
  induction v using Term.induction generalizing w with
  | const x =>
    have hnode := h.node_eq fun heq => Term.noConfusion heq
    cases w with
    | const y => exact congrArg Term.const (Term.Node.const.inj hnode)
    | _ => simp [Term.node] at hnode
  | sym n =>
    by_cases hn : n = name
    · rw [hn] at h ⊢
      rw [substitute_sym_self]
      exact Option.some.inj (h.at_symbol [] rfl)
    · have hnode := h.node_eq fun heq => hn (Term.sym.inj heq)
      rw [substitute_sym_of_ne hn]
      cases w with
      | sym m => exact congrArg Term.sym (Term.Node.sym.inj hnode)
      | _ => simp [Term.node] at hnode
  | app head args hh ha =>
    obtain ⟨head', args', rfl, hlength⟩ :=
      Term.exists_app_of_node_eq (h.node_eq fun heq => Term.noConfusion heq)
    rw [substitute_app, ← hh h.of_head]
    congr 1
    apply List.ext_getElem (by rw [hlength, List.length_map])
    intro index hindex hmap
    have hbound : index < args.length := hlength ▸ hindex
    rw [List.getElem_map]
    exact ha _ (List.getElem_mem hbound)
      (h.of_arg (List.getElem?_eq_getElem hbound) (List.getElem?_eq_getElem hindex))
  | lam params body =>
    have hnode := h.node_eq fun heq => Term.noConfusion heq
    cases w with
    | lam params' body' =>
      obtain ⟨rfl, rfl⟩ := Term.Node.lam.inj hnode
      rfl
    | _ => simp [Term.node] at hnode

/-- The result of a substitution is the only tree with its replacements. -/
theorem replaced_iff : Term.Replaced name u v w ↔ w = substitute name u v := by
  constructor
  · exact eq_substitute_of_replaced
  · rintro rfl
    exact replaced_substitute name u v

/-! ## Two passes -/

theorem not_mentions_substitute_self (hu : u.mentions name = false) :
    (substitute name u v).mentions name = false := by
  rw [← Bool.not_eq_true, mentions_substitute_iff, hu]
  simp

/-- Substitutions for two symbols commute if neither brings in the symbol of the other. -/
theorem substitute_comm (hne : name ≠ name') (hu : u.mentions name' = false)
    (hu' : u'.mentions name = false) (v : Term) :
    substitute name u (substitute name' u' v) = substitute name' u' (substitute name u v) := by
  induction v using Term.induction with
  | const x => rfl
  | sym n =>
    by_cases hn : n = name
    · rw [hn, substitute_sym_self, substitute_sym_of_ne hne, substitute_sym_self,
        substitute_of_not_mentions hu]
    · by_cases hn' : n = name'
      · rw [hn', substitute_sym_self, substitute_sym_of_ne hne.symm, substitute_sym_self,
          substitute_of_not_mentions hu']
      · rw [substitute_sym_of_ne hn, substitute_sym_of_ne hn', substitute_sym_of_ne hn]
  | app head args hh ha =>
    simp only [substitute_app, hh, List.map_map]
    congr 1
    exact List.map_congr_left ha
  | lam params body => rfl

/-- **When a substitution fires, and what it does.** It never fails and binds nothing. It changes a
term exactly if its symbol stands at an address of the term, the heads of applications among them,
and the replacement is not that symbol. The result is the tree of the term with the replacement at
exactly those addresses. A second pass gives the result back if the symbol stands nowhere in the
replacement, and the order of the substitutions for two symbols does not matter if neither
replacement has the symbol of the other. -/
theorem substitution_replaces_occurrences (name : String) (u v : Term) :
    ∃ w, (substitution name u).rewrite v = ⟨[], .ok w⟩ ∧
      (¬ v.equivalent w = true ↔ v.Occurs name ∧ u ≠ .sym name) ∧
      (∀ t, Term.Replaced name u v t ↔ t = w) ∧
      (¬ u.Occurs name → (substitution name u).rewrite w = ⟨[], .ok w⟩) ∧
      ∀ name' u', name' ≠ name → ¬ u.Occurs name' → ¬ u'.Occurs name →
        ∃ w' both, (substitution name' u').rewrite v = ⟨[], .ok w'⟩ ∧
          (substitution name' u').rewrite w = ⟨[], .ok both⟩ ∧
          (substitution name u).rewrite w' = ⟨[], .ok both⟩ := by
  refine ⟨substitute name u v, rfl, ?_, fun t => replaced_iff, ?_, ?_⟩
  · rw [equivalent_substitute_iff, Term.occurs_iff_mentions, Classical.not_imp]
  · intro hu
    have hagain : substitute name u (substitute name u v) = substitute name u v :=
      substitute_of_not_mentions (not_mentions_substitute_self (Term.not_occurs_iff.1 hu))
    exact congrArg (fun w => Effect.mk [] (.ok w)) hagain
  · intro name' u' hne hu hu'
    have hcomm := substitute_comm hne.symm (Term.not_occurs_iff.1 hu) (Term.not_occurs_iff.1 hu') v
    refine ⟨substitute name' u' v, substitute name u (substitute name' u' v), rfl, ?_, rfl⟩
    exact congrArg (fun w => Effect.mk [] (.ok w)) hcomm.symm

/-- The symbol `x` gives way at the head and in the first argument of `x(x, (x) -> x, z)`, and stays
inside the abstraction. The substitution is made again without effect, and before or after one
for `z`. -/
theorem substitution_replaces_occurrences_around_abstraction :
    let v : Term := .app (.sym "x") [.sym "x", .lam [.sym "x"] (.sym "x"), .sym "z"]
    let u : Term := .unary "f" (.sym "y")
    let w : Term := .app u [u, .lam [.sym "x"] (.sym "x"), .sym "z"]
    v.Occurs "x" ∧ u ≠ .sym "x" ∧ ¬ u.Occurs "x" ∧ ¬ u.Occurs "z" ∧
      ¬ (Term.sym "y").Occurs "x" ∧ ¬ v.equivalent w = true ∧ Term.Replaced "x" u v w ∧
      (substitution "x" u).rewrite w = ⟨[], .ok w⟩ ∧
      ∃ w' both, (substitution "z" (.sym "y")).rewrite v = ⟨[], .ok w'⟩ ∧
        (substitution "z" (.sym "y")).rewrite w = ⟨[], .ok both⟩ ∧
        (substitution "x" u).rewrite w' = ⟨[], .ok both⟩ := by
  intro v u w
  have hv : v.Occurs "x" := ⟨[.head], rfl⟩
  have hne : u ≠ .sym "x" := fun h => Term.noConfusion h
  have hx : ¬ u.Occurs "x" := Term.not_occurs_iff.2 (by decide)
  have hz : ¬ u.Occurs "z" := Term.not_occurs_iff.2 (by decide)
  have hy : ¬ (Term.sym "y").Occurs "x" := Term.not_occurs_iff.2 (by decide)
  obtain ⟨w', hrewrite, hchanges, hreplaced, hagain, hcomm⟩ :=
    substitution_replaces_occurrences "x" u v
  obtain rfl : w = w' := Except.ok.inj (congrArg Effect.result hrewrite)
  exact ⟨hv, hne, hx, hz, hy, hchanges.2 ⟨hv, hne⟩, (hreplaced w).2 rfl, hagain hx,
    hcomm "z" (.sym "y") (by decide) hz hy⟩

end Rule

end TermCalc
