import TermCalc.Proofs.Term.Equivalence
import TermCalc.Rule.Basic

/-!
# Substitution

When a substitution changes a term, and which symbols occur in its result.

## Main results

* `equivalent_substitute_iff`: a substitution changes a term exactly if its symbol occurs there and
  is not put in its own place
* `mentions_substitute_iff`: the symbols of the result
-/

namespace TermCalc.Rule

variable {name : String} {u : Term}

@[simp] theorem substitute_const (x : Float) : substitute name u (.const x) = .const x :=
  rfl

@[simp] theorem substitute_sym_self : substitute name u (.sym name) = u := by
  simp [substitute]

theorem substitute_sym_of_ne {n : String} (h : n ≠ name) :
    substitute name u (.sym n) = .sym n := by
  simp [substitute, h]

@[simp] theorem substitute_app (head : Term) (args : List Term) :
    substitute name u (.app head args) =
      .app (substitute name u head) (args.map (substitute name u)) := by
  rw [substitute, substituteAll_eq_map]

@[simp] theorem substitute_lam (params : List Term) (body : Term) :
    substitute name u (.lam params body) = .lam params body :=
  rfl

/-- A term without the symbol stays as it is. -/
theorem substitute_of_not_mentions {t : Term} (h : t.mentions name = false) :
    substitute name u t = t := by
  induction t using Term.induction with
  | const x => rfl
  | sym n => exact substitute_sym_of_ne (Term.mentions_sym_eq_false.1 h)
  | app head args hh ha =>
    obtain ⟨hhead, hargs⟩ := Term.mentions_app_eq_false.1 h
    rw [substitute_app, hh hhead]
    congr 1
    exact (List.map_congr_left fun a hm => ha a hm (hargs a hm)).trans (List.map_id _)
  | lam params body => rfl

/-- A symbol that is put in its own place changes nothing. -/
theorem substitute_sym (t : Term) : substitute name (.sym name) t = t := by
  induction t using Term.induction with
  | const x => rfl
  | sym n =>
    by_cases hn : n = name
    · rw [hn, substitute_sym_self]
    · exact substitute_sym_of_ne hn
  | app head args hh ha =>
    rw [substitute_app, hh]
    congr 1
    exact (List.map_congr_left ha).trans (List.map_id _)
  | lam params body => rfl

/-- Where the symbol occurs, only the symbol itself can take its place without a change. -/
theorem eq_sym_of_equivalent_substitute {t : Term} (h : t.equivalent (substitute name u t) = true)
    (ht : t.mentions name = true) : u = .sym name := by
  induction t using Term.induction with
  | const x => simp at ht
  | sym n =>
    obtain rfl := Term.mentions_sym.1 ht
    simpa using h
  | app head args hh ha =>
    -- every part is equivalent to its own result, and the symbol occurs in one of them
    rw [substitute_app, Term.equivalent_app_iff, List.forall₂_map_right_iff, List.forall₂_same] at h
    rcases Term.mentions_app.1 ht with ht | ⟨a, hm, ht⟩
    · exact hh h.1 ht
    · exact ha a hm (h.2 a hm) ht
  | lam params body => simp at ht

/-- A substitution leaves a term unchanged exactly if its symbol does not occur there or is put in
its own place. -/
theorem equivalent_substitute_iff {t : Term} :
    t.equivalent (substitute name u t) = true ↔ (t.mentions name = true → u = .sym name) := by
  constructor
  · exact eq_sym_of_equivalent_substitute
  · intro h
    by_cases ht : t.mentions name = true
    · rw [h ht, substitute_sym]
      exact Term.equivalent_refl t
    · rw [substitute_of_not_mentions (by simpa using ht)]
      exact Term.equivalent_refl t

/-- The symbols of the result are the other symbols of the term and, where the symbol occurs, those
of its replacement. -/
theorem mentions_substitute_iff {t : Term} {y : String} :
    (substitute name u t).mentions y = true ↔
      (t.mentions y = true ∧ y ≠ name) ∨ (t.mentions name = true ∧ u.mentions y = true) := by
  induction t using Term.induction with
  | const x => simp
  | sym n =>
    by_cases hn : n = name
    · subst hn
      rw [substitute_sym_self, Term.mentions_sym, Term.mentions_sym]
      constructor
      · exact fun h => .inr ⟨rfl, h⟩
      · rintro (⟨rfl, hy⟩ | ⟨-, h⟩)
        · exact absurd rfl hy
        · exact h
    · rw [substitute_sym_of_ne hn, Term.mentions_sym, Term.mentions_sym]
      constructor
      · rintro rfl
        exact .inl ⟨rfl, hn⟩
      · rintro (⟨h, -⟩ | ⟨h, -⟩)
        · exact h
        · exact absurd h hn
  | app head args hh ha =>
    simp only [substitute_app, Term.mentions_app, List.mem_map, exists_exists_and_eq_and, hh]
    constructor
    · rintro ((h | h) | ⟨a, hm, h⟩)
      · exact .inl ⟨.inl h.1, h.2⟩
      · exact .inr ⟨.inl h.1, h.2⟩
      · rcases (ha a hm).1 h with h | h
        · exact .inl ⟨.inr ⟨a, hm, h.1⟩, h.2⟩
        · exact .inr ⟨.inr ⟨a, hm, h.1⟩, h.2⟩
    · rintro (⟨h | ⟨a, hm, h⟩, hy⟩ | ⟨h | ⟨a, hm, h⟩, hu⟩)
      · exact .inl (.inl ⟨h, hy⟩)
      · exact .inr ⟨a, hm, (ha a hm).2 (.inl ⟨h, hy⟩)⟩
      · exact .inl (.inr ⟨h, hu⟩)
      · exact .inr ⟨a, hm, (ha a hm).2 (.inr ⟨h, hu⟩)⟩
  | lam params body => simp

end TermCalc.Rule
