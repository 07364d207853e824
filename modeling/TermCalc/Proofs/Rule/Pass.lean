import TermCalc.Proofs.Rule.Operation
import TermCalc.Proofs.Term.Part

/-!
# One pass of an operation

An operation works on a term from the inside out and in one pass. What it leaves behind holds no
application that it would contract again, and nothing but negations is new in it.

## Main results

* `part_of_part_everywhere`: the symbols and abstractions of the result were there before, but for
  the symbol `$neg`
* `everywhere_everywhere`: a second pass changes nothing
-/

namespace TermCalc.Operation

variable {op : Operation} {tag : String} {s : Term}

/-! ## The parts of the result -/

/-- A contraction brings in no symbol but `$neg`, and no abstraction. -/
theorem Contraction.part {args : List Term} {t : Term} (h : Contraction tag args t)
    (hconst : ∀ x, s ≠ .const x) (happ : ∀ head as, s ≠ .app head as) (hs : Term.Part s t) :
    s = .sym "$neg" ∨ Term.Part s (.app (.sym tag) args) := by
  have hmem : ∀ a ∈ args, Term.Part s a → Term.Part s (.app (.sym tag) args) :=
    fun a ha h => .arg ha h
  have hneg : ∀ a ∈ args, Term.Part s (.unary "$neg" a) →
      s = .sym "$neg" ∨ Term.Part s (.app (.sym tag) args) := by
    intro a ha h
    rcases Term.part_app.1 h with h | h | ⟨b, hb, h⟩
    · exact absurd h (happ _ _)
    · exact .inl h
    · rw [List.mem_singleton.1 hb] at h
      exact .inr (hmem a ha h)
  cases h with
  | whole => exact .inr hs
  | const => exact absurd (Term.part_const.1 hs) (hconst _)
  | left => exact .inr (hmem _ (by simp) hs)
  | right => exact .inr (hmem _ (by simp) hs)
  | negLeft => exact hneg _ (by simp) hs
  | negRight => exact hneg _ (by simp) hs
  | double => exact .inr (.arg List.mem_cons_self (.arg List.mem_cons_self hs))

/-- The symbols and abstractions in the result of an operation were in the term before, but for the
symbol `$neg`. -/
theorem part_of_part_everywhere {t : Term} (hconst : ∀ x, s ≠ .const x)
    (happ : ∀ head as, s ≠ .app head as) (h : Term.Part s (op.everywhere t)) :
    s = .sym "$neg" ∨ Term.Part s t := by
  induction t using Term.induction with
  | const x => exact .inr h
  | sym name => exact .inr h
  | app head args hh ha =>
    have hparts : s = .sym "$neg" ∨
        Term.Part s (.app (op.everywhere head) (args.map op.everywhere)) := by
      rw [everywhere_app] at h
      rcases contraction_close (op.everywhere head) (args.map op.everywhere) with hc | ⟨hhead, hc⟩
      · exact .inr (hc ▸ h)
      · rw [hhead]
        exact hc.part hconst happ h
    rcases hparts with hs | hs
    · exact .inl hs
    · cases hs with
      | self => exact absurd rfl (happ _ _)
      | head hs => exact (hh hs).imp_right .head
      | arg hmem hs =>
        obtain ⟨a, ha', rfl⟩ := List.mem_map.1 hmem
        exact (ha a ha' hs).imp_right (.arg ha')
  | lam params body => exact .inr h

/-! ## A second pass -/

/-- The other operations go through the arguments of `$neg`. -/
theorem everywhere_neg (hop : op ≠ .negate) (args : List Term) :
    op.everywhere (.app (.sym "$neg") args) = .app (.sym "$neg") (args.map op.everywhere) := by
  rw [everywhere_app]
  refine close_of_not_applies ?_
  rintro ⟨htag, -⟩
  cases op <;> simp [Operation.tag] at htag hop

/-- An operation of two operands leaves the negation of a finished term as it is. -/
theorem everywhere_negation {a : Term} (hop : op ≠ .negate) (ha : op.everywhere a = a) :
    op.everywhere (.unary "$neg" a) = .unary "$neg" a := by
  rw [Term.unary, everywhere_neg hop, List.map_singleton, ha]

/-- Closing an application whose parts are finished gives a finished term. -/
theorem everywhere_close {head : Term} {args : List Term} (hhead : op.everywhere head = head)
    (hargs : ∀ a ∈ args, op.everywhere a = a) :
    op.everywhere (op.close head args) = op.close head args := by
  by_cases hwhole : op.close head args = .app head args
  · rw [hwhole]
    exact everywhere_app_eq_self_iff.2 ⟨hhead, hargs, hwhole⟩
  · rcases @contraction_close op head args with hc | ⟨rfl, hc⟩
    · exact absurd hc hwhole
    · generalize hresult : op.close (.sym op.tag) args = result at hc hwhole ⊢
      -- what adds a negation has two operands, so it is no negation itself
      have htwo : args.length = 2 → op ≠ .negate := by
        rintro hlength rfl
        refine hwhole (hresult ▸ close_of_not_applies ?_)
        rw [hlength]
        exact fun h => absurd h.2 (by decide)
      cases hc with
      | whole => exact absurd rfl hwhole
      | const => rfl
      | left => exact hargs _ (by simp)
      | right => exact hargs _ (by simp)
      | negLeft => exact everywhere_negation (htwo rfl) (hargs _ (by simp))
      | negRight => exact everywhere_negation (htwo rfl) (hargs _ (by simp))
      | double =>
        have hinner := everywhere_app_eq_self_iff.1 (hargs _ List.mem_cons_self)
        exact hinner.2.1 _ List.mem_cons_self

/-- A second pass of an operation changes nothing. -/
theorem everywhere_everywhere (op : Operation) (t : Term) :
    op.everywhere (op.everywhere t) = op.everywhere t := by
  induction t using Term.induction with
  | const x => rfl
  | sym name => rfl
  | app head args hh ha =>
    rw [everywhere_app]
    refine everywhere_close hh fun b hb => ?_
    obtain ⟨a, ha', rfl⟩ := List.mem_map.1 hb
    exact ha a ha'
  | lam params body => rfl

end TermCalc.Operation
