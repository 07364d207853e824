import TermCalc.Proofs.Rule.Arity

/-!
# What is mistaken for a double negation

Where a negated application of `$neg` to several arguments is mistaken for a double negation, the
negation takes an application of a tag to a wrong number of arguments away. If the tag has been set
apart nothing of the kind can happen, and no other operation makes up for it.

## Main definitions

* `Term.chain tag t`: how many applications of the tag to two arguments hang together at the top
* `Operation.several`: the applications of `$neg` to several arguments

## Main results

* `applications_negate_lt`: where something is mistaken, an application of `$neg` to several
  arguments goes away
* `applications_negate_eq`: where no such application is, none of any other symbol goes away
* `negate_setApart_ne`: the negation does not do the same when the tags are set apart
* `everywhere_ne_negate_of_mistakable`: no other operation does what the negation does
-/

namespace TermCalc

namespace Term

/-- How many applications of the tag to two arguments hang together at the top of the term. -/
def chain (tag : String) : Term → Nat
  | .app (.sym name) [left, right] => if name = tag then chain tag left + chain tag right + 1 else 0
  | _ => 0

@[simp] theorem chain_binary (tag : String) (left right : Term) :
    chain tag (.app (.sym tag) [left, right]) = chain tag left + chain tag right + 1 := by
  rw [chain, if_pos rfl]

theorem chain_of_not_applies {tag : String} {head : Term} {args : List Term}
    (h : ¬ (head = .sym tag ∧ args.length = 2)) : chain tag (.app head args) = 0 := by
  unfold chain
  split
  next name left right heq =>
    obtain ⟨rfl, rfl⟩ := Term.app.inj heq
    exact if_neg fun hname => h ⟨congrArg _ hname, rfl⟩
  next => rfl

end Term

namespace Operation

open Term (FirstOrder Atom setApart Lacks NegatesSeveral Mistakable applications countHead
  renameHead chain)

variable {fresh : Operation → String} {p q : String → Nat → Bool} {op : Operation} {tag : String}
  {s t head left right : Term} {args : List Term}

/-! ## Applications that go away -/

/-- A contraction adds nothing but applications of `$neg` to one argument. -/
theorem Contraction.applications_le (hp : p "$neg" 1 = false) (h : Contraction tag args t) :
    applications p t ≤ applications p (.app (.sym tag) args) := by
  have hneg : countHead p (.sym "$neg") 1 = 0 := by simp [countHead, hp]
  cases h with
  | whole => exact Nat.le_refl _
  | const => exact Nat.zero_le _
  | left | right | negLeft | negRight | double =>
    simp only [Term.unary, Term.applications_app, Term.applications_const, List.length_singleton,
      List.map_cons, List.map_nil, List.sum_cons, List.sum_nil, hneg]
    omega

theorem applications_close_le (hp : p "$neg" 1 = false) (head : Term) (args : List Term) :
    applications p (op.close head args) ≤ applications p (.app head args) := by
  rcases @contraction_close op head args with h | ⟨rfl, h⟩
  · rw [h]
  · exact h.applications_le hp

/-- An operation adds nothing but applications of `$neg` to one argument. -/
theorem applications_everywhere_le (hp : p "$neg" 1 = false) (ht : t.FirstOrder) :
    applications p (op.everywhere t) ≤ applications p t := by
  induction ht with
  | const x => exact Nat.le_refl _
  | sym name => exact Nat.le_refl _
  | @app head args hhead hargs ih =>
    rw [everywhere_app, everywhere_atom hhead]
    refine (applications_close_le hp _ _).trans ?_
    rw [Term.applications_app, Term.applications_app, List.length_map, List.map_map]
    exact Nat.add_le_add_left (List.sum_le_sum ih) _

/-- A negated application of `$neg` to several arguments becomes the first of them. -/
theorem negate_unary_neg (first second : Term) (rest : List Term) :
    negate.everywhere (.unary "$neg" (.app (.sym "$neg") (first :: second :: rest))) =
      negate.everywhere first := by
  have hinner : negate.everywhere (.app (.sym "$neg") (first :: second :: rest)) =
      .app (.sym "$neg") ((first :: second :: rest).map negate.everywhere) := by
    rw [everywhere_app]
    refine close_of_not_applies fun h => ?_
    rw [List.length_map] at h
    exact absurd (Nat.succ.inj h.2) (Nat.succ_ne_zero _)
  rw [Term.unary, everywhere_app, List.map_singleton, hinner]
  exact close_of_applies rfl

/-- Where an application of `$neg` to several arguments is mistaken for a negation, it goes away. -/
theorem applications_negate_lt (hp : p "$neg" 1 = false)
    (hseveral : ∀ n, 2 ≤ n → p "$neg" n = true) (ht : t.FirstOrder) (h : t.Mistakable) :
    applications p (negate.everywhere t) < applications p t := by
  induction ht with
  | const x => exact absurd h (Term.Atom.not_mistakable trivial)
  | sym name => exact absurd h (Term.Atom.not_mistakable trivial)
  | @app head args hhead hargs ih =>
    rcases (Term.mistakable_app hhead).1 h with ⟨s, hs, heq⟩ | ⟨a, ha, hm⟩
    · obtain ⟨rfl, rfl⟩ := Term.app.inj heq
      obtain ⟨first, second, rest, rfl⟩ := hs
      have hfirst : first.FirstOrder := by
        cases hargs _ List.mem_cons_self with
        | app _ hinner => exact hinner _ List.mem_cons_self
      have hle : applications p (negate.everywhere first) ≤ applications p first :=
        applications_everywhere_le hp hfirst
      have hcount : countHead p (.sym "$neg") (first :: second :: rest).length = 1 := by
        simp [countHead, hseveral]
      rw [← Term.unary, negate_unary_neg]
      simp only [Term.unary, Term.applications_app, List.map_cons, List.map_nil, List.sum_cons,
        List.sum_nil, hcount]
      omega
    · rw [everywhere_app, everywhere_atom hhead]
      refine (applications_close_le hp _ _).trans_lt ?_
      rw [Term.applications_app, Term.applications_app, List.length_map, List.map_map]
      refine Nat.add_lt_add_left (List.sum_lt_sum _ _ ?_ ⟨a, ha, ih a ha hm⟩) _
      exact fun b hb => applications_everywhere_le hp (hargs b hb)

/-- The applications of `$neg` to several arguments. -/
def several (name : String) (n : Nat) : Bool :=
  name == "$neg" && decide (2 ≤ n)

/-- Nothing is mistaken for a double negation in what the negation has made. -/
theorem not_mistakable_negate (ht : t.FirstOrder) : ¬ (negate.everywhere t).Mistakable := by
  intro h
  have hseveral : ∀ n, 2 ≤ n → several "$neg" n = true := fun n hn => by simp [several, hn]
  have hlt := applications_negate_lt rfl hseveral (firstOrder_everywhere ht) h
  rw [everywhere_everywhere] at hlt
  exact Nat.lt_irrefl _ hlt

/-! ## Applications that stay -/

/-- Where `$neg` is applied to several arguments nowhere, the contraction of a negation takes away
applications of `$neg` only. -/
theorem applications_negation (hp : ∀ n, p "$neg" n = false)
    (hseveral : applications several s = 0) :
    applications p (negation (.unary "$neg" s) s) = applications p s := by
  have hneg : ∀ n, countHead p (.sym "$neg") n = 0 := by simp [countHead, hp]
  have hwhole : applications p (.unary "$neg" s) = applications p s := by simp [Term.unary, hneg]
  cases s with
  | const x => rfl
  | sym name => exact hwhole
  | lam params body => exact hwhole
  | app head args =>
    cases head with
    | sym tag =>
      cases args with
      | nil => exact hwhole
      | cons first rest =>
        by_cases htag : tag = "$neg"
        · subst htag
          cases rest with
          | nil => simp [negation, hneg]
          | cons second rest => simp [countHead, several] at hseveral
        · rwa [negation, if_neg htag]
    | _ => exact hwhole

/-- Where `$neg` is applied to several arguments nowhere, the negation leaves the applications of
every other symbol. -/
theorem applications_negate_eq (hp : ∀ n, p "$neg" n = false) (ht : t.FirstOrder)
    (hseveral : applications several t = 0) :
    applications p (negate.everywhere t) = applications p t := by
  induction ht with
  | const x => rfl
  | sym name => rfl
  | @app head args hhead hargs ih =>
    rw [Term.applications_app, Nat.add_eq_zero_iff, List.sum_eq_zero_iff] at hseveral
    have hnone : ∀ a ∈ args, applications several a = 0 :=
      fun a ha => hseveral.2 _ (List.mem_map_of_mem ha)
    have hparts : applications p (.app head (args.map negate.everywhere)) =
        applications p (.app head args) := by
      rw [Term.applications_app, Term.applications_app, List.length_map, List.map_map]
      congr 2
      exact List.map_congr_left fun a ha => ih a ha (hnone a ha)
    rw [everywhere_app, everywhere_atom hhead, ← hparts]
    by_cases happlies : head = .sym negate.tag ∧ (args.map negate.everywhere).length = 1
    · obtain ⟨rfl, hlength⟩ := happlies
      rw [List.length_map] at hlength
      obtain ⟨a, rfl⟩ := List.length_eq_one_iff.1 hlength
      have hle : applications several (negate.everywhere a) ≤ applications several a :=
        applications_everywhere_le rfl (hargs a List.mem_cons_self)
      have hnegation := applications_negation hp
        (Nat.le_zero.1 (hle.trans_eq (hnone a List.mem_cons_self)))
      rw [List.map_singleton, close_of_applies rfl]
      refine hnegation.trans ?_
      simp [countHead, hp, Operation.tag]
    · rw [close_of_not_applies happlies]

/-! ## The negation of a term whose tags are set apart -/

/-- Once the tags are set apart, `$neg` is applied to several arguments nowhere. -/
theorem applications_several_setApart (hfresh : Fresh fresh) (t : Term) :
    applications several (setApart fresh t) = 0 := by
  rw [setApart, Term.applications_renameHeads]
  refine Term.applications_eq_zero (fun name n => ?_) t
  rw [several, Bool.and_eq_false_imp, beq_iff_eq]
  intro hname
  obtain rfl := eq_of_apartName_eq (fun op => hfresh.ne_tag op .negate) hname
  by_contra hn
  rw [decide_eq_false_iff_not, not_not] at hn
  have hapart : apartName fresh negate.tag n = fresh .negate := apartName_of_ne (Nat.ne_of_gt hn)
  exact hfresh.ne_tag .negate .negate (hapart.symm.trans hname)

/-- The negation does not do the same with a term whose tags are set apart if something in the term
is mistaken for a double negation. -/
theorem negate_setApart_ne (hfresh : Fresh fresh) (ht : t.FirstOrder) (hm : t.Mistakable) :
    negate.everywhere (setApart fresh t) ≠ setApart fresh (negate.everywhere t) := by
  intro heq
  -- the applications of the new name for `$neg` are counted on both sides
  have hcount := congrArg (applications fun name _ => name == fresh .negate) heq
  have hneg : ∀ n, 2 ≤ n → apartName fresh negate.tag n = fresh .negate :=
    fun n hn => apartName_of_ne (Nat.ne_of_gt hn)
  have hone : apartName fresh negate.tag 1 = negate.tag := apartName_of_eq rfl
  have hother : ("$neg" == fresh .negate) = false :=
    beq_false_of_ne (hfresh.ne_tag .negate .negate).symm
  rw [applications_negate_eq (fun _ => hother) ht.setApart (applications_several_setApart hfresh t),
    setApart, setApart, Term.applications_renameHeads, Term.applications_renameHeads] at hcount
  refine absurd hcount (Nat.ne_of_gt (applications_negate_lt ?_ ?_ ht hm))
  · show (apartName fresh negate.tag 1 == fresh .negate) = false
    rw [hone]
    exact hother
  · intro n hn
    exact beq_iff_eq.2 (hneg n hn)

/-! ## No other operation -/

/-- A contraction of two operands is the whole application, or no more hangs together in it than in
both operands. -/
theorem Contraction.eq_or_chain_le (h : Contraction tag [left, right] t) :
    t = .app (.sym tag) [left, right] ∨ chain tag t ≤ chain tag left + chain tag right := by
  have hneg : ∀ a, chain tag (.unary "$neg" a) = 0 :=
    fun a => Term.chain_of_not_applies fun h => absurd h.2 (by simp)
  cases h with
  | whole => exact .inl rfl
  | const => exact .inr (Nat.zero_le _)
  | left => exact .inr (Nat.le_add_right _ _)
  | right => exact .inr (Nat.le_add_left _ _)
  | negLeft | negRight => exact .inr ((hneg _).trans_le (Nat.zero_le _))

theorem close_binary (hop : op ≠ .negate) (left right : Term) :
    op.close (.sym op.tag) [left, right] = op.contract [left, right] :=
  close_of_applies (operands_of_ne_negate hop).symm

/-- The negation goes through the operands of another operation. -/
theorem negate_binary (tag : String) (left right : Term) :
    negate.everywhere (.app (.sym tag) [left, right]) =
      .app (.sym tag) [negate.everywhere left, negate.everywhere right] := by
  rw [everywhere_app]
  exact close_of_not_applies fun h => absurd h.2 (by simp [operands])

/-- What hangs together of an operation after it has been through a term does so after the negation
has been, too. -/
theorem chain_everywhere_le (hop : op ≠ .negate) (ht : t.FirstOrder) :
    chain op.tag (op.everywhere t) ≤ chain op.tag (negate.everywhere t) := by
  induction ht with
  | const x => exact Nat.le_refl _
  | sym name => exact Nat.le_refl _
  | @app head args hhead hargs ih =>
    rw [everywhere_app, everywhere_atom hhead]
    by_cases happlies : head = .sym op.tag ∧ args.length = 2
    · obtain ⟨rfl, hlength⟩ := happlies
      obtain ⟨left, right, rfl⟩ := List.length_eq_two.1 hlength
      have hleft := ih left (by simp)
      have hright := ih right (by simp)
      rw [negate_binary, Term.chain_binary, List.map_cons, List.map_singleton,
        close_binary hop]
      rcases (contraction_contract op [_, _]).eq_or_chain_le with h | h
      · rw [h, Term.chain_binary]
        omega
      · omega
    · have hnot : ¬ (head = .sym op.tag ∧ (args.map op.everywhere).length = 2) := by
        rwa [List.length_map]
      rw [close_of_not_applies (by rwa [operands_of_ne_negate hop]),
        Term.chain_of_not_applies hnot]
      exact Nat.zero_le _

/-- Unless a term is an application of `$neg`, the negation makes none of it. -/
theorem negate_ne_neg (ht : t.FirstOrder) (h : ∀ first rest, t ≠ .app (.sym "$neg") (first :: rest))
    (first : Term) (rest : List Term) :
    negate.everywhere t ≠ .app (.sym "$neg") (first :: rest) := by
  cases ht with
  | const x => exact Term.noConfusion
  | sym name => exact Term.noConfusion
  | @app head args hhead hargs =>
    have hnot : ¬ (head = .sym negate.tag ∧ (args.map negate.everywhere).length = 1) := by
      rintro ⟨rfl, hlength⟩
      rw [List.length_map] at hlength
      obtain ⟨a, rfl⟩ := List.length_eq_one_iff.1 hlength
      exact h a [] rfl
    rw [everywhere_app, everywhere_atom hhead, close_of_not_applies hnot]
    intro heq
    obtain ⟨rfl, hmap⟩ := Term.app.inj heq
    obtain ⟨a, as, rfl, -, -⟩ := List.map_eq_cons_iff.1 hmap
    exact h a as rfl

/-- If an operation does the same as the negation with the negation of a term, then it does so with
the term, and that is no application of `$neg` itself. -/
theorem eq_of_everywhere_unary_eq (hop : op ≠ .negate) (ht : t.FirstOrder)
    (heq : op.everywhere (.unary "$neg" t) = negate.everywhere (.unary "$neg" t)) :
    (∀ first rest, t ≠ .app (.sym "$neg") (first :: rest)) ∧
      op.everywhere t = negate.everywhere t := by
  have hunary : op.everywhere (.unary "$neg" t) = .unary "$neg" (op.everywhere t) :=
    everywhere_neg hop [t]
  have hfixed : negate.everywhere (.unary "$neg" (op.everywhere t)) =
      .unary "$neg" (op.everywhere t) := by
    rw [← hunary, heq, everywhere_everywhere]
  have hshape : ∀ first rest, t ≠ .app (.sym "$neg") (first :: rest) := by
    rintro first rest rfl
    exact ne_neg_of_everywhere_eq_self hfixed _ _ (everywhere_neg hop (first :: rest))
  refine ⟨hshape, ?_⟩
  have hresult := negate_ne_neg ht hshape
  have hclose : negate.everywhere (.unary "$neg" t) =
      negate.contract [negate.everywhere t] := by
    rw [Term.unary, everywhere_app, List.map_singleton]
    exact close_of_applies rfl
  rw [hunary, hclose] at heq
  have hcontraction := contraction_contract negate [negate.everywhere t]
  rw [← heq] at hcontraction
  generalize negate.everywhere t = s at hcontraction hresult ⊢
  generalize hnegation : Term.unary "$neg" (op.everywhere t) = u at hcontraction
  cases hcontraction with
  | whole => exact (List.cons.inj (Term.app.inj hnegation).2).1
  | const => cases hnegation
  | double => exact absurd rfl (hresult _ _)

/-- If an operation does the same as the negation with an application of its own tag, then it does
so with the operands. -/
theorem eq_of_everywhere_binary_eq (hop : op ≠ .negate) (hleft : left.FirstOrder)
    (hright : right.FirstOrder)
    (heq : op.everywhere (.app (.sym op.tag) [left, right]) =
      negate.everywhere (.app (.sym op.tag) [left, right])) :
    op.everywhere left = negate.everywhere left ∧
      op.everywhere right = negate.everywhere right := by
  have hcleft := chain_everywhere_le hop hleft
  have hcright := chain_everywhere_le hop hright
  rw [negate_binary, everywhere_app, everywhere_sym, List.map_cons, List.map_singleton,
    close_binary hop] at heq
  rcases (contraction_contract op [_, _]).eq_or_chain_le with h | h
  · rw [heq] at h
    obtain ⟨-, hargs⟩ := Term.app.inj h
    obtain ⟨h₁, hargs⟩ := List.cons.inj hargs
    exact ⟨h₁.symm, (List.cons.inj hargs).1.symm⟩
  · rw [heq, Term.chain_binary] at h
    omega

/-- No other operation does what the negation does with a term in which something is mistaken for a
double negation. -/
theorem everywhere_ne_negate_of_mistakable (hop : op ≠ .negate) (ht : t.FirstOrder)
    (hm : t.Mistakable) : op.everywhere t ≠ negate.everywhere t := by
  induction ht with
  | const x => exact absurd hm (Term.Atom.not_mistakable trivial)
  | sym name => exact absurd hm (Term.Atom.not_mistakable trivial)
  | @app head args hhead hargs ih =>
    intro heq
    by_cases hneg : head = .sym negate.tag ∧ args.length = 1
    · obtain ⟨rfl, hlength⟩ := hneg
      obtain ⟨a, rfl⟩ := List.length_eq_one_iff.1 hlength
      obtain ⟨hshape, ha⟩ := eq_of_everywhere_unary_eq hop (hargs a List.mem_cons_self) heq
      rcases (Term.mistakable_app hhead).1 hm with ⟨s, ⟨_, _, _, rfl⟩, happ⟩ | ⟨b, hb, h⟩
      · exact hshape _ _ (List.cons.inj (Term.app.inj happ).2).1
      · obtain rfl := List.mem_singleton.1 hb
        exact ih b hb h ha
    · obtain ⟨b, hb, h⟩ : ∃ b ∈ args, b.Mistakable := by
        rcases (Term.mistakable_app hhead).1 hm with ⟨s, -, happ⟩ | h
        · obtain ⟨rfl, rfl⟩ := Term.app.inj happ
          exact absurd ⟨rfl, rfl⟩ hneg
        · exact h
      refine ih b hb h ?_
      by_cases happlies : head = .sym op.tag ∧ args.length = 2
      · obtain ⟨rfl, hlength⟩ := happlies
        obtain ⟨left, right, rfl⟩ := List.length_eq_two.1 hlength
        have hparts := eq_of_everywhere_binary_eq hop (hargs left (by simp))
          (hargs right (by simp)) heq
        rcases List.mem_pair.1 hb with rfl | rfl
        · exact hparts.1
        · exact hparts.2
      · rw [everywhere_app, everywhere_app, everywhere_atom hhead, everywhere_atom hhead,
          close_of_not_applies (by rwa [List.length_map, operands_of_ne_negate hop]),
          close_of_not_applies (by rwa [List.length_map])] at heq
        exact List.map_inj_left.1 (Term.app.inj heq).2 b hb

end Operation

end TermCalc
