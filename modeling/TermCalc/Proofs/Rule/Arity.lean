import TermCalc.Proofs.Rule.Contraction
import TermCalc.Proofs.Rule.Pass
import TermCalc.Proofs.Rule.Substitution
import TermCalc.Proofs.Term.Heads
import TermCalc.Proofs.Term.Value

/-!
# Tags with a wrong number of arguments

An operation is for applications of its tag to as many arguments as it has operands. To other
numbers of arguments the tag is applied like any other function. To say so the tags of those
applications are given names of their own, which set them apart from the operations: a rule should
do with the renamed term what it does with the term itself.

The negation does not. What it negates it takes for a negation by the tag alone, and if that has
several arguments it gives up the first of them and drops the others.

## Main definitions

* `Operation.Fresh fresh`: there is a name of its own for every operation
* `Term.setApart fresh t`: wherever the tag of an operation `op` has a wrong number of arguments in
  `t` it is replaced by `fresh op`
* `Term.NegatesSeveral t`: `t` is an application of `$neg` to more than one argument
* `Term.Mistakable t`: such an application is negated in `t`

## Main results

* `setApart_inj`, `equivalent_setApart`: the tags are set apart without a loss
* `everywhere_setApart`: the operations do the same with a term whose tags have been set apart, the
  negation where nothing is mistaken for a double negation
* `substitute_setApart`: so do substitutions of constants
-/

namespace TermCalc

open Term (FirstOrder Atom Part renameHead renameHeads)

/-! ## Names of their own -/

namespace Operation

/-- Every operation has a name of its own, which is no tag and stands for no number. -/
structure Fresh (fresh : Operation → String) : Prop where
  injective : Function.Injective fresh
  ne_tag : ∀ op (op' : Operation), fresh op ≠ op'.tag
  ne_number : ∀ op, fresh op ≠ "pi" ∧ fresh op ≠ "e"

theorem Fresh.ne_of_number {fresh : Operation → String} (hfresh : Fresh fresh) {name : String}
    (hname : name = "pi" ∨ name = "e") :
    (∀ op, fresh op ≠ name) ∧ ∀ op : Operation, op.tag ≠ name := by
  rcases hname with rfl | rfl
  · exact ⟨fun op => (hfresh.ne_number op).1, fun op => by cases op <;> decide⟩
  · exact ⟨fun op => (hfresh.ne_number op).2, fun op => by cases op <;> decide⟩

/-- The name that a symbol gets where it is applied to `n` arguments: a name of its own if it is a
tag and the number is wrong. -/
def apartName (fresh : Operation → String) (name : String) (n : Nat) : String :=
  match ofTag? name with
  | some op => if n = op.operands then name else fresh op
  | none => name

/-- The tag that a name stands for. -/
def rejoinName (fresh : Operation → String) (name : String) : String :=
  match [assign, negate, add, subtract, multiply, divide].find? fun op => fresh op == name with
  | some op => op.tag
  | none => name

variable {fresh : Operation → String} {name y : String} {op : Operation} {n : Nat}

theorem apartName_of_eq (h : n = op.operands) : apartName fresh op.tag n = op.tag := by
  rw [apartName, ofTag?_eq_some_iff.2 rfl]
  exact if_pos h

theorem apartName_of_ne (h : n ≠ op.operands) : apartName fresh op.tag n = fresh op := by
  rw [apartName, ofTag?_eq_some_iff.2 rfl]
  exact if_neg h

/-- A symbol keeps its name, or it is a tag and gets another. -/
theorem apartName_cases (fresh : Operation → String) (name : String) (n : Nat) :
    apartName fresh name n = name ∨
      ∃ op : Operation, name = op.tag ∧ n ≠ op.operands ∧ apartName fresh name n = fresh op := by
  by_cases h : ∃ op : Operation, name = op.tag
  · obtain ⟨op, rfl⟩ := h
    by_cases hn : n = op.operands
    · exact .inl (apartName_of_eq hn)
    · exact .inr ⟨op, rfl, hn, apartName_of_ne hn⟩
  · left
    rw [apartName]
    split
    next op hop => exact absurd ⟨op, (ofTag?_eq_some_iff.1 hop).symm⟩ h
    next => rfl

/-- Only the symbol itself gets a name that is not one of the new ones. -/
theorem eq_of_apartName_eq (hy : ∀ op, fresh op ≠ y) (h : apartName fresh name n = y) :
    name = y := by
  rcases apartName_cases fresh name n with hsame | ⟨op, -, -, hfresh⟩
  · exact hsame.symm.trans h
  · exact absurd (hfresh.symm.trans h) (hy op)

theorem rejoinName_fresh (hfresh : Fresh fresh) (op : Operation) :
    rejoinName fresh (fresh op) = op.tag := by
  rw [rejoinName]
  split
  next op' hop =>
    have heq : fresh op' = fresh op := by simpa using List.find?_some hop
    rw [hfresh.injective heq]
  next hnone =>
    have hall := List.find?_eq_none.1 hnone op (by cases op <;> decide)
    exact absurd (beq_self_eq_true (fresh op)) hall

theorem rejoinName_of_ne (h : ∀ op, fresh op ≠ name) : rejoinName fresh name = name := by
  rw [rejoinName]
  split
  next op hop => exact absurd (by simpa using List.find?_some hop) (h op)
  next => rfl

/-- The name that a symbol has got tells which symbol it was. -/
theorem rejoinName_apartName (hfresh : Fresh fresh) (hname : ∀ op, fresh op ≠ name) :
    rejoinName fresh (apartName fresh name n) = name := by
  rcases apartName_cases fresh name n with hsame | ⟨op, rfl, -, hop⟩
  · rw [hsame, rejoinName_of_ne hname]
  · rw [hop, rejoinName_fresh hfresh]

end Operation

open Operation (Fresh apartName rejoinName)

namespace Term

/-! ## Setting tags apart -/

/-- The term with a name of its own in the place of every tag that has a wrong number of
arguments. -/
def setApart (fresh : Operation → String) (t : Term) : Term :=
  renameHeads (apartName fresh) t

/-- None of the new names occurs in the term. -/
def Lacks (fresh : Operation → String) (t : Term) : Prop :=
  ∀ op, t.mentions (fresh op) = false

variable {fresh : Operation → String} {s t head : Term} {args : List Term} {name y : String}

@[simp] theorem setApart_const (x : Float) : setApart fresh (.const x) = .const x :=
  rfl

@[simp] theorem setApart_sym (name : String) : setApart fresh (.sym name) = .sym name :=
  rfl

theorem setApart_app : setApart fresh (.app head args) =
    .app (renameHead (apartName fresh) head args.length) (args.map (setApart fresh)) :=
  renameHeads_app

@[simp] theorem setApart_lam (params : List Term) (body : Term) :
    setApart fresh (.lam params body) = .lam params body :=
  rfl

theorem setApart_unary_neg (a : Term) :
    setApart fresh (.unary "$neg" a) = .unary "$neg" (setApart fresh a) :=
  setApart_app

theorem FirstOrder.setApart (h : t.FirstOrder) : (setApart fresh t).FirstOrder :=
  h.renameHeads

theorem Lacks.arg {a : Term} (h : (Term.app head args).Lacks fresh) (ha : a ∈ args) :
    a.Lacks fresh :=
  fun op => (mentions_app_eq_false.1 (h op)).2 a ha

theorem Lacks.ne (h : t.Lacks fresh) (hname : t.mentions name = true) (op : Operation) :
    fresh op ≠ name := by
  rintro rfl
  exact Bool.noConfusion (hname.symm.trans (h op))

/-- The tags can be joined again. -/
theorem renameHeads_setApart (hfresh : Fresh fresh) (ht : t.Lacks fresh) :
    renameHeads (fun name _ => rejoinName fresh name) (setApart fresh t) = t := by
  rw [Term.setApart, renameHeads_renameHeads]
  exact renameHeads_eq_self fun name n hname =>
    Operation.rejoinName_apartName hfresh (ht.ne hname)

/-- Different terms stay different when their tags are set apart. -/
theorem setApart_inj (hfresh : Fresh fresh) (hs : s.Lacks fresh) (ht : t.Lacks fresh) :
    setApart fresh s = setApart fresh t ↔ s = t := by
  refine ⟨fun h => ?_, congrArg _⟩
  rw [← renameHeads_setApart hfresh hs, h, renameHeads_setApart hfresh ht]

theorem equivalent_setApart (hfresh : Fresh fresh) (hs : s.Lacks fresh) (ht : t.Lacks fresh) :
    (setApart fresh s).equivalent (setApart fresh t) = s.equivalent t := by
  rw [Bool.eq_iff_iff]
  refine ⟨fun h => ?_, equivalent_renameHeads⟩
  have hjoined := equivalent_renameHeads (f := fun name _ => rejoinName fresh name) h
  rwa [renameHeads_setApart hfresh hs, renameHeads_setApart hfresh ht] at hjoined

/-- Setting tags apart brings in the new names and nothing else. -/
theorem mentions_of_mentions_setApart (hy : ∀ op, fresh op ≠ y)
    (h : (setApart fresh t).mentions y = true) : t.mentions y = true := by
  rcases mentions_of_mentions_renameHeads h with h | ⟨old, n, h, hname⟩
  · exact h
  · exact Operation.eq_of_apartName_eq hy hname ▸ h

/-! ## Negations of several arguments -/

/-- An application of `$neg` to more than one argument. -/
def NegatesSeveral (t : Term) : Prop :=
  ∃ first second rest, t = .app (.sym "$neg") (first :: second :: rest)

/-- Somewhere in the term an application of `$neg` to more than one argument is negated, which is
mistaken for a double negation. -/
def Mistakable (t : Term) : Prop :=
  ∃ s : Term, s.NegatesSeveral ∧ Part (.unary "$neg" s) t

theorem Mistakable.of_arg {a : Term} (ha : a ∈ args) (h : a.Mistakable) :
    (Term.app head args).Mistakable := by
  obtain ⟨s, hs, hpart⟩ := h
  exact ⟨s, hs, .arg ha hpart⟩

theorem NegatesSeveral.mistakable (h : t.NegatesSeveral) : (Term.unary "$neg" t).Mistakable :=
  ⟨t, h, .self⟩

theorem Atom.not_mistakable (h : t.Atom) : ¬ t.Mistakable := by
  rintro ⟨s, -, hpart⟩
  rw [← h.eq_self_of_part hpart] at h
  exact h.elim

/-- Where something is mistaken for a double negation: at the term itself or in an argument. -/
theorem mistakable_app (hhead : head.Atom) : (Term.app head args).Mistakable ↔
    (∃ s : Term, s.NegatesSeveral ∧ Term.app head args = .unary "$neg" s) ∨
      ∃ a ∈ args, a.Mistakable := by
  constructor
  · rintro ⟨s, hs, hpart⟩
    cases hpart with
    | self => exact .inl ⟨s, hs, rfl⟩
    | head hpart => exact absurd ⟨s, hs, hpart⟩ hhead.not_mistakable
    | arg ha hpart => exact .inr ⟨_, ha, s, hs, hpart⟩
  · rintro (⟨s, hs, heq⟩ | ⟨a, ha, h⟩)
    · exact heq ▸ hs.mistakable
    · exact .of_arg ha h

end Term

open Term (setApart Lacks NegatesSeveral Mistakable)

namespace Operation

variable {fresh : Operation → String} {t head left right : Term} {args : List Term}
  {op : Operation}

/-! ## Operations on terms whose tags are set apart -/

theorem keeps_setApart (hfresh : Fresh fresh) (hl : left.Lacks fresh) (hr : right.Lacks fresh) :
    Keeps (setApart fresh) left right where
  const := Term.setApart_const
  negation := Term.setApart_unary_neg
  isConst := by rw [setApart, setApart, Term.isConst_renameHeads, Term.isConst_renameHeads]
  isNumber_left := Term.isNumber_renameHeads left
  isNumber_right := Term.isNumber_renameHeads right
  equivalent := Term.equivalent_setApart hfresh hl hr

/-- The negation of an operand whose tags are set apart, unless that is an application of `$neg` to
more than one argument. -/
theorem negation_setApart (hfresh : Fresh fresh) {operand : Term}
    (h : ¬ operand.NegatesSeveral) :
    negation (.unary "$neg" (setApart fresh operand)) (setApart fresh operand) =
      setApart fresh (negation (.unary "$neg" operand) operand) := by
  have hwhole : setApart fresh (.unary "$neg" operand) = .unary "$neg" (setApart fresh operand) :=
    Term.setApart_unary_neg operand
  cases operand with
  | const x => rfl
  | sym name => exact hwhole.symm
  | lam params body => exact hwhole.symm
  | app head args =>
    cases head with
    | sym tag =>
      cases args with
      | nil => exact hwhole.symm
      | cons first rest =>
        by_cases htag : tag = "$neg"
        · subst htag
          cases rest with
          | nil => rfl
          | cons second rest => exact absurd ⟨first, second, rest, rfl⟩ h
        · have hname : apartName fresh tag (first :: rest).length ≠ "$neg" :=
            fun heq => htag (eq_of_apartName_eq (fun op => hfresh.ne_tag op .negate) heq)
          rw [Term.setApart_app] at hwhole ⊢
          simp only [negation, Term.renameHead_sym, List.map_cons, hname, htag, if_false]
          exact hwhole.symm
    | _ => exact hwhole.symm

theorem contract_setApart (hfresh : Fresh fresh) (hlength : args.length = op.operands)
    (hargs : ∀ a ∈ args, a.Lacks fresh)
    (hneg : op = .negate → ∀ a ∈ args, ¬ a.NegatesSeveral) :
    op.contract (args.map (setApart fresh)) = setApart fresh (op.contract args) := by
  by_cases hop : op = .negate
  · subst hop
    obtain ⟨a, rfl⟩ := List.length_eq_one_iff.1 hlength
    exact negation_setApart hfresh (hneg rfl a List.mem_cons_self)
  · have htwo := hlength.trans (operands_of_ne_negate hop)
    obtain ⟨left, right, rfl⟩ := List.length_eq_two.1 htwo
    have hkeeps := keeps_setApart hfresh (hargs left (by simp)) (hargs right (by simp))
    refine (map_contract hop hkeeps ?_).symm
    rw [Term.setApart_app, Term.renameHead_sym, apartName_of_eq hlength]
    rfl

/-- Closing an application whose tags are set apart. -/
theorem close_setApart (hfresh : Fresh fresh) (hargs : ∀ a ∈ args, a.Lacks fresh)
    (hneg : op = .negate → head = .sym "$neg" → args.length = 1 → ∀ a ∈ args, ¬ a.NegatesSeveral) :
    op.close (renameHead (apartName fresh) head args.length) (args.map (setApart fresh)) =
      setApart fresh (op.close head args) := by
  by_cases h : head = .sym op.tag ∧ args.length = op.operands
  · obtain ⟨rfl, hlength⟩ := h
    rw [Term.renameHead_sym, apartName_of_eq hlength, close_of_applies hlength,
      close_of_applies (by rwa [List.length_map])]
    refine contract_setApart hfresh hlength hargs ?_
    rintro rfl
    exact hneg rfl rfl hlength
  · rw [close_of_not_applies h, Term.setApart_app]
    refine close_of_not_applies ?_
    rintro ⟨hhead, hlength⟩
    rw [List.length_map] at hlength
    cases head with
    | sym name =>
      have hname := eq_of_apartName_eq (fun op' => hfresh.ne_tag op' op) (Term.sym.inj hhead)
      exact h ⟨congrArg _ hname, hlength⟩
    | _ => exact nomatch hhead

theorem everywhere_atom (h : head.Atom) : op.everywhere head = head := by
  cases head with
  | app f as => exact h.elim
  | _ => rfl

theorem lacks_everywhere (hfresh : Fresh fresh) (h : t.Lacks fresh) :
    (op.everywhere t).Lacks fresh := by
  intro op'
  rw [← Bool.not_eq_true]
  intro hmentions
  rcases mentions_of_mentions_everywhere hmentions with hname | hname
  · exact hfresh.ne_tag op' .negate hname
  · exact Bool.noConfusion (hname.symm.trans (h op'))

/-- Nothing but symbols and constants is applied in a contraction, if it was so before. -/
theorem Contraction.firstOrder {tag : String} (h : Contraction tag args t)
    (hargs : ∀ a ∈ args, a.FirstOrder) : t.FirstOrder := by
  have hneg : ∀ a ∈ args, (Term.unary "$neg" a).FirstOrder := fun a ha =>
    .app trivial fun b hb => List.mem_singleton.1 hb ▸ hargs a ha
  cases h with
  | whole => exact .app trivial hargs
  | const => exact .const _
  | left => exact hargs _ (by simp)
  | right => exact hargs _ (by simp)
  | negLeft => exact hneg _ (by simp)
  | negRight => exact hneg _ (by simp)
  | double =>
    cases hargs _ List.mem_cons_self with
    | app _ hinner => exact hinner _ List.mem_cons_self

theorem firstOrder_everywhere (ht : t.FirstOrder) : (op.everywhere t).FirstOrder := by
  induction ht with
  | const x => exact .const x
  | sym name => exact .sym name
  | @app head args hhead hargs ih =>
    have hmap : ∀ b ∈ args.map op.everywhere, b.FirstOrder := by
      intro b hb
      obtain ⟨a, ha, rfl⟩ := List.mem_map.1 hb
      exact ih a ha
    rw [everywhere_app, everywhere_atom hhead]
    rcases @contraction_close op head (args.map op.everywhere) with h | ⟨-, h⟩
    · rw [h]
      exact .app hhead hmap
    · exact h.firstOrder hmap

/-- What the negation leaves as a negation is one of no application of `$neg` to an argument. -/
theorem ne_neg_of_everywhere_eq_self (h : negate.everywhere (.unary "$neg" t) = .unary "$neg" t)
    (first : Term) (rest : List Term) : t ≠ .app (.sym "$neg") (first :: rest) := by
  rintro rfl
  obtain ⟨-, -, hclose⟩ := everywhere_app_eq_self_iff.1 h
  have hsize := congrArg Term.size (hclose.symm.trans (close_of_applies rfl))
  simp only [contract, negation, if_true, Term.size, Term.sizeAll] at hsize
  omega

/-- The negation leaves no application of `$neg` to more than one argument in the place of an
operand unless one stood there, or something in it was mistaken for a double negation. -/
theorem not_negatesSeveral_everywhere (ht : t.FirstOrder)
    (h : ¬ (Term.unary "$neg" t).Mistakable) :
    ¬ (negate.everywhere t).NegatesSeveral := by
  induction ht with
  | const x => rintro ⟨first, second, rest, heq⟩; exact nomatch heq
  | sym name => rintro ⟨first, second, rest, heq⟩; exact nomatch heq
  | @app head args hhead hargs ih =>
    intro hseveral
    have hself : ¬ (Term.app head args).NegatesSeveral := fun hs => h hs.mistakable
    rw [everywhere_app, everywhere_atom hhead] at hseveral
    by_cases happlies : head = .sym negate.tag ∧ (args.map negate.everywhere).length = 1
    · obtain ⟨rfl, hlength⟩ := happlies
      rw [List.length_map] at hlength
      obtain ⟨a, rfl⟩ := List.length_eq_one_iff.1 hlength
      have ha := ih a List.mem_cons_self fun hm => h (.of_arg List.mem_cons_self hm)
      rw [List.map_singleton, close_of_applies rfl] at hseveral
      have hfixed := everywhere_everywhere negate a
      have hcontraction := contraction_contract negate [negate.everywhere a]
      generalize negate.everywhere a = b at ha hseveral hfixed hcontraction
      generalize negate.contract [b] = result at hseveral hcontraction
      cases hcontraction with
      | whole =>
        obtain ⟨first, second, rest, heq⟩ := hseveral
        exact nomatch (List.cons.inj (Term.app.inj heq).2).2
      | const x =>
        obtain ⟨first, second, rest, heq⟩ := hseveral
        exact nomatch heq
      | double first rest =>
        cases rest with
        | cons second rest => exact ha ⟨_, second, rest, rfl⟩
        | nil =>
          obtain ⟨one, two, others, rfl⟩ := hseveral
          exact ne_neg_of_everywhere_eq_self hfixed one (two :: others) rfl
    · rw [close_of_not_applies happlies] at hseveral
      obtain ⟨first, second, rest, heq⟩ := hseveral
      obtain ⟨rfl, hmap⟩ := Term.app.inj heq
      obtain ⟨one, others, rfl, -, hothers⟩ := List.map_eq_cons_iff.1 hmap
      obtain ⟨two, others, rfl, -, -⟩ := List.map_eq_cons_iff.1 hothers
      exact hself ⟨one, two, others, rfl⟩

/-- An operation does with a term whose tags are set apart what it does with the term itself, the
negation where nothing is mistaken for a double negation. -/
theorem everywhere_setApart (hfresh : Fresh fresh) (ht : t.FirstOrder) (hlacks : t.Lacks fresh)
    (hneg : op = .negate → ¬ t.Mistakable) :
    op.everywhere (setApart fresh t) = setApart fresh (op.everywhere t) := by
  induction ht with
  | const x => rfl
  | sym name => rfl
  | @app head args hhead hargs ih =>
    have hmap : (args.map (setApart fresh)).map op.everywhere =
        (args.map op.everywhere).map (setApart fresh) := by
      rw [List.map_map, List.map_map]
      exact List.map_congr_left fun a ha =>
        ih a ha (hlacks.arg ha) fun hop hm => hneg hop (.of_arg ha hm)
    have hatom : (renameHead (apartName fresh) head args.length).Atom := hhead.renameHead _
    have hlength : args.length = (args.map op.everywhere).length := (List.length_map _).symm
    rw [Term.setApart_app, everywhere_app, everywhere_app, everywhere_atom hatom,
      everywhere_atom hhead, hmap, hlength]
    refine close_setApart hfresh (fun b hb => ?_) ?_
    · obtain ⟨a, ha, rfl⟩ := List.mem_map.1 hb
      exact lacks_everywhere hfresh (hlacks.arg ha)
    · rintro rfl rfl hone b hb
      obtain ⟨a, ha, rfl⟩ := List.mem_map.1 hb
      rw [List.length_map] at hone
      obtain ⟨a', rfl⟩ := List.length_eq_one_iff.1 hone
      obtain rfl := List.mem_singleton.1 ha
      exact not_negatesSeveral_everywhere (hargs a ha) (hneg rfl)

end Operation

namespace Rule

variable {fresh : Operation → String} {t : Term} {name : String} {x : Float}

theorem firstOrder_substitute (ht : t.FirstOrder) : (substitute name (.const x) t).FirstOrder := by
  induction ht with
  | const y => exact .const y
  | sym n =>
    by_cases hn : n = name
    · rw [hn, substitute_sym_self]
      exact .const x
    · rw [substitute_sym_of_ne hn]
      exact .sym n
  | @app head args hhead hargs ih =>
    have hatom : (substitute name (.const x) head).Atom := by
      cases head with
      | sym n => unfold substitute; split <;> trivial
      | _ => exact hhead
    rw [substitute_app]
    refine .app hatom fun b hb => ?_
    obtain ⟨a, ha, rfl⟩ := List.mem_map.1 hb
    exact ih a ha

/-- Where something is mistaken for a double negation, it still is after another symbol has been
replaced. -/
theorem mistakable_substitute {u : Term} (hname : name ≠ "$neg") (ht : t.FirstOrder)
    (h : t.Mistakable) : (substitute name u t).Mistakable := by
  have hneg : ∀ args, substitute name u (.app (.sym "$neg") args) =
      .app (.sym "$neg") (args.map (substitute name u)) := fun args => by
    rw [substitute_app, substitute_sym_of_ne hname.symm]
  induction ht with
  | const x => exact absurd h (Term.Atom.not_mistakable trivial)
  | sym n => exact absurd h (Term.Atom.not_mistakable trivial)
  | @app head args hhead hargs ih =>
    rcases (Term.mistakable_app hhead).1 h with ⟨s, ⟨first, second, rest, rfl⟩, heq⟩ | ⟨a, ha, hm⟩
    · rw [heq, Term.unary, hneg, List.map_singleton, hneg]
      exact Term.NegatesSeveral.mistakable ⟨_, _, _, rfl⟩
    · rw [substitute_app]
      exact .of_arg (List.mem_map_of_mem ha) (ih a ha hm)

/-- A number is put in the place of a symbol before or after the tags are set apart. -/
theorem substitute_setApart (hname : ∀ op, fresh op ≠ name)
    (htag : ∀ op : Operation, op.tag ≠ name) :
    substitute name (.const x) (setApart fresh t) =
      setApart fresh (substitute name (.const x) t) := by
  induction t using Term.induction with
  | const y => rfl
  | sym n =>
    by_cases hn : n = name
    · rw [hn, Term.setApart_sym, substitute_sym_self]
      rfl
    · rw [Term.setApart_sym, substitute_sym_of_ne hn]
      rfl
  | app head args hh ha =>
    have hhead : ∀ n, substitute name (.const x) (renameHead (apartName fresh) head n) =
        renameHead (apartName fresh) (substitute name (.const x) head) n := by
      intro n
      cases head with
      | sym old =>
        by_cases hold : old = name
        · subst hold
          have hsame : apartName fresh old n = old := by
            rcases Operation.apartName_cases fresh old n with h | ⟨op, h, -⟩
            · exact h
            · exact absurd h.symm (htag op)
          rw [Term.renameHead_sym, hsame, substitute_sym_self]
          rfl
        · have hne : apartName fresh old n ≠ name :=
            fun h => hold (Operation.eq_of_apartName_eq hname h)
          rw [Term.renameHead_sym, substitute_sym_of_ne hne, substitute_sym_of_ne hold]
          rfl
      | const y => rfl
      | app f as => rw [substitute_app]; exact substitute_app f as
      | lam ps b => rfl
    rw [Term.setApart_app, substitute_app, substitute_app, Term.setApart_app, hhead, List.map_map,
      List.map_map, List.length_map]
    congr 1
    exact List.map_congr_left ha
  | lam params body => rfl

end Rule

end TermCalc
