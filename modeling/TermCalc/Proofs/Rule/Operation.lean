import TermCalc.Proofs.Term.Equivalence
import TermCalc.Rule.Basic

/-!
# Operations on whole terms

A builtin operation with its own tag and number of operands never fails. It contracts the
applications of its tag from the inside out, and of all operations only the assignment binds: the
applications of `$let` to a symbol and a definition, in the order in which they are met.

## Main definitions

* `Operation.contract op args`: what `op` makes of an application of its tag
* `Operation.everywhere op t`: the term with every application of the tag of `op` contracted
* `Term.assignments t`: the bindings that the assignments in `t` make

## Main results

* `contraction_contract`: the shapes that a contraction can have
* `operate_builtin`: an operation on a term, with its bindings and its result
* `everywhere_eq_or_lt`: an operation leaves a term as it is or makes it smaller
* `mentions_of_mentions_everywhere`: an operation brings no symbol but `$neg` into a term
-/

namespace TermCalc

namespace Operation

/-! ## Contractions -/

/-- What an operation makes of the application of its tag to `args`. -/
def contract (op : Operation) (args : List Term) : Term :=
  match op, args with
  | .negate, [operand] => negation (.app (.sym op.tag) args) operand
  | .add, [left, right] => sum (.app (.sym op.tag) args) left right
  | .subtract, [left, right] => difference (.app (.sym op.tag) args) left right
  | .multiply, [left, right] => product (.app (.sym op.tag) args) left right
  | .divide, [left, right] => quotient (.app (.sym op.tag) args) left right
  -- an assignment contracts nothing, and neither does a wrong number of operands
  | _, _ => .app (.sym op.tag) args

/-- The binding that an application makes if it assigns a definition to a symbol. -/
def assigned (head : Term) (args : List Term) : List Binding :=
  match head, args with
  | .sym tag, [.sym name, definition] => if tag = "$let" then [⟨name, definition⟩] else []
  | _, _ => []

/-- The shapes of a contraction. An operand is taken out of its application only if the other one
is a constant. -/
inductive Contraction (tag : String) : List Term → Term → Prop
  | whole (args : List Term) : Contraction tag args (.app (.sym tag) args)
  | const (args : List Term) (x : Float) : Contraction tag args (.const x)
  | left (a : Term) (x : Float) : Contraction tag [a, .const x] a
  | right (x : Float) (a : Term) : Contraction tag [.const x, a] a
  | negLeft (a : Term) (x : Float) : Contraction tag [a, .const x] (.unary "$neg" a)
  | negRight (x : Float) (a : Term) : Contraction tag [.const x, a] (.unary "$neg" a)
  | double (first : Term) (rest : List Term) :
    Contraction tag [.app (.sym "$neg") (first :: rest)] first

theorem exists_const_of_isNumber {t : Term} {x : Float} (h : t.isNumber x = true) :
    ∃ y, t = .const y := by
  cases t with
  | const y => exact ⟨y, rfl⟩
  | _ => simp [Term.isNumber] at h

variable {tag : String} {left right : Term}

theorem contraction_negation (operand : Term) :
    Contraction tag [operand] (negation (.app (.sym tag) [operand]) operand) := by
  unfold negation
  split
  · exact .const _ _
  · split
    · next h => subst h; exact .double _ _
    · exact .whole _
  · exact .whole _

theorem contraction_sum :
    Contraction tag [left, right] (sum (.app (.sym tag) [left, right]) left right) := by
  unfold sum
  split
  · exact .const _ _
  · split_ifs with hl hr
    · obtain ⟨x, rfl⟩ := exists_const_of_isNumber hl
      exact .right _ _
    · obtain ⟨x, rfl⟩ := exists_const_of_isNumber hr
      exact .left _ _
    · exact .whole _

theorem contraction_difference :
    Contraction tag [left, right] (difference (.app (.sym tag) [left, right]) left right) := by
  unfold difference
  split
  · exact .const _ _
  · split_ifs with hl hr
    · obtain ⟨x, rfl⟩ := exists_const_of_isNumber hl
      exact .negRight _ _
    · obtain ⟨x, rfl⟩ := exists_const_of_isNumber hr
      exact .left _ _
    · exact .const _ _
    · exact .whole _

theorem contraction_product :
    Contraction tag [left, right] (product (.app (.sym tag) [left, right]) left right) := by
  unfold product
  split
  · exact .const _ _
  · split_ifs with h0 hl hr hln hrn
    · exact .const _ _
    · obtain ⟨x, rfl⟩ := exists_const_of_isNumber hl
      exact .right _ _
    · obtain ⟨x, rfl⟩ := exists_const_of_isNumber hr
      exact .left _ _
    · obtain ⟨x, rfl⟩ := exists_const_of_isNumber hln
      exact .negRight _ _
    · obtain ⟨x, rfl⟩ := exists_const_of_isNumber hrn
      exact .negLeft _ _
    · exact .whole _

theorem contraction_quotient :
    Contraction tag [left, right] (quotient (.app (.sym tag) [left, right]) left right) := by
  unfold quotient
  split
  · exact .const _ _
  · split_ifs with hl hr hrn
    · exact .const _ _
    · obtain ⟨x, rfl⟩ := exists_const_of_isNumber hr
      exact .left _ _
    · obtain ⟨x, rfl⟩ := exists_const_of_isNumber hrn
      exact .negLeft _ _
    · exact .whole _

/-- What an operation makes of an application of its tag has one of the shapes of a contraction. -/
theorem contraction_contract (op : Operation) (args : List Term) :
    Contraction op.tag args (op.contract args) := by
  unfold contract
  split
  · exact contraction_negation _
  · exact contraction_sum
  · exact contraction_difference
  · exact contraction_product
  · exact contraction_quotient
  · exact .whole _

/-- A contraction is the whole application or smaller, if the tags count one. -/
theorem Contraction.eq_or_lt {μ : Term → Nat} {μs : List Term → Nat} (hμ : Term.Measure μ μs)
    (hneg : μ (.sym "$neg") = 1) (htag : μ (.sym tag) = 1) {args : List Term} {t : Term}
    (h : Contraction tag args t) :
    t = .app (.sym tag) args ∨ μ t < μ (.app (.sym tag) args) := by
  cases h with
  | whole => exact .inl rfl
  | _ =>
    right
    simp only [Term.unary, hμ.app, hμ.const, hμ.nil, hμ.cons, hneg, htag]
    omega

/-- A contraction brings in no symbol but `$neg`. -/
theorem Contraction.mentions {args : List Term} {t : Term} {y : String}
    (h : Contraction tag args t) (hy : t.mentions y = true) :
    y = "$neg" ∨ (Term.app (.sym tag) args).mentions y = true := by
  cases h with
  | whole => exact .inr hy
  | const => simp at hy
  | left => exact .inr (by simp [hy])
  | right => exact .inr (by simp [hy])
  | double => exact .inr (by simp [hy])
  | negLeft | negRight =>
    rcases Term.mentions_unary.1 hy with rfl | hy
    · exact .inl rfl
    · exact .inr (by simp [hy])

/-- On as many operands as it is for, an operation binds as an assignment does and contracts. -/
theorem perform_eq {op : Operation} {args : List Term} (h : args.length = op.operands) :
    op.perform (.app (.sym op.tag) args) args =
      ⟨if op = .assign then assigned (.sym op.tag) args else [], .ok (op.contract args)⟩ := by
  cases op with
  | negate =>
    obtain ⟨a, rfl⟩ := List.length_eq_one_iff.1 h
    rfl
  | assign =>
    obtain ⟨a, b, rfl⟩ := List.length_eq_two.1 h
    cases a <;> rfl
  | _ =>
    obtain ⟨a, b, rfl⟩ := List.length_eq_two.1 h
    rfl

end Operation

/-! ## Operations everywhere in a term -/

namespace Term

mutual

/-- The bindings that the assignments in a term make, in the order in which they are met. -/
def assignments : Term → List Binding
  | .app head args =>
    head.assignments ++ (assignmentsAll args ++ Operation.assigned head args)
  | _ => []

/-- The bindings that the assignments in a list of terms make. -/
def assignmentsAll : List Term → List Binding
  | [] => []
  | t :: ts => t.assignments ++ assignmentsAll ts

end

end Term

namespace Operation

mutual

/-- The term with every application of the tag of `op` contracted, the inner ones first. -/
def everywhere (op : Operation) : Term → Term
  | .app head args =>
    let head := everywhere op head
    let args := everywhereAll op args
    -- the parts are done first, so what they have become decides
    if Rule.applies op.tag (some op.operands) head args then op.contract args else .app head args
  | t => t

/-- The terms of a list with every application of the tag of `op` contracted. -/
def everywhereAll (op : Operation) : List Term → List Term
  | [] => []
  | t :: ts => everywhere op t :: everywhereAll op ts

end

variable {op : Operation}

theorem everywhereAll_eq_map (ts : List Term) : everywhereAll op ts = ts.map op.everywhere := by
  induction ts with
  | nil => rfl
  | cons t ts ih => rw [everywhereAll, ih, List.map_cons]

theorem applies_iff {head : Term} {args : List Term} :
    Rule.applies op.tag (some op.operands) head args = true ↔
      head = .sym op.tag ∧ args.length = op.operands := by
  have hlength : ((op.operands : Int) = args.length) ↔ args.length = op.operands := by omega
  cases head <;> simp [Rule.applies, Term.tag?, hlength]

/-- The application that an operation makes of the parts once it has been through them. -/
def close (op : Operation) (head : Term) (args : List Term) : Term :=
  if Rule.applies op.tag (some op.operands) head args then op.contract args else .app head args

theorem close_of_not_applies {head : Term} {args : List Term}
    (h : ¬ (head = .sym op.tag ∧ args.length = op.operands)) :
    op.close head args = .app head args := by
  rw [close, if_neg (mt applies_iff.1 h)]

theorem close_of_applies {args : List Term} (h : args.length = op.operands) :
    op.close (.sym op.tag) args = op.contract args := by
  rw [close, if_pos (applies_iff.2 ⟨rfl, h⟩)]

theorem contraction_close (head : Term) (args : List Term) :
    op.close head args = .app head args ∨
      head = .sym op.tag ∧ Contraction op.tag args (op.close head args) := by
  by_cases h : head = .sym op.tag ∧ args.length = op.operands
  · rw [close, if_pos (applies_iff.2 h)]
    exact .inr ⟨h.1, contraction_contract op args⟩
  · exact .inl (close_of_not_applies h)

@[simp] theorem everywhere_const (x : Float) : op.everywhere (.const x) = .const x :=
  rfl

@[simp] theorem everywhere_sym (name : String) : op.everywhere (.sym name) = .sym name :=
  rfl

@[simp] theorem everywhere_app (head : Term) (args : List Term) :
    op.everywhere (.app head args) = op.close (op.everywhere head) (args.map op.everywhere) := by
  rw [everywhere, everywhereAll_eq_map]
  rfl

@[simp] theorem everywhere_lam (params : List Term) (body : Term) :
    op.everywhere (.lam params body) = .lam params body :=
  rfl

theorem close_assign (head : Term) (args : List Term) :
    Operation.assign.close head args = .app head args := by
  by_cases h : head = .sym "$let" ∧ args.length = 2
  · rw [close, if_pos (applies_iff.2 h), h.1]
    rfl
  · exact close_of_not_applies h

/-- An assignment leaves the term as it is. -/
@[simp] theorem everywhere_assign (t : Term) : Operation.assign.everywhere t = t := by
  induction t using Term.induction with
  | const x => rfl
  | sym name => rfl
  | app head args hh ha =>
    rw [everywhere_app, hh, close_assign]
    congr 1
    exact (List.map_congr_left ha).trans (List.map_id _)
  | lam params body => rfl

theorem map_everywhere_assign (ts : List Term) : ts.map Operation.assign.everywhere = ts :=
  (List.map_congr_left fun t _ => everywhere_assign t).trans (List.map_id _)

/-! ## Size and symbols of the result -/

section Measure

variable {μ : Term → Nat} {μs : List Term → Nat} (hμ : Term.Measure μ μs)
  (hneg : μ (.sym "$neg") = 1) (htag : μ (.sym op.tag) = 1)

include hμ hneg htag

theorem close_eq_or_lt (head : Term) (args : List Term) :
    op.close head args = .app head args ∨ μ (op.close head args) < μ (.app head args) := by
  rcases @contraction_close op head args with h | ⟨hhead, hc⟩
  · exact .inl h
  · rw [hhead] at hc ⊢
    exact hc.eq_or_lt hμ hneg htag

/-- An operation leaves a term as it is or makes it smaller. -/
theorem everywhere_eq_or_lt (t : Term) : op.everywhere t = t ∨ μ (op.everywhere t) < μ t := by
  induction t using Term.induction with
  | const x => exact .inl rfl
  | sym name => exact .inl rfl
  | app head args hh ha =>
    have hparts := hμ.app_eq_or_lt hh ha
    have hclose := close_eq_or_lt hμ hneg htag (op.everywhere head) (args.map op.everywhere)
    rw [everywhere_app]
    rcases hclose with hclose | hclose
    · rwa [hclose]
    · rcases hparts with hparts | hparts
      · exact .inr (hparts ▸ hclose)
      · exact .inr (Nat.lt_trans hclose hparts)
  | lam params body => exact .inl rfl

end Measure

theorem everywhere_eq_or_size_lt (t : Term) :
    op.everywhere t = t ∨ (op.everywhere t).size < t.size :=
  everywhere_eq_or_lt Term.measure_size rfl rfl t

/-- An operation that does not change a term up to equivalence does not change it at all. -/
theorem everywhere_eq_of_equivalent {t : Term} (h : t.equivalent (op.everywhere t) = true) :
    op.everywhere t = t := by
  rcases @everywhere_eq_or_size_lt op t with ht | ht
  · exact ht
  · have := Term.size_eq_of_equivalent h
    omega

/-- An operation leaves an application as it is exactly if it does so with its parts and does not
contract them. -/
theorem everywhere_app_eq_self_iff {head : Term} {args : List Term} :
    op.everywhere (.app head args) = .app head args ↔
      op.everywhere head = head ∧ (∀ a ∈ args, op.everywhere a = a) ∧
        op.close head args = .app head args := by
  have hmap : args.map op.everywhere = args ↔ ∀ a ∈ args, op.everywhere a = a := by
    rw [← List.map_inj_left, List.map_id']
  rw [← hmap]
  constructor
  · intro h
    have hparts := Term.measure_size.app_eq_or_lt (@everywhere_eq_or_size_lt op head)
      fun a (_ : a ∈ args) => everywhere_eq_or_size_lt a
    have hclose := @close_eq_or_lt op _ _ Term.measure_size rfl rfl (op.everywhere head)
      (args.map op.everywhere)
    rw [← everywhere_app, h] at hclose
    -- no part can have become smaller, since the whole has not
    have hsame : Term.app (op.everywhere head) (args.map op.everywhere) = .app head args := by
      rcases hclose with hclose | hclose
      · exact hclose.symm
      · exact hparts.resolve_right (Nat.lt_asymm hclose)
    obtain ⟨hhead, hargs⟩ := Term.app.inj hsame
    refine ⟨hhead, hargs, ?_⟩
    rwa [everywhere_app, hhead, hargs] at h
  · rintro ⟨hhead, hargs, hclose⟩
    rw [everywhere_app, hhead, hargs, hclose]

/-- An operation brings no symbol but `$neg` into a term. -/
theorem mentions_of_mentions_everywhere {t : Term} {y : String}
    (h : (op.everywhere t).mentions y = true) : y = "$neg" ∨ t.mentions y = true := by
  induction t using Term.induction with
  | const x => simp at h
  | sym name => exact .inr h
  | app head args hh ha =>
    have hparts : y = "$neg" ∨
        (Term.app (op.everywhere head) (args.map op.everywhere)).mentions y = true := by
      rw [everywhere_app] at h
      rcases contraction_close (op.everywhere head) (args.map op.everywhere) with hc | ⟨hhead, hc⟩
      · exact .inr (hc ▸ h)
      · rw [hhead]
        exact hc.mentions h
    rcases hparts with rfl | hparts
    · exact .inl rfl
    · rcases Term.mentions_app.1 hparts with hm | ⟨b, hb, hm⟩
      · exact (hh hm).imp_right fun h => Term.mentions_app.2 (.inl h)
      · obtain ⟨a, hmem, rfl⟩ := List.mem_map.1 hb
        exact (ha a hmem hm).imp_right fun h => Term.mentions_app.2 (.inr ⟨a, hmem, h⟩)
  | lam params body => simp at h

end Operation

namespace Rule

theorem andThen_ok {α β : Type} (bs : List Binding) (a : α) (f : α → Effect β) :
    ((⟨bs, .ok a⟩ : Effect α) >>= f) = ⟨bs ++ (f a).bindings, (f a).result⟩ :=
  rfl

/-- The bindings that an operation makes on a term: those of its assignments, if it assigns. -/
def boundBy (op : Operation) (t : Term) : List Binding :=
  if op = .assign then t.assignments else []

/-- The bindings that an operation makes on a list of terms. -/
def boundByAll (op : Operation) (ts : List Term) : List Binding :=
  if op = .assign then Term.assignmentsAll ts else []

theorem boundBy_app {op : Operation} (head : Term) (args : List Term) :
    boundBy op (.app head args) = boundBy op head ++ (boundByAll op args ++
      if op = .assign then Operation.assigned head args else []) := by
  unfold boundBy boundByAll
  split_ifs
  · rw [Term.assignments]
  · rfl

theorem assigned_of_not_applies {head : Term} {args : List Term}
    (h : ¬ (head = .sym "$let" ∧ args.length = 2)) : Operation.assigned head args = [] := by
  unfold Operation.assigned
  split
  · split_ifs with ht
    · exact absurd ⟨congrArg _ ht, rfl⟩ h
    · rfl
  · rfl

/-- At an application whose parts are done, an operation binds if it assigns, and closes it. -/
theorem perform_or_pure_eq (op : Operation) (head : Term) (args : List Term) :
    (if applies op.tag (some op.operands) head args then op.perform (.app head args) args
      else pure (.app head args)) =
      ⟨if op = .assign then Operation.assigned head args else [],
        .ok (op.close head args)⟩ := by
  by_cases h : head = .sym op.tag ∧ args.length = op.operands
  · rw [if_pos (Operation.applies_iff.2 h), Operation.close, if_pos (Operation.applies_iff.2 h),
      h.1, Operation.perform_eq h.2]
  · rw [if_neg (mt Operation.applies_iff.1 h), Operation.close_of_not_applies h]
    have hnone : (if op = .assign then Operation.assigned head args else []) = [] := by
      split_ifs with ho
      · subst ho
        exact assigned_of_not_applies h
      · rfl
    rw [hnone]
    rfl

mutual

/-- A builtin operation never fails; it binds the assignments of the term if it is the assignment,
and contracts its applications everywhere. -/
theorem operate_builtin (op : Operation) :
    (t : Term) → operate op.tag op (some op.operands) t = ⟨boundBy op t, .ok (op.everywhere t)⟩
  | .const _ => by cases op <;> rfl
  | .sym _ => by cases op <;> rfl
  | .lam _ _ => by cases op <;> rfl
  | .app head args => by
    -- bindings are read off the parts as rewritten, but an assignment rewrites nothing
    have hparts : (if op = .assign then
          Operation.assigned (op.everywhere head) (args.map op.everywhere) else []) =
        if op = .assign then Operation.assigned head args else [] := by
      split_ifs with ho
      · subst ho
        rw [Operation.everywhere_assign, Operation.map_everywhere_assign]
      · rfl
    rw [operate, operate_builtin op head, andThen_ok, operateAll_builtin op args, andThen_ok,
      Operation.everywhereAll_eq_map, perform_or_pure_eq, hparts, boundBy_app,
      Operation.everywhere_app]

/-- The same on a list of terms. -/
theorem operateAll_builtin (op : Operation) :
    (ts : List Term) → operateAll op.tag op (some op.operands) ts =
      ⟨boundByAll op ts, .ok (op.everywhereAll ts)⟩
  | [] => by cases op <;> rfl
  | t :: ts => by
    have hbound : boundByAll op (t :: ts) = boundBy op t ++ (boundByAll op ts ++ []) := by
      unfold boundByAll boundBy
      split_ifs
      · rw [Term.assignmentsAll, List.append_nil]
      · rfl
    rw [operateAll, operate_builtin op t, andThen_ok, operateAll_builtin op ts, andThen_ok, hbound]
    rfl

end

end Rule

end TermCalc
