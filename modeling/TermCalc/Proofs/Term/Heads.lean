import Mathlib
import TermCalc.Proofs.Term.Part

/-!
# The heads of applications

Terms in which only symbols and constants are applied to anything, and the renaming of the symbols
that are applied. The name that such a symbol gets may depend on the number of its arguments; a
symbol that is not applied keeps its name.

## Main definitions

* `Term.FirstOrder t`: there are no abstractions in `t`, and only symbols and constants are applied
* `Term.renameHeads f t`: the symbol `name` that is applied to `n` arguments becomes `f name n`
* `Term.applications p t`: how many symbols in `t` are applied to a number of arguments as `p` says

## Main results

* `equivalent_renameHeads`: equivalent terms stay equivalent
* `renameHeads_renameHeads`: one renaming after another is a renaming
* `applications_renameHeads`: the applications of the new symbols are those of the old ones
-/

namespace TermCalc.Term

/-! ## First-order terms -/

/-- A symbol or a constant. -/
def Atom : Term → Prop
  | .const _ => True
  | .sym _ => True
  | _ => False

/-- There are no abstractions in the term, and only symbols and constants are applied. -/
inductive FirstOrder : Term → Prop
  | const (x : Float) : FirstOrder (.const x)
  | sym (name : String) : FirstOrder (.sym name)
  | app {head : Term} {args : List Term} (hhead : head.Atom) (hargs : ∀ a ∈ args, FirstOrder a) :
      FirstOrder (.app head args)

variable {f g : String → Nat → String} {head s t : Term} {args : List Term} {name : String}
  {x : Float}

theorem Atom.eq_self_of_part (h : head.Atom) (hs : Part s head) : s = head := by
  cases head with
  | const x => exact part_const.1 hs
  | sym name => exact part_sym.1 hs
  | app f as => exact h.elim
  | lam ps b => exact h.elim

/-! ## Renaming the heads -/

/-- The head of an application to `n` arguments, renamed. -/
def renameHead (f : String → Nat → String) (head : Term) (n : Nat) : Term :=
  match head with
  | .sym name => .sym (f name n)
  | head => head

mutual

/-- The term with `f name n` in the place of every symbol `name` that is applied to `n` arguments.
What is applied otherwise stays as it is, and so do abstractions. -/
def renameHeads (f : String → Nat → String) : Term → Term
  | .app head args => .app (renameHead f head args.length) (renameHeadsAll f args)
  | t => t

/-- The renaming in each term of a list. -/
def renameHeadsAll (f : String → Nat → String) : List Term → List Term
  | [] => []
  | t :: ts => renameHeads f t :: renameHeadsAll f ts

end

@[simp] theorem renameHead_sym (n : Nat) : renameHead f (.sym name) n = .sym (f name n) :=
  rfl

@[simp] theorem renameHead_const (n : Nat) : renameHead f (.const x) n = .const x :=
  rfl

@[simp] theorem renameHeads_const : renameHeads f (.const x) = .const x :=
  rfl

@[simp] theorem renameHeads_sym : renameHeads f (.sym name) = .sym name :=
  rfl

@[simp] theorem renameHeads_app : renameHeads f (.app head args) =
    .app (renameHead f head args.length) (args.map (renameHeads f)) := by
  have hall : ∀ ts, renameHeadsAll f ts = ts.map (renameHeads f) := by
    intro ts
    induction ts with
    | nil => rfl
    | cons t ts ih => rw [renameHeadsAll, ih, List.map_cons]
  rw [renameHeads, hall]

@[simp] theorem renameHeads_lam {params : List Term} {body : Term} :
    renameHeads f (.lam params body) = .lam params body :=
  rfl

theorem Atom.renameHead (h : head.Atom) (n : Nat) : (renameHead f head n).Atom := by
  cases head with
  | const x => trivial
  | sym name => trivial
  | app f as => exact h.elim
  | lam ps b => exact h.elim

theorem FirstOrder.renameHeads (h : t.FirstOrder) : (renameHeads f t).FirstOrder := by
  induction h with
  | const x => exact .const x
  | sym name => exact .sym name
  | app hhead hargs ih =>
    rw [renameHeads_app]
    refine .app (hhead.renameHead _) fun b hb => ?_
    obtain ⟨a, ha, rfl⟩ := List.mem_map.1 hb
    exact ih a ha

theorem isConst_renameHeads (t : Term) : (renameHeads f t).isConst = t.isConst := by
  cases t with
  | app head args => rw [renameHeads_app]; rfl
  | _ => rfl

theorem isNumber_renameHeads (t : Term) (x : Float) :
    (renameHeads f t).isNumber x = t.isNumber x := by
  cases t with
  | app head args => rw [renameHeads_app]; rfl
  | _ => rfl

theorem equivalent_renameHead {head' : Term} (h : head.equivalent head' = true) (n : Nat) :
    (renameHead f head n).equivalent (renameHead f head' n) = true := by
  cases head with
  | sym name =>
    rw [equivalent_sym_left.1 h]
    exact equivalent_refl _
  | _ =>
    cases head' with
    | sym name => simp [equivalent] at h
    | _ => exact h

/-- Equivalent terms stay equivalent. -/
theorem equivalent_renameHeads (h : s.equivalent t = true) :
    (renameHeads f s).equivalent (renameHeads f t) = true := by
  induction s, t, h using equivalent_induction with
  | const x y h => exact h
  | sym name => exact equivalent_refl _
  | app head head' args args' hhead hargs hh ha =>
    rw [renameHeads_app, renameHeads_app, equivalent_app_iff, List.forall₂_map_left_iff,
      List.forall₂_map_right_iff, hargs.length_eq]
    exact ⟨equivalent_renameHead hhead _, ha.imp fun _ _ h => h.2⟩
  | lam params params' body body' hparams hbody => exact equivalent_lam_iff.2 ⟨hparams, hbody⟩

/-- One renaming after another is a renaming. -/
theorem renameHeads_renameHeads (t : Term) :
    renameHeads f (renameHeads g t) = renameHeads (fun name n => f (g name n) n) t := by
  induction t using Term.induction with
  | const x => rfl
  | sym name => rfl
  | app head args hh ha =>
    have hhead : ∀ n, renameHead f (renameHead g head n) n =
        renameHead (fun name n => f (g name n) n) head n := by
      intro n
      cases head <;> rfl
    rw [renameHeads_app, renameHeads_app, renameHeads_app, List.length_map, hhead, List.map_map]
    congr 1
    exact List.map_congr_left ha
  | lam params body => rfl

/-- A term stays as it is if its symbols keep their names. -/
theorem renameHeads_eq_self (h : ∀ name n, t.mentions name = true → f name n = name) :
    renameHeads f t = t := by
  induction t using Term.induction with
  | const x => rfl
  | sym name => rfl
  | app head args hh ha =>
    have hhead : renameHead f head args.length = head := by
      cases head with
      | sym name => rw [renameHead_sym, h name _ (mentions_app.2 (.inl (mentions_sym.2 rfl)))]
      | _ => rfl
    rw [renameHeads_app, hhead]
    congr 1
    refine (List.map_congr_left fun a hm => ?_).trans (List.map_id _)
    exact ha a hm fun name n hn => h name n (mentions_app.2 (.inr ⟨a, hm, hn⟩))
  | lam params body => rfl

/-- Every symbol of the result was there before, or one that was applied has got its name. -/
theorem mentions_of_mentions_renameHeads (h : (renameHeads f t).mentions name = true) :
    t.mentions name = true ∨ ∃ old n, t.mentions old = true ∧ f old n = name := by
  induction t using Term.induction with
  | const x => exact .inl h
  | sym old => exact .inl h
  | app head args hh ha =>
    rw [renameHeads_app, mentions_app] at h
    rcases h with h | ⟨b, hb, h⟩
    · cases head with
      | sym old =>
        exact .inr ⟨old, _, mentions_app.2 (.inl (mentions_sym.2 rfl)), mentions_sym.1 h⟩
      | _ => exact .inl (mentions_app.2 (.inl h))
    · obtain ⟨a, hm, rfl⟩ := List.mem_map.1 hb
      rcases ha a hm h with h | ⟨old, n, h, hname⟩
      · exact .inl (mentions_app.2 (.inr ⟨a, hm, h⟩))
      · exact .inr ⟨old, n, mentions_app.2 (.inr ⟨a, hm, h⟩), hname⟩
  | lam params body => exact .inl h

/-! ## Counting applications -/

/-- One, if the head is a symbol that is applied to `n` arguments as `p` says; else none. -/
def countHead (p : String → Nat → Bool) (head : Term) (n : Nat) : Nat :=
  match head with
  | .sym name => if p name n then 1 else 0
  | _ => 0

mutual

/-- How many symbols in the term are applied to a number of arguments as `p` says, outside
heads. -/
def applications (p : String → Nat → Bool) : Term → Nat
  | .app head args => countHead p head args.length + applicationsAll p args
  | _ => 0

/-- How many symbols in the terms of a list are applied to a number of arguments as `p` says. -/
def applicationsAll (p : String → Nat → Bool) : List Term → Nat
  | [] => 0
  | t :: ts => applications p t + applicationsAll p ts

end

variable {p : String → Nat → Bool}

@[simp] theorem applications_const : applications p (.const x) = 0 :=
  rfl

@[simp] theorem applications_sym : applications p (.sym name) = 0 :=
  rfl

@[simp] theorem applications_app : applications p (.app head args) =
    countHead p head args.length + (args.map (applications p)).sum := by
  have hall : ∀ ts, applicationsAll p ts = (ts.map (applications p)).sum := by
    intro ts
    induction ts with
    | nil => rfl
    | cons t ts ih => rw [applicationsAll, ih, List.map_cons, List.sum_cons]
  rw [applications, hall]

theorem applications_eq_zero (hp : ∀ name n, p name n = false) (t : Term) :
    applications p t = 0 := by
  induction t using Term.induction with
  | const x => rfl
  | sym name => rfl
  | app head args hh ha =>
    have hhead : countHead p head args.length = 0 := by
      cases head <;> simp [countHead, hp]
    rw [applications_app, hhead, Nat.zero_add, List.map_congr_left ha]
    simp
  | lam params body => rfl

/-- The applications of the new symbols are those of the old ones. -/
theorem applications_renameHeads (t : Term) :
    applications p (renameHeads f t) = applications (fun name n => p (f name n) n) t := by
  induction t using Term.induction with
  | const x => rfl
  | sym name => rfl
  | app head args hh ha =>
    have hhead : ∀ n, countHead p (renameHead f head n) n =
        countHead (fun name n => p (f name n) n) head n := by
      intro n
      cases head <;> rfl
    rw [renameHeads_app, applications_app, applications_app, List.length_map, hhead, List.map_map]
    congr 2
    exact List.map_congr_left ha
  | lam params body => rfl

end TermCalc.Term
