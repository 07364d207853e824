import TermCalc.Proofs.Term.Equivalence

/-!
# Addresses in a term

An address leads from the root of a term to one of its parts, turning at every application into the
head or into an argument. No address leads into an abstraction. A term is determined by the nodes at
its addresses, and a symbol occurs in it if it stands at one of them.

## Main definitions

* `Term.part? t address`: the part of `t` at an address
* `Term.node t`: what stands at the root of `t`
* `Term.Occurs name t`: the symbol `name` stands at an address of `t`

## Main results

* `occurs_iff_mentions`: the symbols at the addresses are those that are mentioned
-/

namespace TermCalc.Term

/-- A turn from an application to one of its parts. -/
inductive Turn where
  | head
  | arg (index : Nat)
deriving DecidableEq

/-- What stands at the root of a term: an application with its number of arguments, and an
abstraction as a whole. -/
inductive Node where
  | const (value : Float)
  | sym (name : String)
  | app (arity : Nat)
  | lam (params : List Term) (body : Term)

/-- The node at the root. -/
def node : Term → Node
  | .const x => .const x
  | .sym name => .sym name
  | .app _ args => .app args.length
  | .lam params body => .lam params body

/-- The part of an application that a turn leads to. -/
def turn? : Term → Turn → Option Term
  | .app head _, .head => some head
  | .app _ args, .arg index => args[index]?
  | _, _ => none

/-- The part of a term at an address, if the address does not lead out of the term or into an
abstraction. -/
def part? (t : Term) : List Turn → Option Term
  | [] => some t
  | turn :: address => (t.turn? turn).bind fun s => s.part? address

/-- The symbol stands at an address of the term. -/
def Occurs (name : String) (t : Term) : Prop :=
  ∃ address, t.part? address = some (.sym name)

variable {s t head : Term} {args : List Term} {name : String} {index : Nat}
  {address : List Turn} {turn : Turn}

@[simp] theorem part?_const_cons (x : Float) : (const x).part? (turn :: address) = none := by
  cases turn <;> rfl

@[simp] theorem part?_sym_cons (n : String) : (sym n).part? (turn :: address) = none := by
  cases turn <;> rfl

@[simp] theorem part?_lam_cons (params : List Term) (body : Term) :
    (lam params body).part? (turn :: address) = none := by
  cases turn <;> rfl

theorem part?_arg (head : Term) (args : List Term) :
    (app head args).part? (.arg index :: address) = args[index]?.bind fun a => a.part? address :=
  rfl

theorem part?_arg_eq_some_iff : (app head args).part? (.arg index :: address) = some s ↔
    ∃ a, args[index]? = some a ∧ a.part? address = some s := by
  rw [part?_arg, Option.bind_eq_some_iff]

/-! ## Occurrence -/

/-- The symbols at the addresses of a term are those that it mentions. -/
theorem occurs_iff_mentions : t.Occurs name ↔ t.mentions name = true := by
  constructor
  · rintro ⟨address, h⟩
    induction address generalizing t with
    | nil =>
      obtain rfl := Option.some.inj h
      exact mentions_sym.2 rfl
    | cons turn address ih =>
      cases t with
      | app head args =>
        rw [mentions_app]
        cases turn with
        | head => exact .inl (ih h)
        | arg index =>
          obtain ⟨a, ha, h⟩ := part?_arg_eq_some_iff.1 h
          exact .inr ⟨a, List.mem_of_getElem? ha, ih h⟩
      | _ => simp at h
  · intro h
    induction t using Term.induction with
    | const x => simp at h
    | sym n => exact ⟨[], congrArg (fun n => some (sym n)) (mentions_sym.1 h)⟩
    | app head args hh ha =>
      rcases mentions_app.1 h with h | ⟨a, hm, h⟩
      · obtain ⟨address, h⟩ := hh h
        exact ⟨.head :: address, h⟩
      · obtain ⟨index, hindex⟩ := List.getElem?_of_mem hm
        obtain ⟨address, h⟩ := ha a hm h
        exact ⟨.arg index :: address, part?_arg_eq_some_iff.2 ⟨a, hindex, h⟩⟩
    | lam params body => simp at h

theorem not_occurs_iff : ¬ t.Occurs name ↔ t.mentions name = false := by
  rw [occurs_iff_mentions, Bool.not_eq_true]

end TermCalc.Term
