import TermCalc.Proofs.Number.Arithmetic
import TermCalc.Proofs.Term.Equivalence
import TermCalc.Rule.Operation

/-!
# The value of an arithmetic term

A term that is built from constants, symbols and the arithmetic operations stands for a number: the
symbols have numbers, and the operations are those of binary64 arithmetic. The value is computed
straight from the term, without any rewriting, and it is there only if all numbers on the way are
finite.

## Main definitions

* `Operation.compute? op xs`: the result of an operation on numbers
* `Term.value? env t`: the value of a term, where `env` gives the numbers of the symbols
* `Term.SameValue env s t`: if `s` has a value, then `t` has an equal one

## Main results

* `value?_app_eq_some_iff`: the value of an application
* `SameValue.app`: an application keeps its value if its arguments do
* `sameValue_of_equivalent`: equivalent terms have equal values
-/

namespace TermCalc

namespace Operation

/-- The operation with a given tag. -/
def ofTag? (tag : String) : Option Operation :=
  [assign, negate, add, subtract, multiply, divide].find? (·.tag == tag)

/-- The result of an arithmetic operation on as many numbers as it works on. -/
def compute? : Operation → List Float → Option Float
  | .negate, [x] => some (-x)
  | .add, [x, y] => some (x + y)
  | .subtract, [x, y] => some (x - y)
  | .multiply, [x, y] => some (x * y)
  | .divide, [x, y] => some (x / y)
  | _, _ => none

/-- The results that there are. -/
inductive Computes : Operation → List Float → Float → Prop
  | negate (x : Float) : Computes .negate [x] (-x)
  | add (x y : Float) : Computes .add [x, y] (x + y)
  | subtract (x y : Float) : Computes .subtract [x, y] (x - y)
  | multiply (x y : Float) : Computes .multiply [x, y] (x * y)
  | divide (x y : Float) : Computes .divide [x, y] (x / y)

theorem compute?_eq_some_iff {op : Operation} {xs : List Float} {z : Float} :
    op.compute? xs = some z ↔ Computes op xs z := by
  constructor
  · intro h
    unfold compute? at h
    split at h
    · exact Option.some.inj h ▸ .negate _
    · exact Option.some.inj h ▸ .add _ _
    · exact Option.some.inj h ▸ .subtract _ _
    · exact Option.some.inj h ▸ .multiply _ _
    · exact Option.some.inj h ▸ .divide _ _
    · exact absurd h (Option.some_ne_none z).symm
  · intro h
    cases h <;> rfl

open Binary64 in
/-- An operation gives equal results on equal finite numbers, if its result is finite. -/
theorem Computes.congr {op : Operation} {xs ys : List Float} {z : Float} (h : Computes op xs z)
    (hxy : List.Forall₂ (fun x y : Float => (x == y) = true ∧ x.isFinite = true) xs ys)
    (hz : z.isFinite = true) : ∃ w, Computes op ys w ∧ (z == w) = true := by
  cases h with
  | negate x =>
    obtain ⟨hx, -⟩ | ⟨⟨hx, hfx⟩, _ | _⟩ := hxy
    exact ⟨_, .negate _, neg_congr hfx hx⟩
  | add x y =>
    obtain ⟨⟩ | ⟨⟨hx, hfx⟩, ⟨⟩ | ⟨⟨hy, hfy⟩, ⟨⟩ | _⟩⟩ := hxy
    exact ⟨_, .add _ _, add_congr hx hy hfx hfy hz⟩
  | subtract x y =>
    obtain ⟨⟩ | ⟨⟨hx, hfx⟩, ⟨⟩ | ⟨⟨hy, hfy⟩, ⟨⟩ | _⟩⟩ := hxy
    exact ⟨_, .subtract _ _, sub_congr hx hy hfx hfy hz⟩
  | multiply x y =>
    obtain ⟨⟩ | ⟨⟨hx, hfx⟩, ⟨⟩ | ⟨⟨hy, hfy⟩, ⟨⟩ | _⟩⟩ := hxy
    exact ⟨_, .multiply _ _, mul_congr hx hy hfx hfy hz⟩
  | divide x y =>
    obtain ⟨⟩ | ⟨⟨hx, hfx⟩, ⟨⟩ | ⟨⟨hy, hfy⟩, ⟨⟩ | _⟩⟩ := hxy
    exact ⟨_, .divide _ _, div_congr hx hy hfx hfy hz⟩

theorem ofTag?_eq_some_iff {tag : String} {op : Operation} :
    ofTag? tag = some op ↔ op.tag = tag := by
  constructor
  · intro h
    simpa using List.find?_some h
  · rintro rfl
    cases op <;> rfl

end Operation

namespace Term

/-- A number, if it is finite. -/
def finite? (x : Float) : Option Float :=
  if x.isFinite then some x else none

mutual

/-- The value of a term, if it is an arithmetic term and the values of all its parts are finite. -/
def value? (env : String → Option Float) : Term → Option Float
  | .const x => finite? x
  | .sym name => (env name).bind finite?
  | .app (.sym tag) args => do
    let op ← Operation.ofTag? tag
    let xs ← valueAll? env args
    let x ← op.compute? xs
    finite? x
  | _ => none

/-- The values of a list of terms. -/
def valueAll? (env : String → Option Float) : List Term → Option (List Float)
  | [] => some []
  | t :: ts => do
    let x ← value? env t
    let xs ← valueAll? env ts
    some (x :: xs)

end

variable {env : String → Option Float} {s t : Term} {x z : Float}

theorem finite?_eq_some_iff : finite? x = some z ↔ x = z ∧ z.isFinite = true := by
  rw [finite?]
  constructor
  · intro h
    split at h
    · next hx =>
      obtain rfl := Option.some.inj h
      exact ⟨rfl, hx⟩
    · exact absurd h (Option.some_ne_none z).symm
  · rintro ⟨rfl, hx⟩
    rw [if_pos hx]

theorem valueAll?_eq_some_iff {ts : List Term} {xs : List Float} :
    valueAll? env ts = some xs ↔ List.Forall₂ (fun t x => t.value? env = some x) ts xs := by
  induction ts generalizing xs with
  | nil => simp [valueAll?, eq_comm]
  | cons t ts ih =>
    simp only [valueAll?, Option.bind_eq_bind, Option.bind_eq_some_iff, Option.some.injEq]
    constructor
    · rintro ⟨x, hx, ys, hys, rfl⟩
      exact .cons hx (ih.1 hys)
    · intro h
      cases h with
      | cons hx hxs => exact ⟨_, hx, _, ih.2 hxs, rfl⟩

theorem exists_value?_of_mem {ts : List Term} {xs : List Float}
    (h : List.Forall₂ (fun t x => t.value? env = some x) ts xs) (ht : t ∈ ts) :
    ∃ x, t.value? env = some x := by
  induction h with
  | nil => exact absurd ht List.not_mem_nil
  | cons hx _ ih =>
    rcases List.mem_cons.1 ht with rfl | ht
    · exact ⟨_, hx⟩
    · exact ih ht

theorem value?_const_eq_some_iff : (const x).value? env = some z ↔ x = z ∧ z.isFinite = true :=
  finite?_eq_some_iff

theorem value?_sym_eq_some_iff {name : String} :
    (sym name).value? env = some z ↔ env name = some z ∧ z.isFinite = true := by
  rw [value?, Option.bind_eq_some_iff]
  constructor
  · rintro ⟨x, hx, h⟩
    obtain ⟨rfl, hz⟩ := finite?_eq_some_iff.1 h
    exact ⟨hx, hz⟩
  · rintro ⟨hx, hz⟩
    exact ⟨z, hx, finite?_eq_some_iff.2 ⟨rfl, hz⟩⟩

/-- The value of an application is computed from the values of its arguments. -/
theorem value?_app_eq_some_iff {head : Term} {args : List Term} :
    (app head args).value? env = some z ↔
      ∃ op xs, head = sym (Operation.tag op) ∧
        List.Forall₂ (fun t x => t.value? env = some x) args xs ∧
        Operation.Computes op xs z ∧ z.isFinite = true := by
  constructor
  · intro h
    cases head with
    | sym tag =>
      simp only [value?, Option.bind_eq_bind, Option.bind_eq_some_iff] at h
      obtain ⟨op, hop, xs, hxs, x, hx, h⟩ := h
      obtain ⟨rfl, hz⟩ := finite?_eq_some_iff.1 h
      refine ⟨op, xs, ?_, valueAll?_eq_some_iff.1 hxs, Operation.compute?_eq_some_iff.1 hx, hz⟩
      rw [Operation.ofTag?_eq_some_iff.1 hop]
    | _ => exact absurd h (by simp [value?])
  · rintro ⟨op, xs, rfl, hxs, hx, hz⟩
    simp only [value?, Option.bind_eq_bind, Option.bind_eq_some_iff]
    exact ⟨op, Operation.ofTag?_eq_some_iff.2 rfl, xs, valueAll?_eq_some_iff.2 hxs, z,
      Operation.compute?_eq_some_iff.2 hx, finite?_eq_some_iff.2 ⟨rfl, hz⟩⟩

/-- Values are finite. -/
theorem isFinite_of_value? (h : t.value? env = some x) : x.isFinite = true := by
  cases t with
  | const y => exact (value?_const_eq_some_iff.1 h).2
  | sym name => exact (value?_sym_eq_some_iff.1 h).2
  | app head args =>
    obtain ⟨op, xs, -, -, -, hx⟩ := value?_app_eq_some_iff.1 h
    exact hx
  | lam params body => exact absurd h (by simp [value?])

/-! ## Terms of the same value -/

/-- If `s` has a value, then `t` has an equal one. -/
def SameValue (env : String → Option Float) (s t : Term) : Prop :=
  ∀ x, s.value? env = some x → ∃ y, t.value? env = some y ∧ (x == y) = true

theorem SameValue.refl (t : Term) : SameValue env t t :=
  fun x hx => ⟨x, hx, Binary64.beq_refl_of_isFinite (isFinite_of_value? hx)⟩

theorem SameValue.trans {r : Term} (hrs : SameValue env r s) (hst : SameValue env s t) :
    SameValue env r t := by
  intro x hx
  obtain ⟨y, hy, hxy⟩ := hrs x hx
  obtain ⟨z, hz, hyz⟩ := hst y hy
  exact ⟨z, hz, Binary64.beq_trans hxy hyz⟩

theorem exists_values_of_sameValue {ts us : List Term} {xs : List Float}
    (h : List.Forall₂ (SameValue env) ts us)
    (hxs : List.Forall₂ (fun t x => t.value? env = some x) ts xs) :
    ∃ ys, List.Forall₂ (fun u y => u.value? env = some y) us ys ∧
      List.Forall₂ (fun x y : Float => (x == y) = true ∧ x.isFinite = true) xs ys := by
  induction h generalizing xs with
  | nil =>
    cases hxs
    exact ⟨[], .nil, .nil⟩
  | cons htu _ ih =>
    cases hxs with
    | cons hx hxs =>
      obtain ⟨y, hy, hxy⟩ := htu _ hx
      obtain ⟨ys, hys, hxys⟩ := ih hxs
      exact ⟨y :: ys, .cons hy hys, .cons ⟨hxy, isFinite_of_value? hx⟩ hxys⟩

/-- An application keeps its value if its arguments do. -/
theorem SameValue.app {head : Term} {args args' : List Term}
    (h : List.Forall₂ (SameValue env) args args') :
    SameValue env (app head args) (app head args') := by
  intro z hz
  obtain ⟨op, xs, rfl, hxs, hcompute, hfinite⟩ := value?_app_eq_some_iff.1 hz
  obtain ⟨ys, hys, hxys⟩ := exists_values_of_sameValue h hxs
  obtain ⟨w, hw, hzw⟩ := hcompute.congr hxys hfinite
  exact ⟨w, value?_app_eq_some_iff.2 ⟨op, ys, rfl, hys, hw, Binary64.isFinite_of_beq hzw hfinite⟩,
    hzw⟩

/-- Equivalent terms have equal values. -/
theorem sameValue_of_equivalent (h : s.equivalent t = true) : SameValue env s t := by
  induction s, t, h using equivalent_induction with
  | const x y h =>
    intro z hz
    obtain ⟨rfl, hfinite⟩ := value?_const_eq_some_iff.1 hz
    have hxy : (x == y) = true := by
      rw [sameNumber, Binary64.isNaN_of_isFinite hfinite] at h
      simpa using h
    exact ⟨y, value?_const_eq_some_iff.2 ⟨rfl, Binary64.isFinite_of_beq hxy hfinite⟩, hxy⟩
  | sym name => exact .refl _
  | app f g as bs hfg hab hf ha =>
    have hparts : SameValue env (.app f as) (.app f bs) := .app (ha.imp fun _ _ h => h.2)
    intro z hz
    -- only applications of a tag have a value, and a tag is equivalent to itself only
    obtain ⟨op, xs, rfl, -⟩ := value?_app_eq_some_iff.1 hz
    rw [equivalent_sym_left.1 hfg]
    exact hparts z hz
  | lam ps qs b c hpq hbc =>
    intro z hz
    exact absurd hz (by simp [value?])

end Term

end TermCalc
