import Mathlib
import TermCalc.Proofs.Rule.Standard
import TermCalc.Table

/-!
# Weights of terms

A weight that drops with every rewrite. An operation makes a term smaller, but a substitution can
make it larger by any amount, also by putting a tag at a head where it makes a new operation
possible. So a symbol that has replacements is charged for all of them beforehand, and for the
replacements of their symbols in turn; the charges are finite if the replacements can be ranked.

## Main definitions

* `Term.weight W t`: the number of nodes of `t`, each symbol counted as `W` says
* `Table.Weighs t W`: every symbol weighs more than each of its replacements, and every tag one
* `Table.charge t k`: the weights of the symbols if they are expanded `k` times
* `Table.Ranked t rank`: the symbols of a replacement rank below the name that it is for

## Main results

* `Weighs.weight_output_lt`: a rule that changes a term makes it lighter
* `Ranked.weighs_charge`: a table whose replacements are ranked has such weights
-/

namespace TermCalc

namespace Term

mutual

/-- The weight of a term: its nodes are counted, a symbol as `W` says and an abstraction, which no
rule looks into, as one. -/
def weight (W : String → Nat) : Term → Nat
  | .const _ => 1
  | .sym name => W name
  | .app head args => 1 + weight W head + weightAll W args
  | .lam _ _ => 1

/-- The weight of a list of terms. -/
def weightAll (W : String → Nat) : List Term → Nat
  | [] => 0
  | t :: ts => weight W t + weightAll W ts

end

variable {W W' : String → Nat} {t : Term}

theorem measure_weight : Measure (weight W) (weightAll W) where
  const _ := rfl
  app _ _ := rfl
  nil := rfl
  cons _ _ := rfl

/-- Equivalent terms have the same weight. -/
theorem weight_eq_of_equivalent {s t : Term} (h : s.equivalent t = true) :
    s.weight W = t.weight W := by
  induction s, t, h using equivalent_induction with
  | const x y h => rfl
  | sym name => rfl
  | app f g as bs hfg hab hf ha =>
    rw [weight, weight, hf, measure_weight.eq_of_forall₂ (ha.imp fun _ _ h => h.2)]
  | lam ps qs b c hpq hbc => rfl

theorem weightAll_congr {ts : List Term} (h : ∀ t ∈ ts, t.weight W = t.weight W') :
    weightAll W ts = weightAll W' ts := by
  induction ts with
  | nil => rfl
  | cons t ts ih =>
    rw [weightAll, weightAll, h t List.mem_cons_self,
      ih fun s hs => h s (List.mem_cons_of_mem _ hs)]

/-- The weight of a term depends only on the symbols that occur in it. -/
theorem weight_congr (h : ∀ name, t.mentions name = true → W name = W' name) :
    t.weight W = t.weight W' := by
  induction t using Term.induction with
  | const x => rfl
  | sym name => exact h name (mentions_sym.2 rfl)
  | app head args hh ha =>
    have hhead := hh fun name hm => h name (mentions_app.2 (.inl hm))
    have hargs := weightAll_congr fun a hmem =>
      ha a hmem fun name hm => h name (mentions_app.2 (.inr ⟨a, hmem, hm⟩))
    rw [weight, weight, hhead, hargs]
  | lam params body => rfl

end Term

/-! ## Rules -/

/-- A substitution whose replacement is lighter than its symbol leaves a term as it is or makes it
lighter. -/
theorem Rule.substitute_eq_or_weight_lt {W : String → Nat} {name : String} {u : Term}
    (hu : u.weight W < W name) (t : Term) :
    substitute name u t = t ∨ (substitute name u t).weight W < t.weight W := by
  induction t using Term.induction with
  | const x => exact .inl rfl
  | sym n =>
    by_cases hn : n = name
    · right
      rwa [hn, substitute_sym_self]
    · exact .inl (substitute_sym_of_ne hn)
  | app head args hh ha =>
    rw [substitute_app]
    exact Term.measure_weight.app_eq_or_lt hh ha
  | lam params body => exact .inl rfl

namespace Table

variable {t : Table} {W : String → Nat}

/-- The weights `W` are such that every symbol weighs more than each of its replacements, and the
tags of the operations weigh one. -/
structure Weighs (t : Table) (W : String → Nat) : Prop where
  tag : ∀ op : Operation, W op.tag = 1
  replacement : ∀ name u, .substitution name u ∈ t.rules → u ≠ .sym name → u.weight W < W name

/-- A rule that changes a term makes it lighter. -/
theorem Weighs.weight_output_lt (hW : t.Weighs W) {r : Rule} {v : Term} (hr : r ∈ t.rules)
    (hstd : r.Standard) (hc : r.Changes v) : (r.output v).weight W < v.weight W := by
  have hne : r.output v ≠ v := fun h => hc (by rw [h]; exact Term.equivalent_refl v)
  cases hstd with
  | substitution name u =>
    have hu : u ≠ .sym name := by
      rintro rfl
      exact hne (Rule.substitute_sym v)
    exact (Rule.substitute_eq_or_weight_lt (hW.replacement name u hr hu) v).resolve_left hne
  | builtin op =>
    rw [Rule.output_ofOperation] at hne ⊢
    have hlighter :=
      Operation.everywhere_eq_or_lt Term.measure_weight (hW.tag .negate) (hW.tag op) v
    exact hlighter.resolve_left hne

/-! ## Charging symbols for their replacements -/

/-- The weights of all replacements of a name together; a symbol in its own place costs nothing. -/
def replacementWeight (t : Table) (W : String → Nat) (name : String) : Nat :=
  (t.rules.map fun r =>
    match r with
    | .substitution _ u => if r.renames name then u.weight W else 0
    | .operation .. => 0).sum

/-- The weights of symbols if each is charged for its replacements, for those of their symbols, and
so on `k` times. -/
def charge (t : Table) : Nat → String → Nat
  | 0, _ => 1
  | k + 1, name => 1 + t.replacementWeight (t.charge k) name

theorem weight_le_replacementWeight {name : String} {u : Term}
    (h : .substitution name u ∈ t.rules) (hu : u ≠ .sym name) :
    u.weight W ≤ t.replacementWeight W name := by
  have hren : Rule.renames name (.substitution name u) = true :=
    Rule.renames_iff.2 ⟨u, rfl, hu⟩
  apply List.le_sum_of_mem
  refine List.mem_map.2 ⟨_, h, ?_⟩
  simp only [hren, if_true]

theorem replacementWeight_congr {W' : String → Nat} {name : String}
    (h : ∀ u, .substitution name u ∈ t.rules → u ≠ .sym name → u.weight W = u.weight W') :
    t.replacementWeight W name = t.replacementWeight W' name := by
  unfold replacementWeight
  congr 1
  apply List.map_congr_left
  intro r hr
  cases r with
  | operation => rfl
  | substitution n u =>
    by_cases hren : Rule.renames name (.substitution n u) = true
    · obtain ⟨u', hu', hne⟩ := Rule.renames_iff.1 hren
      obtain ⟨rfl, rfl⟩ := Rule.substitution.inj hu'
      simp only [h u hr hne]
    · simp only [hren]
      rfl

/-- A name that no rule renames is charged for nothing. -/
theorem charge_of_not_renames {name : String} (h : ∀ r ∈ t.rules, r.renames name = false)
    (k : Nat) : t.charge k name = 1 := by
  cases k with
  | zero => rfl
  | succ k =>
    have hnothing : t.replacementWeight (t.charge k) name = 0 := by
      apply List.sum_eq_zero
      intro n hn
      obtain ⟨r, hr, rfl⟩ := List.mem_map.1 hn
      have hren := h r hr
      cases r with
      | operation => rfl
      | substitution m u => simp only [hren, Bool.false_eq_true, if_false]
    rw [charge, hnothing]

/-! ## Ranked replacements -/

section Ranked

variable {α : Type*} [Preorder α] {rank : String → α}

/-- The symbols that occur in a replacement rank below the name that it is for; a symbol in its own
place does not count. -/
def Ranked (t : Table) (rank : String → α) : Prop :=
  ∀ name u, .substitution name u ∈ t.rules → u ≠ .sym name →
    ∀ y, u.mentions y = true → rank y < rank name

/-- The names that the rules of a table substitute. -/
def names (t : Table) : Finset String :=
  (t.rules.filterMap fun r =>
    match r with
    | .substitution name _ => some name
    | .operation .. => none).toFinset

theorem mem_names {r : Rule} {name : String} (hr : r ∈ t.rules) (h : r.renames name = true) :
    name ∈ t.names := by
  obtain ⟨u, rfl, -⟩ := Rule.renames_iff.1 h
  exact List.mem_toFinset.2 (List.mem_filterMap.2 ⟨_, hr, rfl⟩)

open Classical in
/-- How many names of the table rank below a name. -/
noncomputable def height (t : Table) (rank : String → α) (name : String) : Nat :=
  (t.names.filter fun y => rank y < rank name).card

theorem height_lt {y name : String} (hy : y ∈ t.names) (h : rank y < rank name) :
    t.height rank y < t.height rank name := by
  classical
  apply Finset.card_lt_card
  refine Finset.ssubset_iff_of_subset ?_ |>.2 ⟨y, ?_, ?_⟩
  · intro z hz
    obtain ⟨hz, hzy⟩ := Finset.mem_filter.1 hz
    exact Finset.mem_filter.2 ⟨hz, hzy.trans h⟩
  · exact Finset.mem_filter.2 ⟨hy, h⟩
  · intro hyy
    exact lt_irrefl _ (Finset.mem_filter.1 hyy).2

theorem height_le (name : String) : t.height rank name ≤ t.names.card := by
  classical
  exact Finset.card_filter_le _ _

/-- Beyond its height a name is not charged any more. -/
theorem Ranked.charge_succ (h : t.Ranked rank) {k : Nat} {name : String}
    (hk : t.height rank name < k) : t.charge (k + 1) name = t.charge k name := by
  -- induction on the number of expansions: the symbols of a replacement are one level lower
  induction k generalizing name with
  | zero => exact absurd hk (Nat.not_lt_zero _)
  | succ k ih =>
    rw [charge, charge]
    congr 1
    apply replacementWeight_congr
    intro u hu hne
    apply Term.weight_congr
    intro y hy
    by_cases hren : ∃ r ∈ t.rules, r.renames y = true
    · obtain ⟨r, hr, hry⟩ := hren
      have hlower := height_lt (mem_names hr hry) (h name u hu hne y hy)
      exact ih (by omega)
    · push Not at hren
      have hnone : ∀ r ∈ t.rules, r.renames y = false := fun r hr => by simpa using hren r hr
      rw [charge_of_not_renames hnone, charge_of_not_renames hnone]

/-- The charges of a table whose replacements are ranked are weights for it. -/
theorem Ranked.weighs_charge (h : t.Ranked rank)
    (htags : ∀ name u, .substitution name u ∈ t.rules → ∀ op : Operation, name ≠ op.tag) :
    t.Weighs (t.charge (t.names.card + 1)) where
  tag op := by
    apply charge_of_not_renames
    intro r hr
    rw [← Bool.not_eq_true]
    intro hren
    obtain ⟨u, rfl, -⟩ := Rule.renames_iff.1 hren
    exact htags _ u hr op rfl
  replacement name u hu hne := by
    have hheight : t.height rank name ≤ t.names.card := height_le name
    rw [← h.charge_succ (Nat.lt_succ_of_le hheight), charge]
    have hle := weight_le_replacementWeight (W := t.charge (t.names.card + 1)) hu hne
    omega

end Ranked

end Table

end TermCalc
