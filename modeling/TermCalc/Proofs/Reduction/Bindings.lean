import TermCalc.Proofs.Reduction.Ceiling

/-!
# What a reduction binds

The scans of a reduction bind names while they go through the table. The bindings of all its scans,
one after the other, are the log of the reduction. Every change of the table is in it: the table at
the end is the first one with the logged bindings made.

## Main definitions

* `Table.madeAt t v k`: the bindings that a scan of `v` makes at the first `k` places
* `Table.boundIn n v t`: the bindings that the run of `v` with at most `n` rewrites makes

## Main results

* `Table.visited_eq_bindAll_madeAt`: they make the tables that the scan goes through
* `Table.table_run_eq_bindAll`: they make the table at the end of the run
-/

namespace TermCalc.Table

variable {t : Table} {v : Term}

/-- The bindings that a scan of `v` makes at the first `k` places of a table, in order. A rule is
tried as it stands when the scan comes to its place: the bindings of the rules ahead are made. -/
def madeAt (t : Table) (v : Term) : Nat → List Binding
  | 0 => []
  | k + 1 =>
    t.madeAt v k ++ (t.bindAll (t.madeAt v k)).rules[k]?.toList.flatMap fun r => r.bindings v

/-- The bindings that the run of `v` with at most `n` rewrites makes, in order. A scan tries the
rules up to the one that changes its term, or all of them. A scan that fails is not logged, since a
session gives up its table. -/
def boundIn : (n : Nat) → Term → Table → List Binding
  | n, v, t =>
    match t.scan v 0 with
    | .unchanged t' => t.madeAt v t'.rules.length
    | .failed _ _ => []
    | .changed place w t' =>
      t.madeAt v (place + 1) ++
        match n with
        | 0 => []
        | n + 1 => boundIn n w t'

theorem boundIn_succ_of_scan_changed {t' : Table} {w : Term} {place : Nat} (n : Nat)
    (h : t.scan v 0 = .changed place w t') :
    t.boundIn (n + 1) v = t.madeAt v (place + 1) ++ t'.boundIn n w := by
  rw [boundIn, h]

/-- A rule binds the same as the rule that stood in its place when the scan began. -/
theorem madeAt_eq (t : Table) (v : Term) (k : Nat) :
    t.madeAt v k = (t.rules.take k).flatMap fun r => r.bindings v := by
  induction k with
  | zero => rfl
  | succ k ih =>
    rw [madeAt, ih, ← visited, List.take_add_one, List.flatMap_append]
    congr 1
    cases hr : (t.visited v k).rules[k]? with
    | none =>
      have hlen : t.rules.length ≤ k :=
        Nat.le_trans (length_rules_le_bindAll _ _) (List.getElem?_eq_none_iff.1 hr)
      rw [List.getElem?_eq_none hlen]
    | some r =>
      rcases slot_visited hr with ⟨q, hq, hslot⟩ | ⟨hlen, name, hslot⟩
      · simp [hq, bindings_eq_of_slot_eq hslot]
      · have hnone : r.bindings v = [] := by
          cases r with
          | substitution => rfl
          | operation => simp [Rule.slot] at hslot
        simp [List.getElem?_eq_none hlen, hnone]

/-- The bindings make the tables that a scan goes through. -/
theorem visited_eq_bindAll_madeAt (t : Table) (v : Term) (k : Nat) :
    t.visited v k = t.bindAll (t.madeAt v k) := by
  rw [visited, madeAt_eq]

theorem madeAt_of_length_le {k : Nat} (h : t.rules.length ≤ k) :
    t.madeAt v k = t.madeAt v t.rules.length := by
  rw [madeAt_eq, madeAt_eq, List.take_of_length_le h, List.take_length]

/-- A scan that goes through the whole table makes the bindings of the rules that it began with. -/
theorem boundIn_of_scan_visited (n : Nat)
    (h : t.scan v 0 = .unchanged (t.visited v t.rules.length)) :
    t.boundIn n v = t.madeAt v t.rules.length := by
  have hlength : t.rules.length ≤ (t.visited v t.rules.length).rules.length :=
    length_rules_le_bindAll _ _
  rw [boundIn, h]
  exact madeAt_of_length_le hlength

/-- The rule that ends a scan binds nothing. -/
theorem FirstChange.visited_succ (ht : t.Standard) {place : Nat} {w : Term}
    (h : t.FirstChange v place w) : t.visited v (place + 1) = t.visited v place := by
  obtain ⟨-, r, hr, hc, -⟩ := h
  have hstandard := ht.visited v place r (List.mem_of_getElem? hr)
  rw [visited_succ_of_met hr, hstandard.bindings_of_changes hc, bindAll_nil]

/-- The table at the end of a run is the first one with the bindings of the run made. -/
theorem table_run_eq_bindAll (ht : t.Standard) (n : Nat) (v : Term) :
    (t.run n v).table = t.bindAll (t.boundIn n v) := by
  induction n generalizing t v with
  | zero =>
    rcases scan_cases ht v with ⟨hscan, -⟩ | ⟨place, w, hscan, hfirst⟩
    · rw [run_of_scan_unchanged 0 hscan, boundIn_of_scan_visited 0 hscan,
        ← visited_eq_bindAll_madeAt]
    · rw [run_zero_of_scan_changed hscan, boundIn, hscan]
      simp only [List.append_nil]
      rw [← visited_eq_bindAll_madeAt, hfirst.visited_succ ht]
  | succ n ih =>
    rcases scan_cases ht v with ⟨hscan, -⟩ | ⟨place, w, hscan, hfirst⟩
    · rw [run_of_scan_unchanged (n + 1) hscan, boundIn_of_scan_visited (n + 1) hscan,
        ← visited_eq_bindAll_madeAt]
    · rw [run_succ_of_scan_changed n hscan, boundIn_succ_of_scan_changed n hscan, bindAll_append,
        ← visited_eq_bindAll_madeAt, hfirst.visited_succ ht]
      exact ih (ht.visited v place) w

end TermCalc.Table
