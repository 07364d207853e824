import TermCalc.Proofs.Table.Binding
import TermCalc.Reduction

/-!
# What a scan does

A scan changes the table that it goes through: the assignments of the scanned term bind as soon as
the scan passes an operation for them. It never touches the part of the table that it has left
behind, because a rule there that renamed a bound name would have changed the term.

## Main definitions

* `Table.visited t v k`: the table `t` after the bindings of its first `k` rules on `v`
* `Table.met? t v k`: the rule that a scan of `v` from `t` meets at place `k`
* `Table.Reaches t v k`: no rule that the scan meets ahead of place `k` changes `v`
* `Table.FirstChange t v k w`: the scan reaches place `k`, and the rule there makes `w` of `v`

## Main results

* `Reaches.unchanged`: at no time does a rule that the scan has left behind change the term
* `scan_cases`: a scan of a standard table goes through all of it, or ends at the first rule that
  changes the term
-/

namespace TermCalc.Table

variable {t : Table} {v : Term} {k : Nat}

/-- The table after the bindings that its first `k` rules make on `v`. -/
def visited (t : Table) (v : Term) (k : Nat) : Table :=
  t.bindAll ((t.rules.take k).flatMap fun r => r.bindings v)

/-- The rule that a scan of `v` from `t` meets at a place: the rules ahead have made their bindings
by then. -/
def met? (t : Table) (v : Term) (place : Nat) : Option Rule :=
  (t.visited v place).rules[place]?

/-- A scan of `v` gets as far as that place: no rule that it meets before changes `v`. -/
def Reaches (t : Table) (v : Term) (place : Nat) : Prop :=
  ∀ k < place, ∀ r, t.met? v k = some r → ¬ r.Changes v

/-- The first rule that a scan of `v` meets and that changes `v` is at that place and makes `w`. -/
def FirstChange (t : Table) (v : Term) (place : Nat) (w : Term) : Prop :=
  t.Reaches v place ∧ ∃ r, t.met? v place = some r ∧ r.Changes v ∧ r.output v = w

@[simp] theorem visited_zero (t : Table) (v : Term) : t.visited v 0 = t :=
  rfl

theorem visited_succ {r : Rule} (h : t.rules[k]? = some r) :
    t.visited v (k + 1) = (t.visited v k).bindAll (r.bindings v) := by
  rw [visited, visited, ← bindAll_append, List.take_add_one, h, Option.toList_some,
    List.flatMap_append, List.flatMap_singleton]

theorem visited_of_length_le (h : t.rules.length ≤ k) :
    t.visited v k = t.visited v t.rules.length := by
  rw [visited, visited, List.take_of_length_le h, List.take_length]

theorem Standard.visited (ht : t.Standard) (v : Term) (k : Nat) : (t.visited v k).Standard :=
  ht.bindAll _

/-- The rules of one slot make the same bindings. -/
theorem bindings_eq_of_slot_eq {q r : Rule} (h : q.slot = r.slot) (v : Term) :
    q.bindings v = r.bindings v := by
  cases q <;> cases r <;> simp_all [Rule.slot, Rule.bindings, Rule.rewrite, pure, Effect.pure]

/-- A place of the visited table holds a rule of the slot that was there before, or a substitution
that was added. -/
theorem slot_visited {j : Nat} {r : Rule} (h : (t.visited v k).rules[j]? = some r) :
    (∃ q, t.rules[j]? = some q ∧ q.slot = r.slot) ∨
      t.rules.length ≤ j ∧ ∃ name, r.slot = .name name := by
  obtain ⟨names, hslots⟩ := slots_bindAll t ((t.rules.take k).flatMap fun r => r.bindings v)
  have hslot : (t.visited v k).slots[j]? = some r.slot := by
    rw [slots, List.getElem?_map, h, Option.map_some]
  rw [visited, hslots] at hslot
  by_cases hj : j < t.rules.length
  · left
    rw [List.getElem?_append_left (by rwa [slots, List.length_map]), slots, List.getElem?_map,
      Option.map_eq_some_iff] at hslot
    exact hslot
  · right
    refine ⟨Nat.le_of_not_lt hj, ?_⟩
    rw [List.getElem?_append_right (by rw [slots, List.length_map]; omega), List.getElem?_map,
      Option.map_eq_some_iff] at hslot
    obtain ⟨name, -, hname⟩ := hslot
    exact ⟨name, hname.symm⟩

/-- What a scan does at the rule that it meets: the bindings of that rule are made. -/
theorem visited_succ_of_met {r : Rule} (h : t.met? v k = some r) :
    t.visited v (k + 1) = (t.visited v k).bindAll (r.bindings v) := by
  rcases slot_visited h with ⟨q, hq, hslot⟩ | ⟨hlen, name, hslot⟩
  · rw [visited_succ hq, bindings_eq_of_slot_eq hslot]
  · have hnone : r.bindings v = [] := by
      cases r with
      | substitution => rfl
      | operation => simp [Rule.slot] at hslot
    rw [hnone, bindAll_nil, visited_of_length_le (Nat.le_succ_of_le hlen),
      visited_of_length_le hlen]

theorem visited_succ_of_not_met (h : t.met? v k = none) : t.visited v (k + 1) = t.visited v k := by
  have hlen : t.rules.length ≤ k :=
    Nat.le_trans (length_rules_le_bindAll _ _) (List.getElem?_eq_none_iff.1 h)
  rw [visited_of_length_le (Nat.le_succ_of_le hlen), visited_of_length_le hlen]

/-! ## What a scan leaves behind -/

/-- None of the rules that a term is unchanged by renames a name that the term binds. -/
theorem not_renames_of_not_changes {r q : Rule} (hr : r.Standard) (hq : ¬ q.Changes v)
    {b : Binding} (hb : b ∈ r.bindings v) : q.renames b.name = false := by
  have hmentions : v.mentions b.name = true := by
    rcases hr.bindings_eq v with h | h
    · exact Rule.mentions_of_mem_assignments (h ▸ hb)
    · exact absurd (h ▸ hb) List.not_mem_nil
  by_contra hren
  exact hq (Rule.changes_of_renames (by simpa using hren) hmentions)

theorem Reaches.mono {j : Nat} (h : t.Reaches v k) (hj : j ≤ k) : t.Reaches v j :=
  fun i hi => h i (Nat.lt_of_lt_of_le hi hj)

theorem Reaches.succ {r : Rule} (h : t.Reaches v k) (hr : t.met? v k = some r)
    (hc : ¬ r.Changes v) : t.Reaches v (k + 1) := by
  intro j hj q hq
  rcases Nat.lt_or_eq_of_le (Nat.le_of_lt_succ hj) with hj | rfl
  · exact h j hj q hq
  · rw [hr, Option.some.injEq] at hq
    exact hq ▸ hc

/-- None of the rules that are behind a scan at some time changes the term: the bindings of the
rules that it passes fall behind it, or do not touch them. -/
theorem Reaches.unchanged (ht : t.Standard) (h : t.Reaches v k) :
    ∀ r ∈ (t.visited v k).rules.take k, ¬ r.Changes v := by
  -- induction on the place: one more rule is passed, and its bindings are made
  induction k with
  | zero => simp
  | succ k ih =>
    have hbefore := ih (h.mono (Nat.le_succ k))
    cases hr : t.met? v k with
    | none =>
      have hlen : (t.visited v k).rules.length ≤ k := List.getElem?_eq_none_iff.1 hr
      rw [List.take_of_length_le hlen] at hbefore
      rw [visited_succ_of_not_met hr, List.take_of_length_le (Nat.le_succ_of_le hlen)]
      exact hbefore
    | some r =>
      obtain ⟨hk, hrk⟩ := List.getElem?_eq_some_iff.1 hr
      have htake : ∀ q ∈ (t.visited v k).rules.take (k + 1), ¬ q.Changes v := by
        intro q hq
        rw [List.take_add_one, ← met?, hr, Option.toList_some, List.mem_append,
          List.mem_singleton] at hq
        rcases hq with hq | rfl
        · exact hbefore q hq
        · exact h k (Nat.lt_succ_self k) q hr
      -- a name that the rule binds occurs in the term, so no rule behind renames it
      have hstandard := ht.visited v k r (hrk ▸ List.getElem_mem hk)
      rw [visited_succ_of_met hr, take_bindAll hk fun q hq b hb =>
        not_renames_of_not_changes hstandard (htake q hq) hb]
      exact htake

/-- If a scan goes through all rules that it meets, no rule of the table at its end changes the
term. -/
theorem normal_of_reaches (ht : t.Standard) (h : ∀ k, t.Reaches v k) :
    (t.visited v t.rules.length).Normal v := by
  have hlen : t.rules.length ≤ (t.visited v t.rules.length).rules.length :=
    length_rules_le_bindAll _ _
  have hunchanged := (h (t.visited v t.rules.length).rules.length).unchanged ht
  rwa [visited_of_length_le hlen, List.take_length] at hunchanged

/-! ## The result of a scan -/

/-- From the place that it has reached a scan goes through the rest of the table, or ends at the
first rule that changes the term. -/
theorem Reaches.scan_cases {s : Table} (ht : t.Standard) (h : t.Reaches v k)
    (hs : s = t.visited v k) :
    (s.scan v k = .unchanged (t.visited v t.rules.length) ∧ ∀ j, t.Reaches v j) ∨
    ∃ place w, s.scan v k = .changed place w (t.visited v place) ∧ t.FirstChange v place w := by
  fun_induction Table.scan s v k with
  | case1 s k hnone =>
    left
    subst hs
    have hle : t.rules.length ≤ k :=
      Nat.le_trans (length_rules_le_bindAll _ _) (List.getElem?_eq_none_iff.1 hnone)
    refine ⟨by rw [visited_of_length_le hle], fun j i hi r hr => ?_⟩
    by_cases hik : i < k
    · exact h i hik r hr
    · rw [met?, visited_of_length_le (Nat.le_trans hle (Nat.le_of_not_lt hik)),
        ← visited_of_length_le hle] at hr
      have hlen := List.getElem?_eq_none_iff.1 hnone
      rw [List.getElem?_eq_none (Nat.le_trans hlen (Nat.le_of_not_lt hik))] at hr
      exact absurd hr (by simp)
  | case2 s k r hr bs e hrewrite =>
    subst hs
    have hstd := ht.visited v k r (List.mem_of_getElem? hr)
    rw [hstd.rewrite_eq v] at hrewrite
    simp at hrewrite
  | case3 s k r hr bs w hrewrite heq ih =>
    subst hs
    have hstd := ht.visited v k r (List.mem_of_getElem? hr)
    rw [hstd.rewrite_eq v] at hrewrite
    obtain ⟨rfl, hw⟩ : r.bindings v = bs ∧ r.output v = w := by simpa using hrewrite
    exact ih (h.succ hr (not_not.2 (hw ▸ heq))) (visited_succ_of_met hr).symm
  | case4 s k r hr bs w hrewrite hne =>
    subst hs
    have hstd := ht.visited v k r (List.mem_of_getElem? hr)
    rw [hstd.rewrite_eq v] at hrewrite
    obtain ⟨hbs, hw⟩ : r.bindings v = bs ∧ r.output v = w := by simpa using hrewrite
    have hc : r.Changes v := by rwa [Rule.Changes, hw]
    rw [hstd.bindings_of_changes hc] at hbs
    subst hbs
    exact .inr ⟨k, w, rfl, h, r, hr, hc, hw⟩

/-- A scan of a standard table goes through all of it, or ends at the first rule that changes the
term. -/
theorem scan_cases (ht : t.Standard) (v : Term) :
    (t.scan v 0 = .unchanged (t.visited v t.rules.length) ∧ ∀ k, t.Reaches v k) ∨
    ∃ place w, t.scan v 0 = .changed place w (t.visited v place) ∧ t.FirstChange v place w :=
  Reaches.scan_cases ht (fun _ hk => absurd hk (Nat.not_lt_zero _)) rfl

end TermCalc.Table
