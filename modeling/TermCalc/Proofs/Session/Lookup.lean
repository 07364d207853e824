import TermCalc.Proofs.Session.Calls

/-!
# Looking a name up

There are two ways of asking a session what a name stands for. Looking it up takes the first
substitution for the name; reducing the bare symbol takes the first rule that changes it. Since no
two rules of a session rename the same symbol, they part only where a rule that puts the name in its
own place stands ahead of the one that renames it. Such a rule stays for ever, and it hides all that
the name is bound to later.

## Main definitions

* `Table.Shadowed t name`: the rule that renames `name` has a trivial one for it ahead

## Main results

* `Table.run_sym_cases`: the first rewrite of a bare symbol
* `Session.lookup?_eq_first_rewrite_iff`: when looking up and reducing agree
-/

namespace TermCalc

namespace Table

variable {t : Table} {name : String} {u w : Term}

/-! ## The rules for a name -/

/-- A rule that puts `name` in its own place stands ahead of one that renames it. -/
def Shadowed (t : Table) (name : String) : Prop :=
  ∃ (i j : Nat) (u : Term), i < j ∧ t.rules[i]? = some (.substitution name (.sym name)) ∧
    t.rules[j]? = some (.substitution name u) ∧ u ≠ .sym name

/-- Looking a name up gives the replacement of the first rule for it. -/
theorem lookup?_eq_of_first {place : Nat} (h : t.rules[place]? = some (.substitution name u))
    (hfirst : ∀ r ∈ t.rules.take place, r.replacement? name = none) :
    t.lookup? name = some u := by
  obtain ⟨hplace, hr⟩ := List.getElem?_eq_some_iff.1 h
  have hsplit : t.rules =
      t.rules.take place ++ .substitution name u :: t.rules.drop (place + 1) := by
    rw [← hr, ← List.drop_eq_getElem_cons hplace, List.take_append_drop]
  rw [lookup?, hsplit, List.findSome?_append, List.findSome?_eq_none_iff.2 hfirst]
  simp [Rule.replacement?]

/-- A rule for a name that does not rename it puts the name in its own place. -/
theorem eq_sym_of_replacement? {r : Rule} (hr : r.renames name = false)
    (h : r.replacement? name = some u) : r = .substitution name u ∧ u = .sym name := by
  cases r with
  | operation => cases h
  | substitution n v =>
    simp only [Rule.replacement?] at h
    split_ifs at h with hn
    obtain rfl := Option.some.inj h
    subst hn
    refine ⟨rfl, ?_⟩
    by_contra hne
    rw [renames_substitution_self.2 hne] at hr
    cases hr

/-- Where no rule renames a name, looking it up gives nothing or the name itself. -/
theorem lookup?_of_not_renames (h : ∀ r ∈ t.rules, r.renames name = false) :
    t.lookup? name = none ∨ t.lookup? name = some (.sym name) := by
  cases hlookup : t.lookup? name with
  | none => exact .inl rfl
  | some u =>
    obtain ⟨r, hr, hu⟩ := List.exists_of_findSome?_eq_some hlookup
    obtain ⟨-, rfl⟩ := eq_sym_of_replacement? (h r hr) hu
    exact .inr rfl

/-- Where the first rule that renames a name is known, looking the name up gives its replacement,
unless the name is shadowed. -/
theorem OfSession.lookup?_of_renames (ht : t.OfSession) {place : Nat}
    (h : t.rules[place]? = some (.substitution name w)) (hw : w ≠ .sym name)
    (hfirst : ∀ r ∈ t.rules.take place, r.renames name = false) :
    (t.Shadowed name ∧ t.lookup? name = some (.sym name)) ∨
      (¬ t.Shadowed name ∧ t.lookup? name = some w) := by
  by_cases htrivial : ∃ i < place, t.rules[i]? = some (.substitution name (.sym name))
  · left
    obtain ⟨i, hi, hself⟩ := htrivial
    refine ⟨⟨i, place, w, hi, hself, h, hw⟩, ?_⟩
    -- every rule for the name that stands ahead is the trivial one, the first of them too
    obtain ⟨u, hu⟩ := exists_lookup? (t := ⟨t.rules.take place⟩) (mem_take_of_getElem? hself hi)
    obtain ⟨r, hr, hreplacement⟩ := List.exists_of_findSome?_eq_some hu
    obtain ⟨-, rfl⟩ := eq_sym_of_replacement? (hfirst r hr) hreplacement
    rw [lookup?, ← List.take_append_drop place t.rules, List.findSome?_append]
    exact congrArg (Option.or · _) hu
  · right
    refine ⟨?_, lookup?_eq_of_first h fun r hr => ?_⟩
    · rintro ⟨i, j, u, hij, hself, hj, hu⟩
      rw [ht.place_unique hj hu h hw] at hij
      exact htrivial ⟨i, hij, hself⟩
    · by_contra hsome
      obtain ⟨u, hu⟩ := Option.ne_none_iff_exists'.1 hsome
      obtain ⟨rfl, rfl⟩ := eq_sym_of_replacement? (hfirst r hr) hu
      obtain ⟨i, hi, hget⟩ := List.mem_take_iff_getElem.1 hr
      exact htrivial ⟨i, by omega, List.getElem?_eq_some_iff.2 ⟨by omega, hget⟩⟩

/-! ## Rewriting a bare symbol -/

theorem visited_sym (ht : t.OfSession) (k : Nat) : t.visited (.sym name) k = t := by
  rw [visited, ht.flatMap_take]
  exact congrArg t.bindAll (ite_self _)

/-- A run of a bare symbol ends at once, if no rule renames it, or begins with the replacement of
the first rule that does. -/
theorem run_sym_cases (ht : t.OfSession) (name : String) (n : Nat) :
    ((∀ r ∈ t.rules, r.renames name = false) ∧ (t.run (n + 1) (.sym name)).trace = [.sym name]) ∨
    ∃ place w, t.rules[place]? = some (.substitution name w) ∧ w ≠ .sym name ∧
      (∀ r ∈ t.rules.take place, r.renames name = false) ∧
      (t.run (n + 1) (.sym name)).trace[1]? = some w := by
  have hstd := ht.standard
  have hrenames : ∀ r ∈ t.rules, ¬ r.Changes (.sym name) → r.renames name = false :=
    fun r hr hc => by simpa using mt (hstd r hr).changes_sym_iff.2 hc
  rcases scan_cases hstd (.sym name) with
    ⟨hscan, hreaches⟩ | ⟨place, w, hscan, hreaches, r, hr, hc, hw⟩
  · left
    have hnormal := normal_of_reaches hstd hreaches
    rw [visited_sym ht] at hnormal
    refine ⟨fun r hr => hrenames r hr (hnormal r hr), ?_⟩
    rw [run_of_scan_unchanged (n + 1) hscan]
  · right
    rw [met?, visited_sym ht] at hr
    have hrmem := List.mem_of_getElem? hr
    obtain ⟨u, rfl, hu⟩ := Rule.renames_iff.1 ((hstd r hrmem).changes_sym_iff.1 hc)
    rw [Rule.output_substitution, Rule.substitute_sym_self] at hw
    subst hw
    have hahead := hreaches.unchanged hstd
    rw [visited_sym ht] at hahead
    refine ⟨place, u, hr, hu, fun q hq => hrenames q (List.mem_of_mem_take hq) (hahead q hq), ?_⟩
    have hrun : t.run (n + 1) (.sym name) =
        ((t.visited (.sym name) place).run n u).cons (.sym name) := by
      rw [run, hscan]
    rw [hrun, Run.cons, List.getElem?_cons_succ, ← List.head?_eq_getElem?]
    exact run_trace_head? n u _

end Table

namespace Session

variable {s : Session}

/-- **Looking up and reducing.** In a reachable session, let the bare symbol `name` be rewritten. If
a rule rewrites it, looking the name up gives its first rewrite exactly if the name is not shadowed;
if it is shadowed, looking it up gives the name itself. If no rule rewrites it, looking it up gives
nothing or the name itself. -/
theorem lookup?_eq_first_rewrite_iff (hs : s.Reachable) (name : String) (n : Nat) :
    let terms := (s.table.run (n + 1) (.sym name)).trace
    (∀ w, terms[1]? = some w →
      (s.lookup? name = some w ↔ ¬ s.table.Shadowed name) ∧
        (s.table.Shadowed name → s.lookup? name = some (.sym name))) ∧
    (terms[1]? = none → s.lookup? name = none ∨ s.lookup? name = some (.sym name)) := by
  intro terms
  have ht := hs.ofSession
  rcases Table.run_sym_cases ht name n with ⟨hnone, htrace⟩ | ⟨place, w, hw, hne, hfirst, htrace⟩
  · refine ⟨fun w hw => ?_, fun _ => Table.lookup?_of_not_renames hnone⟩
    rw [show terms = [.sym name] from htrace] at hw
    cases hw
  · refine ⟨fun w' hw' => ?_, fun hnone => ?_⟩
    · obtain rfl : w = w' := Option.some.inj (htrace.symm.trans hw')
      rcases ht.lookup?_of_renames hw hne hfirst with ⟨hshadowed, hlookup⟩ | ⟨hclear, hlookup⟩
      · refine ⟨iff_of_false (fun h => ?_) (not_not.2 hshadowed), fun _ => hlookup⟩
        exact hne (Option.some.inj (h.symm.trans hlookup))
      · exact ⟨iff_of_true hlookup hclear, fun h => absurd h hclear⟩
    · cases htrace.symm.trans hnone

/-- After `x = x` and `x = 1` the name `x` is shadowed: the symbol is rewritten to 1, but looking
the name up still gives the symbol. -/
theorem lookup?_shadowed_name :
    let s := typed 1 ["x = x", "x = 1"]
    s.Reachable ∧ (s.table.run 1 (.sym "x")).trace[1]? = some (.const 1) ∧
      s.table.Shadowed "x" ∧ s.lookup? "x" = some (.sym "x") ∧ s.lookup? "x" ≠ some (.const 1) := by
  have hs : (typed 1 ["x = x", "x = 1"]).Reachable := reachable_typed 1 _
  have htable : (typed 1 ["x = x", "x = 1"]).table =
      ⟨Rule.builtin ++ [.substitution "x" (.sym "x"), .substitution "x" (.const 1)]⟩ := by
    with_unfolding_all rfl
  have htrace : ((typed 1 ["x = x", "x = 1"]).table.run 1 (.sym "x")).trace[1]? =
      some (.const 1) := by
    with_unfolding_all rfl
  have hshadowed : (typed 1 ["x = x", "x = 1"]).table.Shadowed "x" := by
    rw [htable]
    exact ⟨8, 9, .const 1, by decide, rfl, rfl, by simp⟩
  obtain ⟨hiff, hself⟩ := (lookup?_eq_first_rewrite_iff hs "x" 0).1 _ htrace
  exact ⟨hs, htrace, hshadowed, hself hshadowed, mt hiff.1 (not_not.2 hshadowed)⟩

end Session

end TermCalc
