import TermCalc.Proofs.Assignment.Course
import TermCalc.Proofs.Session.Reachable

/-!
# Which names an assignment touches

A statement `x = d` also binds another name `y`, to itself, if its course goes through `y = y`. The
rules for `y` are then no longer what they were, since a rule that puts a symbol in its own place is
never taken back. All other names keep their rules.

## Main definitions

* `Table.SameRules name t t'`: two tables have the same substitutions for `name` at the same places

## Main results

* `sameRules_bindAll_iff`: bindings of a name to itself always change its rules
* `Session.assignment_keeps_rules_iff`: the names whose rules an assignment leaves as they are
-/

namespace TermCalc

namespace Table

/-- The two tables have the same substitutions for `name`, at the same places. -/
def SameRules (name : String) (t t' : Table) : Prop :=
  ∀ (place : Nat) (u : Term), t'.rules[place]? = some (.substitution name u) ↔
    t.rules[place]? = some (.substitution name u)

variable {t t' : Table} {name : String} {b : Binding} {bs : List Binding}

theorem SameRules.trans {t'' : Table} (h : SameRules name t t') (h' : SameRules name t' t'') :
    SameRules name t t'' :=
  fun place u => (h' place u).trans (h place u)

/-- Binding another name leaves the rules of a name as they are. -/
theorem sameRules_bind (h : b.name ≠ name) : SameRules name t (t.bind b) := by
  obtain ⟨place, hnew, hold, hothers⟩ := exists_place_bind t b
  intro j u
  by_cases hj : j = place
  · subst hj
    have hbound : ∀ r : Rule, r.renames b.name = true → r ≠ .substitution name u := by
      rintro r hr rfl
      rw [renames_substitution_of_ne (Ne.symm h)] at hr
      exact Bool.noConfusion hr
    constructor
    · intro hu
      rw [hnew, Option.some.injEq, Rule.substitution.injEq] at hu
      exact absurd hu.1 h
    · intro hu
      exact absurd rfl (hbound _ (hold _ hu))
  · rw [hothers j hj]

theorem sameRules_bindAll (h : ∀ b ∈ bs, b.name ≠ name) : SameRules name t (t.bindAll bs) := by
  induction bs generalizing t with
  | nil => exact fun place u => Iff.rfl
  | cons b bs ih =>
    exact (sameRules_bind (h b List.mem_cons_self)).trans
      (ih fun c hc => h c (List.mem_cons_of_mem _ hc))

/-! ## Rules that put a symbol in its own place -/

/-- A rule that puts a symbol in its own place stays for ever. -/
theorem self_rule_bindAll {place : Nat}
    (h : t.rules[place]? = some (.substitution name (.sym name))) (bs : List Binding) :
    (t.bindAll bs).rules[place]? = some (.substitution name (.sym name)) := by
  induction bs generalizing t with
  | nil => exact h
  | cons b bs ih =>
    refine ih ?_
    obtain ⟨i, -, hold, hothers⟩ := exists_place_bind t b
    have hi : place ≠ i := by
      rintro rfl
      obtain ⟨u, hu, hne⟩ := Rule.renames_iff.1 (hold _ h)
      obtain ⟨rfl, rfl⟩ := Rule.substitution.inj hu
      exact hne rfl
    rw [hothers place hi, h]

/-- Binding a symbol to itself makes a new rule that puts the symbol in its own place. -/
theorem exists_self_rule_bind (hb : b.definition = .sym b.name) :
    ∃ place : Nat, (t.bind b).rules[place]? = some (.substitution b.name (.sym b.name)) ∧
      t.rules[place]? ≠ some (.substitution b.name (.sym b.name)) := by
  obtain ⟨place, hnew, hold, -⟩ := exists_place_bind t b
  refine ⟨place, hb ▸ hnew, fun h => ?_⟩
  have hren := hold _ h
  rw [renames_substitution_self] at hren
  exact hren rfl

/-- If a name is bound to itself only, it keeps its rules exactly if it is not bound at all. -/
theorem sameRules_bindAll_iff (h : ∀ b ∈ bs, b.name = name → b.definition = .sym name) :
    SameRules name t (t.bindAll bs) ↔ ∀ b ∈ bs, b.name ≠ name := by
  constructor
  · rintro hsame b hb rfl
    obtain ⟨before, after, rfl⟩ := List.append_of_mem hb
    obtain ⟨place, hnew, hold⟩ := exists_self_rule_bind (t := t.bindAll before) (h b hb rfl)
    -- the rule is there in the end, so it was there at first and when the name was bound
    rw [bindAll_append, bindAll_cons] at hsame
    have hfirst := (hsame place _).1 (self_rule_bindAll hnew after)
    exact hold (self_rule_bindAll hfirst before)
  · exact sameRules_bindAll

/-! ## The names that a statement binds -/

/-- On the course of `x = d` another name `y` is bound exactly where the term `y = y` is met, and to
itself. -/
theorem mem_bindings_iff {x y : String} {v : Term} (h : t.Course x v) (hy : y ≠ x) (b : Binding) :
    (b ∈ v.bindings ∧ b.name = y) ↔
      v = .binary "$let" (.sym y) (.sym y) ∧ y ≠ "pi" ∧ y ≠ "e" ∧ b = ⟨y, .sym y⟩ := by
  constructor
  · rintro ⟨hb, rfl⟩
    obtain ⟨hpi, he⟩ := ne_of_mem_bindings hb
    obtain ⟨hv, -, hx | hdef⟩ := h.binds hb
    · exact absurd hx hy
    · rw [hdef] at hv
      exact ⟨hv, hpi, he, by rw [← hdef]⟩
  · rintro ⟨rfl, hpi, he, rfl⟩
    rw [bindings_assign_sym rfl, if_neg (by simp [hpi, he])]
    exact ⟨List.mem_singleton.2 rfl, rfl⟩

/-- In a rewriting of `x = d` every term keeps to the course, at the table of its turn. -/
theorem Rewriting.exists_course {x : String} {d v : Term} {trace : List Term} (ht : t.OfSession)
    (hlet : t.Avoids "$let") (hpi : x ≠ "pi") (he : x ≠ "e") (hd : d.mentions "$let" = false)
    (h : Rewriting t trace t') (hhead : trace.head? = some (.binary "$let" (.sym x) d))
    (hv : v ∈ trace) : ∃ s : Table, s.Course x v := by
  obtain ⟨before, rest, rfl⟩ := List.append_of_mem hv
  obtain ⟨-, ⟨-, hcourse⟩, -⟩ := h.course ht hlet hpi he hd hhead
  exact ⟨_, hcourse⟩

end Table

namespace Session

/-- **The names that an assignment touches.** A reachable session reduces a statement `x = d` for
another name than those of the constants; the tag `$let` occurs neither in `d` nor in a replacement.
Then a name `y` other than `x` keeps its rules exactly if the statement is at no time rewritten to
`y = y`, or if `y` is one of the constants. -/
theorem assignment_keeps_rules_iff {s : Session} {patience : Nat} {q : Queued} {x y : String}
    {d : Term} {trace : List Term} (hs : s.Reachable) (hq : q.term = .binary "$let" (.sym x) d)
    (hpi : x ≠ "pi") (he : x ≠ "e") (hd : d.mentions "$let" = false)
    (hlet : s.table.Avoids "$let") (h : (s.reduceOne patience q).result = .ok ())
    (htrace : (s.reduceOne patience q).session.results.getLast? = some trace) (hy : y ≠ x) :
    Table.SameRules y s.table (s.reduceOne patience q).session.table ↔
      (.binary "$let" (.sym y) (.sym y) ∈ trace → y = "pi" ∨ y = "e") := by
  have ht := hs.ofSession
  obtain ⟨hrewriting, hhead⟩ := rewriting_of_reduceOne hs h htrace
  rw [hq] at hhead
  have hcourse : ∀ v ∈ trace, ∃ t : Table, t.Course x v := fun v hv =>
    hrewriting.exists_course ht hlet hpi he hd hhead hv
  rw [hrewriting.table_eq ht, Table.sameRules_bindAll_iff]
  · constructor
    · intro hnone hmem
      by_contra hconst
      obtain ⟨hypi, hye⟩ := not_or.1 hconst
      obtain ⟨t, ht⟩ := hcourse _ hmem
      obtain ⟨hb, hname⟩ := (Table.mem_bindings_iff ht hy ⟨y, .sym y⟩).2 ⟨rfl, hypi, hye, rfl⟩
      exact hnone _ (List.mem_flatMap.2 ⟨_, hmem, hb⟩) hname
    · intro hmet b hb hname
      obtain ⟨v, hv, hb⟩ := List.mem_flatMap.1 hb
      obtain ⟨t, ht⟩ := hcourse v hv
      obtain ⟨rfl, hypi, hye, -⟩ := (Table.mem_bindings_iff ht hy b).1 ⟨hb, hname⟩
      rcases hmet hv with h | h
      · exact hypi h
      · exact hye h
  · intro b hb hname
    obtain ⟨v, hv, hb⟩ := List.mem_flatMap.1 hb
    obtain ⟨t, ht⟩ := hcourse v hv
    obtain ⟨-, -, -, rfl⟩ := (Table.mem_bindings_iff ht hy b).1 ⟨hb, hname⟩
    rfl

/-! ## A session with two values -/

theorem table_typed_values : (typed 1 ["x = 1", "y = 2"]).table =
    ⟨Rule.builtin ++ [.substitution "x" (.const 1), .substitution "y" (.const 2)]⟩ := by
  with_unfolding_all rfl

theorem ceiling_typed_values : (typed 1 ["x = 1", "y = 2"]).ceiling = .unlimited := by
  with_unfolding_all rfl

theorem avoids_typed_values : (typed 1 ["x = 1", "y = 2"]).table.Avoids "$let" := by
  intro n u hu
  rw [table_typed_values] at hu
  simp [Rule.builtin, Rule.ofOperation] at hu
  rcases hu with ⟨-, rfl⟩ | ⟨-, rfl⟩ | ⟨-, rfl⟩ | ⟨-, rfl⟩ <;> rfl

/-- After `x = 1` and `y = 2` the statement `x = y` takes the value of `y` away: the rule for `x`
stands first and makes `y = y` of the statement. -/
theorem assignment_rebinds_its_definition :
    let s := typed 1 ["x = 1", "y = 2"]
    let q : Queued := ⟨0, "x = y", .binary "$let" (.sym "x") (.sym "y")⟩
    s.Reachable ∧ s.table.Avoids "$let" ∧ (s.reduceOne 1 q).result = .ok () ∧
      (s.reduceOne 1 q).session.results.getLast? =
        some [.binary "$let" (.sym "x") (.sym "y"), .binary "$let" (.sym "y") (.sym "y")] ∧
      ¬ Table.SameRules "y" s.table (s.reduceOne 1 q).session.table := by
  intro s q
  have hs : s.Reachable := reachable_typed 1 _
  have hlet : s.table.Avoids "$let" := avoids_typed_values
  have hreduce : s.table.reduce 1 s.ceiling q.term =
      (.ok [.binary "$let" (.sym "x") (.sym "y"), .binary "$let" (.sym "y") (.sym "y")],
        ⟨Rule.builtin ++ [.substitution "x" (.sym "y"), .substitution "y" (.sym "y")]⟩) := by
    rw [table_typed_values, ceiling_typed_values]
    with_unfolding_all rfl
  obtain ⟨hresult, -, hresults⟩ := reduceOne_of_reduce hreduce
  have htrace : (s.reduceOne 1 q).session.results.getLast? =
      some [.binary "$let" (.sym "x") (.sym "y"), .binary "$let" (.sym "y") (.sym "y")] := by
    rw [hresults, List.getLast?_concat]
  refine ⟨hs, hlet, hresult, htrace, fun hsame => ?_⟩
  have hconst := (assignment_keeps_rules_iff (q := q) hs rfl (by decide) (by decide) rfl hlet
    hresult htrace (by decide)).1 hsame (by simp)
  simp at hconst

end Session

end TermCalc
