import Mathlib.Logic.Relation
import TermCalc.Proofs.Rule.Growth
import TermCalc.Proofs.Session.Tables

/-!
# The course of an assignment

An assignment `x = d` is rewritten like any other term, and its name with it: as soon as the rule
that it has bound for `x` gets its turn, the definition stands in the place of the name. From then
on both parts go through the same rewrites. The name side is never ahead: it becomes another symbol
only if the definition has become the same one.

The course of an assignment is described for the statements of a session in which the tag `$let`
stands at the head of the assignment only.

## Main definitions

* `Table.Avoids t name`: no replacement of the table mentions the symbol `name`
* `Table.Settled t place u`: the rules ahead of a place will never change `u`
* `Table.Course x t v`: the forms that `x = d` goes through

## Main results

* `Settled.step`: a rewrite by a rule up to the place keeps a term settled
* `Course.step`: every rewrite in a session keeps to the course
* `Course.binds`: on its course the assignment binds `x`, or another symbol to itself
-/

namespace TermCalc

/-- Only a term with an assignment in it makes assignments. -/
theorem Term.assignments_eq_nil {t : Term} (h : t.mentions "$let" = false) :
    t.assignments = [] := by
  induction t using Term.induction with
  | const x => rfl
  | sym name => rfl
  | lam params body => rfl
  | app head args hh ha =>
    obtain ⟨hhead, hargs⟩ := Term.mentions_app_eq_false.1 h
    have hall : Term.assignmentsAll args = [] := by
      apply List.eq_nil_iff_forall_not_mem.2
      intro b hb
      obtain ⟨a, hm, hb⟩ := Rule.mem_assignmentsAll_iff.1 hb
      rw [ha a hm (hargs a hm)] at hb
      exact List.not_mem_nil hb
    have hhere : Operation.assigned head args = [] := by
      apply Rule.assigned_of_not_applies
      intro happlies
      rw [happlies.1] at hhead
      exact absurd rfl (Term.mentions_sym_eq_false.1 hhead)
    rw [Term.assignments, hh hhead, hall, hhere]
    rfl

namespace Table

/-- No replacement of the table mentions the symbol `name`. -/
def Avoids (t : Table) (name : String) : Prop :=
  ∀ n u, Rule.substitution n u ∈ t.rules → u.mentions name = false

/-- The rules ahead of a place rename no symbol of `u`. If they rename `$neg`, which an operation
could bring in, then no operation changes `u`. -/
structure Settled (t : Table) (place : Nat) (u : Term) : Prop where
  not_renames : ∀ name, u.mentions name = true → ∀ q ∈ t.rules.take place, q.renames name = false
  operations : ∀ q ∈ t.rules.take place, q.renames "$neg" = true →
    ∀ op : Operation, op.everywhere u = u

variable {t : Table} {x : String} {u v w n d : Term} {place : Nat}

/-! ## Settled terms -/

/-- A term is settled if no rule ahead of the place changes it, and all operations stand there. -/
theorem settled_of_not_changes (hops : ∀ r ∈ Rule.builtin, r ∈ t.rules.take place)
    (h : ∀ q ∈ t.rules.take place, ¬ q.Changes u) : t.Settled place u := by
  refine ⟨fun name hname q hq => ?_, fun q hq hneg op => ?_⟩
  · by_contra hren
    exact h q hq (Rule.changes_of_renames (by simpa using hren) hname)
  · have hop : Rule.ofOperation op ∈ Rule.builtin := by
      cases op <;> simp [Rule.builtin]
    have hself := (Rule.Standard.builtin op).not_changes_iff.1 (h _ (hops _ hop))
    rwa [Rule.output_ofOperation] at hself

/-- A rewrite by one of the rules up to a place keeps a term settled, if the rule at that place
substitutes a settled term in which its symbol occurs. -/
theorem Settled.step {D : Term} (ht : t.OfSession)
    (hplace : t.rules[place]? = some (.substitution x D)) (hD : t.Settled place D)
    (hx : D.mentions x = true) (hne : D ≠ .sym x) {k : Nat} (hk : k ≤ place)
    (hu : t.Settled place u) (h : t.Step u k w) : t.Settled place w := by
  obtain ⟨r, hr, hc, rfl, -⟩ := h
  rcases Nat.lt_or_eq_of_le hk with hlt | rfl
  · have hmem := mem_take_of_getElem? hr hlt
    cases ht.standard r (List.mem_of_getElem? hr) with
    | substitution name v =>
      obtain ⟨hren, hname⟩ := Rule.changes_substitution_iff.1 hc
      rw [hu.not_renames name hname _ hmem] at hren
      exact Bool.noConfusion hren
    | builtin op =>
      -- an operation changes the term, so `$neg` stands for itself
      have hneg : ∀ q ∈ t.rules.take place, q.renames "$neg" = false := by
        intro q hq
        by_contra hren
        refine (Rule.Standard.builtin op).not_changes_iff.2 ?_ hc
        rw [Rule.output_ofOperation]
        exact hu.operations q hq (by simpa using hren) op
      refine ⟨fun name hname q hq => ?_, fun q hq hren => ?_⟩
      · rw [Rule.output_ofOperation] at hname
        rcases Operation.mentions_of_mentions_everywhere hname with rfl | hname
        · exact hneg q hq
        · exact hu.not_renames name hname q hq
      · rw [hneg q hq] at hren
        exact Bool.noConfusion hren
  · rw [hplace, Option.some.injEq] at hr
    subst hr
    rw [Rule.output_substitution]
    refine ⟨fun name hname q hq => ?_, fun q hq hren op => ?_⟩
    · rcases Rule.mentions_substitute_iff.1 hname with ⟨hname, -⟩ | ⟨-, hname⟩
      · exact hu.not_renames name hname q hq
      · exact hD.not_renames name hname q hq
    · -- where `$neg` is renamed it occurs in neither term, so no operation gets to work
      have hfree : ∀ s, t.Settled k s → s.mentions "$neg" = false := by
        intro s hs
        by_contra hneg
        rw [hs.not_renames "$neg" (by simpa using hneg) q hq] at hren
        exact Bool.noConfusion hren
      exact Rule.everywhere_substitute_eq hx hne (hfree D hD) (hD.operations q hq hren op)
        (hfree u hu) (hu.operations q hq hren op)

/-! ## The bindings of an assignment -/

theorem assignments_assign (hn : n.assignments = []) (hd : d.assignments = []) :
    (Term.binary "$let" n d).assignments = Operation.assigned (.sym "$let") [n, d] := by
  simp only [Term.binary, Term.assignments, Term.assignmentsAll, hn, hd, List.nil_append,
    List.append_nil]

/-- An assignment to something else than a symbol binds nothing. -/
theorem bindings_assign_of_ne (hn : n.mentions "$let" = false) (hd : d.mentions "$let" = false)
    (hsym : ∀ y, n ≠ .sym y) : (Term.binary "$let" n d).bindings = [] := by
  rw [Term.bindings,
    assignments_assign (Term.assignments_eq_nil hn) (Term.assignments_eq_nil hd)]
  split_ifs
  · rfl
  · cases n with
    | sym y => exact absurd rfl (hsym y)
    | _ => rfl

/-- An assignment to a symbol binds it, unless one of the constants occurs in the assignment. -/
theorem bindings_assign_sym {y : String} (hd : d.assignments = []) :
    (Term.binary "$let" (.sym y) d).bindings =
      if (Term.binary "$let" (.sym y) d).mentions "pi" ∨
        (Term.binary "$let" (.sym y) d).mentions "e" then [] else [⟨y, d⟩] := by
  rw [Term.bindings, assignments_assign rfl hd]
  rfl

theorem bindings_eq_nil (hv : v.mentions "$let" = false) : v.bindings = [] := by
  rw [Term.bindings, Term.assignments_eq_nil hv]
  exact ite_self _

/-! ## The course -/

/-- The forms that the assignment `x = d` goes through in a session.

* `naming`: it still assigns to `x`.
* `twin`: both parts are the same.
* `lagging`: the name has become a term in which `x` still occurs, by the definition `D` that `x` is
  bound to, and the rules up to the one for `x` make the definition of it.
* `ended`: it is no assignment any more. -/
inductive Course (x : String) (t : Table) : Term → Prop
  | naming {d : Term} (hd : d.mentions "$let" = false) : Course x t (.binary "$let" (.sym x) d)
  | twin {n : Term} (hn : n.mentions "$let" = false) : Course x t (.binary "$let" n n)
  | lagging {n d D : Term} {place : Nat} (hplace : t.rules[place]? = some (.substitution x D))
    (hx : D.mentions x = true) (hne : D ≠ .sym x) (hD : t.Settled place D)
    (hn : t.Settled place n) (hsym : ∀ y, n ≠ .sym y)
    (hnd : Relation.ReflTransGen (fun u w => ∃ k ≤ place, t.Step u k w) n d)
    (hnlet : n.mentions "$let" = false) (hdlet : d.mentions "$let" = false) :
    Course x t (.binary "$let" n d)
  | ended {v : Term} (hv : v.mentions "$let" = false) : Course x t v

/-- On its course an assignment binds its name to its definition. The name is `x`, or else the
definition is the name itself. -/
theorem Course.binds {b : Binding} (h : Course x t v) (hb : b ∈ v.bindings) :
    v = .binary "$let" (.sym b.name) b.definition ∧ b.definition.mentions "$let" = false ∧
      (b.name = x ∨ b.definition = .sym b.name) := by
  cases h with
  | naming hd =>
    rw [bindings_assign_sym (Term.assignments_eq_nil hd)] at hb
    split_ifs at hb
    · exact absurd hb List.not_mem_nil
    · obtain rfl := List.mem_singleton.1 hb
      exact ⟨rfl, hd, .inl rfl⟩
  | @twin n hn =>
    by_cases hsym : ∃ y, n = .sym y
    · obtain ⟨y, rfl⟩ := hsym
      rw [bindings_assign_sym rfl] at hb
      split_ifs at hb
      · exact absurd hb List.not_mem_nil
      · obtain rfl := List.mem_singleton.1 hb
        exact ⟨rfl, hn, .inr rfl⟩
    · rw [bindings_assign_of_ne hn hn (not_exists.1 hsym)] at hb
      exact absurd hb List.not_mem_nil
  | lagging _ _ _ _ _ hsym _ hnlet hdlet =>
    rw [bindings_assign_of_ne hnlet hdlet hsym] at hb
    exact absurd hb List.not_mem_nil
  | ended hv =>
    rw [bindings_eq_nil hv] at hb
    exact absurd hb List.not_mem_nil

/-- Binding terms that do not mention a symbol keeps the table free of it. -/
theorem Avoids.bindAll {name : String} {bs : List Binding} (ht : t.Avoids name)
    (h : ∀ b ∈ bs, b.definition.mentions name = false) : (t.bindAll bs).Avoids name := by
  intro n u hu
  rcases mem_rules_bindAll hu with hu | ⟨b, hb, hu⟩
  · exact ht n u hu
  · obtain ⟨-, rfl⟩ := Rule.substitution.inj hu
    exact h b hb

theorem Course.avoids (h : Course x t v) (ht : t.Avoids "$let") :
    (t.bindAll v.bindings).Avoids "$let" :=
  ht.bindAll fun _ hb => (h.binds hb).2.1

/-! ## One rewrite of an assignment -/

/-- No rule of a table that avoids `$let` brings one into a term. -/
theorem Avoids.not_mentions_output {r : Rule} (ht : t.Avoids "$let") (hstd : t.Standard)
    (hr : r ∈ t.rules) (hu : u.mentions "$let" = false) : (r.output u).mentions "$let" = false :=
  (hstd r hr).not_mentions_output (fun n s hs => ht n s (hs ▸ hr)) (by decide) hu

/-- A rewrite of an assignment replaces its tag, and it is over, or goes through its parts. The
rules ahead change neither the tag nor a part. -/
theorem Step.assign_cases (hstd : t.Standard) (h : t.Step (.binary "$let" n d) place w) :
    ∃ r, t.rules[place]? = some r ∧
      (∀ q ∈ t.rules.take place, q.renames "$let" = false ∧ ¬ q.Changes n ∧ ¬ q.Changes d) ∧
      ((∃ u, r = .substitution "$let" u ∧ w = .app u [r.output n, r.output d]) ∨
        (r.Changes n ∨ r.Changes d) ∧ w = .binary "$let" (r.output n) (r.output d)) := by
  obtain ⟨r, hr, hc, rfl, hfirst⟩ := h
  have hrstd := hstd r (List.mem_of_getElem? hr)
  refine ⟨r, hr, fun q hq => ?_, ?_⟩
  · have hqstd := hstd q (List.mem_of_mem_take hq)
    have hq' := mt hqstd.changes_assign_iff.2 (hfirst q hq)
    simp only [not_or] at hq'
    exact ⟨by simpa using hq'.1, hq'.2⟩
  · rw [hrstd.output_assign]
    by_cases hlet : r.renames "$let" = true
    · obtain ⟨u, rfl, -⟩ := Rule.renames_iff.1 hlet
      left
      refine ⟨u, rfl, ?_⟩
      rw [Rule.output_substitution, Rule.substitute_sym_self]
    · right
      have htag := hrstd.output_sym_of_not_renames hlet
      rw [htag]
      refine ⟨?_, rfl⟩
      rcases hrstd.changes_assign_iff.1 hc with h | h
      · exact absurd h hlet
      · exact h

/-- Once a rule has replaced the tag there is no assignment left. -/
theorem course_ended {x : String} (ht : t.Avoids "$let") {u : Term}
    (hu : Rule.substitution "$let" u ∈ t.rules) (n d : Term) :
    t.Course x (.app u [Rule.substitute "$let" u n, Rule.substitute "$let" u d]) := by
  have hulet := ht "$let" u hu
  have hpart : ∀ s, (Rule.substitute "$let" u s).mentions "$let" = false := by
    intro s
    rw [← Bool.not_eq_true, Rule.mentions_substitute_iff, hulet]
    simp
  exact .ended (by simp [hulet, hpart])

/-- The rule that a binding has made is the only one that renames its name. -/
theorem OfSession.renames_bind (ht : (t.bind ⟨x, d⟩).OfSession) (hd : d ≠ .sym x) {r : Rule}
    (hr : r ∈ (t.bind ⟨x, d⟩).rules) (hren : r.renames x = true) : r = .substitution x d := by
  have hmem : Rule.substitution x d ∈ (t.bind ⟨x, d⟩).rules := by
    rcases bind_cases t ⟨x, d⟩ with ⟨before, u, after, -, -, -, hb⟩ | ⟨-, hb⟩
    · rw [hb]
      simp
    · rw [hb]
      simp
  exact ht.eq_of_renames hr hmem hren (renames_substitution_self.2 hd)

/-- The first rewrite of an assignment to `x` that its own rule makes: the definition takes the
place of the name. -/
theorem Course.step_naming (ht : t.OfSession) (hlet : t.Avoids "$let") (hpi : x ≠ "pi")
    (he : x ≠ "e") (hd : d.mentions "$let" = false)
    (h : (t.bindAll (Term.binary "$let" (.sym x) d).bindings).Step (.binary "$let" (.sym x) d)
      place w) :
    (t.bindAll (Term.binary "$let" (.sym x) d).bindings).Course x w := by
  have hcourse : t.Course x (.binary "$let" (.sym x) d) := .naming hd
  have havoids := hcourse.avoids hlet
  have hsession := ht.bindAll_bindings (.binary "$let" (.sym x) d)
  have hbindings := bindings_assign_sym (y := x) (Term.assignments_eq_nil hd)
  revert h havoids hsession
  generalize hs : t.bindAll (Term.binary "$let" (.sym x) d).bindings = s
  intro h havoids hsession
  obtain ⟨r, hr, hfirst, ⟨u, rfl, rfl⟩ | ⟨hc, rfl⟩⟩ := h.assign_cases hsession.standard
  · exact course_ended havoids (List.mem_of_getElem? hr) _ _
  have hrmem := List.mem_of_getElem? hr
  have hrstd := hsession.standard r hrmem
  by_cases hren : r.renames x = true
  · obtain ⟨u, rfl, hu⟩ := Rule.renames_iff.1 hren
    have hahead := hsession.builtin_ahead hr hpi he
    obtain ⟨hdpi, hde⟩ := not_mentions_constants fun q hq => (hfirst q (hahead q hq)).2.2
    rw [if_neg (by simp [hpi, he, hdpi, hde])] at hbindings
    rw [hbindings] at hs
    replace hs : t.bind ⟨x, d⟩ = s := hs
    rw [Rule.output_substitution, Rule.output_substitution, Rule.substitute_sym_self]
    by_cases hdx : d = .sym x
    · rw [hdx, Rule.substitute_sym_self]
      exact .twin (havoids x u hrmem)
    · subst hs
      obtain rfl : u = d := by
        simpa using hsession.renames_bind hdx hrmem hren
      -- the definition is `u` itself: either `x` occurs in it or both parts are the same now
      by_cases hux : u.mentions x = true
      · have hsettled := settled_of_not_changes hahead fun q hq => (hfirst q hq).2.2
        refine .lagging hr hux hu hsettled hsettled ?_ (.single ⟨place, Nat.le_refl _, ?_⟩) hd ?_
        · rintro y rfl
          exact hdx (congrArg _ (Term.mentions_sym.1 hux))
        · exact ⟨_, hr, Rule.changes_of_renames hren hux, rfl, fun q hq => (hfirst q hq).2.2⟩
        · exact havoids.not_mentions_output hsession.standard hrmem hd
      · rw [Rule.substitute_of_not_mentions (by simpa using hux)]
        exact .twin hd
  · rw [hrstd.output_sym_of_not_renames hren]
    exact .naming (havoids.not_mentions_output hsession.standard hrmem hd)

/-- A settled symbol other than `x` is not rewritten by the rules up to the one for `x`. -/
theorem Settled.eq_of_reaches {D : Term} {y : String} (hstd : t.Standard)
    (hplace : t.rules[place]? = some (.substitution x D)) (hy : y ≠ x)
    (hs : t.Settled place (.sym y))
    (h : Relation.ReflTransGen (fun u w => ∃ k ≤ place, t.Step u k w) (.sym y) d) : d = .sym y := by
  rcases h.cases_head with heq | ⟨m, ⟨k, hk, r, hr, hc, -, -⟩, -⟩
  · exact heq.symm
  · rw [(hstd r (List.mem_of_getElem? hr)).changes_sym_iff] at hc
    rcases Nat.lt_or_eq_of_le hk with hlt | rfl
    · rw [hs.not_renames y (Term.mentions_sym.2 rfl) r (mem_take_of_getElem? hr hlt)] at hc
      exact Bool.noConfusion hc
    · rw [hplace, Option.some.injEq] at hr
      rw [← hr, renames_substitution_of_ne (Ne.symm hy)] at hc
      exact Bool.noConfusion hc

/-- The two parts of an assignment are rewritten by the same rule. If the definition is made of the
name by the rules up to a place, it still is after the rewrite. -/
theorem reaches_output (hstd : t.Standard) {r : Rule} {k : Nat} (hr : t.rules[k]? = some r)
    (hfirst : ∀ q ∈ t.rules.take k, ¬ q.Changes n ∧ ¬ q.Changes d) (hne : n ≠ d)
    (h : Relation.ReflTransGen (fun u w => ∃ k ≤ place, t.Step u k w) n d) :
    k ≤ place ∧
      (n = r.output n ∨ t.Step n k (r.output n)) ∧
      Relation.ReflTransGen (fun u w => ∃ k ≤ place, t.Step u k w) (r.output n) (r.output d) := by
  have hrstd := hstd r (List.mem_of_getElem? hr)
  rcases h.cases_head with heq | ⟨m, ⟨j, hj, hstep⟩, hmd⟩
  · exact absurd heq hne
  have hkj : k ≤ j := by
    obtain ⟨q, hq, hqc, -, -⟩ := hstep
    by_contra hlt
    exact (hfirst q (mem_take_of_getElem? hq (Nat.lt_of_not_le hlt))).1 hqc
  have hk := Nat.le_trans hkj hj
  -- the definition side takes the same rewrite at its end
  have hright : ∀ s, Relation.ReflTransGen (fun u w => ∃ k ≤ place, t.Step u k w) s d →
      Relation.ReflTransGen (fun u w => ∃ k ≤ place, t.Step u k w) s (r.output d) := by
    intro s hs
    by_cases hd : r.Changes d
    · exact hs.tail ⟨k, hk, r, hr, hd, rfl, fun q hq => (hfirst q hq).2⟩
    · rwa [hrstd.not_changes_iff.1 hd]
  by_cases hn : r.Changes n
  · have hn' : t.Step n k (r.output n) := ⟨r, hr, hn, rfl, fun q hq => (hfirst q hq).1⟩
    obtain ⟨-, rfl⟩ := hstep.unique hn'
    exact ⟨hk, .inr hn', hright _ hmd⟩
  · have hself := hrstd.not_changes_iff.1 hn
    refine ⟨hk, .inl hself.symm, ?_⟩
    rw [hself]
    exact hright n h

/-- **Every rewrite in a session keeps to the course.** -/
theorem Course.step (ht : t.OfSession) (hlet : t.Avoids "$let") (hpi : x ≠ "pi") (he : x ≠ "e")
    (hv : t.Course x v) (h : (t.bindAll v.bindings).Step v place w) :
    (t.bindAll v.bindings).Course x w := by
  cases hv with
  | naming hd => exact Course.step_naming ht hlet hpi he hd h
  | @twin n hn =>
    have hcourse : t.Course x (.binary "$let" n n) := .twin hn
    have havoids := hcourse.avoids hlet
    have hstd := (ht.bindAll_bindings (.binary "$let" n n)).standard
    obtain ⟨r, hr, hfirst, ⟨u, rfl, rfl⟩ | ⟨hc, rfl⟩⟩ := h.assign_cases hstd
    · exact course_ended havoids (List.mem_of_getElem? hr) _ _
    · exact .twin (havoids.not_mentions_output hstd (List.mem_of_getElem? hr) hn)
  | @lagging n d D p hplace hx hne hD hn hsym hnd hnlet hdlet =>
    rw [bindings_assign_of_ne hnlet hdlet hsym, bindAll_nil] at h ⊢
    obtain ⟨r, hr, hfirst, ⟨u, rfl, rfl⟩ | ⟨hc, rfl⟩⟩ := h.assign_cases ht.standard
    · exact course_ended hlet (List.mem_of_getElem? hr) _ _
    have hnlet' := hlet.not_mentions_output ht.standard (List.mem_of_getElem? hr) hnlet
    have hdlet' := hlet.not_mentions_output ht.standard (List.mem_of_getElem? hr) hdlet
    by_cases heq : n = d
    · rw [heq]
      exact .twin hdlet'
    obtain ⟨hk, hn', hnd'⟩ :=
      reaches_output ht.standard hr (fun q hq => (hfirst q hq).2) heq hnd
    have hsettled : t.Settled p (r.output n) := by
      rcases hn' with hn' | hn'
      · rwa [← hn']
      · exact Settled.step ht hplace hD hx hne hk hn hn'
    by_cases hsym' : ∃ y, r.output n = .sym y
    · obtain ⟨y, hy⟩ := hsym'
      rw [hy] at hsettled hnd' hnlet' ⊢
      by_cases hyx : y = x
      · rw [hyx]
        exact .naming hdlet'
      · rw [hsettled.eq_of_reaches ht.standard hplace hyx hnd']
        exact .twin hnlet'
    · exact .lagging hplace hx hne hD hsettled (not_exists.1 hsym') hnd' hnlet' hdlet'
  | ended hv =>
    rw [bindings_eq_nil hv, bindAll_nil] at h ⊢
    obtain ⟨r, hr, -, rfl, -⟩ := h
    exact .ended (hlet.not_mentions_output ht.standard (List.mem_of_getElem? hr) hv)

/-- In a rewriting of an assignment all terms keep to its course. -/
theorem Rewriting.course {t' : Table} {before rest : List Term} (ht : t.OfSession)
    (hlet : t.Avoids "$let") (hpi : x ≠ "pi") (he : x ≠ "e") (hd : d.mentions "$let" = false)
    (h : Rewriting t (before ++ u :: rest) t')
    (hhead : (before ++ u :: rest).head? = some (.binary "$let" (.sym x) d)) :
    (t.bindAll (before.flatMap Term.bindings)).OfSession ∧
      ((t.bindAll (before.flatMap Term.bindings)).Avoids "$let" ∧
        (t.bindAll (before.flatMap Term.bindings)).Course x u) ∧
      Rewriting (t.bindAll (before.flatMap Term.bindings)) (u :: rest) t' := by
  refine h.split (I := fun s v => s.Avoids "$let" ∧ s.Course x v) ?_ ht ?_
  · rintro s v place w hs ⟨havoids, hcourse⟩ hstep
    exact ⟨hcourse.avoids havoids, hcourse.step hs havoids hpi he hstep⟩
  · intro v hv
    rw [hhead, Option.some.injEq] at hv
    exact ⟨hlet, hv ▸ .naming hd⟩

end Table

end TermCalc
