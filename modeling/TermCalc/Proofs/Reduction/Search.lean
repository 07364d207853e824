import TermCalc.Proofs.Reduction.Ceiling
import TermCalc.Proofs.Reduction.Firing

/-!
# Searching a table that changes under the search

The rules of a table are tried on a term one after the other, and an operation for `$let` binds
names while the table is gone through. To find the place of a name that it binds it searches the
very same table in the very same way for the bare symbol. Here the search is described step by step,
with each binding made at the moment at which it is met; the scans of the model make the bindings of
one rule together when the rule is done. The two come to the same.

A search is what finds the first rule that changes a term, and it is what every rewrite of a
reduction begins with. So the two find the same rule, and they leave the same table behind.

## Main definitions

* `Table.Search t v k place? t'`: the search of `t` from place `k` on for a rule that changes `v`
* `Table.Rewrites r t v w t'`: the rule makes `w` of `v`, and `t'` of the table on the way
* `Table.Binds t bs t'`: the bindings are made one after the other

## Main results

* `Table.outcome_of_search`, `Table.search_of_outcome`: searching step by step is scanning
* `Table.firstRule?_iff_search`: the first rule that changes a term is the one that is searched for
* `Table.firstRule?_reduce`: it is the rule of the first rewrite of a reduction
-/

namespace TermCalc

/-- The place at which a scan ends, if it ends at one, with the table that it leaves. -/
def Scan.outcome : Scan → Except OperandMismatch (Option Nat) × Table
  | .unchanged t => (.ok none, t)
  | .changed place _ t => (.ok (some place), t)
  | .failed e t => (.error e, t)

namespace Table

/-! ## The search, step by step -/

mutual

/-- The rules of the table are tried on `v` from place `k` on, until one of them changes `v`. The
search ends at the place of that rule or at none, with the table that the rules have made. -/
inductive Search : Table → Term → Nat → Option Nat → Table → Prop
  /-- There is no rule left. -/
  | exhausted {t : Table} {v : Term} {k : Nat} (hk : t.rules[k]? = none) : Search t v k none t
  /-- The rule changes the term. -/
  | found {t t' : Table} {v w : Term} {k : Nat} {r : Rule} (hk : t.rules[k]? = some r)
      (hr : Rewrites r t v w t') (hw : ¬ v.equivalent w = true) : Search t v k (some k) t'
  /-- The rule does not change the term, and the search goes on in the table as it is now. -/
  | passed {t t' t'' : Table} {v w : Term} {k : Nat} {r : Rule} {place? : Option Nat}
      (hk : t.rules[k]? = some r) (hr : Rewrites r t v w t') (hw : v.equivalent w = true)
      (hs : Search t' v (k + 1) place? t'') : Search t v k place? t''

/-- The rule makes `w` of `v`, and `t'` of the table on the way. -/
inductive Rewrites : Rule → Table → Term → Term → Table → Prop
  | substitution {t : Table} {v : Term} {name : String} {replacement : Term} :
      Rewrites (.substitution name replacement) t v (Rule.substitute name replacement v) t
  /-- An operation has nothing to do with what is no application. -/
  | atom {t : Table} {v : Term} {tag : String} {op : Operation} {arity : Option Int}
      (hv : ∀ head args, v ≠ .app head args) : Rewrites (.operation tag op arity) t v v t
  /-- The parts of an application have been rewritten, and the operation is not for it. -/
  | parts {t t₁ t₂ : Table} {head head' : Term} {args args' : List Term} {tag : String}
      {op : Operation} {arity : Option Int}
      (hh : Rewrites (.operation tag op arity) t head head' t₁)
      (ha : RewritesAll tag op arity t₁ args args' t₂)
      (hn : ¬ Rule.applies tag arity head' args' = true) :
      Rewrites (.operation tag op arity) t (.app head args) (.app head' args') t₂
  /-- The parts of an application have been rewritten, and the operation is performed. -/
  | performed {t t₁ t₂ t₃ : Table} {head head' w : Term} {args args' : List Term} {tag : String}
      {op : Operation} {arity : Option Int} {bs : List Binding}
      (hh : Rewrites (.operation tag op arity) t head head' t₁)
      (ha : RewritesAll tag op arity t₁ args args' t₂)
      (hn : Rule.applies tag arity head' args' = true)
      (hp : op.perform (.app head' args') args' = ⟨bs, .ok w⟩) (hb : Binds t₂ bs t₃) :
      Rewrites (.operation tag op arity) t (.app head args) w t₃

/-- An operation rewrites the terms of a list from the left. -/
inductive RewritesAll : String → Operation → Option Int → Table → List Term → List Term → Table →
    Prop
  | nil {t : Table} {tag : String} {op : Operation} {arity : Option Int} :
      RewritesAll tag op arity t [] [] t
  | cons {t t₁ t₂ : Table} {v w : Term} {vs ws : List Term} {tag : String} {op : Operation}
      {arity : Option Int} (hv : Rewrites (.operation tag op arity) t v w t₁)
      (hvs : RewritesAll tag op arity t₁ vs ws t₂) :
      RewritesAll tag op arity t (v :: vs) (w :: ws) t₂

/-- Names are bound one after the other, each in the place that a search for the bare symbol finds,
or at the end. -/
inductive Binds : Table → List Binding → Table → Prop
  | nil {t : Table} : Binds t [] t
  | replaced {t t₁ t' : Table} {b : Binding} {bs : List Binding} {place : Nat}
      (hs : Search t (.sym b.name) 0 (some place) t₁)
      (hb : Binds ⟨t₁.rules.set place (.substitution b.name b.definition)⟩ bs t') :
      Binds t (b :: bs) t'
  | added {t t₁ t' : Table} {b : Binding} {bs : List Binding}
      (hs : Search t (.sym b.name) 0 none t₁)
      (hb : Binds (t₁.append (.substitution b.name b.definition)) bs t') : Binds t (b :: bs) t'

end

/-! ## Effects one after the other -/

section Effects

variable {α β : Type} {x : Effect α} {f : α → Effect β} {bs : List Binding} {b : β}

/-- If one effect after the other has a result, both of them have one. -/
theorem exists_of_andThen_eq_ok (h : (x >>= f) = ⟨bs, .ok b⟩) :
    ∃ cs a ds, x = ⟨cs, .ok a⟩ ∧ f a = ⟨ds, .ok b⟩ ∧ bs = cs ++ ds := by
  obtain ⟨cs, result⟩ := x
  cases result with
  | error e => cases (Effect.mk.inj h).2
  | ok a =>
    obtain ⟨hbindings, hresult⟩ := Effect.mk.inj h
    exact ⟨cs, a, (f a).bindings, rfl, by rw [← hresult], hbindings.symm⟩

end Effects

/-! ## A scan finds what is searched for -/

section Scans

variable {t : Table} {v w : Term} {k : Nat} {r : Rule} {bs : List Binding} {name : String}

theorem firstRule?_eq_outcome (t : Table) (v : Term) : t.firstRule? v = (t.scan v 0).outcome := by
  rw [firstRule?]
  cases t.scan v 0 <;> rfl

theorem scan_of_none (h : t.rules[k]? = none) : t.scan v k = .unchanged t := by
  rw [scan]
  split
  · rfl
  · next hr => cases h.symm.trans hr

/-- What a scan does at a rule that has a result. -/
theorem scan_of_rewrite (h : t.rules[k]? = some r) (hr : r.rewrite v = ⟨bs, .ok w⟩) :
    t.scan v k = if v.equivalent w then (t.bindAll bs).scan v (k + 1)
      else .changed k w (t.bindAll bs) := by
  rw [scan]
  split
  · next hnone => cases hnone.symm.trans h
  · next hsome =>
    obtain rfl := Option.some.inj (h.symm.trans hsome)
    split
    · next hfailed => cases (Effect.mk.inj (hr.symm.trans hfailed)).2
    · next hok =>
      obtain ⟨rfl, hw⟩ := Effect.mk.inj (hr.symm.trans hok)
      obtain rfl := Except.ok.inj hw
      rfl

/-- A rule binds nothing on a bare symbol, and it changes the symbol if it renames it. -/
theorem rewrite_sym {result : Except OperandMismatch Term}
    (h : r.rewrite (.sym name) = ⟨bs, result⟩) :
    bs = [] ∧ ∃ w, result = .ok w ∧
      ((Term.sym name).equivalent w = true ↔ r.renames name = false) := by
  cases r with
  | substitution n u =>
    obtain ⟨rfl, rfl⟩ := Effect.mk.inj h
    refine ⟨rfl, _, rfl, ?_⟩
    by_cases hn : n = name
    · simp [Rule.renames, hn, Rule.substitute]
    · simp [Rule.renames, hn, Rule.substitute, Ne.symm hn, Term.equivalent_refl]
  | operation tag op arity =>
    obtain ⟨rfl, rfl⟩ := Effect.mk.inj h
    exact ⟨rfl, _, rfl, by simp [Rule.renames, Term.equivalent_refl]⟩

/-- A scan of a bare symbol ends at the first rule that renames the name, and it leaves the table as
it is. -/
theorem outcome_scan_sym (t : Table) (name : String) (k : Nat) :
    (t.scan (.sym name) k).outcome =
      (.ok (((t.rules.drop k).findIdx? (Rule.renames name)).map (· + k)), t) := by
  generalize hv : Term.sym name = v
  fun_induction Table.scan t v k with
  | case1 t k hnone =>
    rw [List.drop_eq_nil_of_le (List.getElem?_eq_none_iff.1 hnone)]
    rfl
  | case2 t k r hr bs e hrewrite =>
    obtain ⟨-, w, hw, -⟩ := rewrite_sym (hv ▸ hrewrite)
    cases hw
  | case3 t k r hr bs w hrewrite heq ih =>
    obtain ⟨rfl, _, ⟨⟩, hrenames⟩ := rewrite_sym (hv ▸ hrewrite)
    obtain ⟨hk, rfl⟩ := List.getElem?_eq_some_iff.1 hr
    rw [hv, heq] at hrenames
    rw [ih, bindAll_nil, List.drop_eq_getElem_cons hk, List.findIdx?_cons, hrenames.1 rfl]
    simp [Function.comp_def, Nat.add_assoc, Nat.add_comm 1]
  | case4 t k r hr bs w hrewrite hne =>
    obtain ⟨rfl, _, ⟨⟩, hrenames⟩ := rewrite_sym (hv ▸ hrewrite)
    obtain ⟨hk, rfl⟩ := List.getElem?_eq_some_iff.1 hr
    have hren : t.rules[k].renames name = true := by
      rw [hv] at hrenames
      simpa using mt hrenames.2 hne
    rw [List.drop_eq_getElem_cons hk, List.findIdx?_cons, hren]
    simp [Scan.outcome]

theorem outcome_scan_sym_zero (t : Table) (name : String) :
    (t.scan (.sym name) 0).outcome = (.ok (t.slot? name), t) := by
  rw [outcome_scan_sym, List.drop_zero, slot?]
  simp

end Scans

-- The steps of the search carry the induction: a binding searches, and a search rewrites and binds.
mutual

/-- What is searched for step by step is what a scan ends at. -/
theorem outcome_of_search {t t' : Table} {v : Term} {k : Nat} {place? : Option Nat} :
    Search t v k place? t' → (t.scan v k).outcome = (.ok place?, t')
  | .exhausted hk => by
    rw [scan_of_none hk]
    rfl
  | .found hk hr hw => by
    obtain ⟨bs, hrewrite, ht'⟩ := rewrite_of_rewrites hr
    rw [scan_of_rewrite hk hrewrite, if_neg hw, ht']
    rfl
  | .passed hk hr hw hs => by
    obtain ⟨bs, hrewrite, ht'⟩ := rewrite_of_rewrites hr
    rw [scan_of_rewrite hk hrewrite, if_pos hw, ← ht']
    exact outcome_of_search hs

/-- A rule has the result of its rewriting step by step, and its bindings make the same table. -/
theorem rewrite_of_rewrites {r : Rule} {t t' : Table} {v w : Term} :
    Rewrites r t v w t' → ∃ bs, r.rewrite v = ⟨bs, .ok w⟩ ∧ t' = t.bindAll bs
  | .substitution => ⟨[], rfl, rfl⟩
  | .atom hv => by
    refine ⟨[], ?_, rfl⟩
    rw [Rule.rewrite, Rule.operate]
    · rfl
    · exact hv
  | .parts hh ha hn => by
    obtain ⟨bs, hhead, ht₁⟩ := rewrite_of_rewrites hh
    obtain ⟨cs, hargs, ht'⟩ := operateAll_of_rewritesAll ha
    rw [Rule.rewrite] at hhead ⊢
    refine ⟨bs ++ cs, ?_, by rw [ht', ht₁, bindAll_append]⟩
    rw [Rule.operate, hhead, Rule.andThen_ok, hargs, Rule.andThen_ok, if_neg hn]
    exact congrArg (fun ds => Effect.mk (bs ++ ds) _) (List.append_nil cs)
  | .performed hh ha hn hp hb => by
    obtain ⟨bs, hhead, ht₁⟩ := rewrite_of_rewrites hh
    obtain ⟨cs, hargs, ht₂⟩ := operateAll_of_rewritesAll ha
    have ht' := bindAll_of_binds hb
    rw [Rule.rewrite] at hhead ⊢
    refine ⟨bs ++ (cs ++ _), ?_, by rw [ht', ht₂, ht₁, bindAll_append, bindAll_append]⟩
    rw [Rule.operate, hhead, Rule.andThen_ok, hargs, Rule.andThen_ok, if_pos hn, hp]

theorem operateAll_of_rewritesAll {tag : String} {op : Operation} {arity : Option Int}
    {t t' : Table} {vs ws : List Term} :
    RewritesAll tag op arity t vs ws t' →
      ∃ bs, Rule.operateAll tag op arity vs = ⟨bs, .ok ws⟩ ∧ t' = t.bindAll bs
  | .nil => ⟨[], rfl, rfl⟩
  | .cons hv hvs => by
    obtain ⟨bs, hfirst, ht₁⟩ := rewrite_of_rewrites hv
    obtain ⟨cs, hothers, ht'⟩ := operateAll_of_rewritesAll hvs
    rw [Rule.rewrite] at hfirst
    refine ⟨bs ++ cs, ?_, by rw [ht', ht₁, bindAll_append]⟩
    rw [Rule.operateAll, hfirst, Rule.andThen_ok, hothers, Rule.andThen_ok]
    exact congrArg (fun ds => Effect.mk (bs ++ ds) _) (List.append_nil cs)

/-- Binding at the places that are searched for is binding at the slots of the names. -/
theorem bindAll_of_binds {t t' : Table} {bs : List Binding} :
    Binds t bs t' → t' = t.bindAll bs
  | .nil => rfl
  | .replaced hs hb => by
    obtain ⟨hslot, ht⟩ := Prod.mk.inj ((outcome_scan_sym_zero _ _).symm.trans (outcome_of_search hs))
    rw [bindAll_cons, bind, Except.ok.inj hslot, bindAll_of_binds hb, ht]
  | .added hs hb => by
    obtain ⟨hslot, ht⟩ := Prod.mk.inj ((outcome_scan_sym_zero _ _).symm.trans (outcome_of_search hs))
    rw [bindAll_cons, bind, Except.ok.inj hslot, bindAll_of_binds hb, append, ht]

end

/-! ## What a scan finds is what is searched for -/

/-- If every rule is followed step by step on a term, so is a scan of it. -/
theorem search_of_outcome {t t' : Table} {v : Term} {k : Nat} {place? : Option Nat}
    (hv : ∀ (r : Rule) (t : Table) bs w, r.rewrite v = ⟨bs, .ok w⟩ →
      Rewrites r t v w (t.bindAll bs))
    (h : (t.scan v k).outcome = (.ok place?, t')) : Search t v k place? t' := by
  fun_induction Table.scan t v k with
  | case1 t k hnone =>
    obtain ⟨⟨⟩, rfl⟩ := Prod.mk.inj h
    exact .exhausted hnone
  | case2 t k r hr bs e hrewrite => cases (Prod.mk.inj h).1
  | case3 t k r hr bs w hrewrite heq ih => exact .passed hr (hv r t bs w hrewrite) heq (ih h)
  | case4 t k r hr bs w hrewrite hne =>
    obtain ⟨⟨⟩, rfl⟩ := Prod.mk.inj h
    exact .found hr (hv r t bs w hrewrite) hne

theorem rewrites_sym {name : String} (r : Rule) (t : Table) (bs : List Binding) (w : Term)
    (h : r.rewrite (.sym name) = ⟨bs, .ok w⟩) :
    Rewrites r t (.sym name) w (t.bindAll bs) := by
  cases r with
  | substitution n u =>
    obtain ⟨rfl, ⟨⟩⟩ := Effect.mk.inj h
    exact .substitution
  | operation tag op arity =>
    obtain ⟨rfl, ⟨⟩⟩ := Effect.mk.inj h
    exact .atom fun head args hv => Term.noConfusion hv

/-- Names are bound in the places that are searched for. -/
theorem binds_bindAll (t : Table) (bs : List Binding) : Binds t bs (t.bindAll bs) := by
  induction bs generalizing t with
  | nil => exact .nil
  | cons b bs ih =>
    have hsearch := search_of_outcome rewrites_sym (outcome_scan_sym_zero t b.name)
    have hbs := ih (t.bind b)
    rw [bind] at hbs
    rw [bindAll_cons, bind]
    cases hslot : t.slot? b.name with
    | none =>
      rw [hslot] at hsearch hbs
      exact .added hsearch hbs
    | some place =>
      rw [hslot] at hsearch hbs
      exact .replaced hsearch hbs

mutual

/-- An operation that has a result has it step by step as well. -/
theorem rewrites_of_operate {tag : String} {op : Operation} {arity : Option Int} (t : Table)
    {bs : List Binding} {w : Term} : (v : Term) → Rule.operate tag op arity v = ⟨bs, .ok w⟩ →
      Rewrites (.operation tag op arity) t v w (t.bindAll bs)
  | .const x, h => by
    obtain ⟨rfl, ⟨⟩⟩ := Effect.mk.inj h
    exact .atom fun _ _ hv => Term.noConfusion hv
  | .sym name, h => by
    obtain ⟨rfl, ⟨⟩⟩ := Effect.mk.inj h
    exact .atom fun _ _ hv => Term.noConfusion hv
  | .lam params body, h => by
    obtain ⟨rfl, ⟨⟩⟩ := Effect.mk.inj h
    exact .atom fun _ _ hv => Term.noConfusion hv
  | .app head args, h => by
    rw [Rule.operate] at h
    obtain ⟨cs, head', _, hhead, hbehind, rfl⟩ := exists_of_andThen_eq_ok h
    obtain ⟨ds, args', es, hargs, hwhole, rfl⟩ := exists_of_andThen_eq_ok hbehind
    have hh := rewrites_of_operate t head hhead
    have ha := rewritesAll_of_operateAll (t.bindAll cs) args hargs
    rw [bindAll_append, bindAll_append]
    by_cases hn : Rule.applies tag arity head' args' = true
    · rw [if_pos hn] at hwhole
      exact .performed hh ha hn hwhole (binds_bindAll _ es)
    · rw [if_neg hn] at hwhole
      obtain ⟨rfl, ⟨⟩⟩ := Effect.mk.inj hwhole
      exact .parts hh ha hn

theorem rewritesAll_of_operateAll {tag : String} {op : Operation} {arity : Option Int} (t : Table)
    {bs : List Binding} {ws : List Term} :
    (vs : List Term) → Rule.operateAll tag op arity vs = ⟨bs, .ok ws⟩ →
      RewritesAll tag op arity t vs ws (t.bindAll bs)
  | [], h => by
    obtain ⟨rfl, ⟨⟩⟩ := Effect.mk.inj h
    exact .nil
  | v :: vs, h => by
    rw [Rule.operateAll] at h
    obtain ⟨cs, w, _, hfirst, hbehind, rfl⟩ := exists_of_andThen_eq_ok h
    obtain ⟨ds, ws', _, hothers, hlist, rfl⟩ := exists_of_andThen_eq_ok hbehind
    obtain ⟨rfl, ⟨⟩⟩ := Effect.mk.inj hlist
    rw [List.append_nil, bindAll_append]
    exact .cons (rewrites_of_operate t v hfirst) (rewritesAll_of_operateAll _ vs hothers)

end

/-- A rule that has a result has it step by step as well. -/
theorem rewrites_of_rewrite {v : Term} (r : Rule) (t : Table) (bs : List Binding) (w : Term)
    (h : r.rewrite v = ⟨bs, .ok w⟩) : Rewrites r t v w (t.bindAll bs) := by
  cases r with
  | substitution n u =>
    obtain ⟨rfl, ⟨⟩⟩ := Effect.mk.inj h
    exact .substitution
  | operation tag op arity => exact rewrites_of_operate t v h

/-! ## The first rule and the first rewrite -/

variable {t t' : Table} {v : Term} {place? : Option Nat}

/-- The first rule that changes a term is the one that is found step by step, and the table that is
left is the same. -/
theorem firstRule?_iff_search : t.firstRule? v = (.ok place?, t') ↔ Search t v 0 place? t' := by
  rw [firstRule?_eq_outcome]
  exact ⟨search_of_outcome rewrites_of_rewrite, outcome_of_search⟩

/-- What a scan that changes a term has found: a rule that makes something else of the term and
leaves the table alone. -/
theorem rewrites_of_scan_changed {place : Nat} {w : Term} (ht : t.Standard)
    (h : t.scan v 0 = .changed place w t') :
    ∃ r, t'.rules[place]? = some r ∧ Rewrites r t' v w t' ∧ ¬ v.equivalent w = true := by
  obtain ⟨r, hplace, rfl, hchanges⟩ := rule_of_scan_changed h
  have hstandard : t'.Standard := by
    rcases scan_cases ht v with ⟨hscan, -⟩ | ⟨place', w', hscan, -⟩
    · cases h.symm.trans hscan
    · obtain ⟨-, -, rfl⟩ := Scan.changed.inj (h.symm.trans hscan)
      exact ht.visited v place'
  have hr := hstandard r (List.mem_of_getElem? hplace)
  have hrewrite := hr.rewrite_eq v
  rw [hr.bindings_of_changes hchanges] at hrewrite
  exact ⟨r, hplace, rewrites_of_rewrite r t' [] _ hrewrite, hchanges⟩

/-- **One search.** The first rule that changes a term is what a search of the table finds, in which
names are bound under way, and each by a search of its own. There is none exactly if a reduction
ends at once, and the table is then the same after both. If there is one, it makes of the term what
the reduction goes on with, whether it ends or not, in the table that the search has left. -/
theorem firstRule?_reduce (ht : t.Standard) (v : Term) :
    (∀ place? s, t.firstRule? v = (.ok place?, s) ↔ Search t v 0 place? s) ∧
    (∀ patience ceiling s,
      t.firstRule? v = (.ok none, s) ↔ t.reduce patience ceiling v = (.ok [v], s)) ∧
    ((∀ s, t.firstRule? v ≠ (.ok none, s)) → ∃ place s r w,
      t.firstRule? v = (.ok (some place), s) ∧ s.rules[place]? = some r ∧ Rewrites r s v w s ∧
      ¬ v.equivalent w = true ∧ t.run 0 v = ⟨[v], s, .unfinished⟩ ∧
      ∀ n, t.run (n + 1) v = (s.run n w).cons v) := by
  refine ⟨fun place? s => firstRule?_iff_search, ?_⟩
  rcases scan_cases ht v with ⟨hscan, -⟩ | ⟨place, w, hscan, -⟩
  · have hfirst : t.firstRule? v = (.ok none, t.visited v t.rules.length) := by
      rw [firstRule?, hscan]
    refine ⟨fun patience ceiling s => ?_, fun hnone => absurd hfirst (hnone _)⟩
    rw [hfirst, reduce, run_of_scan_unchanged _ hscan]
    simp
  · have hfirst : t.firstRule? v = (.ok (some place), t.visited v place) := by
      rw [firstRule?, hscan]
    refine ⟨fun patience ceiling s => ?_, fun _ => ?_⟩
    · rw [hfirst]
      refine iff_of_false (fun h => absurd (Prod.mk.inj h).1 (by simp)) fun h => ?_
      have hrun := reduce_eq_ok h
      cases hn : ceiling.rewrites patience with
      | zero =>
        rw [hn, run_zero_of_scan_changed hscan] at hrun
        cases (Run.mk.inj hrun).2.2
      | succ n =>
        rw [hn, run_succ_of_scan_changed n hscan] at hrun
        have hhead := run_trace_head? n w (t.visited v place)
        rw [(List.cons.inj (Run.mk.inj hrun).1).2] at hhead
        cases hhead
    · obtain ⟨r, hplace, hrewrites, hw⟩ := rewrites_of_scan_changed ht hscan
      exact ⟨place, _, r, w, hfirst, hplace, hrewrites, hw, run_zero_of_scan_changed hscan,
        fun n => run_succ_of_scan_changed n hscan⟩

/-- A name that is assigned itself is bound, and nothing changes. A name that is assigned another
one is bound by the search that then finds its rule, behind all others. -/
theorem firstRule?_reduce_of_assignments :
    Table.default.Standard ∧
    Table.default.firstRule? (.binary "$let" (.sym "x") (.sym "x")) =
      (.ok none, Table.default.append (.substitution "x" (.sym "x"))) ∧
    Table.default.reduce 0 .unlimited (.binary "$let" (.sym "x") (.sym "x")) =
      (.ok [.binary "$let" (.sym "x") (.sym "x")],
        Table.default.append (.substitution "x" (.sym "x"))) ∧
    Search Table.default (.binary "$let" (.sym "x") (.sym "y")) 0 (some 8)
      (Table.default.append (.substitution "x" (.sym "y"))) ∧
    ∃ w, ¬ (Term.binary "$let" (.sym "x") (.sym "y")).equivalent w = true ∧
      Rewrites (.substitution "x" (.sym "y")) (Table.default.append (.substitution "x" (.sym "y")))
        (.binary "$let" (.sym "x") (.sym "y")) w
        (Table.default.append (.substitution "x" (.sym "y"))) ∧
      ∀ n, Table.default.run (n + 1) (.binary "$let" (.sym "x") (.sym "y")) =
        ((Table.default.append (.substitution "x" (.sym "y"))).run n w).cons
          (.binary "$let" (.sym "x") (.sym "y")) := by
  have hself : Table.default.firstRule? (.binary "$let" (.sym "x") (.sym "x")) =
      (.ok none, Table.default.append (.substitution "x" (.sym "x"))) := by
    with_unfolding_all rfl
  have hother : Table.default.firstRule? (.binary "$let" (.sym "x") (.sym "y")) =
      (.ok (some 8), Table.default.append (.substitution "x" (.sym "y"))) := by
    with_unfolding_all rfl
  obtain ⟨-, hnone, -⟩ :=
    firstRule?_reduce standard_default (.binary "$let" (.sym "x") (.sym "x"))
  obtain ⟨hsearch, -, hsome⟩ :=
    firstRule?_reduce standard_default (.binary "$let" (.sym "x") (.sym "y"))
  obtain ⟨place, s, r, w, hfirst, hplace, hrewrites, hw, -, hrun⟩ :=
    hsome fun s h => absurd (Prod.mk.inj (hother.symm.trans h)).1 (by simp)
  obtain ⟨⟨⟩, rfl⟩ := Prod.mk.inj (hother.symm.trans hfirst)
  obtain rfl := Option.some.inj (show some (.substitution "x" (.sym "y")) = some r from hplace)
  exact ⟨standard_default, hself, (hnone 0 .unlimited _).1 hself, (hsearch _ _).1 hother, w, hw,
    hrewrites, hrun⟩

end Table

end TermCalc
