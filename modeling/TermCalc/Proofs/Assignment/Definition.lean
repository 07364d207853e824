import TermCalc.Proofs.Assignment.Course
import TermCalc.Proofs.Reduction.Ceiling
import TermCalc.Proofs.Session.Reachable

/-!
# The first definition of a name

As long as nothing in a table stands for `x`, the assignment `x = d` is reduced as `d` is. Every
scan finds the rule that it would find for the definition alone, and binds `x` anew behind the rules
of the table. The rule for `x` gets its turn when the definition is finished: it makes `dk = dk` of
`x = dk`, and one more scan finds nothing to do.

## Main definitions

* `Table.Free t name`: nothing in the table stands for the symbol `name` or mentions it
* `Table.Defining t x s`: `s` is the table `t`, or `t` with a definition of `x` behind it
* `Table.define t x u`: the table after the first definition of `x`

## Main results

* `Step.assign`: a rewrite of the definition is one of the assignment
* `run_assign`: the run of an assignment beside the rewriting of its definition
* `definition_simulates_reduction`: the reduction of the first definition of a name
-/

namespace TermCalc

namespace Table

variable {t t' s : Table} {x : String} {u v w : Term} {place : Nat}

/-- Nothing in the table stands for a symbol or mentions it. -/
structure Free (t : Table) (name : String) : Prop where
  unnamed : ∀ u, Rule.substitution name u ∉ t.rules
  avoids : t.Avoids name

theorem Free.not_renames {name : String} {r : Rule} (h : t.Free name) (hr : r ∈ t.rules) :
    r.renames name = false := by
  by_contra hren
  obtain ⟨u, rfl, -⟩ := Rule.renames_iff.1 (by simpa using hren)
  exact h.unnamed u hr

/-- What a rule makes of a term does not mention a free symbol either, unless it is `$neg`. -/
theorem Free.not_mentions_output {name : String} {r : Rule} (h : t.Free name) (ht : t.Standard)
    (hneg : name ≠ "$neg") (hr : r ∈ t.rules) (hu : u.mentions name = false) :
    (r.output u).mentions name = false :=
  (ht r hr).not_mentions_output (fun n s hs => h.avoids n s (hs ▸ hr)) hneg hu

/-- The constants of a session are not free. -/
theorem Free.ne_constants (h : t.Free x) (ht : t.OfSession) : x ≠ "pi" ∧ x ≠ "e" := by
  constructor
  · rintro rfl
    exact h.unnamed (.const Rule.piValue) (ht.mem_builtin (by simp [Rule.builtin]))
  · rintro rfl
    exact h.unnamed (.const Rule.eValue) (ht.mem_builtin (by simp [Rule.builtin]))

/-! ## Binding a free name -/

theorem bind_of_not_renames {b : Binding} (h : ∀ r ∈ t.rules, r.renames b.name = false) :
    t.bind b = t.append (.substitution b.name b.definition) := by
  have hslot : t.slot? b.name = none := List.findIdx?_eq_none_iff.2 h
  rw [bind, hslot]
  rfl

/-- Binding the name of the last rule again takes the place of that rule. -/
theorem append_bind (h : ∀ r ∈ t.rules, r.renames x = false) (hu : u ≠ .sym x) (v : Term) :
    (t.append (.substitution x u)).bind ⟨x, v⟩ = t.append (.substitution x v) := by
  have hslot : (t.append (.substitution x u)).slot? x = some t.rules.length := by
    rw [slot?, append, List.findIdx?_append, List.findIdx?_eq_none_iff.2 h]
    simp [List.findIdx?_cons, renames_substitution_self.2 hu]
  rw [bind, hslot]
  simp [append]

/-- The table, or the table with a definition of `x` behind it that does not mention `x`. -/
def Defining (t : Table) (x : String) (s : Table) : Prop :=
  s = t ∨ ∃ u, u.mentions x = false ∧ s = t.append (.substitution x u)

theorem Defining.ofSession (hs : t.Defining x s) (ht : t.OfSession) (hx : t.Free x) :
    s.OfSession := by
  rcases hs with rfl | ⟨u, -, rfl⟩
  · exact ht
  · obtain ⟨hpi, he⟩ := hx.ne_constants ht
    have hbind := ht.bind (b := ⟨x, u⟩) hpi he
    rwa [bind_of_not_renames fun r hr => hx.not_renames hr] at hbind

theorem Defining.bind (hs : t.Defining x s) (hx : t.Free x) (v : Term) :
    s.bind ⟨x, v⟩ = t.append (.substitution x v) := by
  have hren : ∀ r ∈ t.rules, r.renames x = false := fun r hr => hx.not_renames hr
  rcases hs with rfl | ⟨u, hu, rfl⟩
  · exact bind_of_not_renames hren
  · refine append_bind hren ?_ v
    rintro rfl
    exact absurd rfl (Term.mentions_sym_eq_false.1 hu)

/-- The rules of the table stand where they stood, the definition of `x` behind them. -/
theorem Defining.prefix (hs : t.Defining x s) : t.rules <+: s.rules := by
  rcases hs with rfl | ⟨u, -, rfl⟩
  · exact List.prefix_rfl
  · exact List.prefix_append _ _

/-- The bindings that a scan of `x = v` makes in such a table. -/
theorem Defining.bindAll_assign (hs : t.Defining x s) (hx : t.Free x) (ht : t.OfSession)
    (hv : v.mentions "$let" = false) :
    s.bindAll (Term.binary "$let" (.sym x) v).bindings =
      if v.mentions "pi" ∨ v.mentions "e" then s else t.append (.substitution x v) := by
  obtain ⟨hpi, he⟩ := hx.ne_constants ht
  rw [bindings_assign_sym (Term.assignments_eq_nil hv)]
  simp only [Term.mentions_binary, Term.mentions_sym, hpi, he, false_or, String.reduceEq]
  split_ifs
  · rfl
  · exact hs.bind hx v

theorem Defining.assign (hs : t.Defining x s) (hx : t.Free x) (ht : t.OfSession)
    (hv : v.mentions "$let" = false) (hvx : v.mentions x = false) :
    t.Defining x (s.bindAll (Term.binary "$let" (.sym x) v).bindings) := by
  rw [hs.bindAll_assign hx ht hv]
  split_ifs
  · exact hs
  · exact .inr ⟨v, hvx, rfl⟩

/-! ## One rewrite of a definition -/

/-- A rule of the table rewrites the assignment `x = v` as it rewrites `v`. -/
theorem Free.changes_assign_iff {r : Rule} (hx : t.Free x) (hlet : t.Free "$let") (ht : t.Standard)
    (hr : r ∈ t.rules) : r.Changes (.binary "$let" (.sym x) v) ↔ r.Changes v := by
  rw [(ht r hr).changes_assign_iff, (ht r hr).changes_sym_iff, hx.not_renames hr,
    hlet.not_renames hr]
  simp

theorem Free.output_assign {r : Rule} (hx : t.Free x) (hlet : t.Free "$let") (ht : t.Standard)
    (hr : r ∈ t.rules) :
    r.output (.binary "$let" (.sym x) v) = .binary "$let" (.sym x) (r.output v) := by
  have hsym : ∀ {name}, t.Free name → r.output (.sym name) = .sym name := fun h =>
    (ht r hr).output_sym_of_not_renames (by rw [h.not_renames hr]; exact Bool.false_ne_true)
  rw [(ht r hr).output_assign, hsym hx, hsym hlet]
  rfl

/-- **A rewrite of the definition is one of the assignment**, by the same rule at the same place. -/
theorem Step.assign (h : t.Step v place w) (hs : t.Defining x s) (hx : t.Free x)
    (hlet : t.Free "$let") (ht : t.Standard) :
    s.Step (.binary "$let" (.sym x) v) place (.binary "$let" (.sym x) w) := by
  obtain ⟨r, hr, hc, rfl, hfirst⟩ := h
  have hmem := List.mem_of_getElem? hr
  obtain ⟨rules, hrules⟩ := hs.prefix
  have hplace : place < t.rules.length := (List.getElem?_eq_some_iff.1 hr).1
  refine ⟨r, ?_, (hx.changes_assign_iff hlet ht hmem).2 hc, hx.output_assign hlet ht hmem, ?_⟩
  · rw [← hrules, List.getElem?_append_left hplace, hr]
  · intro q hq
    rw [← hrules, List.take_append_of_le_length (Nat.le_of_lt hplace)] at hq
    rw [hx.changes_assign_iff hlet ht (List.mem_of_mem_take hq)]
    exact hfirst q hq

/-! ## The end of a definition -/

/-- The table after the first definition of `x`: the definition comes last, and if it is a symbol,
the symbol is bound to itself behind it. -/
def define (t : Table) (x : String) (u : Term) : Table :=
  match u with
  | .sym y => (t.append (.substitution x u)).append (.substitution y u)
  | _ => t.append (.substitution x u)

/-- The rule for `x` rewrites the assignment of a normal form. -/
theorem Normal.step_assign (hv : t.Normal v) (hvx : v.mentions x = false) (hxlet : x ≠ "$let")
    (hx : t.Free x) (hlet : t.Free "$let") (ht : t.Standard) :
    (t.append (.substitution x v)).Step (.binary "$let" (.sym x) v) t.rules.length
      (.binary "$let" v v) := by
  have hren : (Rule.substitution x v).renames x = true := by
    refine renames_substitution_self.2 ?_
    rintro rfl
    exact absurd rfl (Term.mentions_sym_eq_false.1 hvx)
  refine ⟨.substitution x v, by simp [append], ?_, ?_, ?_⟩
  · exact Rule.changes_of_renames hren (Term.mentions_binary.2 (.inr (.inl (by simp))))
  · rw [(Rule.Standard.substitution x v).output_assign]
    simp only [Rule.output_substitution, Rule.substitute_sym_self,
      Rule.substitute_of_not_mentions hvx,
      Rule.substitute_of_not_mentions (Term.mentions_sym_eq_false.2 (Ne.symm hxlet))]
    rfl
  · intro q hq
    rw [append, List.take_append_of_le_length (Nat.le_refl _), List.take_length] at hq
    rw [hx.changes_assign_iff hlet ht hq]
    exact hv q hq

theorem mem_rules_define {r : Rule} (h : r ∈ (t.define x v).rules) :
    r ∈ t.rules ∨ r = .substitution x v ∨ ∃ y, r = .substitution y (.sym y) := by
  unfold define at h
  split at h
  · next y =>
    simp only [append, List.mem_append, List.mem_singleton] at h
    rcases h with (h | h) | h
    · exact .inl h
    · exact .inr (.inl h)
    · exact .inr (.inr ⟨y, h⟩)
  · simp only [append, List.mem_append, List.mem_singleton] at h
    exact h.imp_right .inl

/-- The bindings of the last scan, in which both parts are the normal form. -/
theorem Normal.bindAll_twin (hv : t.Normal v) (hvx : v.mentions x = false)
    (hvlet : v.mentions "$let" = false) (ht : t.OfSession) :
    (t.append (.substitution x v)).bindAll (Term.binary "$let" v v).bindings = t.define x v := by
  by_cases hsym : ∃ y, v = .sym y
  · obtain ⟨y, rfl⟩ := hsym
    obtain ⟨hpi, he⟩ := not_mentions_constants fun r hr => hv r (ht.mem_builtin hr)
    rw [bindings_assign_sym rfl, if_neg (by simp [Term.mentions_binary, hpi, he])]
    refine bind_of_not_renames fun r hr => ?_
    rcases List.mem_append.1 hr with hr | hr
    · by_contra hren
      exact hv r hr (Rule.changes_of_renames (by simpa using hren) (Term.mentions_sym.2 rfl))
    · rw [List.mem_singleton.1 hr]
      exact renames_substitution_of_ne (Ne.symm (Term.mentions_sym_eq_false.1 hvx))
  · rw [bindings_assign_of_ne hvlet hvlet (not_exists.1 hsym), bindAll_nil]
    cases v with
    | sym y => exact absurd ⟨y, rfl⟩ hsym
    | _ => rfl

/-- Then no rule changes the assignment any more. -/
theorem Normal.normal_define (hv : t.Normal v) (hvx : v.mentions x = false) (hxlet : x ≠ "$let")
    (hlet : t.Free "$let") (ht : t.Standard) :
    (t.define x v).Normal (.binary "$let" v v) := by
  intro r hr
  rcases mem_rules_define hr with hr | rfl | ⟨y, rfl⟩
  · rw [(ht r hr).changes_assign_iff, hlet.not_renames hr]
    simpa using hv r hr
  · rw [Rule.changes_substitution_iff, Term.mentions_binary]
    simp [hvx, Ne.symm hxlet]
  · rw [Rule.changes_substitution_iff, renames_substitution_self]
    simp

/-! ## The reduction of a definition -/

/-- The run of an assignment beside the rewriting of its definition. -/
theorem run_assign (ht : t.OfSession) (hx : t.Free x) (hlet : t.Free "$let") (hxlet : x ≠ "$let")
    (hxneg : x ≠ "$neg") {vs : List Term} (h : Rewriting t (v :: vs) t')
    (hvx : v.mentions x = false) (hvlet : v.mentions "$let" = false) (hs : t.Defining x s) {n : Nat}
    (hn : vs.length + 1 ≤ n) :
    ∃ last, (v :: vs).getLast? = some last ∧
      s.run n (.binary "$let" (.sym x) v) =
        ⟨(v :: vs).map (.binary "$let" (.sym x)) ++ [.binary "$let" last last], t.define x last,
          .normal⟩ := by
  -- induction on the rewrites that are left to the definition
  induction vs generalizing v s n with
  | nil =>
    obtain ⟨m, rfl⟩ : ∃ m, n = m + 1 := Nat.exists_eq_add_one_of_ne_zero (by omega)
    rcases h.step_cases ht with ⟨-, ht', hnormal⟩ | ⟨w, ws, place, hws, -⟩
    · rw [ht', bindings_eq_nil hvlet, bindAll_nil] at hnormal
      refine ⟨v, rfl, ?_⟩
      -- a normal form is free of constants, so this scan binds `x` to it
      obtain ⟨hpi, he⟩ := not_mentions_constants fun r hr => hnormal r (ht.mem_builtin hr)
      have htable := hs.bindAll_assign hx ht hvlet
      rw [if_neg (by simp [hpi, he])] at htable
      have hscan := (hs.ofSession ht hx).scan_of_step
        (htable ▸ hnormal.step_assign hvx hxlet hx hlet ht.standard)
      have hdefining : t.Defining x (t.append (.substitution x v)) := .inr ⟨v, hvx, rfl⟩
      have htwin := hnormal.bindAll_twin hvx hvlet ht
      have hlast := (hdefining.ofSession ht hx).scan_of_normal
        (htwin ▸ hnormal.normal_define hvx hxlet hlet ht.standard)
      rw [run_succ_of_scan_changed m hscan, htable, run_of_scan_unchanged m hlast, htwin]
      rfl
    · simp at hws
  | cons w vs ih =>
    obtain ⟨m, rfl⟩ : ∃ m, n = m + 1 := Nat.exists_eq_add_one_of_ne_zero (by omega)
    rcases h.step_cases ht with ⟨hnil, -⟩ | ⟨w', ws, place, hws, hstep, hrest⟩
    · simp at hnil
    · obtain ⟨rfl, rfl⟩ := List.cons.inj hws
      rw [bindings_eq_nil hvlet, bindAll_nil] at hstep hrest
      have hscan := (hs.ofSession ht hx).scan_of_step
        (hstep.assign (hs.assign hx ht hvlet hvx) hx hlet ht.standard)
      obtain ⟨r, hr, -, hw, -⟩ := hstep
      have hmem := List.mem_of_getElem? hr
      have hwx := hw ▸ hx.not_mentions_output ht.standard hxneg hmem hvx
      have hwlet := hw ▸ hlet.not_mentions_output ht.standard (by decide) hmem hvlet
      obtain ⟨last, hlast, hrun⟩ :=
        ih hrest hwx hwlet (hs.assign hx ht hvlet hvx) (n := m) (Nat.le_of_succ_le_succ hn)
      refine ⟨last, by rw [List.getLast?_cons_cons, hlast], ?_⟩
      rw [run_succ_of_scan_changed m hscan, hrun]
      rfl

end Table

namespace Session

/-- **The first definition of a name.** In a reachable session nothing stands for `x` and nothing
mentions it, and the same holds for the tag `$let`. If `d`, which mentions neither, is reduced to
`last`, then the assignment `x = d` is reduced along with it: to `x = last`, and after that to
`last = last`. Nothing is added to the table but the definition of `x` and, where `last` is a
symbol, a binding of the symbol to itself. -/
theorem definition_simulates_reduction {s : Session} {x : String} {d : Term} {trace : List Term}
    {t' : Table} {patience : Nat} {ceiling : Ceiling} (hs : s.Reachable)
    (hx : s.table.Free x) (hlet : s.table.Free "$let") (hxlet : x ≠ "$let") (hxneg : x ≠ "$neg")
    (hdx : d.mentions x = false) (hdlet : d.mentions "$let" = false)
    (h : s.table.reduce patience ceiling d = (.ok trace, t')) :
    ∃ last, trace.getLast? = some last ∧
      ∀ (patience' : Nat) (ceiling' : Ceiling), trace.length ≤ ceiling'.rewrites patience' →
        s.table.reduce patience' ceiling' (.binary "$let" (.sym x) d) =
          (.ok (trace.map (.binary "$let" (.sym x)) ++ [.binary "$let" last last]),
            s.table.define x last) := by
  have ht := hs.ofSession
  have hrewriting := Table.rewriting_of_reduce ht.standard h
  obtain ⟨vs, rfl⟩ := List.head?_eq_some_iff.1 (Table.head?_of_reduce h)
  obtain ⟨last, hlast⟩ : ∃ last, (d :: vs).getLast? = some last :=
    ⟨_, List.getLast?_eq_getLast_of_ne_nil (List.cons_ne_nil d vs)⟩
  refine ⟨last, hlast, fun patience' ceiling' hrewrites => Table.reduce_of_normal ?_⟩
  obtain ⟨last', hlast', hrun⟩ := Table.run_assign ht hx hlet hxlet hxneg hrewriting hdx hdlet
    (.inl rfl) (n := ceiling'.rewrites patience') hrewrites
  rw [hlast, Option.some.injEq] at hlast'
  rw [hrun, hlast']

/-! ## A definition by an alias -/

theorem table_typed_alias : (typed 1 ["a = b"]).table =
    ⟨Rule.builtin ++ [.substitution "a" (.sym "b"), .substitution "b" (.sym "b")]⟩ := by
  with_unfolding_all rfl

theorem free_typed_alias {name : String} (hpi : name ≠ "pi") (he : name ≠ "e") (ha : name ≠ "a")
    (hb : name ≠ "b") : (typed 1 ["a = b"]).table.Free name := by
  rw [table_typed_alias]
  constructor
  · intro u hu
    simp [Rule.builtin, Rule.ofOperation, hpi, he, ha, hb] at hu
  · intro n u hu
    simp [Rule.builtin, Rule.ofOperation] at hu
    rcases hu with ⟨-, rfl⟩ | ⟨-, rfl⟩ | ⟨-, rfl⟩ | ⟨-, rfl⟩
    · rfl
    · rfl
    · exact Term.mentions_sym_eq_false.2 (Ne.symm hb)
    · exact Term.mentions_sym_eq_false.2 (Ne.symm hb)

/-- After `a = b` the name `a` is reduced to `b` in one rewrite, and `x = a` to `x = b` and then to
`b = b`. The table ends with `x` and once more with `b`. -/
theorem definition_simulates_alias :
    let s := typed 1 ["a = b"]
    s.Reachable ∧ s.table.Free "x" ∧ s.table.Free "$let" ∧
      s.table.reduce 1 .unlimited (.sym "a") = (.ok [.sym "a", .sym "b"], s.table) ∧
      s.table.reduce 2 .unlimited (.binary "$let" (.sym "x") (.sym "a")) =
        (.ok [.binary "$let" (.sym "x") (.sym "a"), .binary "$let" (.sym "x") (.sym "b"),
            .binary "$let" (.sym "b") (.sym "b")],
          ⟨Rule.builtin ++ [.substitution "a" (.sym "b"), .substitution "b" (.sym "b"),
            .substitution "x" (.sym "b"), .substitution "b" (.sym "b")]⟩) := by
  intro s
  have hs : s.Reachable := reachable_typed 1 _
  have hx : s.table.Free "x" :=
    free_typed_alias (by decide) (by decide) (by decide) (by decide)
  have hlet : s.table.Free "$let" :=
    free_typed_alias (by decide) (by decide) (by decide) (by decide)
  have hreduce : s.table.reduce 1 .unlimited (.sym "a") = (.ok [.sym "a", .sym "b"], s.table) := by
    rw [table_typed_alias]
    with_unfolding_all rfl
  obtain ⟨last, hlast, hassign⟩ := definition_simulates_reduction hs hx hlet (by decide) (by decide)
    rfl rfl hreduce
  obtain rfl : Term.sym "b" = last := by simpa using hlast
  refine ⟨hs, hx, hlet, hreduce, ?_⟩
  rw [hassign 2 .unlimited (Nat.le_refl 2), table_typed_alias]
  rfl

end Session

end TermCalc
