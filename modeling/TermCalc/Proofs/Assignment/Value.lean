import TermCalc.Proofs.Assignment.Frame

/-!
# Which value an assignment binds

A statement `x = d` binds `x` anew on every pass until the rule for `x` or one for `$let` rewrites
the assignment away. The definition that is bound last need not be a normal form: the rules behind
that rule have not seen it yet. It is the value that the statement ends with exactly if no rule can
have anything to do with its symbols, before the statement or after it.

## Main definitions

* `Term.rightOperand? t`: the second of two arguments
* `Table.Carries x D v`: `v` has the right operand `D`, or no right operand any more

## Main results

* `Rewriting.carries`: a normal right operand is carried to the end of a rewriting
* `Session.assignment_binds_value_iff`: when an assignment binds the value that it ends with
-/

namespace TermCalc

/-- The second argument of an application to two arguments. -/
def Term.rightOperand? : Term → Option Term
  | .app _ [_, right] => some right
  | _ => none

theorem Term.mentions_of_rightOperand {t R : Term} {y : String} (h : t.rightOperand? = some R)
    (hy : R.mentions y = true) : t.mentions y = true := by
  unfold Term.rightOperand? at h
  split at h
  · rw [Option.some.injEq] at h
    exact Term.mentions_app.2 (.inr ⟨R, by simp [h], hy⟩)
  · simp at h

namespace Table

/-- The terms that an application of two operands is rewritten to, if the right one is the normal
form `D` and the left one is `D` as well, or the symbol `x` that is rewritten to `D`. A constant on
the right may let the application collapse; then there is no right operand any more. -/
inductive Carries (x : String) (D : Term) : Term → Prop
  | same (g : Term) : Carries x D (.app g [D, D])
  | symbol {g : Term} (hg : g.mentions "$let" = false) : Carries x D (.app g [.sym x, D])
  | const (c : Float) : Carries x D (.const c)
  | collapsed {c : Float} (hD : D = .const c) : Carries x D (.sym x)
  | single (g : Term) {a : Term} {c : Float} (hD : D = .const c)
    (ha : a = .sym x ∨ ∃ b, a = .const b) : Carries x D (.app g [a])

theorem Carries.rightOperand? {x : String} {D v R : Term} (h : Carries x D v)
    (hR : v.rightOperand? = some R) : R = D := by
  cases h <;> simp [Term.rightOperand?] at hR
  · exact hR.symm
  · exact hR.symm

variable {t t' : Table} {x z : String} {D v w : Term} {place : Nat}

/-- A contraction of two operands in a term that carries `D` carries it too, or it collapses. -/
theorem carries_of_contraction {tag : String} {a : Term} (ha : a = D ∨ a = .sym x)
    (hwhole : Carries x D (.app (.sym tag) [a, D])) (h : Operation.Contraction tag [a, D] w) :
    Carries x D w := by
  cases h with
  | whole => exact hwhole
  | const => exact .const _
  | left a c =>
    rcases ha with rfl | rfl
    · exact .const _
    · exact .collapsed rfl
  | right c a =>
    rcases ha with rfl | ha
    · exact .const c
    · simp at ha
  | negLeft a c =>
    rcases ha with rfl | rfl
    · exact .single _ rfl (.inr ⟨c, rfl⟩)
    · exact .single _ rfl (.inl rfl)
  | negRight c a =>
    rcases ha with rfl | ha
    · exact .single _ rfl (.inr ⟨c, rfl⟩)
    · simp at ha

/-- So does what an operation makes of a term with one operand that is left of it. -/
theorem carries_of_contraction_single {tag : String} {a : Term} {c : Float} (hD : D = .const c)
    (ha : a = .sym x ∨ ∃ b, a = .const b) (h : Operation.Contraction tag [a] w) :
    Carries x D w := by
  cases h with
  | whole => exact .single _ hD ha
  | const => exact .const _
  | double first rest =>
    rcases ha with ha | ⟨b, ha⟩
    · simp at ha
    · simp at ha

/-- A rule that leaves `D` as it is, and puts nothing but `D` in the place of `x`, keeps to the
terms that carry `D`. -/
theorem Carries.output {r : Rule} (h : Carries x D v) (hr : r.Standard)
    (hlet : ∀ n u, r = .substitution n u → u.mentions "$let" = false) (hD : r.output D = D)
    (hx : r.output (.sym x) = .sym x ∨ r.output (.sym x) = D) : Carries x D (r.output v) := by
  have hhead : ∀ {g : Term}, g.mentions "$let" = false → (r.output g).mentions "$let" = false :=
    fun hg => hr.not_mentions_output hlet (by decide) hg
  cases hr with
  | substitution name u =>
    simp only [Rule.output_substitution] at hD hx hhead ⊢
    cases h with
    | same g =>
      rw [Rule.substitute_app, List.map_cons, List.map_cons, List.map_nil, hD]
      exact .same _
    | symbol hg =>
      rw [Rule.substitute_app, List.map_cons, List.map_cons, List.map_nil, hD]
      rcases hx with hx | hx
      · rw [hx]
        exact .symbol (hhead hg)
      · rw [hx]
        exact .same _
    | const c => exact .const c
    | @collapsed c hconst =>
      rcases hx with hx | hx
      · rw [hx]
        exact .collapsed hconst
      · rw [hx, hconst]
        exact .const c
    | @single g a c hconst ha =>
      rw [Rule.substitute_app, List.map_cons, List.map_nil]
      refine .single _ hconst ?_
      rcases ha with rfl | ⟨b, rfl⟩
      · exact hx.imp_right fun hx => ⟨c, hx.trans hconst⟩
      · exact .inr ⟨b, rfl⟩
  | builtin op =>
    simp only [Rule.output_ofOperation] at hD hx hhead ⊢
    cases h with
    | same g =>
      rw [Operation.everywhere_app, List.map_cons, List.map_cons, List.map_nil, hD]
      rcases Operation.contraction_close (op.everywhere g) [D, D] with hc | ⟨-, hc⟩
      · rw [hc]
        exact .same _
      · exact carries_of_contraction (.inl rfl) (.same _) hc
    | @symbol g hg =>
      rw [Operation.everywhere_app, List.map_cons, List.map_cons, List.map_nil, hD,
        Operation.everywhere_sym]
      rcases Operation.contraction_close (op.everywhere g) [.sym x, D] with hc | ⟨htag, hc⟩
      · rw [hc]
        exact .symbol (hhead hg)
      · exact carries_of_contraction (.inr rfl) (.symbol (htag ▸ hhead hg)) hc
    | const c => exact .const c
    | collapsed hconst => exact .collapsed hconst
    | @single g a c hconst ha =>
      have hself : op.everywhere a = a := by
        rcases ha with rfl | ⟨b, rfl⟩ <;> rfl
      rw [Operation.everywhere_app, List.map_cons, List.map_nil, hself]
      rcases Operation.contraction_close (op.everywhere g) [a] with hc | ⟨-, hc⟩
      · rw [hc]
        exact .single _ hconst ha
      · exact carries_of_contraction_single hconst ha hc

/-! ## The right operand of a rewriting -/

/-- Binding a name to itself, or other names, gives it no further rule. -/
theorem renamers_bindAll_le {name : String} {bs : List Binding}
    (h : ∀ b ∈ bs, b.name = name → b.definition = .sym name) :
    (t.bindAll bs).renamers name ≤ t.renamers name := by
  induction bs generalizing t with
  | nil => exact Nat.le_refl _
  | cons b bs ih =>
    refine Nat.le_trans (ih fun c hc => h c (List.mem_cons_of_mem _ hc)) ?_
    by_cases hname : b.name = name
    · subst hname
      rw [(renamers_bind_self t b).2 (h b List.mem_cons_self rfl)]
      exact Nat.sub_le _ _
    · exact Nat.le_of_eq (renamers_bind_of_ne hname)

theorem renamers_bindAll_of_ne {name : String} {bs : List Binding}
    (h : ∀ b ∈ bs, b.name ≠ name) : (t.bindAll bs).renamers name = t.renamers name := by
  induction bs generalizing t with
  | nil => rfl
  | cons b bs ih =>
    rw [bindAll_cons, ih fun c hc => h c (List.mem_cons_of_mem _ hc),
      renamers_bind_of_ne (h b List.mem_cons_self)]

/-- A term stays normal if its symbols are bound to themselves only. -/
theorem Normal.bindAll {bs : List Binding} (h : t.Normal D)
    (hbs : ∀ b ∈ bs, D.mentions b.name = true → b.definition = .sym b.name) :
    (t.bindAll bs).Normal D := by
  intro r hr
  rcases mem_rules_bindAll hr with hr | ⟨b, hb, rfl⟩
  · exact h r hr
  · intro hc
    obtain ⟨hren, hmentions⟩ := Rule.changes_substitution_iff.1 hc
    exact renames_substitution_self.1 hren (hbs b hb hmentions)

/-- The state of a rewriting in which the normal form `D` is carried on the right. The table is the
one after the bindings of the term. -/
structure CarriesIn (x z : String) (D : Term) (t : Table) (v : Term) : Prop where
  avoids : t.Avoids "$let"
  course : t.Course x v
  normal : (t.bindAll v.bindings).Normal D
  symbol : ∀ r ∈ (t.bindAll v.bindings).rules, r.output (.sym z) = .sym z ∨ r.output (.sym z) = D
  carries : Carries z D v

/-- What a term that carries `D` binds is a symbol `D` to itself. -/
theorem Carries.binds (h : Carries z D v) (hcourse : t.Course x v) {b : Binding}
    (hb : b ∈ v.bindings) : b.definition = .sym b.name ∧ D = .sym b.name := by
  obtain ⟨rfl, -, -⟩ := hcourse.binds hb
  generalize hv : Term.binary "$let" (.sym b.name) b.definition = v at h
  cases h with
  | same g =>
    simp only [Term.binary, Term.app.injEq, List.cons.injEq, and_true] at hv
    exact ⟨hv.2.2.trans hv.2.1.symm, hv.2.1.symm⟩
  | @symbol g hg =>
    simp only [Term.binary, Term.app.injEq] at hv
    rw [← hv.1] at hg
    exact absurd rfl (Term.mentions_sym_eq_false.1 hg)
  | const c => simp [Term.binary] at hv
  | collapsed hD => simp [Term.binary] at hv
  | single g hD ha => simp [Term.binary] at hv

theorem CarriesIn.step (ht : t.OfSession) (hpi : x ≠ "pi") (he : x ≠ "e")
    (h : CarriesIn x z D t v) (hstep : (t.bindAll v.bindings).Step v place w) :
    CarriesIn x z D (t.bindAll v.bindings) w := by
  have havoids := h.course.avoids h.avoids
  have hcourse := h.course.step ht h.avoids hpi he hstep
  have hstd := (ht.bindAll_bindings v).standard
  obtain ⟨r, hr, -, rfl, -⟩ := hstep
  have hrmem := List.mem_of_getElem? hr
  have hcarries : Carries z D (r.output v) :=
    h.carries.output (hstd r hrmem) (fun n u hu => havoids n u (hu ▸ hrmem))
      ((hstd r hrmem).not_changes_iff.1 (h.normal r hrmem)) (h.symbol r hrmem)
  have hself : ∀ b ∈ (r.output v).bindings, b.definition = .sym b.name := fun b hb =>
    (hcarries.binds hcourse hb).1
  refine ⟨havoids, hcourse, h.normal.bindAll fun b hb _ => hself b hb, fun q hq => ?_, hcarries⟩
  rcases mem_rules_bindAll hq with hq | ⟨b, hb, rfl⟩
  · exact h.symbol q hq
  · left
    rw [hself b hb, Rule.output_substitution, Rule.substitute_sym]

/-- **A normal right operand is carried to the end.** If the last term of the rewriting has a right
operand, then it is the one that was carried. -/
theorem Rewriting.carries {rest : List Term} {last R : Term} (ht : t.OfSession) (hpi : x ≠ "pi")
    (he : x ≠ "e") (hv : CarriesIn x z D t v) (h : Rewriting t (v :: rest) t')
    (hlast : (v :: rest).getLast? = some last) (hR : last.rightOperand? = some R) : R = D := by
  obtain ⟨before, hbefore⟩ := List.getLast?_eq_some_iff.1 hlast
  rw [hbefore] at h
  obtain ⟨-, hcarries, -⟩ := h.split (I := CarriesIn x z D)
    (fun s v place w hs hI hstep => hI.step hs hpi he hstep) ht fun u hu => by
      rw [← hbefore, List.head?_cons, Option.some.injEq] at hu
      exact hu ▸ hv
  exact hcarries.carries.rightOperand? hR

/-! ## Aliases -/

/-- A symbol is normal if no rule renames it. -/
theorem normal_sym_iff {y : String} (ht : t.Standard) :
    t.Normal (.sym y) ↔ t.renamers y = 0 := by
  rw [renamers_eq_zero_iff]
  constructor
  · intro h r hr
    simpa using mt (ht r hr).changes_sym_iff.2 (h r hr)
  · intro h r hr hc
    rw [(ht r hr).changes_sym_iff, h r hr] at hc
    exact Bool.noConfusion hc

/-- A symbol that is bound to itself has no rule any more. -/
theorem OfSession.renamers_bind_alias (ht : t.OfSession) (y : String) :
    (t.bind ⟨y, .sym y⟩).renamers y = 0 := by
  have hself := (renamers_bind_self t ⟨y, .sym y⟩).2 rfl
  have hle := ht.renamers_le_one y
  simp only at hself
  omega

/-- Once the term `y = y` is met, `y` is the right operand to the end. -/
theorem Rewriting.alias {y : String} {rest : List Term} {last R : Term} (ht : t.OfSession)
    (hlet : t.Avoids "$let") (hpi : x ≠ "pi") (he : x ≠ "e") (hypi : y ≠ "pi") (hye : y ≠ "e")
    (hcourse : t.Course x (.binary "$let" (.sym y) (.sym y)))
    (h : Rewriting t (.binary "$let" (.sym y) (.sym y) :: rest) t')
    (hlast : (Term.binary "$let" (.sym y) (.sym y) :: rest).getLast? = some last)
    (hR : last.rightOperand? = some R) : R = .sym y := by
  -- the scan of `y = y` takes the rules of `y` away, so `y` is normal from then on
  have hbindings : (Term.binary "$let" (.sym y) (.sym y)).bindings = [⟨y, .sym y⟩] := by
    rw [bindings_assign_sym rfl, if_neg (by simp [hypi, hye])]
  have hnormal : (t.bindAll (Term.binary "$let" (.sym y) (.sym y)).bindings).Normal (.sym y) := by
    rw [normal_sym_iff (ht.bindAll_bindings _).standard, hbindings]
    exact ht.renamers_bind_alias y
  have hstd := (ht.bindAll_bindings (.binary "$let" (.sym y) (.sym y))).standard
  refine h.carries ht hpi he ⟨hlet, hcourse, hnormal, fun r hr => ?_, .same _⟩ hlast hR (z := y)
  exact .inl ((hstd r hr).not_changes_iff.1 (hnormal r hr))

/-! ## The last time that the name is bound -/

theorem Course.definition_free {n d : Term} (h : t.Course x (.binary "$let" n d)) :
    d.mentions "$let" = false := by
  generalize hv : Term.binary "$let" n d = v at h
  cases h with
  | naming hd =>
    simp only [Term.binary, Term.app.injEq, List.cons.injEq, and_true] at hv
    exact hv.2.2 ▸ hd
  | twin hn =>
    simp only [Term.binary, Term.app.injEq, List.cons.injEq, and_true] at hv
    exact hv.2.2 ▸ hn
  | lagging _ _ _ _ _ _ _ _ hdlet =>
    simp only [Term.binary, Term.app.injEq, List.cons.injEq, and_true] at hv
    exact hv.2.2 ▸ hdlet
  | ended hv' =>
    rw [← hv, ← Bool.not_eq_true, Term.mentions_binary] at hv'
    exact absurd (.inl rfl) hv'

theorem exists_last_split {α : Type} {p : α → Prop} {l : List α} (h : ∃ a ∈ l, p a) :
    ∃ before a after, l = before ++ a :: after ∧ p a ∧ ∀ b ∈ after, ¬ p b := by
  induction l with
  | nil => simp at h
  | cons c l ih =>
    by_cases hl : ∃ a ∈ l, p a
    · obtain ⟨before, a, after, rfl, ha, hafter⟩ := ih hl
      exact ⟨c :: before, a, after, rfl, ha, hafter⟩
    · obtain ⟨a, ha, hpa⟩ := h
      rcases List.mem_cons.1 ha with rfl | ha
      · exact ⟨[], a, l, rfl, hpa, fun b hb hpb => hl ⟨b, hb, hpb⟩⟩
      · exact absurd ⟨a, ha, hpa⟩ hl

/-- What happens to an assignment to `x` that is the last one of its rewriting: it binds `x`, and it
is normal or rewritten by a rule for `$let`, or by the one that it has bound. -/
theorem Rewriting.last_naming {e : Term} {rest : List Term} (ht : t.OfSession) (hpi : x ≠ "pi")
    (he : x ≠ "e") (hlet : x ≠ "$let") (hfree : e.mentions "$let" = false)
    (h : Rewriting t (.binary "$let" (.sym x) e :: rest) t')
    (hrest : ∀ v ∈ rest, ∀ d, v ≠ .binary "$let" (.sym x) d) :
    (Term.binary "$let" (.sym x) e).bindings = [⟨x, e⟩] ∧
      ((rest = [] ∧ t' = t.bind ⟨x, e⟩ ∧ t'.renamers x = 0) ∨
      ∃ w ws, rest = w :: ws ∧ Rewriting (t.bind ⟨x, e⟩) (w :: ws) t' ∧
        (∀ r ∈ Rule.builtin, ¬ r.Changes e) ∧
        ((∃ u, .substitution "$let" u ∈ (t.bind ⟨x, e⟩).rules ∧ w = .app u [.sym x, e]) ∨
          e ≠ .sym x ∧ w = .binary "$let" e (Rule.substitute x e e))) := by
  have hbindings : e.mentions "pi" = false → e.mentions "e" = false →
      (Term.binary "$let" (.sym x) e).bindings = [⟨x, e⟩] := by
    intro hepi hee
    rw [bindings_assign_sym (Term.assignments_eq_nil hfree), if_neg (by simp [hpi, he, hepi, hee])]
  have hsession := ht.bindAll_bindings (.binary "$let" (.sym x) e)
  rcases h.step_cases ht with ⟨rfl, rfl, hnormal⟩ | ⟨w, ws, place, rfl, hstep, hrewriting⟩
  · have hconst := not_mentions_constants fun r hr => hnormal r (hsession.mem_builtin hr)
    simp only [← Bool.not_eq_true, Term.mentions_binary, not_or] at hconst
    have hb := hbindings (by simpa using hconst.1.2.2) (by simpa using hconst.2.2.2)
    refine ⟨hb, .inl ⟨rfl, by rw [hb]; rfl, (normal_iff.1 hnormal).2 x ?_⟩⟩
    rw [Term.mentions_binary]
    exact .inr (.inl (Term.mentions_sym.2 rfl))
  · obtain ⟨r, hr, hfirst, hcases⟩ := hstep.assign_cases hsession.standard
    have hrmem := List.mem_of_getElem? hr
    have hrstd := hsession.standard r hrmem
    -- a rule that left the name alone would make a later assignment to `x`
    have hrenames : w = .binary "$let" (r.output (.sym x)) (r.output e) → r.renames x = true := by
      rintro rfl
      by_contra hren
      refine hrest _ List.mem_cons_self (r.output e) ?_
      rw [hrstd.output_sym_of_not_renames hren]
    have hahead : ∀ q ∈ Rule.builtin,
        q ∈ (t.bindAll (Term.binary "$let" (.sym x) e).bindings).rules.take place := by
      rcases hcases with ⟨u, rfl, -⟩ | ⟨-, hw⟩
      · exact hsession.builtin_ahead hr (by decide) (by decide)
      · obtain ⟨u, rfl, -⟩ := Rule.renames_iff.1 (hrenames hw)
        exact hsession.builtin_ahead hr hpi he
    have hbuiltin : ∀ q ∈ Rule.builtin, ¬ q.Changes e := fun q hq => (hfirst q (hahead q hq)).2.2
    obtain ⟨hepi, hee⟩ := not_mentions_constants hbuiltin
    have hb := hbindings hepi hee
    rw [hb] at hsession hrewriting hrmem
    replace hsession : (t.bind ⟨x, e⟩).OfSession := hsession
    refine ⟨hb, .inr ⟨w, ws, rfl, hrewriting, hbuiltin, ?_⟩⟩
    rcases hcases with ⟨u, rfl, rfl⟩ | ⟨-, hw⟩
    · left
      refine ⟨u, hrmem, ?_⟩
      rw [Rule.output_substitution, Rule.output_substitution, Rule.substitute_sym_of_ne hlet,
        Rule.substitute_of_not_mentions hfree]
    · right
      have hren := hrenames hw
      have hne : e ≠ .sym x := by
        rintro rfl
        rw [renamers_eq_zero_iff.1 (ht.renamers_bind_alias x) r hrmem] at hren
        exact Bool.noConfusion hren
      obtain rfl := hsession.renames_bind hne hrmem hren
      refine ⟨hne, ?_⟩
      rw [hw, Rule.output_substitution, Rule.output_substitution, Rule.substitute_sym_self]

/-- The last time that a rewriting assigns to `x`: the definition is `e`, the table before it is `s`
and the terms `rest` come after it. -/
structure LastNaming (x : String) (t s : Table) (e : Term) (rest : List Term) (t' : Table) :
    Prop where
  session : s.OfSession
  avoids : s.Avoids "$let"
  course : s.Course x (.binary "$let" (.sym x) e)
  rewriting : Rewriting s (.binary "$let" (.sym x) e :: rest) t'
  last : ∀ v ∈ rest, ∀ d, v ≠ .binary "$let" (.sym x) d
  renamers_le : ∀ y, y ≠ x → s.renamers y ≤ t.renamers y

variable {s : Table} {d e L R last : Term} {trace rest : List Term}

theorem Rewriting.exists_lastNaming (ht : t.OfSession) (hlet : t.Avoids "$let") (hpi : x ≠ "pi")
    (he : x ≠ "e") (hd : d.mentions "$let" = false) (h : Rewriting t trace t')
    (hhead : trace.head? = some (.binary "$let" (.sym x) d)) :
    ∃ before s e rest, trace = before ++ .binary "$let" (.sym x) e :: rest ∧
      LastNaming x t s e rest t' := by
  have hnaming : ∃ v ∈ trace, ∃ e, v = .binary "$let" (.sym x) e :=
    ⟨_, List.mem_of_mem_head? hhead, d, rfl⟩
  obtain ⟨before, v, rest, rfl, ⟨e, rfl⟩, hrest⟩ := exists_last_split hnaming
  obtain ⟨hs, ⟨havoids, hcourse⟩, hrewriting⟩ := h.course ht hlet hpi he hd hhead
  refine ⟨before, _, e, rest, rfl, hs, havoids, hcourse, hrewriting,
    fun v hv d hvd => hrest v hv ⟨d, hvd⟩, fun y hy => renamers_bindAll_le fun b hb hname => ?_⟩
  obtain ⟨v, hv, hb⟩ := List.mem_flatMap.1 hb
  obtain ⟨s, hs⟩ := h.exists_course ht hlet hpi he hd hhead (List.mem_append_left _ hv)
  obtain ⟨-, -, -, rfl⟩ := (mem_bindings_iff hs hy b).1 ⟨hb, hname⟩
  rfl

/-- After the last assignment to `x` other symbols are bound, and only to themselves. -/
theorem LastNaming.binds (h : LastNaming x t s e rest t') (hpi : x ≠ "pi") (he : x ≠ "e")
    {b : Binding} (hb : b ∈ rest.flatMap Term.bindings) :
    b.name ≠ x ∧ b.definition = .sym b.name := by
  obtain ⟨v, hv, hb⟩ := List.mem_flatMap.1 hb
  obtain ⟨s', hs'⟩ := h.rewriting.exists_course h.session h.avoids hpi he h.course.definition_free
    rfl (List.mem_cons_of_mem _ hv)
  obtain ⟨hvb, -, hname⟩ := hs'.binds hb
  have hne : b.name ≠ x := by
    rintro rfl
    exact h.last v hv _ hvb
  exact ⟨hne, hname.resolve_left hne⟩

/-- The table at the end has the rule that the last assignment has bound, and just as many for `x`
as it had then. -/
theorem LastNaming.table (h : LastNaming x t s e rest t') (hpi : x ≠ "pi") (he : x ≠ "e")
    (hlet : x ≠ "$let") :
    .substitution x e ∈ t'.rules ∧ t'.renamers x = (s.bind ⟨x, e⟩).renamers x := by
  obtain ⟨hb, -⟩ := h.rewriting.last_naming h.session hpi he hlet h.course.definition_free h.last
  have htable := h.rewriting.table_eq h.session
  rw [List.flatMap_cons, bindAll_append, hb] at htable
  replace htable : t' = (s.bind ⟨x, e⟩).bindAll (rest.flatMap Term.bindings) := htable
  have hothers : ∀ b ∈ rest.flatMap Term.bindings, b.name ≠ x := fun b hb =>
    (h.binds hpi he hb).1
  obtain ⟨place, hplace, -, -⟩ := exists_place_bind s ⟨x, e⟩
  have hsame := (sameRules_bindAll (t := s.bind ⟨x, e⟩) hothers place e).2 hplace
  rw [htable]
  exact ⟨List.mem_of_getElem? hsame, renamers_bindAll_of_ne hothers⟩

/-! ## Looking the name up -/

/-- A replacement for a symbol without a rule that renames it is the symbol itself. -/
theorem eq_sym_of_renamers_eq_zero {name : String} {u : Term} (h : t.renamers name = 0)
    (hu : Rule.substitution name u ∈ t.rules) : u = .sym name := by
  by_contra hne
  have hren := renamers_eq_zero_iff.1 h _ hu
  rw [renames_substitution_self.2 hne] at hren
  exact Bool.noConfusion hren

/-- If no rule renames a symbol of what is found for `x`, that is what the last assignment has
bound, and `x` does not occur there unless nothing renames it. -/
theorem LastNaming.lookup?_eq (h : LastNaming x t s e rest t') (ht' : t'.OfSession)
    (hpi : x ≠ "pi") (he : x ≠ "e") (hlet : x ≠ "$let") (hL : t'.lookup? x = some L)
    (hfree : ∀ y, L.mentions y = true → t'.renamers y = 0) :
    L = e ∧ (e = .sym x ∨ e.mentions x = false) := by
  obtain ⟨hmem, hrenamers⟩ := h.table hpi he hlet
  have hLmem := mem_of_lookup? hL
  by_cases hex : e = .sym x
  · subst hex
    rw [h.session.renamers_bind_alias x] at hrenamers
    exact ⟨eq_sym_of_renamers_eq_zero hrenamers hLmem, .inl rfl⟩
  · have hpos : t'.renamers x ≠ 0 := fun hzero => hex (eq_sym_of_renamers_eq_zero hzero hmem)
    have hLx : L.mentions x = false := by
      by_contra hmentions
      exact hpos (hfree x (by simpa using hmentions))
    have hne : L ≠ .sym x := by
      rintro rfl
      exact absurd rfl (Term.mentions_sym_eq_false.1 hLx)
    have hLe := ht'.eq_of_renames hLmem hmem (renames_substitution_self.2 hne)
      (renames_substitution_self.2 hex)
    obtain rfl : L = e := (Rule.substitution.inj hLe).2
    exact ⟨rfl, .inr hLx⟩

/-! ## When the value is the one that is bound -/

/-- A rewriting of a term without assignments leaves the table as it is. -/
theorem Rewriting.table_eq_of_free (ht : t.OfSession) (hlet : t.Avoids "$let")
    (hv : v.mentions "$let" = false) (h : Rewriting t (v :: rest) t') : t' = t := by
  have hnone : (v :: rest).flatMap Term.bindings = [] := by
    apply List.flatMap_eq_nil_iff.2
    intro u hu
    obtain ⟨before, after, hsplit⟩ := List.append_of_mem hu
    rw [hsplit] at h
    obtain ⟨-, ⟨-, hfree⟩, -⟩ := h.split
      (I := fun s v => s.Avoids "$let" ∧ v.mentions "$let" = false)
      (fun s v place w hs hI hstep => by
        obtain ⟨havoids, hfree⟩ := hI
        rw [bindings_eq_nil hfree, bindAll_nil] at hstep ⊢
        obtain ⟨r, hr, -, rfl, -⟩ := hstep
        exact ⟨havoids, havoids.not_mentions_output hs.standard (List.mem_of_getElem? hr) hfree⟩)
      ht fun w hw => by
        rw [← hsplit, List.head?_cons, Option.some.injEq] at hw
        exact hw ▸ ⟨hlet, hv⟩
    exact bindings_eq_nil hfree
  rw [h.table_eq ht, hnone, bindAll_nil]

/-- A term is normal in a session if the builtin rules do not change it and no rule renames a symbol
of it. -/
theorem OfSession.normal (ht : t.OfSession) (hbuiltin : ∀ r ∈ Rule.builtin, ¬ r.Changes D)
    (hD : ∀ y, D.mentions y = true → t.renamers y = 0) : t.Normal D := by
  obtain ⟨user, hrules, huser⟩ := ht.exists_user
  refine normal_iff.2 ⟨fun r hr hop => ?_, hD⟩
  rw [hrules, List.mem_append] at hr
  rcases hr with hr | hr
  · exact hbuiltin r hr
  · obtain ⟨name, u, rfl, -, -⟩ := huser r hr
    exact Bool.noConfusion hop

/-- What has just been bound to `x` is the only other term that a rule puts in the place of `x`. -/
theorem OfSession.output_bind (ht : (t.bind ⟨x, D⟩).OfSession) (hD : D ≠ .sym x) {r : Rule}
    (hr : r ∈ (t.bind ⟨x, D⟩).rules) : r.output (.sym x) = .sym x ∨ r.output (.sym x) = D := by
  by_cases hren : r.renames x = true
  · right
    rw [ht.renames_bind hD hr hren, Rule.output_substitution, Rule.substitute_sym_self]
  · left
    exact (ht.standard r hr).output_sym_of_not_renames hren

section AfterNaming

variable {u : Term} {ws : List Term}

/-- After a rule for the tag the table stays as it is, and a definition that is normal at the end
has been normal all along. -/
theorem Rewriting.rightOperand_of_tag (hs : (s.bind ⟨x, D⟩).OfSession)
    (havoids : (s.bind ⟨x, D⟩).Avoids "$let") (hpi : x ≠ "pi") (he : x ≠ "e") (hlet : x ≠ "$let")
    (hu : u.mentions "$let" = false) (hfree : D.mentions "$let" = false)
    (hbuiltin : ∀ r ∈ Rule.builtin, ¬ r.Changes D)
    (h : Rewriting (s.bind ⟨x, D⟩) (.app u [.sym x, D] :: ws) t')
    (hlast : (Term.app u [.sym x, D] :: ws).getLast? = some last)
    (hR : last.rightOperand? = some R)
    (hafter : ∀ y, D.mentions y = true → t'.renamers y = 0) : R = D := by
  have hwfree : (Term.app u [.sym x, D]).mentions "$let" = false := by
    simp [hu, hfree, hlet]
  have hbindings := bindings_eq_nil hwfree
  have hnormal : (s.bind ⟨x, D⟩).Normal D := by
    apply hs.normal hbuiltin
    intro y hy
    rw [← h.table_eq_of_free hs havoids hwfree]
    exact hafter y hy
  refine h.carries (z := x) hs hpi he ⟨havoids, .ended hwfree, ?_, ?_, .symbol hu⟩ hlast hR
  · rw [hbindings]
    exact hnormal
  · rw [hbindings]
    intro r hr
    by_cases hD : D = .sym x
    · left
      exact (hs.standard r hr).not_changes_iff.1 (hD ▸ hnormal r hr)
    · exact hs.output_bind hD hr

/-- After the definition has taken the place of the name, both sides are rewritten alike. The
definition stays as it is if nothing renames a symbol of it, or if it is a symbol, which then is
bound to itself. -/
theorem Rewriting.rightOperand_of_twin (hs : (s.bind ⟨x, D⟩).OfSession)
    (havoids : (s.bind ⟨x, D⟩).Avoids "$let") (hpi : x ≠ "pi") (he : x ≠ "e") (hDx : D ≠ .sym x)
    (hfree : D.mentions "$let" = false) (hbuiltin : ∀ r ∈ Rule.builtin, ¬ r.Changes D)
    (h : Rewriting (s.bind ⟨x, D⟩) (.binary "$let" D D :: ws) t')
    (hlast : (Term.binary "$let" D D :: ws).getLast? = some last)
    (hR : last.rightOperand? = some R)
    (hbefore : ∀ y, D.mentions y = true → (s.bind ⟨x, D⟩).renamers y = 0 ∨ D = .sym y) :
    R = D := by
  by_cases hsym : ∃ y, D = .sym y
  · obtain ⟨y, rfl⟩ := hsym
    obtain ⟨hypi, hye⟩ := not_mentions_constants hbuiltin
    exact h.alias hs havoids hpi he (Term.mentions_sym_eq_false.1 hypi)
      (Term.mentions_sym_eq_false.1 hye) (.twin hfree) hlast hR
  · have hbindings := bindings_assign_of_ne hfree hfree (not_exists.1 hsym)
    have hnormal : (s.bind ⟨x, D⟩).Normal D :=
      hs.normal hbuiltin fun y hy => (hbefore y hy).resolve_right (not_exists.1 hsym y)
    refine h.carries (z := x) hs hpi he ⟨havoids, .twin hfree, ?_, ?_, .same _⟩ hlast hR
    · rw [hbindings]
      exact hnormal
    · rw [hbindings]
      exact fun r hr => hs.output_bind hDx hr

end AfterNaming

/-- If no rule renames a symbol of what is found for `x`, neither before the statement nor after it,
then it is the right operand that the statement ends with. A symbol may have had a rule before. -/
theorem LastNaming.rightOperand_eq (h : LastNaming x t s e rest t') (ht' : t'.OfSession)
    (hpi : x ≠ "pi") (he : x ≠ "e") (hlet : x ≠ "$let")
    (hlast : (Term.binary "$let" (.sym x) e :: rest).getLast? = some last)
    (hR : last.rightOperand? = some R) (hL : t'.lookup? x = some L)
    (hafter : ∀ y, L.mentions y = true → t'.renamers y = 0)
    (hbefore : ∀ y, L.mentions y = true → t.renamers y = 0 ∨ L = .sym y) : R = L := by
  obtain ⟨rfl, hx⟩ := h.lookup?_eq ht' hpi he hlet hL hafter
  have hfree := h.course.definition_free
  have hs : (s.bind ⟨x, L⟩).OfSession := h.session.bind hpi he
  obtain ⟨hb, hcases⟩ := h.rewriting.last_naming h.session hpi he hlet hfree h.last
  have havoids : (s.bind ⟨x, L⟩).Avoids "$let" := by
    have := h.course.avoids h.avoids
    rwa [hb] at this
  rcases hcases with ⟨rfl, -, -⟩ | ⟨w, ws, rfl, hrewriting, hbuiltin, hw⟩
  · rw [List.getLast?_singleton, Option.some.injEq] at hlast
    rw [← hlast] at hR
    exact (Option.some.inj hR).symm
  rw [List.getLast?_cons_cons] at hlast
  rcases hw with ⟨u, hu, rfl⟩ | ⟨hLx, rfl⟩
  · exact hrewriting.rightOperand_of_tag hs havoids hpi he hlet (havoids "$let" u hu) hfree hbuiltin
      hlast hR hafter
  · have hLfree := hx.resolve_left hLx
    rw [Rule.substitute_of_not_mentions hLfree] at hrewriting hlast
    refine hrewriting.rightOperand_of_twin hs havoids hpi he hLx hfree hbuiltin hlast hR ?_
    intro y hy
    have hxy : x ≠ y := by
      rintro rfl
      rw [hy] at hLfree
      exact Bool.noConfusion hLfree
    apply (hbefore y hy).imp_left
    intro hzero
    have hle := h.renamers_le y (Ne.symm hxy)
    rw [renamers_bind_of_ne hxy]
    omega

/-- If what is found for `x` is the right operand that the statement ends with, then no rule renames
a symbol of it after the statement, and none did before it unless it is that symbol. -/
theorem Rewriting.free_of_rightOperand (ht : t.OfSession) (hlet : t.Avoids "$let") (hpi : x ≠ "pi")
    (he : x ≠ "e") (hd : d.mentions "$let" = false) (h : Rewriting t trace t')
    (hhead : trace.head? = some (.binary "$let" (.sym x) d)) (hlast : trace.getLast? = some last)
    (hR : last.rightOperand? = some R) (hL : t'.lookup? x = some L)
    (heq : L.equivalent R = true) {y : String} (hy : L.mentions y = true) :
    t'.renamers y = 0 ∧ (t.renamers y = 0 ∨ L = .sym y) := by
  have hzero : t'.renamers y = 0 := by
    obtain ⟨-, v, -, hv, -, hnormal⟩ := h.exists_last ht.standard
    obtain rfl : v = last := by rwa [hlast, Option.some.injEq, eq_comm] at hv
    refine (normal_iff.1 hnormal).2 y ?_
    rw [Term.mentions_eq_of_equivalent heq] at hy
    exact Term.mentions_of_rightOperand hR hy
  refine ⟨hzero, ?_⟩
  by_cases hLy : L = .sym y
  · exact .inr hLy
  left
  have hyx : y ≠ x := by
    rintro rfl
    exact hLy (eq_sym_of_renamers_eq_zero hzero (mem_of_lookup? hL))
  by_contra hpos
  have hmet : ∃ b ∈ trace.flatMap Term.bindings, b.name = y := by
    by_contra hnone
    push Not at hnone
    rw [h.table_eq ht, renamers_bindAll_of_ne hnone] at hzero
    exact hpos hzero
  obtain ⟨b, hb, hname⟩ := hmet
  obtain ⟨v, hv, hvb⟩ := List.mem_flatMap.1 hb
  obtain ⟨before, rest, rfl⟩ := List.append_of_mem hv
  obtain ⟨hs, ⟨havoids, hcourse⟩, hrewriting⟩ := h.course ht hlet hpi he hd hhead
  obtain ⟨rfl, hypi, hye, -⟩ := (mem_bindings_iff hcourse hyx b).1 ⟨hvb, hname⟩
  rw [List.getLast?_append_cons] at hlast
  have hRy := hrewriting.alias hs havoids hpi he hypi hye hcourse hlast hR
  rw [hRy, Term.equivalent_sym_right] at heq
  exact hLy heq

end Table

namespace Session

/-- **When an assignment binds the value that it ends with.** A reachable session reduces a
statement `x = d`; `x` is neither one of the constants nor `$let`, and the tag `$let` occurs neither
in `d` nor in a replacement. Then what is found for `x` is the right operand of the last term
exactly if there is such an operand and no rule renames a symbol of what is found for `x`, after the
statement or before it; it may have been renamed before if it is itself what is found. -/
theorem assignment_binds_value_iff {s : Session} {patience : Nat} {q : Queued} {x : String}
    {d last : Term} {trace : List Term} (hs : s.Reachable)
    (hq : q.term = .binary "$let" (.sym x) d) (hpi : x ≠ "pi") (he : x ≠ "e") (hx : x ≠ "$let")
    (hd : d.mentions "$let" = false) (hlet : s.table.Avoids "$let")
    (h : (s.reduceOne patience q).result = .ok ())
    (htrace : (s.reduceOne patience q).session.results.getLast? = some trace)
    (hlast : trace.getLast? = some last) :
    (∃ L R, (s.reduceOne patience q).session.lookup? x = some L ∧ last.rightOperand? = some R ∧
        L.equivalent R = true) ↔
      (∃ R, last.rightOperand? = some R) ∧
        ∀ L, (s.reduceOne patience q).session.lookup? x = some L → ∀ y, L.mentions y = true →
          (s.reduceOne patience q).session.table.renamers y = 0 ∧
            (s.table.renamers y = 0 ∨ L = .sym y) := by
  have ht := hs.ofSession
  have ht' := ofSession_reduceOne ht patience q
  obtain ⟨hrewriting, hhead⟩ := rewriting_of_reduceOne hs h htrace
  rw [hq] at hhead
  constructor
  · rintro ⟨L, R, hL, hR, heq⟩
    refine ⟨⟨R, hR⟩, fun L' hL' y hy => ?_⟩
    obtain rfl : L = L' := Option.some.inj (hL.symm.trans hL')
    exact hrewriting.free_of_rightOperand ht hlet hpi he hd hhead hlast hR hL heq hy
  · rintro ⟨⟨R, hR⟩, hfree⟩
    obtain ⟨before, u, e, rest, hsplit, hnaming⟩ :=
      hrewriting.exists_lastNaming ht hlet hpi he hd hhead
    obtain ⟨L, hL⟩ := Table.exists_lookup? (hnaming.table hpi he hx).1
    have hRL : R = L := by
      rw [hsplit, List.getLast?_append_cons] at hlast
      exact hnaming.rightOperand_eq ht' hpi he hx hlast hR hL (fun y hy => (hfree L hL y hy).1)
        fun y hy => (hfree L hL y hy).2
    exact ⟨L, R, hL, hR, by rw [hRL, Term.equivalent_refl]⟩

/-- After `x = 1` and `y = 2` the statement `x = f(y)` binds `x` to `f(y)`, although it ends with
`f(2)`: the rule for `x` stands first, and that for `y` comes too late. -/
theorem assignment_binds_unfinished_definition :
    let s := typed 1 ["x = 1", "y = 2"]
    let d : Term := .unary "f" (.sym "y")
    let q : Queued := ⟨0, "x = f(y)", .binary "$let" (.sym "x") d⟩
    let value : Term := .unary "f" (.const 2)
    s.Reachable ∧ s.table.Avoids "$let" ∧ (s.reduceOne 2 q).result = .ok () ∧
      (s.reduceOne 2 q).session.results.getLast? =
        some [.binary "$let" (.sym "x") d, .binary "$let" d d, .binary "$let" value value] ∧
      (s.reduceOne 2 q).session.lookup? "x" = some d ∧
      ¬ ∃ L R, (s.reduceOne 2 q).session.lookup? "x" = some L ∧
        (Term.binary "$let" value value).rightOperand? = some R ∧ L.equivalent R = true := by
  intro s d q value
  have hs : s.Reachable := reachable_typed 1 _
  have hlet : s.table.Avoids "$let" := avoids_typed_values
  have hreduce : s.table.reduce 2 s.ceiling q.term =
      (.ok [.binary "$let" (.sym "x") d, .binary "$let" d d, .binary "$let" value value],
        ⟨Rule.builtin ++ [.substitution "x" d, .substitution "y" (.const 2)]⟩) := by
    have hname : Table.scan
        ⟨Rule.builtin ++ [.substitution "x" (.const 1), .substitution "y" (.const 2)]⟩
        (.binary "$let" (.sym "x") d) 0 = .changed 8 (.binary "$let" d d)
          ⟨Rule.builtin ++ [.substitution "x" d, .substitution "y" (.const 2)]⟩ := by
      with_unfolding_all rfl
    have hparts : Table.scan ⟨Rule.builtin ++ [.substitution "x" d, .substitution "y" (.const 2)]⟩
        (.binary "$let" d d) 0 = .changed 9 (.binary "$let" value value)
          ⟨Rule.builtin ++ [.substitution "x" d, .substitution "y" (.const 2)]⟩ := by
      with_unfolding_all rfl
    have hend : Table.scan ⟨Rule.builtin ++ [.substitution "x" d, .substitution "y" (.const 2)]⟩
        (.binary "$let" value value) 0 =
          .unchanged ⟨Rule.builtin ++ [.substitution "x" d, .substitution "y" (.const 2)]⟩ := by
      with_unfolding_all rfl
    rw [table_typed_values, ceiling_typed_values]
    simp only [Table.reduce, Table.run, Ceiling.rewrites, Run.cons, q, hname, hparts, hend]
  obtain ⟨hresult, htable', hresults⟩ := reduceOne_of_reduce hreduce
  have htrace : (s.reduceOne 2 q).session.results.getLast? =
      some [.binary "$let" (.sym "x") d, .binary "$let" d d, .binary "$let" value value] := by
    rw [hresults, List.getLast?_concat]
  have hlookup : (s.reduceOne 2 q).session.lookup? "x" = some d := by
    rw [Session.lookup?, htable']
    rfl
  have hrenamers : (s.reduceOne 2 q).session.table.renamers "y" = 1 := by
    rw [htable']
    decide +kernel
  refine ⟨hs, hlet, hresult, htrace, hlookup, fun hvalue => ?_⟩
  obtain ⟨-, hfree⟩ := (assignment_binds_value_iff (q := q) hs rfl (by decide) (by decide)
    (by decide) rfl hlet hresult htrace rfl).1 hvalue
  have hzero := (hfree d hlookup "y" rfl).1
  omega

end Session

end TermCalc
