import TermCalc.Proofs.Reduction.NormalForm

/-!
# The tables of sessions

A session only ever binds names, so its table holds the builtin rules and then substitutions. There
is one operation for assignments, and it stands behind the two constants. A scan therefore makes the
assignments of its term once, and only if no constant occurs in the term; from then on its table is
fixed.

## Main definitions

* `Table.OfSession t`: the shape of the tables of sessions
* `Term.bindings v`: the bindings that a scan of `v` makes in a session
* `Table.Step t v place w`: the first rule of the table `t` that changes `v`

## Main results

* `OfSession.bindAll_bindings`: a scan keeps the shape of the table
* `OfSession.protects_iff`: the names that an assignment warns of
* `OfSession.scan_of_step`, `OfSession.scan_of_normal`: what a scan does in a session
* `Rewriting.step_cases`: what the first step of a rewriting does in a session
* `Rewriting.split`: a property of table and term that every step keeps holds all along a rewriting
-/

namespace TermCalc

/-- The bindings that a scan of a term makes in a session: its assignments, unless one of the
constants still occurs in it. -/
def Term.bindings (v : Term) : List Binding :=
  if v.mentions "pi" ∨ v.mentions "e" then [] else v.assignments

/-- A substitution for another name than those of the two constants. -/
def Rule.OfUser (r : Rule) : Prop :=
  ∃ name u, r = .substitution name u ∧ name ≠ "pi" ∧ name ≠ "e"

namespace Table

/-- The shape of the tables of sessions: the builtin rules, then substitutions for other names than
those of the constants. No name is renamed by two rules. -/
structure OfSession (t : Table) : Prop where
  exists_user : ∃ user, t.rules = Rule.builtin ++ user ∧ ∀ r ∈ user, r.OfUser
  renamers_le_one : ∀ name, t.renamers name ≤ 1

variable {t t' : Table} {v w : Term} {k : Nat}

/-! ## Binding keeps the shape -/

/-- A builtin rule renames no name but those of the constants. -/
theorem not_renames_builtin {name : String} (hpi : name ≠ "pi") (he : name ≠ "e") :
    ∀ r ∈ Rule.builtin, r.renames name = false := by
  intro r hr
  simp only [Rule.builtin, List.mem_cons, List.not_mem_nil, or_false] at hr
  rcases hr with rfl | rfl | hr
  · exact renames_substitution_of_ne (Ne.symm hpi)
  · exact renames_substitution_of_ne (Ne.symm he)
  · rcases hr with rfl | rfl | rfl | rfl | rfl | rfl <;> rfl

theorem ofSession_default : Table.default.OfSession := by
  refine ⟨⟨[], (List.append_nil _).symm, fun r hr => absurd hr List.not_mem_nil⟩, fun name => ?_⟩
  by_cases hpi : name = "pi"
  · subst hpi
    decide +kernel
  · by_cases he : name = "e"
    · subst he
      decide +kernel
    · have hnone : Table.default.renamers name = 0 :=
        renamers_eq_zero_iff.2 (not_renames_builtin hpi he)
      omega

theorem OfSession.standard (ht : t.OfSession) : t.Standard := by
  obtain ⟨user, hrules, huser⟩ := ht.exists_user
  intro r hr
  rw [hrules, List.mem_append] at hr
  rcases hr with hr | hr
  · exact standard_default r hr
  · obtain ⟨name, u, rfl, -, -⟩ := huser r hr
    exact .substitution name u

theorem renamers_bind_le_one {b : Binding} (h : ∀ name, t.renamers name ≤ 1) (name : String) :
    (t.bind b).renamers name ≤ 1 := by
  have hname := h name
  by_cases hb : b.name = name
  · subst hb
    by_cases hd : b.definition = .sym b.name
    · rw [(renamers_bind_self t b).2 hd]
      omega
    · rw [(renamers_bind_self t b).1 hd]
      omega
  · rwa [renamers_bind_of_ne hb]

theorem OfSession.bind (ht : t.OfSession) {b : Binding} (hpi : b.name ≠ "pi") (he : b.name ≠ "e") :
    (t.bind b).OfSession := by
  obtain ⟨user, hrules, huser⟩ := ht.exists_user
  refine ⟨?_, renamers_bind_le_one ht.renamers_le_one⟩
  have hnew : (Rule.substitution b.name b.definition).OfUser := ⟨_, _, rfl, hpi, he⟩
  rcases bind_cases t b with ⟨before, u, after, hbefore, hu, -, hb⟩ | ⟨-, hb⟩
  · have hbuiltin : ∃ kept, before = Rule.builtin ++ kept ∧
        user = kept ++ .substitution b.name u :: after := by
      rw [hrules, List.append_eq_append_iff] at hbefore
      rcases hbefore with h | ⟨kept, hkept, huser'⟩
      · exact h
      · cases kept with
        | nil => exact ⟨[], by simpa using hkept.symm, by simpa using huser'.symm⟩
        | cons r kept =>
          obtain ⟨rfl, -⟩ := List.cons.inj huser'
          have hren := not_renames_builtin hpi he (.substitution b.name u) (by simp [hkept])
          rw [renames_substitution_self.2 hu] at hren
          exact Bool.noConfusion hren
    obtain ⟨kept, rfl, rfl⟩ := hbuiltin
    refine ⟨kept ++ .substitution b.name b.definition :: after, by rw [hb, List.append_assoc], ?_⟩
    intro r hr
    rcases List.mem_append.1 hr with hr | hr
    · exact huser r (List.mem_append_left _ hr)
    · rcases List.mem_cons.1 hr with rfl | hr
      · exact hnew
      · exact huser r (List.mem_append_right _ (List.mem_cons_of_mem _ hr))
  · refine ⟨user ++ [.substitution b.name b.definition], by rw [hb, hrules, List.append_assoc], ?_⟩
    intro r hr
    rcases List.mem_append.1 hr with hr | hr
    · exact huser r hr
    · exact List.mem_singleton.1 hr ▸ hnew

theorem OfSession.bindAll (ht : t.OfSession) {bs : List Binding}
    (h : ∀ b ∈ bs, b.name ≠ "pi" ∧ b.name ≠ "e") : (t.bindAll bs).OfSession := by
  induction bs generalizing t with
  | nil => exact ht
  | cons b bs ih =>
    obtain ⟨hpi, he⟩ := h b List.mem_cons_self
    exact ih (ht.bind hpi he) fun c hc => h c (List.mem_cons_of_mem _ hc)

/-- A scan binds neither of the constants. -/
theorem ne_of_mem_bindings {b : Binding} (h : b ∈ v.bindings) : b.name ≠ "pi" ∧ b.name ≠ "e" := by
  unfold Term.bindings at h
  split_ifs at h with hv
  · exact absurd h List.not_mem_nil
  · have hmentions := Rule.mentions_of_mem_assignments h
    constructor
    · intro hname
      exact hv (.inl (hname ▸ hmentions))
    · intro hname
      exact hv (.inr (hname ▸ hmentions))

/-- A scan keeps the shape of the table. -/
theorem OfSession.bindAll_bindings (ht : t.OfSession) (v : Term) :
    (t.bindAll v.bindings).OfSession :=
  ht.bindAll fun _ hb => ne_of_mem_bindings hb

theorem OfSession.mem_builtin (ht : t.OfSession) {r : Rule} (hr : r ∈ Rule.builtin) :
    r ∈ t.rules := by
  obtain ⟨user, hrules, -⟩ := ht.exists_user
  exact hrules ▸ List.mem_append_left _ hr

/-- The rules of one name that rename it are all the same. -/
theorem OfSession.eq_of_renames (ht : t.OfSession) {q r : Rule} {name : String} (hq : q ∈ t.rules)
    (hr : r ∈ t.rules) (hqname : q.renames name = true) (hrname : r.renames name = true) :
    q = r := by
  have hle := ht.renamers_le_one name
  rw [renamers, List.countP_eq_length_filter] at hle
  have hqmem : q ∈ t.rules.filter (Rule.renames name) := List.mem_filter.2 ⟨hq, hqname⟩
  have hrmem : r ∈ t.rules.filter (Rule.renames name) := List.mem_filter.2 ⟨hr, hrname⟩
  have hlength := Nat.le_antisymm hle (List.length_pos_of_mem hqmem)
  obtain ⟨p, hp⟩ := List.length_eq_one_iff.1 hlength
  rw [hp] at hqmem hrmem
  rw [List.mem_singleton.1 hqmem, List.mem_singleton.1 hrmem]

/-- A substitution for another name than those of the constants stands behind all operations. -/
theorem OfSession.builtin_ahead (ht : t.OfSession) {place : Nat} {name : String} {u : Term}
    (h : t.rules[place]? = some (.substitution name u)) (hpi : name ≠ "pi") (he : name ≠ "e") :
    ∀ r ∈ Rule.builtin, r ∈ t.rules.take place := by
  obtain ⟨user, hrules, -⟩ := ht.exists_user
  have hplace : Rule.builtin.length ≤ place := by
    by_contra hlt
    rw [hrules, List.getElem?_append_left (Nat.lt_of_not_le hlt)] at h
    have hmem := List.mem_of_getElem? h
    simp [Rule.builtin, Rule.ofOperation, hpi, he] at hmem
  intro r hr
  rw [hrules, List.take_append, List.take_of_length_le hplace]
  exact List.mem_append_left _ hr

/-! ## What a scan binds -/

/-- In the first `k` rules of a table of a session the assignments of a term are made at most once:
by the rule behind the two constants. -/
theorem OfSession.flatMap_take (ht : t.OfSession) (v : Term) (k : Nat) :
    ((t.rules.take k).flatMap fun r => r.bindings v) = if 2 < k then v.assignments else [] := by
  obtain ⟨user, hrules, huser⟩ := ht.exists_user
  rw [hrules]
  match k with
  | 0 => rfl
  | 1 => rfl
  | 2 => rfl
  | k + 3 =>
    have hassign : (Rule.ofOperation .assign).bindings v = v.assignments := by
      rw [Rule.bindings_ofOperation]
      rfl
    have hnone : ((((Rule.builtin.drop 3) ++ user).take k).flatMap fun r => r.bindings v) = [] := by
      apply List.flatMap_eq_nil_iff.2
      intro r hr
      rcases List.mem_append.1 (List.mem_of_mem_take hr) with hr | hr
      · simp only [Rule.builtin, List.drop_succ_cons, List.drop_zero, List.mem_cons,
          List.not_mem_nil, or_false] at hr
        rcases hr with rfl | rfl | rfl | rfl | rfl <;> exact Rule.bindings_ofOperation _ _
      · obtain ⟨name, u, rfl, -, -⟩ := huser r hr
        rfl
    rw [if_pos (by omega)]
    have hsplit : (Rule.builtin ++ user).take (k + 3) =
        .substitution "pi" (.const Rule.piValue) :: .substitution "e" (.const Rule.eValue) ::
          Rule.ofOperation .assign :: (Rule.builtin.drop 3 ++ user).take k := rfl
    rw [hsplit, List.flatMap_cons, List.flatMap_cons, List.flatMap_cons, hassign, hnone,
      List.append_nil]
    rfl

theorem OfSession.visited_of_le (ht : t.OfSession) (hk : k ≤ 2) : t.visited v k = t := by
  rw [visited, ht.flatMap_take, if_neg (by omega), bindAll_nil]

theorem OfSession.visited_of_lt (ht : t.OfSession) (hk : 2 < k) :
    t.visited v k = t.bindAll v.assignments := by
  rw [visited, ht.flatMap_take, if_pos hk]

/-- The rules ahead of the assignment are those of the constants. -/
theorem OfSession.met?_zero (ht : t.OfSession) :
    t.met? v 0 = some (.substitution "pi" (.const Rule.piValue)) := by
  obtain ⟨user, hrules, -⟩ := ht.exists_user
  rw [met?, visited_zero, hrules]
  rfl

theorem OfSession.met?_one (ht : t.OfSession) :
    t.met? v 1 = some (.substitution "e" (.const Rule.eValue)) := by
  obtain ⟨user, hrules, -⟩ := ht.exists_user
  rw [met?, ht.visited_of_le (by omega), hrules]
  rfl

theorem OfSession.met?_two (ht : t.OfSession) : t.met? v 2 = some (Rule.ofOperation .assign) := by
  obtain ⟨user, hrules, -⟩ := ht.exists_user
  rw [met?, ht.visited_of_le (by omega), hrules]
  rfl

/-- A substitution of a constant changes the terms in which its name occurs. -/
theorem changes_const_iff {name : String} {x : Float} :
    (Rule.substitution name (.const x)).Changes v ↔ v.mentions name = true := by
  rw [Rule.changes_substitution_iff, renames_substitution_self]
  simp

/-- In a session only the constants are protected. -/
theorem OfSession.protects_iff (ht : t.OfSession) {name : String} :
    t.protects name = true ↔ name = "pi" ∨ name = "e" := by
  obtain ⟨user, hrules, -⟩ := ht.exists_user
  have hsym : ∀ x : Float, Term.equivalent (.sym name) (.const x) = false := fun _ => rfl
  have htag : Operation.assign.tag = "$let" := rfl
  have hprotects : t.protects name = ("pi" == name || "e" == name) := by
    simp only [protects, hrules, Rule.builtin, Rule.ofOperation, List.cons_append, protectsIn,
      Rule.renames, hsym, htag, Bool.not_false, Bool.and_true, Bool.or_false, if_true]
  rw [hprotects, Bool.or_eq_true, beq_iff_eq, beq_iff_eq, eq_comm, @eq_comm _ "e"]

/-- Neither of the constants occurs in a term that the builtin rules do not change. -/
theorem not_mentions_constants (h : ∀ r ∈ Rule.builtin, ¬ r.Changes v) :
    v.mentions "pi" = false ∧ v.mentions "e" = false := by
  have hpi : Rule.substitution "pi" (.const Rule.piValue) ∈ Rule.builtin := by
    simp [Rule.builtin]
  have he : Rule.substitution "e" (.const Rule.eValue) ∈ Rule.builtin := by
    simp [Rule.builtin]
  constructor
  · simpa using mt changes_const_iff.2 (h _ hpi)
  · simpa using mt changes_const_iff.2 (h _ he)

/-- A scan that gets past the constants makes the assignments of its term. -/
theorem OfSession.bindings_of_reaches (ht : t.OfSession) (h : t.Reaches v 2) :
    v.bindings = v.assignments := by
  have hpi := mt changes_const_iff.2 (h 0 (by omega) _ ht.met?_zero)
  have he := mt changes_const_iff.2 (h 1 (by omega) _ ht.met?_one)
  rw [Term.bindings, if_neg (not_or.2 ⟨hpi, he⟩)]

/-- A scan ends at a constant and binds nothing, or it ends behind the assignment and has made the
assignments of its term. -/
theorem FirstChange.place_cases (ht : t.OfSession) {place : Nat} (h : t.FirstChange v place w) :
    place < 2 ∧ v.bindings = [] ∨ 2 < place ∧ v.bindings = v.assignments := by
  obtain ⟨hreaches, r, hr, hc, -⟩ := h
  match place with
  | 0 =>
    rw [ht.met?_zero, Option.some.injEq] at hr
    exact .inl ⟨by omega, if_pos (.inl (changes_const_iff.1 (hr ▸ hc)))⟩
  | 1 =>
    rw [ht.met?_one, Option.some.injEq] at hr
    exact .inl ⟨by omega, if_pos (.inr (changes_const_iff.1 (hr ▸ hc)))⟩
  | 2 =>
    rw [ht.met?_two, Option.some.injEq] at hr
    subst hr
    rw [Rule.Changes, Rule.output_ofOperation, Operation.everywhere_assign] at hc
    exact absurd (Term.equivalent_refl v) hc
  | k + 3 => exact .inr ⟨by omega, ht.bindings_of_reaches (hreaches.mono (by omega))⟩

/-- The table that a scan has made when it stops is the table with the bindings of the term. -/
theorem FirstChange.visited_eq (ht : t.OfSession) {place : Nat} (h : t.FirstChange v place w) :
    t.visited v place = t.bindAll v.bindings := by
  rcases h.place_cases ht with ⟨hplace, hbindings⟩ | ⟨hplace, hbindings⟩
  · rw [hbindings, ht.visited_of_le (by omega), bindAll_nil]
  · rw [hbindings, ht.visited_of_lt hplace]

theorem OfSession.two_lt_length (ht : t.OfSession) : 2 < t.rules.length := by
  obtain ⟨user, hrules, -⟩ := ht.exists_user
  rw [hrules, List.length_append]
  exact Nat.lt_of_lt_of_le (by decide) (Nat.le_add_right _ _)

/-- So it is when the scan has gone through the whole table. -/
theorem OfSession.visited_eq_of_reaches (ht : t.OfSession) (h : ∀ k, t.Reaches v k) :
    t.visited v t.rules.length = t.bindAll v.bindings := by
  rw [ht.bindings_of_reaches (h 2), ht.visited_of_lt ht.two_lt_length]

/-! ## Rewritings in a session -/

/-- The first rule of the table that changes `v` stands at that place and makes `w` of it. -/
def Step (t : Table) (v : Term) (place : Nat) (w : Term) : Prop :=
  ∃ r, t.rules[place]? = some r ∧ r.Changes v ∧ r.output v = w ∧
    ∀ q ∈ t.rules.take place, ¬ q.Changes v

theorem mem_take_of_getElem? {rules : List Rule} {r : Rule} {i : Nat} (h : rules[i]? = some r)
    (hi : i < k) : r ∈ rules.take k :=
  List.mem_of_getElem? (by rwa [List.getElem?_take_of_lt hi])

/-- There is only one first rule that changes a term. -/
theorem Step.unique {u : Term} {i j : Nat} (hu : t.Step v i u) (hw : t.Step v j w) :
    i = j ∧ u = w := by
  obtain ⟨q, hq, hqc, rfl, hqfirst⟩ := hu
  obtain ⟨r, hr, hrc, rfl, hrfirst⟩ := hw
  -- the rule that stands further ahead would have changed the term first
  rcases Nat.lt_trichotomy i j with hij | rfl | hij
  · exact absurd hqc (hrfirst q (mem_take_of_getElem? hq hij))
  · rw [hq, Option.some.injEq] at hr
    exact ⟨rfl, by rw [hr]⟩
  · exact absurd hrc (hqfirst r (mem_take_of_getElem? hr hij))

theorem FirstChange.step (ht : t.OfSession) {place : Nat} (h : t.FirstChange v place w) :
    (t.bindAll v.bindings).Step v place w := by
  rw [← h.visited_eq ht]
  obtain ⟨hreaches, r, hr, hc, hw⟩ := h
  exact ⟨r, hr, hc, hw, hreaches.unchanged ht.standard⟩

/-- A scan in a session makes the bindings of its term and ends at the first rule that changes it. -/
theorem OfSession.scan_of_step (ht : t.OfSession) {place : Nat}
    (h : (t.bindAll v.bindings).Step v place w) :
    t.scan v 0 = .changed place w (t.bindAll v.bindings) := by
  rcases scan_cases ht.standard v with ⟨-, hreaches⟩ | ⟨place', w', hscan, hfirst⟩
  · have hnormal := normal_of_reaches ht.standard hreaches
    rw [ht.visited_eq_of_reaches hreaches] at hnormal
    obtain ⟨r, hr, hc, -⟩ := h
    exact absurd hc (hnormal r (List.mem_of_getElem? hr))
  · obtain ⟨rfl, rfl⟩ := h.unique (hfirst.step ht)
    rw [hscan, hfirst.visited_eq ht]

/-- A scan in a session that has made the bindings of its term goes through the whole table if no
rule changes the term then. -/
theorem OfSession.scan_of_normal (ht : t.OfSession) (h : (t.bindAll v.bindings).Normal v) :
    t.scan v 0 = .unchanged (t.bindAll v.bindings) := by
  rcases scan_cases ht.standard v with ⟨hscan, hreaches⟩ | ⟨place, w, -, hfirst⟩
  · rw [hscan, ht.visited_eq_of_reaches hreaches]
  · obtain ⟨r, hr, hc, -⟩ := hfirst.step ht
    exact absurd hc (h r (List.mem_of_getElem? hr))

/-- In a session the first term of a rewriting makes its bindings, and then it is normal or the
first rule that changes it makes the next term of it. -/
theorem Rewriting.step_cases {vs : List Term} (h : Rewriting t (v :: vs) t') (ht : t.OfSession) :
    (vs = [] ∧ t' = t.bindAll v.bindings ∧ t'.Normal v) ∨
    ∃ w ws place, vs = w :: ws ∧ (t.bindAll v.bindings).Step v place w ∧
      Rewriting (t.bindAll v.bindings) (w :: ws) t' := by
  cases h with
  | normal hreaches =>
    left
    refine ⟨rfl, ht.visited_eq_of_reaches hreaches, ?_⟩
    exact normal_of_reaches ht.standard hreaches
  | @step _ _ _ w ws place hstep hrest =>
    right
    refine ⟨w, ws, place, rfl, hstep.step ht, ?_⟩
    rwa [← hstep.visited_eq ht]

/-- A property of the table and the term of a scan that every step keeps holds all along a
rewriting. At each of its terms the table holds the bindings of the terms before. -/
theorem Rewriting.split {I : Table → Term → Prop}
    (hstep : ∀ s v place w, s.OfSession → I s v → (s.bindAll v.bindings).Step v place w →
      I (s.bindAll v.bindings) w)
    {before rest : List Term} {u : Term} (h : Rewriting t (before ++ u :: rest) t')
    (ht : t.OfSession) (hI : ∀ v, (before ++ u :: rest).head? = some v → I t v) :
    (t.bindAll (before.flatMap Term.bindings)).OfSession ∧
      I (t.bindAll (before.flatMap Term.bindings)) u ∧
      Rewriting (t.bindAll (before.flatMap Term.bindings)) (u :: rest) t' := by
  induction before generalizing t with
  | nil => exact ⟨ht, hI u rfl, h⟩
  | cons v before ih =>
    rcases h.step_cases ht with ⟨hnil, -, -⟩ | ⟨w, ws, place, hws, hfirst, hrest⟩
    · simp at hnil
    · replace hws : before ++ u :: rest = w :: ws := hws
      rw [← hws] at hrest
      rw [List.flatMap_cons, bindAll_append]
      apply ih hrest (ht.bindAll_bindings v)
      intro w' hw'
      rw [hws, List.head?_cons, Option.some.injEq] at hw'
      exact hw' ▸ hstep t v place w ht (hI v rfl) hfirst

/-- The table at the end of a rewriting is the first one with the bindings of all terms. -/
theorem Rewriting.table_eq {trace : List Term} (h : Rewriting t trace t') (ht : t.OfSession) :
    t' = t.bindAll (trace.flatMap Term.bindings) := by
  obtain ⟨before, last, rfl⟩ := List.eq_nil_or_concat trace |>.resolve_left h.ne_nil
  rw [List.concat_eq_append] at h ⊢
  obtain ⟨hs, -, hlast⟩ := h.split (I := fun _ _ => True) (fun _ _ _ _ _ _ _ => trivial) ht
    fun _ _ => trivial
  rcases hlast.step_cases hs with ⟨-, ht', -⟩ | ⟨w, ws, place, hws, -, -⟩
  · rw [ht', List.flatMap_append, bindAll_append, List.flatMap_singleton]
  · simp at hws

theorem Rewriting.ofSession {trace : List Term} (h : Rewriting t trace t') (ht : t.OfSession) :
    t'.OfSession := by
  rw [h.table_eq ht]
  apply ht.bindAll
  intro b hb
  obtain ⟨v, -, hb⟩ := List.mem_flatMap.1 hb
  exact ne_of_mem_bindings hb

end Table

end TermCalc
