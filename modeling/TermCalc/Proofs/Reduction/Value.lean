import TermCalc.Proofs.Reduction.Termination
import TermCalc.Proofs.Rule.Value

/-!
# Reduction computes values

In a table in which all names stand for numbers, an arithmetic term whose value can be computed is
reduced to that value. Reduction takes its rules in the order of the table and everywhere at once,
so numbers are put in and operations are carried out in turns, and operands may be dropped before
they have been computed. But each rewrite keeps the value, and a term that has a value and is no
constant can be rewritten.

## Main definitions

* `Table.ofNumbers bs`: the builtin rules and the numbers `bs` of further names
* `Table.constant? t name`: the number of a symbol
* `Table.Numeric t`: all names of `t` stand for numbers, and the operations are there
* `Table.EndsWith t v last`: the reduction of `v` ends by itself, and with `last`

## Main results

* `Numeric.sameValue_of_firstChange`: a rewrite keeps the value
* `Numeric.exists_const_of_normal`: a normal form that has a value is a constant
* `reduce_computes_value`: the result of the reduction is the value
-/

namespace TermCalc

namespace Table

variable {t t' : Table} {v w : Term} {x : Float}

/-! ## Tables of numbers -/

/-- The number of a symbol, if the first substitution for it puts a constant in its place. -/
def constant? (t : Table) (name : String) : Option Float :=
  match t.lookup? name with
  | some (.const x) => some x
  | _ => none

/-- The builtin rules, followed by numbers for names. -/
def ofNumbers (bs : List (String × Float)) : Table :=
  ⟨Rule.builtin ++ bs.map fun b => .substitution b.1 (.const b.2)⟩

/-- All builtin operations are there, and every other rule puts a number in the place of a name that
is not one of their tags. -/
structure Numeric (t : Table) : Prop where
  standard : t.Standard
  operation : ∀ op, Rule.ofOperation op ∈ t.rules
  number : ∀ name u, .substitution name u ∈ t.rules →
    (∃ c, u = .const c) ∧ ∀ op : Operation, name ≠ op.tag

theorem constant?_eq_some_iff {name : String} {c : Float} :
    t.constant? name = some c ↔ t.lookup? name = some (.const c) := by
  unfold constant?
  split
  · next y h => rw [h, Option.some.injEq, Option.some.injEq, Term.const.injEq]
  · next h =>
    constructor
    · intro h'
      cases h'
    · intro h'
      exact absurd h' (h c)

theorem Numeric.constant?_tag (ht : t.Numeric) (op : Operation) : t.constant? op.tag = none := by
  cases h : t.constant? op.tag with
  | none => rfl
  | some c =>
    have hmem := mem_of_lookup? (constant?_eq_some_iff.1 h)
    exact absurd rfl ((ht.number _ _ hmem).2 op)

theorem Numeric.avoids (ht : t.Numeric) (name : String) : t.Avoids name := by
  intro n u hu
  obtain ⟨⟨c, rfl⟩, -⟩ := ht.number n u hu
  rfl

/-- The numbers of a numeric table can be ranked: there is nothing to replace in them. -/
theorem Numeric.ranked (ht : t.Numeric) : t.Ranked fun _ => 0 := by
  intro name u hu _ y hy
  rw [ht.avoids y name u hu] at hy
  exact absurd hy Bool.false_ne_true

/-- Without a ceiling the reduction of a term without an assignment ends in a numeric table. -/
theorem Numeric.exists_reduce (ht : t.Numeric) (hv : v.mentions "$let" = false) :
    ∃ trace n, ∀ patience ≥ n, t.reduce patience .unlimited v = (.ok trace, t) := by
  have hW := ht.ranked.weighs_charge fun name u hu => (ht.number name u hu).2
  obtain ⟨trace, -, hreduce⟩ := hW.exists_reduce ht.standard (ht.avoids _) hv
  exact ⟨trace, hreduce⟩

theorem numeric_ofNumbers {bs : List (String × Float)}
    (h : ∀ b ∈ bs, ∀ op : Operation, b.1 ≠ op.tag) : (ofNumbers bs).Numeric where
  standard r hr := by
    rcases List.mem_append.1 hr with hr | hr
    · exact standard_default r hr
    · obtain ⟨b, -, rfl⟩ := List.mem_map.1 hr
      exact .substitution _ _
  operation op := by
    apply List.mem_append_left
    cases op <;> simp [Rule.builtin]
  number name u hu := by
    rcases List.mem_append.1 hu with hu | hu
    · have hcases : name = "pi" ∧ u = .const Rule.piValue ∨ name = "e" ∧ u = .const Rule.eValue := by
        simpa [Rule.builtin, Rule.ofOperation] using hu
      rcases hcases with ⟨rfl, rfl⟩ | ⟨rfl, rfl⟩
      · exact ⟨⟨_, rfl⟩, fun op => by cases op <;> decide⟩
      · exact ⟨⟨_, rfl⟩, fun op => by cases op <;> decide⟩
    · obtain ⟨b, hb, heq⟩ := List.mem_map.1 hu
      obtain ⟨rfl, rfl⟩ := Rule.substitution.inj heq
      exact ⟨⟨_, rfl⟩, h b hb⟩

theorem numeric_default : default.Numeric := by
  have h : (ofNumbers []).Numeric := numeric_ofNumbers fun b hb => absurd hb List.not_mem_nil
  rwa [ofNumbers, List.map_nil, List.append_nil] at h

/-! ## Terms with a value -/

/-- A symbol without a number occurs in a term with a value only as the tag of an arithmetic
operation. -/
theorem Numeric.not_mentions_assign (ht : t.Numeric) (hv : v.value? t.constant? = some x) :
    v.mentions "$let" = false := by
  induction v using Term.induction generalizing x with
  | const y => rfl
  | lam params body => rfl
  | sym name =>
    rw [Term.mentions_sym_eq_false]
    rintro rfl
    have hnone : t.constant? "$let" = none := ht.constant?_tag .assign
    rw [(Term.value?_sym_eq_some_iff.1 hv).1] at hnone
    cases hnone
  | app head args _ ha =>
    obtain ⟨op, xs, rfl, hxs, hcompute, -⟩ := Term.value?_app_eq_some_iff.1 hv
    refine Term.mentions_app_eq_false.2 ⟨?_, ?_⟩
    · rw [Term.mentions_sym_eq_false]
      cases hcompute <;> decide
    · intro a hmem
      obtain ⟨y, hy⟩ := Term.exists_value?_of_mem hxs hmem
      exact ha a hmem hy

/-! ## Rewrites keep the value -/

/-- If no rule ahead of a substitution changes a term with its symbol, then the substitution is the
first for that symbol, so it puts the right number in. -/
theorem Numeric.constant?_of_reaches (ht : t.Numeric) {place : Nat} {name : String} {c : Float}
    (hreaches : ∀ k < place, ∀ r, t.rules[k]? = some r → ¬ r.Changes v)
    (hr : t.rules[place]? = some (.substitution name (.const c))) (hv : v.mentions name = true) :
    t.constant? name = some c := by
  obtain ⟨hplace, hrule⟩ := List.getElem?_eq_some_iff.1 hr
  rw [constant?_eq_some_iff, lookup?, List.findSome?_eq_some_iff]
  refine ⟨t.rules.take place, .substitution name (.const c), t.rules.drop (place + 1), ?_, ?_, ?_⟩
  · rw [← hrule, ← List.drop_eq_getElem_cons hplace, List.take_append_drop]
  · simp [Rule.replacement?]
  · intro q hq
    obtain ⟨k, hk, rfl⟩ := List.mem_take_iff_getElem.1 hq
    have hunchanged := hreaches k (by omega) _ (List.getElem?_eq_getElem (by omega))
    cases hq' : t.rules[k] with
    | operation => rfl
    | substitution n u =>
      rw [Rule.replacement?, if_neg]
      rintro rfl
      obtain ⟨⟨d, rfl⟩, -⟩ := ht.number n u (hq' ▸ List.getElem_mem _)
      apply hunchanged
      rw [hq', Rule.changes_substitution_iff]
      exact ⟨Rule.renames_iff.2 ⟨_, rfl, by simp⟩, hv⟩

/-- The first rule that changes a term keeps its value. -/
theorem Numeric.sameValue_of_firstChange (ht : t.Numeric) (hv : v.mentions "$let" = false)
    {place : Nat} (h : t.FirstChange v place w) : v.SameValue t.constant? w := by
  obtain ⟨hreaches, r, hr, hc, rfl⟩ := h
  simp only [Reaches, met?, visited_of_free ht.standard hv] at hreaches hr
  have hmem := List.mem_of_getElem? hr
  have hstd := ht.standard r hmem
  cases hstd with
  | substitution name u =>
    obtain ⟨⟨c, rfl⟩, htag⟩ := ht.number name u hmem
    have hmentions := (Rule.changes_substitution_iff.1 hc).2
    have hc' := ht.constant?_of_reaches hreaches hr hmentions
    exact Rule.sameValue_substitute hc' htag v
  | builtin op =>
    rw [Rule.output_ofOperation]
    exact Operation.sameValue_everywhere op v

/-- A rewriting keeps the value. -/
theorem Numeric.sameValue_of_rewriting {trace : List Term} (ht : t.Numeric)
    (h : Rewriting t trace t') (hhead : trace.head? = some v) (hv : v.mentions "$let" = false) :
    ∃ last, trace.getLast? = some last ∧ v.SameValue t.constant? last := by
  -- induction on the rewriting: the table stays what it is, and so does the value at each step
  induction h generalizing v with
  | @normal t u hu =>
    obtain rfl : u = v := Option.some.inj hhead
    exact ⟨u, rfl, .refl u⟩
  | @step t t' u w vs place hstep hrest ih =>
    obtain rfl : u = v := Option.some.inj hhead
    rw [visited_of_free ht.standard hv] at ih
    obtain ⟨-, r, hr, -, hw⟩ := id hstep
    rw [met?, visited_of_free ht.standard hv] at hr
    have hfree := (ht.avoids "$let").not_mentions_output ht.standard (List.mem_of_getElem? hr) hv
    obtain ⟨last, hlast, hvalue⟩ := ih ht rfl (hw ▸ hfree)
    refine ⟨last, ?_, (ht.sameValue_of_firstChange hv hstep).trans hvalue⟩
    rw [List.getLast?_cons_cons, hlast]

/-! ## Normal forms -/

/-- No rule changes an argument of a normal form. -/
theorem Normal.of_mem_args (hstd : t.Standard) {head a : Term} {args : List Term}
    (h : t.Normal (.app head args)) (ha : a ∈ args) : t.Normal a := by
  intro r hr
  have hself := (hstd r hr).not_changes_iff.1 (h r hr)
  rw [(hstd r hr).not_changes_iff]
  have hstd := hstd r hr
  cases hstd with
  | substitution name u =>
    rw [Rule.output_substitution, Rule.substitute_app] at hself
    have hargs := (Term.app.inj hself).2.trans (List.map_id args).symm
    exact List.map_inj_left.1 hargs a ha
  | builtin op =>
    rw [Rule.output_ofOperation] at hself ⊢
    exact (Operation.everywhere_app_eq_self_iff.1 hself).2.1 a ha

/-- A normal form that has a value is a constant. -/
theorem Numeric.exists_const_of_normal (ht : t.Numeric) (h : t.Normal v)
    (hv : v.value? t.constant? = some x) : v = .const x := by
  induction v using Term.induction generalizing x with
  | const y => rw [(Term.value?_const_eq_some_iff.1 hv).1]
  | lam params body => exact absurd hv (by simp [Term.value?])
  | sym name =>
    have hmem := mem_of_lookup? (constant?_eq_some_iff.1 (Term.value?_sym_eq_some_iff.1 hv).1)
    refine absurd ?_ (h _ hmem)
    rw [Rule.changes_substitution_iff]
    exact ⟨Rule.renames_iff.2 ⟨_, rfl, by simp⟩, Term.mentions_sym.2 rfl⟩
  | app head args _ ha =>
    obtain ⟨op, xs, rfl, hxs, hcompute, -⟩ := Term.value?_app_eq_some_iff.1 hv
    have hargs : args = xs.map .const := by
      rw [← List.forall₂_eq_eq_eq, List.forall₂_map_right_iff]
      exact Term.forall₂_of_forall_mem hxs fun a hmem y hy =>
        ha a hmem (h.of_mem_args ht.standard hmem) hy
    have hself := (ht.standard _ (ht.operation op)).not_changes_iff.1 (h _ (ht.operation op))
    rw [Rule.output_ofOperation] at hself
    have hclose := (Operation.everywhere_app_eq_self_iff.1 hself).2.2
    subst hargs
    cases hcompute <;> cases hclose

/-! ## Reduction to the value -/

/-- Without a ceiling the reduction of `v` ends with the term `last`, as soon as it may take enough
rewrites, and leaves the table as it is. -/
def EndsWith (t : Table) (v last : Term) : Prop :=
  ∃ trace, trace.getLast? = some last ∧
    ∃ n, ∀ patience ≥ n, t.reduce patience .unlimited v = (.ok trace, t)

theorem Numeric.exists_endsWith (ht : t.Numeric) (hv : v.value? t.constant? = some x) :
    ∃ y, (y == x) = true ∧ t.EndsWith v (.const y) := by
  have hfree := ht.not_mentions_assign hv
  obtain ⟨trace, n, hreduce⟩ := ht.exists_reduce hfree
  have hn := hreduce n (Nat.le_refl n)
  have hrewriting := rewriting_of_reduce ht.standard hn
  obtain ⟨last, hlast, hsame⟩ :=
    ht.sameValue_of_rewriting hrewriting (head?_of_reduce hn) hfree
  obtain ⟨-, last', -, hlast', -, hnormal⟩ := hrewriting.exists_last ht.standard
  obtain rfl : last = last' := Option.some.inj (hlast.symm.trans hlast')
  obtain ⟨y, hy, hxy⟩ := hsame x hv
  obtain rfl := ht.exists_const_of_normal hnormal hy
  exact ⟨y, Binary64.beq_symm hxy, trace, hlast, n, hreduce⟩

/-! ## The order of the numbers -/

variable {bs bs' : List (String × Float)}

/-- The number of a symbol among further numbers is the first one for its name. -/
theorem findSome?_numbers (bs : List (String × Float)) (name : String) :
    (bs.map fun b => Rule.substitution b.1 (.const b.2)).findSome? (Rule.replacement? name) =
      (bs.filter (·.1 == name)).head?.map fun b => Term.const b.2 := by
  induction bs with
  | nil => rfl
  | cons b bs ih =>
    by_cases hb : b.1 = name
    · simp [Rule.replacement?, hb]
    · simp [Rule.replacement?, hb, ih]

/-- If the numbers of each name come in the same order, the symbols have the same numbers. -/
theorem constant?_ofNumbers_congr
    (h : ∀ name, bs'.filter (·.1 == name) = bs.filter (·.1 == name)) :
    (ofNumbers bs').constant? = (ofNumbers bs).constant? := by
  funext name
  have hlookup : (ofNumbers bs').lookup? name = (ofNumbers bs).lookup? name := by
    simp only [lookup?, ofNumbers, List.findSome?_append, findSome?_numbers, h name]
  rw [constant?, constant?, hlookup]

/-- **Reduction computes the value of an arithmetic term.** If the value of a term can be computed
with finite numbers throughout, then the reduction of the term ends without a ceiling, and it ends
with a constant that is equal to the value. The same holds if the numbers are put in another order,
as long as those of one name stay in theirs, and the constant is then an equal one. -/
theorem reduce_computes_value (hnames : ∀ b ∈ bs, ∀ op : Operation, b.1 ≠ op.tag)
    (hv : v.value? (ofNumbers bs).constant? = some x) :
    ∃ y, (y == x) = true ∧ (ofNumbers bs).EndsWith v (.const y) ∧
      ∀ bs' : List (String × Float),
        (∀ name, bs'.filter (·.1 == name) = bs.filter (·.1 == name)) →
        ∃ y', (y' == y) = true ∧ (ofNumbers bs').EndsWith v (.const y') := by
  obtain ⟨y, hy, hends⟩ := (numeric_ofNumbers hnames).exists_endsWith hv
  refine ⟨y, hy, hends, fun bs' hbs' => ?_⟩
  have hnames' : ∀ b ∈ bs', ∀ op : Operation, b.1 ≠ op.tag := by
    intro b hb
    have hmem : b ∈ bs'.filter (·.1 == b.1) := List.mem_filter.2 ⟨hb, beq_self_eq_true _⟩
    rw [hbs'] at hmem
    exact hnames b (List.mem_filter.1 hmem).1
  rw [← constant?_ofNumbers_congr hbs'] at hv
  obtain ⟨y', hy', hends'⟩ := (numeric_ofNumbers hnames').exists_endsWith hv
  exact ⟨y', Binary64.beq_trans hy' (Binary64.beq_symm hy), hends'⟩

/-- With the numbers 0.5 for `h` and 3 for `x` the term `0 * (pi / e) - h * -(x - -1)` has the value 2.
In it the quotient is dropped before it has been computed. -/
theorem reduce_computes_two :
    let bs := [("h", 0.5), ("x", 3), ("h", 7)]
    let v : Term := .binary "$sub" (.binary "$mul" (.const 0) (.binary "$div" (.sym "pi") (.sym "e")))
      (.binary "$mul" (.sym "h")
        (.unary "$neg" (.binary "$sub" (.sym "x") (.unary "$neg" (.const 1)))))
    v.value? (ofNumbers bs).constant? = some 2 ∧
      ∃ y, (y == (2 : Float)) = true ∧ (ofNumbers bs).EndsWith v (.const y) := by
  intro bs v
  have hnames : ∀ b ∈ bs, ∀ op : Operation, b.1 ≠ op.tag := by
    intro b hb op
    simp only [bs, List.mem_cons, List.not_mem_nil, or_false] at hb
    rcases hb with rfl | rfl | rfl
    all_goals cases op <;> simp [Operation.tag]
  have hv : v.value? (ofNumbers bs).constant? = some 2 := by decide +kernel
  obtain ⟨y, hy, hends, -⟩ := reduce_computes_value hnames hv
  exact ⟨hv, y, hy, hends⟩

end Table

end TermCalc
