import TermCalc.Proofs.Assignment.Course
import TermCalc.Proofs.Reduction.Ceiling
import TermCalc.Proofs.Reduction.Value
import TermCalc.Proofs.Rule.Alike

/-!
# Equivalent terms in lockstep

Equivalent terms are reduced in lockstep: in tables that are alike their scans stop at the same
places, and what is made of them is equivalent again, in tables that are still alike. This holds
where nothing is divided, since only a division tells the two zeros from each other.

## Main definitions

* `Table.Alike t t'`: the rules at the same places are alike
* `Table.Lockstep v t w t'`: equivalent terms in tables that are alike, without a division
* `Table.firedAt n v t`: the places at which the scans of a run stop

## Main results

* `Lockstep.scan`: two scans in lockstep end in the same way, and in lockstep
* `Lockstep.run`: two runs in lockstep stop at the same places and visit equivalent terms
* `reduce_in_lockstep`: the reductions of equivalent terms
-/

namespace TermCalc

namespace Table

variable {t t' : Table} {v w : Term} {k n place : Nat}

/-! ## Tables that are alike -/

/-- The rules at the same places are alike. -/
def Alike (t t' : Table) : Prop :=
  List.Forall₂ Rule.Alike t.rules t'.rules

theorem Alike.refl (t : Table) : t.Alike t :=
  List.forall₂_same.2 fun r _ => Rule.Alike.refl r

theorem Alike.symm (h : t.Alike t') : t'.Alike t :=
  List.Forall₂.flip (List.Forall₂.imp (fun _ _ hr => Rule.Alike.symm hr) h)

theorem Alike.exists_getElem? {q : Rule} (h : t.Alike t') (hq : t.rules[k]? = some q) :
    ∃ r, t'.rules[k]? = some r ∧ q.Alike r := by
  obtain ⟨hk, rfl⟩ := List.getElem?_eq_some_iff.1 hq
  have hk' : k < t'.rules.length := List.Forall₂.length_eq h ▸ hk
  exact ⟨t'.rules[k], List.getElem?_eq_getElem hk', List.Forall₂.get h hk hk'⟩

theorem findIdx?_renames_eq {qs rs : List Rule} (h : List.Forall₂ Rule.Alike qs rs)
    (name : String) : qs.findIdx? (Rule.renames name) = rs.findIdx? (Rule.renames name) := by
  induction h with
  | nil => rfl
  | cons hr _ ih => rw [List.findIdx?_cons, List.findIdx?_cons, hr.renames_eq, ih]

theorem forall₂_set {α β : Type} {R : α → β → Prop} {as : List α} {bs : List β}
    (h : List.Forall₂ R as bs) {a : α} {b : β} (hab : R a b) (i : Nat) :
    List.Forall₂ R (as.set i a) (bs.set i b) := by
  induction h generalizing i with
  | nil => exact .nil
  | cons h hs ih =>
    cases i with
    | zero => exact .cons hab hs
    | succ i => exact .cons h (ih i)

/-- Alike bindings are made at the same place, and they keep tables alike. -/
theorem Alike.bind {b c : Binding} (h : t.Alike t') (hbc : b.Alike c) :
    (t.bind b).Alike (t'.bind c) := by
  have hrule : (Rule.substitution b.name b.definition).Alike (.substitution c.name c.definition) :=
    hbc.name ▸ .substitution b.name hbc.definition
  have hslot : t.slot? b.name = t'.slot? c.name :=
    hbc.name ▸ findIdx?_renames_eq h b.name
  rw [Table.bind, Table.bind, hslot]
  cases t'.slot? c.name with
  | none => exact List.rel_append h (.cons hrule .nil)
  | some i => exact forall₂_set h hrule i

theorem Alike.bindAll {bs cs : List Binding} (h : t.Alike t')
    (hbs : List.Forall₂ Binding.Alike bs cs) : (t.bindAll bs).Alike (t'.bindAll cs) :=
  List.rel_foldl (fun _ _ h _ _ hbc => h.bind hbc) h hbs

/-! ## Scans in lockstep -/

/-- Equivalent terms in tables that are alike, with no division in the terms or in a replacement. -/
structure Lockstep (v : Term) (t : Table) (w : Term) (t' : Table) : Prop where
  terms : v.equivalent w = true
  tables : t.Alike t'
  standard : t.Standard
  avoids : t.Avoids "$div"
  undivided : v.mentions "$div" = false

namespace Lockstep

theorem symm (h : Lockstep v t w t') : Lockstep w t' v t where
  terms := Term.equivalent_symm h.terms
  tables := h.tables.symm
  standard r hr := by
    obtain ⟨k, hk⟩ := List.getElem?_of_mem hr
    obtain ⟨q, hq, hrq⟩ := h.tables.symm.exists_getElem? hk
    exact hrq.symm.standard (h.standard q (List.mem_of_getElem? hq))
  avoids n u hu := by
    obtain ⟨k, hk⟩ := List.getElem?_of_mem hu
    obtain ⟨q, hq, hrq⟩ := h.tables.symm.exists_getElem? hk
    cases hrq with
    | substitution _ huq =>
      rw [Term.mentions_eq_of_equivalent huq]
      exact h.avoids n _ (List.mem_of_getElem? hq)
  undivided := (Term.mentions_eq_of_equivalent h.terms).symm.trans h.undivided

/-- The bindings that are made on the way keep terms in lockstep. -/
theorem visited (h : Lockstep v t w t') (k : Nat) :
    Lockstep v (t.visited v k) w (t'.visited w k) where
  terms := h.terms
  tables := by
    have hrules : List.Forall₂ (fun q r => q.Standard ∧ q.Alike r) (t.rules.take k)
        (t'.rules.take k) :=
      (List.forall₂_and_left _ _).2 ⟨fun q hq => h.standard q (List.mem_of_mem_take hq),
        List.forall₂_take k h.tables⟩
    exact h.tables.bindAll (List.rel_flatMap hrules fun q r hqr => hqr.2.bindings hqr.1 h.terms)
  standard := h.standard.visited v k
  avoids := by
    apply h.avoids.bindAll
    intro b hb
    obtain ⟨r, hr, hb⟩ := List.mem_flatMap.1 hb
    exact (h.standard r (List.mem_of_mem_take hr)).not_mentions_definition hb h.undivided
  undivided := h.undivided

/-- Terms in lockstep meet alike rules, which change both of them or none, and what they make of
them is in lockstep. -/
theorem exists_met {q : Rule} (h : Lockstep v t w t') (hq : t.met? v k = some q) :
    ∃ r, t'.met? w k = some r ∧ (q.Changes v ↔ r.Changes w) ∧
      Lockstep (q.output v) (t.visited v k) (r.output w) (t'.visited w k) := by
  have hvisited := h.visited k
  obtain ⟨r, hr, hqr⟩ := hvisited.tables.exists_getElem? hq
  have hmem := List.mem_of_getElem? hq
  have hstandard := hvisited.standard q hmem
  have hterms := hqr.output hstandard h.terms h.undivided
  refine ⟨r, hr, ?_, hterms, hvisited.tables, hvisited.standard, hvisited.avoids, ?_⟩
  · rw [Rule.Changes, Rule.Changes, Term.equivalent_eq_of_equivalent h.terms hterms]
  · refine hstandard.not_mentions_output (fun n u hu => ?_) (by decide) h.undivided
    exact hvisited.avoids n u (hu ▸ hmem)

theorem reaches (h : Lockstep v t w t') (hk : t.Reaches v k) : t'.Reaches w k := by
  intro j hj r hr
  obtain ⟨q, hq, hchanges, -⟩ := h.symm.exists_met hr
  exact mt hchanges.1 (hk j hj q hq)

end Lockstep

/-- A scan gets no further than to the first rule that changes the term. -/
theorem FirstChange.le_of_reaches (h : t.FirstChange v place w) (hk : t.Reaches v k) :
    k ≤ place := by
  obtain ⟨-, r, hr, hc, -⟩ := h
  by_contra hlt
  exact hk place (Nat.lt_of_not_le hlt) r hr hc

/-- Two scans in lockstep go through their tables, or they stop at the same place, in lockstep. -/
theorem Lockstep.scan (h : Lockstep v t w t') :
    (∃ s s', t.scan v 0 = .unchanged s ∧ t'.scan w 0 = .unchanged s' ∧ s.Alike s') ∨
    ∃ place v' w' s s', t.scan v 0 = .changed place v' s ∧ t'.scan w 0 = .changed place w' s' ∧
      Lockstep v' s w' s' := by
  rcases scan_cases h.standard v with ⟨hscan, hall⟩ | ⟨place, v', hscan, hfirst⟩
  · rcases scan_cases h.symm.standard w with ⟨hscan', -⟩ | ⟨place, w', -, hfirst'⟩
    · refine .inl ⟨_, _, hscan, hscan', ?_⟩
      rw [List.Forall₂.length_eq h.tables]
      exact (h.visited _).tables
    · -- the first scan goes past every place at which the second could stop
      have hle := hfirst'.le_of_reaches (h.reaches (hall (place + 1)))
      exact absurd hle (Nat.not_succ_le_self place)
  · obtain ⟨hreaches, q, hq, hc, rfl⟩ := hfirst
    obtain ⟨r, hr, hchanges, hnext⟩ := h.exists_met hq
    have hfirst' : t'.FirstChange w place (r.output w) :=
      ⟨h.reaches hreaches, r, hr, hchanges.1 hc, rfl⟩
    right
    rcases scan_cases h.symm.standard w with ⟨-, hall⟩ | ⟨place', w', hscan', hsecond⟩
    · have hle := hfirst'.le_of_reaches (hall (place + 1))
      exact absurd hle (Nat.not_succ_le_self place)
    · obtain rfl : place = place' :=
        Nat.le_antisymm (hsecond.le_of_reaches hfirst'.1) (hfirst'.le_of_reaches hsecond.1)
      obtain ⟨-, r', hr', -, rfl⟩ := hsecond
      obtain rfl := Option.some.inj (hr.symm.trans hr')
      exact ⟨place, _, _, _, _, hscan, hscan', hnext⟩

/-! ## Runs in lockstep -/

/-- The places at which the scans of the run of `v` with at most `n` rewrites stop, in order. -/
def firedAt : (n : Nat) → Term → Table → List Nat
  | 0, _, _ => []
  | n + 1, v, t =>
    match t.scan v 0 with
    | .changed place w t => place :: firedAt n w t
    | _ => []

theorem firedAt_of_scan_unchanged (n : Nat) (h : t.scan v 0 = .unchanged t') :
    t.firedAt n v = [] := by
  cases n with
  | zero => rfl
  | succ n => rw [firedAt, h]

theorem firedAt_succ_of_scan_changed (n : Nat) (h : t.scan v 0 = .changed place w t') :
    t.firedAt (n + 1) v = place :: t'.firedAt n w := by
  rw [firedAt, h]

end Table

/-- Two runs visit equivalent terms, and they end for the same reason in tables that are alike. -/
structure Run.Alike (r r' : Run) : Prop where
  trace : List.Forall₂ (fun v w => v.equivalent w = true) r.trace r'.trace
  table : r.table.Alike r'.table
  ending : r.ending = r'.ending

namespace Table

variable {t t' : Table} {v w : Term} {n place : Nat}

/-- Runs in lockstep stop at the same places and are alike. -/
theorem Lockstep.run (h : Lockstep v t w t') (n : Nat) :
    t.firedAt n v = t'.firedAt n w ∧ (t.run n v).Alike (t'.run n w) := by
  -- induction on the rewrites that are left; each takes the lockstep to the next terms
  induction n generalizing v t w t' with
  | zero =>
    refine ⟨rfl, ?_⟩
    rcases h.scan with ⟨s, s', hs, hs', htables⟩ | ⟨place, v', w', s, s', hs, hs', hnext⟩
    · rw [run_of_scan_unchanged 0 hs, run_of_scan_unchanged 0 hs']
      exact ⟨.cons h.terms .nil, htables, rfl⟩
    · rw [run_zero_of_scan_changed hs, run_zero_of_scan_changed hs']
      exact ⟨.cons h.terms .nil, hnext.tables, rfl⟩
  | succ n ih =>
    rcases h.scan with ⟨s, s', hs, hs', htables⟩ | ⟨place, v', w', s, s', hs, hs', hnext⟩
    · rw [firedAt_of_scan_unchanged _ hs, firedAt_of_scan_unchanged _ hs',
        run_of_scan_unchanged _ hs, run_of_scan_unchanged _ hs']
      exact ⟨rfl, .cons h.terms .nil, htables, rfl⟩
    · obtain ⟨hplaces, hrest⟩ := ih hnext
      rw [firedAt_succ_of_scan_changed n hs, firedAt_succ_of_scan_changed n hs', hplaces,
        run_succ_of_scan_changed n hs, run_succ_of_scan_changed n hs']
      exact ⟨rfl, .cons h.terms hrest.trace, hrest.table, hrest.ending⟩

/-- A run visits one term more than its scans have stopped. -/
theorem length_trace_run (n : Nat) (v : Term) (t : Table) :
    (t.run n v).trace.length = (t.firedAt n v).length + 1 := by
  induction n generalizing v t with
  | zero =>
    cases hscan : t.scan v 0 with
    | unchanged s => rw [run_of_scan_unchanged 0 hscan]; rfl
    | failed e s => rw [run_of_scan_failed 0 hscan]; rfl
    | changed place w s => rw [run_zero_of_scan_changed hscan]; rfl
  | succ n ih =>
    cases hscan : t.scan v 0 with
    | unchanged s =>
      rw [run_of_scan_unchanged _ hscan, firedAt_of_scan_unchanged _ hscan]
      rfl
    | failed e s =>
      rw [run_of_scan_failed _ hscan, firedAt, hscan]
      rfl
    | changed place w s =>
      rw [run_succ_of_scan_changed n hscan, firedAt_succ_of_scan_changed n hscan, Run.cons,
        List.length_cons, ih, List.length_cons]

/-- **Lockstep.** Equivalent terms in which nothing is divided are reduced in lockstep, in every
standard table with no division in a replacement and under every ceiling. The rules that fire stand
at the same places, the terms that are visited are equivalent one by one, and the two tables at the
end have alike rules. Both reductions have a result, or both go beyond the ceiling. -/
theorem reduce_in_lockstep (ht : t.Standard) (hdiv : t.Avoids "$div")
    (hv : v.mentions "$div" = false) (hvw : v.equivalent w = true) (patience : Nat)
    (ceiling : Ceiling) :
    t.firedAt (ceiling.rewrites patience) v = t.firedAt (ceiling.rewrites patience) w ∧
    ∃ trace trace' s s',
      trace.length = (t.firedAt (ceiling.rewrites patience) v).length + 1 ∧
      List.Forall₂ (fun v w => v.equivalent w = true) trace trace' ∧ s.Alike s' ∧
      (t.reduce patience ceiling v = (.ok trace, s) ∧
          t.reduce patience ceiling w = (.ok trace', s') ∨
        t.reduce patience ceiling v = (.error (ceiling.error trace), s) ∧
          t.reduce patience ceiling w = (.error (ceiling.error trace'), s')) := by
  have hlockstep : Lockstep v t w t := ⟨hvw, .refl t, ht, hdiv, hv⟩
  obtain ⟨hplaces, htrace, htable, hending⟩ := hlockstep.run (ceiling.rewrites patience)
  refine ⟨hplaces, _, _, _, _, length_trace_run _ v t, htrace, htable, ?_⟩
  rcases ending_run_cases ht (ceiling.rewrites patience) v with hend | hend
  · left
    rw [reduce, reduce, ← hending, hend]
    exact ⟨rfl, rfl⟩
  · right
    rw [reduce, reduce, ← hending, hend]
    exact ⟨rfl, rfl⟩

/-- The assignment of the sum of `x` and `x`. -/
def assignedSum (x : Float) : Term :=
  .binary "$let" (.sym "x") (.binary "$add" (.const x) (.const x))

/-- The sum of two negative zeros is assigned as that of two positive zeros is: it is computed and
bound by the same rules, in the same place. -/
theorem reduce_in_lockstep_signed_zeros :
    Table.default.Standard ∧ Table.default.Avoids "$div" ∧
    (assignedSum 0).mentions "$div" = false ∧
    (assignedSum 0).equivalent (assignedSum (-0)) = true ∧
    Table.default.firedAt 2 (assignedSum (-0)) = [4, 8] ∧
    ∃ trace s, Table.default.reduce 2 .unlimited (assignedSum (-0)) = (.ok trace, s) ∧
      List.Forall₂ (fun (v w : Term) => v.equivalent w = true)
        [assignedSum 0, .binary "$let" (.sym "x") (.const 0), .binary "$let" (.const 0) (.const 0)]
        trace ∧
      (Table.default.append (.substitution "x" (.const 0))).Alike s := by
  have hdiv : Table.default.Avoids "$div" := numeric_default.avoids "$div"
  have hv : (assignedSum 0).mentions "$div" = false := by decide
  have hvw : (assignedSum 0).equivalent (assignedSum (-0)) = true := by decide +kernel
  have hplaces : Table.default.firedAt 2 (assignedSum 0) = [4, 8] := by
    with_unfolding_all rfl
  have hreduce : Table.default.reduce 2 .unlimited (assignedSum 0) =
      (.ok [assignedSum 0, .binary "$let" (.sym "x") (.const 0),
        .binary "$let" (.const 0) (.const 0)],
        Table.default.append (.substitution "x" (.const 0))) := by
    with_unfolding_all rfl
  obtain ⟨hsame, trace, trace', s, s', -, htrace, htable, hends⟩ :=
    reduce_in_lockstep standard_default hdiv hv hvw 2 .unlimited
  refine ⟨standard_default, hdiv, hv, hvw, hsame.symm.trans hplaces, trace', s', ?_⟩
  rcases hends with ⟨hleft, hright⟩ | ⟨hleft, -⟩
  · obtain ⟨hok, rfl⟩ := Prod.mk.inj (hreduce.symm.trans hleft)
    obtain rfl := Except.ok.inj hok
    exact ⟨hright, htrace, htable⟩
  · cases (Prod.mk.inj (hreduce.symm.trans hleft)).1

end Table

end TermCalc
