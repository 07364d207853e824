import TermCalc.Table

/-!
# Reduction

A scan tries the rules of a table on a term from the first to the last and stops at the first that
changes it. Bindings take effect at once: the scan goes on in the changed table and visits the rules
that were bound behind its place. A run rewrites by one scan after the other, each from the top of
the table, until a scan changes nothing.

## Main definitions

* `Table.scan t v k`: the scan of `v` from place `k` on
* `Table.run n v t`: the run of `v` with at most `n` rewrites
* `Table.reduce`: the run of `v` to its normal form, under a ceiling on the number of rewrites
* `Table.firstRule?`: the place of the first rule that changes a term
-/

namespace TermCalc

/-- How a scan ends, with the table as it is then. -/
inductive Scan where
  /-- No rule changes the term. -/
  | unchanged (table : Table)
  /-- The rule at that place changes the term. -/
  | changed (place : Nat) (result : Term) (table : Table)
  /-- An operation met operands that it does not work on. -/
  | failed (error : OperandMismatch) (table : Table)

namespace Table

/-! ## Scanning a table -/

theorem count_drop_operationMask_bindAll (t : Table) (bs : List Binding) {k : Nat}
    (hk : k ≤ t.rules.length) :
    ((t.bindAll bs).operationMask.drop k).count true = (t.operationMask.drop k).count true := by
  obtain ⟨n, hn⟩ := operationMask_bindAll t bs
  rw [hn, List.drop_append_of_le_length (by simpa [operationMask] using hk), List.count_append,
    List.count_replicate]
  simp

theorem length_rules_bindAll_le (t : Table) (bs : List Binding) :
    (t.bindAll bs).rules.length ≤ t.rules.length + bs.length := by
  induction bs generalizing t with
  | nil => simp [bindAll]
  | cons b bs ih =>
    have hb : (t.bind b).rules.length ≤ t.rules.length + 1 := by
      unfold bind
      cases t.slot? b.name <;> simp
    have := ih (t.bind b)
    simp only [bindAll, List.foldl_cons, List.length_cons] at this ⊢
    omega

/-- Scans the rules of a table from place `k` on for one that changes `v`. Only an operation makes
the table grow, and by no more substitutions than `v` has nodes; so the operations left to visit,
each weighted by the size of `v`, and the places left to visit bound the scan. -/
def scan (t : Table) (v : Term) (k : Nat) : Scan :=
  match _h : t.rules[k]? with
  | none => .unchanged t
  | some rule =>
    match _hr : rule.rewrite v with
    | ⟨bindings, .error e⟩ => .failed e (t.bindAll bindings)
    | ⟨bindings, .ok w⟩ =>
      if v.equivalent w then scan (t.bindAll bindings) v (k + 1)
      else .changed k w (t.bindAll bindings)
termination_by (t.operationMask.drop k).count true * v.size + (t.rules.length - k)
decreasing_by
  obtain ⟨hk, hrule⟩ := List.getElem?_eq_some_iff.1 _h
  have hmask : t.operationMask.drop k = rule.isOperation :: t.operationMask.drop (k + 1) := by
    rw [List.drop_eq_getElem_cons (by simpa [operationMask] using hk)]
    simp [operationMask, hrule]
  have hcount := count_drop_operationMask_bindAll (k := k + 1) t bindings hk
  have hlength := length_rules_bindAll_le t bindings
  have hbindings := rule.length_bindings_rewrite_le v
  rw [_hr] at hbindings
  rw [hmask, hcount, List.count_cons]
  cases hop : rule.isOperation with
  | false =>
    -- a substitution binds nothing: one place less is left to visit
    simp only [hop, Bool.false_eq_true, ↓reduceIte, Nat.le_zero_eq] at hbindings
    simp only [Bool.false_beq, Bool.not_true, Bool.false_eq_true, ↓reduceIte, Nat.add_zero]
    omega
  | true =>
    -- one operation less is left to visit, which pays for the places that it added
    simp only [hop, ↓reduceIte] at hbindings
    simp only [beq_self_eq_true, ↓reduceIte, Nat.add_mul, Nat.one_mul]
    omega

/-- The place of the first rule that changes `v`, if there is one, with the table that the scan
leaves. -/
def firstRule? (t : Table) (v : Term) : Except OperandMismatch (Option Nat) × Table :=
  match t.scan v 0 with
  | .unchanged t => (.ok none, t)
  | .changed place _ t => (.ok (some place), t)
  | .failed e t => (.error e, t)

end Table

/-! ## Runs -/

/-- Why a run ended. -/
inductive Ending where
  /-- No rule changes the last term. -/
  | normal
  /-- The last term would change further, but no rewrite was left. -/
  | unfinished
  /-- An operation met operands that it does not work on. -/
  | failed (error : OperandMismatch)
deriving DecidableEq, Repr

/-- A run: the terms that were visited, the table at the end and why it ended. -/
structure Run where
  trace : List Term
  table : Table
  ending : Ending

/-- The run with a term in front of its trace. -/
def Run.cons (v : Term) (r : Run) : Run :=
  { r with trace := v :: r.trace }

namespace Table

/-- The run of `v` with at most `n` rewrites. -/
def run : (n : Nat) → Term → Table → Run
  | n, v, t =>
    match t.scan v 0 with
    | .unchanged t => ⟨[v], t, .normal⟩
    | .failed e t => ⟨[v], t, .failed e⟩
    | .changed _ w t =>
      match n with
      | 0 => ⟨[v], t, .unfinished⟩
      | n + 1 => (run n w t).cons v

end Table

/-! ## Reduction under a ceiling -/

/-- Why a reduction has no result. -/
inductive ReductionError where
  /-- More rewrites than the ceiling allows; the trace so far. -/
  | ceiling (limit : Int) (trace : List Term)
  /-- An operation met operands that it does not work on. -/
  | operands (error : OperandMismatch)
  /-- The first rewrite met a ceiling that is no number. -/
  | noNumber
  /-- There is no ceiling, and the rewrites that were allowed for did not suffice. -/
  | patience

/-- A ceiling on the number of rewrites. One that is `empty` was asked for without a number; this is
found out when the first rewrite is counted against it. -/
inductive Ceiling where
  | unlimited
  | limited (limit : Int)
  | empty
deriving DecidableEq, Repr

namespace Ceiling

/-- The number of rewrites under a ceiling; `patience` where nothing limits them. A negative ceiling
allows as little as zero. -/
def rewrites (patience : Nat) : Ceiling → Nat
  | .unlimited => patience
  | .limited limit => limit.toNat
  | .empty => 0

/-- A ceiling as it is written in messages. -/
def text : Ceiling → String
  | .unlimited => "None"
  | .limited limit => Text.signedText limit
  | .empty => "[]"

/-- The error of a reduction that would go on after the rewrites of a ceiling. -/
def error (trace : List Term) : Ceiling → ReductionError
  | .unlimited => .patience
  | .limited limit => .ceiling limit trace
  | .empty => .noNumber

end Ceiling

namespace Table

/-- The trace of `v` down to its normal form, and the table at the end. Without a ceiling
`patience` bounds the number of rewrites. -/
def reduce (patience : Nat) (ceiling : Ceiling) (v : Term) (t : Table) :
    Except ReductionError (List Term) × Table :=
  let run := t.run (ceiling.rewrites patience) v
  let result := match run.ending with
    | .normal => .ok run.trace
    | .failed e => .error (.operands e)
    | .unfinished => .error (ceiling.error run.trace)
  (result, run.table)

end Table

end TermCalc
