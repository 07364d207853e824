import TermCalc.Proofs.Session.Reachable

/-!
# The places of a session's table

A session keeps its table for good. The builtin rules come first and stay as they are; behind them
stand the substitutions that statements have made. A place, once taken, keeps its name whatever is
called afterwards, and only its replacement may change: the table grows at its end.

## Main definitions

* `Session.Call`: what a session can be called to do
* `Session.calls patience s cs`: the session after a sequence of calls

## Main results

* `Table.OfSession.place_unique`: no two places hold rules that rename the same symbol
* `slots_prefix_reduceOne`, `slots_prefix_call`: one statement and one call keep the places
* `table_keeps_places`: the table of a reachable session, and what further calls do to it
-/

namespace TermCalc

namespace Table

variable {t t' : Table}

/-! ## The shape of the table -/

/-- The first rules of a session's table are the builtin ones. -/
theorem OfSession.take_builtin (ht : t.OfSession) :
    t.rules.take Rule.builtin.length = Rule.builtin := by
  obtain ⟨user, hrules, -⟩ := ht.exists_user
  rw [hrules, List.take_left]

/-- All other rules are substitutions for other names than those of the constants. -/
theorem OfSession.ofUser_of_mem_drop (ht : t.OfSession) :
    ∀ r ∈ t.rules.drop Rule.builtin.length, r.OfUser := by
  obtain ⟨user, hrules, huser⟩ := ht.exists_user
  rw [hrules, List.drop_left]
  exact huser

/-- No two places hold rules that rename the same symbol. -/
theorem OfSession.place_unique (ht : t.OfSession) {name : String} {u w : Term} {i j : Nat}
    (hi : t.rules[i]? = some (.substitution name u)) (hu : u ≠ .sym name)
    (hj : t.rules[j]? = some (.substitution name w)) (hw : w ≠ .sym name) : i = j := by
  -- of two such places the first would leave one rule too many behind it
  have hle : ∀ {i j : Nat} {u w : Term}, t.rules[i]? = some (.substitution name u) →
      u ≠ .sym name → t.rules[j]? = some (.substitution name w) → w ≠ .sym name → ¬ i < j := by
    intro i j u w hi hu hj hw hlt
    have hfirst : Rule.substitution name u ∈ t.rules.take j := mem_take_of_getElem? hi hlt
    have hsecond : Rule.substitution name w ∈ t.rules.drop j := by
      rw [List.mem_iff_getElem?]
      exact ⟨0, by rw [List.getElem?_drop, Nat.add_zero, hj]⟩
    have hcount := ht.renamers_le_one name
    rw [renamers, ← List.take_append_drop j t.rules, List.countP_append] at hcount
    have hone := List.countP_pos_iff.2 ⟨_, hfirst, renames_substitution_self.2 hu⟩
    have htwo := List.countP_pos_iff.2 ⟨_, hsecond, renames_substitution_self.2 hw⟩
    omega
  exact Nat.le_antisymm (Nat.le_of_not_lt (hle hj hw hi hu)) (Nat.le_of_not_lt (hle hi hu hj hw))

/-! ## The places of the table -/

/-- A rewriting adds names to the places of the table and leaves those that were there. -/
theorem Rewriting.keeps_slots {trace : List Term} (h : Rewriting t trace t') (ht : t.OfSession) :
    t.slots <+: t'.slots := by
  obtain ⟨names, hnames⟩ := slots_bindAll t (trace.flatMap Term.bindings)
  rw [h.table_eq ht, hnames]
  exact List.prefix_append _ _

end Table

namespace Session

variable {s : Session}

/-- A statement keeps the places of the table, whether it can be reduced or not. -/
theorem slots_prefix_reduceOne (hs : s.table.OfSession) (patience : Nat) (q : Queued) :
    s.table.slots <+: (s.reduceOne patience q).session.table.slots := by
  cases hresult : (s.reduceOne patience q).result with
  | error e =>
    exact (reduceOne_error hresult).1.symm ▸ List.prefix_rfl
  | ok u =>
    obtain ⟨trace, hreduce, -⟩ := reduceOne_ok hresult
    exact (Table.rewriting_of_reduce hs.standard hreduce).keeps_slots hs

/-- So do the statements of a queue. -/
theorem slots_prefix_runQueue (hs : s.table.OfSession) (patience : Nat) (queue : List Queued) :
    s.table.slots <+: (s.runQueue patience queue).session.table.slots := by
  -- induction on the queue; each statement hands the shape of the table on
  induction queue generalizing s with
  | nil => exact List.prefix_rfl
  | cons q rest ih =>
    have hone := slots_prefix_reduceOne (s := { s with queue := rest }) hs patience q
    have hsession := ofSession_reduceOne (s := { s with queue := rest }) hs patience q
    rw [runQueue]
    split
    · next out s' e hreduce =>
      rw [hreduce] at hone
      exact hone
    · next out s' hreduce =>
      rw [hreduce] at hone hsession
      exact hone.trans (ih hsession)

/-- So does the evaluation of a line. -/
theorem slots_prefix_evaluate (hs : s.table.OfSession) (patience : Nat) (line : String)
    (number : Int) : s.table.slots <+: (s.evaluate patience line number).session.table.slots := by
  have hadd := table_add (s := s) line number
  unfold evaluate
  split
  · next s' e heq =>
    rw [heq] at hadd
    exact hadd ▸ List.prefix_rfl
  · next s' heq =>
    rw [heq] at hadd
    exact hadd ▸ List.prefix_rfl
  · next s' v heq =>
    rw [heq] at hadd
    have hrun := slots_prefix_runQueue (s := s') (hadd ▸ hs) patience s'.queue
    rw [hadd] at hrun
    split
    · next out s'' e heq =>
      rw [run] at heq
      rwa [heq] at hrun
    · next out s'' heq =>
      rw [run] at heq
      rw [heq] at hrun
      exact (table_pop (s := s'')).symm ▸ hrun

/-! ## Calls -/

/-- What a session can be called to do: its operations, and setting the ceiling. -/
inductive Call where
  | add (line : String) (number : Int)
  | run
  | evaluate (line : String) (number : Int)
  | pop
  | lookup (name : String)
  | limit (ceiling : Ceiling)

/-- The session after a call, whether the call fails or not. -/
def call (patience : Nat) (s : Session) : Call → Session
  | .add line number => (s.add line number).1
  | .run => (s.run patience).session
  | .evaluate line number => (s.evaluate patience line number).session
  | .pop => s.pop.1
  | .lookup _ => s
  | .limit ceiling => { s with ceiling }

/-- The session after a sequence of calls. -/
def calls (patience : Nat) (s : Session) (cs : List Call) : Session :=
  cs.foldl (call patience) s

theorem Reachable.call (hs : s.Reachable) (patience : Nat) (c : Call) :
    (s.call patience c).Reachable := by
  cases c with
  | add line number => exact hs.add line number
  | run => exact hs.run patience
  | evaluate line number => exact hs.evaluate patience line number
  | pop => exact hs.pop
  | lookup name => exact hs
  | limit ceiling => exact hs.limit ceiling

theorem Reachable.calls (hs : s.Reachable) (patience : Nat) (cs : List Call) :
    (s.calls patience cs).Reachable :=
  List.foldlRecOn cs _ hs fun _ h c _ => h.call patience c

/-- Every call keeps the places of the table. -/
theorem slots_prefix_call (hs : s.table.OfSession) (patience : Nat) (c : Call) :
    s.table.slots <+: (s.call patience c).table.slots := by
  cases c with
  | add line number => exact (table_add (s := s) line number).symm ▸ List.prefix_rfl
  | run => exact slots_prefix_runQueue hs patience s.queue
  | evaluate line number => exact slots_prefix_evaluate hs patience line number
  | pop => exact (table_pop (s := s)).symm ▸ List.prefix_rfl
  | lookup name => exact List.prefix_rfl
  | limit ceiling => exact List.prefix_rfl

theorem slots_prefix_calls (hs : s.Reachable) (patience : Nat) (cs : List Call) :
    s.table.slots <+: (s.calls patience cs).table.slots := by
  induction cs generalizing s with
  | nil => exact List.prefix_rfl
  | cons c cs ih =>
    exact (slots_prefix_call hs.ofSession patience c).trans (ih (hs.call patience c))

/-- **The table of a session.** In every reachable session the builtin rules come first, the two
constants among them as they were; all other rules are substitutions, none of them for a constant;
and no two places hold rules that put something else in the place of the same symbol. Reducing a
statement, whether it fails or not, and any further calls leave every place of the table with its
kind and its name: the table only grows at its end. -/
theorem table_keeps_places (hs : s.Reachable) :
    s.table.rules.take 8 = Rule.builtin ∧
    (∀ r ∈ s.table.rules.drop 8,
      ∃ name u, r = .substitution name u ∧ name ≠ "pi" ∧ name ≠ "e") ∧
    (∀ name (u w : Term) (i j : Nat), s.table.rules[i]? = some (.substitution name u) →
      u ≠ .sym name → s.table.rules[j]? = some (.substitution name w) → w ≠ .sym name → i = j) ∧
    (∀ patience q, s.table.slots <+: (s.reduceOne patience q).session.table.slots) ∧
    ∀ patience cs, (s.calls patience cs).Reachable ∧
      s.table.slots <+: (s.calls patience cs).table.slots := by
  have ht := hs.ofSession
  refine ⟨ht.take_builtin, ht.ofUser_of_mem_drop, ?_, ?_, ?_⟩
  · exact fun name u w i j hi hu hj hw => ht.place_unique hi hu hj hw
  · exact fun patience q => slots_prefix_reduceOne ht patience q
  · exact fun patience cs => ⟨hs.calls patience cs, slots_prefix_calls hs patience cs⟩

/-- After `y = x` and `x = 5` the table has two rules for `x`, one of which puts the symbol in its
own place. Binding `x` anew, an assignment to a constant and a line that is no statement leave the
names of all places as they are. -/
theorem table_keeps_places_of_alias :
    let s := typed 1 ["y = x", "x = 5"]
    let s' := s.calls 1 [.add "x = 7" 1, .evaluate "pi = 3" 2, .pop, .evaluate "x = (" 3]
    s.Reachable ∧
      s.table = ⟨Rule.builtin ++ [.substitution "y" (.sym "x"), .substitution "x" (.sym "x"),
        .substitution "x" (.const 5)]⟩ ∧
      s'.table = ⟨Rule.builtin ++ [.substitution "y" (.sym "x"), .substitution "x" (.sym "x"),
        .substitution "x" (.const 7)]⟩ ∧
      s'.Reachable ∧ s.table.slots <+: s'.table.slots := by
  have hs : (typed 1 ["y = x", "x = 5"]).Reachable := reachable_typed 1 _
  obtain ⟨-, -, -, -, hcalls⟩ := table_keeps_places hs
  refine ⟨hs, ?_, ?_, hcalls 1 _⟩
  · with_unfolding_all rfl
  · with_unfolding_all rfl

end Session

end TermCalc
