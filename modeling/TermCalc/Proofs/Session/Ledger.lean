import TermCalc.Proofs.Session.Answer
import TermCalc.Proofs.Session.Moves

/-!
# The ledger of a session

Beside a session a ledger can be kept of what becomes of its statements. Every statement that is
accepted is entered under a ticket of its own. The entry waits, it gives way to a later statement
with the same number, or it is reduced, and it is filed accordingly. Nothing is ever struck out, so
that the ledger knows what the session has forgotten.

The session itself has neither tickets nor places. That it holds what the ledger says, after every
move, is what accounts for all of its statements.

## Main definitions

* `Ledger`: entries that wait, that have given way and that have been reduced
* `Ledger.accept`, `Ledger.reduceNext`, `Ledger.pop`: how entries are filed
* `Ledger.kept l`: the traces of the successful reductions that have not been taken off
* `Ledger.Balanced l`: every ticket is filed once, and reductions keep to the order of the places
* `Ledger.Precedes l l'`: what was filed in `l` is still filed in `l'`
* `Ledger.Accounts l s`: the ledger is balanced, and the session holds what it says
* `Session.ledger patience s ms`: the ledger after a sequence of moves

## Main results

* `Ledger.Balanced.accept`, `Ledger.Balanced.reduceNext`: filing keeps a ledger balanced
* `Ledger.kept_pop`: the trace that is taken off is the latest that is kept
* `Ledger.Accounts.record`: one move keeps the ledger in accord with the session
* `Session.precedes_ledger`: nothing is struck out
* `Session.statements_accounted_for`: no statement is lost, and none is reduced twice
-/

namespace TermCalc

/-! ## Entries and ledgers -/

/-- A statement in a ledger: its ticket is the number of statements that were accepted before it,
and its place is the ticket of the first of those that it stands in for. -/
structure Entry where
  ticket : Nat
  place : Nat
  statement : Queued

/-- An entry that has been reduced, and what came of it. -/
structure Reduction where
  entry : Entry
  outcome : Except ReductionError (List Term)

/-- What has become of the statements that were accepted. An entry that has given way is filed with
the one that has taken its place. -/
structure Ledger where
  accepted : List Queued
  waiting : List Entry
  replaced : List (Entry × Entry)
  reduced : List Reduction
  popped : List Nat

namespace Ledger

/-- The ledger in which nothing has been entered. -/
def empty : Ledger :=
  ⟨[], [], [], [], []⟩

/-- All entries: those that wait, those that have given way and those that have been reduced. -/
def entries (l : Ledger) : List Entry :=
  l.waiting ++ (l.replaced.map Prod.fst ++ l.reduced.map Reduction.entry)

/-- The waiting entries from the one with that number on; none if there is none. -/
def fromNumber (l : Ledger) (number : Int) : List Entry :=
  l.waiting.dropWhile (·.statement.number != number)

/-- The entry for a statement that is accepted: it stands in for the entry that waits under the same
number, or it comes last. -/
def newEntry (l : Ledger) (q : Queued) : Entry where
  ticket := l.accepted.length
  place := ((l.fromNumber q.number).head?.map Entry.place).getD l.accepted.length
  statement := q

/-- Enters a statement. -/
def accept (l : Ledger) (q : Queued) : Ledger :=
  { l with
    accepted := l.accepted ++ [q]
    waiting := l.waiting.takeWhile (·.statement.number != q.number) ++
      l.newEntry q :: (l.fromNumber q.number).tail
    replaced := l.replaced ++ (l.fromNumber q.number).head?.toList.map (·, l.newEntry q) }

/-- Files the first entry that waits as reduced. -/
def reduceNext (l : Ledger) (outcome : Queued → Except ReductionError (List Term)) : Ledger :=
  match l.waiting with
  | [] => l
  | e :: rest =>
    { l with waiting := rest, reduced := l.reduced ++ [⟨e, outcome e.statement⟩] }

/-- The trace of a successful reduction, with its ticket, unless it is one of those taken off. -/
def kept? (popped : List Nat) (r : Reduction) : Option (Nat × List Term) :=
  match r.outcome with
  | .ok trace => if r.entry.ticket ∈ popped then none else some (r.entry.ticket, trace)
  | .error _ => none

/-- The traces of the successful reductions that have not been taken off, in order. -/
def kept (l : Ledger) : List (Nat × List Term) :=
  l.reduced.filterMap (kept? l.popped)

/-- Marks the latest trace that is kept as taken off. -/
def pop (l : Ledger) : Ledger :=
  match l.kept.getLast? with
  | none => l
  | some (ticket, _) => { l with popped := l.popped ++ [ticket] }

/-- Every ticket that was given out is on one entry, which holds the statement that was accepted
then. An entry that has given way stands for the number and in the place of a later one. The entries
that have been reduced, in the order in which they were, and those that wait follow one another by
their places. Only traces of reductions have been taken off. -/
structure Balanced (l : Ledger) : Prop where
  tickets : (l.entries.map Entry.ticket).Perm (List.range l.accepted.length)
  statements : ∀ e ∈ l.entries, l.accepted[e.ticket]? = some e.statement
  replaced : ∀ p ∈ l.replaced, p.2 ∈ l.entries ∧ p.1.ticket < p.2.ticket ∧
    p.1.statement.number = p.2.statement.number ∧ p.1.place = p.2.place
  order : ((l.reduced.map fun r => r.entry.place) ++ l.waiting.map Entry.place).Pairwise (· < ·)
  places : ∀ e ∈ l.entries, e.place ≤ e.ticket
  popped : ∀ i ∈ l.popped, ∃ r ∈ l.reduced, r.entry.ticket = i

variable {l : Ledger} {q : Queued}

theorem balanced_empty : empty.Balanced where
  tickets := .nil
  statements := List.forall_mem_nil _
  replaced := List.forall_mem_nil _
  order := .nil
  places := List.forall_mem_nil _
  popped := List.forall_mem_nil _

/-! ## Accepting a statement -/

theorem Balanced.ticket_lt (h : l.Balanced) {e : Entry} (he : e ∈ l.entries) :
    e.ticket < l.accepted.length :=
  List.mem_range.1 (h.tickets.mem_iff.1 (List.mem_map_of_mem he))

theorem Balanced.nodup (h : l.Balanced) : (l.entries.map Entry.ticket).Nodup :=
  h.tickets.nodup_iff.2 List.nodup_range

/-- A number waits nowhere, or the first entry that waits under it stands between the others. -/
theorem waiting_cases (l : Ledger) (number : Int) :
    (l.fromNumber number = [] ∧
      l.waiting.takeWhile (·.statement.number != number) = l.waiting) ∨
    ∃ old later, l.fromNumber number = old :: later ∧ old.statement.number = number ∧
      l.waiting = l.waiting.takeWhile (·.statement.number != number) ++ old :: later := by
  have hsplit := List.takeWhile_append_dropWhile (p := (·.statement.number != number))
    (l := l.waiting)
  rw [← fromNumber] at hsplit
  cases hfrom : l.fromNumber number with
  | nil =>
    rw [hfrom, List.append_nil] at hsplit
    exact .inl ⟨rfl, hsplit⟩
  | cons old later =>
    rw [hfrom] at hsplit
    refine .inr ⟨old, later, rfl, ?_, hsplit.symm⟩
    have hold := List.head?_dropWhile_not (·.statement.number != number) l.waiting
    rw [← fromNumber, hfrom] at hold
    simpa using hold

/-- Accepting a statement adds its entry to the others. -/
theorem entries_accept (l : Ledger) (q : Queued) :
    (l.accept q).entries.Perm (l.newEntry q :: l.entries) := by
  rcases l.waiting_cases q.number with ⟨hfrom, htake⟩ | ⟨old, later, hfrom, -, hwaiting⟩
  · simp only [entries, accept, hfrom, htake, List.tail_nil, List.head?_nil, Option.toList_none,
      List.map_nil, List.append_nil, List.append_assoc, List.singleton_append]
    exact List.perm_middle
  · simp only [entries, accept, hfrom, List.tail_cons, List.head?_cons, Option.toList_some,
      List.map_cons, List.map_nil, List.map_append, List.append_assoc, List.cons_append,
      List.nil_append]
    conv_rhs => rw [hwaiting]
    refine List.perm_middle.trans (.cons _ ?_)
    rw [List.append_assoc, List.cons_append]
    refine .append_left _ ?_
    rw [← List.append_assoc, ← List.append_assoc]
    exact List.perm_middle

/-- A statement that is accepted comes behind all places that there are, or it stands in the place
of the entry that gives way to it. -/
theorem accept_cases (l : Ledger) (q : Queued) :
    ((l.fromNumber q.number).head? = none ∧ (l.newEntry q).place = l.accepted.length ∧
      (l.accept q).waiting.map Entry.place = l.waiting.map Entry.place ++ [l.accepted.length]) ∨
    ∃ old ∈ l.waiting, (l.fromNumber q.number).head? = some old ∧
      old.statement.number = q.number ∧ (l.newEntry q).place = old.place ∧
      (l.accept q).waiting.map Entry.place = l.waiting.map Entry.place := by
  rcases l.waiting_cases q.number with ⟨hfrom, htake⟩ | ⟨old, later, hfrom, hold, hwaiting⟩
  · have hplace : (l.newEntry q).place = l.accepted.length := by
      rw [newEntry, hfrom]
      rfl
    refine .inl ⟨by rw [hfrom, List.head?_nil], hplace, ?_⟩
    simp only [accept, hfrom, htake, List.tail_nil, List.map_append, List.map_cons, List.map_nil,
      hplace]
  · have hplace : (l.newEntry q).place = old.place := by
      rw [newEntry, hfrom]
      rfl
    have hmem : old ∈ l.waiting := hwaiting ▸ List.mem_append_right _ List.mem_cons_self
    refine .inr ⟨old, hmem, by rw [hfrom, List.head?_cons], hold, hplace, ?_⟩
    conv_rhs => rw [hwaiting]
    simp only [accept, hfrom, List.tail_cons, List.map_append, List.map_cons, hplace]

/-- The places of a balanced ledger are less than the number of statements. -/
theorem Balanced.place_lt (h : l.Balanced) {place : Nat}
    (hplace : place ∈ (l.reduced.map fun r => r.entry.place) ++ l.waiting.map Entry.place) :
    place < l.accepted.length := by
  have hentry : ∃ e ∈ l.entries, e.place = place := by
    rcases List.mem_append.1 hplace with hplace | hplace
    · obtain ⟨r, hr, rfl⟩ := List.mem_map.1 hplace
      exact ⟨r.entry, List.mem_append_right _ (List.mem_append_right _
        (List.mem_map_of_mem hr)), rfl⟩
    · obtain ⟨e, he, rfl⟩ := List.mem_map.1 hplace
      exact ⟨e, List.mem_append_left _ he, rfl⟩
  obtain ⟨e, he, rfl⟩ := hentry
  exact Nat.lt_of_le_of_lt (h.places e he) (h.ticket_lt he)

/-- Accepting a statement keeps a ledger balanced. -/
theorem Balanced.accept (h : l.Balanced) (q : Queued) : (l.accept q).Balanced := by
  have hentries := l.entries_accept q
  have hmem : ∀ {e}, e ∈ (l.accept q).entries ↔ e = l.newEntry q ∨ e ∈ l.entries := by
    intro e
    rw [hentries.mem_iff, List.mem_cons]
  have hwaits : ∀ e ∈ l.waiting, e ∈ l.entries := fun e he => List.mem_append_left _ he
  refine ⟨?_, ?_, ?_, ?_, ?_, h.popped⟩
  · refine (hentries.map Entry.ticket).trans ?_
    rw [List.map_cons, Ledger.accept, List.length_append, List.length_singleton, List.range_succ]
    exact (h.tickets.cons _).trans (List.perm_append_singleton _ _).symm
  · intro e he
    rcases hmem.1 he with rfl | he
    · exact List.getElem?_concat_length
    · exact (List.getElem?_append_left (h.ticket_lt he)).trans (h.statements e he)
  · intro p hp
    rcases List.mem_append.1 hp with hp | hp
    · obtain ⟨hin, hp⟩ := h.replaced p hp
      exact ⟨hmem.2 (.inr hin), hp⟩
    · rcases l.accept_cases q with ⟨hnone, -⟩ | ⟨old, hold, hhead, hnumber, hplace, -⟩
      · rw [hnone] at hp
        cases hp
      · rw [hhead] at hp
        obtain rfl := List.mem_singleton.1 hp
        exact ⟨hmem.2 (.inl rfl), h.ticket_lt (hwaits old hold), hnumber, hplace.symm⟩
  · rcases l.accept_cases q with ⟨-, -, hplaces⟩ | ⟨-, -, -, -, -, hplaces⟩
    · rw [hplaces, ← List.append_assoc]
      refine List.pairwise_append.2 ⟨h.order, List.pairwise_singleton _ _, fun place hin i hi => ?_⟩
      rw [List.mem_singleton.1 hi]
      exact h.place_lt hin
    · rw [hplaces]
      exact h.order
  · intro e he
    rcases hmem.1 he with rfl | he
    · rcases l.accept_cases q with ⟨-, hplace, -⟩ | ⟨old, hold, -, -, hplace, -⟩
      · exact hplace.le
      · rw [hplace]
        exact Nat.le_trans (h.places old (hwaits old hold)) (h.ticket_lt (hwaits old hold)).le
    · exact h.places e he

/-! ## Reducing a statement -/

section Reducing

variable {e : Entry} {rest : List Entry}
  {outcome : Queued → Except ReductionError (List Term)}

/-- Reducing files an entry anew and adds none. -/
theorem entries_reduceNext (l : Ledger) (outcome : Queued → Except ReductionError (List Term)) :
    (l.reduceNext outcome).entries.Perm l.entries := by
  unfold reduceNext
  split
  · exact .rfl
  · next e rest hwaiting =>
    simp only [entries, hwaiting, List.map_append, List.map_singleton]
    rw [← List.append_assoc, ← List.append_assoc, List.cons_append]
    exact List.perm_append_singleton _ _ |>.trans (by rw [List.append_assoc])

/-- Reducing the first entry that waits keeps a ledger balanced. -/
theorem Balanced.reduceNext (h : l.Balanced)
    (outcome : Queued → Except ReductionError (List Term)) : (l.reduceNext outcome).Balanced := by
  have hentries := l.entries_reduceNext outcome
  cases hwaiting : l.waiting with
  | nil =>
    rw [Ledger.reduceNext, hwaiting]
    exact h
  | cons e rest =>
    have hnext : l.reduceNext outcome =
        { l with waiting := rest, reduced := l.reduced ++ [⟨e, outcome e.statement⟩] } := by
      rw [Ledger.reduceNext, hwaiting]
    rw [hnext] at hentries ⊢
    refine ⟨(hentries.map _).trans h.tickets, ?_, ?_, ?_, ?_, ?_⟩
    · exact fun e he => h.statements e (hentries.mem_iff.1 he)
    · intro p hp
      obtain ⟨hin, hp⟩ := h.replaced p hp
      exact ⟨hentries.mem_iff.2 hin, hp⟩
    · have horder := h.order
      rw [hwaiting, List.map_cons, ← List.singleton_append, ← List.append_assoc] at horder
      simpa only [List.map_append, List.map_cons, List.map_nil] using horder
    · exact fun e he => h.places e (hentries.mem_iff.1 he)
    · intro i hi
      obtain ⟨r, hr, hticket⟩ := h.popped i hi
      exact ⟨r, List.mem_append_left _ hr, hticket⟩

/-- A trace that was just found is kept behind the others. -/
theorem kept_reduceNext (h : l.Balanced) (hwaiting : l.waiting = e :: rest) :
    (l.reduceNext outcome).kept.map Prod.snd =
      l.kept.map Prod.snd ++ (outcome e.statement).toOption.toList := by
  have hnew : e.ticket ∉ l.popped := by
    intro hpopped
    obtain ⟨r, hr, hticket⟩ := h.popped _ hpopped
    have hnodup := h.nodup
    rw [entries, hwaiting, List.cons_append, List.map_cons, List.nodup_cons, ← hticket] at hnodup
    apply hnodup.1
    exact List.mem_map_of_mem (List.mem_append_right _ (List.mem_append_right _
      (List.mem_map_of_mem hr)))
  simp only [Ledger.reduceNext, hwaiting, kept, List.filterMap_append, List.map_append]
  congr 1
  cases houtcome : outcome e.statement with
  | error error => simp [kept?, Except.toOption]
  | ok trace => simp [kept?, hnew, Except.toOption]

end Reducing

/-! ## Taking off a trace -/

theorem kept?_eq_some_iff {popped : List Nat} {r : Reduction} {p : Nat × List Term} :
    kept? popped r = some p ↔ r.outcome = .ok p.2 ∧ r.entry.ticket = p.1 ∧ p.1 ∉ popped := by
  obtain ⟨ticket, trace⟩ := p
  cases houtcome : r.outcome with
  | error error => simp [kept?, houtcome]
  | ok found =>
    by_cases hpopped : r.entry.ticket ∈ popped
    · simp only [kept?, houtcome, hpopped, if_true]
      refine iff_of_false (by simp) ?_
      rintro ⟨-, rfl, hticket⟩
      exact hticket hpopped
    · simp only [kept?, houtcome, hpopped, if_false, Option.some.injEq, Prod.mk.injEq,
        Except.ok.injEq]
      constructor
      · rintro ⟨rfl, rfl⟩
        exact ⟨rfl, rfl, hpopped⟩
      · rintro ⟨rfl, rfl, -⟩
        exact ⟨rfl, rfl⟩

/-- The traces that are kept have different tickets. -/
theorem Balanced.nodup_kept (h : l.Balanced) : (l.kept.map Prod.fst).Nodup := by
  have hsublist : (l.kept.map Prod.fst).Sublist
      ((l.reduced.map Reduction.entry).map Entry.ticket) := by
    rw [kept]
    induction l.reduced with
    | nil => exact .slnil
    | cons r reduced ih =>
      cases hkept : kept? l.popped r with
      | none =>
        rw [List.filterMap_cons_none hkept]
        exact ih.cons _
      | some p =>
        rw [List.filterMap_cons_some hkept, List.map_cons, ← (kept?_eq_some_iff.1 hkept).2.1]
        exact ih.cons_cons _
  have hall : ((l.reduced.map Reduction.entry).map Entry.ticket).Sublist
      (l.entries.map Entry.ticket) := by
    rw [entries, List.map_append, List.map_append]
    exact (List.sublist_append_right _ _).trans (List.sublist_append_right _ _)
  exact (hsublist.trans hall).nodup h.nodup

/-- The trace that is taken off is the latest that is kept. -/
theorem kept_pop (h : l.Balanced) : l.pop.kept = l.kept.dropLast := by
  unfold pop
  cases hlast : l.kept.getLast? with
  | none =>
    rw [List.getLast?_eq_none_iff] at hlast
    rw [hlast]
    rfl
  | some latest =>
    obtain ⟨ticket, trace⟩ := latest
    obtain ⟨before, hkept⟩ := List.getLast?_eq_some_iff.1 hlast
    -- one ticket more is taken off, and the latest trace is the only one that has it
    have hfilter : l.reduced.filterMap (kept? (l.popped ++ [ticket])) =
        l.kept.filter (·.1 != ticket) := by
      rw [kept, List.filter_filterMap]
      apply List.filterMap_congr
      intro r _
      ext p
      rw [Option.filter_eq_some_iff, kept?_eq_some_iff, kept?_eq_some_iff, List.mem_append,
        List.mem_singleton, bne_iff_ne]
      tauto
    have hnodup := h.nodup_kept
    rw [hkept, List.map_append, List.map_singleton, List.nodup_append] at hnodup
    have hbefore : ∀ p ∈ before, (p.1 != ticket) = true := by
      intro p hp
      have hne := hnodup.2.2 p.1 (List.mem_map_of_mem hp) ticket List.mem_cons_self
      simpa using hne
    rw [kept, hfilter, hkept, List.dropLast_concat, List.filter_append,
      List.filter_eq_self.2 hbefore]
    simp

/-- Taking off a trace keeps a ledger balanced. -/
theorem Balanced.pop (h : l.Balanced) : l.pop.Balanced := by
  unfold Ledger.pop
  split
  · exact h
  · next ticket trace hlast =>
    refine ⟨h.tickets, h.statements, h.replaced, h.order, h.places, ?_⟩
    intro i hi
    rcases List.mem_append.1 hi with hi | hi
    · exact h.popped i hi
    · obtain rfl := List.mem_singleton.1 hi
      obtain ⟨r, hr, hkept⟩ := List.mem_filterMap.1 (List.mem_of_getLast? hlast)
      exact ⟨r, hr, (kept?_eq_some_iff.1 hkept).2.1⟩

/-! ## Keeping a ledger beside a session -/

/-- What a move of a session is entered as: a line if it is accepted as a statement, the reduction
of the first entry that waits in the table of the session, or the taking off of a trace. -/
def record (patience : Nat) (s : Session) (l : Ledger) : Session.Move → Ledger
  | .add line number =>
    match (s.add line number).2 with
    | .ok (some v) => l.accept ⟨number, line, v⟩
    | _ => l
  | .next => l.reduceNext fun q => (s.table.reduce patience s.ceiling q.term).1
  | .pop => l.pop
  | .limit _ => l

/-- Whatever was filed in the first ledger is still there in the second, with what was filed since
behind it. -/
structure Precedes (l l' : Ledger) : Prop where
  accepted : l.accepted <+: l'.accepted
  replaced : l.replaced <+: l'.replaced
  reduced : l.reduced <+: l'.reduced
  popped : l.popped <+: l'.popped

theorem Precedes.refl (l : Ledger) : l.Precedes l :=
  ⟨List.prefix_rfl, List.prefix_rfl, List.prefix_rfl, List.prefix_rfl⟩

theorem Precedes.trans {l l' l'' : Ledger} (h : l.Precedes l') (h' : l'.Precedes l'') :
    l.Precedes l'' where
  accepted := h.accepted.trans h'.accepted
  replaced := h.replaced.trans h'.replaced
  reduced := h.reduced.trans h'.reduced
  popped := h.popped.trans h'.popped

/-- Nothing is struck out when a move is entered. -/
theorem precedes_record (patience : Nat) (s : Session) (l : Ledger) (m : Session.Move) :
    l.Precedes (l.record patience s m) := by
  cases m with
  | add line number =>
    rw [record]
    split
    · exact { Precedes.refl l with
        accepted := List.prefix_append _ _
        replaced := List.prefix_append _ _ }
    · exact .refl l
  | next =>
    rw [record, reduceNext]
    split
    · exact .refl l
    · exact { Precedes.refl l with reduced := List.prefix_append _ _ }
  | pop =>
    rw [record, pop]
    split
    · exact .refl l
    · exact { Precedes.refl l with popped := List.prefix_append _ _ }
  | limit ceiling => exact .refl l

/-- The ledger is balanced. The queue of the session holds the statements that wait, and its results
are the traces that are kept. -/
structure Accounts (l : Ledger) (s : Session) : Prop where
  balanced : l.Balanced
  queue : s.queue = l.waiting.map Entry.statement
  results : s.results = l.kept.map Prod.snd

variable {s : Session}

/-- A line that is accepted is put in the queue where its entry is put in the ledger. -/
theorem enqueue_map (l : Ledger) (q : Queued) :
    Session.enqueue q (l.waiting.map Entry.statement) =
      (l.accept q).waiting.map Entry.statement := by
  rw [Session.enqueue_eq, Session.ahead, Session.behind, List.takeWhile_map, List.dropWhile_map,
    accept, List.map_append, List.map_cons, List.map_tail]
  rfl

theorem Accounts.add (h : l.Accounts s) (patience : Nat) (line : String) (number : Int) :
    (l.record patience s (.add line number)).Accounts (s.add line number).1 := by
  cases hread : Session.statement? line with
  | error e =>
    simp only [record, Session.add, hread]
    exact ⟨h.balanced, h.queue, h.results⟩
  | ok statement =>
    cases statement with
    | none =>
      simp only [record, Session.add, hread]
      exact ⟨h.balanced, h.queue, h.results⟩
    | some v =>
      simp only [record, Session.add, hread]
      refine ⟨h.balanced.accept _, ?_, h.results⟩
      rw [← enqueue_map, ← h.queue]
      rfl

theorem Accounts.next (h : l.Accounts s) (patience : Nat) :
    (l.record patience s .next).Accounts (s.next patience) := by
  have hbalanced : (l.record patience s .next).Balanced :=
    h.balanced.reduceNext fun q => (s.table.reduce patience s.ceiling q.term).1
  cases hwaiting : l.waiting with
  | nil =>
    have hqueue : s.queue = [] := by rw [h.queue, hwaiting, List.map_nil]
    have hrecord : l.record patience s .next = l := by simp only [record, reduceNext, hwaiting]
    rw [hrecord, Session.next, hqueue]
    exact h
  | cons e rest =>
    have hqueue : s.queue = e.statement :: rest.map Entry.statement := by
      rw [h.queue, hwaiting, List.map_cons]
    rw [Session.next_eq _ hqueue]
    refine ⟨hbalanced, ?_, ?_⟩
    · rw [Session.queue_reduceOne]
      simp only [record, reduceNext, hwaiting]
    · rw [Session.results_reduceOne, record, kept_reduceNext h.balanced hwaiting, ← h.results]

theorem Accounts.pop (h : l.Accounts s) : l.pop.Accounts s.pop.1 := by
  have hkept := kept_pop h.balanced
  have hqueue : l.pop.waiting = l.waiting := by
    unfold Ledger.pop
    split <;> rfl
  refine ⟨h.balanced.pop, ?_, ?_⟩
  · rw [hqueue, ← h.queue, Session.pop]
    split <;> rfl
  · rw [hkept, List.map_dropLast, ← h.results, Session.pop]
    split
    · next hlast => rw [List.getLast?_eq_none_iff.1 hlast]; rfl
    · rfl

/-- One move keeps the ledger in accord with the session. -/
theorem Accounts.record (h : l.Accounts s) (patience : Nat) (m : Session.Move) :
    (l.record patience s m).Accounts (s.move patience m) := by
  cases m with
  | add line number => exact h.add patience line number
  | next => exact h.next patience
  | pop => exact h.pop
  | limit ceiling => exact ⟨h.balanced, h.queue, h.results⟩

end Ledger

namespace Session

/-- The ledger that has been kept beside a session for a sequence of moves. -/
def ledger (patience : Nat) (s : Session) : List Move → Ledger → Ledger
  | [], l => l
  | m :: ms, l => ledger patience (s.move patience m) ms (l.record patience s m)

/-- A sequence of moves keeps the ledger in accord with the session. -/
theorem accounts_ledger {s : Session} {l : Ledger} (h : l.Accounts s) (patience : Nat)
    (ms : List Move) : (s.ledger patience ms l).Accounts (s.moves patience ms) := by
  induction ms generalizing s l with
  | nil => exact h
  | cons m ms ih => exact ih (h.record patience m)

theorem ledger_append (patience : Nat) (s : Session) (ms ns : List Move) (l : Ledger) :
    s.ledger patience (ms ++ ns) l =
      (s.moves patience ms).ledger patience ns (s.ledger patience ms l) := by
  induction ms generalizing s l with
  | nil => rfl
  | cons m ms ih => exact ih (s.move patience m) (l.record patience s m)

/-- Nothing is struck out in a sequence of moves. -/
theorem precedes_ledger (patience : Nat) (s : Session) (ms : List Move) (l : Ledger) :
    l.Precedes (s.ledger patience ms l) := by
  induction ms generalizing s l with
  | nil => exact .refl l
  | cons m ms ih => exact (l.precedes_record patience s m).trans (ih _ _)

/-- **No statement is lost, and none is reduced twice.** Keep a ledger beside a session from its
beginning. After any moves, and so after any calls and in the middle of any, every statement that
was accepted is on one entry: it waits, it has given way to a later statement with its number and in
its place, or it has been reduced once. What has been filed stays filed, whatever moves follow.
Entries are reduced in the order of their places. The queue of the session holds the statements that
wait, in that order, and its results are the traces of the successful reductions, in the order in
which they were made, but for those that were taken off, each of which was the latest then. A
session on a file begins with calls that queue lines. -/
theorem statements_accounted_for (reporter : Reporter) (path : String) (interactive : Bool)
    (ceiling : Ceiling) (patience : Nat) :
    let s := fresh reporter path interactive ceiling
    (∀ ms, (s.ledger patience ms .empty).Accounts (s.moves patience ms)) ∧
    (∀ ms ns, (s.ledger patience ms .empty).Precedes (s.ledger patience (ms ++ ns) .empty)) ∧
    (∀ cs, s.calls patience cs = s.moves patience (s.movesOfAll patience cs)) ∧
    ∀ contents, ∃ cs : List Call, (∀ c ∈ cs, ∃ line number, c = .add line number) ∧
      (start reporter path interactive ceiling contents).1 =
        (fresh (reporter.registerFile path) path interactive ceiling).calls patience cs := by
  intro s
  have hbegin : Ledger.empty.Accounts s := ⟨Ledger.balanced_empty, rfl, rfl⟩
  refine ⟨accounts_ledger hbegin patience, fun ms ns => ?_, calls_eq_moves patience s,
    fun contents => ?_⟩
  · rw [ledger_append]
    exact precedes_ledger patience _ ns _
  · exact exists_calls_of_start patience reporter path interactive ceiling contents

-- the second statement for line 1 is reduced in the place of the first, ahead of that for line 2
example :
    let s := fresh ⟨.plain, false, []⟩ inputPath true .unlimited
    let l := s.ledger 1 [.add "a" 1, .add "b" 2, .add "c" 1, .next, .pop] .empty
    l.waiting.map Entry.ticket = [1] ∧
      l.replaced.map (fun p => (p.1.ticket, p.2.ticket)) = [(0, 2)] ∧
      l.reduced.map (fun r => (r.entry.ticket, r.entry.place)) = [(2, 0)] ∧ l.popped = [2] := by
  decide +kernel

end Session

end TermCalc
