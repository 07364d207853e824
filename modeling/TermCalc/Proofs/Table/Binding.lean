import TermCalc.Proofs.Rule.Standard
import TermCalc.Table

/-!
# Binding in a table

What binding a name does to a table: it replaces the first rule that renames the name, or adds a
rule at the end. All other rules stay, and no place ever changes the kind or the name of its rule.

## Main definitions

* `Rule.Slot`, `Table.slots t`: what stays the same at the places of a table
* `Table.Standard t`, `Table.Normal t v`: all rules are standard, no rule changes `v`
* `Table.renamers t name`: how many rules rename the symbol `name`

## Main results

* `bind_cases`: the two ways in which a name is bound
* `slots_bindAll`: binding only adds names to the slots of a table
* `take_bindAll`: the rules ahead of the first that renames a bound name stay
* `renamers_bindAll_mono`: more rules for a name before binding never make fewer after it
-/

namespace TermCalc

/-- What stays the same at a place of a table: the name of a substitution, or an operation. -/
inductive Rule.Slot where
  | name (name : String)
  | operation (tag : String) (op : Operation) (arity : Option Int)

/-- The slot of a rule. -/
def Rule.slot : Rule → Rule.Slot
  | .substitution name _ => .name name
  | .operation tag op arity => .operation tag op arity

namespace Table

variable {t : Table} {b : Binding}

/-- All rules are standard. -/
def Standard (t : Table) : Prop :=
  ∀ r ∈ t.rules, r.Standard

/-- No rule changes `v`. -/
def Normal (t : Table) (v : Term) : Prop :=
  ∀ r ∈ t.rules, ¬ r.Changes v

theorem standard_default : Table.default.Standard := by
  intro r hr
  simp only [Table.default, Rule.builtin, List.mem_cons, List.not_mem_nil, or_false] at hr
  rcases hr with rfl | rfl | rfl | rfl | rfl | rfl | rfl | rfl
  · exact .substitution _ _
  · exact .substitution _ _
  all_goals exact .builtin _

/-- The slots of a table, in order. -/
def slots (t : Table) : List Rule.Slot :=
  t.rules.map Rule.slot

/-! ## One binding -/

/-- A binding takes the place of the first rule that renames its name, or it comes last. -/
theorem bind_cases (t : Table) (b : Binding) :
    (∃ before u after, t.rules = before ++ .substitution b.name u :: after ∧ u ≠ .sym b.name ∧
      (∀ r ∈ before, r.renames b.name = false) ∧
      (t.bind b).rules = before ++ .substitution b.name b.definition :: after) ∨
    ((∀ r ∈ t.rules, r.renames b.name = false) ∧
      (t.bind b).rules = t.rules ++ [.substitution b.name b.definition]) := by
  cases h : t.slot? b.name with
  | none =>
    right
    refine ⟨List.findIdx?_eq_none_iff.1 h, ?_⟩
    simp [bind, h]
  | some i =>
    left
    obtain ⟨hi, hr, hfirst⟩ := List.findIdx?_eq_some_iff_getElem.1 h
    obtain ⟨u, hrule, hu⟩ := Rule.renames_iff.1 hr
    refine ⟨t.rules.take i, u, t.rules.drop (i + 1), ?_, hu, ?_, ?_⟩
    · rw [← hrule, ← List.drop_eq_getElem_cons hi, List.take_append_drop]
    · intro r hmem
      obtain ⟨j, hj, rfl⟩ := List.mem_take_iff_getElem.1 hmem
      simpa using hfirst j (by omega)
    · simp only [bind, h]
      exact List.set_eq_take_append_cons_drop.trans (if_pos hi)

/-- A binding touches one place: that of a rule that renames its name, or the one behind the
table. -/
theorem exists_place_bind (t : Table) (b : Binding) :
    ∃ place : Nat, (t.bind b).rules[place]? = some (.substitution b.name b.definition) ∧
      (∀ r, t.rules[place]? = some r → r.renames b.name = true) ∧
      ∀ j, j ≠ place → (t.bind b).rules[j]? = t.rules[j]? := by
  cases h : t.slot? b.name with
  | none =>
    refine ⟨t.rules.length, by simp [bind, h], by simp, fun j hj => ?_⟩
    simp only [bind, h]
    rcases Nat.lt_or_gt_of_ne hj with hj | hj
    · rw [List.getElem?_append_left hj]
    · rw [List.getElem?_eq_none (by simpa using Nat.succ_le_of_lt hj),
        List.getElem?_eq_none (Nat.le_of_lt hj)]
  | some i =>
    obtain ⟨hi, hr, -⟩ := List.findIdx?_eq_some_iff_getElem.1 h
    refine ⟨i, by simp [bind, h, hi], fun r hri => ?_, fun j hj => ?_⟩
    · rw [List.getElem?_eq_getElem hi, Option.some.injEq] at hri
      exact hri ▸ hr
    · simp only [bind, h]
      rw [List.getElem?_set_ne (Ne.symm hj)]

theorem mem_rules_bind {r : Rule} (h : r ∈ (t.bind b).rules) :
    r ∈ t.rules ∨ r = .substitution b.name b.definition := by
  rcases bind_cases t b with ⟨before, u, after, ht, -, -, hb⟩ | ⟨-, hb⟩
  · rw [hb] at h
    rw [ht]
    simp only [List.mem_append, List.mem_cons] at h ⊢
    tauto
  · rw [hb] at h
    simpa using h

theorem slots_bind (t : Table) (b : Binding) :
    ∃ names : List String, (t.bind b).slots = t.slots ++ names.map .name := by
  rcases bind_cases t b with ⟨before, u, after, ht, -, -, hb⟩ | ⟨-, hb⟩
  · refine ⟨[], ?_⟩
    simp [slots, ht, hb, Rule.slot]
  · refine ⟨[b.name], ?_⟩
    simp [slots, hb, Rule.slot]

/-- The rules of a first part in which no rule renames the name stay where they are. -/
theorem take_bind {k : Nat} (hk : k ≤ t.rules.length)
    (h : ∀ r ∈ t.rules.take k, r.renames b.name = false) :
    (t.bind b).rules.take k = t.rules.take k := by
  rcases bind_cases t b with ⟨before, u, after, ht, hu, -, hb⟩ | ⟨-, hb⟩
  · have hkb : k ≤ before.length := by
      by_contra hlt
      have hmem : Rule.substitution b.name u ∈ t.rules.take k := by
        rw [ht, List.take_append, List.mem_append]
        right
        obtain ⟨n, hn⟩ := Nat.exists_eq_add_of_lt (Nat.lt_of_not_ge hlt)
        rw [hn, Nat.add_assoc, Nat.add_sub_cancel_left]
        exact List.mem_cons_self
      have hfalse := h _ hmem
      rw [Rule.renames_iff.2 ⟨u, rfl, hu⟩] at hfalse
      exact Bool.noConfusion hfalse
    rw [hb, ht, List.take_append_of_le_length hkb, List.take_append_of_le_length hkb]
  · rw [hb, List.take_append_of_le_length hk]

theorem length_rules_le_bind (t : Table) (b : Binding) :
    t.rules.length ≤ (t.bind b).rules.length := by
  rcases bind_cases t b with ⟨before, u, after, ht, -, -, hb⟩ | ⟨-, hb⟩
  · rw [ht, hb]
    simp
  · rw [hb]
    simp

/-! ## Many bindings -/

@[simp] theorem bindAll_nil (t : Table) : t.bindAll [] = t :=
  rfl

@[simp] theorem bindAll_cons (t : Table) (b : Binding) (bs : List Binding) :
    t.bindAll (b :: bs) = (t.bind b).bindAll bs :=
  rfl

theorem bindAll_append (t : Table) (bs cs : List Binding) :
    t.bindAll (bs ++ cs) = (t.bindAll bs).bindAll cs :=
  List.foldl_append

theorem mem_rules_bindAll {r : Rule} {bs : List Binding} (h : r ∈ (t.bindAll bs).rules) :
    r ∈ t.rules ∨ ∃ b ∈ bs, r = .substitution b.name b.definition := by
  induction bs generalizing t with
  | nil => exact .inl h
  | cons b bs ih =>
    rcases ih h with h | ⟨c, hc, h⟩
    · rcases mem_rules_bind h with h | h
      · exact .inl h
      · exact .inr ⟨b, List.mem_cons_self, h⟩
    · exact .inr ⟨c, List.mem_cons_of_mem _ hc, h⟩

theorem Standard.bindAll (ht : t.Standard) (bs : List Binding) : (t.bindAll bs).Standard := by
  intro r hr
  rcases mem_rules_bindAll hr with hr | ⟨b, -, rfl⟩
  · exact ht r hr
  · exact .substitution _ _

/-- Binding moves no rule and renames none: the slots of the table stay, and only names are
added. -/
theorem slots_bindAll (t : Table) (bs : List Binding) :
    ∃ names : List String, (t.bindAll bs).slots = t.slots ++ names.map .name := by
  induction bs generalizing t with
  | nil => exact ⟨[], by simp⟩
  | cons b bs ih =>
    obtain ⟨ns, hns⟩ := slots_bind t b
    obtain ⟨ms, hms⟩ := ih (t.bind b)
    refine ⟨ns ++ ms, ?_⟩
    rw [bindAll_cons, hms, hns, List.append_assoc, List.map_append]

theorem length_rules_le_bindAll (t : Table) (bs : List Binding) :
    t.rules.length ≤ (t.bindAll bs).rules.length := by
  induction bs generalizing t with
  | nil => exact Nat.le_refl _
  | cons b bs ih => exact Nat.le_trans (length_rules_le_bind t b) (ih (t.bind b))

/-- The rules of a first part in which no rule renames a bound name stay where they are. -/
theorem take_bindAll {k : Nat} {bs : List Binding} (hk : k ≤ t.rules.length)
    (h : ∀ r ∈ t.rules.take k, ∀ b ∈ bs, r.renames b.name = false) :
    (t.bindAll bs).rules.take k = t.rules.take k := by
  induction bs generalizing t with
  | nil => rfl
  | cons b bs ih =>
    have hb := take_bind hk fun r hr => h r hr b List.mem_cons_self
    rw [bindAll_cons, ih (Nat.le_trans hk (length_rules_le_bind t b)), hb]
    intro r hr c hc
    exact h r (hb ▸ hr) c (List.mem_cons_of_mem _ hc)

/-! ## How many rules rename a name -/

/-- How many rules rename the symbol `name`. -/
def renamers (t : Table) (name : String) : Nat :=
  t.rules.countP (Rule.renames name)

theorem renamers_eq_zero_iff {name : String} :
    t.renamers name = 0 ↔ ∀ r ∈ t.rules, r.renames name = false := by
  rw [renamers, List.countP_eq_zero]
  simp

theorem renames_substitution_self {name : String} {u : Term} :
    (Rule.substitution name u).renames name = true ↔ u ≠ .sym name := by
  simp [Rule.renames_iff]

theorem renames_substitution_of_ne {name n : String} {u : Term} (h : n ≠ name) :
    (Rule.substitution n u).renames name = false := by
  simp [Rule.renames, h]

/-- Binding a name to another term leaves it at least one rule, and binding it to itself takes one
rule away. -/
theorem renamers_bind_self (t : Table) (b : Binding) :
    (b.definition ≠ .sym b.name → (t.bind b).renamers b.name = max 1 (t.renamers b.name)) ∧
    (b.definition = .sym b.name → (t.bind b).renamers b.name = t.renamers b.name - 1) := by
  have hdef : b.definition ≠ .sym b.name ↔
      (Rule.substitution b.name b.definition).renames b.name = true :=
    renames_substitution_self.symm
  rcases bind_cases t b with ⟨before, u, after, ht, hu, -, hb⟩ | ⟨hnone, hb⟩
  · have hren := renames_substitution_self.2 hu
    simp only [renamers, ht, hb, List.countP_append, List.countP_cons, hren, if_true]
    constructor
    · intro h
      rw [if_pos (hdef.1 h)]
      omega
    · intro h
      rw [if_neg (mt hdef.2 (not_not.2 h))]
      omega
  · have hzero : t.renamers b.name = 0 := renamers_eq_zero_iff.2 hnone
    rw [hzero]
    rw [renamers] at hzero
    simp only [renamers, hb, List.countP_append, hzero, List.countP_singleton]
    constructor
    · intro h
      rw [if_pos (hdef.1 h)]
      rfl
    · intro h
      rw [if_neg (mt hdef.2 (not_not.2 h))]

theorem renamers_bind_of_ne {name : String} (h : b.name ≠ name) :
    (t.bind b).renamers name = t.renamers name := by
  have hsub : ∀ u, (Rule.substitution b.name u).renames name = false := fun u =>
    renames_substitution_of_ne h
  rcases bind_cases t b with ⟨before, u, after, ht, -, -, hb⟩ | ⟨-, hb⟩
  · simp [renamers, ht, hb, hsub]
  · simp [renamers, hb, hsub]

theorem renamers_bind_mono {t' : Table} {name : String} (h : t.renamers name ≤ t'.renamers name)
    (b : Binding) : (t.bind b).renamers name ≤ (t'.bind b).renamers name := by
  by_cases hn : b.name = name
  · subst hn
    by_cases hd : b.definition = .sym b.name
    · rw [(renamers_bind_self t b).2 hd, (renamers_bind_self t' b).2 hd]
      omega
    · rw [(renamers_bind_self t b).1 hd, (renamers_bind_self t' b).1 hd]
      omega
  · rwa [renamers_bind_of_ne hn, renamers_bind_of_ne hn]

/-- More rules for a name before binding never make fewer rules for it after binding. -/
theorem renamers_bindAll_mono {t' : Table} {name : String}
    (h : t.renamers name ≤ t'.renamers name) (bs : List Binding) :
    (t.bindAll bs).renamers name ≤ (t'.bindAll bs).renamers name := by
  induction bs generalizing t t' with
  | nil => exact h
  | cons b bs ih => exact ih (renamers_bind_mono h b)

/-! ## Looking names up -/

theorem mem_of_lookup? {name : String} {u : Term} (h : t.lookup? name = some u) :
    Rule.substitution name u ∈ t.rules := by
  obtain ⟨r, hr, hu⟩ := List.exists_of_findSome?_eq_some h
  cases r with
  | operation => simp [Rule.replacement?] at hu
  | substitution n v =>
    simp only [Rule.replacement?] at hu
    split_ifs at hu with hn
    rw [Option.some.injEq] at hu
    exact hn ▸ hu ▸ hr

theorem exists_lookup? {name : String} {u : Term} (h : Rule.substitution name u ∈ t.rules) :
    ∃ v, t.lookup? name = some v := by
  rw [← Option.isSome_iff_exists, lookup?, List.findSome?_isSome_iff]
  exact ⟨_, h, by simp [Rule.replacement?]⟩

end Table

end TermCalc
