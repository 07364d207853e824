import Mathlib.Data.Set.Card
import TermCalc.Proofs.Number.Same
import TermCalc.Proofs.Rule.Congruence

/-!
# Keys of terms

Equivalent terms are those with the same key. A key keeps the shape of a term, with one mark for all
numbers that count as the same; it can be taken as a tree, with a mark of its own for NaN, or as the
list of the nodes of that tree. So terms can be told apart by hashes of their keys: a set that looks
for a term only among those with the same hash holds one term of every class of equivalent terms,
whatever the hashes are.

## Main definitions

* `Term.KeyTree`, `Term.keyTree t`: the key of a term as a tree
* `Term.KeyTree.same`: whether two such keys are the same
* `Term.classes ts`: the classes of the terms in a list
* `Term.hashed hash ts`: the set that is built of a list by means of hashes

## Main results

* `keyTree_same_iff`, `equivalent_iff_key_eq`: the terms with the same key
* `countDistinct_eq_ncard_classes`, `length_hashed`: how many different terms are in a list
* `equivalence_of_keys`: equivalence, keys and sets agree
-/

namespace TermCalc.Term

variable {s t : Term} {ss ts : List Term}

/-! ## Keys as trees -/

/-- The key of a term as a tree. -/
inductive KeyTree where
  | nan
  | number (value : Float)
  | name (name : String)
  | application (head : KeyTree) (args : List KeyTree)
  | abstraction (params : List KeyTree) (body : KeyTree)

namespace KeyTree

/-- The key of a number. -/
def ofNumber (x : Float) : KeyTree :=
  if x.isNaN then .nan else .number x

theorem ofNumber_cases (x : Float) : ofNumber x = .nan ∨ ofNumber x = .number x := by
  unfold ofNumber
  split_ifs
  · exact .inl rfl
  · exact .inr rfl

mutual

/-- Whether two keys are the same, with their numbers compared as numbers. -/
def same : KeyTree → KeyTree → Bool
  | .nan, .nan => true
  | .number x, .number y => x == y
  | .name m, .name n => m == n
  | .application f as, .application g bs => same f g && sameAll as bs
  | .abstraction ps b, .abstraction qs c => sameAll ps qs && same b c
  | _, _ => false

/-- Whether two lists hold the same keys. -/
def sameAll : List KeyTree → List KeyTree → Bool
  | [], [] => true
  | k :: ks, l :: ls => same k l && sameAll ks ls
  | _, _ => false

end

end KeyTree

mutual

/-- The tree of the key of a term. -/
def keyTree : Term → KeyTree
  | .const x => .ofNumber x
  | .sym name => .name name
  | .app head args => .application head.keyTree (keyTreeAll args)
  | .lam params body => .abstraction (keyTreeAll params) body.keyTree

/-- The trees of the keys of a list of terms. -/
def keyTreeAll : List Term → List KeyTree
  | [] => []
  | t :: ts => t.keyTree :: keyTreeAll ts

end

theorem sameAll_keyTreeAll_iff : KeyTree.sameAll (keyTreeAll ss) (keyTreeAll ts) = true ↔
    List.Forall₂ (fun s t => s.keyTree.same t.keyTree = true) ss ts := by
  induction ss generalizing ts with
  | nil => cases ts <;> simp [keyTreeAll, KeyTree.sameAll]
  | cons s ss ih =>
    cases ts with
    | nil => simp [keyTreeAll, KeyTree.sameAll]
    | cons t ts => simp [keyTreeAll, KeyTree.sameAll, ih]

theorem keyTree_app_same_iff {f g : Term} {as bs : List Term} :
    (app f as).keyTree.same (app g bs).keyTree = true ↔ f.keyTree.same g.keyTree = true ∧
      List.Forall₂ (fun a b => a.keyTree.same b.keyTree = true) as bs := by
  rw [keyTree, keyTree, KeyTree.same, Bool.and_eq_true, sameAll_keyTreeAll_iff]

theorem keyTree_lam_same_iff {b c : Term} {ps qs : List Term} :
    (lam ps b).keyTree.same (lam qs c).keyTree = true ↔
      List.Forall₂ (fun p q => p.keyTree.same q.keyTree = true) ps qs ∧
        b.keyTree.same c.keyTree = true := by
  rw [keyTree, keyTree, KeyTree.same, Bool.and_eq_true, sameAll_keyTreeAll_iff]

theorem same_ofNumber (x y : Float) :
    (KeyTree.ofNumber x).same (KeyTree.ofNumber y) = sameNumber x y := by
  have hne : x.isNaN ≠ y.isNaN → (x == y) = false := by
    intro h
    rw [← Bool.not_eq_true]
    intro heq
    rw [Binary64.isNaN_of_beq heq, Binary64.isNaN_of_beq (Binary64.beq_symm heq)] at h
    exact h rfl
  rw [KeyTree.ofNumber, KeyTree.ofNumber, sameNumber]
  cases hx : x.isNaN <;> cases hy : y.isNaN <;> rw [hx, hy] at hne
  · exact (Bool.or_false _).symm
  · rw [hne Bool.false_ne_true]
    rfl
  · rw [hne Bool.false_ne_true.symm]
    rfl
  · exact (Bool.or_true _).symm

/-- The key of a number is that of numbers only. -/
theorem keyTree_const_same_iff {x : Float} :
    (const x).keyTree.same t.keyTree = true ↔ ∃ y, t = .const y ∧ sameNumber x y = true := by
  cases t with
  | const y => simp [keyTree, same_ofNumber]
  | _ => rcases KeyTree.ofNumber_cases x with h | h <;> simp [keyTree, h, KeyTree.same]

theorem keyTree_same_const_iff {y : Float} :
    s.keyTree.same (const y).keyTree = true ↔ ∃ x, s = .const x ∧ sameNumber x y = true := by
  cases s with
  | const x => simp [keyTree, same_ofNumber]
  | _ => rcases KeyTree.ofNumber_cases y with h | h <;> simp [keyTree, h, KeyTree.same]

/-- Terms are equivalent exactly if the trees of their keys are the same. -/
theorem keyTree_same_iff : s.keyTree.same t.keyTree = true ↔ s.equivalent t = true := by
  induction s using Term.induction generalizing t with
  | const x => rw [keyTree_const_same_iff, equivalent_const_iff]
  | sym name =>
    cases t with
    | const y => simp [keyTree_same_const_iff]
    | _ => simp [keyTree, KeyTree.same, equivalent]
  | app head args hh ha =>
    cases t with
    | const y => simp [keyTree_same_const_iff, equivalent]
    | app head' args' =>
      rw [keyTree_app_same_iff, equivalent_app_iff, hh]
      refine and_congr_right fun _ => ⟨fun h => ?_, fun h => ?_⟩
      · exact forall₂_of_forall_mem h fun a hm b => (ha a hm).1
      · exact forall₂_of_forall_mem h fun a hm b => (ha a hm).2
    | _ => simp [keyTree, KeyTree.same, equivalent]
  | lam params body hp hb =>
    cases t with
    | const y => simp [keyTree_same_const_iff, equivalent]
    | lam params' body' =>
      rw [keyTree_lam_same_iff, equivalent_lam_iff, hb]
      refine and_congr_left fun _ => ⟨fun h => ?_, fun h => ?_⟩
      · exact forall₂_of_forall_mem h fun p hm q => (hp p hm).1
      · exact forall₂_of_forall_mem h fun p hm q => (hp p hm).2
    | _ => simp [keyTree, KeyTree.same, equivalent]

/-! ## Keys as lists -/

/-- Numbers have the same representative exactly if they count as the same. -/
theorem representative_eq_iff {x y : Float} :
    representative x = representative y ↔ sameNumber x y = true := by
  rw [sameNumber_iff_eq_or_isZero, representative, representative]
  split_ifs with hx hy hy
  · rw [Binary64.beq_zero_iff] at hx hy
    exact iff_of_true rfl (.inr ⟨hx, hy⟩)
  · rw [Binary64.beq_zero_iff] at hx hy
    constructor
    · rintro rfl
      exact absurd Binary64.isZero_zero hy
    · rintro (rfl | ⟨-, h⟩)
      · exact absurd hx hy
      · exact absurd h hy
  · rw [Binary64.beq_zero_iff] at hx hy
    constructor
    · rintro rfl
      exact absurd Binary64.isZero_zero hx
    · rintro (rfl | ⟨h, -⟩)
      · exact absurd hy hx
      · exact absurd h hx
  · rw [Binary64.beq_zero_iff] at hx
    exact (or_iff_left fun h => hx h.1).symm

theorem keyAll_eq_of_forall₂ (h : List.Forall₂ (fun s t => s.key = t.key) ss ts) :
    keyAll ss = keyAll ts := by
  induction h with
  | nil => rfl
  | cons h _ ih => rw [keyAll, keyAll, h, ih]

theorem key_eq_of_equivalent (h : s.equivalent t = true) : s.key = t.key := by
  induction s, t, h using equivalent_induction with
  | const x y h => rw [key, key, representative_eq_iff.2 h]
  | sym name => rfl
  | app f g as bs hfg hab hf ha =>
    rw [key, key, hf, hab.length_eq, keyAll_eq_of_forall₂ (ha.imp fun _ _ h => h.2)]
  | lam ps qs b c hpq hbc hp hb =>
    rw [key, key, hb, hpq.length_eq, keyAll_eq_of_forall₂ (hp.imp fun _ _ h => h.2)]

/-- As many keys as are expected can be read off the front of a list of nodes in one way only, if
that holds of each of them. -/
theorem forall₂_of_keyAll_append_eq {r r' : List Mark} (hlength : ss.length = ts.length)
    (h : keyAll ss ++ r = keyAll ts ++ r')
    (hs : ∀ s ∈ ss, ∀ t r r', s.key ++ r = t.key ++ r' → s.equivalent t = true ∧ r = r') :
    List.Forall₂ (fun s t => s.equivalent t = true) ss ts ∧ r = r' := by
  induction ss generalizing ts with
  | nil =>
    obtain rfl := List.length_eq_zero_iff.1 hlength.symm
    exact ⟨.nil, h⟩
  | cons s ss ih =>
    cases ts with
    | nil => simp at hlength
    | cons t ts =>
      rw [keyAll, keyAll, List.append_assoc, List.append_assoc] at h
      obtain ⟨hfirst, hrest⟩ := hs s List.mem_cons_self t _ _ h
      obtain ⟨hall, hend⟩ := ih (Nat.succ.inj hlength) hrest fun s hm =>
        hs s (List.mem_cons_of_mem _ hm)
      exact ⟨.cons hfirst hall, hend⟩

/-- A key can be read off the front of a list of nodes in one way only: its first node says how many
arguments or parameters there are to read. -/
theorem equivalent_of_key_append_eq {r r' : List Mark} (h : s.key ++ r = t.key ++ r') :
    s.equivalent t = true ∧ r = r' := by
  induction s using Term.induction generalizing t r r' with
  | const x =>
    cases t with
    | const y =>
      obtain ⟨hmark, hrest⟩ := List.cons.inj h
      exact ⟨representative_eq_iff.1 (Mark.number.inj hmark), hrest⟩
    | _ => simp [key] at h
  | sym name =>
    cases t with
    | sym name' =>
      obtain ⟨hmark, hrest⟩ := List.cons.inj h
      exact ⟨equivalent_sym_left.2 (congrArg sym (Mark.name.inj hmark).symm), hrest⟩
    | _ => simp [key] at h
  | app head args hh ha =>
    cases t with
    | app head' args' =>
      rw [key, key, List.cons_append, List.cons_append, List.append_assoc, List.append_assoc] at h
      obtain ⟨hmark, h⟩ := List.cons.inj h
      obtain ⟨hhead, h⟩ := hh h
      obtain ⟨hargs, hrest⟩ := forall₂_of_keyAll_append_eq (Mark.application.inj hmark) h
        fun a hm t r r' => ha a hm
      exact ⟨equivalent_app_iff.2 ⟨hhead, hargs⟩, hrest⟩
    | _ => simp [key] at h
  | lam params body hp hb =>
    cases t with
    | lam params' body' =>
      rw [key, key, List.cons_append, List.cons_append, List.append_assoc, List.append_assoc] at h
      obtain ⟨hmark, h⟩ := List.cons.inj h
      obtain ⟨hparams, h⟩ := forall₂_of_keyAll_append_eq (Mark.abstraction.inj hmark) h
        fun p hm t r r' => hp p hm
      obtain ⟨hbody, hrest⟩ := hb h
      exact ⟨equivalent_lam_iff.2 ⟨hparams, hbody⟩, hrest⟩
    | _ => simp [key] at h

/-- Terms are equivalent exactly if they have the same nodes in the same order. -/
theorem equivalent_iff_key_eq : s.equivalent t = true ↔ s.key = t.key := by
  constructor
  · exact key_eq_of_equivalent
  · intro h
    exact (equivalent_of_key_append_eq (congrArg (· ++ []) h)).1

/-! ## Different terms of a list -/

/-- The terms that are equivalent to a term. -/
def classOf (t : Term) : Set Term :=
  {s | t.equivalent s = true}

/-- The classes of the terms in a list. -/
def classes (ts : List Term) : Set (Set Term) :=
  {c | ∃ t ∈ ts, t.classOf = c}

theorem classOf_eq_iff : s.classOf = t.classOf ↔ s.equivalent t = true := by
  constructor
  · intro h
    have ht : t ∈ s.classOf := h ▸ equivalent_refl t
    exact ht
  · intro h
    apply Set.ext
    intro u
    exact ⟨equivalent_trans (equivalent_symm h), equivalent_trans h⟩

theorem classes_append (ss ts : List Term) : classes (ss ++ ts) = classes ss ∪ classes ts := by
  apply Set.ext
  intro c
  simp only [classes, List.mem_append, or_and_right, exists_or, Set.mem_ofPred_eq, Set.mem_union]

theorem classes_singleton (t : Term) : classes [t] = {t.classOf} := by
  apply Set.ext
  intro c
  simp only [classes, List.mem_singleton, exists_eq_left, Set.mem_ofPred_eq, Set.mem_singleton_iff]
  exact eq_comm

/-- A list without repetitions has as many members as it is long. -/
theorem ncard_mem_of_nodup {α : Type} {as : List α} (h : as.Nodup) :
    {a | a ∈ as}.ncard = as.length := by
  classical
  rw [← List.toFinset_card_of_nodup h, ← Set.ncard_coe_finset, List.coe_toFinset]

theorem nodup_eraseDups {α : Type} [BEq α] [LawfulBEq α] (as : List α) : as.eraseDups.Nodup := by
  match as with
  | [] => exact List.nodup_nil
  | a :: rest =>
    rw [List.eraseDups_cons, List.nodup_cons, List.mem_eraseDups, List.mem_filter]
    exact ⟨by simp, nodup_eraseDups _⟩
termination_by as.length
decreasing_by
  exact Nat.lt_succ_of_le (List.length_filter_le _ _)

/-- The keys of a list are as many as the classes of its terms. -/
theorem countDistinct_eq_ncard_classes (ts : List Term) :
    countDistinct ts = (classes ts).ncard := by
  -- a class consists of the terms with one key, and every key of the list has a class of its own
  have hclass : ∀ t : Term, {s | t.key = s.key} = t.classOf := fun t =>
    Set.ext fun s => equivalent_iff_key_eq.symm
  have himage : classes ts = (fun k => {s | k = s.key}) '' {k | k ∈ (ts.map key).eraseDups} := by
    apply Set.ext
    intro c
    simp only [classes, Set.mem_ofPred_eq, Set.mem_image, List.mem_eraseDups, List.mem_map,
      exists_exists_and_eq_and, hclass]
  have hinj : Set.InjOn (fun k => {s : Term | k = s.key}) {k | k ∈ (ts.map key).eraseDups} := by
    intro k hk l hl h
    obtain ⟨t, -, rfl⟩ := List.mem_map.1 (List.mem_eraseDups.1 hk)
    have ht : l = t.key := (Set.ext_iff.1 h t).1 rfl
    exact ht.symm
  rw [himage, hinj.ncard_image, ncard_mem_of_nodup (nodup_eraseDups _)]
  rfl

/-! ## Sets with hashes -/

section Hash

variable {α : Type} [DecidableEq α] (hash : KeyTree → α)

/-- Keys that are the same have the same hash. -/
def Respects : Prop :=
  ∀ k l : KeyTree, k.same l = true → hash k = hash l

/-- The set with a term put in, unless one with the same hash is there that it is equivalent to. -/
def putHashed (set : List Term) (t : Term) : List Term :=
  if set.any fun s => hash s.keyTree = hash t.keyTree && s.equivalent t then set else set ++ [t]

/-- The set of the terms in a list, put in one after the other. -/
def hashed (ts : List Term) : List Term :=
  ts.foldl (putHashed hash) []

variable {hash} {set : List Term}

/-- Whatever the hashes are, a term is found exactly if its class is in the set. -/
theorem found_iff (h : Respects hash) :
    (set.any fun s => hash s.keyTree = hash t.keyTree && s.equivalent t) = true ↔
      t.classOf ∈ classes set := by
  simp only [List.any_eq_true, Bool.and_eq_true, decide_eq_true_eq, classes, Set.mem_ofPred_eq,
    classOf_eq_iff]
  constructor
  · rintro ⟨s, hs, -, heq⟩
    exact ⟨s, hs, heq⟩
  · rintro ⟨s, hs, heq⟩
    exact ⟨s, hs, h _ _ (keyTree_same_iff.2 heq), heq⟩

theorem classes_putHashed (h : Respects hash) (set : List Term) (t : Term) :
    classes (putHashed hash set t) = classes set ∪ {t.classOf} := by
  unfold putHashed
  split_ifs with hfound
  · exact (Set.union_eq_self_of_subset_right
      (Set.singleton_subset_iff.2 ((found_iff h).1 hfound))).symm
  · rw [classes_append, classes_singleton]

/-- No two terms of a set are equivalent if that held before one was put in. -/
theorem nodup_putHashed (h : Respects hash) (hset : (set.map classOf).Nodup) (t : Term) :
    ((putHashed hash set t).map classOf).Nodup := by
  unfold putHashed
  split_ifs with hfound
  · exact hset
  · rw [List.map_append, List.map_singleton, List.nodup_append]
    refine ⟨hset, List.nodup_singleton _, ?_⟩
    rintro c hc d hd rfl
    rw [List.mem_singleton.1 hd] at hc
    exact hfound ((found_iff h).2 (List.mem_map.1 hc))

theorem foldl_putHashed (h : Respects hash) (hset : (set.map classOf).Nodup) (ts : List Term) :
    ((ts.foldl (putHashed hash) set).map classOf).Nodup ∧
      classes (ts.foldl (putHashed hash) set) = classes (set ++ ts) := by
  induction ts generalizing set with
  | nil => exact ⟨hset, by rw [List.foldl_nil, List.append_nil]⟩
  | cons t ts ih =>
    obtain ⟨hnodup, hclasses⟩ := ih (nodup_putHashed h hset t)
    refine ⟨hnodup, hclasses.trans ?_⟩
    rw [List.append_cons, classes_append, classes_append, classes_append, classes_singleton,
      classes_putHashed h]

/-- A set that is built by means of hashes holds one term of every class. -/
theorem length_hashed (h : Respects hash) (ts : List Term) :
    (hashed hash ts).length = (classes ts).ncard := by
  have hempty : (([] : List Term).map classOf).Nodup := List.nodup_nil
  obtain ⟨hnodup, hclasses⟩ := foldl_putHashed h hempty ts
  rw [List.nil_append] at hclasses
  have hmembers : classes (hashed hash ts) = {c | c ∈ (hashed hash ts).map classOf} :=
    Set.ext fun c => List.mem_map.symm
  rw [← hclasses]
  exact ((congrArg Set.ncard hmembers).trans
    ((ncard_mem_of_nodup hnodup).trans (List.length_map _))).symm

end Hash

/-! ## Equivalence, keys and sets -/

/-- **Equivalence and hashing agree.** Being equivalent is an equivalence. Terms are equivalent
exactly if their keys are the same, as trees and as lists. So a list of terms has as many different
terms as there are classes in it, and the set that is built of it by means of hashes has as many
elements, if keys that are the same have the same hash. -/
theorem equivalence_of_keys :
    Equivalence (fun s t : Term => s.equivalent t = true) ∧
      (∀ s t : Term, (s.equivalent t = true ↔ s.keyTree.same t.keyTree = true) ∧
        (s.equivalent t = true ↔ s.key = t.key)) ∧
      ∀ ts : List Term, countDistinct ts = (classes ts).ncard ∧
        ∀ {α : Type} [DecidableEq α] (hash : KeyTree → α), Respects hash →
          (hashed hash ts).length = (classes ts).ncard := by
  refine ⟨⟨equivalent_refl, equivalent_symm, equivalent_trans⟩, ?_, ?_⟩
  · exact fun s t => ⟨keyTree_same_iff.symm, equivalent_iff_key_eq⟩
  · exact fun ts => ⟨countDistinct_eq_ncard_classes ts, fun hash h => length_hashed h ts⟩

/-- A hash that looks at the root of a key only. -/
def rootHash : KeyTree → Nat
  | .nan => 0
  | .number x => (representative x).toBits.toNat
  | .name name => name.length
  | .application _ _ => 1
  | .abstraction _ _ => 2

theorem respects_rootHash : Respects rootHash := by
  intro k l h
  cases k <;> cases l <;> simp only [KeyTree.same, Bool.false_eq_true] at h
  case nan.nan => rfl
  case number.number x y =>
    rw [rootHash, rootHash, representative_eq_iff.2 (sameNumber_iff.2 (.inl h))]
  case name.name m n => rw [eq_of_beq h]
  case application.application => rfl
  case abstraction.abstraction => rfl

/-- The two zeros and the NaN that is computed twice count once each, alone and in an application,
whether the list is counted by keys or put into a set with a hash. -/
theorem equivalence_of_keys_signed_zeros :
    let ts : List Term := [.const 0, .unary "f" (.const 0), .const (0 / 0), .const (-0),
      .unary "f" (.const (-0)), .const (0 / 0), .sym "nan"]
    Respects rootHash ∧ countDistinct ts = 4 ∧ (classes ts).ncard = 4 ∧
      (hashed rootHash ts).length = 4 := by
  intro ts
  obtain ⟨hcount, hhashed⟩ := equivalence_of_keys.2.2 ts
  have hfour : countDistinct ts = 4 := by decide +kernel
  rw [hhashed rootHash respects_rootHash, ← hcount]
  exact ⟨respects_rootHash, hfour, hfour, hfour⟩

end TermCalc.Term
