import Mathlib.Data.List.Basic

/-!
# Braces and words

The braces of a text cut it into words, the longest stretches without a brace. Leaving characters
out never makes more words, and neither does it to put a text into the place of a bracketed one if
it has no more words than that.

## Main definitions

* `Template.isBrace c`, `Template.BraceFree cs`: braces, and texts without them
* `Template.words inside cs`: how many words begin in a text
* `Template.stretches cs`: how many stretches of braces a text has
* `Template.braces cs`: how many braces a text has
* `Template.KeepsBraces f`: `f` writes braces as they are and other characters without braces

## Main results

* `words_le_of_sublist`: leaving characters out makes no more words
* `words_append_brace`: a brace separates words
* `words_padded_le`: words of a padded text
* `words_flatMap`: characters may be escaped
-/

namespace TermCalc.Template

/-- A brace, opening or closing. -/
def isBrace (c : Char) : Bool :=
  c == '\x7b' || c == '\x7d'

/-- A text without braces. -/
def BraceFree (cs : List Char) : Prop :=
  ∀ c ∈ cs, isBrace c = false

instance (cs : List Char) : Decidable (BraceFree cs) :=
  List.decidableBAll _ cs

/-- How many words begin in a text; `inside` says whether the text continues one. -/
def words (inside : Bool) : List Char → Nat
  | [] => 0
  | c :: cs =>
    if isBrace c then words false cs
    else if inside then words true cs
    else words true cs + 1

/-- How many braces a text has. -/
def braces (cs : List Char) : Nat :=
  cs.countP isBrace

/-- How many stretches of braces a text has: a word begins behind each of them. -/
def stretches (cs : List Char) : Nat :=
  words true (cs ++ [' '])

variable {c : Char} {b : Bool} {x y u v : List Char}

/-! ## Words -/

@[simp] theorem words_nil : words b [] = 0 :=
  rfl

theorem words_cons_brace (h : isBrace c = true) : words b (c :: x) = words false x := by
  simp [words, h]

theorem words_true_cons (h : isBrace c = false) : words true (c :: x) = words true x := by
  simp [words, h]

theorem words_false_cons (h : isBrace c = false) : words false (c :: x) = words true x + 1 := by
  simp [words, h]

theorem words_true_le (x : List Char) : words true x ≤ words false x := by
  cases x with
  | nil => exact Nat.le_refl 0
  | cons c x =>
    cases h : isBrace c with
    | true => exact Nat.le_of_eq (by rw [words_cons_brace h, words_cons_brace h])
    | false =>
      rw [words_true_cons h, words_false_cons h]
      omega

theorem words_false_le (x : List Char) : words false x ≤ words true x + 1 := by
  cases x with
  | nil => exact Nat.zero_le _
  | cons c x =>
    cases h : isBrace c with
    | true =>
      rw [words_cons_brace h, words_cons_brace h]
      omega
    | false => exact Nat.le_of_eq (by rw [words_true_cons h, words_false_cons h])

theorem words_le_false (b : Bool) (x : List Char) : words b x ≤ words false x := by
  cases b
  · exact Nat.le_refl _
  · exact words_true_le x

theorem words_le_cons (b : Bool) (c : Char) (x : List Char) : words b x ≤ words b (c :: x) := by
  cases h : isBrace c with
  | true =>
    rw [words_cons_brace h]
    exact words_le_false b x
  | false =>
    cases b with
    | true => exact Nat.le_of_eq (words_true_cons h).symm
    | false =>
      rw [words_false_cons h]
      exact words_false_le x

/-- Leaving characters out makes no more words. -/
theorem words_le_of_sublist (h : x.Sublist y) (b : Bool) : words b x ≤ words b y := by
  induction h generalizing b with
  | slnil => exact Nat.le_refl _
  | cons c _ ih => exact Nat.le_trans (ih b) (words_le_cons b c _)
  | cons_cons c _ ih =>
    simp only [words]
    split_ifs
    · exact ih false
    · exact ih true
    · exact Nat.succ_le_succ (ih true)

/-- A brace separates words. -/
theorem words_append_brace (h : isBrace c = true) (b : Bool) (x y : List Char) :
    words b (x ++ c :: y) = words b x + words false y := by
  induction x generalizing b with
  | nil => rw [List.nil_append, words_cons_brace h, words_nil, Nat.zero_add]
  | cons d x ih =>
    simp only [List.cons_append, words]
    split_ifs
    · exact ih false
    · exact ih true
    · rw [ih true]
      omega

theorem words_append_le (b : Bool) (x y : List Char) :
    words b (x ++ y) ≤ words b x + words false y := by
  induction x generalizing b with
  | nil =>
    rw [List.nil_append, words_nil, Nat.zero_add]
    exact words_le_false b y
  | cons d x ih =>
    simp only [List.cons_append, words]
    split_ifs
    · exact ih false
    · exact ih true
    · have := ih true
      omega

/-- Behind a character that is no brace a word is going on. -/
theorem words_append_plain (h : isBrace c = false) (b : Bool) (x y : List Char) :
    words b (x ++ c :: y) = words b (x ++ [c]) + words true y := by
  induction x generalizing b with
  | nil =>
    cases b with
    | true => rw [List.nil_append, List.nil_append, words_true_cons h, words_true_cons h,
        words_nil, Nat.zero_add]
    | false =>
      rw [List.nil_append, List.nil_append, words_false_cons h, words_false_cons h, words_nil]
      omega
  | cons d x ih =>
    simp only [List.cons_append, words]
    split_ifs
    · exact ih false
    · exact ih true
    · rw [ih true]
      omega

/-! ## Texts without braces -/

@[simp] theorem braceFree_nil : BraceFree [] :=
  fun _ hc => absurd hc List.not_mem_nil

@[simp] theorem braceFree_cons : BraceFree (c :: x) ↔ isBrace c = false ∧ BraceFree x :=
  List.forall_mem_cons

theorem BraceFree.append (hx : BraceFree x) (hy : BraceFree y) : BraceFree (x ++ y) := by
  intro c hc
  rcases List.mem_append.1 hc with hc | hc
  · exact hx c hc
  · exact hy c hc

theorem BraceFree.words_append (hu : BraceFree u) (x : List Char) :
    words true (u ++ x) = words true x := by
  induction u with
  | nil => rfl
  | cons c u ih =>
    obtain ⟨hc, hu⟩ := braceFree_cons.1 hu
    rw [List.cons_append, words_true_cons hc, ih hu]

/-- All texts without braces have the same effect behind a text. -/
theorem BraceFree.words_behind (hv : BraceFree v) (h : v ≠ []) (b : Bool) (x : List Char) :
    words b (x ++ v) = words b (x ++ [' ']) := by
  obtain ⟨c, v, rfl⟩ := List.exists_cons_of_ne_nil h
  obtain ⟨hc, hv⟩ := braceFree_cons.1 hv
  have hrest : words true v = 0 := by
    have happend := hv.words_append []
    rwa [List.append_nil] at happend
  rw [words_append_plain hc, hrest, Nat.add_zero]
  -- a single character behind `x` counts as a word or not, whichever it is
  induction x generalizing b with
  | nil =>
    have hspace : isBrace ' ' = false := rfl
    cases b <;> simp [words, hc, hspace]
  | cons d x ih =>
    simp only [List.cons_append, words]
    split_ifs
    · exact ih false
    · exact ih true
    · rw [ih true]

theorem BraceFree.stretches_eq (hx : BraceFree x) : stretches x = 0 := by
  rw [stretches, hx.words_append]
  rfl

/-- Texts without braces add no stretch of braces. -/
theorem stretches_between (hu : BraceFree u) (hv : BraceFree v) (x : List Char) :
    stretches (u ++ x ++ v) = stretches x := by
  have hend : BraceFree (v ++ [' ']) := hv.append (by decide)
  rw [stretches, List.append_assoc, List.append_assoc, hu.words_append,
    hend.words_behind (by simp), stretches]

theorem stretches_le_of_sublist (h : x.Sublist y) : stretches x ≤ stretches y :=
  words_le_of_sublist (h.append_right _) true

/-- Between two characters that are no braces there is a word more than stretches of braces. -/
theorem words_enclosed {d : Char} (hc : isBrace c = false) (hd : isBrace d = false)
    (x : List Char) : words false (c :: (x ++ [d])) = stretches x + 1 := by
  have hend : BraceFree [d] := by simp [hd]
  rw [words_false_cons hc, hend.words_behind (by simp), stretches]

/-- A text without braces in front or behind makes a word more at most. -/
theorem words_between_le (hu : BraceFree u) (hv : BraceFree v) (x : List Char) :
    words false (u ++ x ++ v) ≤ stretches x + 1 := by
  have hsub : (u ++ x ++ v).Sublist (' ' :: (u ++ x ++ v ++ [' '])) :=
    (List.sublist_append_left _ _).cons _
  have hle := words_le_of_sublist hsub false
  rwa [words_enclosed (by decide) (by decide), stretches_between hu hv] at hle

theorem words_le_stretches (x : List Char) : words false x ≤ stretches x + 1 := by
  have hle := words_between_le braceFree_nil braceFree_nil x
  rwa [List.nil_append, List.append_nil] at hle

theorem words_replicate_brace (h : isBrace c = true) (n : Nat) (x : List Char) :
    words false (List.replicate n c ++ x) = words false x := by
  induction n with
  | zero => rfl
  | succ n ih => rw [List.replicate_succ, List.cons_append, words_cons_brace h, ih]

theorem braceFree_replicate (h : isBrace c = false) (n : Nat) :
    BraceFree (List.replicate n c) := by
  intro d hd
  rwa [List.eq_of_mem_replicate hd]

/-- A padded text has a word more at most than stretches of braces, whatever it is padded with. -/
theorem words_padded_le (c : Char) (m n : Nat) (x : List Char) :
    words false (List.replicate m c ++ x ++ List.replicate n c) ≤ stretches x + 1 := by
  cases h : isBrace c with
  | false => exact words_between_le (braceFree_replicate h m) (braceFree_replicate h n) x
  | true =>
    rw [List.append_assoc, words_replicate_brace h]
    have hbehind := words_append_le false x (List.replicate n c)
    have hnone := words_replicate_brace h n []
    rw [List.append_nil, words_nil] at hnone
    have hx := words_le_stretches x
    omega

/-! ## Braces -/

@[simp] theorem braces_nil : braces [] = 0 :=
  rfl

theorem braces_cons (c : Char) (x : List Char) :
    braces (c :: x) = braces x + if isBrace c then 1 else 0 :=
  List.countP_cons

theorem braces_append (x y : List Char) : braces (x ++ y) = braces x + braces y :=
  List.countP_append

theorem braces_le_of_sublist (h : x.Sublist y) : braces x ≤ braces y :=
  h.countP_le

theorem braces_eq_zero_iff : braces x = 0 ↔ BraceFree x := by
  rw [braces, List.countP_eq_zero]
  simp [BraceFree]

/-! ## Escaping -/

/-- Braces are written as they are, and other characters without braces. -/
structure KeepsBraces (f : Char → List Char) : Prop where
  brace : ∀ c, isBrace c = true → f c = [c]
  plain : ∀ c, isBrace c = false → f c ≠ [] ∧ BraceFree (f c)

variable {f : Char → List Char}

theorem KeepsBraces.braces_flatMap (hf : KeepsBraces f) (x : List Char) :
    braces (x.flatMap f) = braces x := by
  induction x with
  | nil => rfl
  | cons c x ih =>
    rw [List.flatMap_cons, braces_append, ih, braces_cons]
    cases h : isBrace c with
    | true =>
      rw [hf.brace c h, braces_cons, h]
      simp [Nat.add_comm]
    | false =>
      rw [braces_eq_zero_iff.2 (hf.plain c h).2]
      simp

theorem KeepsBraces.words_flatMap (hf : KeepsBraces f) (b : Bool) (x y : List Char) :
    words b (x.flatMap f ++ y) = words b (x ++ y) := by
  induction x generalizing b with
  | nil => rfl
  | cons c x ih =>
    rw [List.flatMap_cons, List.append_assoc, List.cons_append]
    cases h : isBrace c with
    | true => rw [hf.brace c h, List.singleton_append, words_cons_brace h, words_cons_brace h, ih]
    | false =>
      obtain ⟨hne, hfree⟩ := hf.plain c h
      obtain ⟨d, ds, hd⟩ := List.exists_cons_of_ne_nil hne
      rw [hd] at hfree ⊢
      obtain ⟨hd, hds⟩ := braceFree_cons.1 hfree
      cases b with
      | true => rw [hfree.words_append, words_true_cons h, ih]
      | false =>
        rw [List.cons_append, words_false_cons hd, hds.words_append, words_false_cons h, ih]

theorem KeepsBraces.stretches_flatMap (hf : KeepsBraces f) (x : List Char) :
    stretches (x.flatMap f) = stretches x :=
  hf.words_flatMap true x _

end TermCalc.Template
