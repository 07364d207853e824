import Mathlib.Data.List.Forall2
import TermCalc.Term.Equivalent

/-!
# Equivalence and occurrence

Equivalent terms have the same shape: they are of the same size and the same symbols occur in
them. A symbol counts as occurring in a term only outside abstractions, which no rule looks into.

## Main definitions

* `Term.Measure μ μs`: `μ` counts the nodes of a term and `μs` those of a list of terms
* `Term.mentions name t`: whether the symbol `name` occurs in `t`

## Main results

* `equivalent_refl`: every term is equivalent to itself, NaN included
* `equivalent_app_iff`: applications are equivalent part by part
* `equivalent_induction`: induction on two equivalent terms
* `Measure.app_eq_or_lt`: an application is as it was or smaller if its parts are
* `size_eq_of_equivalent`, `mentions_eq_of_equivalent`: what equivalent terms share
-/

namespace TermCalc

/-- Every number counts as the same as itself. -/
@[simp] theorem sameNumber_self (x : Float) : sameNumber x x = true := by
  have h : ∀ u : Float.Model.UnpackedFloat,
      (u.compare u == some .eq || (u.isNaN && u.isNaN)) = true := by
    intro u
    rcases u with s | _ | s | ⟨s, m, e, hm⟩
    · cases s <;> rfl
    · rfl
    · rfl
    · have hsame : (compare e e).then (compare m m) = .eq := by
        have hexponent : compare e e = .eq := Std.ReflCmp.compare_self
        have hmantissa : compare m m = .eq := Std.ReflCmp.compare_self
        rw [hexponent, hmantissa]
        rfl
      cases s
      all_goals
        dsimp only [Float.Model.UnpackedFloat.compare]
        rw [hsame]
        rfl
  exact h x.toModel.unpack

namespace Term

/-! ## The shape of equivalent terms -/

theorem equivalentAll_iff {ss ts : List Term} (h : ss.length = ts.length) :
    equivalentAll ss ts = true ↔ List.Forall₂ (fun s t => s.equivalent t = true) ss ts := by
  induction ss generalizing ts with
  | nil =>
    cases ts with
    | nil => simp [equivalentAll]
    | cons t ts => simp at h
  | cons s ss ih =>
    cases ts with
    | nil => simp at h
    | cons t ts =>
      simp only [equivalentAll, Bool.and_eq_true, List.forall₂_cons]
      rw [ih (by simpa using h)]

/-- Applications are equivalent part by part. -/
theorem equivalent_app_iff {f g : Term} {as bs : List Term} :
    (app f as).equivalent (app g bs) = true ↔
      f.equivalent g = true ∧ List.Forall₂ (fun a b => a.equivalent b = true) as bs := by
  simp only [equivalent, Bool.and_eq_true, beq_iff_eq]
  constructor
  · rintro ⟨⟨hl, hf⟩, hs⟩
    exact ⟨hf, (equivalentAll_iff hl).1 hs⟩
  · rintro ⟨hf, hs⟩
    exact ⟨⟨hs.length_eq, hf⟩, (equivalentAll_iff hs.length_eq).2 hs⟩

/-- Abstractions are equivalent part by part. -/
theorem equivalent_lam_iff {ps qs : List Term} {b c : Term} :
    (lam ps b).equivalent (lam qs c) = true ↔
      List.Forall₂ (fun p q => p.equivalent q = true) ps qs ∧ b.equivalent c = true := by
  simp only [equivalent, Bool.and_eq_true, beq_iff_eq]
  constructor
  · rintro ⟨⟨hl, hs⟩, hb⟩
    exact ⟨(equivalentAll_iff hl).1 hs, hb⟩
  · rintro ⟨hs, hb⟩
    exact ⟨⟨hs.length_eq, (equivalentAll_iff hs.length_eq).2 hs⟩, hb⟩

/-- Every term is equivalent to itself. -/
@[simp] theorem equivalent_refl (t : Term) : t.equivalent t = true := by
  induction t using Term.induction with
  | const x => simp [equivalent]
  | sym name => simp [equivalent]
  | app head args hh ha => exact equivalent_app_iff.2 ⟨hh, List.forall₂_same.2 ha⟩
  | lam params body hp hb => exact equivalent_lam_iff.2 ⟨List.forall₂_same.2 hp, hb⟩

@[simp] theorem equivalent_sym_left {name : String} {t : Term} :
    (sym name).equivalent t = true ↔ t = sym name := by
  cases t with
  | sym n =>
    simp only [equivalent, beq_iff_eq, sym.injEq]
    exact eq_comm
  | _ => simp [equivalent]

@[simp] theorem equivalent_sym_right {name : String} {t : Term} :
    t.equivalent (sym name) = true ↔ t = sym name := by
  cases t <;> simp [equivalent]

theorem forall₂_of_forall_mem {α : Type} {R S : Term → α → Prop} {ss : List Term} {ts : List α}
    (h : List.Forall₂ R ss ts) (hs : ∀ s ∈ ss, ∀ t, R s t → S s t) : List.Forall₂ S ss ts := by
  induction h with
  | nil => exact .nil
  | cons h _ ih =>
    exact .cons (hs _ List.mem_cons_self _ h) (ih fun s hm => hs s (List.mem_cons_of_mem _ hm))

/-- Induction on two equivalent terms: they are numbers that count as the same, or the same symbol, or
they are applications or abstractions whose parts are equivalent one by one. -/
theorem equivalent_induction {motive : (s t : Term) → s.equivalent t = true → Prop}
    (const : ∀ x y (h : sameNumber x y = true), motive (.const x) (.const y) h)
    (sym : ∀ name, motive (.sym name) (.sym name) (equivalent_refl _))
    (app : ∀ f g as bs (hfg : f.equivalent g = true)
      (hab : List.Forall₂ (fun a b => a.equivalent b = true) as bs), motive f g hfg →
      List.Forall₂ (fun a b => ∃ h, motive a b h) as bs →
      motive (.app f as) (.app g bs) (equivalent_app_iff.2 ⟨hfg, hab⟩))
    (lam : ∀ ps qs b c (hpq : List.Forall₂ (fun p q => p.equivalent q = true) ps qs)
      (hbc : b.equivalent c = true), List.Forall₂ (fun p q => ∃ h, motive p q h) ps qs →
      motive b c hbc → motive (.lam ps b) (.lam qs c) (equivalent_lam_iff.2 ⟨hpq, hbc⟩))
    (s t : Term) (h : s.equivalent t = true) : motive s t h := by
  induction s using Term.induction generalizing t with
  | const x =>
    cases t with
    | const y => exact const x y h
    | _ => simp [equivalent] at h
  | sym name =>
    obtain rfl := equivalent_sym_left.1 h
    exact sym name
  | app f as hf ha =>
    cases t with
    | app g bs =>
      obtain ⟨hfg, hab⟩ := equivalent_app_iff.1 h
      have hparts : List.Forall₂ (fun a b => ∃ h, motive a b h) as bs :=
        forall₂_of_forall_mem hab fun a hm b h => ⟨h, ha a hm b h⟩
      exact app f g as bs hfg hab (hf g hfg) hparts
    | _ => simp [equivalent] at h
  | lam ps b hp hb =>
    cases t with
    | lam qs c =>
      obtain ⟨hpq, hbc⟩ := equivalent_lam_iff.1 h
      have hparts : List.Forall₂ (fun p q => ∃ h, motive p q h) ps qs :=
        forall₂_of_forall_mem hpq fun p hm q h => ⟨h, hp p hm q h⟩
      exact lam ps qs b c hpq hbc hparts (hb c hbc)
    | _ => simp [equivalent] at h

/-! ## Size -/

/-- A count `μ` of the nodes of a term, and `μs` of those of a list: a constant is one node, and an
application is one node more than its parts. -/
structure Measure (μ : Term → Nat) (μs : List Term → Nat) : Prop where
  const : ∀ x, μ (.const x) = 1
  app : ∀ head args, μ (.app head args) = 1 + μ head + μs args
  nil : μs [] = 0
  cons : ∀ t ts, μs (t :: ts) = μ t + μs ts

theorem measure_size : Measure size sizeAll where
  const _ := rfl
  app _ _ := rfl
  nil := rfl
  cons _ _ := rfl

section Measure

variable {μ : Term → Nat} {μs : List Term → Nat} {f : Term → Term} {head : Term} {args : List Term}

theorem Measure.eq_of_forall₂ (hμ : Measure μ μs) {ss ts : List Term}
    (h : List.Forall₂ (fun s t => μ s = μ t) ss ts) : μs ss = μs ts := by
  induction h with
  | nil => rfl
  | cons h _ ih => rw [hμ.cons, hμ.cons, h, ih]

theorem Measure.map_eq_or_lt (hμ : Measure μ μs) (h : ∀ a ∈ args, f a = a ∨ μ (f a) < μ a) :
    args.map f = args ∨ μs (args.map f) < μs args := by
  induction args with
  | nil => exact .inl rfl
  | cons a as ih =>
    have ha := h a List.mem_cons_self
    have has := ih fun b hb => h b (List.mem_cons_of_mem _ hb)
    simp only [List.map_cons, hμ.cons, List.cons.injEq]
    rcases ha with ha | ha <;> rcases has with has | has
    · exact .inl ⟨ha, has⟩
    all_goals right
    · rw [ha]; omega
    · rw [has]; omega
    · omega

/-- An application is as it was or smaller if this holds of each of its parts. -/
theorem Measure.app_eq_or_lt (hμ : Measure μ μs) (hh : f head = head ∨ μ (f head) < μ head)
    (ha : ∀ a ∈ args, f a = a ∨ μ (f a) < μ a) :
    Term.app (f head) (args.map f) = .app head args ∨
      μ (.app (f head) (args.map f)) < μ (.app head args) := by
  have hargs := hμ.map_eq_or_lt ha
  rw [hμ.app, hμ.app]
  rcases hh with hh | hh <;> rcases hargs with hargs | hargs
  · exact .inl (by rw [hh, hargs])
  all_goals right
  · rw [hh]; omega
  · rw [hargs]; omega
  · omega

end Measure

/-- Equivalent terms have the same number of nodes. -/
theorem size_eq_of_equivalent {s t : Term} (h : s.equivalent t = true) : s.size = t.size := by
  induction s, t, h using equivalent_induction with
  | const x y h => rfl
  | sym name => rfl
  | app f g as bs hfg hab hf ha =>
    rw [size, size, hf, measure_size.eq_of_forall₂ (ha.imp fun _ _ h => h.2)]
  | lam ps qs b c hpq hbc hp hb =>
    rw [size, size, hb, measure_size.eq_of_forall₂ (hp.imp fun _ _ h => h.2)]

theorem size_le_sizeAll_of_mem {t : Term} {ts : List Term} (h : t ∈ ts) :
    t.size ≤ sizeAll ts := by
  induction ts with
  | nil => exact absurd h List.not_mem_nil
  | cons s ss ih =>
    rw [sizeAll]
    rcases List.mem_cons.1 h with rfl | h
    · omega
    · have := ih h
      omega

/-! ## Occurrence -/

mutual

/-- Whether the symbol `name` occurs in a term outside abstractions. -/
def mentions (name : String) : Term → Bool
  | .sym n => n == name
  | .app head args => mentions name head || mentionsAny name args
  -- what is inside an abstraction does not count, since no rule looks there
  | _ => false

/-- Whether the symbol `name` occurs in one of the terms of a list. -/
def mentionsAny (name : String) : List Term → Bool
  | [] => false
  | t :: ts => mentions name t || mentionsAny name ts

end

variable {name : String}

theorem mentionsAny_iff {ts : List Term} :
    mentionsAny name ts = true ↔ ∃ t ∈ ts, mentions name t = true := by
  induction ts with
  | nil => simp [mentionsAny]
  | cons t ts ih => simp [mentionsAny, ih]

@[simp] theorem mentions_const (x : Float) : mentions name (.const x) = false :=
  rfl

@[simp] theorem mentions_sym {n : String} : mentions name (.sym n) = true ↔ n = name := by
  simp [mentions]

@[simp] theorem mentions_app {head : Term} {args : List Term} :
    mentions name (.app head args) = true ↔
      mentions name head = true ∨ ∃ a ∈ args, mentions name a = true := by
  rw [mentions, Bool.or_eq_true, mentionsAny_iff]

@[simp] theorem mentions_sym_eq_false {n : String} :
    mentions name (.sym n) = false ↔ n ≠ name := by
  rw [← Bool.not_eq_true, mentions_sym]

@[simp] theorem mentions_app_eq_false {head : Term} {args : List Term} :
    mentions name (.app head args) = false ↔
      mentions name head = false ∧ ∀ a ∈ args, mentions name a = false := by
  rw [← Bool.not_eq_true, mentions_app]
  simp

@[simp] theorem mentions_lam (params : List Term) (body : Term) :
    mentions name (.lam params body) = false :=
  rfl

@[simp] theorem mentions_binary {tag : String} {left right : Term} :
    mentions name (binary tag left right) = true ↔
      tag = name ∨ mentions name left = true ∨ mentions name right = true := by
  simp [binary]

@[simp] theorem mentions_unary {tag : String} {arg : Term} :
    mentions name (unary tag arg) = true ↔ tag = name ∨ mentions name arg = true := by
  simp [unary]

theorem mentionsAny_eq_of_forall₂ {ss ts : List Term}
    (h : List.Forall₂ (fun s t => s.mentions name = t.mentions name) ss ts) :
    mentionsAny name ss = mentionsAny name ts := by
  induction h with
  | nil => rfl
  | cons h _ ih => rw [mentionsAny, mentionsAny, h, ih]

/-- The same symbols occur in equivalent terms. -/
theorem mentions_eq_of_equivalent {s t : Term} (h : s.equivalent t = true) :
    s.mentions name = t.mentions name := by
  induction s, t, h using equivalent_induction with
  | const x y h => rfl
  | sym n => rfl
  | app f g as bs hfg hab hf ha =>
    rw [mentions, mentions, hf, mentionsAny_eq_of_forall₂ (ha.imp fun _ _ h => h.2)]
  | lam ps qs b c hpq hbc hp hb => rfl

end Term

end TermCalc
