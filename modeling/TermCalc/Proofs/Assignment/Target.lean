import Mathlib.Data.Fintype.EquivFin
import TermCalc.Proofs.Term.Grammar
import TermCalc.Session

/-!
# The token that a target is read from

A statement assigns to a name, which stands in one of its tokens: in the first one if a sign
follows, and otherwise in the one that a call of `$let` has for its first argument, with nothing but
brackets opened in front of the call and in front of the argument. Which token it is shows when its
name is replaced, for then the statement assigns to the new name.

## Main definitions

* `Grammar.NamesTarget before t after`: the target is read from `t`
* `Grammar.Leads before after`: what stands around the target of a statement

## Main results

* `Grammar.Statement.exists_namesTarget`: the target of a statement is read from one of its tokens
* `Grammar.NamesTarget.leads`: and there is nothing but such tokens around it
* `Grammar.NamesTarget.unique`: it is read from that token only
-/

namespace TermCalc

namespace Session

/-- Only an application of `$let` has a target: its first argument. -/
theorem target?_app_eq_some {tag x : String} {args : List Term} :
    target? (.app (.sym tag) args) = some x ↔ tag = "$let" ∧ args.head? = some (.sym x) := by
  cases args with
  | nil => simp [target?]
  | cons a args => cases a <;> simp [target?]

end Session

namespace Grammar

open Session (target? target?_app_eq_some)

variable {ts os ns before after : List Token} {t h h' : Token} {v : Term} {x : String}

/-! ## Where a target stands -/

/-- The target of a statement is read from the token `t` that stands between others: whatever name
is put in its place, the tokens are a statement that assigns to that name. -/
def NamesTarget (before : List Token) (t : Token) (after : List Token) : Prop :=
  t.kind = .symbol ∧ ∀ name, ∃ v,
    Statement (before ++ { t with image := name } :: after) v ∧ target? v = some name

/-- All of the tokens open a bracket. -/
def Openers (os : List Token) : Prop :=
  ∀ o ∈ os, o.Is "("

/-- A call of `$let` has begun, and nothing but brackets has been opened in front of it and in
it. -/
inductive BeginsCall : List Token → Prop
  | call {os ns : List Token} {h o : Token} (hos : Openers os) (hk : h.kind = .symbol)
    (hlet : h.image = "$let") (ho : o.Is "(") (hns : Openers ns) : BeginsCall (os ++ h :: o :: ns)

/-- What stands around the target of a statement: nothing in front of it and a sign behind it, or
the beginning of a call in front of it. -/
inductive Leads : List Token → List Token → Prop
  | sign {s : Token} {after : List Token} (hs : s.Is "=") : Leads [] (s :: after)
  | call {before after : List Token} (hcall : BeginsCall before) : Leads before after

theorem Openers.cons {o : Token} (ho : o.Is "(") (h : Openers os) : Openers (o :: os) :=
  List.forall_mem_cons.2 ⟨ho, h⟩

theorem BeginsCall.cons {o : Token} (ho : o.Is "(") (h : BeginsCall before) :
    BeginsCall (o :: before) := by
  cases h with
  | call hos hk hlet ho' hns => exact .call (hos.cons ho) hk hlet ho' hns

/-- The brackets that are opened in front of a symbol are given by the tokens. -/
theorem Openers.unique {os' rest rest' : List Token} (hos : Openers os) (hos' : Openers os')
    (hk : h.kind = .symbol) (hk' : h'.kind = .symbol) (heq : os ++ h :: rest = os' ++ h' :: rest') :
    os = os' ∧ h = h' ∧ rest = rest' := by
  induction os generalizing os' with
  | nil =>
    cases os' with
    | nil =>
      obtain ⟨rfl, rfl⟩ := List.cons.inj heq
      exact ⟨rfl, rfl, rfl⟩
    | cons o os' =>
      obtain ⟨rfl, -⟩ := List.cons.inj heq
      exact TokenKind.noConfusion (hk.symm.trans (hos' h List.mem_cons_self).1)
  | cons o os ih =>
    obtain ⟨ho, hos⟩ := List.forall_mem_cons.1 hos
    cases os' with
    | nil =>
      obtain ⟨rfl, -⟩ := List.cons.inj heq
      exact TokenKind.noConfusion (hk'.symm.trans ho.1)
    | cons o' os' =>
      obtain ⟨rfl, htail⟩ := List.cons.inj heq
      obtain ⟨rfl, hrest⟩ := ih hos (List.forall_mem_cons.1 hos').2 htail
      exact ⟨rfl, hrest⟩

/-- A sign behind the first token excludes a call. -/
theorem BeginsCall.not_sign {s : Token} {rest : List Token} (h : BeginsCall before)
    (ht : t.kind = .symbol) (hs : s.Is "=") : t :: s :: rest ≠ before ++ after := by
  intro heq
  cases h with
  | @call os ns h o hos _ _ ho _ =>
    cases os with
    | nil =>
      obtain ⟨-, rfl, -⟩ : t = h ∧ s = o ∧ rest = ns ++ after := by simpa using heq
      exact not_sign_of_is ho (by decide) hs
    | cons o' os =>
      obtain ⟨rfl, -⟩ := List.cons.inj heq
      exact TokenKind.noConfusion (ht.symm.trans (hos t List.mem_cons_self).1)

/-- Where the target of a call stands is given by the tokens. -/
theorem BeginsCall.unique {before' after' : List Token} {t' : Token} (hcall : BeginsCall before)
    (hcall' : BeginsCall before') (ht : t.kind = .symbol) (ht' : t'.kind = .symbol)
    (heq : before ++ t :: after = before' ++ t' :: after') :
    before = before' ∧ t = t' ∧ after = after' := by
  cases hcall with
  | call hos hk _ _ hns =>
    cases hcall' with
    | call hos' hk' _ _ hns' =>
      rw [List.append_assoc, List.append_assoc] at heq
      obtain ⟨rfl, rfl, hcall⟩ := hos.unique hos' hk hk' heq
      obtain ⟨rfl, harguments⟩ := List.cons.inj hcall
      obtain ⟨rfl, htarget⟩ := hns.unique hns' ht ht' harguments
      exact ⟨rfl, htarget⟩

/-- Where a target stands is given by the tokens. -/
theorem Leads.unique {before' after' : List Token} {t' : Token} (hleads : Leads before after)
    (hleads' : Leads before' after') (ht : t.kind = .symbol) (ht' : t'.kind = .symbol)
    (heq : before ++ t :: after = before' ++ t' :: after') :
    before = before' ∧ t = t' ∧ after = after' := by
  cases hleads with
  | sign hs =>
    cases hleads' with
    | sign hs' =>
      obtain ⟨rfl, hafter⟩ := List.cons.inj heq
      exact ⟨rfl, rfl, hafter⟩
    | call hcall' => exact absurd heq (hcall'.not_sign ht hs)
  | call hcall =>
    cases hleads' with
    | sign hs' => exact absurd heq.symm (hcall.not_sign ht' hs')
    | call hcall' => exact hcall.unique hcall' ht ht' heq

/-! ## A symbol in brackets -/

/-- The tokens are the symbol `x`, perhaps in brackets, and any other symbol can be put in its
place. -/
def Sole (P : List Token → Term → Prop) (ts : List Token) (x : String) : Prop :=
  ∃ os t cs, ts = os ++ t :: cs ∧ Openers os ∧ t.kind = .symbol ∧ t.image = x ∧
    ∀ name, P (os ++ { t with image := name } :: cs) (.sym name)

theorem Sole.mono {P Q : List Token → Term → Prop} (h : Sole P ts x)
    (hPQ : ∀ us v, P us v → Q us v) : Sole Q ts x := by
  obtain ⟨os, t, cs, hts, hos, hk, himage, hname⟩ := h
  exact ⟨os, t, cs, hts, hos, hk, himage, fun name => hPQ _ _ (hname name)⟩

mutual

-- induction on derivations: of all rules only those for symbols and brackets build a symbol
theorem Expression.sole {ts : List Token} {v : Term} (h : Expression ts v) (hv : v = .sym x) :
    Sole Expression ts x := by
  match h with
  | .product h => exact (h.sole hv).mono fun _ _ => .product
  | .sum _ _ _ _ => exact Term.noConfusion hv

theorem Product.sole {ts : List Token} {v : Term} (h : Product ts v) (hv : v = .sym x) :
    Sole Product ts x := by
  match h with
  | .factor h => exact (h.sole hv).mono fun _ _ => .factor
  | .product _ _ _ _ => exact Term.noConfusion hv

theorem Factor.sole {ts : List Token} {v : Term} (h : Factor ts v) (hv : v = .sym x) :
    Sole Factor ts x := by
  match h with
  | .symbol (t := t) hk =>
    exact ⟨[], t, [], rfl, fun _ ho => absurd ho List.not_mem_nil, hk, Term.sym.inj hv,
      fun _ => .symbol hk⟩
  | .group (t := o) (c := c) ho h hc =>
    obtain ⟨os, t, cs, rfl, hos, hk, himage, hname⟩ := h.sole hv
    refine ⟨o :: os, t, cs ++ [c], by simp, hos.cons ho, hk, himage, fun name => ?_⟩
    simpa using Factor.group ho (hname name) hc
  | .negation _ _ | .vector _ _ _ | .constant _ _ | .call _ _ _ _ => exact Term.noConfusion hv

end

/-! ## Targets of expressions -/

/-- The tokens are a call that assigns to `x`, and any other name can be put in the place of its
target. -/
def Assigns (P : List Token → Term → Prop) (ts : List Token) (x : String) : Prop :=
  ∃ before t after, ts = before ++ t :: after ∧ BeginsCall before ∧ t.kind = .symbol ∧
    t.image = x ∧
    ∀ name, ∃ v, P (before ++ { t with image := name } :: after) v ∧ target? v = some name

theorem Assigns.mono {P Q : List Token → Term → Prop} (h : Assigns P ts x)
    (hPQ : ∀ us v, P us v → Q us v) : Assigns Q ts x := by
  obtain ⟨before, t, after, hts, hcall, hk, himage, hname⟩ := h
  refine ⟨before, t, after, hts, hcall, hk, himage, fun name => ?_⟩
  obtain ⟨v, hv, htarget⟩ := hname name
  exact ⟨v, hPQ _ _ hv, htarget⟩

/-- Arguments the first of which is the symbol `x` begin with it, perhaps in brackets, and any other
symbol can be put in its place. -/
theorem Arguments.sole {ts : List Token} {vs : List Term} (h : Arguments ts vs)
    (hvs : vs.head? = some (.sym x)) :
    ∃ os t cs, ts = os ++ t :: cs ∧ Openers os ∧ t.kind = .symbol ∧ t.image = x ∧
      ∀ name, ∃ vs', Arguments (os ++ { t with image := name } :: cs) vs' ∧
        vs'.head? = some (.sym name) := by
  cases h with
  | one h =>
    obtain ⟨os, t, cs, rfl, hos, hk, himage, hname⟩ := h.sole (Option.some.inj hvs)
    exact ⟨os, t, cs, rfl, hos, hk, himage, fun name => ⟨_, .one (hname name), rfl⟩⟩
  | @more _ _ m rs vs h hm hrs =>
    obtain ⟨os, t, cs, rfl, hos, hk, himage, hname⟩ := h.sole (Option.some.inj hvs)
    refine ⟨os, t, cs ++ m :: rs, by simp, hos, hk, himage, fun name => ⟨.sym name :: vs, ?_, rfl⟩⟩
    simpa using Arguments.more (hname name) hm hrs

theorem target?_binary_of_ne {tag : String} (htag : tag ≠ "$let") (l r : Term) :
    target? (.binary tag l r) ≠ some x :=
  fun h => htag (target?_app_eq_some.1 h).1

theorem ne_let_of_mem_sumTags {mark tag : String} (h : (mark, tag) ∈ sumTags) : tag ≠ "$let" := by
  rintro rfl
  simp [sumTags] at h

theorem ne_let_of_mem_productTags {mark tag : String} (h : (mark, tag) ∈ productTags) :
    tag ≠ "$let" := by
  rintro rfl
  simp [productTags] at h

mutual

-- induction on derivations: of all rules only that for calls builds an application of `$let`
theorem Expression.assigns {ts : List Token} {v : Term} (h : Expression ts v)
    (hv : target? v = some x) : Assigns Expression ts x := by
  match h with
  | .product h => exact (h.assigns hv).mono fun _ _ => .product
  | .sum _ _ htag _ => exact absurd hv (target?_binary_of_ne (ne_let_of_mem_sumTags htag) _ _)

theorem Product.assigns {ts : List Token} {v : Term} (h : Product ts v) (hv : target? v = some x) :
    Assigns Product ts x := by
  match h with
  | .factor h => exact (h.assigns hv).mono fun _ _ => .factor
  | .product _ _ htag _ =>
    exact absurd hv (target?_binary_of_ne (ne_let_of_mem_productTags htag) _ _)

theorem Factor.assigns {ts : List Token} {v : Term} (h : Factor ts v) (hv : target? v = some x) :
    Assigns Factor ts x := by
  match h with
  | .group (t := o) (c := c) ho h hc =>
    obtain ⟨before, t, after, rfl, hcall, hk, himage, hname⟩ := h.assigns hv
    refine ⟨o :: before, t, after ++ [c], by simp, hcall.cons ho, hk, himage, fun name => ?_⟩
    obtain ⟨v, hv, htarget⟩ := hname name
    exact ⟨v, by simpa using Factor.group ho hv hc, htarget⟩
  | .call (t := h) (o := o) (c := c) hk ho hargs hc =>
    obtain ⟨hlet, hhead⟩ := target?_app_eq_some.1 hv
    obtain ⟨os, t, cs, rfl, hos, ht, himage, hname⟩ := hargs.sole hhead
    refine ⟨[] ++ h :: o :: os, t, cs ++ [c], by simp, ?_, ht, himage, fun name => ?_⟩
    · exact .call (fun _ h => absurd h List.not_mem_nil) hk hlet ho hos
    · obtain ⟨vs', hvs', hhead'⟩ := hname name
      refine ⟨.app (.sym h.image) vs', ?_, target?_app_eq_some.2 ⟨hlet, hhead'⟩⟩
      simpa using Factor.call hk ho hvs' hc
  | .negation _ _ | .vector _ _ _ => exact absurd (target?_app_eq_some.1 hv).1 (by decide)
  | .constant _ _ | .symbol _ => cases hv

end

/-! ## Targets of statements -/

/-- The target of a statement is read from one of its tokens. -/
theorem Statement.exists_namesTarget (h : Statement ts v) (hv : target? v = some x) :
    ∃ before t after, ts = before ++ t :: after ∧ Leads before after ∧ t.image = x ∧
      NamesTarget before t after := by
  cases h with
  | @assignment t s ts v hk hs hexpression =>
    have himage := Term.sym.inj (Option.some.inj (target?_app_eq_some.1 hv).2)
    refine ⟨[], t, s :: ts, rfl, .sign hs, himage, hk, fun name => ?_⟩
    exact ⟨_, .assignment hk hs hexpression, target?_app_eq_some.2 ⟨rfl, rfl⟩⟩
  | expression hexpression =>
    obtain ⟨before, t, after, hts, hcall, hk, himage, hname⟩ := hexpression.assigns hv
    refine ⟨before, t, after, hts, .call hcall, himage, hk, fun name => ?_⟩
    obtain ⟨v, hv, htarget⟩ := hname name
    exact ⟨v, .expression hv, htarget⟩

/-- A target that is read from a token has nothing around it but what leads to a target. -/
theorem NamesTarget.leads (h : NamesTarget before t after) : Leads before after := by
  -- a name that occurs nowhere else shows from which token the target is read
  obtain ⟨name, hname⟩ := Infinite.exists_notMem_finset
    ((before ++ after).map Token.image).toFinset
  rw [List.mem_toFinset] at hname
  obtain ⟨v, hv, htarget⟩ := h.2 name
  obtain ⟨before', u, after', heq, hleads, himage, -⟩ := hv.exists_namesTarget htarget
  have hnew : ∀ r ∈ before ++ after, r ≠ u := by
    rintro r hr rfl
    exact hname (List.mem_map.2 ⟨r, hr, himage⟩)
  obtain ⟨hbefore, hafter⟩ := List.forall_mem_append.1 hnew
  obtain ⟨rfl, -, rfl⟩ := (List.append_cons_inj_of_notMem (fun hu => hbefore u hu rfl)
    (fun hu => hafter u hu rfl)).1 heq
  exact hleads

/-- The target of a statement is read from one token only. -/
theorem NamesTarget.unique {before' after' : List Token} {t' : Token}
    (h : NamesTarget before t after) (h' : NamesTarget before' t' after')
    (heq : before ++ t :: after = before' ++ t' :: after') :
    before = before' ∧ t = t' ∧ after = after' :=
  h.leads.unique h'.leads h.1 h'.1 heq

end Grammar

end TermCalc
