import TermCalc.Proofs.Text.Braces
import TermCalc.Text.Template.Subject

/-!
# Braces in subjects

The things that a field of a template can find by itself have no braces in their names, members and
documentation. Only an item that the field puts in square brackets can bring some into what is
shown, and then they stand in the item as they do in the field.

## Main definitions

* `Subject.Clean s`: no text of the subject has a brace
* `Subject.Tame s`: the subject is clean, or a kind with an item

## Main results

* `braceFree_plain`: a clean subject is shown without braces
* `Tame.clean_named`, `Tame.clean_item`: what a tame subject has under a name or at a place is clean
* `stretches_applied`, `braces_applied`: the braces of a kind with an item
-/

namespace TermCalc.Template

/-! ## Quoted texts -/

theorem isBrace_iff {c : Char} : isBrace c = true ↔ c = '\x7b' ∨ c = '\x7d' := by
  simp [isBrace]

/-- A string is compared with the list of its characters without being decoded. -/
theorem braceFree_of_eq_ofList {s : String} {cs : List Char} (h : s = String.ofList cs)
    (hcs : BraceFree cs) : BraceFree s.toList := by
  rw [h, String.toList_ofList]
  exact hcs

theorem braceFree_append {s t : String} :
    BraceFree (s ++ t).toList ↔ BraceFree s.toList ∧ BraceFree t.toList := by
  rw [String.toList_append]
  exact List.forall_mem_append

theorem braceFree_hexDigits (width n : Nat) : BraceFree (Text.hexDigits width n) := by
  have hdigit : ∀ d < 16, isBrace (Nat.digitChar d) = false := by decide
  induction width generalizing n with
  | zero => exact braceFree_nil
  | succ width ih =>
    refine (ih (n / 16)).append ?_
    simp [hdigit _ (Nat.mod_lt n (by decide))]

theorem braceFree_codeEscape (c : Char) : BraceFree (Text.codeEscape c) := by
  have hfront : isBrace '\\' = false ∧ isBrace 'x' = false ∧ isBrace 'u' = false ∧
      isBrace 'U' = false := by decide
  simp only [Text.codeEscape]
  split_ifs <;> simp only [braceFree_cons, hfront, braceFree_hexDigits, and_self]

/-- Between quotes the braces of a text stand as they are. -/
theorem keepsBraces_escapeChar {quote : Char} (hquote : isBrace quote = false) :
    KeepsBraces (Text.escapeChar quote) where
  brace c hc := by
    have hne : c ≠ quote := by
      rintro rfl
      rw [hquote] at hc
      exact Bool.noConfusion hc
    rcases isBrace_iff.1 hc with rfl | rfl
    · have hprintable : Text.isPrintable '\x7b' = true := by decide +kernel
      simp [Text.escapeChar, hne, hprintable]
    · have hprintable : Text.isPrintable '\x7d' = true := by decide +kernel
      simp [Text.escapeChar, hne, hprintable]
  plain c hc := by
    unfold Text.escapeChar
    split_ifs
    · have hescape : isBrace '\\' = false := rfl
      exact ⟨by simp, by simp [hc, hescape]⟩
    · exact ⟨by simp, by decide⟩
    · exact ⟨by simp, by decide⟩
    · exact ⟨by simp, by decide⟩
    · exact ⟨by simp, by simp [hc]⟩
    · refine ⟨?_, braceFree_codeEscape c⟩
      simp only [Text.codeEscape]
      split_ifs <;> simp

theorem keepsBraces_ascii :
    KeepsBraces fun c => if c.toNat < 0x80 then [c] else Text.codeEscape c where
  brace c hc := by
    rcases isBrace_iff.1 hc with rfl | rfl <;> rfl
  plain c hc := by
    split_ifs
    · exact ⟨by simp, by simp [hc]⟩
    · refine ⟨?_, braceFree_codeEscape c⟩
      simp only [Text.codeEscape]
      split_ifs <;> simp

theorem isBrace_quoteFor (cs : List Char) : isBrace (Text.quoteFor cs) = false := by
  unfold Text.quoteFor
  split_ifs <;> rfl

theorem stretches_quoted (cs : List Char) :
    stretches (Text.quoted (String.ofList cs)).toList = stretches cs := by
  have hquote := isBrace_quoteFor cs
  have hfree : BraceFree [Text.quoteFor cs] := by simp [hquote]
  rw [Text.quoted, String.toList_ofList, String.toList_ofList, List.cons_append,
    ← List.singleton_append, ← List.append_assoc, stretches_between hfree hfree,
    (keepsBraces_escapeChar hquote).stretches_flatMap]

theorem braces_quoted (cs : List Char) :
    braces (Text.quoted (String.ofList cs)).toList = braces cs := by
  have hquote := isBrace_quoteFor cs
  simp only [Text.quoted, String.toList_ofList, List.cons_append, braces_cons, braces_append,
    (keepsBraces_escapeChar hquote).braces_flatMap, hquote, braces_nil]
  simp

theorem braceFree_quoted {cs : List Char} (h : BraceFree cs) :
    BraceFree (Text.quoted (String.ofList cs)).toList := by
  rw [← braces_eq_zero_iff, braces_quoted, braces_eq_zero_iff]
  exact h

theorem stretches_asciiOnly (s : String) :
    stretches (Text.asciiOnly s).toList = stretches s.toList := by
  rw [Text.asciiOnly, String.toList_ofList, keepsBraces_ascii.stretches_flatMap]

theorem braces_asciiOnly (s : String) : braces (Text.asciiOnly s).toList = braces s.toList := by
  rw [Text.asciiOnly, String.toList_ofList, keepsBraces_ascii.braces_flatMap]

theorem braceFree_decimalText (n : Nat) : BraceFree (Text.decimalText n).toList := by
  intro c hc
  rw [Text.decimalText, String.toList_ofList] at hc
  have hdigit : c.isDigit = true := Nat.isDigit_of_mem_toDigits (by decide) (by decide) hc
  by_contra hbrace
  rcases isBrace_iff.1 (by simpa using hbrace) with rfl | rfl <;> revert hdigit <;> decide

/-! ## Kinds -/

namespace Kind

variable {k : Kind} {name : String}

theorem braceFree_name (k : Kind) : BraceFree k.name.toList := by
  cases k <;> exact braceFree_of_eq_ofList rfl (by decide)

theorem braceFree_documentation {s : String} (h : k.documentation? = some s) :
    BraceFree s.toList := by
  cases k <;> simp only [documentation?, Option.some.injEq, reduceCtorEq] at h <;> subst h <;>
    simp only [braceFree_append] <;>
    (repeat' apply And.intro) <;> exact braceFree_of_eq_ofList rfl (by decide)

theorem braceFree_signature {s : String} (h : k.signature? = some s) : BraceFree s.toList := by
  cases k <;> simp only [signature?, Option.some.injEq, reduceCtorEq] at h <;> subst h <;>
    exact braceFree_of_eq_ofList rfl (by decide)

theorem braceFree_members (k : Kind) : ∀ p ∈ k.members, ∀ name ∈ p.2, BraceFree name.toList := by
  cases k <;>
    simp only [members, List.forall_mem_cons, List.not_mem_nil, false_implies, implies_true,
      and_true] <;>
    (repeat' apply And.intro) <;> exact braceFree_of_eq_ofList rfl (by decide)

theorem braceFree_of_ownMember? {form : Form} (h : k.ownMember? name = some form) :
    BraceFree name.toList := by
  obtain ⟨p, hp, hname⟩ := List.exists_of_findSome?_eq_some h
  simp only [Option.ite_none_right_eq_some] at hname
  exact k.braceFree_members p hp name (by simpa using hname.1)

/-- The names of members have no braces. -/
theorem braceFree_of_member? {p : Kind × Form} (h : k.member? name = some p) :
    BraceFree name.toList := by
  unfold member? at h
  split at h
  · next form hown => exact braceFree_of_ownMember? hown
  · obtain ⟨form, hown, -⟩ := Option.map_eq_some_iff.1 h
    exact braceFree_of_ownMember? hown

end Kind

/-! ## Clean subjects -/

namespace Subject

/-- No text of a subject has a brace. -/
def Clean : Subject → Prop
  | .text cs => BraceFree cs
  | .nothing => True
  | .kind _ => True
  | .row _ => True
  | .member _ _ name => BraceFree name.toList
  | .bound _ _ name thing => BraceFree name.toList ∧ thing.Clean
  | .applied _ item => BraceFree item.toList

/-- A subject that a field comes across: it is clean, or it is a kind with an item. -/
def Tame (s : Subject) : Prop :=
  s.Clean ∨ ∃ k item, s = .applied k item

variable {s t : Subject} {k owner : Kind} {form : Form} {name : String}

theorem clean_ofString? {text : Option String} (h : ∀ d, text = some d → BraceFree d.toList) :
    (ofString? text).Clean := by
  cases text with
  | none => exact trivial
  | some d => exact h d rfl

theorem clean_documentation (k : Kind) : (ofString? k.documentation?).Clean :=
  clean_ofString? fun _ h => Kind.braceFree_documentation h

/-! ## Showing a clean subject -/

theorem braceFree_kindText (k : Kind) : BraceFree (kindText k).toList := by
  rw [kindText, braceFree_append, braceFree_append]
  exact ⟨⟨by decide, k.braceFree_name⟩, by decide⟩

theorem braceFree_kindTexts (ks : List Kind) :
    BraceFree (String.intercalate ", " (ks.map kindText)).toList := by
  rw [String.toList_intercalate, List.map_map]
  induction ks with
  | nil => exact braceFree_nil
  | cons k ks ih =>
    cases ks with
    | nil => simpa using braceFree_kindText k
    | cons l ks =>
      rw [List.map_cons, List.map_cons, List.intercalate_cons_cons]
      exact ((braceFree_kindText k).append (by decide)).append ih

/-- A clean subject is spelled out without braces. -/
theorem Clean.braceFree_spelled (h : s.Clean) : BraceFree s.spelled.toList := by
  unfold spelled
  split
  · exact braceFree_quoted h
  · decide
  · exact braceFree_kindText _
  · next k =>
    simp only [braceFree_append]
    exact ⟨⟨by decide, braceFree_kindText k⟩, by decide⟩
  · next ks _ =>
    simp only [braceFree_append]
    exact ⟨⟨by decide, braceFree_kindTexts ks⟩, by decide⟩
  · next owner form name =>
    simp only [braceFree_append]
    refine ⟨⟨⟨⟨⟨⟨by decide, ?_⟩, by decide⟩, h⟩, by decide⟩, owner.braceFree_name⟩, by decide⟩
    cases form <;> decide
  · next owner name thing =>
    simp only [braceFree_append]
    exact ⟨⟨⟨⟨⟨⟨by decide, h.1⟩, by decide⟩, Kind.braceFree_name _⟩, by decide⟩, by decide⟩,
      by decide⟩
  · next owner form name thing _ =>
    simp only [braceFree_append]
    exact ⟨⟨⟨⟨⟨⟨by decide, h.1⟩, by decide⟩, Kind.braceFree_name _⟩, by decide⟩, by decide⟩,
      by decide⟩
  · next k item =>
    simp only [braceFree_append]
    exact ⟨⟨⟨k.braceFree_name, by decide⟩, h⟩, by decide⟩

/-- A clean subject is shown without braces. -/
theorem Clean.braceFree_plain (h : s.Clean) : BraceFree s.plain := by
  unfold plain
  split
  · exact h
  · exact h.braceFree_spelled

/-! ## Names after a point -/

theorem clean_kindProperty (h : kindProperty k name = .ok t) : t.Clean := by
  unfold kindProperty at h
  split at h
  · obtain rfl := Except.ok.inj h
    exact trivial
  · obtain rfl := Except.ok.inj h
    show BraceFree _
    split_ifs <;> decide
  · obtain rfl := Except.ok.inj h
    cases k <;> exact trivial
  · obtain rfl := Except.ok.inj h
    exact trivial
  · obtain rfl := Except.ok.inj h
    exact trivial
  · obtain rfl := Except.ok.inj h
    exact clean_ofString? fun _ hs => Kind.braceFree_signature hs
  · split at h
    · obtain rfl := Except.ok.inj h
      split_ifs
      · exact clean_documentation k
      · show BraceFree _
        decide
    · obtain rfl := Except.ok.inj h
      exact clean_documentation k
  · exact absurd h (by simp)
  · exact absurd h (by simp)
  · obtain rfl := Except.ok.inj h
    show BraceFree _
    split_ifs
    · decide
    · exact k.braceFree_name

theorem clean_qualified (owner : Kind) (h : BraceFree name.toList) :
    (ofString (owner.name ++ "." ++ name)).Clean := by
  show BraceFree _
  rw [braceFree_append, braceFree_append]
  exact ⟨⟨owner.braceFree_name, by decide⟩, h⟩

theorem Clean.property (hs : s.Clean) (h : s.property name = .ok t) : t.Clean := by
  unfold Subject.property at h
  split at h
  · exact clean_kindProperty h
  all_goals obtain rfl := Except.ok.inj h
  · exact trivial
  · exact trivial
  · exact hs
  · exact clean_qualified _ hs
  · exact trivial
  · exact hs.1
  · exact trivial
  · exact hs.2
  · exact clean_qualified _ hs.1
  · exact clean_qualified _ hs.1
  · exact clean_qualified _ hs.1
  · exact trivial

theorem Clean.take (hs : s.Clean) (hname : BraceFree name.toList)
    (h : s.take owner form name = .ok t) : t.Clean := by
  unfold Subject.take at h
  split at h
  · exact hs.property h
  · exact hs.property h
  all_goals
    obtain rfl := Except.ok.inj h
    exact ⟨hname, by first | exact trivial | exact hs⟩

theorem clean_kindNamed (h : kindNamed k name = .ok t) : t.Clean := by
  unfold kindNamed at h
  dsimp only at h
  split at h
  · exact clean_kindProperty h
  · split at h
    · next hmember =>
      obtain rfl := Except.ok.inj h
      exact ⟨Kind.braceFree_of_member? hmember, trivial⟩
    · next hmember =>
      obtain rfl := Except.ok.inj h
      exact ⟨Kind.braceFree_of_member? hmember, trivial⟩
    · next hmember =>
      obtain rfl := Except.ok.inj h
      exact ⟨Kind.braceFree_of_member? hmember, trivial⟩
    · next hmember =>
      obtain rfl := Except.ok.inj h
      exact Kind.braceFree_of_member? hmember
    · next hgeneral =>
      exact Clean.take (s := .kind k) trivial (Kind.braceFree_of_member? hgeneral) h
    · exact absurd h (by simp)

/-- What a subject has under a name is clean. -/
theorem Tame.clean_named (hs : s.Tame) (h : s.named name = .ok t) : t.Clean := by
  unfold named at h
  split at h
  · exact clean_kindNamed h
  · split_ifs at h
    · obtain rfl := Except.ok.inj h
      exact trivial
    · obtain rfl := Except.ok.inj h
      exact trivial
    · exact clean_kindNamed h
  · next hkind happlied =>
    have hclean : s.Clean := by
      rcases hs with hs | ⟨k, item, rfl⟩
      · exact hs
      · exact absurd rfl (happlied k item)
    split at h
    · next hmember => exact hclean.take (Kind.braceFree_of_member? hmember) h
    · split_ifs at h
      obtain rfl := Except.ok.inj h
      exact clean_documentation _

/-! ## Items in square brackets -/

/-- The item of a tame subject at a place is clean. -/
theorem Tame.clean_item {place : Nat} (hs : s.Tame) (h : s.item place = .ok t) : t.Clean := by
  unfold item at h
  split at h
  · next cs =>
    split at h
    · next c hc =>
      obtain rfl := Except.ok.inj h
      have hcs : BraceFree cs := by
        rcases hs with hs | ⟨k, item, hs⟩
        · exact hs
        · exact absurd hs (by simp)
      show BraceFree [c]
      simp [hcs c (List.mem_of_getElem? hc)]
    · exact absurd h (by simp)
  · split at h
    · obtain rfl := Except.ok.inj h
      exact trivial
    · exact absurd h (by simp)
  · split_ifs at h
    obtain rfl := Except.ok.inj h
    exact braceFree_decimalText place
  · exact absurd h (by simp)

/-- An item under a text is that text in quotes, behind a kind. -/
theorem exists_applied_of_entry {item : List Char} (h : s.entry item = .ok t) :
    ∃ k, t = .applied k (Text.quoted (String.ofList item)) := by
  unfold entry at h
  split at h
  · exact absurd h (by simp)
  · exact absurd h (by simp)
  · next k =>
    split_ifs at h
    exact ⟨k, (Except.ok.inj h).symm⟩
  · exact absurd h (by simp)

theorem plain_applied (k : Kind) (item : String) :
    (applied k item).plain = (k.name.toList ++ ['[']) ++ item.toList ++ [']'] := by
  show (k.name ++ "[" ++ item ++ "]").toList = _
  simp

/-- A kind with an item has the stretches of braces of the item. -/
theorem stretches_applied (k : Kind) (item : List Char) :
    stretches (applied k (Text.quoted (String.ofList item))).plain = stretches item := by
  rw [plain_applied, stretches_between (k.braceFree_name.append (by decide)) (by decide),
    stretches_quoted]

theorem braces_applied (k : Kind) (item : List Char) :
    braces (applied k (Text.quoted (String.ofList item))).plain = braces item := by
  have hname := braces_eq_zero_iff.2 (k.braceFree_name.append (y := ['[']) (by decide))
  rw [plain_applied, braces_append, braces_append, hname, braces_quoted]
  simp [braces_cons, isBrace]

end Subject

end TermCalc.Template
