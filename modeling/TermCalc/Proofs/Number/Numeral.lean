import Mathlib.Data.List.TakeWhile
import TermCalc.Number.Literal

/-!
# Numerals denote numbers

The shape of an unsigned decimal numeral, over the digits of any script or over ASCII digits. A
numeral of this shape, with a minus sign in front or without one, denotes a number: reading first
brings its digits into ASCII, which keeps the shape, finds neither blanks nor underscores in it, and
then accepts every numeral in ASCII.

## Main definitions

* `Literal.Numeral digit cs`: an unsigned decimal numeral over the characters that `digit` accepts
* `Literal.asciiDigit c`: the ASCII digit of the same worth, for a digit

## Main results

* `Literal.number?_isSome_of_numeral`: a numeral denotes a number, with and without a minus sign
-/

namespace TermCalc

namespace Text

/-- A digit is as far behind the zero of its script as it is worth. -/
theorem exists_zero_of_digitValue?_eq_some {c : Char} {d : Nat} (h : digitValue? c = some d) :
    ∃ first ∈ digitZeros, d < 10 ∧ c = Char.ofNat (first + d) := by
  obtain ⟨first, hf, hd⟩ := Option.map_eq_some_iff.1 h
  have hr := List.find?_some hf
  simp only [Bool.and_eq_true, decide_eq_true_eq] at hr
  refine ⟨first, List.mem_of_find?_eq_some hf, by omega, ?_⟩
  have hc : first + d = c.toNat := by omega
  rw [hc, Char.ofNat_toNat]

/-- No digit is blank. -/
theorem isBlank_of_digitValue?_eq_some {c : Char} {d : Nat} (h : digitValue? c = some d) :
    isBlank c = false := by
  -- checked for the ten digits of each script
  have hall : ∀ first ∈ digitZeros, ∀ d < 10, isBlank (Char.ofNat (first + d)) = false := by
    decide +kernel
  obtain ⟨first, hf, hd, rfl⟩ := exists_zero_of_digitValue?_eq_some h
  exact hall first hf d hd

/-- A digit of the ASCII range is the ASCII digit of its worth. -/
theorem digitChar_of_digitValue?_eq_some {c : Char} {d : Nat} (h : digitValue? c = some d)
    (hc : c.toNat < 0x80) : digitChar d = c := by
  have hall : ∀ first ∈ digitZeros, ∀ d < 10, (Char.ofNat (first + d)).toNat < 0x80 →
      digitChar d = Char.ofNat (first + d) := by
    decide +kernel
  obtain ⟨first, hf, hd, rfl⟩ := exists_zero_of_digitValue?_eq_some h
  exact hall first hf d hd hc

theorem isDigit_digitChar {d : Nat} (hd : d < 10) : (digitChar d).isDigit = true := by
  have hall : ∀ d < 10, (digitChar d).isDigit = true := by decide +kernel
  exact hall d hd

end Text

namespace Literal

/-! ## The shape of a numeral -/

/-- The fraction of a numeral: none, or a point and digits. -/
inductive Fraction (digit : Char → Bool) : List Char → Prop
  | none : Fraction digit []
  | point {ds} : ds ≠ [] → (∀ c ∈ ds, digit c) → Fraction digit ('.' :: ds)

/-- The exponent of a numeral: none, or its letter, an optional sign and digits. -/
inductive Exponent (digit : Char → Bool) : List Char → Prop
  | none : Exponent digit []
  | power {c sign ds} : c ∈ ['e', 'E'] → sign ∈ [[], ['+'], ['-']] → ds ≠ [] →
      (∀ c ∈ ds, digit c) → Exponent digit (c :: (sign ++ ds))

/-- An unsigned decimal numeral: digits, a fraction and an exponent, with digits before the point
or after it. -/
inductive Numeral (digit : Char → Bool) : List Char → Prop
  | parts {whole fraction exponent} : (∀ c ∈ whole, digit c) → Fraction digit fraction →
      Exponent digit exponent → whole ≠ [] ∨ fraction ≠ [] →
      Numeral digit (whole ++ (fraction ++ exponent))

/-- The characters of a numeral that are no digits. -/
def numeralMarks : List Char :=
  ['.', 'e', 'E', '+', '-']

theorem mem_numeralMarks_iff {c : Char} :
    c ∈ numeralMarks ↔ c = '.' ∨ c = 'e' ∨ c = 'E' ∨ c = '+' ∨ c = '-' := by
  simp only [numeralMarks, List.mem_cons, List.not_mem_nil, or_false]

theorem mem_numeralMarks_of_mem_sign {c : Char} {sign : List Char}
    (hs : sign ∈ [[], ['+'], ['-']]) (hc : c ∈ sign) : c ∈ numeralMarks := by
  simp only [List.mem_cons, List.not_mem_nil, or_false] at hs
  rcases hs with rfl | rfl | rfl
  · cases hc
  · rw [List.mem_singleton.1 hc]
    decide
  · rw [List.mem_singleton.1 hc]
    decide

/-- The letter of an exponent is a mark, and neither a digit nor a point. -/
theorem exponent_letter {c : Char} (h : c ∈ ['e', 'E']) :
    c ∈ numeralMarks ∧ c.isDigit = false ∧ c ≠ '.' ∧ (c == 'e' || c == 'E') = true := by
  simp only [List.mem_cons, List.not_mem_nil, or_false] at h
  rcases h with rfl | rfl <;> decide

section Characters

variable {digit : Char → Bool} {cs : List Char} {c : Char}

theorem Fraction.mem (h : Fraction digit cs) (hc : c ∈ cs) : digit c ∨ c ∈ numeralMarks := by
  cases h with
  | none => cases hc
  | point _ hd =>
    rcases List.mem_cons.1 hc with rfl | hc
    · exact .inr (by decide)
    · exact .inl (hd c hc)

theorem Exponent.mem (h : Exponent digit cs) (hc : c ∈ cs) : digit c ∨ c ∈ numeralMarks := by
  cases h with
  | none => cases hc
  | power he hs _ hd =>
    rcases List.mem_cons.1 hc with rfl | hc
    · exact .inr (exponent_letter he).1
    · rcases List.mem_append.1 hc with hc | hc
      · exact .inr (mem_numeralMarks_of_mem_sign hs hc)
      · exact .inl (hd c hc)

/-- A numeral consists of digits and the marks of numerals. -/
theorem Numeral.mem (h : Numeral digit cs) (hc : c ∈ cs) : digit c ∨ c ∈ numeralMarks := by
  obtain ⟨hw, hf, he, -⟩ := h
  rcases List.mem_append.1 hc with hc | hc
  · exact .inl (hw c hc)
  · rcases List.mem_append.1 hc with hc | hc
    · exact hf.mem hc
    · exact he.mem hc

theorem Numeral.ne_nil (h : Numeral digit cs) : cs ≠ [] := by
  obtain ⟨-, -, -, hw | hf⟩ := h
  · exact List.append_ne_nil_of_left_ne_nil hw _
  · exact List.append_ne_nil_of_right_ne_nil _ (List.append_ne_nil_of_left_ne_nil hf _)

/-- A numeral begins with a digit or its point. -/
theorem Numeral.head (h : Numeral digit cs) :
    ∀ c ∈ cs.head?, digit c = true ∨ c = '.' := by
  obtain @⟨whole, fraction, exponent, hw, hf, -, hne⟩ := h
  intro c hc
  cases whole with
  | cons d ds =>
    obtain rfl := Option.some.inj hc
    exact .inl (hw d List.mem_cons_self)
  | nil =>
    cases hf with
    | none => exact absurd hne (by simp)
    | point =>
      obtain rfl := Option.some.inj hc
      exact .inr rfl

end Characters

/-! ## The same shape in other digits -/

section Map

variable {p q : Char → Bool} {f : Char → Char} {cs : List Char}

theorem forall_mem_map (hd : ∀ c, p c → q (f c)) (h : ∀ c ∈ cs, p c) : ∀ c ∈ cs.map f, q c := by
  intro c hc
  obtain ⟨b, hb, rfl⟩ := List.mem_map.1 hc
  exact hd b (h b hb)

theorem Fraction.map (hd : ∀ c, p c → q (f c)) (hm : ∀ c ∈ numeralMarks, f c = c)
    (h : Fraction p cs) : Fraction q (cs.map f) := by
  cases h with
  | none => exact .none
  | point hne hds =>
    rw [List.map_cons, hm '.' (by decide)]
    exact .point (mt List.map_eq_nil_iff.1 hne) (forall_mem_map hd hds)

theorem Exponent.map (hd : ∀ c, p c → q (f c)) (hm : ∀ c ∈ numeralMarks, f c = c)
    (h : Exponent p cs) : Exponent q (cs.map f) := by
  cases h with
  | none => exact .none
  | @power c sign ds he hs hne hds =>
    have hc : f c = c := hm c (exponent_letter he).1
    have hsign : sign.map f = sign :=
      (List.map_congr_left fun b hb => hm b (mem_numeralMarks_of_mem_sign hs hb)).trans
        (List.map_id sign)
    rw [List.map_cons, List.map_append, hc, hsign]
    exact .power he hs (mt List.map_eq_nil_iff.1 hne) (forall_mem_map hd hds)

/-- A change of digits that keeps the marks keeps the shape. -/
theorem Numeral.map (hd : ∀ c, p c → q (f c)) (hm : ∀ c ∈ numeralMarks, f c = c)
    (h : Numeral p cs) : Numeral q (cs.map f) := by
  obtain ⟨hw, hf, he, hne⟩ := h
  rw [List.map_append, List.map_append]
  refine .parts (forall_mem_map hd hw) (hf.map hd hm) (he.map hd hm) ?_
  exact hne.imp (mt List.map_eq_nil_iff.1) (mt List.map_eq_nil_iff.1)

end Map

/-! ## Bringing digits into ASCII -/

/-- The ASCII digit that is worth as much as the digit `c`; every other character stays. -/
def asciiDigit (c : Char) : Char :=
  ((Text.digitValue? c).map Text.digitChar).getD c

theorem asciiDigit_of_lt {c : Char} (hc : c.toNat < 0x80) : asciiDigit c = c := by
  rw [asciiDigit]
  cases hv : Text.digitValue? c with
  | none => rfl
  | some d => exact Text.digitChar_of_digitValue?_eq_some hv hc

theorem toNat_lt_of_mem_numeralMarks {c : Char} (hc : c ∈ numeralMarks) : c.toNat < 0x7F := by
  rcases mem_numeralMarks_iff.1 hc with rfl | rfl | rfl | rfl | rfl <;> decide

theorem asciiDigit_of_mem_numeralMarks (c : Char) (hc : c ∈ numeralMarks) : asciiDigit c = c :=
  asciiDigit_of_lt (Nat.lt_succ_of_lt (toNat_lt_of_mem_numeralMarks hc))

theorem isDigit_asciiDigit (c : Char) (h : Text.isDigit c = true) :
    (asciiDigit c).isDigit = true := by
  obtain ⟨d, hd⟩ := Option.isSome_iff_exists.1 h
  obtain ⟨_, _, hlt, _⟩ := Text.exists_zero_of_digitValue?_eq_some hd
  rw [asciiDigit, hd]
  exact Text.isDigit_digitChar hlt

theorem mapM_eq_some_map {α β : Type} {f : α → Option β} {g : α → β} {as : List α}
    (h : ∀ a ∈ as, f a = some (g a)) : as.mapM f = some (as.map g) := by
  induction as with
  | nil => rfl
  | cons a as ih =>
    rw [List.mapM_cons, h a List.mem_cons_self, ih fun b hb => h b (List.mem_cons_of_mem a hb)]
    rfl

/-- Digits of any script and marks are brought into ASCII one by one. -/
theorem toAscii_eq {cs : List Char} (h : ∀ c ∈ cs, Text.isDigit c ∨ c ∈ numeralMarks) :
    toAscii cs = some (cs.map asciiDigit) := by
  rw [toAscii]
  split
  next hall =>
    have hid : cs.map asciiDigit = cs :=
      (List.map_congr_left fun c hc =>
        asciiDigit_of_lt (of_decide_eq_true (List.all_eq_true.1 hall c hc))).trans (List.map_id cs)
    rw [hid]
  next =>
    apply mapM_eq_some_map
    intro c hc
    by_cases hlt : c.toNat < 0x7F
    · rw [if_pos hlt, asciiDigit_of_lt (by omega)]
    · rw [if_neg hlt]
      rcases h c hc with hd | hm
      · obtain ⟨d, hd⟩ := Option.isSome_iff_exists.1 hd
        rw [if_neg (by rw [Text.isBlank_of_digitValue?_eq_some hd]; decide), asciiDigit, hd]
        rfl
      · exact absurd (toNat_lt_of_mem_numeralMarks hm) hlt

/-! ## Blanks and underscores -/

theorem dropAround_eq_self {p : Char → Bool} {cs : List Char} (h : ∀ c ∈ cs, p c = false) :
    Text.dropAround p cs = cs := by
  have hdrop : ∀ ds : List Char, (∀ c ∈ ds, p c = false) → ds.dropWhile p = ds := by
    intro ds hds
    apply List.dropWhile_eq_self_iff.2
    intro hl
    rw [hds _ (List.getElem_mem hl)]
    decide
  rw [Text.dropAround, hdrop cs h, Text.dropEndWhile,
    hdrop cs.reverse fun c hc => h c (List.mem_reverse.1 hc), List.reverse_reverse]

theorem dropUnderscores_eq_self {previous : Char} {cs : List Char} (h : '_' ∉ cs) :
    dropUnderscores previous cs = some cs := by
  induction cs generalizing previous with
  | nil => rfl
  | cons c cs ih =>
    have hc : c ≠ '_' := fun e => h (by rw [e]; exact List.mem_cons_self)
    rw [dropUnderscores, ih fun hm => h (List.mem_cons_of_mem c hm)]
    · rfl
    · exact hc

theorem not_isDigit_of_lt {c : Char} (hc : c.toNat < 48) : c.isDigit = false := by
  rw [Char.isDigit]
  refine Bool.and_eq_false_iff.2 (.inl (decide_eq_false ?_))
  rw [ge_iff_le, UInt32.le_iff_toNat_le]
  exact Nat.not_le.2 hc

/-- Neither a blank nor an underscore is an ASCII digit or a mark of numerals. -/
theorem not_blank_of_isDigit_or_mem {c : Char} (h : c.isDigit ∨ c ∈ numeralMarks) :
    Text.isAsciiBlank c = false ∧ c ≠ '_' := by
  rcases h with hd | hm
  · have hge : 48 ≤ c.toNat := by
      by_contra hlt
      rw [not_isDigit_of_lt (by omega)] at hd
      cases hd
    constructor
    · rw [Text.isAsciiBlank, Bool.or_eq_false_iff, Bool.and_eq_false_iff]
      refine ⟨.inr (decide_eq_false (by omega)), beq_eq_false_iff_ne.2 ?_⟩
      rintro rfl
      exact absurd hge (by decide)
    · rintro rfl
      exact absurd hd (by decide)
  · rcases mem_numeralMarks_iff.1 hm with rfl | rfl | rfl | rfl | rfl <;> decide

/-- The bare characters of a numeral are its characters in ASCII. -/
theorem bare_eq {cs : List Char} (h : ∀ c ∈ cs, Text.isDigit c ∨ c ∈ numeralMarks) :
    bare (String.ofList cs) = some (cs.map asciiDigit) := by
  have hmap : ∀ c ∈ cs.map asciiDigit, c.isDigit ∨ c ∈ numeralMarks := by
    intro c hc
    obtain ⟨b, hb, rfl⟩ := List.mem_map.1 hc
    rcases h b hb with hd | hm
    · exact .inl (isDigit_asciiDigit b hd)
    · exact .inr (by rw [asciiDigit_of_mem_numeralMarks b hm]; exact hm)
  rw [bare, String.toList_ofList, toAscii_eq h, Option.bind_eq_bind, Option.bind_some,
    dropAround_eq_self fun c hc => (not_blank_of_isDigit_or_mem (hmap c hc)).1]
  exact dropUnderscores_eq_self fun hc => (not_blank_of_isDigit_or_mem (hmap _ hc)).2 rfl

/-! ## Reading a numeral in ASCII -/

theorem splitDigits_append {ds cs : List Char} (hds : ∀ c ∈ ds, c.isDigit)
    (hcs : ∀ c ∈ cs.head?, c.isDigit = false) : splitDigits (ds ++ cs) = (ds, cs) := by
  have htake : cs.takeWhile Char.isDigit = [] := by
    cases cs with
    | nil => rfl
    | cons c cs => rw [List.takeWhile_cons, hcs c rfl]; rfl
  have hdrop : cs.dropWhile Char.isDigit = cs := by
    cases cs with
    | nil => rfl
    | cons c cs => rw [List.dropWhile_cons, hcs c rfl]; rfl
  rw [splitDigits, List.takeWhile_append_of_pos hds, List.dropWhile_append_of_pos hds, htake,
    hdrop, List.append_nil]

theorem splitSign_eq_self {cs : List Char} (h : ∀ c ∈ cs.head?, c ≠ '-' ∧ c ≠ '+') :
    splitSign cs = (false, cs) := by
  cases cs with
  | nil => rfl
  | cons c cs =>
    obtain ⟨hm, hp⟩ := h c rfl
    rw [splitSign]
    · intro _ e
      exact hm (List.cons.inj e).1
    · intro _ e
      exact hp (List.cons.inj e).1

theorem ne_sign_of_isDigit {c : Char} (h : c.isDigit) : c ≠ '-' ∧ c ≠ '+' := by
  constructor
  · rintro rfl
    exact absurd h (by decide)
  · rintro rfl
    exact absurd h (by decide)

theorem splitSign_digits {ds : List Char} (hds : ∀ c ∈ ds, c.isDigit) :
    splitSign ds = (false, ds) :=
  splitSign_eq_self fun c hc => ne_sign_of_isDigit (hds c (List.mem_of_mem_head? hc))

theorem exponent?_isSome {cs : List Char} (h : Exponent Char.isDigit cs) :
    (exponent? cs).isSome = true := by
  cases h with
  | none => rfl
  | @power c sign ds he hs hne hds =>
    obtain ⟨-, -, -, hletter⟩ := exponent_letter he
    have hsplit : (splitSign (sign ++ ds)).2 = ds := by
      simp only [List.mem_cons, List.not_mem_nil, or_false] at hs
      rcases hs with rfl | rfl | rfl
      · rw [List.nil_append, splitSign_digits hds]
      · rfl
      · rfl
    have hall : (ds.isEmpty || !ds.all Char.isDigit) = false := by
      rw [List.isEmpty_eq_false_iff.2 hne, List.all_eq_true.2 hds]
      rfl
    rw [exponent?, if_pos hletter]
    simp only [hsplit, hall]
    rfl

theorem Exponent.head_not_digit {cs : List Char} (h : Exponent Char.isDigit cs) :
    ∀ c ∈ cs.head?, c.isDigit = false ∧ c ≠ '.' := by
  cases h with
  | none => exact fun c hc => nomatch hc
  | power he _ _ _ =>
    intro b hb
    obtain rfl := Option.some.inj hb
    obtain ⟨-, hdigit, hpoint, -⟩ := exponent_letter he
    exact ⟨hdigit, hpoint⟩

theorem decimal?_isSome {cs : List Char} (h : Numeral Char.isDigit cs) :
    (decimal? cs).isSome = true := by
  obtain @⟨whole, fraction, exponent, hw, hf, he, hne⟩ := h
  have hexp := exponent?_isSome he
  have hhead : ∀ c ∈ exponent.head?, c.isDigit = false := fun c hc => (he.head_not_digit c hc).1
  cases hf with
  | none =>
    have hsplit := splitDigits_append hw hhead
    rw [List.nil_append, decimal?, hsplit]
    have hnonempty : whole.isEmpty = false :=
      List.isEmpty_eq_false_iff.2 (hne.resolve_right fun h => h rfl)
    dsimp only
    split
    next => exact absurd rfl (he.head_not_digit '.' rfl).2
    next => simp [hnonempty, hexp]
  | @point ds hds hd =>
    have hsplit : splitDigits (whole ++ '.' :: ds ++ exponent) =
        (whole, '.' :: ds ++ exponent) := by
      rw [List.append_assoc]
      exact splitDigits_append hw fun c hc => by obtain rfl := Option.some.inj hc; decide
    rw [← List.append_assoc, decimal?, hsplit]
    simp [splitDigits_append hd hhead, hds, hexp]

/-- Whatever `decimal?` reads, `unsigned?` reads. -/
theorem unsigned?_isSome {negative : Bool} {cs : List Char} (h : (decimal? cs).isSome = true) :
    (unsigned? negative cs).isSome = true := by
  rw [unsigned?]
  split
  · rfl
  · split
    · rfl
    · rw [Option.isSome_map, h]

theorem Numeral.splitSign_eq {cs : List Char} (h : Numeral Char.isDigit cs) :
    splitSign cs = (false, cs) := by
  apply splitSign_eq_self
  intro c hc
  rcases h.head c hc with hd | rfl
  · exact ne_sign_of_isDigit hd
  · decide

/-- A numeral denotes a number, and so does one with a minus sign in front. -/
theorem number?_isSome_of_numeral {sign cs : List Char} (hs : sign ∈ [[], ['-']])
    (h : Numeral Text.isDigit cs) : (number? (String.ofList (sign ++ cs))).isSome = true := by
  have hchars : ∀ c ∈ sign ++ cs, Text.isDigit c ∨ c ∈ numeralMarks := by
    intro c hc
    rcases List.mem_append.1 hc with hc | hc
    · have hsub : ∀ sign ∈ [[], ['-']], sign ∈ [[], ['+'], ['-']] := by decide
      exact .inr (mem_numeralMarks_of_mem_sign (hsub sign hs) hc)
    · exact h.mem hc
  have hascii := h.map isDigit_asciiDigit asciiDigit_of_mem_numeralMarks
  have hsplit : ∃ negative, splitSign ((sign ++ cs).map asciiDigit) =
      (negative, cs.map asciiDigit) := by
    simp only [List.mem_cons, List.not_mem_nil, or_false] at hs
    rcases hs with rfl | rfl
    · exact ⟨false, hascii.splitSign_eq⟩
    · exact ⟨true, rfl⟩
  obtain ⟨negative, hsplit⟩ := hsplit
  rw [number?, bare_eq hchars, Option.bind_eq_bind, Option.bind_some, hsplit]
  exact unsigned?_isSome (decimal?_isSome hascii)

end Literal

end TermCalc
