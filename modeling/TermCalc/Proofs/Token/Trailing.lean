import TermCalc.Proofs.Token.Tiling
import TermCalc.Term.Reader

/-!
# Trailing blanks

Blanks at the end of a line change nothing about what the grammar sees of it. They belong to the
last comment or blank of the line, or they are a token of their own; every other token ends where it
ends without them.

## Main definitions

* `Text.Blanks ds`: the characters are blanks, none of which breaks a line
* `Text.BlankFirst ds`: the characters are none, or a blank comes first

## Main results

* `Lexer.extent_append_blanks`: constants, operators and symbols do not extend into blanks
* `Lexer.scan_append_blanks`: a text with blanks behind it has the same significant tokens
* `Token.read?_trimEnd`: so has a line without its trailing blanks
-/

namespace TermCalc

open Token (significant)

namespace Text

/-- The characters are blanks, none of which breaks a line. -/
structure Blanks (ds : List Char) : Prop where
  blank : ∀ c ∈ ds, isBlank c = true
  unbroken : '\n' ∉ ds

/-- The characters are none, or a blank comes first. -/
def BlankFirst (ds : List Char) : Prop :=
  ∀ c ∈ ds.head?, isBlank c = true

theorem blankFirst_cons {c : Char} {ds : List Char} (h : isBlank c = true) :
    BlankFirst (c :: ds) := by
  intro d hd
  obtain rfl := Option.some.inj hd
  exact h

theorem Blanks.first {ds : List Char} (h : Blanks ds) : BlankFirst ds :=
  fun c hc => h.blank c (List.mem_of_head? hc)

/-- A character that is no blank does not come first where a blank does. -/
theorem BlankFirst.ne_cons {ds : List Char} {c : Char} (hds : BlankFirst ds)
    (hc : isBlank c = false) (rest : List Char) :
    ds ≠ c :: rest := by
  rintro rfl
  exact Bool.noConfusion ((hds c rfl).symm.trans hc)

/-- What is left when the end is dropped, and the end. -/
theorem exists_dropEndWhile (p : Char → Bool) (cs : List Char) :
    ∃ ds, cs = dropEndWhile p cs ++ ds ∧ ∀ c ∈ ds, p c = true := by
  refine ⟨(cs.reverse.takeWhile p).reverse, ?_, fun c hc => ?_⟩
  · rw [dropEndWhile, ← List.reverse_append, List.takeWhile_append_dropWhile, List.reverse_reverse]
  · exact List.mem_takeWhile_imp (List.mem_reverse.1 hc)

end Text

namespace Lexer

open Text (Blanks BlankFirst)

variable {operand : Bool} {cs ds : List Char} {c : Char} {p : Char → Bool}

/-! ## Where no blank occurs -/

theorem isDigit_of_isBlank (h : Text.isBlank c = true) : Text.isDigit c = false := by
  cases hd : Text.isDigit c with
  | false => rfl
  | true =>
    obtain ⟨d, hv⟩ := Option.isSome_iff_exists.1 hd
    exact Bool.noConfusion (h.symm.trans (Text.isBlank_of_digitValue?_eq_some hv))

theorem isSymbolPart_of_isBlank (h : Text.isBlank c = true) : isSymbolPart c = false := by
  cases hp : isSymbolPart c with
  | false => rfl
  | true =>
    rcases Bool.or_eq_true_iff.1 hp with hs | hd
    · exact Bool.noConfusion (h.symm.trans (symbolStart_foreign hs).2.2.2.1)
    · have hval : c.toNat = c.val.toNat := rfl
      simp only [Char.isDigit, Bool.and_eq_true, decide_eq_true_eq, ge_iff_le,
        UInt32.le_iff_toNat_le] at hd
      simp only [Text.isBlank, Bool.or_eq_true, Bool.and_eq_true, decide_eq_true_eq,
        beq_iff_eq] at h
      have hlow : 48 ≤ c.toNat := hd.1
      have hhigh : c.toNat ≤ 57 := hd.2
      omega

/-- A stretch of characters that are no blanks ends in front of blanks. -/
theorem takeWhile_append_blanks (cs : List Char) (hp : ∀ c, Text.isBlank c = true → p c = false)
    (hds : BlankFirst ds) : (cs ++ ds).takeWhile p = cs.takeWhile p := by
  induction cs with
  | nil =>
    cases ds with
    | nil => rfl
    | cons d ds =>
      have hd := hp d (hds d rfl)
      rw [List.nil_append, List.takeWhile_cons, hd]
      rfl
  | cons c cs ih => rw [List.cons_append, List.takeWhile_cons, List.takeWhile_cons, ih]

/-! ## Extents in front of blanks -/

theorem digitsExtent_append_blanks (cs : List Char) (hds : BlankFirst ds) :
    digitsExtent (cs ++ ds) = digitsExtent cs :=
  congrArg List.length (takeWhile_append_blanks cs (fun _ h => isDigit_of_isBlank h) hds)

theorem mantissaExtent_append_blanks (cs : List Char) (hds : BlankFirst ds) :
    mantissaExtent (cs ++ ds) = mantissaExtent cs := by
  simp only [mantissaExtent, digitsExtent_append_blanks cs hds,
    List.drop_append_of_le_length (digitsExtent_le_length cs)]
  rcases cs.drop (digitsExtent cs) with _ | ⟨c, rest⟩
  · split
    next rest heq => exact absurd heq (hds.ne_cons (by decide) rest)
    next => rfl
  · by_cases hc : c = '.'
    · subst hc
      simp only [List.cons_append, digitsExtent_append_blanks rest hds]
    · simp [hc]

theorem exponentExtent_append_blanks (cs : List Char) (hds : BlankFirst ds) :
    exponentExtent (cs ++ ds) = exponentExtent cs := by
  have hnone : digitsExtent ds = 0 := digitsExtent_append_blanks [] hds
  have hhead : ∀ d ∈ ds.head?, d ∉ ['e', 'E', '+', '-'] := by
    intro d hd hmem
    have hall : ∀ d ∈ ['e', 'E', '+', '-'], Text.isBlank d = false :=
      List.all_iff_forall_prop.1 (by decide)
    exact Bool.noConfusion ((hds d hd).symm.trans (hall d hmem))
  rcases cs with _ | ⟨c, _ | ⟨s, rest⟩⟩
  · cases ds with
    | nil => rfl
    | cons d ds =>
      have hd := hhead d rfl
      simp only [List.mem_cons, List.not_mem_nil, or_false, not_or] at hd
      simp [exponentExtent, hd]
  · cases ds with
    | nil => rfl
    | cons d ds =>
      have hd := hhead d rfl
      simp only [List.mem_cons, List.not_mem_nil, or_false, not_or] at hd
      simp only [List.cons_append, List.nil_append, exponentExtent, beq_false_of_ne hd.2.2.1,
        beq_false_of_ne hd.2.2.2, Bool.or_self, Bool.false_eq_true, if_false, hnone]
      rfl
  · have hsigned : digitsExtent (rest ++ ds) = digitsExtent rest :=
      digitsExtent_append_blanks rest hds
    have hplain : digitsExtent (s :: (rest ++ ds)) = digitsExtent (s :: rest) :=
      digitsExtent_append_blanks (s :: rest) hds
    by_cases hs : (s == '+' || s == '-') = true
    · simp only [List.cons_append, exponentExtent, hs, if_true, List.drop_one, List.tail_cons,
        hsigned]
    · simp only [List.cons_append, exponentExtent, hs, if_false, Bool.false_eq_true, hplain]

theorem numeralExtent_append_blanks (cs : List Char) (hds : BlankFirst ds) :
    numeralExtent (cs ++ ds) = numeralExtent cs := by
  simp only [numeralExtent, mantissaExtent_append_blanks cs hds,
    List.drop_append_of_le_length (mantissaExtent_le_length cs), exponentExtent_append_blanks _ hds]

/-- A word without blanks is in front of the text itself. -/
theorem isPrefixOf_append_blanks {word : List Char} (cs : List Char)
    (hw : ∀ c ∈ word, Text.isBlank c = false) (hds : BlankFirst ds) :
    word.isPrefixOf (cs ++ ds) = word.isPrefixOf cs := by
  induction word generalizing cs with
  | nil => simp
  | cons a word ih =>
    obtain ⟨ha, hw⟩ := List.forall_mem_cons.1 hw
    cases cs with
    | nil =>
      cases ds with
      | nil => rfl
      | cons d ds =>
        have hne : a ≠ d := fun had => hds.ne_cons (had ▸ ha) ds rfl
        simp [List.isPrefixOf, hne]
    | cons c cs =>
      rw [List.cons_append, List.isPrefixOf_cons_cons, List.isPrefixOf_cons_cons, ih cs hw]

theorem unsignedExtent_append_blanks (cs : List Char) (hds : BlankFirst ds) :
    unsignedExtent (cs ++ ds) = unsignedExtent cs := by
  have hword : ∀ c ∈ "Infinity".toList, Text.isBlank c = false :=
    List.all_iff_forall_prop.1 (by decide)
  rw [unsignedExtent, isPrefixOf_append_blanks cs hword hds, numeralExtent_append_blanks cs hds,
    unsignedExtent]

theorem constantExtent_append_blanks (cs : List Char) (hds : BlankFirst ds) :
    constantExtent operand (cs ++ ds) = constantExtent operand cs := by
  have hword : ∀ c ∈ "NaN".toList, Text.isBlank c = false :=
    List.all_iff_forall_prop.1 (by decide)
  have hnan := isPrefixOf_append_blanks cs hword hds
  have hunsigned := unsignedExtent_append_blanks cs hds
  by_cases hminus : operand = true ∧ ∃ rest, cs = '-' :: rest
  · obtain ⟨rfl, rest, rfl⟩ := hminus
    have hrest := unsignedExtent_append_blanks rest hds
    rw [List.cons_append] at hnan ⊢
    simp only [constantExtent, hnan, hrest]
  · have hplain : ∀ cs : List Char, (∀ rest, operand = true → cs ≠ '-' :: rest) →
        constantExtent operand cs =
          if "NaN".toList.isPrefixOf cs then 3 else unsignedExtent cs := by
      intro cs h
      rw [constantExtent]
      exact fun rest ho hc => h rest ho hc
    rw [hplain cs fun rest ho hc => hminus ⟨ho, rest, hc⟩, hplain, hnan, hunsigned]
    intro rest ho hc
    cases cs with
    | nil => exact hds.ne_cons (by decide) rest hc
    | cons c cs =>
      rw [(List.cons.inj hc).1] at hminus
      exact hminus ⟨ho, cs, rfl⟩

theorem operatorExtent_append_blanks (cs : List Char) (hds : BlankFirst ds) :
    operatorExtent (cs ++ ds) = operatorExtent cs := by
  have hall : ∀ c ∈ '>' :: operatorChars, Text.isBlank c = false :=
    List.all_iff_forall_prop.1 (by decide)
  have hhead : ∀ c ∈ '>' :: operatorChars, ∀ rest, ds ≠ c :: rest :=
    fun c hc => hds.ne_cons (hall c hc)
  rcases cs with _ | ⟨c, _ | ⟨b, rest⟩⟩
  · cases ds with
    | nil => rfl
    | cons d ds =>
      have hd : d ∉ operatorChars := fun hd => hhead d (List.mem_cons_of_mem _ hd) ds rfl
      have hminus : d ≠ '-' := fun hm => hd (hm ▸ by decide)
      simp [operatorExtent, hminus, hd]
  · have harrow : ∀ rest, ds ≠ '>' :: rest := hhead '>' List.mem_cons_self
    rw [List.cons_append, List.nil_append, operatorExtent, operatorExtent]
    · rintro rest - hrest
      cases hrest
    · exact fun rest _ hrest => harrow rest hrest
  · by_cases harrow : c = '-' ∧ b = '>'
    · obtain ⟨rfl, rfl⟩ := harrow
      rfl
    · simp only [List.cons_append]
      rw [operatorExtent, operatorExtent]
      · exact fun _ hc hb => harrow ⟨hc, (List.cons.inj hb).1⟩
      · exact fun _ hc hb => harrow ⟨hc, (List.cons.inj hb).1⟩

theorem symbolExtent_append_blanks (cs : List Char) (hds : BlankFirst ds) :
    symbolExtent (cs ++ ds) = symbolExtent cs := by
  rcases cs with _ | ⟨c, rest⟩
  · cases ds with
    | nil => rfl
    | cons d ds =>
      have hd := isSymbolPart_of_isBlank (hds d rfl)
      rw [isSymbolPart, Bool.or_eq_false_iff] at hd
      simp [symbolExtent, hd.1]
  · have hrest := takeWhile_append_blanks rest (fun _ h => isSymbolPart_of_isBlank h) hds
    simp only [List.cons_append, symbolExtent, hrest]

/-- Constants, operators and symbols do not extend into blanks. -/
theorem extent_append_blanks {kind : TokenKind} (hk : kind ∉ [TokenKind.comment, .whitespace])
    (hds : BlankFirst ds) : extent operand (cs ++ ds) kind = extent operand cs kind := by
  cases kind with
  | comment => exact absurd (by decide) hk
  | whitespace => exact absurd (by decide) hk
  | constant => exact constantExtent_append_blanks cs hds
  | operator => exact operatorExtent_append_blanks cs hds
  | symbol => exact symbolExtent_append_blanks cs hds

/-- A text begins with a comment if it begins with two minus signs. -/
theorem commentExtent_eq_zero_iff :
    commentExtent cs = 0 ↔ ['-', '-'].isPrefixOf cs = false := by
  constructor
  · intro h
    by_contra hp
    obtain ⟨rest, rfl⟩ := List.isPrefixOf_iff_prefix.1 (Bool.not_eq_false _ ▸ hp)
    rw [List.cons_append, List.cons_append, List.nil_append, commentExtent] at h
    omega
  · intro h
    rw [commentExtent]
    rintro rest rfl
    exact Bool.noConfusion h

/-- What begins with no comment does not begin with one in front of a blank either. -/
theorem commentExtent_append_blank (h : commentExtent cs = 0) (hds : BlankFirst ds) :
    commentExtent (cs ++ ds) = 0 := by
  have hword : ∀ c ∈ ['-', '-'], Text.isBlank c = false :=
    List.all_iff_forall_prop.1 (by decide)
  rw [commentExtent_eq_zero_iff] at h ⊢
  rw [isPrefixOf_append_blanks cs hword hds, h]

/-- A text begins with a comment or with none, whatever blanks are behind it. -/
theorem commentExtent_append_blanks (hcs : '\n' ∉ cs) (hds : Blanks ds) :
    (commentExtent cs = 0 ∧ commentExtent (cs ++ ds) = 0) ∨
      (commentExtent cs = cs.length ∧ commentExtent (cs ++ ds) = (cs ++ ds).length) := by
  have hall : ∀ {rest}, '\n' ∉ rest →
      commentExtent ('-' :: '-' :: rest) = ('-' :: '-' :: rest).length := by
    intro rest h
    have hlexeme : lexeme? true ('-' :: '-' :: rest) = _ := lexeme?_comment h
    exact (extent_of_lexeme? hlexeme).1.symm
  cases h : ['-', '-'].isPrefixOf cs with
  | false =>
    have hzero := commentExtent_eq_zero_iff.2 h
    exact .inl ⟨hzero, commentExtent_append_blank hzero hds.first⟩
  | true =>
    obtain ⟨rest, rfl⟩ := List.isPrefixOf_iff_prefix.1 h
    have hrest : '\n' ∉ rest := fun hmem => hcs (List.mem_append_right _ hmem)
    exact .inr ⟨hall hrest, hall (List.not_mem_append hrest hds.unbroken)⟩

/-! ## Tokens in front of blanks -/

/-- Blanks are a token of their own. -/
theorem lexeme?_of_blanks (hne : cs ≠ []) (h : ∀ c ∈ cs, Text.isBlank c = true) :
    lexeme? operand cs = some (.whitespace, cs.length) := by
  have hextent : blankExtent cs = cs.length :=
    congrArg List.length (List.takeWhile_eq_self_iff.2 h)
  rw [← hextent]
  apply lexeme?_eq_blank
  · cases cs with
    | nil => rfl
    | cons c cs =>
      apply commentExtent_cons
      rintro rfl
      exact absurd (h '-' List.mem_cons_self) (by decide)
  · rw [hextent]
    exact mt List.length_eq_zero_iff.1 hne

/-- The first token of a text does not depend on the blanks behind the text, or it takes up the text
and the blanks. -/
theorem lexeme?_append_blanks (operand : Bool) (hne : cs ≠ []) (hcs : '\n' ∉ cs) (hds : Blanks ds) :
    lexeme? operand (cs ++ ds) = lexeme? operand cs ∨
      ∃ kind ∈ [TokenKind.comment, .whitespace],
        lexeme? operand cs = some (kind, cs.length) ∧
          lexeme? operand (cs ++ ds) = some (kind, (cs ++ ds).length) := by
  have hne' : cs ++ ds ≠ [] := fun h => hne (List.append_eq_nil_iff.1 h).1
  by_cases hblank : ∀ c ∈ cs, Text.isBlank c = true
  · right
    exact ⟨.whitespace, by decide, lexeme?_of_blanks hne hblank,
      lexeme?_of_blanks hne' (List.forall_mem_append.2 ⟨hblank, hds.blank⟩)⟩
  · rcases commentExtent_append_blanks hcs hds with ⟨hzero, hzero'⟩ | ⟨hlength, hlength'⟩
    · left
      have hextent : ∀ kind, extent operand (cs ++ ds) kind = extent operand cs kind := by
        intro kind
        by_cases hk : kind ∈ [TokenKind.comment, .whitespace]
        · simp only [List.mem_cons, List.not_mem_nil, or_false] at hk
          rcases hk with rfl | rfl
          · exact hzero'.trans hzero.symm
          · have hshort : ¬ (cs.takeWhile Text.isBlank).length = cs.length := fun h =>
              hblank (List.takeWhile_eq_self_iff.1 ((List.takeWhile_prefix _).eq_of_length h))
            simp only [extent, blankExtent, List.takeWhile_append, if_neg hshort]
        · exact extent_append_blanks hk hds.first
      simp only [lexeme?, hextent]
    · right
      have hcomment : ∀ {cs : List Char}, cs ≠ [] → commentExtent cs = cs.length →
          lexeme? operand cs = some (.comment, cs.length) := by
        intro cs hne h
        rw [← h]
        exact lexeme?_eq_comment (h ▸ mt List.length_eq_zero_iff.1 hne)
      exact ⟨.comment, by decide, hcomment hne hlength, hcomment hne' hlength'⟩

/-! ## Scans in front of blanks -/

/-- A text that is a comment or blank as a whole has no significant tokens. -/
theorem scan_of_insignificant {kind : TokenKind} (hk : kind ∈ [TokenKind.comment, .whitespace])
    (h : lexeme? operand cs = some (kind, cs.length)) (position : Nat) :
    significant (scan operand position cs).1 = [] ∧ (scan operand position cs).2 = [] := by
  rw [scan_of_lexeme? position h, List.drop_length, scan_nil]
  simp only [List.mem_cons, List.not_mem_nil, or_false] at hk
  rcases hk with rfl | rfl
  · exact ⟨rfl, rfl⟩
  · exact ⟨rfl, rfl⟩

/-- Blanks have no significant tokens. -/
theorem scan_of_blanks (operand : Bool) (hds : Blanks ds) (position : Nat) :
    significant (scan operand position ds).1 = [] ∧ (scan operand position ds).2 = [] := by
  by_cases hne : ds = []
  · rw [hne, scan_nil]
    exact ⟨rfl, rfl⟩
  · exact scan_of_insignificant (by decide) (lexeme?_of_blanks hne hds.blank) position

/-- A text that starts with no token is left as a whole. -/
theorem scan_of_lexeme?_eq_none (h : lexeme? operand cs = none) (position : Nat) :
    scan operand position cs = ([], cs) := by
  rw [scan, h]

/-- A text with blanks behind it has the same significant tokens, and either both of them are cut
into tokens to their end or none is. -/
theorem scan_append_blanks (operand : Bool) (position : Nat) (cs : List Char) (hcs : '\n' ∉ cs)
    (hds : Blanks ds) :
    significant (scan operand position (cs ++ ds)).1 = significant (scan operand position cs).1 ∧
      ((scan operand position (cs ++ ds)).2 = [] ↔ (scan operand position cs).2 = []) := by
  -- the recursion of the scan without the blanks
  induction operand, position, cs using scan.induct with
  | case1 operand position cs h =>
    rw [scan_of_lexeme?_eq_none h]
    by_cases hne : cs = []
    · subst hne
      obtain ⟨htokens, hleft⟩ := scan_of_blanks operand hds position
      exact ⟨htokens, iff_of_true hleft rfl⟩
    · have hne' : cs ++ ds ≠ [] := fun h => hne (List.append_eq_nil_iff.1 h).1
      rcases lexeme?_append_blanks operand hne hcs hds with heq | ⟨kind, -, hk, -⟩
      · rw [scan_of_lexeme?_eq_none (heq.trans h)]
        exact ⟨rfl, iff_of_false hne' hne⟩
      · cases h.symm.trans hk
  | case2 operand position cs kind n h t ts left hscan ih =>
    have hne : cs ≠ [] := by
      rintro rfl
      cases (lexeme?_nil operand).symm.trans h
    rcases lexeme?_append_blanks operand hne hcs hds with heq | ⟨kind', hk, hl, hl'⟩
    · have hle : n ≤ cs.length := (extent_of_lexeme? h).1 ▸ extent_le_length operand cs kind
      have hih := ih fun hmem => hcs (List.mem_of_mem_drop hmem)
      rw [scan_of_lexeme? position h, scan_of_lexeme? position (heq.trans h),
        List.take_append_of_le_length hle, List.drop_append_of_le_length hle]
      have hcons : ∀ us, significant (t :: us) = significant [t] ++ significant us := fun us =>
        List.filter_append [t] us
      exact ⟨(hcons _).trans ((congrArg _ hih.1).trans (hcons _).symm), hih.2⟩
    · obtain ⟨htokens, hleft⟩ := scan_of_insignificant hk hl position
      obtain ⟨htokens', hleft'⟩ := scan_of_insignificant hk hl' position
      exact ⟨htokens'.trans htokens.symm, iff_of_true hleft' hleft⟩

end Lexer

namespace Token

theorem read?_eq_ok_iff_scan {source : String} {tokens : List Token} :
    read? source = .ok tokens ↔ Lexer.scan true 0 source.toList = (tokens, []) := by
  simp only [read?, ofSource?]
  obtain ⟨ts, left⟩ := Lexer.scan true 0 source.toList
  cases left with
  | nil => simp [Except.mapError]
  | cons c left => simp [Except.mapError]

/-- A line without its trailing blanks has the same significant tokens. -/
theorem read?_trimEnd {line : String} {tokens : List Token} (hline : '\n' ∉ line.toList)
    (h : read? line = .ok tokens) :
    ∃ tokens', read? (Text.trimEnd line) = .ok tokens' ∧
      significant tokens' = significant tokens := by
  obtain ⟨ds, hds, hblank⟩ := Text.exists_dropEndWhile Text.isBlank line.toList
  rw [hds] at hline
  have hscan := Lexer.scan_append_blanks true 0 _ (fun hmem => hline (List.mem_append_left _ hmem))
    ⟨hblank, fun hmem => hline (List.mem_append_right _ hmem)⟩
  rw [← hds, read?_eq_ok_iff_scan.1 h] at hscan
  refine ⟨_, read?_eq_ok_iff_scan.2 ?_, hscan.1.symm⟩
  rw [Text.trimEnd, String.toList_ofList]
  exact Prod.ext rfl (hscan.2.1 rfl)

end Token

end TermCalc
