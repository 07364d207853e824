import TermCalc.Proofs.Term.Grammar
import TermCalc.Proofs.Token.Extent

/-!
# Cutting a text piece by piece

A text made up of pieces is cut into the tokens of the pieces, as long as each piece ends where the
next one begins. What happens to a piece depends on whether an operand is expected in front of it:
two minus signs there begin a comment, which swallows all that follows and leaves the operand
missing.

## Main definitions

* `Text.Visible cs`: `cs` begins with no blank and has one line
* `Lexer.Scans operand cs rest operand' P`: with `rest` behind it the piece `cs` is cut into tokens
  that satisfy `P`
* `Lexer.Lexes cs P`: the piece `cs` is an operand, whose tokens satisfy `P`
* `Lexer.Dangles cs`: a comment in `cs` swallows all that follows where an operand is expected
* `Lexer.Cuts cs P B`: one or the other, and in the second case `B` holds

## Main results

* `Lexer.Scans.append`: the tokens of two pieces, one behind the other
* `Lexer.Cuts.prepend`, `Lexer.Cuts.close`: pieces around an operand
* `Lexer.Cuts.sign`, `Lexer.Cuts.comma`: pieces between two operands
* `Grammar.Statement.operand_not_expected`: no operand is expected after a statement
-/

namespace TermCalc

open Token (significant operandExpectedAfter)

/-! ## Visible texts -/

/-- The characters begin with no blank, and they contain no line break. -/
structure Text.Visible (cs : List Char) : Prop where
  head : ∃ c tail, cs = c :: tail ∧ isBlank c = false
  unbroken : '\n' ∉ cs

namespace Text.Visible

variable {cs ds : List Char}

theorem append (h : Visible cs) (h' : '\n' ∉ ds) : Visible (cs ++ ds) := by
  obtain ⟨c, tail, rfl, hc⟩ := h.head
  exact ⟨⟨c, tail ++ ds, rfl, hc⟩, List.not_mem_append h.unbroken h'⟩

theorem head_append (h : Visible cs) (ds : List Char) :
    ∀ c ∈ (cs ++ ds).head?, isBlank c = false := by
  obtain ⟨c, tail, rfl, hc⟩ := h.head
  intro d hd
  obtain rfl := Option.some.inj hd
  exact hc

end Text.Visible

namespace Lexer

open Text (Visible)

/-! ## Pieces -/

/-- With `rest` behind it the piece `cs` is cut into tokens of its own, whose significant ones
satisfy `P`. An operand is expected in front of the piece or behind it, as the flags say. -/
def Scans (operand : Bool) (cs rest : List Char) (operand' : Bool) (P : List Token → Prop) : Prop :=
  ∀ position, ∃ ts, P (significant ts) ∧ ts.foldl operandExpectedAfter operand = operand' ∧
    scan operand position (cs ++ rest) =
      (ts ++ (scan operand' (position + cs.length) rest).1,
        (scan operand' (position + cs.length) rest).2)

variable {operand operand' operand'' : Bool} {cs cs' rest : List Char}
  {P Q : List Token → Prop}

theorem Scans.mono (h : Scans operand cs rest operand' P) (hPQ : ∀ ts, P ts → Q ts) :
    Scans operand cs rest operand' Q := by
  intro position
  obtain ⟨ts, hP, hflag, hscan⟩ := h position
  exact ⟨ts, hPQ _ hP, hflag, hscan⟩

/-- The tokens of two pieces, one behind the other. -/
theorem Scans.append (h : Scans operand cs (cs' ++ rest) operand' P)
    (h' : Scans operand' cs' rest operand'' Q) :
    Scans operand (cs ++ cs') rest operand''
      fun ts => ∃ us vs, ts = us ++ vs ∧ P us ∧ Q vs := by
  intro position
  obtain ⟨us, hP, hflag, hscan⟩ := h position
  obtain ⟨vs, hQ, hflag', hscan'⟩ := h' (position + cs.length)
  refine ⟨us ++ vs, ⟨significant us, significant vs, List.filter_append us vs, hP, hQ⟩, ?_, ?_⟩
  · rw [List.foldl_append, hflag, hflag']
  · rw [List.append_assoc, hscan, hscan', List.append_assoc, List.length_append, Nat.add_assoc]

/-! ## Single tokens -/

theorem scan_of_lexeme? {kind : TokenKind} {n : Nat} (position : Nat)
    (h : lexeme? operand cs = some (kind, n)) :
    scan operand position cs =
      (⟨kind, String.ofList (cs.take n), position⟩ ::
          (scan (operandExpectedAfter operand ⟨kind, String.ofList (cs.take n), position⟩)
            (position + n) (cs.drop n)).1,
        (scan (operandExpectedAfter operand ⟨kind, String.ofList (cs.take n), position⟩)
          (position + n) (cs.drop n)).2) := by
  rw [scan]
  split
  next hnone => exact nomatch h.symm.trans hnone
  next hsome =>
    cases h.symm.trans hsome
    rfl

/-- A piece that is a token of its own. -/
theorem scans_of_lexeme? {kind : TokenKind}
    (h : lexeme? operand (cs ++ rest) = some (kind, cs.length)) :
    Scans operand cs rest (operandExpectedAfter operand ⟨kind, String.ofList cs, 0⟩)
      fun ts => ∃ position, ts = significant [⟨kind, String.ofList cs, position⟩] := by
  intro position
  refine ⟨[⟨kind, String.ofList cs, position⟩], ⟨position, rfl⟩, rfl, ?_⟩
  have hscan := scan_of_lexeme? position h
  rw [List.take_left, List.drop_left] at hscan
  exact hscan

/-- The tokens are a single one of the given kind and image. -/
def IsToken (kind : TokenKind) (image : List Char) (ts : List Token) : Prop :=
  ∃ t : Token, ts = [t] ∧ t.kind = kind ∧ t.image = String.ofList image

theorem scans_constant (h : lexeme? operand (cs ++ rest) = some (.constant, cs.length)) :
    Scans operand cs rest false (IsToken .constant cs) :=
  (scans_of_lexeme? h).mono fun _ ⟨_, hts⟩ => ⟨_, hts, rfl, rfl⟩

theorem scans_symbol (h : lexeme? operand (cs ++ rest) = some (.symbol, cs.length)) :
    Scans operand cs rest false (IsToken .symbol cs) :=
  (scans_of_lexeme? h).mono fun _ ⟨_, hts⟩ => ⟨_, hts, rfl, rfl⟩

/-- The tokens are the operator or bracket `mark` alone. -/
def IsMark (mark : String) (ts : List Token) : Prop :=
  ∃ t : Token, ts = [t] ∧ t.Is mark

/-- Every mark makes an operand expected, unless it closes a group. -/
theorem scans_mark {c : Char} (h : lexeme? operand (c :: rest) = some (.operator, 1)) :
    Scans operand [c] rest (String.ofList [c] != ")" && String.ofList [c] != "]")
      (IsMark (String.ofList [c])) :=
  (show Scans operand [c] rest _ _ from scans_of_lexeme? h).mono
    fun _ ⟨_, hts⟩ => ⟨_, hts, rfl, rfl⟩

theorem scans_blank (h : ∀ c ∈ rest.head?, Text.isBlank c = false) :
    Scans operand [' '] rest operand (· = []) :=
  (show Scans operand [' '] rest _ _ from scans_of_lexeme? (lexeme?_blank h)).mono
    fun _ ⟨_, hts⟩ => hts

/-! ## What stands around operands -/

theorem scans_opener : Scans operand ['('] rest true (IsMark "(") :=
  scans_mark (lexeme?_mark (by decide))

theorem scans_closer : Scans operand [')'] rest false (IsMark ")") :=
  scans_mark (lexeme?_mark (by decide))

/-- A minus sign in front of an operand, unless it belongs to a number or a comment. -/
theorem scans_minus (h : lexeme? true ('-' :: rest) = some (.operator, 1)) :
    Scans true ['-'] rest true (IsMark "-") :=
  scans_mark h

/-- The signs that are shown between two operands. -/
def infixSigns : List Char :=
  ['+', '-', '*', '/', '%', '=']

theorem unbroken_sign : ∀ c ∈ infixSigns, '\n' ∉ [' ', c, ' '] :=
  List.all_iff_forall_prop.1 (by decide)

/-- A sign between two operands, with a blank on either side. -/
theorem scans_sign {c : Char} (hc : c ∈ infixSigns)
    (h : ∀ c ∈ rest.head?, Text.isBlank c = false) :
    Scans false [' ', c, ' '] rest true (IsMark (String.ofList [c])) := by
  have hall : ∀ c ∈ infixSigns, Text.isBlank c = false ∧
      (c = '-' ∨ c ∈ ['=', '+', '*', '/', '%', '(', ')', '[', ']', ',']) ∧
      (String.ofList [c] != ")" && String.ofList [c] != "]") = true :=
    List.all_iff_forall_prop.1 (by decide +kernel)
  obtain ⟨hblank, hmark, hflag⟩ := hall c hc
  have hlexeme : lexeme? false (c :: ' ' :: rest) = some (.operator, 1) := by
    rcases hmark with rfl | hmark
    · refine lexeme?_minus (fun d hd => ?_) fun hoperand => nomatch hoperand
      obtain rfl := Option.some.inj hd
      decide
    · exact lexeme?_mark hmark
  have hfront : ∀ d ∈ (c :: ' ' :: rest).head?, Text.isBlank d = false := by
    intro d hd
    obtain rfl := Option.some.inj hd
    exact hblank
  have hsign := scans_mark hlexeme
  rw [hflag] at hsign
  have hblanks : Scans false [' '] (c :: ' ' :: rest) false (· = []) := scans_blank hfront
  refine (hblanks.append (hsign.append (scans_blank h))).mono ?_
  rintro _ ⟨_, _, rfl, rfl, _, _, rfl, hts, rfl⟩
  rwa [List.nil_append, List.append_nil]

/-- A comma between two operands, with a blank behind it. -/
theorem scans_comma (h : ∀ c ∈ rest.head?, Text.isBlank c = false) :
    Scans false [',', ' '] rest true (IsMark ",") := by
  have hlexeme : lexeme? false (',' :: ' ' :: rest) = some (.operator, 1) :=
    lexeme?_mark (by decide)
  refine ((scans_mark hlexeme).append (scans_blank h)).mono ?_
  rintro _ ⟨_, _, rfl, hts, rfl⟩
  rwa [List.append_nil]

/-! ## Operands and comments -/

/-- Where an operand is expected the piece `cs` is one, and its significant tokens satisfy `P`. -/
def Lexes (cs : List Char) (P : List Token → Prop) : Prop :=
  ∀ rest, Boundary rest → Scans true cs rest false P

/-- Where an operand is expected the piece `cs` contains a comment that swallows all that follows,
and the operand is still missing. -/
def Dangles (cs : List Char) : Prop :=
  ∀ rest, '\n' ∉ rest → Scans true (cs ++ rest) [] true fun _ => True

theorem Lexes.mono (h : Lexes cs P) (hPQ : ∀ ts, P ts → Q ts) : Lexes cs Q :=
  fun rest hr => (h rest hr).mono hPQ

theorem dangles_comment (h : '\n' ∉ cs) : Dangles ('-' :: '-' :: cs) := by
  intro rest hr
  have hall : '\n' ∉ cs ++ rest := fun hmem => (List.mem_append.1 hmem).elim h hr
  have hcomment : lexeme? true ('-' :: '-' :: (cs ++ rest) ++ []) =
      some (.comment, ('-' :: '-' :: (cs ++ rest)).length) := by
    rw [List.append_nil]
    exact lexeme?_comment hall
  exact (scans_of_lexeme? hcomment).mono fun _ _ => trivial

theorem Dangles.append (h : Dangles cs) (h' : '\n' ∉ cs') : Dangles (cs ++ cs') := by
  intro rest hr
  rw [List.append_assoc]
  exact h (cs' ++ rest) fun hmem => (List.mem_append.1 hmem).elim h' hr

theorem Dangles.prepend (h : ∀ rest, Scans true cs (cs' ++ rest) true P) (h' : Dangles cs') :
    Dangles (cs ++ cs') := by
  intro rest hr
  have hfront := h rest
  rw [← List.append_nil (cs' ++ rest)] at hfront
  rw [List.append_assoc]
  exact (hfront.append (h' rest hr)).mono fun _ _ => trivial

theorem Lexes.prepend (h : ∀ rest, Boundary rest → Scans true cs (cs' ++ rest) true P)
    (h' : Lexes cs' Q) : Lexes (cs ++ cs') fun ts => ∃ us vs, ts = us ++ vs ∧ P us ∧ Q vs :=
  fun rest hr => (h rest hr).append (h' rest hr)

/-- Where an operand is expected the piece `cs` is one, and its significant tokens satisfy `P`. Or a
comment in it swallows all that follows, and then `B` holds. -/
def Cuts (cs : List Char) (P : List Token → Prop) (B : Prop) : Prop :=
  Lexes cs P ∨ Dangles cs ∧ B

variable {B C : Prop}

theorem Cuts.mono (h : Cuts cs P B) (hPQ : ∀ ts, P ts → Q ts) (hBC : B → C) : Cuts cs Q C :=
  h.imp (fun h => h.mono hPQ) fun h => ⟨h.1, hBC h.2⟩

/-- Something after which an operand is still expected, and an operand. -/
theorem Cuts.prepend (h : Cuts cs' Q B) (hfront : ∀ rest, Scans true cs (cs' ++ rest) true P) :
    Cuts (cs ++ cs') (fun ts => ∃ us vs, ts = us ++ vs ∧ P us ∧ Q vs) B :=
  h.imp (Lexes.prepend fun rest _ => hfront rest) fun h => ⟨.prepend hfront h.1, h.2⟩

/-- An operand and the bracket that closes a group. -/
theorem Cuts.close (h : Cuts cs P B) :
    Cuts (cs ++ [')']) (fun ts => ∃ us vs, ts = us ++ vs ∧ P us ∧ IsMark ")" vs) B := by
  refine h.imp (fun h rest _ => ?_) fun h => ⟨h.1.append (by decide), h.2⟩
  exact (h (')' :: rest) (boundary_cons (by decide))).append scans_closer

/-- Two operands and what stands between them. -/
theorem Cuts.between {between : List Char} {mark : String} (h : Cuts cs P B) (h' : Cuts cs' Q C)
    (hbetween : ∀ rest, Scans false between (cs' ++ rest) true (IsMark mark))
    (hboundary : ∀ rest, Boundary (between ++ rest)) (hbreak : '\n' ∉ between ++ cs') :
    Cuts (cs ++ (between ++ cs'))
      (fun ts => ∃ us t ws, ts = us ++ t :: ws ∧ P us ∧ t.Is mark ∧ Q ws) (B ∨ C) := by
  rcases h with h | ⟨h, hB⟩
  · have hfront : ∀ rest, Scans true (cs ++ between) (cs' ++ rest) true
        fun ts => ∃ us ms, ts = us ++ ms ∧ P us ∧ IsMark mark ms := fun rest =>
      (h (between ++ (cs' ++ rest)) (hboundary _)).append (hbetween rest)
    have hall := h'.prepend hfront
    rw [List.append_assoc] at hall
    refine hall.mono ?_ .inr
    rintro _ ⟨_, ws, rfl, ⟨us, _, rfl, hus, ⟨t, rfl, ht⟩⟩, hws⟩
    exact ⟨us, t, ws, List.append_assoc us [t] ws, hus, ht, hws⟩
  · exact .inr ⟨h.append hbreak, .inl hB⟩

/-- Two operands and a sign between them. -/
theorem Cuts.sign {c : Char} (h : Cuts cs P B) (hc : c ∈ infixSigns) (h' : Cuts cs' Q C)
    (hvisible : Visible cs') :
    Cuts (cs ++ ([' ', c, ' '] ++ cs'))
      (fun ts => ∃ us t ws, ts = us ++ t :: ws ∧ P us ∧ t.Is (String.ofList [c]) ∧ Q ws)
      (B ∨ C) := by
  refine h.between h' ?_ ?_ (List.not_mem_append (unbroken_sign c hc) hvisible.unbroken)
  · exact fun rest => scans_sign hc (hvisible.head_append rest)
  · exact fun _ => boundary_cons (by decide)

/-- Two operands and a comma between them. -/
theorem Cuts.comma (h : Cuts cs P B) (h' : Cuts cs' Q C) (hvisible : Visible cs') :
    Cuts (cs ++ ([',', ' '] ++ cs'))
      (fun ts => ∃ us t ws, ts = us ++ t :: ws ∧ P us ∧ t.Is "," ∧ Q ws) (B ∨ C) := by
  refine h.between h' ?_ ?_ (List.not_mem_append (by decide) hvisible.unbroken)
  · exact fun rest => scans_comma (hvisible.head_append rest)
  · exact fun _ => boundary_cons (by decide)

/-! ## Whole texts -/

theorem scan_nil (position : Nat) : scan operand position [] = ([], []) := by
  rw [scan]
  split
  next => rfl
  next h => exact nomatch (lexeme?_nil operand).symm.trans h

theorem Scans.ofSource? (h : Scans true cs [] operand P) :
    ∃ ts, P (significant ts) ∧ ts.foldl operandExpectedAfter true = operand ∧
      Token.ofSource? (String.ofList cs) = .ok ts := by
  obtain ⟨ts, hP, hflag, hscan⟩ := h 0
  rw [List.append_nil, scan_nil, List.append_nil] at hscan
  refine ⟨ts, hP, hflag, ?_⟩
  rw [Token.ofSource?, String.toList_ofList, hscan]
  rfl

end Lexer

/-! ## The end of a statement -/

/-- What the grammar does not see changes nothing about whether an operand is expected. -/
theorem Token.foldl_significant (ts : List Token) (operand : Bool) :
    (significant ts).foldl operandExpectedAfter operand =
      ts.foldl operandExpectedAfter operand := by
  induction ts generalizing operand with
  | nil => rfl
  | cons t ts ih =>
    rw [significant]
    cases hs : t.isSignificant with
    | true =>
      rw [List.filter_cons_of_pos hs]
      exact ih _
    | false =>
      have hsame : t.operandExpectedAfter operand = operand := by
        rw [operandExpectedAfter, hs]
        rfl
      rw [List.filter_cons_of_neg (by rw [hs]; decide), List.foldl_cons, hsame]
      exact ih _

namespace Grammar

theorem operandExpectedAfter_of_kind {t : Token} {operand : Bool}
    (h : t.kind ∈ [TokenKind.constant, .symbol]) : t.operandExpectedAfter operand = false := by
  simp only [List.mem_cons, List.not_mem_nil, or_false] at h
  rcases h with h | h <;> simp [operandExpectedAfter, Token.isSignificant, h]

theorem operandExpectedAfter_of_closer {t : Token} {closer : String} {operand : Bool}
    (h : t.Is closer) (hc : closer ∈ [")", "]"]) : t.operandExpectedAfter operand = false := by
  simp only [List.mem_cons, List.not_mem_nil, or_false] at hc
  rcases hc with rfl | rfl <;> simp [operandExpectedAfter, Token.isSignificant, h.1, h.2]

mutual

-- induction on derivations: each rule ends with an operand or a closing bracket
theorem Expression.operand_not_expected {ts : List Token} {v : Term} (h : Expression ts v) :
    ∀ operand, ts.foldl operandExpectedAfter operand = false := by
  match h with
  | .product h => exact h.operand_not_expected
  | .sum _ _ _ hr =>
    intro operand
    rw [List.foldl_append, List.foldl_cons, hr.operand_not_expected]

theorem Product.operand_not_expected {ts : List Token} {v : Term} (h : Product ts v) :
    ∀ operand, ts.foldl operandExpectedAfter operand = false := by
  match h with
  | .factor h => exact h.operand_not_expected
  | .product _ _ _ hr =>
    intro operand
    rw [List.foldl_append, List.foldl_cons, hr.operand_not_expected]

theorem Factor.operand_not_expected {ts : List Token} {v : Term} (h : Factor ts v) :
    ∀ operand, ts.foldl operandExpectedAfter operand = false := by
  match h with
  | .negation _ h =>
    intro operand
    rw [List.foldl_cons, h.operand_not_expected]
  | .group _ _ hc =>
    intro operand
    rw [List.foldl_concat]
    exact operandExpectedAfter_of_closer hc (by decide)
  | .vector _ _ hc =>
    intro operand
    rw [List.foldl_concat]
    exact operandExpectedAfter_of_closer hc (by decide)
  | .constant hk _ =>
    intro operand
    exact operandExpectedAfter_of_kind (by simp [hk])
  | .symbol hk =>
    intro operand
    exact operandExpectedAfter_of_kind (by simp [hk])
  | .call _ _ _ hc =>
    intro operand
    rw [List.foldl_concat]
    exact operandExpectedAfter_of_closer hc (by decide)

end

/-- No operand is expected after a statement. -/
theorem Statement.operand_not_expected {ts : List Token} {v : Term} (h : Statement ts v)
    (operand : Bool) : ts.foldl operandExpectedAfter operand = false := by
  cases h with
  | assignment _ _ h => exact h.operand_not_expected _
  | expression h => exact h.operand_not_expected _

end Grammar

end TermCalc
