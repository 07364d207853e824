import TermCalc.Proofs.Token.Stopping

/-!
# Tokens with single blanks between them

The first kind that fits makes a token, not the longest token that fits, so where a token ends
depends on what is in front of it and not on what is behind it. Cut out of its text, a token that
the grammar sees is therefore found again as a whole, as long as an operand is expected in front of
it just as before. Blanks and comments have no part in that, and a blank behind the token changes
nothing about it.

## Main definitions

* `Token.Alike ts us`: the tokens have the same kinds and images, one by one
* `Token.spaced ts`: the images of the tokens with a blank between any two
* `Lexer.Standalone operand ts`: every token is found again in its image alone

## Main results

* `Lexer.lexeme?_append_blank`: what is cut off from the front of a text that a blank follows
* `Lexer.standalone_scan`: the tokens of a scan that the grammar sees are found again
* `Lexer.Standalone.scans`: and so they are in a row, with single blanks between them
* `Token.exists_read?_spaced`: the tokens of a text are those of their images with single blanks
  between
-/

namespace TermCalc

namespace Token

/-- The tokens have the same kinds and images, one by one. They may stand at different offsets. -/
def Alike (ts us : List Token) : Prop :=
  List.Forall₂ (fun t u => t.kind = u.kind ∧ t.image = u.image) ts us

/-- The images of the tokens with a blank between any two. -/
def spaced (ts : List Token) : String :=
  " ".intercalate (ts.map Token.image)

theorem spaced_cons_cons (t u : Token) (ts : List Token) :
    (spaced (t :: u :: ts)).toList = t.image.toList ++ ([' '] ++ (spaced (u :: ts)).toList) := by
  rw [spaced, List.map_cons, List.map_cons, String.intercalate_cons_cons, String.toList_append,
    String.toList_append, List.append_assoc]
  rfl

theorem spaced_singleton (t : Token) : spaced [t] = t.image :=
  String.intercalate_singleton

end Token

open Token (significant operandExpectedAfter Alike spaced)

namespace Lexer

open Text (BlankFirst)

variable {operand : Bool} {cs rest : List Char} {kind : TokenKind} {n : Nat} {t : Token}
  {ts : List Token}

/-! ## Tokens in front of a blank -/

/-- Where the grammar sees a token neither a comment nor a blank begins. -/
theorem extents_of_lexeme? (h : lexeme? operand cs = some (kind, n))
    (hk : kind ∉ [TokenKind.comment, .whitespace]) :
    commentExtent cs = 0 ∧ blankExtent cs = 0 := by
  have hcomment : commentExtent cs = 0 := by
    by_contra hne
    cases h.symm.trans (lexeme?_eq_comment hne)
    exact hk (by decide)
  refine ⟨hcomment, ?_⟩
  by_contra hne
  cases h.symm.trans (lexeme?_eq_blank hcomment hne)
  exact hk (by decide)

/-- A token that the grammar sees begins with no blank. -/
theorem exists_head_of_lexeme? (h : lexeme? operand cs = some (kind, n))
    (hk : kind ∉ [TokenKind.comment, .whitespace]) :
    ∃ c tail, cs = c :: tail ∧ Text.isBlank c = false := by
  cases cs with
  | nil => exact nomatch (lexeme?_nil operand).symm.trans h
  | cons c tail =>
    refine ⟨c, tail, rfl, ?_⟩
    by_contra hc
    have hblank := (extents_of_lexeme? h hk).2
    rw [blankExtent, List.takeWhile_cons_of_pos (by simpa using hc)] at hblank
    exact absurd hblank (Nat.succ_ne_zero _)

/-- A blank behind a text changes nothing about a token at the front of it that the grammar sees. -/
theorem lexeme?_append_blank (h : lexeme? operand cs = some (kind, n))
    (hk : kind ∉ [TokenKind.comment, .whitespace]) (hrest : BlankFirst rest) :
    lexeme? operand (cs ++ rest) = some (kind, n) := by
  obtain ⟨hcomment, hblank⟩ := extents_of_lexeme? h hk
  have hextent : ∀ kind, extent operand (cs ++ rest) kind = extent operand cs kind := by
    intro kind
    cases kind with
    | comment => exact (commentExtent_append_blank hcomment hrest).trans hcomment.symm
    | whitespace =>
      obtain ⟨c, tail, rfl, hc⟩ := exists_head_of_lexeme? h hk
      exact (blankExtent_cons hc).trans hblank.symm
    | constant => exact extent_append_blanks (by decide) hrest
    | operator => exact extent_append_blanks (by decide) hrest
    | symbol => exact extent_append_blanks (by decide) hrest
  rw [← h]
  simp only [lexeme?, hextent]

/-! ## Tokens by themselves -/

/-- Each of the tokens is seen by the grammar and is found again, as a whole, in its image alone,
where an operand is expected as it is behind the tokens in front of it. -/
inductive Standalone : Bool → List Token → Prop
  | nil {operand : Bool} : Standalone operand []
  | cons {operand : Bool} {t : Token} {ts : List Token} (visible : t.isSignificant = true)
      (alone : lexeme? operand t.image.toList = some (t.kind, t.image.toList.length))
      (behind : Standalone (t.operandExpectedAfter operand) ts) : Standalone operand (t :: ts)

/-- The tokens of a scan that the grammar sees are found again in their images alone. -/
theorem standalone_scan (operand : Bool) (position : Nat) (cs : List Char) :
    Standalone operand (significant (scan operand position cs).1) := by
  -- the recursion of the scan; what is cut off does not depend on what is behind it
  induction operand, position, cs using scan.induct with
  | case1 operand position cs h =>
    rw [scan_of_lexeme?_eq_none h]
    exact .nil
  | case2 operand position cs kind n h t ts left hscan ih =>
    rw [scan_of_lexeme? position h]
    by_cases ht : t.isSignificant = true
    · rw [significant, List.filter_cons_of_pos ht]
      refine .cons ht ?_ ih
      have hle : n ≤ cs.length := (extent_of_lexeme? h).1 ▸ extent_le_length operand cs kind
      have hlength : (cs.take n).length = n := List.length_take_of_le hle
      rw [← List.take_append_drop n cs] at h
      have halone := lexeme?_of_append h hlength.ge
      rw [String.toList_ofList, hlength]
      exact halone
    · have hsame : t.operandExpectedAfter operand = operand := if_neg ht
      rw [significant, List.filter_cons_of_neg ht]
      rw [hsame] at ih
      exact hsame.symm ▸ ih

theorem not_mem_of_isSignificant (h : t.isSignificant = true) :
    t.kind ∉ [TokenKind.comment, .whitespace] := by
  intro hk
  simp only [List.mem_cons, List.not_mem_nil, or_false] at hk
  rcases hk with hk | hk <;> simp [Token.isSignificant, hk] at h

/-- A token that is found in its image alone is cut off from the front of a text if a blank or
nothing follows it there. -/
theorem scans_alone (ht : t.isSignificant = true)
    (h : lexeme? operand t.image.toList = some (t.kind, t.image.toList.length))
    (hrest : BlankFirst rest) :
    Scans operand t.image.toList rest (t.operandExpectedAfter operand) (Alike · [t]) := by
  have hscans := scans_of_lexeme? (lexeme?_append_blank h (not_mem_of_isSignificant ht) hrest)
  rw [String.ofList_toList] at hscans
  refine hscans.mono ?_
  rintro _ ⟨position, rfl⟩
  have hsignificant : significant [⟨t.kind, t.image, position⟩] = [⟨t.kind, t.image, position⟩] :=
    List.filter_cons_of_pos ht
  rw [hsignificant]
  exact .cons ⟨rfl, rfl⟩ .nil

/-- The images of tokens begin with no blank, so that a blank in front of them is a single one. -/
theorem Standalone.head (h : Standalone operand ts) :
    ∀ c ∈ (spaced ts).toList.head?, Text.isBlank c = false := by
  cases h with
  | nil => exact fun c hc => nomatch hc
  | @cons operand t ts visible alone behind =>
    obtain ⟨c, tail, himage, hc⟩ := exists_head_of_lexeme? alone (not_mem_of_isSignificant visible)
    have hfirst : (spaced (t :: ts)).toList.head? = some c := by
      cases ts with
      | nil => rw [Token.spaced_singleton, himage]; rfl
      | cons u us => rw [Token.spaced_cons_cons, himage]; rfl
    intro d hd
    rw [hfirst] at hd
    obtain rfl := Option.some.inj hd
    exact hc

/-- Tokens that are found in their images alone are found in a row, with single blanks between
them. -/
theorem Standalone.scans (h : Standalone operand ts) :
    Scans operand (spaced ts).toList [] (ts.foldl operandExpectedAfter operand) (Alike · ts) := by
  induction h with
  | nil => exact fun position => ⟨[], .nil, rfl, by rw [List.nil_append]; rfl⟩
  | @cons operand t ts visible alone behind ih =>
    cases ts with
    | nil =>
      rw [Token.spaced_singleton]
      exact scans_alone visible alone fun c hc => nomatch hc
    | cons u us =>
      have hblank : BlankFirst ([' '] ++ (spaced (u :: us)).toList ++ []) := Text.blankFirst_cons rfl
      have hfront := scans_alone visible alone hblank
      have hhead := behind.head
      rw [← List.append_nil (spaced (u :: us)).toList] at hhead
      rw [Token.spaced_cons_cons]
      refine (hfront.append ((scans_blank hhead).append ih)).mono ?_
      rintro _ ⟨vs, _, rfl, hvs, _, ws, rfl, rfl, hws⟩
      exact List.rel_append hvs hws

end Lexer

namespace Token

variable {source : String} {ts : List Token}

/-- **Single blanks.** The images of the tokens of a text that the grammar sees, with single blanks
between them, make up a text that is cut into tokens of the same kinds and images, apart from
blanks. -/
theorem exists_read?_spaced (h : read? source = .ok ts) :
    ∃ us, read? (spaced (significant ts)) = .ok us ∧ Alike (significant us) (significant ts) := by
  have hscan := congrArg Prod.fst (read?_eq_ok_iff_scan.1 h)
  have hstandalone := Lexer.standalone_scan true 0 source.toList
  rw [hscan] at hstandalone
  obtain ⟨us, halike, -, hus⟩ := hstandalone.scans.ofSource?
  rw [String.ofList_toList] at hus
  exact ⟨us, by rw [read?, hus]; rfl, halike⟩

end Token

end TermCalc
