import TermCalc.Proofs.Token.Scan

/-!
# The tokens of a text make it up

The tokens that a text is cut into leave nothing out: each begins where the one before it ends, no
image is empty, and what they make up is the text. So every offset that is taken from a token lies
within the text.

## Main definitions

* `Token.Tiles position ts cs`: the tokens `ts`, the first of them at `position`, make up `cs`

## Main results

* `Lexer.extent_le_length`: a token does not extend over the end of the text
* `Lexer.tiles_scan`: a scan cuts what it passes into tokens that make it up
* `Token.tiles_of_ofSource?`: so do the tokens of a text
* `Token.ofSource?_error`: what starts with no token is not empty
-/

namespace TermCalc

namespace Lexer

variable {cs : List Char}

/-! ## Extents -/

theorem digitsExtent_le_length (cs : List Char) : digitsExtent cs ≤ cs.length :=
  (List.takeWhile_prefix _).length_le

theorem mantissaExtent_le_length (cs : List Char) : mantissaExtent cs ≤ cs.length := by
  have hwhole := digitsExtent_le_length cs
  simp only [mantissaExtent]
  split
  next rest hrest =>
    have hlength := congrArg List.length hrest
    have hfraction := digitsExtent_le_length rest
    rw [List.length_drop, List.length_cons] at hlength
    split
    · exact hwhole
    · omega
  next => exact hwhole

theorem exponentExtent_le_length (cs : List Char) : exponentExtent cs ≤ cs.length := by
  cases cs with
  | nil => exact Nat.le_refl 0
  | cons c rest =>
    by_cases hc : c ∈ ['e', 'E']
    · obtain ⟨sign, digits, rfl, -, he⟩ := exponentExtent_letter hc rest
      have hdigits := digitsExtent_le_length digits
      rw [he, List.length_cons, List.length_append]
      split
      · exact Nat.zero_le _
      · omega
    · have hletter : (c == 'e' || c == 'E') = false := by simpa using hc
      simp only [exponentExtent, hletter, Bool.false_eq_true, if_false]
      exact Nat.zero_le _

theorem unsignedExtent_le_length (cs : List Char) : unsignedExtent cs ≤ cs.length := by
  simp only [unsignedExtent, numeralExtent]
  split_ifs with hinf
  · exact (List.isPrefixOf_iff_prefix.1 hinf).length_le
  · exact Nat.zero_le _
  · have hmantissa := mantissaExtent_le_length cs
    have hexponent := exponentExtent_le_length (cs.drop (mantissaExtent cs))
    rw [List.length_drop] at hexponent
    omega

theorem constantExtent_le_length (operand : Bool) (cs : List Char) :
    constantExtent operand cs ≤ cs.length := by
  rw [constantExtent.eq_def]
  split
  next hnan => exact (List.isPrefixOf_iff_prefix.1 hnan).length_le
  next =>
    split
    next rest _ =>
      have hnumber := unsignedExtent_le_length rest
      simp only [List.length_cons]
      split <;> omega
    next => exact unsignedExtent_le_length _

/-- A token does not extend over the end of the text. -/
theorem extent_le_length (operand : Bool) (cs : List Char) (kind : TokenKind) :
    extent operand cs kind ≤ cs.length := by
  cases kind with
  | comment =>
    rw [extent, commentExtent.eq_def]
    split
    next rest =>
      have htail := (List.takeWhile_prefix (l := rest) (· != '\n')).length_le
      simp only [List.length_cons]
      omega
    next => exact Nat.zero_le _
  | whitespace => exact (List.takeWhile_prefix _).length_le
  | constant => exact constantExtent_le_length operand cs
  | operator =>
    rw [extent, operatorExtent.eq_def]
    split
    · simp
    · split <;> simp
    · exact Nat.le_refl 0
  | symbol =>
    cases cs with
    | nil => exact Nat.le_refl 0
    | cons c rest =>
      have htail := (List.takeWhile_prefix (l := rest) isSymbolPart).length_le
      simp only [extent, symbolExtent, List.length_cons]
      split <;> omega

end Lexer

namespace Token

/-! ## What tokens make up -/

/-- The tokens make up the characters: the first begins at `position` and each where the one before
it ends, and none has an empty image. -/
inductive Tiles : Nat → List Token → List Char → Prop
  | nil (position : Nat) : Tiles position [] []
  | cons {position : Nat} {kind : TokenKind} {image cs : List Char} {ts : List Token}
    (hne : image ≠ []) (h : Tiles (position + image.length) ts cs) :
    Tiles position (⟨kind, String.ofList image, position⟩ :: ts) (image ++ cs)

namespace Tiles

variable {position : Nat} {ts : List Token} {cs : List Char} {t : Token}

/-- The source of the tokens is the text that they make up. -/
theorem sourceOf_eq (h : Tiles position ts cs) : sourceOf ts = String.ofList cs := by
  induction h with
  | nil => rfl
  | cons _ _ ih =>
    rw [sourceOf] at ih ⊢
    rw [List.map_cons, String.join_cons, ih, String.ofList_append]

/-- No token goes beyond the text. -/
theorem span_of_mem (h : Tiles position ts cs) (ht : t ∈ ts) :
    (position : Int) ≤ t.position ∧ 0 < t.image.length ∧
      t.position + t.image.length ≤ position + cs.length := by
  induction h with
  | nil => cases ht
  | @cons position kind image cs ts hne _ ih =>
    have himage := List.length_pos_iff.2 hne
    rw [List.length_append]
    rcases List.mem_cons.1 ht with rfl | ht
    · simp only [String.length_ofList]
      omega
    · have hspan := ih ht
      omega

end Tiles

end Token

/-! ## The tokens of a text -/

open Token (Tiles)

/-- A scan cuts what it passes into tokens that make it up. -/
theorem Lexer.tiles_scan (operand : Bool) (position : Nat) (cs : List Char) :
    ∃ us, cs = us ++ (scan operand position cs).2 ∧
      Tiles position (scan operand position cs).1 us := by
  -- the recursion of the scan: no token starts here, or one does and the rest is scanned
  induction operand, position, cs using scan.induct with
  | case1 operand position cs h =>
    refine ⟨[], ?_, ?_⟩
    · rw [scan, h]
      rfl
    · rw [scan, h]
      exact .nil position
  | case2 operand position cs kind n h t ts left hscan ih =>
    obtain ⟨rfl, hne⟩ := extent_of_lexeme? h
    have hle := extent_le_length operand cs kind
    have hlength : (cs.take (extent operand cs kind)).length = extent operand cs kind :=
      List.length_take_of_le hle
    have htake : cs.take (extent operand cs kind) ≠ [] := by
      rw [← List.length_pos_iff, hlength]
      exact Nat.pos_of_ne_zero hne
    obtain ⟨us, hus, htiles⟩ := ih
    rw [scan_of_lexeme? position h]
    refine ⟨cs.take (extent operand cs kind) ++ us, ?_, .cons htake ?_⟩
    · rw [List.append_assoc, ← hus, List.take_append_drop]
    · rw [hlength]
      exact htiles

namespace Token

variable {source : String} {ts : List Token}

/-- The tokens of a text make it up. -/
theorem tiles_of_ofSource? (h : ofSource? source = .ok ts) : Tiles 0 ts source.toList := by
  obtain ⟨us, hus, htiles⟩ := Lexer.tiles_scan true 0 source.toList
  simp only [ofSource?] at h
  split at h
  next hleft =>
    rw [List.isEmpty_iff.1 hleft, List.append_nil] at hus
    rw [hus, ← Except.ok.inj h]
    exact htiles
  next => cases h

/-- What starts with no token is not empty. -/
theorem ofSource?_error {position : Nat} (h : ofSource? source = .error position) :
    position < source.length := by
  obtain ⟨us, hus, -⟩ := Lexer.tiles_scan true 0 source.toList
  simp only [ofSource?] at h
  split at h
  next => cases h
  next hleft =>
    have hlength := congrArg List.length hus
    have hpos := List.length_pos_iff.2 (mt List.isEmpty_iff.2 hleft)
    rw [List.length_append, String.length_toList] at hlength
    have hposition := Except.error.inj h
    omega

end Token

end TermCalc
