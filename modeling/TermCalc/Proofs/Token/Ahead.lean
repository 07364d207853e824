import TermCalc.Proofs.Token.Lexemes
import TermCalc.Proofs.Token.Tiling

/-!
# What stands ahead of a token

The characters ahead of a token are those of the tokens ahead of it. The grammar sees some of these;
the others are blanks, and comments if the text has several lines, since a comment takes up the rest
of its line.

## Main results

* `Lexer.pairwise_scan_of_unbroken`: on a single line no token follows a comment
* `Token.Tiles.split`: the parts of a text that parts of its tokens make up
* `Token.exists_ahead`: what stands ahead of a token that the grammar sees
-/

namespace TermCalc

namespace Lexer

variable {operand : Bool} {position : Nat} {cs : List Char}

/-- On a single line a comment extends to the end. -/
theorem commentExtent_of_unbroken (hcs : '\n' ∉ cs) (h : commentExtent cs ≠ 0) :
    commentExtent cs = cs.length := by
  rw [commentExtent.eq_def] at h ⊢
  split
  next rest =>
    have hrest : ∀ c ∈ rest, (c != '\n') = true := by
      intro c hc
      rw [bne_iff_ne]
      rintro rfl
      exact hcs (by simp [hc])
    rw [List.takeWhile_eq_self_iff.2 hrest, List.length_cons, List.length_cons]
    omega
  next => simp at h

/-- On a single line no token follows a comment. -/
theorem pairwise_scan_of_unbroken (operand : Bool) (position : Nat) (cs : List Char) :
    '\n' ∉ cs → (scan operand position cs).1.Pairwise fun t _ => t.kind ≠ .comment := by
  -- the recursion of the scan: nothing is left to scan behind a comment
  induction operand, position, cs using scan.induct with
  | case1 operand position cs hnone =>
    intro _
    rw [scan, hnone]
    exact .nil
  | case2 operand position cs kind n hlexeme t ts left hscan ih =>
    intro hcs
    rw [scan_of_lexeme? position hlexeme]
    refine .cons (fun u hu => ?_) (ih fun hmem => hcs (List.mem_of_mem_drop hmem))
    rintro rfl
    obtain ⟨rfl, hne⟩ := extent_of_lexeme? hlexeme
    have hall : extent operand cs .comment = cs.length := commentExtent_of_unbroken hcs hne
    rw [hall, List.drop_length, scan_nil] at hu
    exact List.not_mem_nil hu

end Lexer

namespace Token

variable {position : Nat} {cs : List Char} {before after ts : List Token} {t : Token}

/-- Tokens in front of others make up what is in front. -/
theorem Tiles.split (h : Tiles position (before ++ after) cs) :
    ∃ us vs, cs = us ++ vs ∧ Tiles position before us ∧ Tiles (position + us.length) after vs := by
  induction before generalizing position cs with
  | nil => exact ⟨[], cs, rfl, .nil position, h⟩
  | cons t before ih =>
    cases h with
    | @cons _ kind image cs _ hne h =>
      obtain ⟨us, vs, rfl, hbefore, hafter⟩ := ih h
      refine ⟨image ++ us, vs, (List.append_assoc _ _ _).symm, .cons hne hbefore, ?_⟩
      rwa [List.length_append, ← Nat.add_assoc]

/-- The characters that tokens make up are those of their images. -/
theorem Tiles.mem_iff (h : Tiles position ts cs) {c : Char} :
    c ∈ cs ↔ ∃ t ∈ ts, c ∈ t.image.toList := by
  induction h with
  | nil => simp
  | cons _ _ ih => simp [ih]

/-- The whitespace of a text holds blanks only. -/
theorem blank_of_kind {source : String} (h : ofSource? source = .ok ts) :
    ∀ t ∈ ts, t.kind = .whitespace → ∀ c ∈ t.image.toList, Text.isBlank c = true := by
  rw [eq_scan_of_ofSource? h]
  refine Lexer.forall_mem_scan (P := fun t => t.kind = .whitespace →
    ∀ c ∈ t.image.toList, Text.isBlank c = true) ?_ true 0 source.toList
  rintro operand cs kind n position hlexeme rfl c hc
  obtain ⟨rfl, -⟩ := Lexer.extent_of_lexeme? hlexeme
  rw [String.toList_ofList, Lexer.extent, Lexer.blankExtent,
    ← List.prefix_iff_eq_take.1 (List.takeWhile_prefix Text.isBlank)] at hc
  exact List.mem_takeWhile_imp hc

/-- What stands ahead of a token that the grammar sees: the images of the tokens that it sees ahead
of it, and on a single line nothing else but blanks. -/
theorem exists_ahead {source : String} {tokens : List Token} (h : ofSource? source = .ok tokens)
    (ht : significant tokens = before ++ t :: after) :
    ∃ us vs, source.toList = us ++ (t.image.toList ++ vs) ∧ t.position = us.length ∧
      (∀ r ∈ before, ∀ c ∈ r.image.toList, c ∈ us) ∧
      ('\n' ∉ source.toList →
        ∀ c ∈ us, Text.isBlank c = true ∨ ∃ r ∈ before, c ∈ r.image.toList) := by
  obtain ⟨front, back, rfl, hfront, hback⟩ := List.filter_eq_append_iff.1 ht
  obtain ⟨unseen, rest, rfl, hunseen, -, -⟩ := List.filter_eq_cons_iff.1 hback
  rw [← List.append_assoc] at h
  obtain ⟨us, ws, hsource, hahead, htoken⟩ := (tiles_of_ofSource? h).split
  cases htoken with
  | @cons _ kind image vs _ hne _ =>
    refine ⟨us, vs, by rw [hsource, String.toList_ofList], by rw [Nat.zero_add], ?_, ?_⟩
    · intro r hr c hc
      have hmem : r ∈ front := (List.mem_filter.1 (hfront ▸ hr)).1
      exact hahead.mem_iff.2 ⟨r, List.mem_append_left _ hmem, hc⟩
    · intro hbreak c hc
      obtain ⟨r, hr, hcr⟩ := hahead.mem_iff.1 hc
      by_cases hseen : r.isSignificant = true
      · right
        refine ⟨r, ?_, hcr⟩
        rw [← hfront]
        rcases List.mem_append.1 hr with hr | hr
        · exact List.mem_filter.2 ⟨hr, hseen⟩
        · exact absurd hseen (hunseen r hr)
      · left
        have hpairwise := Lexer.pairwise_scan_of_unbroken true 0 source.toList hbreak
        rw [← eq_scan_of_ofSource? h, List.pairwise_append] at hpairwise
        have hcomment := hpairwise.2.2 r hr _ List.mem_cons_self
        refine blank_of_kind h r (List.mem_append_left _ hr) ?_ c hcr
        cases hk : r.kind <;> simp_all [isSignificant]

end Token

end TermCalc
