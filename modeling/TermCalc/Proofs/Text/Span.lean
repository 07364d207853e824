import TermCalc.Text.Span

/-!
# Parts of a text that follow one another

Cut at two offsets a text falls into three parts, and it is what they make up. Offsets that are
counted from the front and in order need no bounds for that: an offset behind the text stands for
its end.

## Main results

* `Text.toList_upTo`, `Text.toList_startingAt`, `Text.toList_slice`: the characters of the parts
* `Text.upTo_slice_startingAt`: the three parts make up the text
* `Text.slice_of_eq_append`: the middle one of three texts
* `Text.firstIndex?_eq_some_iff`: where a text first occurs in another
-/

namespace TermCalc.Text

variable {s : String} {m n : Nat}

theorem toList_upTo (s : String) (n : Nat) : (upTo s n).toList = s.toList.take n := by
  rw [upTo, String.toList_ofList, boundary_natCast]
  rcases Nat.le_total n s.length with h | h
  · rw [Nat.min_eq_right h]
  · have hlength : s.toList.length ≤ n := Nat.le_trans (Nat.le_of_eq String.length_toList) h
    rw [Nat.min_eq_left h, List.take_of_length_le hlength,
      List.take_of_length_le (Nat.le_of_eq String.length_toList)]

theorem toList_startingAt (s : String) (n : Nat) : (startingAt s n).toList = s.toList.drop n := by
  rw [startingAt, String.toList_ofList, boundary_natCast]
  rcases Nat.le_total n s.length with h | h
  · rw [Nat.min_eq_right h]
  · rw [Nat.min_eq_left h, ← String.length_toList, List.drop_length, List.drop_eq_nil_of_le]
    rwa [String.length_toList]

theorem toList_slice (s : String) (m n : Nat) :
    (slice s m n).toList = (s.toList.take n).drop m := by
  rw [slice, boundary_natCast, toList_startingAt, toList_upTo]
  rcases Nat.le_total m s.length with h | h
  · rw [Nat.min_eq_right h]
  · have hlength : (s.toList.take n).length ≤ s.length :=
      Nat.le_trans (List.length_take_le' n _) (Nat.le_of_eq String.length_toList)
    rw [Nat.min_eq_left h, List.drop_eq_nil_of_le hlength,
      List.drop_eq_nil_of_le (Nat.le_trans hlength h)]

/-- A text is made up of what is in front of two offsets, between them and behind them. -/
theorem upTo_slice_startingAt (s : String) (h : m ≤ n) :
    upTo s m ++ slice s m n ++ startingAt s n = s := by
  have hfront : s.toList.take m = (s.toList.take n).take m := by
    rw [List.take_take, Nat.min_eq_left h]
  apply String.toList_inj.1
  rw [String.toList_append, String.toList_append, toList_upTo, toList_slice, toList_startingAt,
    hfront, List.take_append_drop, List.take_append_drop]

/-- Of three texts that make up a text the second is the part between its ends. -/
theorem slice_of_eq_append {a b c : List Char} (h : s.toList = a ++ (b ++ c)) :
    slice s a.length ((a.length + b.length : Nat) : Int) = String.ofList b := by
  apply String.toList_inj.1
  rw [toList_slice, h, List.take_length_add_append, List.take_left, List.drop_left,
    String.toList_ofList]

/-- A text first occurs at an offset if it stands there, and nowhere ahead of it. -/
theorem firstIndex?_eq_some_iff {needle cs : List Char} {k : Nat} :
    firstIndex? needle cs = some k ↔
      k ≤ cs.length ∧ needle <+: cs.drop k ∧ ∀ j < k, ¬ needle <+: cs.drop j := by
  induction cs generalizing k with
  | nil =>
    cases k with
    | zero => simp [firstIndex?]
    | succ k => simp [firstIndex?]
  | cons c cs ih =>
    by_cases hprefix : needle <+: c :: cs
    · rw [firstIndex?, if_pos (List.isPrefixOf_iff_prefix.2 hprefix), Option.some.injEq]
      constructor
      · rintro rfl
        exact ⟨Nat.zero_le _, hprefix, fun j hj => absurd hj (Nat.not_lt_zero j)⟩
      · rintro ⟨-, -, hfirst⟩
        exact (Nat.eq_zero_of_not_pos fun hk => hfirst 0 hk hprefix).symm
    · rw [firstIndex?, if_neg (mt List.isPrefixOf_iff_prefix.1 hprefix), Option.map_eq_some_iff]
      constructor
      · rintro ⟨i, hi, rfl⟩
        obtain ⟨hle, hthere, hfirst⟩ := ih.1 hi
        refine ⟨Nat.succ_le_succ hle, hthere, fun j hj => ?_⟩
        cases j with
        | zero => exact hprefix
        | succ j => exact hfirst j (Nat.lt_of_succ_lt_succ hj)
      · rintro ⟨hle, hthere, hfirst⟩
        cases k with
        | zero => exact absurd hthere hprefix
        | succ k =>
          refine ⟨k, ih.2 ⟨Nat.le_of_succ_le_succ hle, hthere, fun j hj => ?_⟩, rfl⟩
          exact hfirst (j + 1) (Nat.succ_lt_succ hj)

/-- A text that stands at an offset has a first occurrence. -/
theorem exists_firstIndex? {needle cs : List Char} {k : Nat} (hk : k ≤ cs.length)
    (h : needle <+: cs.drop k) : ∃ i, i ≤ k ∧ firstIndex? needle cs = some i := by
  induction cs generalizing k with
  | nil =>
    have hnil : needle = [] := by simpa using h
    exact ⟨0, Nat.zero_le k, by simp [firstIndex?, hnil]⟩
  | cons c cs ih =>
    by_cases hprefix : needle <+: c :: cs
    · exact ⟨0, Nat.zero_le k, if_pos (List.isPrefixOf_iff_prefix.2 hprefix)⟩
    · cases k with
      | zero => exact absurd h hprefix
      | succ k =>
        obtain ⟨i, hi, hfirst⟩ := ih (Nat.le_of_succ_le_succ hk) h
        refine ⟨i + 1, Nat.succ_le_succ hi, ?_⟩
        rw [firstIndex?, if_neg (mt List.isPrefixOf_iff_prefix.1 hprefix), hfirst, Option.map_some]

end TermCalc.Text
