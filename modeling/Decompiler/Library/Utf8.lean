import Mathlib.Data.String.Basic

/-! # Strings sliced at byte offsets

A string is the list of its characters. A slice between two byte offsets exists when both
fall between characters.
-/

namespace Utf8

open String (utf8Len)

def splitAt : ℕ → List Char → Option (List Char × List Char)
  | 0, s => some ([], s)
  | _ + 1, [] => none
  | n + 1, c :: s =>
    if c.utf8Size ≤ n + 1 then
      (splitAt (n + 1 - c.utf8Size) s).map fun parts => (c :: parts.1, parts.2)
    else none

/-- The characters between two byte offsets. -/
def slice (s : List Char) (i j : ℕ) : Option (List Char) :=
  (splitAt i s).bind fun parts => (splitAt (j - i) parts.2).map Prod.fst

/-- A byte offset that falls between two characters, or at an end of the string. -/
def IsBoundary (s : List Char) (n : ℕ) : Prop :=
  ∃ before after, s = before ++ after ∧ utf8Len before = n

@[simp] theorem splitAt_zero (s : List Char) : splitAt 0 s = some ([], s) := by
  cases s <;> rfl

theorem splitAt_append (before after : List Char) :
    splitAt (utf8Len before) (before ++ after) = some (before, after) := by
  induction before with
  | nil => exact splitAt_zero after
  | cons c before ih =>
    have hpos := c.utf8Size_pos
    obtain ⟨n, hn⟩ : ∃ n, utf8Len (c :: before) = n + 1 := ⟨utf8Len (c :: before) - 1, by
      rw [String.utf8Len_cons]
      omega⟩
    have hrest : n + 1 - c.utf8Size = utf8Len before := by
      rw [← hn, String.utf8Len_cons, Nat.add_sub_cancel]
    have hle : c.utf8Size ≤ n + 1 := by
      rw [← hn, String.utf8Len_cons]
      exact Nat.le_add_left ..
    rw [hn, List.cons_append, splitAt, if_pos hle, hrest, ih]
    rfl

theorem splitAt_eq_some {n : ℕ} {s before after : List Char}
    (h : splitAt n s = some (before, after)) : s = before ++ after ∧ utf8Len before = n := by
  induction n, s using splitAt.induct generalizing before with
  | case1 s =>
    rw [splitAt_zero, Option.some.injEq, Prod.mk.injEq] at h
    obtain ⟨rfl, rfl⟩ := h
    exact ⟨rfl, rfl⟩
  | case2 n => cases h
  | case3 n c s hle ih =>
    rw [splitAt, if_pos hle, Option.map_eq_some_iff] at h
    obtain ⟨⟨before', after'⟩, hsplit, heq⟩ := h
    obtain ⟨rfl, rfl⟩ := Prod.mk.inj heq
    obtain ⟨rfl, hlen⟩ := ih hsplit
    refine ⟨rfl, ?_⟩
    rw [String.utf8Len_cons, hlen]
    omega
  | case4 n c s hlt =>
    rw [splitAt, if_neg hlt] at h
    cases h

theorem isBoundary_iff {s : List Char} {n : ℕ} :
    IsBoundary s n ↔ ∃ parts, splitAt n s = some parts := by
  constructor
  · rintro ⟨before, after, rfl, rfl⟩
    exact ⟨_, splitAt_append before after⟩
  · rintro ⟨⟨before, after⟩, h⟩
    exact ⟨before, after, splitAt_eq_some h⟩

theorem slice_append (front s : List Char) (k : ℕ) :
    slice (front ++ s) (utf8Len front) (utf8Len front + k) = (splitAt k s).map Prod.fst := by
  rw [slice, splitAt_append, Option.bind_some, Nat.add_sub_cancel_left]

end Utf8
