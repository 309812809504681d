import Mathlib.Data.List.Chain
import Mathlib.Data.List.Infix
import Mathlib.Data.List.Nodup
import Mathlib.Tactic.Common

/-! # Neighbours in a list

Two elements of a list are neighbours when one comes directly after the other.
The neighbours of a concatenation are those of its pieces and those that meet at
a seam.
-/

/-- `y` comes directly after `x` in `l`. -/
def Follows {α : Type*} (l : List α) (x y : α) : Prop := [x, y] <:+: l

namespace Follows

variable {α β : Type*} {l m : List α} {x y z : α}

theorem mem_left (h : Follows l x y) : x ∈ l := h.subset (by simp)

theorem mem_right (h : Follows l x y) : y ∈ l := h.subset (by simp)

theorem mem_tail (h : Follows l x y) : y ∈ l.tail := by
  obtain ⟨s, t, rfl⟩ := h
  cases s <;> simp

@[simp] theorem not_nil : ¬ Follows [] x y := fun h => by simpa using h.mem_left

theorem cons_iff :
    Follows (z :: l) x y ↔ (x = z ∧ l.head? = some y) ∨ Follows l x y := by
  rw [Follows, List.infix_cons_iff, List.cons_prefix_cons]
  cases l with
  | nil => simp [Follows]
  | cons a l =>
    simp only [List.cons_prefix_cons, List.nil_prefix, and_true, List.head?_cons,
      Option.some.injEq, Follows, eq_comm (a := y)]

theorem append_iff :
    Follows (l ++ m) x y ↔
      Follows l x y ∨ Follows m x y ∨ (l.getLast? = some x ∧ m.head? = some y) := by
  induction l with
  | nil => simp
  | cons a l ih =>
    rw [List.cons_append, cons_iff, ih, cons_iff]
    cases l with
    | nil => simp [eq_comm (a := a), or_comm]
    | cons b l => simp only [List.cons_append, List.head?_cons, List.getLast?_cons_cons, or_assoc]

theorem exists_of_ne_getLast (hx : x ∈ l) (hne : l.getLast? ≠ some x) : ∃ y, Follows l x y := by
  obtain ⟨s, t, rfl⟩ := List.append_of_mem hx
  cases t with
  | nil => simp at hne
  | cons y t => exact ⟨y, s, t, by simp⟩

theorem exists_of_mem_dropLast (hx : x ∈ l.dropLast) : ∃ y, Follows l x y := by
  obtain ⟨s, t, hst⟩ := List.append_of_mem hx
  have hne : l ≠ [] := fun hl => by simp [hl] at hx
  rw [← List.dropLast_append_getLast hne, hst]
  cases t with
  | nil => exact ⟨l.getLast hne, s, [], by simp⟩
  | cons y t => exact ⟨y, s, t ++ [l.getLast hne], by simp⟩

theorem getElem? {i : ℕ} (hi : l[i]? = some x) (hj : l[i + 1]? = some y) : Follows l x y := by
  induction l generalizing i with
  | nil => simp at hi
  | cons a l ih =>
    cases i with
    | zero =>
      refine cons_iff.mpr (Or.inl ⟨(Option.some.inj hi).symm, ?_⟩)
      rw [← hj, List.head?_eq_getElem?]
      rfl
    | succ i => exact cons_iff.mpr (Or.inr (ih hi hj))

theorem exists_getElem? (h : Follows l x y) : ∃ i, l[i]? = some x ∧ l[i + 1]? = some y := by
  obtain ⟨s, t, rfl⟩ := h
  exact ⟨s.length, by simp, by simp⟩

theorem right_unique (hl : l.Nodup) (hy : Follows l x y) (hz : Follows l x z) : y = z := by
  obtain ⟨i, hi, hy⟩ := hy.exists_getElem?
  obtain ⟨j, hj, hz⟩ := hz.exists_getElem?
  have hij : i = j := (List.getElem?_inj (by grind) hl).mp (hi.trans hj.symm)
  subst hij
  exact Option.some.inj (hy.symm.trans hz)

theorem getLast?_ne (hl : l.Nodup) (h : Follows l x y) : l.getLast? ≠ some x := by
  intro hlast
  obtain ⟨init, rfl⟩ := List.getLast?_eq_some_iff.mp hlast
  obtain ⟨i, hx, hy⟩ := h.exists_getElem?
  have hi := (List.getElem?_eq_some_iff.mp hy).1
  have hsame : i = init.length := (List.getElem?_inj (by omega) hl).mp (by simp [hx])
  rw [List.length_append, List.length_singleton] at hi
  omega

theorem map (f : α → β) (h : Follows l x y) : Follows (l.map f) (f x) (f y) := List.IsInfix.map f h

end Follows

theorem isChain_iff_follows {α : Type*} {r : α → α → Prop} {l : List α} :
    List.IsChain r l ↔ ∀ a b, Follows l a b → r a b := by
  constructor
  · rintro h a b ⟨s, t, rfl⟩
    have htail := (List.isChain_append.mp (List.append_assoc s _ t ▸ h)).2.1
    exact (List.isChain_cons_cons.mp htail).1
  · intro h
    induction l with
    | nil => exact List.IsChain.nil
    | cons a l ih =>
      cases l with
      | nil => exact List.IsChain.singleton a
      | cons b l =>
        apply List.isChain_cons_cons.mpr
        exact ⟨h a b (Follows.cons_iff.mpr (Or.inl ⟨rfl, rfl⟩)),
          ih fun x y hxy => h x y (Follows.cons_iff.mpr (Or.inr hxy))⟩

section Pieces

variable {α β : Type*} {bs : List β} {f : β → List α} {x y : α}

theorem head?_flatMap_of_ne_nil {b : β} (h : f b ≠ []) :
    ((b :: bs).flatMap f).head? = (f b).head? := by
  rw [List.flatMap_cons, List.head?_append_of_ne_nil _ h]

/-- The neighbours in a concatenation of nonempty pieces. -/
theorem follows_flatMap_iff (hne : ∀ b ∈ bs, f b ≠ []) :
    Follows (bs.flatMap f) x y ↔ (∃ b ∈ bs, Follows (f b) x y) ∨
      ∃ b c, Follows bs b c ∧ (f b).getLast? = some x ∧ (f c).head? = some y := by
  induction bs with
  | nil => simp
  | cons b bs ih =>
    have ih := ih fun c hc => hne c (List.mem_cons_of_mem _ hc)
    rw [List.flatMap_cons, Follows.append_iff, ih, List.exists_mem_cons_iff]
    have hseam : (∃ b' c, Follows (b :: bs) b' c ∧ (f b').getLast? = some x ∧
        (f c).head? = some y) ↔
        ((f b).getLast? = some x ∧ (bs.flatMap f).head? = some y) ∨
          ∃ b' c, Follows bs b' c ∧ (f b').getLast? = some x ∧ (f c).head? = some y := by
      constructor
      · rintro ⟨b', c, h, hx, hy⟩
        rcases Follows.cons_iff.mp h with ⟨rfl, hc⟩ | h
        · refine Or.inl ⟨hx, ?_⟩
          cases bs with
          | nil => simp at hc
          | cons d bs =>
            obtain rfl : d = c := by simpa using hc
            rw [head?_flatMap_of_ne_nil (hne d (by simp)), hy]
        · exact Or.inr ⟨b', c, h, hx, hy⟩
      · rintro (⟨hx, hy⟩ | ⟨b', c, h, hx, hy⟩)
        · cases bs with
          | nil => simp at hy
          | cons d bs =>
            rw [head?_flatMap_of_ne_nil (hne d (by simp))] at hy
            exact ⟨b, d, Follows.cons_iff.mpr (Or.inl ⟨rfl, rfl⟩), hx, hy⟩
        · exact ⟨b', c, Follows.cons_iff.mpr (Or.inr h), hx, hy⟩
    rw [hseam, or_comm (a := ((f b).getLast? = some x ∧ _)), or_assoc, or_assoc]

end Pieces
