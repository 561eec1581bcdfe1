import Mathlib.Data.List.TakeWhile

/-!
# The first part of a list

A list is cut where a predicate fails first: `takeWhile` and `dropWhile` give back the two parts of a
list that was put together from a part in which the predicate holds and one that it does not begin.
The case of a list that is cut at a symbol has its own lemmas.
-/

namespace Spans

variable {α : Type*} {p : α → Bool} {x y : List α}

theorem takeWhile_of_head (hx : ∀ a ∈ x, p a = true) (hy : ∀ a ∈ y.head?, p a = false) :
    (x ++ y).takeWhile p = x := by
  rw [List.takeWhile_append_of_pos hx]
  cases y with
  | nil => simp
  | cons a y => simp [hy a rfl]

theorem dropWhile_of_head (hx : ∀ a ∈ x, p a = true) (hy : ∀ a ∈ y.head?, p a = false) :
    (x ++ y).dropWhile p = y := by
  rw [List.dropWhile_append_of_pos hx]
  cases y with
  | nil => rfl
  | cons a y => simp [hy a rfl]

theorem head_dropWhile : ∀ a ∈ (x.dropWhile p).head?, p a = false := by
  intro a ha
  have hhead := List.head?_dropWhile_not p x
  rw [Option.mem_def.mp ha] at hhead
  simpa using hhead

/-! ## Up to a symbol -/

variable [BEq α] [LawfulBEq α] {a : α}

/-- A symbol that is not in a list differs from all that are. -/
theorem bne_of_not_mem (ha : a ∉ x) : ∀ b ∈ x, (b != a) = true := by
  intro b hb
  simpa using ne_of_mem_of_not_mem hb ha

theorem takeWhile_bne (ha : a ∉ x) (y : List α) : (x ++ a :: y).takeWhile (· != a) = x :=
  takeWhile_of_head (bne_of_not_mem ha) (by simp)

theorem dropWhile_bne (ha : a ∉ x) (y : List α) : (x ++ a :: y).dropWhile (· != a) = a :: y :=
  dropWhile_of_head (bne_of_not_mem ha) (by simp)

theorem dropWhile_bne_eq_nil (ha : a ∉ x) : x.dropWhile (· != a) = [] :=
  List.dropWhile_eq_nil_iff.mpr (bne_of_not_mem ha)

end Spans
