import Mathlib.Data.List.TakeWhile

/-!
# Both ends of a list

Reading takes up runs: as many blanks, word characters or fragments of a pattern as stand side by
side. The longest run in front of a list is counted, the list is cut behind it, and what is left
does not go on with the run. At the other end only the last element matters, which more elements in
front do not change.
-/

namespace SearchQuery

variable {α : Type} {p : α → Bool}

/-- The longest run in front, counted out. -/
theorem take_length_takeWhile (p : α → Bool) (l : List α) :
    l.take (l.takeWhile p).length = l.takeWhile p := by
  have h := @List.take_left _ (l.takeWhile p) (l.dropWhile p)
  rwa [List.takeWhile_append_dropWhile] at h

/-- What the longest run in front leaves. -/
theorem drop_length_takeWhile (p : α → Bool) (l : List α) :
    l.drop (l.takeWhile p).length = l.dropWhile p := by
  have h := @List.drop_left _ (l.takeWhile p) (l.dropWhile p)
  rwa [List.takeWhile_append_dropWhile] at h

/-- A run ends in front of something of another sort. -/
theorem head?_dropWhile (p : α → Bool) (l : List α) :
    ∀ a ∈ (l.dropWhile p).head?, p a = false := by
  intro a ha
  have := List.head?_dropWhile_not p l
  rw [Option.mem_def.mp ha] at this
  exact this

/-- Elements of one sort are the longest run where one of another sort or nothing follows. -/
theorem takeWhile_append_eq {l rest : List α} (h : ∀ a ∈ l, p a = true)
    (hrest : ∀ a ∈ rest.head?, p a = false) : (l ++ rest).takeWhile p = l := by
  rw [List.takeWhile_append_of_pos h]
  cases rest with
  | nil => simp
  | cons b rest => simp [hrest b (by simp)]

/-- What holds of the last element of a list holds of the last one behind the first. -/
theorem getLast?_of_cons {P : α → Prop} {a : α} {l : List α}
    (h : ∀ b ∈ (a :: l).getLast?, P b) : ∀ b ∈ l.getLast?, P b := by
  intro b hb
  refine h b ?_
  rw [List.getLast?_cons, Option.mem_def.mp hb]
  rfl

end SearchQuery
