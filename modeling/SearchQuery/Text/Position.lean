/-!
# Positions in a text

A position in a query is a number of bytes of its UTF-8 encoding, while the text itself is handled
as a list of characters. `width` measures a stretch of characters, and `suffixAt?` turns a position
into what is left of the text from there on. A number that is no position of the text (it lies past
the end, or inside a character) has no suffix: `suffixAt?_eq_some_iff` says so exactly.
-/

namespace SearchQuery.Text

/-- The number of bytes that some characters take up. -/
def width : List Char → Nat
  | [] => 0
  | c :: cs => c.utf8Size + width cs

@[simp] theorem width_nil : width [] = 0 := rfl

@[simp] theorem width_cons (c : Char) (cs : List Char) :
    width (c :: cs) = c.utf8Size + width cs := rfl

@[simp] theorem width_append (cs ds : List Char) : width (cs ++ ds) = width cs + width ds := by
  induction cs with
  | nil => simp
  | cons c cs ih => simp [ih, Nat.add_assoc]

/-- Only the empty text takes up no bytes. -/
theorem width_eq_zero_iff {cs : List Char} : width cs = 0 ↔ cs = [] := by
  cases cs with
  | nil => simp
  | cons c cs =>
    have := c.utf8Size_pos
    simp only [width_cons, reduceCtorEq, iff_false]
    omega

/-- What is left of a text from a position on; `none` where the number is no position of it. -/
def suffixAt? : Nat → List Char → Option (List Char)
  | 0, cs => some cs
  | _ + 1, [] => none
  | n + 1, c :: cs => if c.utf8Size ≤ n + 1 then suffixAt? (n + 1 - c.utf8Size) cs else none

@[simp] theorem suffixAt?_zero (cs : List Char) : suffixAt? 0 cs = some cs := by
  cases cs <;> rfl

/-- The position after a beginning of the text has what follows that beginning as its suffix. -/
@[simp] theorem suffixAt?_width (cs ds : List Char) :
    suffixAt? (width cs) (cs ++ ds) = some ds := by
  induction cs with
  | nil => simp
  | cons c cs ih =>
    obtain ⟨n, hn⟩ : ∃ n, width (c :: cs) = n + 1 :=
      Nat.exists_eq_add_one_of_ne_zero (by simp [width_eq_zero_iff, -width_cons])
    rw [hn, List.cons_append, suffixAt?, if_pos (by simp only [width_cons] at hn; omega)]
    rw [show n + 1 - c.utf8Size = width cs by simp only [width_cons] at hn; omega, ih]

/-- The positions of a text are the widths of its beginnings. -/
theorem suffixAt?_eq_some_iff {n : Nat} {cs rest : List Char} :
    suffixAt? n cs = some rest ↔ ∃ before, cs = before ++ rest ∧ width before = n := by
  constructor
  · intro h
    fun_induction suffixAt? n cs with
    | case1 cs => exact ⟨[], by simpa using h, rfl⟩
    | case2 => simp at h
    | case3 n c cs hle ih =>
      obtain ⟨before, rfl, hw⟩ := ih h
      exact ⟨c :: before, rfl, by simp only [width_cons]; omega⟩
    | case4 => simp at h
  · rintro ⟨before, rfl, rfl⟩
    exact suffixAt?_width before rest

end SearchQuery.Text
