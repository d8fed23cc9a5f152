import SearchQuery.Text.Position

/-!
# Stretches of a text

What lies between two positions of a text is a stretch of it. `Stretch` is stated through
`suffixAt?`, so that a stretch and what follows it are found by one look-up: the suffix at the first
position is the stretch with the suffix at the second one behind it (`suffixAt?_add`). Every byte of
a stretch belongs to one of its characters (`Stretch.mem_of_charAt?`).
-/

namespace SearchQuery.Text

/-- Is `n` a position of the text `cs`? It is none inside a character or past the end. -/
def IsPosition (cs : List Char) (n : Nat) : Prop := ∃ rest, suffixAt? n cs = some rest

/-- The stretch of the text `cs` from position `a` to position `b` consists of `part`. -/
def Stretch (cs : List Char) (a b : Nat) (part : List Char) : Prop :=
  ∃ rest, suffixAt? a cs = some (part ++ rest) ∧ b = a + width part

/-- Behind a stretch stands what followed it. -/
theorem suffixAt?_add {a : Nat} {cs part rest : List Char}
    (h : suffixAt? a cs = some (part ++ rest)) : suffixAt? (a + width part) cs = some rest := by
  obtain ⟨before, rfl, rfl⟩ := suffixAt?_eq_some_iff.mp h
  rw [← width_append, ← List.append_assoc]
  exact suffixAt?_width _ _

/-- Behind a character stands what followed it. -/
theorem suffixAt?_cons {a : Nat} {c : Char} {cs rest : List Char}
    (h : suffixAt? a cs = some (c :: rest)) : suffixAt? (a + c.utf8Size) cs = some rest :=
  suffixAt?_add (show suffixAt? a cs = some ([c] ++ rest) from h)

/-- A position and what is left of the text from there on make up the whole text. -/
theorem width_of_suffixAt? {n : Nat} {cs rest : List Char} (h : suffixAt? n cs = some rest) :
    n + width rest = width cs := by
  obtain ⟨before, rfl, rfl⟩ := suffixAt?_eq_some_iff.mp h
  exact (width_append _ _).symm

/-- Positions do not lie past the end of the text. -/
theorem IsPosition.le {n : Nat} {cs : List Char} (h : IsPosition cs n) : n ≤ width cs := by
  obtain ⟨rest, hrest⟩ := h
  have := width_of_suffixAt? hrest
  omega

/-- Both ends of a stretch are positions, in this order. -/
theorem Stretch.bounds {cs part : List Char} {a b : Nat} (h : Stretch cs a b part) :
    IsPosition cs a ∧ IsPosition cs b ∧ a ≤ b := by
  obtain ⟨rest, hrest, rfl⟩ := h
  exact ⟨⟨_, hrest⟩, ⟨_, suffixAt?_add hrest⟩, by omega⟩

/-- Two stretches side by side are one. -/
theorem Stretch.append {cs xs ys : List Char} {a b c : Nat} (hx : Stretch cs a b xs)
    (hy : Stretch cs b c ys) : Stretch cs a c (xs ++ ys) := by
  obtain ⟨rest, hrest, rfl⟩ := hx
  obtain ⟨rest', hrest', rfl⟩ := hy
  rw [suffixAt?_add hrest] at hrest'
  cases hrest'
  exact ⟨rest', by rw [hrest, List.append_assoc], by rw [width_append]; omega⟩

/-- Nothing stands between a position and itself. -/
theorem Stretch.nil {cs : List Char} {a : Nat} (h : IsPosition cs a) : Stretch cs a a [] := by
  obtain ⟨rest, hrest⟩ := h
  exact ⟨rest, hrest, rfl⟩

/-- Of two beginnings of a text the longer one starts with the shorter one. -/
theorem exists_of_append_eq {front rest front' rest' : List Char}
    (h : front ++ rest = front' ++ rest') (hle : width front ≤ width front') :
    ∃ between, front' = front ++ between ∧ rest = between ++ rest' := by
  rcases List.append_eq_append_iff.mp h with ⟨between, hfront, hrest⟩ | ⟨between, hfront, hrest⟩
  · exact ⟨between, hfront, hrest⟩
  · have hnil : between = [] := by
      rw [hfront, width_append] at hle
      exact width_eq_zero_iff.mp (by omega)
    rw [hnil, List.append_nil] at hfront
    rw [hnil, List.nil_append] at hrest
    exact ⟨[], by rw [hfront, List.append_nil], by rw [hrest, List.nil_append]⟩

/-- Beginnings of a text that are equally long are the same, and so is what follows them. -/
theorem append_inj_of_width_eq {front rest front' rest' : List Char}
    (h : front ++ rest = front' ++ rest') (hwidth : width front = width front') :
    front = front' ∧ rest = rest' := by
  obtain ⟨between, rfl, rfl⟩ := exists_of_append_eq h (Nat.le_of_eq hwidth)
  have hnil : between = [] := by
    rw [width_append] at hwidth
    exact width_eq_zero_iff.mp (by omega)
  rw [hnil]
  exact ⟨(List.append_nil _).symm, rfl⟩

/-! ## Bytes -/

/-- The character that the byte at position `i` of a text belongs to. -/
def charAt? : Nat → List Char → Option Char
  | _, [] => none
  | i, c :: cs => if i < c.utf8Size then some c else charAt? (i - c.utf8Size) cs

/-- Bytes belong to characters of the text, and do not lie past its end. -/
theorem of_charAt?_eq_some {i : Nat} {cs : List Char} {c : Char} (h : charAt? i cs = some c) :
    c ∈ cs ∧ i < width cs := by
  fun_induction charAt? i cs with
  | case1 => cases h
  | case2 i d cs hlt =>
    cases h
    exact ⟨.head _, by rw [width_cons]; omega⟩
  | case3 i d cs hlt ih =>
    obtain ⟨hmem, hle⟩ := ih h
    exact ⟨.tail _ hmem, by rw [width_cons]; omega⟩

/-- A byte behind the beginning of a text is a byte of what follows. -/
theorem charAt?_append_right {i : Nat} {front rest : List Char} (h : width front ≤ i) :
    charAt? i (front ++ rest) = charAt? (i - width front) rest := by
  induction front generalizing i with
  | nil => rfl
  | cons c front ih =>
    rw [width_cons] at h ⊢
    rw [List.cons_append, charAt?, if_neg (by omega), ih (by omega), Nat.sub_sub]

/-- A byte within the beginning of a text does not depend on what follows. -/
theorem charAt?_append_left {i : Nat} {front rest : List Char} (h : i < width front) :
    charAt? i (front ++ rest) = charAt? i front := by
  induction front generalizing i with
  | nil => cases h
  | cons c front ih =>
    rw [width_cons] at h
    rw [List.cons_append, charAt?, charAt?]
    split
    · rfl
    · exact ih (by omega)

/-- The bytes of a stretch belong to its characters. -/
theorem Stretch.mem_of_charAt? {cs part : List Char} {a b i : Nat} {c : Char}
    (h : Stretch cs a b part) (ha : a ≤ i) (hb : i < b) (hc : charAt? i cs = some c) :
    c ∈ part := by
  obtain ⟨rest, hrest, rfl⟩ := h
  obtain ⟨before, rfl, rfl⟩ := suffixAt?_eq_some_iff.mp hrest
  rw [charAt?_append_right ha, charAt?_append_left (by omega)] at hc
  exact (of_charAt?_eq_some hc).1

end SearchQuery.Text
