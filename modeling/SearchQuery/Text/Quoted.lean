import SearchQuery.Text.Position
import SearchQuery.Text.Hex

/-!
# Quoted strings

A quoted string runs from a quotation mark to the next one that no escape has used up. Everything
is allowed in it, line ends included. An escape is a backslash with

* a letter that names a control character, or the space;
* `u` and four hexadecimal digits, or `u` and a number in braces;
* any other character, which then stands for itself.

A text may end before the closing mark, also inside an escape. That is no error: the string is
then not closed, and its value is what was read so far. `QuotedBody.used_le` says that reading
stays inside the text.
-/

namespace SearchQuery.Text

/-- The character that a one-letter escape names; all others name themselves. -/
def namedEscape : Char → Char
  | '0' => '\x00'
  | 'b' => '\x08'
  | 'f' => '\x0c'
  | 'n' => '\n'
  | 'r' => '\r'
  | 's' => ' '
  | 't' => '\t'
  | 'v' => '\x0b'
  | c => c

/-- The escape that follows a backslash: the character it stands for and how many characters it
takes up. There is `none` where the text ends inside it. A number in braces reaches to the next
closing brace, whatever stands before that; a `u` without a number stands for itself. -/
def escape? : List Char → Option (Char × Nat)
  | [] => none
  | 'u' :: '{' :: cs =>
    let hex := cs.takeWhile (· != '}')
    if hex.length < cs.length then some (scalarOfHex hex, hex.length + 3) else none
  | 'u' :: cs =>
    let hex := cs.take 4
    if hex.length = 4 ∧ hex.all isHexDigit then some (scalarOfHex hex, 5) else some ('u', 1)
  | c :: _ => some (namedEscape c, 1)

/-- What stands behind an opening quotation mark: the value of the string, the number of characters
it takes up with its closing mark, and whether it has one. -/
structure QuotedBody where
  value : List Char
  used : Nat
  closed : Bool
deriving DecidableEq, Repr

namespace QuotedBody

/-- A body with one more character in front, which took up `n` characters of the text. -/
def prepend (c : Char) (n : Nat) (body : QuotedBody) : QuotedBody :=
  ⟨c :: body.value, n + body.used, body.closed⟩

/-- Reads the text behind an opening quotation mark. -/
def read : List Char → QuotedBody
  | [] => ⟨[], 0, false⟩
  | '"' :: _ => ⟨[], 1, true⟩
  | '\\' :: cs =>
    match escape? cs with
    | none => ⟨[], cs.length + 1, false⟩
    | some (c, n) => (read (cs.drop n)).prepend c (n + 1)
  | c :: cs => (read cs).prepend c 1
termination_by cs => cs.length
decreasing_by all_goals simp only [List.length_drop, List.length_cons]; omega

end QuotedBody

/-- A quoted string and where it lies in its text, its quotation marks included. -/
structure QuotedRun where
  start : Nat
  stop : Nat
  value : String
  closed : Bool
deriving DecidableEq, Repr

/-- The quoted string of `text` that opens at `start`; `none` where no quotation mark stands at
that position. -/
def quotedRun? (text : String) (start : Nat) : Option QuotedRun :=
  match suffixAt? start text.toList with
  | some ('"' :: cs) =>
    let body := QuotedBody.read cs
    some ⟨start, start + 1 + width (cs.take body.used), String.ofList body.value, body.closed⟩
  | _ => none

/-! ## Reading stays inside the text -/

/-- An escape takes up at least one character and no more than there are. -/
theorem escape?_used {cs : List Char} {c : Char} {n : Nat} (h : escape? cs = some (c, n)) :
    1 ≤ n ∧ n ≤ cs.length := by
  unfold escape? at h
  split at h
  · simp at h
  · simp only [Option.ite_none_right_eq_some, Option.some.injEq, Prod.mk.injEq] at h
    obtain ⟨hlt, -, rfl⟩ := h
    simp only [List.length_cons]
    omega
  · rename_i cs _
    dsimp only at h
    split at h
    · rename_i hlen
      simp only [Option.some.injEq, Prod.mk.injEq] at h
      have := hlen.1
      simp only [List.length_take] at this
      simp only [List.length_cons]
      omega
    · simp only [Option.some.injEq, Prod.mk.injEq] at h
      simp only [List.length_cons]
      omega
  · simp only [Option.some.injEq, Prod.mk.injEq] at h
    simp only [List.length_cons]
    omega

/-- A body takes up no more characters than there are. -/
theorem QuotedBody.used_le (cs : List Char) : (read cs).used ≤ cs.length := by
  fun_induction read cs with
  | case1 => simp
  | case2 => simp
  | case3 cs h => simp
  | case4 cs c n h ih =>
    have := escape?_used h
    simp only [prepend, List.length_cons, List.length_drop] at *
    omega
  | case5 c cs h₁ h₂ ih =>
    simp only [prepend, List.length_cons]
    omega

/-- A body that is not closed takes up the whole text. -/
theorem QuotedBody.used_eq_of_not_closed {cs : List Char} (h : (read cs).closed = false) :
    (read cs).used = cs.length := by
  fun_induction read cs with
  | case1 => simp
  | case2 => simp at h
  | case3 cs h => simp
  | case4 cs c n he ih =>
    have := escape?_used he
    have := ih h
    simp only [prepend, List.length_cons, List.length_drop] at *
    omega
  | case5 c cs h₁ h₂ ih =>
    have := ih h
    simp only [prepend, List.length_cons]
    omega

end SearchQuery.Text
