import Mathlib.Data.Nat.Digits.Lemmas
import SearchQuery.Proofs.Text.Quoted

/-!
# What escapes stand for

Every character can be written in a quoted string in several ways (`EncodedAs`), and whichever way
is chosen for each of them, and whatever stands around the string, the string is read as what was
meant (`quotedRun?_encoded`). The other way round, whatever stands between braces stands for one
character (`quotedRun?_braces`): for the one of that number, if it is a number and belongs to a
character, and else for the replacement character. Both rest on what it means that digits write a
number (`Writes`), which is said through the value of each digit and not through the reader of
digits.
-/

namespace SearchQuery.Text

/-! ## Numbers in hexadecimal digits -/

/-- The hexadecimal digits of both cases, each with its value. -/
def digitValues : List (Char × Nat) :=
  "0123456789abcdef".toList.zipIdx ++ "ABCDEF".toList.zipIdx 10

/-- The digits write the number `n`, the first one being the most significant. There is at least
one, and there may be zeros in front. -/
def Writes (digits : List Char) (n : Nat) : Prop :=
  digits ≠ [] ∧ ∃ values, List.Forall₂ (fun d v => (d, v) ∈ digitValues) digits values ∧
    n = Nat.ofDigits 16 values.reverse

/-- Hexadecimal digits are among the first characters. -/
theorem toNat_lt_of_hexDigit? {d : Char} {v : Nat} (h : hexDigit? d = some v) : d.toNat < 128 := by
  have hle {c : Char} (hc : d ≤ c) : d.toNat ≤ c.toNat := hc
  unfold hexDigit? at h
  split at h
  · next hd => exact (hle hd.2).trans_lt (by decide)
  split at h
  · next hd => exact (hle hd.2).trans_lt (by decide)
  split at h
  · next hd => exact (hle hd.2).trans_lt (by decide)
  · cases h

/-- A digit is read as its value. -/
theorem hexDigit?_eq_some_iff {d : Char} {v : Nat} :
    hexDigit? d = some v ↔ (d, v) ∈ digitValues := by
  constructor
  · intro h
    have hall : ∀ n < 128, ∀ v ∈ hexDigit? (Char.ofNat n), (Char.ofNat n, v) ∈ digitValues := by
      decide
    have hmem := hall d.toNat (toNat_lt_of_hexDigit? h) v
    rw [Char.ofNat_toNat] at hmem
    exact hmem h
  · have hall : ∀ p ∈ digitValues, hexDigit? p.1 = some p.2 := by decide
    exact hall (d, v)

/-- Digits behind a number are read as more digits of it. -/
theorem foldlM_hexDigit?_eq_some_iff {digits : List Char} {a n : Nat} :
    digits.foldlM (fun n c => (hexDigit? c).map (16 * n + ·)) a = some n ↔
      ∃ values, List.Forall₂ (fun d v => (d, v) ∈ digitValues) digits values ∧
        n = Nat.ofDigits 16 values.reverse + 16 ^ values.length * a := by
  induction digits generalizing a with
  | nil => simp [eq_comm]
  | cons d digits ih =>
    have hvalue (v : Nat) (values : List Nat) :
        Nat.ofDigits 16 (v :: values).reverse + 16 ^ (v :: values).length * a =
          Nat.ofDigits 16 values.reverse + 16 ^ values.length * (16 * a + v) := by
      rw [List.reverse_cons, Nat.ofDigits_append, Nat.ofDigits_singleton, List.length_reverse,
        List.length_cons, Nat.pow_succ]
      ring
    simp only [List.foldlM_cons, List.forall₂_cons_left_iff, Option.bind_eq_bind,
      Option.bind_eq_some_iff, Option.map_eq_some_iff, hexDigit?_eq_some_iff, ih]
    constructor
    · rintro ⟨-, ⟨v, hv, rfl⟩, values, hvalues, rfl⟩
      exact ⟨v :: values, ⟨v, values, hv, hvalues, rfl⟩, (hvalue v values).symm⟩
    · rintro ⟨-, ⟨v, values, hv, hvalues, rfl⟩, rfl⟩
      exact ⟨_, ⟨v, hv, rfl⟩, values, hvalues, hvalue v values⟩

/-- Digits are read as the number that they write. -/
theorem hexValue?_eq_some_iff {digits : List Char} {n : Nat} :
    hexValue? digits = some n ↔ Writes digits n := by
  unfold hexValue? Writes
  cases digits with
  | nil => simp
  | cons d digits =>
    rw [List.isEmpty_cons, if_neg Bool.false_ne_true, foldlM_hexDigit?_eq_some_iff]
    simp

/-- Digits that write a number are hexadecimal. -/
theorem isHexDigit_of_writes {digits : List Char} {n : Nat} (h : Writes digits n) :
    ∀ d ∈ digits, isHexDigit d = true := by
  obtain ⟨-, values, hvalues, -⟩ := h
  have hdigit (d : Char) (v : Nat) (hd : (d, v) ∈ digitValues) :
      isHexDigit d = true ∧ (d, v) ∈ digitValues :=
    ⟨Option.isSome_iff_exists.mpr ⟨v, hexDigit?_eq_some_iff.mpr hd⟩, hd⟩
  exact ((List.forall₂_and_left digits values).mp (hvalues.imp hdigit)).1

/-- No other character is among digits that write a number. -/
theorem notMem_of_writes {digits : List Char} {n : Nat} {c : Char} (h : Writes digits n)
    (hc : isHexDigit c = false) : c ∉ digits := by
  intro hmem
  rw [isHexDigit_of_writes h c hmem] at hc
  cases hc

/-! ## Characters by number -/

/-- Is `n` the number of a character? Surrogates are no characters. -/
def IsScalar (n : Nat) : Prop := n ≤ 0x10ffff ∧ ¬ (0xd800 ≤ n ∧ n ≤ 0xdfff)

/-- The text is the numeral of `n`: digits, with or without a plus sign in front. -/
def IsNumeral (text : List Char) (n : Nat) : Prop :=
  Writes text n ∨ ∃ digits, text = '+' :: digits ∧ Writes digits n

theorem isScalar_iff {n : Nat} : IsScalar n ↔ n.isValidChar := by
  unfold IsScalar Nat.isValidChar
  omega

/-- The character of a number has that number. -/
theorem toNat_scalar {n : Nat} (h : IsScalar n) : (scalar n).toNat = n := by
  rw [isScalar_iff] at h
  rw [scalar, if_pos h, Char.ofNat, dif_pos h]
  rfl

/-- The character with the number of a character is that one. -/
theorem scalar_toNat (c : Char) : scalar c.toNat = c := by
  have hvalid : c.toNat.isValidChar := c.valid
  rw [scalar, if_pos hvalid, Char.ofNat_toNat]

/-- A numeral is read as the character of its number. -/
theorem scalarOfHex_of_isNumeral {text : List Char} {n : Nat} (h : IsNumeral text n) :
    scalarOfHex text = scalar n := by
  rcases h with h | ⟨digits, rfl, h⟩
  · have hplus : ∀ digits, text ≠ '+' :: digits := by
      rintro digits rfl
      exact notMem_of_writes h rfl (.head _)
    rw [scalarOfHex, hexValue?_eq_some_iff.mpr h]
    · rfl
    · exact hplus
  · rw [scalarOfHex, hexValue?_eq_some_iff.mpr h]
    rfl

/-- What is no numeral is read as the replacement character. -/
theorem scalarOfHex_of_not_isNumeral {text : List Char} (h : ∀ n, ¬ IsNumeral text n) :
    scalarOfHex text = replacement := by
  have hnone {digits : List Char} (hdigits : ∀ n, ¬ Writes digits n) : hexValue? digits = none :=
    Option.eq_none_iff_forall_ne_some.mpr fun n hn => hdigits n (hexValue?_eq_some_iff.mp hn)
  unfold scalarOfHex
  split
  · next digits =>
    dsimp only
    rw [hnone fun n hn => h n (.inr ⟨digits, rfl, hn⟩)]
    rfl
  · dsimp only
    rw [hnone fun n hn => h n (.inl hn)]
    rfl

/-! ## Characters and strings as they may be written -/

/-- The letters that name a character behind a backslash, each with that character. -/
def namedEscapes : List (Char × Char) :=
  [('0', '\x00'), ('b', '\x08'), ('f', '\x0c'), ('n', '\n'), ('r', '\r'), ('s', ' '), ('t', '\t'),
    ('v', '\x0b')]

/-- The ways to write the character `c` in a quoted string. -/
inductive EncodedAs (c : Char) : List Char → Prop
  | plain : c ≠ '"' → c ≠ '\\' → EncodedAs c [c]
  | named {letter : Char} : (letter, c) ∈ namedEscapes → EncodedAs c ['\\', letter]
  | itself : c ∉ "0bfnrstuv".toList → EncodedAs c ['\\', c]
  | digits {ds : List Char} : ds.length = 4 → Writes ds c.toNat → EncodedAs c ('\\' :: 'u' :: ds)
  | braces {ds : List Char} : Writes ds c.toNat →
      EncodedAs c ('\\' :: 'u' :: '{' :: (ds ++ ['}']))

/-- A character that names no other one stands for itself behind a backslash. -/
theorem namedEscape_of_notMem {c : Char} (h : c ∉ "0bfnrstuv".toList) : namedEscape c = c := by
  unfold namedEscape
  split <;> first | rfl | exact absurd (by decide) h

/-- An escape by a text in braces ends with them. -/
theorem escape?_braces_of_notMem {text : List Char} (h : '}' ∉ text) (cs : List Char) :
    escape? ('u' :: '{' :: (text ++ '}' :: cs)) = some (scalarOfHex text, text.length + 3) := by
  have htake : (text ++ '}' :: cs).takeWhile (· != '}') = text := by
    rw [List.takeWhile_append_of_pos, List.takeWhile_cons_of_neg, List.append_nil]
    · decide
    · intro c hc
      exact bne_iff_ne.mpr fun heq => h (heq ▸ hc)
  rw [escape?_braces, htake, if_pos]
  rw [List.length_append, List.length_cons]
  omega

/-- A number of four digits stands for its character. -/
theorem escape?_digits_of_writes {ds : List Char} {c : Char} (hlen : ds.length = 4)
    (h : Writes ds c.toNat) (cs : List Char) : escape? ('u' :: (ds ++ cs)) = some (c, 5) := by
  obtain ⟨d, ds, rfl⟩ := List.exists_cons_of_ne_nil h.1
  have hd : d ≠ '{' := by
    rintro rfl
    exact notMem_of_writes h rfl (.head _)
  rw [List.cons_append, escape?_digits hd, ← List.cons_append, List.take_left' hlen,
    if_pos ⟨hlen, List.all_eq_true.mpr (isHexDigit_of_writes h)⟩, scalarOfHex_of_isNumeral (.inl h),
    scalar_toNat]

namespace QuotedBody

/-- Reading a character that needs no backslash. -/
theorem read_cons {c : Char} {cs : List Char} (hquote : c ≠ '"') (hslash : c ≠ '\\') :
    read (c :: cs) = (read cs).prepend c 1 := by
  rw [read]
  · exact hquote
  · exact hslash

/-- Reading an escape that ends in the text. -/
theorem read_of_escape?_eq {e cs : List Char} {c : Char}
    (h : escape? (e ++ cs) = some (c, e.length)) :
    read ('\\' :: (e ++ cs)) = (read cs).prepend c (e.length + 1) := by
  rw [read, h]
  dsimp only
  rw [List.drop_left]

/-- Reading a text in braces. -/
theorem read_braces {text : List Char} (h : '}' ∉ text) (cs : List Char) :
    read ('\\' :: 'u' :: '{' :: (text ++ ['}']) ++ cs) =
      (read cs).prepend (scalarOfHex text) (text.length + 4) := by
  have hlen : ('u' :: '{' :: (text ++ ['}'])).length = text.length + 3 := by simp
  have hescape : escape? ('u' :: '{' :: (text ++ ['}']) ++ cs) =
      some (scalarOfHex text, ('u' :: '{' :: (text ++ ['}'])).length) := by
    rw [List.cons_append, List.cons_append, List.append_assoc, List.singleton_append,
      escape?_braces_of_notMem h, hlen]
  rw [List.cons_append, read_of_escape?_eq hescape, hlen]

/-- However a character is written, it is read as that character. -/
theorem read_append_of_encodedAs {c : Char} {e : List Char} (h : EncodedAs c e)
    (cs : List Char) : read (e ++ cs) = (read cs).prepend c e.length := by
  cases h with
  | plain hquote hslash => exact read_cons hquote hslash
  | @named letter hletter =>
    have hall : ∀ p ∈ namedEscapes, p.1 ≠ 'u' ∧ namedEscape p.1 = p.2 := by decide
    obtain ⟨hu, hname⟩ := hall _ hletter
    have hescape : escape? ([letter] ++ cs) = some (c, 1) := by
      rw [List.singleton_append, escape?_cons hu, hname]
    exact read_of_escape?_eq hescape
  | itself hc =>
    have hu : c ≠ 'u' := by
      rintro rfl
      exact hc (by decide)
    have hescape : escape? ([c] ++ cs) = some (c, 1) := by
      rw [List.singleton_append, escape?_cons hu, namedEscape_of_notMem hc]
    exact read_of_escape?_eq hescape
  | @digits ds hlen hds =>
    have hescape : escape? ('u' :: ds ++ cs) = some (c, ('u' :: ds).length) := by
      rw [List.cons_append, escape?_digits_of_writes hlen hds, List.length_cons, hlen]
    exact read_of_escape?_eq hescape
  | @braces ds hds =>
    have hbrace : '}' ∉ ds := notMem_of_writes hds rfl
    rw [read_braces hbrace, scalarOfHex_of_isNumeral (.inl hds), scalar_toNat]
    simp

/-- However the characters of a string are written, it is read as these characters. -/
theorem read_flatten_append {s : List Char} {es : List (List Char)}
    (h : List.Forall₂ EncodedAs s es) (rest : List Char) :
    read (es.flatten ++ '"' :: rest) = ⟨s, es.flatten.length + 1, true⟩ := by
  induction h with
  | nil => rw [List.flatten_nil, List.nil_append, read, List.length_nil]
  | @cons c e s es he _ ih =>
    rw [List.flatten_cons, List.append_assoc, read_append_of_encodedAs he, ih, prepend,
      List.length_append, Nat.add_assoc]

end QuotedBody

/-- A string is read back from a text in which each of its characters is written in any of the
ways there are, whatever stands around it. -/
theorem quotedRun?_encoded {s : List Char} {es : List (List Char)}
    (h : List.Forall₂ EncodedAs s es) (pre post : List Char) :
    quotedRun? (String.ofList (pre ++ '"' :: (es.flatten ++ '"' :: post))) (width pre) =
      some ⟨width pre, width pre + width es.flatten + 2, String.ofList s, true⟩ :=
  quotedRun?_of_read (QuotedBody.read_flatten_append h post) pre

/-- Every way to write a character stands in one string here, with more quotation marks behind. -/
theorem quotedRun?_encoded_mixed :
    List.Forall₂ EncodedAs ['é', '"', ' ', 'A', '😀']
        [['é'], ['\\', '"'], ['\\', 's'], ['\\', 'u', '0', '0', '4', '1'],
          ['\\', 'u', '{', '0', '1', 'F', '6', '0', '0', '}']] ∧
      quotedRun? "«\"é\\\"\\s\\u0041\\u\x7b01F600\x7d\"\"" 2 = some ⟨2, 26, "é\" A😀", true⟩ := by
  have hbraces : EncodedAs '😀' ['\\', 'u', '{', '0', '1', 'F', '6', '0', '0', '}'] :=
    @EncodedAs.braces '😀' ['0', '1', 'F', '6', '0', '0'] (hexValue?_eq_some_iff.mp rfl)
  have h : List.Forall₂ EncodedAs ['é', '"', ' ', 'A', '😀']
      [['é'], ['\\', '"'], ['\\', 's'], ['\\', 'u', '0', '0', '4', '1'],
        ['\\', 'u', '{', '0', '1', 'F', '6', '0', '0', '}']] :=
    .cons (.plain (by decide) (by decide)) <| .cons (.itself (by decide)) <|
      .cons (.named (by decide)) <| .cons (.digits rfl (hexValue?_eq_some_iff.mp rfl)) <|
      .cons hbraces .nil
  exact ⟨h, quotedRun?_encoded h ['«'] ['"']⟩

/-- Whatever stands between braces stands for one character: for the one of that number, if it is a
number and belongs to a character, and else for the replacement character. -/
theorem quotedRun?_braces {text : List Char} (h : '}' ∉ text) (pre post : List Char) :
    ∃ c, quotedRun? (String.ofList
        (pre ++ '"' :: '\\' :: 'u' :: '{' :: (text ++ '}' :: '"' :: post))) (width pre) =
        some ⟨width pre, width pre + width text + 6, String.ofList [c], true⟩ ∧
      (∀ n, IsNumeral text n → IsScalar n → c.toNat = n) ∧
      ((∀ n, IsNumeral text n → ¬ IsScalar n) → c = replacement) := by
  refine ⟨scalarOfHex text, ?_, ?_, ?_⟩
  · have hread : QuotedBody.read ('\\' :: 'u' :: '{' :: (text ++ ['}']) ++ '"' :: post) =
        ⟨[scalarOfHex text], ('\\' :: 'u' :: '{' :: (text ++ ['}'])).length + 1, true⟩ := by
      rw [QuotedBody.read_braces h, QuotedBody.read, QuotedBody.prepend]
      simp
    have hwidth : width ('\\' :: 'u' :: '{' :: (text ++ ['}'])) = width text + 4 := by
      rw [width_cons, width_cons, width_cons, width_append]
      change 1 + (1 + (1 + (width text + 1))) = _
      omega
    have hrun := quotedRun?_of_read hread pre
    rw [hwidth, List.cons_append, List.cons_append, List.cons_append, List.append_assoc,
      List.singleton_append] at hrun
    exact hrun
  · intro n hn hscalar
    rw [scalarOfHex_of_isNumeral hn, toNat_scalar hscalar]
  · intro hnone
    by_cases hnumeral : ∃ n, IsNumeral text n
    · obtain ⟨n, hn⟩ := hnumeral
      rw [scalarOfHex_of_isNumeral hn, scalar, if_neg]
      rw [← isScalar_iff]
      exact hnone n hn
    · rw [not_exists] at hnumeral
      exact scalarOfHex_of_not_isNumeral hnumeral

/-- There may be any number of zeros in front. -/
theorem quotedRun?_braces_zeros :
    '}' ∉ "000000001f600".toList ∧
      ∃ c, quotedRun? "\"\\u\x7b000000001f600\x7d\"" 0 = some ⟨0, 19, String.ofList [c], true⟩ ∧
        c.toNat = 0x1f600 := by
  have h : '}' ∉ "000000001f600".toList := by decide
  obtain ⟨c, hrun, hscalar, -⟩ := quotedRun?_braces h [] []
  have hnumeral : IsNumeral "000000001f600".toList 0x1f600 := .inl (hexValue?_eq_some_iff.mp rfl)
  exact ⟨h, c, hrun, hscalar 0x1f600 hnumeral (by unfold IsScalar; decide)⟩

/-- A plus sign in front of the digits is read, though it is no digit. -/
theorem quotedRun?_braces_plus :
    quotedRun? "\"\\u\x7b+41\x7d\"" 0 = some ⟨0, 9, "A", true⟩ ∧
      "A".toList ≠ [replacement] ∧ ∀ n, ¬ Writes "+41".toList n := by
  refine ⟨by decide +kernel, by decide, ?_⟩
  intro n h
  have hplus : '+' ∉ "+41".toList := notMem_of_writes h rfl
  exact hplus (.head _)

end SearchQuery.Text
