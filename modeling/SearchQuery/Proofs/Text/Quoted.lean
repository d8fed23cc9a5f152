import Mathlib.Data.List.TakeWhile
import SearchQuery.Proofs.Text.Stretch
import SearchQuery.Text.Quoted

/-!
# Quoted strings in a text that goes on

What stands behind a closed quoted string has no part in it, whether more is added
(`QuotedBody.read_append`) or all of it is taken away (`QuotedBody.read_take`), and a string that
the end of a text cuts off takes up all of that text in every longer one
(`QuotedBody.length_le_used_append`). Only the escapes need care, since the last one of a text may
become another one in a longer text. It then takes up all that there was (`escape?_append`). Taken
together, a closed quoted string is found in just those texts that go on up to its end
(`quotedRun?_local`).
-/

namespace SearchQuery.Text

/-- The escape of a letter other than `u` does not depend on what follows. -/
theorem escape?_cons {c : Char} (hc : c ≠ 'u') (cs : List Char) :
    escape? (c :: cs) = some (namedEscape c, 1) := by
  rw [escape?]
  · rintro _ rfl _
    exact hc rfl
  · exact hc

/-- An escape by a number in braces. -/
theorem escape?_braces (cs : List Char) :
    escape? ('u' :: '{' :: cs) =
      if (cs.takeWhile (· != '}')).length < cs.length then
        some (scalarOfHex (cs.takeWhile (· != '}')), (cs.takeWhile (· != '}')).length + 3)
      else none := by
  rw [escape?]

/-- An escape by four digits. -/
theorem escape?_digits {d : Char} (hd : d ≠ '{') (cs : List Char) :
    escape? ('u' :: d :: cs) =
      if ((d :: cs).take 4).length = 4 ∧ ((d :: cs).take 4).all isHexDigit then
        some (scalarOfHex ((d :: cs).take 4), 5)
      else some ('u', 1) := by
  rw [escape?]
  rintro ds ⟨⟩
  exact hd rfl

/-- The end of a text may cut an escape off: it is not finished there, or is taken for a letter. -/
def CutsEscape (cs : List Char) : Prop :=
  escape? cs = none ∨ escape? cs = some ('u', 1) ∧ '"' ∉ cs

/-- How an escape by a number in braces is read in a longer text. -/
theorem escape?_braces_append (cs more : List Char) :
    escape? ('u' :: '{' :: (cs ++ more)) = escape? ('u' :: '{' :: cs) ∨
      CutsEscape ('u' :: '{' :: cs) ∧
        ∀ c n, escape? ('u' :: '{' :: (cs ++ more)) = some (c, n) → cs.length + 2 ≤ n := by
  rw [CutsEscape, escape?_braces, escape?_braces, List.takeWhile_append]
  split
  · next heq =>
    right
    refine ⟨.inl (if_neg (by omega)), ?_⟩
    intro c n h
    obtain ⟨-, h⟩ := Option.ite_none_right_eq_some.mp h
    cases h
    rw [List.length_append]
    omega
  · next hne =>
    have hlt : (cs.takeWhile (· != '}')).length < cs.length :=
      lt_of_le_of_ne (List.takeWhile_prefix _).length_le hne
    left
    rw [if_pos hlt, if_pos (by rw [List.length_append]; omega)]

/-- How an escape by four digits is read in a longer text. -/
theorem escape?_digits_append {d : Char} (hd : d ≠ '{') (cs more : List Char) :
    escape? ('u' :: d :: (cs ++ more)) = escape? ('u' :: d :: cs) ∨
      CutsEscape ('u' :: d :: cs) ∧
        ∀ c n, escape? ('u' :: d :: (cs ++ more)) = some (c, n) → cs.length + 2 ≤ n := by
  rw [CutsEscape, escape?_digits hd, escape?_digits hd, ← List.cons_append]
  by_cases hlen : 4 ≤ (d :: cs).length
  · rw [List.take_append_of_le_length hlen]
    exact .inl rfl
  have hshort : ¬ (((d :: cs).take 4).length = 4 ∧ ((d :: cs).take 4).all isHexDigit = true) := by
    rintro ⟨h, -⟩
    rw [List.length_take] at h
    omega
  rw [if_neg hshort]
  split
  · next hdigits =>
    right
    -- All that there was is among the four digits, so there was no quotation mark.
    have hquote : '"' ∉ d :: cs := by
      intro hmem
      have hmem' : '"' ∈ (d :: cs ++ more).take 4 := by
        rw [List.take_append, List.take_of_length_le (by omega)]
        exact List.mem_append_left _ hmem
      exact absurd (List.all_eq_true.mp hdigits.2 _ hmem') (by decide)
    refine ⟨.inr ⟨rfl, ?_⟩, ?_⟩
    · rw [List.mem_cons, not_or]
      exact ⟨by decide, hquote⟩
    · rintro c n ⟨⟩
      rw [List.length_cons] at hlen
      omega
  · exact .inl rfl

/-- In a longer text an escape is the same, unless the end of the shorter one cuts it off; it then
takes up all that there was. -/
theorem escape?_append (cs more : List Char) :
    escape? (cs ++ more) = escape? cs ∨
      CutsEscape cs ∧ ∀ c n, escape? (cs ++ more) = some (c, n) → cs.length ≤ n := by
  cases cs with
  | nil => exact .inr ⟨.inl rfl, fun _ _ _ => Nat.zero_le _⟩
  | cons c cs =>
    by_cases hc : c = 'u'
    · subst hc
      cases cs with
      | nil => exact .inr ⟨.inr ⟨rfl, by decide⟩, fun _ _ h => (escape?_used h).1⟩
      | cons d cs =>
        by_cases hd : d = '{'
        · subst hd
          exact escape?_braces_append cs more
        · exact escape?_digits_append hd cs more
    · rw [List.cons_append, escape?_cons hc, escape?_cons hc]
      exact .inl rfl

namespace QuotedBody

/-- A closed string ends with a quotation mark. -/
theorem exists_of_closed {cs : List Char} (h : (read cs).closed = true) :
    ∃ body rest value, cs = body ++ '"' :: rest ∧ read cs = ⟨value, body.length + 1, true⟩ := by
  fun_induction read cs with
  | case1 => cases h
  | case2 cs => exact ⟨[], cs, [], rfl, rfl⟩
  | case3 => cases h
  | case4 cs c n hescape ih =>
    obtain ⟨body, rest, value, hcs, hread⟩ := ih h
    refine ⟨'\\' :: (cs.take n ++ body), rest, c :: value, ?_, ?_⟩
    · rw [List.cons_append, List.append_assoc, ← hcs, List.take_append_drop]
    · have := (escape?_used hescape).2
      rw [hread, prepend, List.length_cons, List.length_append, List.length_take_of_le this]
      congr 1
      dsimp only
      omega
  | case5 c cs _ _ ih =>
    obtain ⟨body, rest, value, rfl, hread⟩ := ih h
    refine ⟨c :: body, rest, c :: value, rfl, ?_⟩
    rw [hread, prepend, List.length_cons, Nat.add_comm 1]

/-- The text of a closed string has a quotation mark. -/
theorem mem_of_closed {cs : List Char} (h : (read cs).closed = true) : '"' ∈ cs := by
  obtain ⟨body, rest, -, rfl, -⟩ := exists_of_closed h
  exact List.mem_append_right body (.head _)

/-- What stands behind a closed string has no part in it. -/
theorem read_append {cs : List Char} (h : (read cs).closed = true) (more : List Char) :
    read (cs ++ more) = read cs := by
  fun_induction read cs with
  | case1 => cases h
  | case2 => rw [List.cons_append, read]
  | case3 => cases h
  | case4 cs c n hescape ih =>
    have hmem := List.mem_of_mem_drop (mem_of_closed h)
    rcases escape?_append cs more with heq | ⟨hnone | ⟨-, hquote⟩, -⟩
    · rw [List.cons_append, read, heq, hescape]
      dsimp only
      rw [List.drop_append_of_le_length (escape?_used hescape).2, ih h]
    · rw [hnone] at hescape
      cases hescape
    · exact absurd hmem hquote
  | case5 c cs hquote hslash ih =>
    rw [List.cons_append, read, ih h]
    · exact hquote
    · exact hslash

/-- Without what stands behind it a closed string is the same. -/
theorem read_take {cs : List Char} (h : (read cs).closed = true) :
    read (cs.take (read cs).used) = read cs := by
  fun_induction read cs with
  | case1 => cases h
  | case2 cs => rw [List.take_succ_cons, List.take_zero, read]
  | case3 => cases h
  | case4 cs c n hescape ih =>
    have hrest := ih h
    have hpos : 0 < (read (cs.drop n)).used := by
      rw [Nat.pos_iff_ne_zero]
      intro hzero
      rw [hzero, List.take_zero] at hrest
      rw [prepend, ← hrest, read] at h
      cases h
    have hle := used_le (cs.drop n)
    rw [List.length_drop] at hle
    -- The escape ends before the string does, so that the end of the string does not cut it off.
    have hescape' : escape? (cs.take (n + (read (cs.drop n)).used)) = some (c, n) := by
      rcases escape?_append (cs.take (n + (read (cs.drop n)).used))
        (cs.drop (n + (read (cs.drop n)).used)) with heq | ⟨-, hall⟩
      · rw [List.take_append_drop] at heq
        rw [← heq, hescape]
      · rw [List.take_append_drop] at hall
        have := hall c n hescape
        rw [List.length_take] at this
        omega
    rw [show (prepend c (n + 1) (read (cs.drop n))).used = n + (read (cs.drop n)).used + 1 by
      simp only [prepend]; omega, List.take_succ_cons, read, hescape']
    dsimp only
    rw [List.drop_take, Nat.add_sub_cancel_left, hrest]
  | case5 c cs hquote hslash ih =>
    have hrest := ih h
    rw [show (prepend c 1 (read cs)).used = (read cs).used + 1 from Nat.add_comm _ _,
      List.take_succ_cons, read, hrest]
    · exact hquote
    · exact hslash

/-- A string that the end of a text cuts off takes up all of that text in a longer one. -/
theorem length_le_used_append {cs : List Char} (h : (read cs).closed = false) (more : List Char) :
    cs.length ≤ (read (cs ++ more)).used := by
  fun_induction read cs with
  | case1 => exact Nat.zero_le _
  | case2 => cases h
  | case3 cs hescape =>
    rw [List.cons_append, read]
    rcases hlonger : escape? (cs ++ more) with _ | ⟨c, n⟩
    · simp
    · have hle : cs.length ≤ n := by
        rcases escape?_append cs more with heq | ⟨-, hall⟩
        · rw [heq, hescape] at hlonger
          cases hlonger
        · exact hall c n hlonger
      simp only [prepend, List.length_cons]
      omega
  | case4 cs c n hescape ih =>
    rw [List.cons_append, read]
    rcases escape?_append cs more with heq | ⟨-, hall⟩
    · have hused := escape?_used hescape
      have hle := ih h
      rw [heq, hescape]
      dsimp only
      rw [List.drop_append_of_le_length hused.2]
      simp only [prepend, List.length_cons, List.length_drop] at hle ⊢
      omega
    · rcases hlonger : escape? (cs ++ more) with _ | ⟨d, m⟩
      · simp
      · have hle := hall d m hlonger
        simp only [prepend, List.length_cons]
        omega
  | case5 c cs hquote hslash ih =>
    have hle := ih h
    rw [List.cons_append, read]
    · simp only [prepend, List.length_cons]
      omega
    · exact hquote
    · exact hslash

section

variable {body rest value : List Char}

/-- A closed string is the same with anything else behind it. -/
theorem read_of_read (h : read (body ++ '"' :: rest) = ⟨value, body.length + 1, true⟩)
    (more : List Char) : read (body ++ '"' :: more) = ⟨value, body.length + 1, true⟩ := by
  have htake : (body ++ '"' :: rest).take (body.length + 1) = body ++ ['"'] := by
    rw [List.take_length_add_append]
    rfl
  have hclosed : (read (body ++ '"' :: rest)).closed = true := by rw [h]
  have halone := read_take hclosed
  rw [h, htake] at halone
  have hclosed' : (read (body ++ ['"'])).closed = true := by rw [halone]
  have hmore := read_append hclosed' more
  rwa [List.append_assoc, halone] at hmore

/-- A string is not closed in a part of its text that stops before its end. -/
theorem not_closed_of_append_eq {part back : List Char}
    (h : read (body ++ '"' :: rest) = ⟨value, body.length + 1, true⟩)
    (heq : body ++ '"' :: rest = part ++ back) (hle : part.length ≤ body.length) :
    (read part).closed = false := by
  by_contra hclosed
  rw [Bool.not_eq_false] at hclosed
  have hused := used_le part
  rw [heq, read_append hclosed] at h
  rw [h] at hused
  dsimp only at hused
  omega

end

end QuotedBody

/-! ## Quoted strings of a text -/

/-- A quotation mark takes up one byte. -/
theorem utf8Size_quote : '"'.utf8Size = 1 := rfl

/-- What is read behind an opening quotation mark is the quoted string that opens there. -/
theorem quotedRun?_of_suffixAt? {text : String} {start : Nat} {cs : List Char}
    (h : suffixAt? start text.toList = some ('"' :: cs)) :
    quotedRun? text start = some ⟨start, start + 1 + width (cs.take (QuotedBody.read cs).used),
      String.ofList (QuotedBody.read cs).value, (QuotedBody.read cs).closed⟩ := by
  rw [quotedRun?, h]
  rfl

/-- A closed string makes a quoted string of every text that it stands in. -/
theorem quotedRun?_of_read {body post value : List Char}
    (h : QuotedBody.read (body ++ '"' :: post) = ⟨value, body.length + 1, true⟩)
    (pre : List Char) :
    quotedRun? (String.ofList (pre ++ '"' :: (body ++ '"' :: post))) (width pre) =
      some ⟨width pre, width pre + width body + 2, String.ofList value, true⟩ := by
  have hsuffix : suffixAt? (width pre)
      (String.ofList (pre ++ '"' :: (body ++ '"' :: post))).toList =
      some ('"' :: (body ++ '"' :: post)) := by
    rw [String.toList_ofList, suffixAt?_width]
  have hbody : width ((body ++ '"' :: post).take (body.length + 1)) = width body + 1 := by
    rw [List.take_length_add_append, width_append]
    rfl
  rw [quotedRun?_of_suffixAt? hsuffix, h, hbody]
  congr 2
  omega

/-- A string that is not closed makes a quoted string up to the end of the text. -/
theorem quotedRun?_of_not_closed {cs : List Char} (h : (QuotedBody.read cs).closed = false)
    (pre : List Char) :
    quotedRun? (String.ofList (pre ++ '"' :: cs)) (width pre) =
      some ⟨width pre, width (pre ++ '"' :: cs), String.ofList (QuotedBody.read cs).value,
        false⟩ := by
  have hsuffix : suffixAt? (width pre) (String.ofList (pre ++ '"' :: cs)).toList =
      some ('"' :: cs) := by
    rw [String.toList_ofList, suffixAt?_width]
  rw [quotedRun?_of_suffixAt? hsuffix, h, QuotedBody.used_eq_of_not_closed h, List.take_length,
    width_append, width_cons, Nat.add_assoc]
  rfl

/-- A closed quoted string ends with a quotation mark, does not depend on what stands behind it, and
is open in every text that stops before its end. One that is not closed reaches to the end of the
text. -/
theorem quotedRun?_local {text : String} {start : Nat}
    (h : Stretch text.toList start (start + 1) ['"']) :
    ∃ run, quotedRun? text start = some run ∧
      (run.closed = false → run.stop = width text.toList) ∧
      (run.closed = true →
        (∃ q, start < q ∧ run.stop = q + 1 ∧ Stretch text.toList q (q + 1) ['"']) ∧
        ∀ front back, text.toList = front ++ back →
          (width front = run.stop →
            ∀ more, quotedRun? (String.ofList (front ++ more)) start = some run) ∧
          (start < width front → width front < run.stop →
            ∃ value, quotedRun? (String.ofList front) start =
              some ⟨start, width front, value, false⟩)) := by
  obtain ⟨cs, hcs, -⟩ := h
  obtain ⟨pre, htext, rfl⟩ := suffixAt?_eq_some_iff.mp hcs
  obtain rfl : text = String.ofList (pre ++ '"' :: cs) := by
    rw [← List.singleton_append, ← htext, String.ofList_toList]
  rw [String.toList_ofList] at hcs ⊢
  rcases hclosed : (QuotedBody.read cs).closed with _ | _
  · exact ⟨_, quotedRun?_of_not_closed hclosed pre, fun _ => rfl, nofun⟩
  obtain ⟨body, rest, value, rfl, hread⟩ := QuotedBody.exists_of_closed hclosed
  refine ⟨_, quotedRun?_of_read hread pre, nofun, fun _ => ⟨?_, ?_⟩⟩
  · have hmark : suffixAt? (width pre + 1 + width body) (pre ++ '"' :: (body ++ '"' :: rest)) =
        some ('"' :: rest) := suffixAt?_add (suffixAt?_cons hcs)
    exact ⟨width pre + 1 + width body, by omega, by dsimp only; omega, rest, hmark, rfl⟩
  intro front back hfront
  constructor
  · intro hstop more
    obtain ⟨rfl, -⟩ : front = pre ++ '"' :: (body ++ ['"']) ∧ back = rest := by
      apply append_inj_of_width_eq
      · rw [← hfront, List.append_assoc, List.cons_append, List.append_assoc, List.singleton_append]
      · rw [hstop, width_append, width_cons, width_append, width_cons, width_nil, utf8Size_quote]
        dsimp only
        omega
    rw [List.append_assoc, List.cons_append, List.append_assoc, List.singleton_append]
    exact quotedRun?_of_read (QuotedBody.read_of_read hread more) pre
  · intro hstart hstop
    have hpre : (pre ++ ['"']) ++ (body ++ '"' :: rest) = front ++ back := by
      rw [← hfront, List.append_assoc, List.singleton_append]
    have hmark : width (pre ++ ['"']) = width pre + 1 := width_append _ _
    obtain ⟨part, rfl, hpart⟩ := exists_of_append_eq hpre (by rw [hmark]; exact hstart)
    have hwidth : width part ≤ width body := by
      rw [width_append, hmark] at hstop
      dsimp only at hstop
      omega
    obtain ⟨between, rfl, -⟩ := exists_of_append_eq hpart.symm hwidth
    have hlen : part.length ≤ (part ++ between).length := by
      rw [List.length_append]
      exact Nat.le_add_right _ _
    have hopen := QuotedBody.not_closed_of_append_eq hread hpart hlen
    rw [List.append_assoc, List.singleton_append]
    exact ⟨_, quotedRun?_of_not_closed hopen pre⟩

/-- A quotation mark in braces and one behind a backslash close nothing. -/
theorem quotedRun?_local_marks :
    Stretch "x\"\\u\x7b\"\x7d\\\"\" y".toList 1 2 ['"'] ∧
      (∀ more, quotedRun? (String.ofList ("x\"\\u\x7b\"\x7d\\\"\"".toList ++ more)) 1 =
        some ⟨1, 10, "\ufffd\"", true⟩) ∧
      ∃ value, quotedRun? (String.ofList "x\"\\u\x7b\"".toList) 1 =
        some ⟨1, 6, value, false⟩ := by
  have h : Stretch "x\"\\u\x7b\"\x7d\\\"\" y".toList 1 2 ['"'] := ⟨_, rfl, rfl⟩
  have hrun : quotedRun? "x\"\\u\x7b\"\x7d\\\"\" y" 1 = some ⟨1, 10, "\ufffd\"", true⟩ := by
    decide +kernel
  obtain ⟨run, hrun', -, hclosed⟩ := quotedRun?_local h
  rw [hrun] at hrun'
  cases hrun'
  obtain ⟨-, hsplit⟩ := hclosed rfl
  exact ⟨h, (hsplit _ " y".toList rfl).1 rfl, (hsplit _ "\x7d\\\"\" y".toList rfl).2 (by decide)
    (by decide)⟩

end SearchQuery.Text
