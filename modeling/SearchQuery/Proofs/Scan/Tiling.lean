import Mathlib
import SearchQuery.Proofs.Scan.Derivation
import SearchQuery.Proofs.Text.Quoted
import SearchQuery.Token.Preorder

/-!
# The tokens of a scan tile its text

A scan leaves nothing out: each token starts where scanning went on after the one in front of it
(`Tiles`), from the first position of the scan to its last one, and so do the items of every group
up to the place where the group ends. Where scanning goes on is the end of a token, and behind a
group that was left open it is the character that could not be read (`Token.extent`). Each token
is spelled by the stretch of text that it covers (`Token.Spelled`). `Scan.of_tiles` states both.
-/

namespace SearchQuery

open Text (width isBlank suffixAt? suffixAt?_add suffixAt?_cons width_of_suffixAt? quotedRun?
  QuotedBody IsPosition Stretch)

/-- The position behind the character at a position, and the position itself at the end. -/
def skip (cs : List Char) (q : Nat) : Nat :=
  match suffixAt? q cs with
  | some (c :: _) => q + c.utf8Size
  | _ => q

mutual

/-- Where scanning goes on behind a token: at its end, or behind the character that left a group
open. -/
def Token.extent (cs : List Char) : Token → Nat
  | ⟨_, _, ⟨_, some stop⟩, _⟩ => stop
  | ⟨.unclosedGroup items, _, ⟨start, none⟩, _⟩ =>
    skip cs (extentAll cs (start.getD 0 + 1) items)
  | ⟨_, _, ⟨start, none⟩, _⟩ => start.getD 0

/-- Where scanning goes on behind some tokens, the first of which was looked for at `start`. -/
def extentAll (cs : List Char) (start : Nat) : List Token → Nat
  | [] => start
  | t :: ts => extentAll cs (t.extent cs) ts

end

/-- The tokens fill the text from `start` to `stop`: each starts where scanning went on behind the
one in front of it. -/
def Tiles (cs : List Char) : Nat → List Token → Nat → Prop
  | start, [], stop => start = stop
  | start, t :: ts, stop =>
    t.index = some start ∧ t.span.start = some start ∧ Tiles cs (t.extent cs) ts stop

/-- A token is spelled by the stretch of text that it covers. The items of a group tile what is
between its parentheses. Those of a group without its closing parenthesis tile the text up to its
end, or up to a character where a scan finds nothing. -/
inductive Token.Spelled (limit : Nat) (text : String) : Token → Prop
  | space {s : String} {a b : Nat} : Stretch text.toList a b s.toList → s ≠ "" →
      (∀ c ∈ s.toList, isBlank c = true) →
      (∀ c rest, suffixAt? b text.toList = some (c :: rest) → isBlank c = false) →
      Spelled limit text (.covering (.space s) a b)
  | word {s : String} {a b : Nat} : Stretch text.toList a b s.toList → s ≠ "" →
      (∀ c ∈ s.toList, isWordChar c = true) →
      (∀ c rest, suffixAt? b text.toList = some (c :: rest) → isWordChar c = false) →
      Spelled limit text (.covering (.word s) a b)
  | quoted {s : String} {a b : Nat} : quotedRun? text a = some ⟨a, b, s, true⟩ →
      Spelled limit text (.covering (.quoted s) a b)
  | unclosedQuoted {s : String} {a b : Nat} : quotedRun? text a = some ⟨a, b, s, false⟩ →
      b = width text.toList → Spelled limit text (.covering (.unclosedQuoted s) a b)
  | sign {kind : Kind Token} {s : String} {a b : Nat} : kind.sign? = some s →
      Stretch text.toList a b s.toList → Spelled limit text (.covering kind a b)
  | group {items : List Token} {a q : Nat} : Stretch text.toList a (a + 1) ['('] →
      Tiles text.toList (a + 1) items q → Stretch text.toList q (q + 1) [')'] →
      Spelled limit text (.covering (.group items) a (q + 1))
  | unclosedGroup {items : List Token} {a q : Nat} : Stretch text.toList a (a + 1) ['('] →
      Tiles text.toList (a + 1) items q →
      (q = width text.toList ∨ ∃ c rest, suffixAt? q text.toList = some (c :: rest) ∧ c ≠ ')' ∧
        Scan.of limit q text = .ok ⟨q, q, []⟩) →
      Spelled limit text (.cutOff items a)

/-- Tokens that tile a stretch of text extend to its end. -/
theorem Tiles.extentAll_eq {cs : List Char} {ts : List Token} {a b : Nat} (h : Tiles cs a ts b) :
    extentAll cs a ts = b := by
  induction ts generalizing a with
  | nil => rw [extentAll]; exact h
  | cons t ts ih => rw [extentAll]; exact ih h.2.2

/-- Nothing is scanned at a stop. -/
theorem Scan.of_stop {limit q : Nat} {text : String} {left : List Char}
    (hq : suffixAt? q text.toList = some left) (h : AtStop left) :
    Scan.of limit q text = .ok ⟨q, q, []⟩ := by
  rw [Scan.of, hq]
  exact ofChars_of_scans (.stop h) limit

/-- A token is spelled by what is written for it. -/
theorem Piece.Written.spelled {limit p : Nat} {text : String} {kind : Kind Token}
    {front rest : List Char} (h : (Piece.token kind).Written front rest)
    (hp : suffixAt? p text.toList = some (front ++ rest)) :
    Token.Spelled limit text (.covering kind p (p + width front)) := by
  have hrest := suffixAt?_add hp
  have hstretch : Stretch text.toList p (p + width front) front := ⟨rest, hp, rfl⟩
  have hnext : ∀ {f : Char → Bool}, (∀ c ∈ rest.head?, f c = false) → ∀ c ds,
      suffixAt? (p + width front) text.toList = some (c :: ds) → f c = false := by
    intro f hf c ds hc
    rw [hrest] at hc
    cases hc
    exact hf c rfl
  cases h with
  | space hne hall hend =>
    exact .space (by simpa using hstretch) (by simpa using hne) (by simpa using hall) (hnext hend)
  | word hne hall hend =>
    exact .word (by simpa using hstretch) (by simpa using hne) (by simpa using hall) (hnext hend)
  | @quoted body value rest hread =>
    refine .quoted ?_
    rw [quotedRun?, hp]
    simp [hread, Text.utf8Size_quote, Nat.add_assoc]
  | @unclosedQuoted body value hread =>
    refine .unclosedQuoted ?_ ?_
    · rw [quotedRun?, hp]
      simp [hread, Text.utf8Size_quote, Nat.add_assoc]
    · have := width_of_suffixAt? hrest
      simpa using this
  | sign hs hfront hend => exact .sign hs (by rw [hfront]; exact hstretch)

/-- The tokens of a run tile the text, and all of them are spelled by it. -/
theorem Scans.tiles {limit p q : Nat} {text : String} {cs left : List Char} {ts : List Token}
    (h : Scans p cs ts q left) (hp : Text.suffixAt? p text.toList = some cs) :
    Tiles text.toList p ts q ∧ ∀ t ∈ preorderAll ts, t.Spelled limit text := by
  induction h with
  | stop => exact ⟨rfl, nofun⟩
  | token hw hs ih =>
    obtain ⟨htiles, hall⟩ := ih (suffixAt?_add hp)
    refine ⟨⟨rfl, rfl, htiles⟩, forall_mem_preorderAll_cons.mpr ⟨hw.spelled hp, ?_, hall⟩⟩
    simp [Token.covering, hw.parts_eq_nil]
  | @closed p q r cs ds left items ts h₁ h₂ ih₁ ih₂ =>
    have hp₁ := suffixAt?_cons hp
    have hq := h₁.suffixAt? hp₁
    have hq₁ := suffixAt?_cons hq
    obtain ⟨htiles₁, hall₁⟩ := ih₁ hp₁
    obtain ⟨htiles₂, hall₂⟩ := ih₂ hq₁
    refine ⟨⟨rfl, rfl, htiles₂⟩, forall_mem_preorderAll_cons.mpr ⟨?_, hall₁, hall₂⟩⟩
    exact .group ⟨cs, hp, rfl⟩ htiles₁ ⟨ds, hq, rfl⟩
  | @cut p q r d cs ds left items ts h₁ hd h₂ ih₁ ih₂ =>
    have hp₁ := suffixAt?_cons hp
    have hq := h₁.suffixAt? hp₁
    have hq₁ := suffixAt?_cons hq
    obtain ⟨htiles₁, hall₁⟩ := ih₁ hp₁
    obtain ⟨htiles₂, hall₂⟩ := ih₂ hq₁
    refine ⟨⟨rfl, rfl, ?_⟩, forall_mem_preorderAll_cons.mpr ⟨?_, hall₁, hall₂⟩⟩
    · have hextent : (Token.cutOff items p).extent text.toList = q + d.utf8Size := by
        rw [Token.cutOff, Token.extent, Option.getD_some, htiles₁.extentAll_eq, skip, hq]
      rw [hextent]
      exact htiles₂
    · have hne : d ≠ ')' := by
        rintro rfl
        cases hd
      exact .unclosedGroup ⟨cs, hp, rfl⟩ htiles₁ (.inr ⟨d, ds, hq, hne, Scan.of_stop hq (.inr hd)⟩)
  | @unclosed p q cs items h₁ ih₁ =>
    have hp₁ := suffixAt?_cons hp
    have hq := h₁.suffixAt? hp₁
    obtain ⟨htiles₁, hall₁⟩ := ih₁ hp₁
    refine ⟨⟨rfl, rfl, ?_⟩, forall_mem_preorderAll_cons.mpr ⟨?_, hall₁, nofun⟩⟩
    · rw [Token.cutOff, Token.extent, Option.getD_some, htiles₁.extentAll_eq, skip, hq]
      rfl
    · exact .unclosedGroup ⟨cs, hp, rfl⟩ htiles₁ (.inl (width_of_suffixAt? hq))

/-- Scanning loses nothing. From any position of a text, a scan that succeeds stops at a position
that is not in front of it, its tokens tile the text in between, also inside all groups, and every
token is spelled by the stretch of text that it covers. -/
theorem Scan.of_tiles {limit start : Nat} {text : String} {scan : Scan}
    (hstart : IsPosition text.toList start) (h : Scan.of limit start text = .ok scan) :
    scan.start = start ∧ start ≤ scan.stop ∧ scan.stop ≤ width text.toList ∧
      IsPosition text.toList scan.stop ∧ Tiles text.toList start scan.tokens scan.stop ∧
      ∀ t ∈ preorderAll scan.tokens, t.Spelled limit text := by
  obtain ⟨cs, hcs⟩ := hstart
  rw [Scan.of, hcs] at h
  obtain ⟨left, hs, hstart, -⟩ := Scan.exists_scans_of_ofChars h
  have hle : start ≤ scan.stop := by
    obtain ⟨read, -, hq⟩ := hs.suffix
    omega
  have hq := hs.suffixAt? hcs
  obtain ⟨htiles, hspelled⟩ := hs.tiles hcs
  exact ⟨hstart, hle, IsPosition.le ⟨left, hq⟩, ⟨left, hq⟩, htiles, hspelled⟩

/-- The law where a character of two bytes leaves a group open inside another one, which the end of
the text leaves open in its turn. -/
theorem Scan.of_tiles_cut :
    IsPosition "é((a§ \"b".toList 2 ∧ ∃ scan, Scan.of 3 2 "é((a§ \"b" = .ok scan ∧
      scan.tokens = [.cutOff [.cutOff [.covering (.word "a") 4 5] 3, .covering (.space " ") 7 8,
        .covering (.unclosedQuoted "b") 8 10] 2] ∧
      Tiles "é((a§ \"b".toList 2 scan.tokens scan.stop ∧
      ∀ t ∈ preorderAll scan.tokens, t.Spelled 3 "é((a§ \"b" := by
  have hstart : IsPosition "é((a§ \"b".toList 2 := ⟨_, rfl⟩
  have hscan : Scan.of 3 2 "é((a§ \"b" = .ok ⟨2, 10, [.cutOff [.cutOff
      [.covering (.word "a") 4 5] 3, .covering (.space " ") 7 8,
        .covering (.unclosedQuoted "b") 8 10] 2]⟩ := by cbv
  obtain ⟨-, -, -, -, htiles, hspelled⟩ := Scan.of_tiles hstart hscan
  exact ⟨hstart, _, hscan, rfl, htiles, hspelled⟩

end SearchQuery
