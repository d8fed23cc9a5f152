import Mathlib
import SearchQuery.Proofs.Shift

/-!
# Scans that start inside a text

Scanning looks at nothing in front of the position that it starts at. From a position on, a text is
scanned as what is left of it there would be by itself, with all positions moved on. In particular a
scan may be taken up again at any of its tokens outside groups: what was in front of the token has
no part in it, and the scan goes on over the same tokens to the same stop (`Scans.restart`).
`Scan.of_elsewhere` states both for scans that may fail.
-/

namespace SearchQuery

open Text (suffixAt? suffixAt?_add suffixAt?_cons)

/-- The scan of a text that stands `n` bytes further on. -/
def Scan.shift (n : Nat) (scan : Scan) : Scan :=
  ⟨scan.start + n, scan.stop + n, scan.tokens.map (Token.shift n)⟩

/-- From a position on, what is left of the text there is scanned. -/
theorem Scan.of_eq {limit s : Nat} {text : String} {rest : List Char}
    (h : suffixAt? s text.toList = some rest) : Scan.of limit s text = ofChars limit s rest := by
  rw [Scan.of, h]

/-- A text that stands `n` bytes further on is scanned as it is by itself, or fails as it does. -/
theorem Scan.ofChars_add (limit p n : Nat) (cs : List Char) :
    ofChars limit (p + n) cs =
      match ofChars limit p cs with
      | .ok scan => .ok (scan.shift n)
      | .error fault => .error (fault.shift n) := by
  obtain ⟨ts, q, left, hs⟩ := exists_scans p cs
  rw [ofChars_of_scans (hs.shift n), ofChars_of_scans hs, overflowAll?_shift hs.index_isSome]
  cases overflowAll? limit ts <;> rfl

/-- From each of its tokens on, a run goes over the same tokens to the same stop. -/
theorem Scans.restart {p q k : Nat} {text cs left : List Char} {ts : List Token} {t : Token}
    (h : Scans p cs ts q left) (hp : Text.suffixAt? p text = some cs) (ht : ts[k]? = some t) :
    ∃ s rest, t.span.start = some s ∧ Text.suffixAt? s text = some rest ∧
      Scans s rest (ts.drop k) q left := by
  induction h generalizing k with
  | stop => cases ht
  | @token p _ _ front rest _ _ hw hs ih =>
    cases k with
    | zero =>
      cases ht
      exact ⟨p, front ++ rest, rfl, hp, .token hw hs⟩
    | succ k => exact ih (suffixAt?_add hp) ht
  | @closed p _ _ cs _ _ _ _ h₁ h₂ _ ih₂ =>
    cases k with
    | zero =>
      cases ht
      exact ⟨p, '(' :: cs, rfl, hp, .closed h₁ h₂⟩
    | succ k => exact ih₂ (suffixAt?_cons (h₁.suffixAt? (suffixAt?_cons hp))) ht
  | @cut p _ _ _ cs _ _ _ _ h₁ hd h₂ _ ih₂ =>
    cases k with
    | zero =>
      cases ht
      exact ⟨p, '(' :: cs, rfl, hp, .cut h₁ hd h₂⟩
    | succ k => exact ih₂ (suffixAt?_cons (h₁.suffixAt? (suffixAt?_cons hp))) ht
  | @unclosed p _ cs _ h₁ _ =>
    cases k with
    | zero =>
      cases ht
      exact ⟨p, '(' :: cs, rfl, hp, .unclosed h₁⟩
    | succ k => cases ht

/-- What is in front of a scan has no part in it. From a position of a text on, scanning yields what
the rest of the text yields by itself, with the whole scan moved on by that position, or fails as
the rest does, that much further on. And where a scan succeeds, from whatever position, a scan from
the start of one of its tokens outside groups yields that token and those behind it, and stops where
the first scan does. -/
theorem Scan.of_elsewhere (limit : Nat) (text : String) :
    (∀ s rest, suffixAt? s text.toList = some rest →
      Scan.of limit s text =
        match Scan.ofText limit (String.ofList rest) with
        | .ok scan => .ok (scan.shift s)
        | .error fault => .error (fault.shift s)) ∧
      ∀ start scan, Scan.of limit start text = .ok scan → ∀ k t s, scan.tokens[k]? = some t →
        t.span.start = some s → Scan.of limit s text = .ok ⟨s, scan.stop, scan.tokens.drop k⟩ := by
  constructor
  · intro s rest hrest
    have hadd := ofChars_add limit 0 s rest
    rw [Nat.zero_add] at hadd
    rw [of_eq hrest, ofText_eq, String.toList_ofList]
    exact hadd
  · intro start scan h k t s ht hstart
    rw [Scan.of] at h
    split at h
    · next cs hcs =>
      obtain ⟨left, hs, -, hroom⟩ := exists_scans_of_ofChars h
      obtain ⟨s', rest, hs', hrest, hrestart⟩ := hs.restart hcs ht
      rw [hstart] at hs'
      cases hs'
      have hroom' : overflowAll? limit (scan.tokens.drop k) = none := by
        rw [overflowAll?_eq_none_iff] at hroom ⊢
        exact fun u hu => hroom u (List.mem_of_mem_drop hu)
      rw [of_eq hrest, ofChars_of_scans hrestart, hroom']
    · cases h
      cases ht

/-- The law for a text in which a character of two bytes leaves a group open, from the group on and
from the word behind it on, and with too little room for the group. -/
theorem Scan.of_elsewhere_cut :
    suffixAt? 2 "é(a§ b".toList = some "(a§ b".toList ∧
      Scan.of 1 2 "é(a§ b" = .ok ⟨2, 8, [.cutOff [.covering (.word "a") 3 4] 2,
        .covering (.space " ") 6 7, .covering (.word "b") 7 8]⟩ ∧
      Scan.of 0 2 "é(a§ b" = .error (.tooDeep 2 0) ∧
      Scan.of 1 7 "é(a§ b" = .ok ⟨7, 8, [.covering (.word "b") 7 8]⟩ := by
  have hrest : suffixAt? 2 "é(a§ b".toList = some "(a§ b".toList := by rfl
  have hscan : Scan.of 1 2 "é(a§ b" = .ok ⟨2, 8, [.cutOff [.covering (.word "a") 3 4] 2,
      .covering (.space " ") 6 7, .covering (.word "b") 7 8]⟩ := by
    rw [(Scan.of_elsewhere 1 "é(a§ b").1 2 _ hrest]
    cbv
  refine ⟨hrest, hscan, ?_, (Scan.of_elsewhere 1 "é(a§ b").2 2 _ hscan 2 _ 7 rfl rfl⟩
  rw [(Scan.of_elsewhere 0 "é(a§ b").1 2 _ hrest]
  cbv

end SearchQuery
