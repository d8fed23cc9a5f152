import SearchQuery.Proofs.Promotion
import SearchQuery.Proofs.Scan.Lookahead
import SearchQuery.Proofs.Shift

/-!
# Scans of texts with other blanks

No piece can tell one blank from another one that stands behind it: a piece other than blanks ends
in front of all of them, and blanks end where they end (`Piece.Written.respace`). So other blanks in
the place of those that make one token change nothing but what that token consists of and where the
tokens behind it lie, and both are left out of the outlines of tokens (`Scans.respace`).
-/

namespace SearchQuery

open Text (width isBlank)

/-- At least one character, and none that is not blank. -/
def Blanks (w : List Char) : Prop := w ≠ [] ∧ ∀ c ∈ w, isBlank c = true

variable {a b w w' : List Char}

/-- What starts with blanks starts with a blank character. -/
theorem Blanks.exists_head (h : Blanks w) (b : List Char) :
    ∃ c ∈ (w ++ b).head?, isBlank c = true := by
  obtain ⟨c, cs, rfl⟩ := List.exists_cons_of_ne_nil h.1
  exact ⟨c, rfl, h.2 c (.head _)⟩

/-! ## Pieces -/

/-- A piece is the same where other blanks stand somewhere behind it. -/
theorem Piece.Written.respace {kind : Kind Token} {front : List Char}
    (h : (Piece.token kind).Written front (a ++ (w ++ b))) (hw : Blanks w) (hw' : Blanks w') :
    (Piece.token kind).Written front (a ++ (w' ++ b)) := by
  cases a with
  | cons => exact h.replace fun _ hd => hd
  | nil =>
    rw [List.nil_append] at h ⊢
    obtain ⟨c, hc, hblank⟩ := hw.exists_head b
    obtain ⟨c', hc', hblank'⟩ := hw'.exists_head b
    refine h.before ?_ ?_
    · rintro text hkind
      rw [h.eq_nil_of_unclosed hkind] at hc
      cases hc
    · intro d hd
      obtain rfl := Option.mem_unique hc' hd
      refine Kind.goesOn_of_isBlank hblank' ?_
      rintro run rfl
      have hend : isBlank c = false := h.goesOn_eq_false c hc
      rw [hblank] at hend
      cases hend

/-- An unreadable character stays so where other blanks stand somewhere behind it. -/
theorem Piece.read_respace {c : Char} (h : (Piece.read c (a ++ (w ++ b))).1 = .unreadable)
    (hw' : Blanks w') : (Piece.read c (a ++ (w' ++ b))).1 = .unreadable := by
  cases a with
  | cons => exact read_replace h fun _ hd => hd
  | nil =>
    by_cases hdot : c = '.'
    · subst hdot
      obtain ⟨d, ds, rfl⟩ := List.exists_cons_of_ne_nil hw'.1
      refine (read_dot d _).mpr ?_
      rintro rfl
      exact absurd (hw'.2 '.' (.head _)) (by decide)
    · exact read_eq_unreadable_of_ne h hdot _

/-! ## Outlines -/

/-- Outlines do not tell where a token lies. -/
theorem Token.outline_shift (n : Nat) (t : Token) : (t.shift n).outline = t.outline := by
  rw [shift_eq_recast, outline_recast]

/-- The outline of a group tells no more of its items than their outlines. -/
theorem Token.outline_group {kind : List Token → Kind Token} {items items' : List Token}
    {index index' : Option Nat} {span span' : Span} {flagged : Bool}
    (hkind : kind = .group ∨ kind = .unclosedGroup)
    (h : items'.map Token.outline = items.map Token.outline) :
    (⟨kind items', index', span', flagged⟩ : Token).outline =
      (⟨kind items, index, span, flagged⟩ : Token).outline := by
  have hitems : items'.map (Token.recast (fun _ => none) fun _ => "") =
      items.map (Token.recast (fun _ => none) fun _ => "") := h
  simp only [outline, recast, Kind.recast_group hkind, hitems, Span.relabel, Option.bind_fun_none]

/-- From any other position on a text consists of tokens with the same outlines. -/
theorem Scans.elsewhere {p q : Nat} {cs left : List Char} {ts : List Token}
    (h : Scans p cs ts q left) (p' : Nat) :
    ∃ ts' q', Scans p' cs ts' q' left ∧ ts'.map Token.outline = ts.map Token.outline := by
  obtain ⟨us, r, left', hs⟩ := exists_scans 0 cs
  have hsame := hs.shift p
  have hother := hs.shift p'
  rw [Nat.zero_add] at hsame hother
  obtain ⟨rfl, -, rfl⟩ := h.unique hsame
  refine ⟨_, _, hother, ?_⟩
  simp only [List.map_map, Function.comp_def, Token.outline_shift]

/-! ## Runs -/

/-- No token of a run starts in front of it. -/
theorem Scans.le_start {p q : Nat} {cs left : List Char} {ts : List Token}
    (h : Scans p cs ts q left) : ∀ t ∈ preorderAll ts, ∀ n ∈ t.span.start, p ≤ n := by
  have hfirst : ∀ {p : Nat} {t : Token}, t.span.start = some p → ∀ n ∈ t.span.start, p ≤ n := by
    intro p t ht n hn
    rw [ht] at hn
    cases hn
    exact le_rfl
  induction h with
  | stop => exact nofun
  | token hw _ ih =>
    refine forall_mem_preorderAll_cons.mpr ⟨hfirst rfl, ?_, ?_⟩
    · rw [Token.covering, hw.parts_eq_nil]
      exact nofun
    · exact fun t ht n hn => (Nat.le_add_right _ _).trans (ih t ht n hn)
  | closed h₁ _ ih₁ ih₂ =>
    obtain ⟨read, -, rfl⟩ := h₁.suffix
    refine forall_mem_preorderAll_cons.mpr ⟨hfirst rfl, ?_, ?_⟩
    · exact fun t ht n hn => (Nat.le_succ _).trans (ih₁ t ht n hn)
    · exact fun t ht n hn => le_trans (by omega) (ih₂ t ht n hn)
  | cut h₁ _ _ ih₁ ih₂ =>
    obtain ⟨read, -, rfl⟩ := h₁.suffix
    refine forall_mem_preorderAll_cons.mpr ⟨hfirst rfl, ?_, ?_⟩
    · exact fun t ht n hn => (Nat.le_succ _).trans (ih₁ t ht n hn)
    · exact fun t ht n hn => le_trans (by omega) (ih₂ t ht n hn)
  | unclosed _ ih =>
    refine forall_mem_preorderAll_cons.mpr ⟨hfirst rfl, ?_, nofun⟩
    exact fun t ht n hn => (Nat.le_succ _).trans (ih t ht n hn)

/-- Other blanks may stand in the place of those in front. -/
theorem Scans.respace_front {p q r : Nat} {kind : Kind Token} {front rest left : List Char}
    {ts : List Token} (h : (Piece.token kind).Written front rest)
    (hspace : (Token.covering kind p r).isSpace = true)
    (hs : Scans (p + width front) rest ts q left) (hw' : Blanks w') :
    ∃ ts' q', Scans p (w' ++ rest) ts' q' left ∧
      ts'.map Token.outline = (Token.covering kind p r :: ts).map Token.outline := by
  obtain ⟨ts', q', hs', hts⟩ := hs.elsewhere (p + width w')
  cases h with
  | space _ _ hrest =>
    refine ⟨_, q', .token (.space hw'.1 hw'.2 hrest) hs', ?_⟩
    rw [List.map_cons, List.map_cons, hts]
    rfl
  | sign hs => cases kind <;> first | cases hs; done | cases hspace
  | _ => cases hspace

/-- A run stops where it did if other blanks stand somewhere behind its end. -/
theorem Scans.respace_left {p q : Nat} {c : Char} {read : List Char} {ts : List Token}
    (h : Scans p (read ++ c :: (a ++ (w ++ b))) ts q (c :: (a ++ (w ++ b)))) (hw' : Blanks w') :
    Scans p (read ++ c :: (a ++ (w' ++ b))) ts q (c :: (a ++ (w' ++ b))) := by
  have hstop : AtStop (c :: (a ++ (w' ++ b))) := by
    rcases h.atStop with hc | hc
    · obtain rfl := Piece.eq_of_read_eq_closing hc
      exact .inl rfl
    · exact .inr (Piece.read_respace hc hw')
  obtain ⟨read', hread, hs⟩ := h.replace hstop fun _ hd => hd
  rwa [List.append_cancel_right hread]

/-- A token that does not start in front of the end of a beginning of the text covers a stretch of
what follows that beginning. -/
theorem exists_of_start_le {p n : Nat} (front : List Char) {rest : List Char} {t : Token}
    (hcs : front ++ rest = a ++ (w ++ b)) (hn : p + width front = n)
    (hle : ∀ m ∈ t.span.start, n ≤ m)
    (hspan : t.span = ⟨some (p + width a), some (p + width a + width w)⟩) :
    ∃ a', a = front ++ a' ∧ rest = a' ++ (w ++ b) ∧
      t.span = ⟨some (n + width a'), some (n + width a' + width w)⟩ := by
  have hstart := hle (p + width a) (by rw [hspan]; rfl)
  obtain ⟨a', rfl, hrest⟩ := Text.exists_of_append_eq hcs (by omega)
  rw [Text.width_append, ← Nat.add_assoc, hn] at hspan
  exact ⟨a', rfl, hrest, hspan⟩

/-- The items of a group stay where other blanks stand somewhere behind the character that ends the
group. -/
theorem Scans.respace_items {p q n : Nat} {d : Char} {cs ds : List Char} {items : List Token}
    {t : Token} (h : Scans (p + 1) cs items q (d :: ds)) (hcs : '(' :: cs = a ++ (w ++ b))
    (hn : q + d.utf8Size = n) (hle : ∀ m ∈ t.span.start, n ≤ m)
    (hspan : t.span = ⟨some (p + width a), some (p + width a + width w)⟩) (hw' : Blanks w') :
    ∃ read a', a = '(' :: (read ++ d :: a') ∧ ds = a' ++ (w ++ b) ∧
      t.span = ⟨some (n + width a'), some (n + width a' + width w)⟩ ∧
      Scans (p + 1) (read ++ d :: (a' ++ (w' ++ b))) items q (d :: (a' ++ (w' ++ b))) := by
  obtain ⟨read, rfl, rfl⟩ := h.suffix
  have hopening : '('.utf8Size = 1 := rfl
  have hfront : '(' :: (read ++ [d]) ++ ds = a ++ (w ++ b) := by simpa using hcs
  have hwidth : p + width ('(' :: (read ++ [d])) = n := by
    simp only [Text.width_cons, Text.width_append, Text.width_nil]
    omega
  obtain ⟨a', rfl, rfl, hspan'⟩ := exists_of_start_le _ hfront hwidth hle hspan
  exact ⟨read, a', by simp, rfl, hspan', h.respace_left hw'⟩

/-- Other blanks in the place of those that make a token leave the run as it is, up to what that
token consists of and to where the tokens behind it lie. -/
theorem Scans.respace {p q : Nat} {cs left : List Char} {ts : List Token} {t : Token}
    (h : Scans p cs ts q left) (hcs : cs = a ++ (w ++ b)) (ht : t ∈ preorderAll ts)
    (hspace : t.isSpace = true)
    (hspan : t.span = ⟨some (p + width a), some (p + width a + width w)⟩) (hw : Blanks w)
    (hw' : Blanks w') :
    ∃ ts' q', Scans p (a ++ (w' ++ b)) ts' q' left ∧
      ts'.map Token.outline = ts.map Token.outline := by
  -- The blanks are found again in the run over the items of a group, or in the one behind the token
  -- in front. In the first case what follows the group lies elsewhere, in the second one the token
  -- in front is the same, since nothing that it looks at has changed.
  induction h generalizing a with
  | stop => cases ht
  | @token p q kind front rest left ts hwritten hs ih =>
    rw [preorderAll_cons, Token.covering, hwritten.parts_eq_nil, preorderAll_nil, List.nil_append,
      List.mem_cons] at ht
    rcases ht with rfl | ht
    · simp only [Span.mk.injEq, Option.some.injEq] at hspan
      obtain rfl : a = [] := Text.width_eq_zero_iff.mp (by omega)
      rw [Text.width_nil] at hspan
      rw [List.nil_append] at hcs ⊢
      obtain ⟨rfl, rfl⟩ := Text.append_inj_of_width_eq hcs (by omega)
      exact Scans.respace_front hwritten hspace hs hw'
    · obtain ⟨a, rfl, rfl, hspan⟩ := exists_of_start_le front hcs rfl (hs.le_start t ht) hspan
      obtain ⟨ts', q', hs', hts⟩ := ih rfl ht hspan
      rw [List.append_assoc]
      exact ⟨_, q', .token (hwritten.respace hw hw') hs', by rw [List.map_cons, List.map_cons, hts]⟩
  | @closed p q r cs ds left items ts h₁ h₂ ih₁ ih₂ =>
    rw [preorderAll_cons, List.mem_cons, List.mem_append] at ht
    rcases ht with rfl | ht | ht
    · cases hspace
    · obtain ⟨a, rfl, rfl, hspan⟩ :=
        exists_of_start_le ['('] hcs rfl (h₁.le_start t ht) hspan
      obtain ⟨items', q', hs₁, hitems⟩ := ih₁ rfl ht hspan
      obtain ⟨ts', r', hs₂, hts⟩ := h₂.elsewhere (q' + 1)
      refine ⟨_, r', .closed hs₁ hs₂, ?_⟩
      rw [List.map_cons, List.map_cons, hts]
      exact congrArg (· :: _) (Token.outline_group (.inl rfl) hitems)
    · obtain ⟨read, a, rfl, rfl, hspan, hs₁⟩ :=
        h₁.respace_items hcs rfl (h₂.le_start t ht) hspan hw'
      obtain ⟨ts', r', hs₂, hts⟩ := ih₂ rfl ht hspan
      rw [List.cons_append, List.append_assoc]
      exact ⟨_, r', .closed hs₁ hs₂, by rw [List.map_cons, List.map_cons, hts]⟩
  | @cut p q r d cs ds left items ts h₁ hd h₂ ih₁ ih₂ =>
    rw [preorderAll_cons, List.mem_cons, List.mem_append] at ht
    rcases ht with rfl | ht | ht
    · cases hspace
    · obtain ⟨a, rfl, rfl, hspan⟩ :=
        exists_of_start_le ['('] hcs rfl (h₁.le_start t ht) hspan
      obtain ⟨items', q', hs₁, hitems⟩ := ih₁ rfl ht hspan
      obtain ⟨ts', r', hs₂, hts⟩ := h₂.elsewhere (q' + d.utf8Size)
      refine ⟨_, r', .cut hs₁ hd hs₂, ?_⟩
      rw [List.map_cons, List.map_cons, hts]
      exact congrArg (· :: _) (Token.outline_group (.inr rfl) hitems)
    · obtain ⟨read, a, rfl, rfl, hspan, hs₁⟩ :=
        h₁.respace_items hcs rfl (h₂.le_start t ht) hspan hw'
      obtain ⟨ts', r', hs₂, hts⟩ := ih₂ rfl ht hspan
      rw [List.cons_append, List.append_assoc]
      exact ⟨_, r', .cut hs₁ (Piece.read_respace hd hw') hs₂,
        by rw [List.map_cons, List.map_cons, hts]⟩
  | unclosed h₁ ih₁ =>
    rw [preorderAll_cons, List.mem_cons, preorderAll_nil, List.append_nil] at ht
    rcases ht with rfl | ht
    · cases hspace
    · obtain ⟨a, rfl, rfl, hspan⟩ :=
        exists_of_start_le ['('] hcs rfl (h₁.le_start t ht) hspan
      obtain ⟨items', q', hs₁, hitems⟩ := ih₁ rfl ht hspan
      refine ⟨_, q', .unclosed hs₁, ?_⟩
      exact congrArg (· :: []) (Token.outline_group (.inr rfl) hitems)

end SearchQuery
