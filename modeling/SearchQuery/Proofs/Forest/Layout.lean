import SearchQuery.Proofs.Forest.Derivation
import SearchQuery.Proofs.Promotion

/-!
# Where tokens lie in their text

Two ways for tokens to lie in a text. Raw and promoted tokens lie side by side and leave nothing out
(`Laid`), apart from characters that leave a group open. The tokens of a forest are only arranged
one behind the other (`Arranged`), with room between them, and so are the parts of each of them.
Between the units of a sequence there is nothing but blanks (`BlankGaps`). Tokens of a scan are laid
(`Scans.laid`), and so are those that they are promoted to (`Promotes.laid`).
-/

namespace SearchQuery

open Text (width isBlank suffixAt? suffixAt?_add suffixAt?_cons IsPosition Stretch)

/-- The text `cs` holds only blanks from position `a` to position `b`. -/
def BlankBetween (cs : List Char) (a b : Nat) : Prop :=
  ∃ part, Stretch cs a b part ∧ ∀ c ∈ part, isBlank c = true

/-- There are only blanks in front of some tokens, between them and behind them: from the position
`from?`, from the end of each token that has one, up to the start of the next one, and in the end up
to the position `to?`. -/
def BlankGaps (cs : List Char) : Option Nat → List Token → Option Nat → Prop
  | from?, [], to? => ∀ a ∈ from?, ∀ b ∈ to?, BlankBetween cs a b
  | from?, t :: ts, to? =>
    (∀ a ∈ from?, ∀ b ∈ t.span.start, BlankBetween cs a b) ∧ BlankGaps cs t.span.stop ts to?

/-- A group lies between its parentheses, with nothing but blanks between its units. -/
def Token.Bracketed (cs : List Char) (t : Token) : Prop :=
  match t.kind with
  | .group items => ∃ a q, t.span = ⟨some a, some (q + 1)⟩ ∧ Stretch cs a (a + 1) ['('] ∧
      Stretch cs q (q + 1) [')'] ∧ BlankGaps cs (some (a + 1)) items (some q)
  | .unclosedGroup items => ∃ a, t.span = ⟨some a, none⟩ ∧ Stretch cs a (a + 1) ['('] ∧
      BlankGaps cs (some (a + 1)) items none
  | _ => True

/-- A token takes up the text from position `a` to position `b`, where it stops if it says so. -/
structure Placed (cs : List Char) (a : Nat) (t : Token) (b : Nat) : Prop where
  index : t.index = some a
  start : t.span.start = some a
  stop : ∀ e ∈ t.span.stop, e = b
  lt : a < b
  isPosition_start : IsPosition cs a
  isPosition_stop : IsPosition cs b
  bracketed : t.Bracketed cs

/-- The tokens of a forest lie one behind the other between positions `a` and `b`, and the parts of
each lie within it in the same way. A bound that was left out lies nowhere. -/
inductive Arranged (cs : List Char) : Nat → List Token → Nat → Prop
  | nil {a b : Nat} : a ≤ b → Arranged cs a [] b
  | unbounded {a b : Nat} {ts : List Token} : Arranged cs a ts b →
      Arranged cs a (.unbounded :: ts) b
  | cons {a s m b : Nat} {t : Token} {ts : List Token} : a ≤ s → Placed cs s t m →
      Arranged cs s t.kind.parts m → Arranged cs m ts b → Arranged cs a (t :: ts) b

/-- A token and its parts lie between positions `a` and `b`. -/
def Lies (cs : List Char) (a : Nat) (t : Token) (b : Nat) : Prop :=
  Placed cs a t b ∧ Arranged cs a t.kind.parts b

/-- The tokens lie side by side from position `a` to position `b`, as do the items of groups. Behind
a group that was left open a character may be left out. -/
inductive Laid (cs : List Char) : Nat → List Token → Nat → Prop
  | nil {a : Nat} : IsPosition cs a → Laid cs a [] a
  | token {a b c : Nat} {t : Token} {ts : List Token} : Lies cs a t b → t.span.stop = some b →
      t.isGroup = false → (t.isSpace = true → BlankBetween cs a b) → Laid cs b ts c →
      Laid cs a (t :: ts) c
  | group {a q c : Nat} {items ts : List Token} {flagged : Bool} : Stretch cs a (a + 1) ['('] →
      Laid cs (a + 1) items q → Stretch cs q (q + 1) [')'] → Laid cs (q + 1) ts c →
      Laid cs a (⟨.group items, some a, ⟨some a, some (q + 1)⟩, flagged⟩ :: ts) c
  | unclosedGroup {a q r c : Nat} {items ts : List Token} {flagged : Bool} :
      Stretch cs a (a + 1) ['('] → Laid cs (a + 1) items q → q ≤ r → Laid cs r ts c →
      Laid cs a (⟨.unclosedGroup items, some a, ⟨some a, none⟩, flagged⟩ :: ts) c

section

variable {cs : List Char} {a b c : Nat} {t : Token} {ts us : List Token}

/-- Only groups need parentheses. -/
theorem Token.bracketed_of_not_isGroup (h : t.isGroup = false) : t.Bracketed cs := by
  obtain ⟨kind, index, span, flagged⟩ := t
  cases kind with
  | group | unclosedGroup => cases h
  | _ => trivial

/-- A token without parts lies where it is placed. -/
theorem Placed.lies (h : Placed cs a t b) (hparts : t.kind.parts = []) : Lies cs a t b := by
  refine ⟨h, ?_⟩
  rw [hparts]
  exact .nil h.lt.le

/-- Where a token lies, another one without parts may lie too. -/
theorem Lies.replace {u : Token} (h : Lies cs a t b) (hindex : u.index = t.index)
    (hspan : u.span = t.span) (hparts : u.kind.parts = []) (hgroup : u.isGroup = false) :
    Lies cs a u b := by
  have hplaced : Placed cs a u b :=
    { index := hindex.trans h.1.index
      start := by rw [hspan, h.1.start]
      stop := by rw [hspan]; exact h.1.stop
      lt := h.1.lt
      isPosition_start := h.1.isPosition_start
      isPosition_stop := h.1.isPosition_stop
      bracketed := Token.bracketed_of_not_isGroup hgroup }
  exact hplaced.lies hparts

/-- What is arranged is arranged within wider bounds too. -/
theorem Arranged.mono {a' b' : Nat} (h : Arranged cs a ts b) (ha : a' ≤ a) (hb : b ≤ b') :
    Arranged cs a' ts b' := by
  induction h generalizing a' with
  | nil hle => exact .nil (ha.trans (hle.trans hb))
  | unbounded _ ih => exact .unbounded (ih ha hb)
  | cons hs hplaced hparts _ _ ih => exact .cons (ha.trans hs) hplaced hparts (ih le_rfl hb)

/-- What is arranged one behind the other is arranged together. -/
theorem Arranged.append (h : Arranged cs a ts b) (h' : Arranged cs b us c) :
    Arranged cs a (ts ++ us) c := by
  induction h with
  | nil hle => exact h'.mono hle le_rfl
  | unbounded _ ih => exact .unbounded (ih h')
  | cons hs hplaced hparts _ _ ih => exact .cons hs hplaced hparts (ih h')

/-- A part that may be missing is arranged where it lies. -/
theorem Arranged.ofOption {v? : Option Token} (h : ∀ v ∈ v?.toList, Lies cs a v b) (hle : a ≤ b) :
    Arranged cs a v?.toList b := by
  cases v? with
  | none => exact .nil hle
  | some v =>
    obtain ⟨hplaced, hparts⟩ := h v (.head _)
    exact .cons le_rfl hplaced hparts (.nil le_rfl)

/-- Both ends of tokens that are laid are positions, in this order. -/
theorem Laid.bounds (h : Laid cs a ts b) : IsPosition cs a ∧ IsPosition cs b ∧ a ≤ b := by
  induction h with
  | nil ha => exact ⟨ha, ha, le_rfl⟩
  | token hlies _ _ _ _ ih => exact ⟨hlies.1.isPosition_start, ih.2.1, hlies.1.lt.le.trans ih.2.2⟩
  | group hopen _ _ _ ih₁ ih₂ =>
    exact ⟨hopen.bounds.1, ih₂.2.1, by omega⟩
  | unclosedGroup hopen _ _ _ ih₁ ih₂ =>
    exact ⟨hopen.bounds.1, ih₂.2.1, by omega⟩

/-- The first token of those that are laid starts where they start. -/
theorem Laid.head (h : Laid cs a (t :: ts) b) :
    t.index = some a ∧ t.span.start = some a ∧ a < b := by
  cases h with
  | token hlies _ _ _ hts =>
    exact ⟨hlies.1.index, hlies.1.start, hlies.1.lt.trans_le hts.bounds.2.2⟩
  | group _ hitems _ hts =>
    have h₁ := hitems.bounds.2.2
    have h₂ := hts.bounds.2.2
    exact ⟨rfl, rfl, by omega⟩
  | unclosedGroup _ hitems _ hts =>
    have h₁ := hitems.bounds.2.2
    have h₂ := hts.bounds.2.2
    exact ⟨rfl, rfl, by omega⟩

/-- In front of others, where a token is laid, another one without parts may be laid too. -/
theorem Laid.replace {u : Token} (h : Laid cs a (t :: ts) c) (ht : t.isGroup = false)
    (hindex : u.index = t.index) (hspan : u.span = t.span) (hparts : u.kind.parts = [])
    (hgroup : u.isGroup = false) (hspace : u.isSpace = false)
    (hrest : ∀ b, Laid cs b ts c → Laid cs b us c) : Laid cs a (u :: us) c := by
  cases h with
  | token hlies hstop _ _ hts =>
    refine .token (hlies.replace hindex hspan hparts hgroup) (by rw [hspan, hstop]) hgroup ?_
      (hrest _ hts)
    rw [hspace]
    exact nofun
  | group | unclosedGroup => cases ht

/-- What is laid behind a first token is laid by itself. -/
theorem Laid.tail (h : Laid cs a (t :: ts) c) : ∃ b, Laid cs a [t] b ∧ Laid cs b ts c := by
  cases h with
  | @token _ b _ _ _ hlies hstop hgroup hblank hts =>
    exact ⟨b, .token hlies hstop hgroup hblank (.nil hts.bounds.1), hts⟩
  | @group _ q _ _ _ _ hopen hitems hclose hts =>
    exact ⟨q + 1, .group hopen hitems hclose (.nil hts.bounds.1), hts⟩
  | @unclosedGroup _ _ r _ _ _ _ hopen hitems hle hts =>
    exact ⟨r, .unclosedGroup hopen hitems hle (.nil hts.bounds.1), hts⟩

/-- Tokens that are laid together are laid side by side. -/
theorem Laid.split (h : Laid cs a (ts ++ us) c) : ∃ b, Laid cs a ts b ∧ Laid cs b us c := by
  induction ts generalizing a with
  | nil => exact ⟨a, .nil h.bounds.1, h⟩
  | cons t ts ih =>
    rw [List.cons_append] at h
    cases h with
    | token hlies hstop hgroup hblank hrest =>
      obtain ⟨b, hts, hus⟩ := ih hrest
      exact ⟨b, .token hlies hstop hgroup hblank hts, hus⟩
    | group hopen hitems hclose hrest =>
      obtain ⟨b, hts, hus⟩ := ih hrest
      exact ⟨b, .group hopen hitems hclose hts, hus⟩
    | unclosedGroup hopen hitems hle hrest =>
      obtain ⟨b, hts, hus⟩ := ih hrest
      exact ⟨b, .unclosedGroup hopen hitems hle hts, hus⟩

/-- A single token that is no group lies where it is laid, and stops there. -/
theorem Laid.single (h : Laid cs a [t] b) (hgroup : t.isGroup = false) :
    Lies cs a t b ∧ t.span.stop = some b ∧ (t.isSpace = true → BlankBetween cs a b) := by
  cases h with
  | token hlies hstop _ hblank hnil =>
    cases hnil
    exact ⟨hlies, hstop, hblank⟩
  | group | unclosedGroup => cases hgroup

/-- Tokens that are laid, none of which is a group, are arranged. -/
theorem Laid.arranged (h : Laid cs a ts b) (hgroup : ∀ t ∈ ts, t.isGroup = false) :
    Arranged cs a ts b := by
  induction h with
  | nil => exact .nil le_rfl
  | token hlies _ _ _ _ ih =>
    exact .cons le_rfl hlies.1 hlies.2 (ih fun u hu => hgroup u (.tail _ hu))
  | group | unclosedGroup => cases hgroup _ (.head _)

/-- The stretch of some tokens that are laid stops where they stop, if the last one says so. -/
theorem Laid.stop_over (h : Laid cs a (t :: ts) b) : ∀ e ∈ (Span.over t ts).stop, e = b := by
  induction ts generalizing a t with
  | nil =>
    cases h with
    | token _ hstop _ _ hnil =>
      cases hnil
      intro e he
      rw [Span.over, List.getLast?_nil, Option.getD_none, hstop] at he
      cases he
      rfl
    | group _ _ _ hnil =>
      cases hnil
      rintro e ⟨⟩
      rfl
    | unclosedGroup => exact nofun
  | cons u us ih =>
    obtain ⟨m, -, hus⟩ := h.tail
    have hlast : (Span.over t (u :: us)).stop = (Span.over u us).stop := by
      simp [Span.over, List.getLast?_cons]
    rw [hlast]
    exact ih hus

end

/-! ## Scanned and promoted tokens -/

/-- What is written for a token lies where it is read. -/
theorem Piece.Written.laid {text : List Char} {p q : Nat} {kind : Kind Token}
    {front rest : List Char} {ts : List Token} (h : (Piece.token kind).Written front rest)
    (hp : suffixAt? p text = some (front ++ rest)) (hts : Laid text (p + width front) ts q) :
    Laid text p (.covering kind p (p + width front) :: ts) q := by
  have hpos : 0 < width front := by
    obtain ⟨c, cs, rfl, -⟩ := h.read_eq
    have := c.utf8Size_pos
    rw [Text.width_cons]
    omega
  have hgroup : (Token.covering kind p (p + width front)).isGroup = false := h.isGroup
  have hplaced : Placed text p (.covering kind p (p + width front)) (p + width front) :=
    { index := rfl
      start := rfl
      stop := by rintro e ⟨⟩; rfl
      lt := by omega
      isPosition_start := ⟨_, hp⟩
      isPosition_stop := ⟨_, suffixAt?_add hp⟩
      bracketed := Token.bracketed_of_not_isGroup hgroup }
  refine .token (hplaced.lies h.parts_eq_nil) rfl hgroup ?_ hts
  intro hspace
  cases h with
  | space _ hall => exact ⟨front, ⟨rest, hp, rfl⟩, hall⟩
  | @sign kind _ _ _ hs => cases kind <;> first | cases hspace; done | cases hs
  | _ => cases hspace

/-- The tokens of a run are laid out in the text, up to where the run stops. -/
theorem Scans.laid {p q : Nat} {text cs left : List Char} {ts : List Token}
    (h : Scans p cs ts q left) (hp : Text.suffixAt? p text = some cs) : Laid text p ts q := by
  induction h with
  | stop => exact .nil ⟨_, hp⟩
  | token hw _ ih => exact hw.laid hp (ih (suffixAt?_add hp))
  | @closed p q r cs ds left items ts h₁ h₂ ih₁ ih₂ =>
    have hp₁ := suffixAt?_cons hp
    have hq := h₁.suffixAt? hp₁
    exact .group ⟨cs, hp, rfl⟩ (ih₁ hp₁) ⟨ds, hq, rfl⟩ (ih₂ (suffixAt?_cons hq))
  | @cut p q r d cs ds left items ts h₁ hd h₂ ih₁ ih₂ =>
    have hp₁ := suffixAt?_cons hp
    have hq := h₁.suffixAt? hp₁
    exact .unclosedGroup ⟨cs, hp, rfl⟩ (ih₁ hp₁) (Nat.le_add_right _ _)
      (ih₂ (suffixAt?_cons hq))
  | @unclosed p q cs items h₁ ih₁ =>
    have hp₁ := suffixAt?_cons hp
    have hq := h₁.suffixAt? hp₁
    exact .unclosedGroup ⟨cs, hp, rfl⟩ (ih₁ hp₁) le_rfl (.nil ⟨_, hq⟩)

/-- Promotion leaves tokens where they are laid. -/
theorem Promotes.laid {text : List Char} {a b : Nat} {ts us : List Token} (h : Promotes ts us)
    (hts : Laid text a ts b) : Laid text a us b := by
  induction h generalizing a b with
  | nil => exact hts
  | @dangling mark hmark =>
    refine hts.replace ?_ rfl rfl rfl rfl rfl fun _ hrest => hrest
    exact Token.isGroup_of_isPinMark hmark
  | @pinning mark value ts us hmark hvalue _ ih =>
    have hgroup := Token.isGroup_eq_false (.inl (Token.isFragment_of_isPinnable hvalue))
    obtain ⟨m, hfirst, hrest⟩ := hts.tail
    obtain ⟨n, hsecond, hrest⟩ := hrest.tail
    obtain ⟨hlies, hstop, -⟩ := hfirst.single (Token.isGroup_of_isPinMark hmark)
    obtain ⟨hlies', hstop', -⟩ := hsecond.single hgroup
    have hlt := hlies.1.lt
    have hlt' := hlies'.1.lt
    have hplaced : Placed text a (mark.pinning value) n :=
      { index := hlies.1.index
        start := hlies.1.start
        stop := hlies'.1.stop
        lt := by omega
        isPosition_start := hlies.1.isPosition_start
        isPosition_stop := hlies'.1.isPosition_stop
        bracketed := trivial }
    have hparts : Arranged text a [value] n := .cons hlt.le hlies'.1 hlies'.2 (.nil le_rfl)
    exact .token ⟨hplaced, hparts⟩ hstop' rfl nofun (ih hrest)
  | pinningNothing hmark _ _ ih =>
    refine hts.replace ?_ rfl rfl rfl rfl rfl fun _ hrest => ih hrest
    exact Token.isGroup_of_isPinMark hmark
  | word _ ih =>
    obtain ⟨hgroup, hspace⟩ := Token.isGroup_keyword
    exact hts.replace rfl rfl rfl (parts_keyword _) hgroup hspace fun _ hrest => ih hrest
  | group hkind _ _ ih₁ ih₂ =>
    rcases hkind with rfl | rfl
    · cases hts with
      | token _ _ hgroup => cases hgroup
      | group hopen hitems hclose hrest => exact .group hopen (ih₁ hitems) hclose (ih₂ hrest)
    · cases hts with
      | token _ _ hgroup => cases hgroup
      | unclosedGroup hopen hitems hle hrest =>
        exact .unclosedGroup hopen (ih₁ hitems) hle (ih₂ hrest)
  | settled hsettled _ ih =>
    cases hts with
    | token hlies hstop hgroup hblank hrest => exact .token hlies hstop hgroup hblank (ih hrest)
    | group | unclosedGroup => cases hsettled

end SearchQuery
