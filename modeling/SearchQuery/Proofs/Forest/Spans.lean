import Mathlib
import SearchQuery.Proofs.Forest.Layout
import SearchQuery.Proofs.Forest.Soundness
import SearchQuery.Query

/-!
# The spans of a forest

Every token of a forest knows where it lies. Tokens that are laid in a text stand for tokens that
are arranged in it (`Stands.arranges`): a value or unit lies where the tokens lie that it stands
for, the values of a list lie one behind the other, and the units of a sequence too, with only
blanks between them. `Query.read_spans` draws from this what the spans of a whole query are.
-/

namespace SearchQuery

open Text (IsPosition Stretch)

section

variable {cs : List Char} {a b c : Nat}

/-- What it means that tokens which stand for others are arranged, where the others are laid between
positions `a` and `b`. -/
def Phrase.Arranges (cs : List Char) (a b : Nat) : Phrase → List Token → Prop
  | value, out | unit, out => ∀ v ∈ out, Lies cs a v b
  | items, out => Arranged cs a out b
  | forest, out => Arranged cs a out b ∧ BlankGaps cs (some a) out (some b)

/-- Only blanks stand between a position and itself. -/
theorem BlankBetween.nil (h : IsPosition cs a) : BlankBetween cs a a := ⟨[], .nil h, nofun⟩

/-- Blanks behind blanks are blanks. -/
theorem BlankBetween.append (h : BlankBetween cs a b) (h' : BlankBetween cs b c) :
    BlankBetween cs a c := by
  obtain ⟨part, hpart, hall⟩ := h
  obtain ⟨part', hpart', hall'⟩ := h'
  exact ⟨part ++ part', hpart.append hpart', List.forall_mem_append.mpr ⟨hall, hall'⟩⟩

/-- Gaps may start with more blanks. -/
theorem BlankGaps.blank {ts : List Token} {to? : Option Nat} (h : BlankBetween cs a b)
    (hts : BlankGaps cs (some b) ts to?) : BlankGaps cs (some a) ts to? := by
  cases ts with
  | nil =>
    rintro _ ⟨⟩ d hd
    exact h.append (hts b rfl d hd)
  | cons t ts =>
    refine ⟨?_, hts.2⟩
    rintro _ ⟨⟩ d hd
    exact h.append (hts.1 b rfl d hd)

/-- Gaps that start at a known position are gaps also where it is unknown. -/
theorem BlankGaps.from_unknown {ts : List Token} {from? to? : Option Nat}
    (hts : BlankGaps cs (some b) ts to?) (hfrom : ∀ e ∈ from?, e = b) :
    BlankGaps cs from? ts to? := by
  cases from? with
  | none =>
    cases ts with
    | nil => exact nofun
    | cons t ts => exact ⟨nofun, hts.2⟩
  | some e =>
    obtain rfl := hfrom e rfl
    exact hts

/-- Gaps up to a known position are gaps also where it is unknown. -/
theorem BlankGaps.to_unknown {ts : List Token} {from? to? : Option Nat}
    (hts : BlankGaps cs from? ts to?) : BlankGaps cs from? ts none := by
  induction ts generalizing from? with
  | nil => exact fun _ _ => nofun
  | cons t ts ih => exact ⟨hts.1, ih hts.2⟩

/-- The tokens that were laid for a unit stop where it does. -/
theorem Token.stop?_eq_of_lies {v? : Option Token} (h : ∀ v ∈ v?.toList, Lies cs a v b) :
    ∀ e ∈ Token.stop? v?, e = b := by
  cases v? with
  | none => exact nofun
  | some v => exact (h v (.head _)).1.stop

/-- A token that stands for tokens which are laid lies where they do, if its parts are arranged
there and it is no group. -/
theorem Laid.lies {t first : Token} {rest : List Token}
    (h : Laid cs a (first :: rest) b)
    (hindex : t.index = first.index) (hstart : t.span.start = first.span.start)
    (hstop : ∀ e ∈ t.span.stop, e = b) (hgroup : t.isGroup = false)
    (hparts : Arranged cs a t.kind.parts b) : Lies cs a t b := by
  obtain ⟨hfirst, hfirst', hlt⟩ := h.head
  refine ⟨?_, hparts⟩
  exact
    { index := hindex.trans hfirst
      start := hstart.trans hfirst'
      stop := hstop
      lt := hlt
      isPosition_start := h.bounds.1
      isPosition_stop := h.bounds.2.1
      bracketed := Token.bracketed_of_not_isGroup hgroup }

/-- A part that may be missing is arranged behind the token in front of it, and stops where the
tokens do that it was read from. -/
theorem Laid.arranged_behind {t : Token} {v? : Option Token} {raw : List Token}
    (h : Laid cs a (t :: raw) c) (hv : ∀ {m}, Laid cs m raw c → ∀ v ∈ v?.toList, Lies cs m v c) :
    Arranged cs a v?.toList c ∧ ∀ e ∈ Token.stop? v?, e = c := by
  obtain ⟨m, ht, hraw⟩ := h.tail
  have hparts := Arranged.ofOption (hv hraw) hraw.bounds.2.2
  exact ⟨hparts.mono ht.bounds.2.2 le_rfl, Token.stop?_eq_of_lies (hv hraw)⟩

/-- The values of a list are arranged on both sides of a comma. -/
theorem Laid.arranged_more {comma : Token} {v? : Option Token} {raw raw' vs : List Token}
    (h : Laid cs a (raw ++ comma :: raw') c)
    (hv : ∀ {m}, Laid cs a raw m → ∀ v ∈ v?.toList, Lies cs a v m)
    (hvs : ∀ {m}, Laid cs m raw' c → Arranged cs m vs c) :
    Arranged cs a (v?.toList ++ vs) c := by
  obtain ⟨m, hraw, hrest⟩ := h.split
  obtain ⟨n, hcomma, hraw'⟩ := hrest.tail
  have hfirst := Arranged.ofOption (hv hraw) hraw.bounds.2.2
  exact hfirst.append ((hvs hraw').mono hcomma.bounds.2.2 le_rfl)

/-- A range lies where its lower bound starts and where the tokens behind that stop. -/
theorem Laid.lies_range {v first : Token} {upper? : Option Token} {stop? : Option Nat}
    {others raw : List Token} (h : Laid cs a (first :: others ++ raw) c)
    (hv : ∀ {m}, Laid cs a (first :: others) m → Lies cs a v m)
    (hupper : ∀ {m}, Laid cs m raw c → Arranged cs m upper?.toList c ∧ ∀ e ∈ stop?, e = c) :
    Lies cs a ⟨.range v upper?, v.index, ⟨v.span.start, stop?⟩, false⟩ c := by
  obtain ⟨m, hlower, hraw⟩ := h.split
  obtain ⟨hindex, hstart, -⟩ := h.head
  obtain ⟨hplaced, hinside⟩ := hv hlower
  obtain ⟨hbehind, hstop⟩ := hupper hraw
  have hparts : Arranged cs a (v :: upper?.toList) c := .cons le_rfl hplaced hinside hbehind
  exact h.lies (hplaced.index.trans hindex.symm) (hplaced.start.trans hstart.symm) hstop rfl hparts

/-- A group lies where it is laid if its units are arranged with only blanks between them. -/
theorem Laid.lies_group {kind : List Token → Kind Token} {items forest : List Token}
    {index : Option Nat} {span : Span} {flagged : Bool}
    (hkind : kind = .group ∨ kind = .unclosedGroup)
    (h : Laid cs a [⟨kind items, index, span, flagged⟩] b)
    (hforest : ∀ {m n}, Laid cs m items n →
      Arranged cs m forest n ∧ BlankGaps cs (some m) forest (some n)) :
    Lies cs a ⟨kind forest, index, span, flagged⟩ b := by
  rcases hkind with rfl | rfl
  · cases h with
    | token _ _ hgroup => cases hgroup
    | @group _ q _ _ _ _ hopen hitems hclose hnil =>
      cases hnil
      obtain ⟨harranged, hgaps⟩ := hforest hitems
      have hle := hitems.bounds.2.2
      refine ⟨?_, harranged.mono (Nat.le_add_right _ _) (Nat.le_add_right _ _)⟩
      exact
        { index := rfl
          start := rfl
          stop := by rintro e ⟨⟩; rfl
          lt := by omega
          isPosition_start := hopen.bounds.1
          isPosition_stop := hclose.bounds.2.1
          bracketed := ⟨a, q, rfl, hopen, hclose, hgaps⟩ }
  · cases h with
    | token _ _ hgroup => cases hgroup
    | unclosedGroup hopen hitems hle' hnil =>
      have hr := hnil.bounds.1
      cases hnil
      obtain ⟨harranged, hgaps⟩ := hforest hitems
      have hle := hitems.bounds.2.2
      refine ⟨?_, harranged.mono (Nat.le_add_right _ _) hle'⟩
      exact
        { index := rfl
          start := rfl
          stop := nofun
          lt := by omega
          isPosition_start := hopen.bounds.1
          isPosition_stop := hr
          bracketed := ⟨a, rfl, hopen, hgaps.to_unknown⟩ }

end

/-- Where tokens are laid, those that they stand for are arranged. -/
theorem Stands.arranges {room : Nat} {phrase : Phrase} {raw out rest : List Token}
    (h : Stands room phrase raw out rest) {cs : List Char} {a b : Nat} (hraw : Laid cs a raw b) :
    phrase.Arranges cs a b out := by
  induction h generalizing a b with
  | noValue | noUnit => exact nofun
  | fragment ht =>
    refine List.forall_mem_singleton.mpr ?_
    exact (hraw.single (Token.isGroup_eq_false (.inl ht))).1
  | whole ht =>
    refine List.forall_mem_singleton.mpr ?_
    exact (hraw.single (Token.isGroup_eq_false (.inr (.inl ht)))).1
  | operator ht =>
    refine List.forall_mem_singleton.mpr ?_
    exact (hraw.single (Token.isGroup_eq_false (.inr (.inr ht)))).1
  | @pattern _ t others _ ht _ hothers =>
    refine List.forall_mem_singleton.mpr ?_
    have hall : ∀ u ∈ t :: others, u.isFragment = true := List.forall_mem_cons.mpr ⟨ht, hothers⟩
    have hparts := hraw.arranged fun u hu => Token.isGroup_eq_false (.inl (hall u hu))
    exact hraw.lies rfl rfl hraw.stop_over rfl hparts
  | group hkind _ ih => exact List.forall_mem_singleton.mpr (hraw.lies_group hkind ih)
  | last _ _ ih => exact .ofOption (ih hraw) hraw.bounds.2.2
  | more _ _ _ ih₁ ih₂ => exact hraw.arranged_more ih₁ ih₂
  | ofValue _ _ ih => exact ih hraw
  | comparison _ _ ih =>
    refine List.forall_mem_singleton.mpr ?_
    obtain ⟨hparts, hstop⟩ := hraw.arranged_behind ih
    exact hraw.lies rfl rfl hstop rfl hparts
  | dots ht =>
    refine List.forall_mem_singleton.mpr ?_
    have hparts : Arranged cs a [.unbounded, .unbounded] b :=
      .unbounded (.unbounded (.nil hraw.bounds.2.2))
    exact hraw.lies rfl rfl hraw.stop_over rfl hparts
  | rangeTo _ _ _ ih =>
    refine List.forall_mem_singleton.mpr ?_
    obtain ⟨hparts, hstop⟩ := hraw.arranged_behind ih
    exact hraw.lies rfl rfl hstop rfl (.unbounded hparts)
  | rangeFrom hv _ _ _ ih =>
    refine List.forall_mem_singleton.mpr ?_
    obtain ⟨first, others, rfl, -⟩ := hv.value_cons
    refine hraw.lies_range (fun hlower => ih hlower _ (.head _)) ?_
    intro m hdots
    exact ⟨.unbounded (.nil hdots.bounds.2.2), hdots.stop_over⟩
  | range hv _ _ _ _ ih₁ ih₂ =>
    refine List.forall_mem_singleton.mpr ?_
    obtain ⟨first, others, rfl, -⟩ := hv.value_cons
    refine hraw.lies_range (fun hlower => ih₁ hlower _ (.head _)) ?_
    intro m hupper
    exact hupper.arranged_behind ih₂
  | @pair _ key? v? colon _ _ hkey _ _ ih =>
    refine List.forall_mem_singleton.mpr ?_
    obtain ⟨m, hkeys, hrest⟩ := hraw.split
    have hk := hkeys.arranged fun u hu => Token.isGroup_eq_false
      (.inl (Token.isFragment_of_isPinnable (hkey u (Option.mem_toList.mp hu))))
    obtain ⟨hv, hstop⟩ := hrest.arranged_behind ih
    have hparts : Arranged cs a (Kind.ofPair key? v?).parts b := by
      rw [Kind.parts_ofPair]
      exact hk.append hv
    have hgroup : ∀ index span, (⟨Kind.ofPair key? v?, index, span, false⟩ : Token).isGroup =
        false := by
      cases key? <;> cases v? <;> exact fun _ _ => rfl
    cases key? with
    | none => exact hraw.lies rfl rfl hstop (hgroup _ _) hparts
    | some key => exact hraw.lies rfl rfl hstop (hgroup _ _) hparts
  | list _ _ _ _ heq ih₁ ih₂ =>
    refine List.forall_mem_singleton.mpr ?_
    have hlist := hraw
    rw [← heq] at hlist
    exact hraw.lies rfl rfl hraw.stop_over rfl (hlist.arranged_more ih₁ ih₂)
  | done =>
    cases hraw with
    | nil ha =>
      refine ⟨.nil le_rfl, ?_⟩
      rintro _ ⟨⟩ _ ⟨⟩
      exact .nil ha
  | blank ht _ ih =>
    obtain ⟨m, hfirst, hrest⟩ := hraw.tail
    obtain ⟨harranged, hgaps⟩ := ih hrest
    obtain ⟨-, -, hblank⟩ := hfirst.single (Token.isGroup_of_isSpace ht)
    exact ⟨harranged.mono hfirst.bounds.2.2 le_rfl, hgaps.blank (hblank ht)⟩
  | next _ _ _ ih₁ ih₂ =>
    rw [← List.cons_append] at hraw
    obtain ⟨m, hunit, hrest⟩ := hraw.split
    obtain ⟨harranged, hgaps⟩ := ih₂ hrest
    obtain ⟨hplaced, hinside⟩ := ih₁ hunit _ (.head _)
    refine ⟨.cons le_rfl hplaced hinside harranged, ?_, hgaps.from_unknown hplaced.stop⟩
    rintro _ ⟨⟩ e he
    rw [hplaced.start] at he
    cases he
    exact .nil hplaced.isPosition_start

/-! ## The spans of a query -/

/-- A token lies within another one, as far as their ends are known. -/
def Token.Within (p t : Token) : Prop :=
  (∀ s ∈ p.span.start, ∀ s' ∈ t.span.start, s' ≤ s) ∧
    ∀ e ∈ p.span.stop, ∀ e' ∈ t.span.stop, e ≤ e'

/-- A token, with all that it contains, lies in front of another one. -/
def Token.Before (t u : Token) : Prop :=
  ∀ s ∈ u.span.start, ∀ d ∈ t.preorder,
    (∀ s' ∈ d.span.start, s' < s) ∧ ∀ e ∈ d.span.stop, e ≤ s

/-- A token is known by the position at which it starts, in front of the position `stop`, and ends
behind it, if it has an end. All that it contains lies within it, its parts lie one in front of the
other, and if it is a group, it has its parentheses and only blanks between its units. -/
structure Token.Exact (cs : List Char) (stop : Nat) (t : Token) : Prop where
  placed : ∃ s, t.index = some s ∧ t.span.start = some s ∧ IsPosition cs s ∧ s < stop ∧
    ∀ e ∈ t.span.stop, s < e ∧ e ≤ stop ∧ IsPosition cs e
  within : ∀ p ∈ preorderAll t.kind.parts, p.Within t
  ordered : t.kind.parts.Pairwise Token.Before
  bracketed : t.Bracketed cs

section

variable {cs : List Char} {a b : Nat}

/-- Bounds between which tokens are arranged are in order. -/
theorem Arranged.le {ts : List Token} (h : Arranged cs a ts b) : a ≤ b := by
  induction h with
  | nil hle => exact hle
  | unbounded _ ih => exact ih
  | cons hs hplaced _ _ _ ih => exact hs.trans (hplaced.lt.le.trans ih)

/-- Every token of a forest that is arranged lies somewhere in it, unless it is a bound that was
left out. -/
theorem Arranged.exists_lies {ts : List Token} (h : Arranged cs a ts b) :
    ∀ d ∈ preorderAll ts, d = .unbounded ∨ ∃ s m, a ≤ s ∧ m ≤ b ∧ Lies cs s d m := by
  induction h with
  | nil => exact nofun
  | unbounded _ ih => exact forall_mem_preorderAll_cons.mpr ⟨.inl rfl, nofun, ih⟩
  | @cons a s m b t ts hs hplaced hparts hrest ih₁ ih₂ =>
    have hlt := hplaced.lt
    have hle := hrest.le
    refine forall_mem_preorderAll_cons.mpr ⟨.inr ⟨s, m, hs, hle, hplaced, hparts⟩, ?_, ?_⟩
    · intro d hd
      refine (ih₁ d hd).imp_right ?_
      rintro ⟨s', m', hs', hm', hlies⟩
      exact ⟨s', m', hs.trans hs', hm'.trans hle, hlies⟩
    · intro d hd
      refine (ih₂ d hd).imp_right ?_
      rintro ⟨s', m', hs', hm', hlies⟩
      exact ⟨s', m', by omega, hm', hlies⟩

/-- A token that lies somewhere, and all that it contains, has only positions from there. -/
theorem Lies.mem_preorder {t d : Token} (h : Lies cs a t b) (hd : d ∈ t.preorder) :
    (∀ s ∈ d.span.start, a ≤ s ∧ s < b) ∧ ∀ e ∈ d.span.stop, e ≤ b := by
  have hforest : Arranged cs a [t] b := .cons le_rfl h.1 h.2 (.nil le_rfl)
  have hmem : d ∈ preorderAll [t] := by
    rw [preorderAll]
    exact List.mem_append_left _ hd
  rcases hforest.exists_lies d hmem with rfl | ⟨s, m, hs, hm, hplaced, -⟩
  · constructor <;> rintro _ ⟨⟩
  · have hlt := hplaced.lt
    refine ⟨?_, ?_⟩
    · intro s' hs'
      rw [hplaced.start] at hs'
      cases hs'
      omega
    · intro e he
      rw [hplaced.stop e he]
      exact hm

/-- Tokens that are arranged lie one in front of the other. -/
theorem Arranged.pairwise_before {ts : List Token} (h : Arranged cs a ts b) :
    ts.Pairwise Token.Before := by
  induction h with
  | nil => exact .nil
  | @unbounded a b ts _ ih =>
    refine .cons ?_ ih
    intro u _ s _ d hd
    rw [Token.preorder_eq] at hd
    obtain rfl := List.mem_singleton.mp hd
    exact ⟨nofun, nofun⟩
  | @cons a s m b t ts _ hplaced hparts hrest _ ih =>
    refine .cons ?_ ih
    intro u hu s' hs' d hd
    rcases hrest.exists_lies u (mem_preorderAll hu) with rfl | ⟨s'', m', hs'', -, hplaced', -⟩
    · cases hs'
    · rw [hplaced'.start] at hs'
      cases hs'
      obtain ⟨hstart, hstop⟩ := Lies.mem_preorder ⟨hplaced, hparts⟩ hd
      refine ⟨?_, ?_⟩
      · intro e he
        have := (hstart e he).2
        omega
      · intro e he
        have := hstop e he
        omega

/-- A token that lies somewhere has exact spans. -/
theorem Lies.exact {t : Token} {stop : Nat} (h : Lies cs a t b) (hb : b ≤ stop) :
    t.Exact cs stop := by
  have hlt := h.1.lt
  refine ⟨⟨a, h.1.index, h.1.start, h.1.isPosition_start, by omega, ?_⟩, ?_, ?_, h.1.bracketed⟩
  · intro e he
    obtain rfl := h.1.stop e he
    exact ⟨hlt, hb, h.1.isPosition_stop⟩
  · intro p hp
    have hmem : p ∈ t.preorder := by
      rw [Token.preorder_eq, ← preorderAll_eq_flatMap]
      exact .tail _ hp
    obtain ⟨hstart, hstop⟩ := h.mem_preorder hmem
    refine ⟨?_, ?_⟩
    · intro s hs s' hs'
      rw [h.1.start] at hs'
      cases hs'
      exact (hstart s hs).1
    · intro e he e' he'
      rw [h.1.stop e' he']
      exact hstop e he
  · exact h.2.pairwise_before

end

/-- The spans of a forest are exact. Every token at any depth, bounds that were left out excepted,
is known by the position at which it starts, and its span and those of all that it contains fit
into each other. The trees of the forest lie one in front of the other, and in the text that was
read there is nothing but blanks in front of them, between them and behind them, as far as their
ends are known; the same goes for the units of every group. -/
theorem Query.read_spans {limit : Nat} {text : String} {query : Query}
    (h : Query.read limit text = .ok query) :
    (∀ t ∈ preorderAll query.forest, t.kind ≠ .unbounded → t.Exact text.toList query.stop) ∧
      query.forest.Pairwise Token.Before ∧
      BlankGaps text.toList (some 0) query.forest (some query.stop) := by
  obtain ⟨scan, hscan, h⟩ := exists_of_bind_eq_ok h
  obtain ⟨forest, hforest, h⟩ := exists_of_bind_eq_ok h
  cases h
  rw [Scan.ofText_eq] at hscan
  obtain ⟨left, hs, -⟩ := Scan.exists_scans_of_ofChars hscan
  have hlaid := (promotes scan.tokens).laid (hs.laid (Text.suffixAt?_zero _))
  obtain ⟨harranged, hgaps⟩ := (forestOf_eq_ok_iff.mp hforest).arranges hlaid
  refine ⟨?_, harranged.pairwise_before, hgaps⟩
  intro t ht hkind
  rcases harranged.exists_lies t ht with rfl | ⟨s, m, -, hm, hlies⟩
  · exact absurd rfl hkind
  · exact hlies.exact hm

/-- The law where a character of two bytes leaves a group open behind a range without an upper
bound, and a closing parenthesis ends the reading behind a pair. -/
theorem Query.read_spans_cut : ∃ query, Query.read 1 "(a..§ \"é\":,x )" = .ok query ∧
    query.forest = [
      .cutOff [.covering (.range (.covering (.word "a") 1 2) (some .unbounded)) 1 4] 0,
      .covering (.pair (.covering (.quoted "é") 7 11)
        (.covering (.list [.covering (.word "x") 13 14]) 12 14)) 7 14] ∧
    (∀ t ∈ preorderAll query.forest, t.kind ≠ .unbounded →
      t.Exact "(a..§ \"é\":,x )".toList query.stop) ∧
    query.forest.Pairwise Token.Before ∧
    BlankGaps "(a..§ \"é\":,x )".toList (some 0) query.forest (some query.stop) := by
  have hread : Query.read 1 "(a..§ \"é\":,x )" = .ok ⟨
      [.cutOff [.covering (.word "a") 1 2, .covering .dots 2 4] 0, .covering (.space " ") 6 7,
        .covering (.quoted "é") 7 11, .covering .colon 11 12, .covering .comma 12 13,
        .covering (.word "x") 13 14, .covering (.space " ") 14 15],
      [.cutOff [.covering (.range (.covering (.word "a") 1 2) (some .unbounded)) 1 4] 0,
        .covering (.pair (.covering (.quoted "é") 7 11)
          (.covering (.list [.covering (.word "x") 13 14]) 12 14)) 7 14], 0, 15, 16⟩ := by cbv
  exact ⟨_, hread, rfl, Query.read_spans hread⟩

end SearchQuery
