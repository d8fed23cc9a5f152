import SearchQuery.Proofs.Canonical.Scanning
import SearchQuery.Proofs.Forest.Derivation

/-!
# Reading back what is written

What is written for canonical tokens stands for these tokens again, up to their positions. For each
way of putting canonical tokens together there is one lemma that says so of the whole when it holds
of the parts (`Recovers`): at any position, the characters are scanned as raw tokens, these are
promoted to others, and the others stand for the tokens that were written, with room for as many
levels of nesting as these have. `Token.Canonical.recovers` puts the lemmas together.
-/

namespace SearchQuery

open Text (width isBlank)

/-- What may follow the tokens that are read as a phrase. -/
def Phrase.MayEnd : Phrase → List Token → Prop
  | value, rest => ∀ u ∈ rest.head?, u.isFragment = false
  | items, rest | unit, rest => ∀ u ∈ rest.head?, u.isSpace = true
  | forest, rest => rest = []

/-- The characters `cs`, from position `p` on, are scanned as `raw`, promoted to `us` and read as
`out`, which are the tokens `ts` with other positions. -/
structure Reads (phrase : Phrase) (p : Nat) (cs : List Char) (ts raw us out : List Token) :
    Prop where
  spells : Spells p cs raw
  converts : Converts raw us
  bare : bareAll out = bareAll ts
  stands : ∀ room rest, nestingAll ts ≤ room → phrase.MayEnd rest → Stands room phrase us out rest

/-- Wherever the characters `cs` stand, they are read as the tokens `ts`. -/
def Recovers (phrase : Phrase) (cs : List Char) (ts : List Token) : Prop :=
  ∀ p, ∃ raw us out, Reads phrase p cs ts raw us out

/-- A single token is read as a single token. -/
theorem Recovers.single {phrase : Phrase} {cs : List Char} {t : Token}
    (h : Recovers phrase cs [t]) (p : Nat) :
    ∃ raw us u, Reads phrase p cs [t] raw us [u] ∧ u.bare = t.bare := by
  obtain ⟨raw, us, out, hreads⟩ := h p
  have hlength : out.length = 1 := by
    have := congrArg List.length hreads.bare
    simpa [bareAll_eq_map] using this
  obtain ⟨u, rfl⟩ := List.length_eq_one_iff.mp hlength
  exact ⟨raw, us, u, hreads, (List.cons.inj hreads.bare).1⟩

section

variable {index : Option Nat} {span : Span}

/-! ## Values -/

/-- Fragments that can be written are fragments, and not flagged. -/
theorem Token.Canonical.isFragment {t : Token} (h : Canonical .fragment t) :
    t.isFragment = true ∧ t.flagged = false := by
  cases h <;> exact ⟨rfl, rfl⟩

/-- Fragments mean what they are. -/
theorem Token.Canonical.converts {t : Token} {p q : Nat} {raw us : List Token}
    (h : Canonical .fragment t) (hraw : Converts raw us) :
    Converts (.covering t.kind p q :: raw) (.covering t.kind p q :: us) := by
  cases h with
  | @word word _ _ _ hkeyword =>
    intro ts vs hts
    have hpromotes : Promotes (.covering (.word word) p q :: (raw ++ ts))
        (.covering ((keyword? word).getD (.word word)) p q :: (us ++ vs)) := .word (hraw ts vs hts)
    rw [keyword?_eq_none hkeyword] at hpromotes
    exact hpromotes
  | quoted | wildcard | anyChar => exact .settled rfl hraw

/-- What is written for a fragment other than a word goes on with no word. -/
theorem Token.Canonical.head_not_word {t : Token} (h : Canonical .fragment t)
    (hword : t.isWord = false) : ∃ c ds, t.print = c :: ds ∧ isWordChar c = false := by
  cases h with
  | word => cases hword
  | quoted | wildcard | anyChar =>
    rw [print]
    exact ⟨_, _, rfl, rfl⟩

/-- A fragment is read back. -/
theorem recovers_fragment {t : Token} (h : Token.Canonical .fragment t) :
    Recovers .value t.print [t] := by
  intro p
  obtain ⟨hfragment, hflagged⟩ := h.isFragment
  refine ⟨_, _, [.covering t.kind p (p + width t.print)],
    .single fun rest hrest => h.written fun _ => hrest, h.converts .nil, ?_, ?_⟩
  · obtain ⟨kind, index, span, flagged⟩ := t
    subst hflagged
    rfl
  · intro room rest _ hrest
    exact .fragment hfragment hrest

/-- Fragments side by side are scanned one by one, if no two words meet. -/
theorem exists_fragments {ts : List Token} (h : ∀ t ∈ ts, Token.Canonical .fragment t)
    (hchain : ts.IsChain fun t u => t.isWord = false ∨ u.isWord = false) (p : Nat) :
    ∃ raw, Spells p (printFragments ts) raw ∧ Converts raw raw ∧ bareAll raw = bareAll ts ∧
      ∀ u ∈ raw, u.isFragment = true := by
  induction ts generalizing p with
  | nil => exact ⟨[], .nil p, .nil, rfl, nofun⟩
  | cons t ts ih =>
    have ht := h t (.head _)
    obtain ⟨hfragment, hflagged⟩ := ht.isFragment
    obtain ⟨raw, hspells, hconverts, hbare, hall⟩ :=
      ih (fun u hu => h u (.tail _ hu)) hchain.tail (p + width t.print)
    refine ⟨.covering t.kind p (p + width t.print) :: raw, ?_, ht.converts hconverts, ?_, ?_⟩
    · intro rest us q left hrest hs
      rw [printFragments, List.append_assoc]
      rw [printFragments, Text.width_append, ← Nat.add_assoc] at hs
      refine .token (ht.written ?_) (hspells rest us q left hrest hs)
      intro hword c hc
      -- Behind a word comes a fragment that is none, or what follows the pattern.
      cases ts with
      | nil => exact hrest c hc
      | cons u us =>
        have hnext : u.isWord = false := by
          rcases (List.isChain_cons_cons.mp hchain).1 with hnot | hnext
          · rw [hword] at hnot
            cases hnot
          · exact hnext
        obtain ⟨d, ds, hprint, hd⟩ := (h u (.tail _ (.head _))).head_not_word hnext
        rw [printFragments, hprint] at hc
        cases hc
        exact hd
    · obtain ⟨kind, index, span, flagged⟩ := t
      subst hflagged
      rw [bareAll, bareAll, hbare]
      rfl
    · exact List.forall_mem_cons.mpr ⟨hfragment, hall⟩

/-- A pattern is read back. -/
theorem recovers_pattern {ts : List Token} (hlen : 2 ≤ ts.length)
    (h : ∀ t ∈ ts, Token.Canonical .fragment t)
    (hchain : ts.IsChain fun t u => t.isWord = false ∨ u.isWord = false) :
    Recovers .value (printFragments ts) [⟨.pattern ts, index, span, false⟩] := by
  intro p
  obtain ⟨raw, hspells, hconverts, hbare, hall⟩ := exists_fragments h hchain p
  have hlength : raw.length = ts.length := by
    have := congrArg List.length hbare
    simpa [bareAll_eq_map] using this
  match raw with
  | [] | [_] =>
    simp only [List.length_nil, List.length_singleton] at hlength
    omega
  | t :: u :: us =>
    obtain ⟨ht, hothers⟩ := List.forall_mem_cons.mp hall
    refine ⟨_, _, _, hspells, hconverts, ?_, fun room rest _ hrest =>
      .pattern ht (List.cons_ne_nil _ _) hothers hrest⟩
    simp only [bareAll, Token.bare, Kind.bare] at hbare ⊢
    rw [hbare]

/-- A keyword is read back. -/
theorem recovers_keyword {phrase : Phrase} {word : String} {kind : Kind Token}
    (hword : IsWord word) (hkeyword : keyword? word = some kind)
    (hstands : ∀ room rest p q, Stands room phrase [.covering kind p q] [.covering kind p q] rest) :
    Recovers phrase word.toList [⟨kind, index, span, false⟩] := by
  intro p
  refine ⟨_, [.covering kind p (p + width word.toList)], [.covering kind p (p + width word.toList)],
    .single fun rest hrest => hword.written hrest, ?_, rfl, fun room rest _ _ => hstands _ _ _ _⟩
  intro ts vs hts
  have hpromotes : Promotes (.covering (.word word) p (p + width word.toList) :: ts)
      (.covering ((keyword? word).getD (.word word)) p (p + width word.toList) :: vs) := .word hts
  rw [hkeyword] at hpromotes
  exact hpromotes

/-- A pin is read back, whatever its word spells. -/
theorem recovers_pin {v : Token} (hpinnable : v.isPinnable = true) (hflagged : v.flagged = false)
    (h : ∀ rest, (∀ c ∈ rest.head?, isWordChar c = false) →
      (Piece.token v.kind).Written v.print rest) :
    Recovers .value ('^' :: v.print) [⟨.pin (some v), index, span, false⟩] := by
  intro p
  have hmark : (Kind.pinMark : Kind Token).sign? = some "^" := rfl
  have hspells : Spells p (['^'] ++ v.print) [.covering .pinMark p (p + 1),
      .covering v.kind (p + 1) (p + 1 + width v.print)] :=
    .sign hmark rfl (.single h) (.inl fun _ => rfl)
  have hvalue : (Token.covering v.kind (p + 1) (p + 1 + width v.print)).isPinnable = true :=
    hpinnable
  refine ⟨_, [Token.pinning _ _], [Token.pinning _ _], hspells,
    fun _ _ hts => .pinning rfl hvalue hts, ?_, fun room rest _ _ => .whole rfl⟩
  obtain ⟨kind, index, span, flagged⟩ := v
  subst hflagged
  cases kind with
  | word | quoted => rfl
  | _ => cases hpinnable

/-- A group is read back if its units are. -/
theorem recovers_group {units : List Token} (h : Recovers .forest (printForest units) units) :
    Recovers .value ('(' :: (printForest units ++ [')'])) [⟨.group units, index, span, false⟩] := by
  intro p
  obtain ⟨raw, us, out, hreads⟩ := h (p + 1)
  have hwidth : p + width ('(' :: (printForest units ++ [')'])) =
      p + 1 + width (printForest units) + 1 := by
    have h₁ : '('.utf8Size = 1 := rfl
    have h₂ : ')'.utf8Size = 1 := rfl
    simp only [Text.width_cons, Text.width_append, Text.width_nil, h₁, h₂]
    omega
  have hpromotes : Promotes raw us := by
    simpa using hreads.converts [] [] .nil
  refine ⟨[.covering (.group raw) p (p + 1 + width (printForest units) + 1)],
    [.covering (.group us) p (p + 1 + width (printForest units) + 1)],
    [.covering (.group out) p (p + 1 + width (printForest units) + 1)], ?_, ?_, ?_, ?_⟩
  · intro rest ts q left hrest hs
    rw [hwidth] at hs
    have hclosing : ∀ c ∈ (')' :: rest).head?, isWordChar c = false := by
      rintro c ⟨⟩
      rfl
    have hitems := hreads.spells (')' :: rest) [] _ _ hclosing (.stop (.inl rfl))
    rw [List.append_nil] at hitems
    have hgroup := Scans.closed hitems hs
    simpa using hgroup
  · exact fun _ _ hts => .group (.inl rfl) hpromotes hts
  · simp only [bareAll, Token.bare, Token.covering, Kind.bare, hreads.bare]
  · intro room rest hroom _
    rw [nestingAll_singleton, Token.nesting, Kind.nesting] at hroom
    cases room with
    | zero => cases hroom
    | succ room =>
      exact .group (.inl rfl) (hreads.stands room [] (Nat.le_of_succ_le_succ hroom) rfl)

/-! ## Units -/

/-- Blanks may follow a value. -/
theorem Phrase.mayEnd_of_blank {rest : List Token} (h : ∀ u ∈ rest.head?, u.isSpace = true) :
    Phrase.value.MayEnd rest := fun u hu => (Token.of_isSpace (h u hu)).1

/-- A value is read back as a unit. -/
theorem recovers_value {cs : List Char} {t : Token} (h : Recovers .value cs [t]) :
    Recovers .unit cs [t] := by
  intro p
  obtain ⟨raw, us, u, hreads, -⟩ := h.single p
  refine ⟨raw, us, [u], hreads.spells, hreads.converts, hreads.bare, ?_⟩
  intro room rest hroom hrest
  refine .ofValue (hreads.stands room rest hroom (Phrase.mayEnd_of_blank hrest)) (.inr ⟨?_, ?_⟩)
  · intro w hw
    obtain ⟨-, -, hdots, hcomma, -⟩ := Token.of_isSpace (hrest w hw)
    exact ⟨hdots, hcomma⟩
  · intro _ _ _ w hw
    obtain ⟨-, -, -, -, hcolon⟩ := Token.of_isSpace (hrest w hw)
    exact hcolon

/-- A comparison is read back if its value is. -/
theorem recovers_comparison {op : Comparator} {cs : List Char} {v : Token}
    (h : Recovers .value cs [v]) (hcs : StartsValue cs) :
    Recovers .unit (op.symbol.toList ++ cs) [⟨.comparison op (some v), index, span, false⟩] := by
  intro p
  obtain ⟨raw, us, u, hreads, hbare⟩ := h.single (p + width op.symbol.toList)
  have hsign : (Kind.comparator op : Kind Token).sign? = some op.symbol := rfl
  refine ⟨_, _, [⟨.comparison op (some u), some p, ⟨some p, Token.stop? (some u)⟩, false⟩],
    .sign hsign rfl hreads.spells (.inr hcs), .settled rfl hreads.converts, ?_, ?_⟩
  · simp only [bareAll, Token.bare, Kind.bare, bareOption, hbare]
  · intro room rest hroom hrest
    rw [nestingAll_singleton, Token.nesting, Kind.nesting, nestingOption_eq] at hroom
    have hv : Stands room .value us (some u).toList rest :=
      hreads.stands room rest hroom (Phrase.mayEnd_of_blank hrest)
    exact .comparison rfl hv

/-- What is written for a bound of a range: nothing, if it was left out, or what is read as it. -/
def RecoversBound (cs : List Char) (t : Token) : Prop :=
  cs = [] ∧ t.bare = Token.unbounded.bare ∨ Recovers .value cs [t]

/-- The tokens that a bound is written for are none, or they stand for it. -/
def BoundStands (us : List Token) (u : Token) (depth : Nat) : Prop :=
  us = [] ∧ u = .unbounded ∨
    ∀ room rest, depth ≤ room → Phrase.value.MayEnd rest → Stands room .value us [u] rest

/-- A bound is read back. -/
theorem RecoversBound.reads {cs : List Char} {t : Token} (h : RecoversBound cs t) (p : Nat) :
    ∃ raw us u, Spells p cs raw ∧ Converts raw us ∧ u.bare = t.bare ∧
      BoundStands us u t.nesting := by
  rcases h with ⟨rfl, hbare⟩ | h
  · exact ⟨[], [], .unbounded, .nil p, .nil, hbare.symm, .inl ⟨rfl, rfl⟩⟩
  · obtain ⟨raw, us, u, hreads, hbare⟩ := h.single p
    refine ⟨raw, us, u, hreads.spells, hreads.converts, hbare, .inr ?_⟩
    intro room rest hroom hrest
    rw [← nestingAll_singleton] at hroom
    exact hreads.stands room rest hroom hrest

/-- A value starts with a group only if it is one. -/
theorem Stands.isGroup_head {room : Nat} {raw rest : List Token} {v : Token}
    (h : Stands room .value raw [v] rest) : ∀ u ∈ raw.head?, u.isGroup = v.isGroup := by
  cases h with
  | fragment | whole =>
    rintro u ⟨⟩
    rfl
  | pattern ht =>
    rintro u ⟨⟩
    exact Token.isGroup_eq_false (.inl ht)
  | group hkind =>
    rintro u ⟨⟩
    rcases hkind with rfl | rfl <;> rfl

/-- Forgetting positions makes no group and loses none. -/
theorem Token.isGroup_bare (t : Token) : t.bare.isGroup = t.isGroup := by
  obtain ⟨kind, index, span, flagged⟩ := t
  cases kind <;> rfl

/-- A value does not start with a blank. -/
theorem Stands.value_head {room : Nat} {raw rest : List Token} {v : Token}
    (h : Stands room .value raw [v] rest) (others : List Token) :
    ∃ u ∈ (raw ++ others).head?, u.isSpace = false := by
  obtain ⟨t, ts, rfl, ht, -⟩ := h.value_cons
  refine ⟨t, rfl, ?_⟩
  cases hspace : t.isSpace with
  | false => rfl
  | true =>
    rw [(Token.of_isSpace hspace).2.1] at ht
    cases ht

/-- Dots between two bounds stand for a range. Where it lies depends on which bounds there are. -/
theorem BoundStands.range {us us' : List Token} {t v w : Token} {depth depth' : Nat}
    (hv : BoundStands us v depth) (hgroup : v.isGroup = false) (hw : BoundStands us' w depth')
    (hdots : t.isDots = true) (hflagged : t.flagged = false) :
    ∃ index span, ∀ room rest, depth ≤ room → depth' ≤ room → Phrase.unit.MayEnd rest →
      Stands room .unit (us ++ t :: us') [⟨.range v (some w), index, span, false⟩] rest := by
  have hbehind : ∀ others, Phrase.value.MayEnd (t :: others) := by
    rintro others u ⟨⟩
    simp [Token.isFragment, Token.isDots_iff.mp hdots]
  have hfirst : ∀ {room : Nat} {rest : List Token}, Stands room .value us [v] rest →
      ∀ u ∈ us.head?, u.isGroup = false :=
    fun h u hu => (h.isGroup_head u hu).trans hgroup
  rcases hv with ⟨rfl, rfl⟩ | hv
  · rcases hw with ⟨rfl, rfl⟩ | hw
    · refine ⟨t.index, t.span, ?_⟩
      intro room rest _ _ hrest
      rw [← hflagged]
      exact .dots hdots hrest
    · refine ⟨t.index, ⟨t.span.start, Token.stop? (some w)⟩, ?_⟩
      intro room rest _ hroom hrest
      have hupper : Stands room .value us' (some w).toList rest :=
        hw room rest hroom (Phrase.mayEnd_of_blank hrest)
      exact .rangeTo hdots (hupper.value_head rest) hupper
  · rcases hw with ⟨rfl, rfl⟩ | hw
    · refine ⟨v.index, ⟨v.span.start, t.span.stop⟩, ?_⟩
      intro room rest hroom _ hrest
      have hlower := hv room (t :: rest) hroom (hbehind rest)
      exact .rangeFrom hlower (hfirst hlower) hdots hrest
    · refine ⟨v.index, ⟨v.span.start, Token.stop? (some w)⟩, ?_⟩
      intro room rest hroom hroom' hrest
      have hlower := hv room (t :: (us' ++ rest)) hroom (hbehind _)
      have hupper : Stands room .value us' (some w).toList rest :=
        hw room rest hroom' (Phrase.mayEnd_of_blank hrest)
      exact .range hlower (hfirst hlower) hdots (hupper.value_head rest) hupper

/-- A range is read back if its bounds are. -/
theorem recovers_range {cs ds : List Char} {lower upper : Token} (hlower : RecoversBound cs lower)
    (hgroup : lower.isGroup = false) (hupper : RecoversBound ds upper) :
    Recovers .unit (cs ++ '.' :: '.' :: ds)
      [⟨.range lower (some upper), index, span, false⟩] := by
  intro p
  obtain ⟨raw, us, v, hspells, hconverts, hv, hvalue⟩ := hlower.reads p
  obtain ⟨raw', us', w, hspells', hconverts', hw, hvalue'⟩ := hupper.reads (p + width cs + 2)
  have hdots : (Kind.dots : Kind Token).sign? = some ".." := rfl
  have hsign : Spells (p + width cs) (['.', '.'] ++ ds)
      (.covering .dots (p + width cs) (p + width cs + 2) :: raw') :=
    .sign hdots rfl hspells' (.inl fun _ => rfl)
  have hsettled : (Token.covering .dots (p + width cs) (p + width cs + 2)).isSettled = true := rfl
  have hgroup' : v.isGroup = false := by rw [← v.isGroup_bare, hv, lower.isGroup_bare, hgroup]
  have hisDots : (Token.covering .dots (p + width cs) (p + width cs + 2)).isDots = true := rfl
  obtain ⟨index', span', hstands⟩ := hvalue.range hgroup' hvalue' hisDots rfl
  refine ⟨_, _, [⟨.range v (some w), index', span', false⟩], hspells.append_cons hsign rfl,
    hconverts.append (.settled hsettled hconverts'), ?_, ?_⟩
  · simp only [bareAll, Token.bare, Kind.bare, bareOption, hv, hw]
  · intro room rest hroom hrest
    rw [nestingAll_singleton, Token.nesting, Kind.nesting, nestingOption, Nat.max_le] at hroom
    exact hstands room rest hroom.1 hroom.2 hrest

/-- A comma is scanned in front of anything. -/
theorem Spells.comma {p : Nat} {ds : List Char} {raw : List Token} (h : Spells (p + 1) ds raw) :
    Spells p (',' :: ds) (.covering .comma p (p + 1) :: raw) := by
  have hcomma : (Kind.comma : Kind Token).sign? = some "," := rfl
  have hspells : Spells p ([','] ++ ds) (.covering .comma p (p + 1) :: raw) :=
    .sign hcomma rfl h (.inl fun _ => rfl)
  exact hspells

/-- The values of a list are read back if each of them is. -/
theorem recovers_items {v : Token} {vs : List Token}
    (h : ∀ u ∈ v :: vs, Recovers .value u.print [u]) :
    Recovers .items (v.print ++ printValues vs) (v :: vs) := by
  induction vs generalizing v with
  | nil =>
    intro p
    obtain ⟨raw, us, u, hreads, hbare⟩ := (h v (.head _)).single p
    rw [printValues, List.append_nil]
    refine ⟨raw, us, [u], hreads.spells, hreads.converts, hreads.bare, ?_⟩
    intro room rest hroom hrest
    have hv : Stands room .value us (some u).toList rest :=
      hreads.stands room rest hroom (Phrase.mayEnd_of_blank hrest)
    exact .last hv hrest
  | cons w ws ih =>
    intro p
    obtain ⟨raw, us, u, hreads, hbare⟩ := (h v (.head _)).single p
    obtain ⟨raw', us', out, hreads'⟩ :=
      ih (fun x hx => h x (.tail _ hx)) (p + width v.print + 1)
    have hsettled : (Token.covering .comma (p + width v.print)
      (p + width v.print + 1)).isSettled = true := rfl
    rw [printValues]
    refine ⟨_, _, u :: out, hreads.spells.append_cons hreads'.spells.comma rfl,
      hreads.converts.append (.settled hsettled hreads'.converts), ?_, ?_⟩
    · rw [bareAll, hreads'.bare, hbare]
      rfl
    · intro room rest hroom hrest
      rw [nestingAll, Nat.max_le] at hroom
      have hroom' : nestingAll [v] ≤ room := (nestingAll_singleton v).trans_le hroom.1
      have hbehind : Phrase.value.MayEnd (.covering .comma (p + width v.print)
          (p + width v.print + 1) :: (us' ++ rest)) := by
        rintro x ⟨⟩
        rfl
      have hv : Stands room .value us (some u).toList _ :=
        hreads.stands room _ hroom' hbehind
      exact .more hv rfl (hreads'.stands room rest hroom.2 hrest)

/-- A list is read back if its values are. -/
theorem recovers_list {values : List Token} (h : ∀ v ∈ values, Recovers .value v.print [v]) :
    Recovers .unit (if values.isEmpty then [','] else printValues values)
      [⟨.list values, index, span, false⟩] := by
  intro p
  have hsettled : (Token.covering .comma p (p + 1)).isSettled = true := rfl
  have hnone : ∀ others, ∀ u ∈ (Token.covering .comma p (p + 1) :: others).head?,
      u.startsValue = false := by
    rintro others u ⟨⟩
    rfl
  cases values with
  | nil =>
    refine ⟨_, _, [⟨.list [], some p, ⟨some p, some (p + 1)⟩, false⟩], Spells.comma (.nil _),
      .settled hsettled .nil, rfl, ?_⟩
    intro room rest _ hrest
    have hfirst : Stands room .value [] (none : Option Token).toList
      (.covering .comma p (p + 1) :: ([] ++ rest)) := .noValue (hnone _)
    have hlast : Stands room .items [] (none : Option Token).toList rest :=
      .last (.noValue fun u hu => (Token.of_isSpace (hrest u hu)).2.1) hrest
    exact .list hfirst nofun rfl hlast rfl
  | cons v vs =>
    obtain ⟨raw, us, out, hreads⟩ := recovers_items h (p + 1)
    refine ⟨_, _, [⟨.list out, some p, Span.over (.covering .comma p (p + 1)) us, false⟩],
      hreads.spells.comma, .settled hsettled hreads.converts, ?_, ?_⟩
    · simp only [bareAll, Token.bare, Kind.bare, hreads.bare]
    · intro room rest hroom hrest
      rw [nestingAll_singleton, Token.nesting, Kind.nesting] at hroom
      have hfirst : Stands room .value [] (none : Option Token).toList
        (.covering .comma p (p + 1) :: (us ++ rest)) := .noValue (hnone _)
      exact .list hfirst nofun rfl (hreads.stands room rest hroom hrest) rfl

/-- A pair is read back if its value is, whatever unit that is. -/
theorem recovers_pair {key value : Token} (hkey : key.Canonical .fragment)
    (hpinnable : key.isPinnable = true) (h : Recovers .unit value.print [value]) :
    Recovers .unit (key.print ++ ':' :: value.print) [⟨.pair key value, index, span, false⟩] := by
  intro p
  obtain ⟨raw, us, u, hreads, hbare⟩ := h.single (p + width key.print + 1)
  have hcolon : (Kind.colon : Kind Token).sign? = some ":" := rfl
  have hsign : Spells (p + width key.print) ([':'] ++ value.print)
      (.covering .colon (p + width key.print) (p + width key.print + 1) :: raw) :=
    .sign hcolon rfl hreads.spells (.inl fun _ => rfl)
  have hkeys : Spells p key.print [.covering key.kind p (p + width key.print)] :=
    .single fun rest hrest => hkey.written fun _ => hrest
  have hsettled : (Token.covering .colon (p + width key.print)
    (p + width key.print + 1)).isSettled = true := rfl
  obtain ⟨-, hflagged⟩ := hkey.isFragment
  refine ⟨_, _, [⟨.pair (.covering key.kind p (p + width key.print)) u, some p,
    ⟨some p, Token.stop? (some u)⟩, false⟩], hkeys.append_cons hsign rfl,
    hkey.converts (.settled hsettled hreads.converts), ?_, ?_⟩
  · obtain ⟨kind, _, _, flagged⟩ := key
    subst hflagged
    simp only [bareAll, Token.bare, Kind.bare, hbare, Token.covering]
  · intro room rest hroom hrest
    rw [nestingAll_singleton, Token.nesting, Kind.nesting] at hroom
    cases room with
    | zero => cases hroom
    | succ room =>
      have hparts := Nat.max_le.mp (Nat.le_of_succ_le_succ hroom)
      have hvalue : nestingAll [value] ≤ room := (nestingAll_singleton value).trans_le hparts.2
      have hu : Stands room .unit us (some u).toList rest := hreads.stands room rest hvalue hrest
      have hpinnable' : ∀ k ∈ some (Token.covering key.kind p (p + width key.print)),
          k.isPinnable = true := by
        rintro k ⟨⟩
        exact hpinnable
      have hcolon' : (Token.covering .colon (p + width key.print)
        (p + width key.print + 1)).isColon = true := rfl
      exact .pair hpinnable' hcolon' hu

/-! ## Forests -/

/-- A blank is scanned in front of anything that is not blank. -/
theorem Spells.blank {p : Nat} {ds : List Char} {raw : List Token} (h : Spells (p + 1) ds raw)
    (hds : StartsUnit ds) : Spells p (' ' :: ds) (.covering (.space " ") p (p + 1) :: raw) := by
  intro rest ts q left hrest hs
  have hwidth : p + width (' ' :: ds) = p + 1 + width ds := by
    have h₁ : ' '.utf8Size = 1 := rfl
    rw [Text.width_cons, h₁]
    omega
  rw [hwidth] at hs
  have hwritten : (Piece.token (.space " ")).Written [' '] (ds ++ rest) := by
    have hblank : ∀ c ∈ [' '], isBlank c = true := List.forall_mem_singleton.mpr rfl
    refine .space (List.cons_ne_nil _ _) hblank ?_
    obtain ⟨c, es, rfl, hc⟩ := hds
    rintro d ⟨⟩
    exact hc
  exact .token hwritten (h rest ts q left hrest hs)

/-- A unit does not start with a blank. -/
theorem Stands.unit_head {room : Nat} {raw rest : List Token} {v : Token}
    (h : Stands room .unit raw [v] rest) : ∃ u ∈ raw.head?, u.isSpace = false := by
  cases h with
  | operator ht => exact ⟨_, rfl, Token.isSpace_eq_false (.inr ht)⟩
  | ofValue hv => simpa using hv.value_head []
  | comparison hop => exact ⟨_, rfl, by simp [Token.isSpace, hop]⟩
  | dots ht | rangeTo ht => exact ⟨_, rfl, by simp [Token.isSpace, Token.isDots_iff.mp ht]⟩
  | rangeFrom hv | range hv => exact hv.value_head _
  | @pair _ key? _ _ _ _ hkey hcolon =>
    cases key? with
    | none => exact ⟨_, rfl, by simp [Token.isSpace, Token.isColon_iff.mp hcolon]⟩
    | some key =>
      have hfragment := Token.isFragment_of_isPinnable (hkey key rfl)
      exact ⟨key, rfl, Token.isSpace_eq_false (.inl hfragment)⟩
  | @list _ v? _ _ _ _ _ _ _ hv _ hcomma _ heq =>
    rw [← heq]
    cases v? with
    | none =>
      obtain rfl := hv.value_nil
      exact ⟨_, rfl, by simp [Token.isSpace, Token.isComma_iff.mp hcomma]⟩
    | some v => exact hv.value_head _

/-- A forest starts like its first unit. -/
theorem startsUnit_printForest {t : Token} {ts : List Token} (h : StartsUnit t.print) :
    StartsUnit (printForest (t :: ts)) := by
  cases ts with
  | nil => rwa [printForest]
  | cons u us =>
    rw [printForest]
    exact h.append _

/-- A forest is read back if its units are. -/
theorem recovers_forest {ts : List Token}
    (h : ∀ t ∈ ts, Recovers .unit t.print [t] ∧ StartsUnit t.print) :
    Recovers .forest (printForest ts) ts := by
  induction ts with
  | nil =>
    intro p
    refine ⟨[], [], [], .nil p, .nil, rfl, ?_⟩
    rintro room _ _ rfl
    exact .done
  | cons t ts ih =>
    intro p
    obtain ⟨ht, hts⟩ := List.forall_mem_cons.mp h
    obtain ⟨raw, us, u, hreads, hbare⟩ := ht.1.single p
    cases ts with
    | nil =>
      rw [printForest]
      refine ⟨raw, us, [u], hreads.spells, hreads.converts, hreads.bare, ?_⟩
      rintro room _ hroom rfl
      have hunit := hreads.stands room [] hroom nofun
      obtain ⟨first, hfirst, hspace⟩ := hunit.unit_head
      obtain ⟨others, rfl⟩ := List.head?_eq_some_iff.mp hfirst
      have hforest := Stands.next hunit hspace .done
      rwa [List.append_nil] at hforest
    | cons v vs =>
      obtain ⟨raw', us', out, hreads'⟩ := ih hts (p + width t.print + 1)
      have hblank := hreads'.spells.blank (startsUnit_printForest (hts v (.head _)).2)
      have hsettled : (Token.covering (.space " ") (p + width t.print)
        (p + width t.print + 1)).isSettled = true := rfl
      rw [printForest]
      refine ⟨_, _, u :: out, hreads.spells.append_cons hblank rfl,
        hreads.converts.append (.settled hsettled hreads'.converts), ?_, ?_⟩
      · rw [bareAll, hreads'.bare, hbare]
        rfl
      · rintro room _ hroom rfl
        rw [nestingAll, Nat.max_le] at hroom
        have hroom' : nestingAll [t] ≤ room := (nestingAll_singleton t).trans_le hroom.1
        have hspaces : Phrase.unit.MayEnd (.covering (.space " ") (p + width t.print)
            (p + width t.print + 1) :: us') := by
          rintro x ⟨⟩
          rfl
        have hunit := hreads.stands room _ hroom' hspaces
        obtain ⟨first, hfirst, hspace⟩ := hunit.unit_head
        obtain ⟨others, rfl⟩ := List.head?_eq_some_iff.mp hfirst
        exact .next hunit hspace (.blank rfl (hreads'.stands room [] hroom.2 rfl))

end

/-- What is read where a token was written in some role. -/
def Role.Recovers : Role → Token → Prop
  | fragment, _ => True
  | value, t => SearchQuery.Recovers .value t.print [t]
  | lower, t | upper, t => RecoversBound t.print t
  | unit, t => SearchQuery.Recovers .unit t.print [t]

/-- A lower bound is no group. -/
theorem Token.Canonical.not_isGroup {t : Token} (h : Canonical .lower t) : t.isGroup = false := by
  cases h with
  | noLower => rfl
  | lower _ hgroup => exact hgroup

/-- Every canonical token is read back. -/
theorem Token.Canonical.recovers {role : Role} {t : Token} (h : Canonical role t) :
    role.Recovers t := by
  induction h with
  | word | quoted | wildcard | anyChar => trivial
  | fragment h => exact recovers_fragment h
  | pattern hlen hall hchain =>
    rw [Role.Recovers, print]
    exact recovers_pattern hlen hall hchain
  | null =>
    rw [Role.Recovers, print]
    exact recovers_keyword (.of_all (by decide) rfl) rfl fun _ _ _ _ => .whole rfl
  | pinnedWord hword =>
    rw [Role.Recovers, print]
    refine recovers_pin rfl rfl ?_
    intro rest hrest
    rw [print]
    exact hword.written hrest
  | pinnedQuoted =>
    rw [Role.Recovers, print]
    refine recovers_pin rfl rfl ?_
    intro rest _
    rw [print]
    exact written_quoted _ rest
  | group hunits ih =>
    rw [Role.Recovers, print]
    exact recovers_group (recovers_forest fun t ht => ⟨ih t ht, (hunits t ht).starts⟩)
  | noLower | noUpper =>
    rw [Role.Recovers, print]
    · exact .inl ⟨rfl, rfl⟩
    all_goals simp
  | lower _ _ ih | upper _ ih => exact .inr ih
  | value _ ih => exact recovers_value ih
  | and | or | not =>
    rw [Role.Recovers, print]
    exact recovers_keyword (.of_all (by decide) rfl) rfl fun _ _ _ _ => .operator rfl
  | comparison hv ih =>
    rw [Role.Recovers, print]
    exact recovers_comparison ih hv.starts
  | range hlower _ ih₁ ih₂ =>
    rw [Role.Recovers, print]
    exact recovers_range ih₁ hlower.not_isGroup ih₂
  | list _ ih =>
    rw [Role.Recovers, print]
    exact recovers_list ih
  | pair hkey hpinnable _ _ ih =>
    rw [Role.Recovers, print]
    exact recovers_pair hkey hpinnable ih

end SearchQuery
