import SearchQuery.Forest.Cursor
import SearchQuery.Proofs.Runs
import SearchQuery.Proofs.Token.Class

/-!
# What tokens stand for

The readers of values, lists, units and sequences call each other, and a level hands its inside to
the level below. `Stands` says in one place what they do: which raw tokens in front of which others
stand for which tokens, one rule for each way of reading. The readers find what tokens stand for
(`Stands.finds`), and whatever they find stands for something, as `Forest.Soundness` shows, so that
a fact about forests is an induction on `Stands`. The rules mention what stands behind the tokens
only where a reader looks that far ahead.
-/

namespace SearchQuery

/-- Where a part that may be missing stops, as far as that is known. -/
def Token.stop? (t? : Option Token) : Option Nat := t?.bind fun t => t.span.stop

/-- What some tokens are read as. -/
inductive Phrase where
  /-- A value, or nothing. -/
  | value
  /-- The values of a list. -/
  | items
  /-- A unit, or nothing. -/
  | unit
  /-- A whole sequence of units. -/
  | forest

/-- `Stands room phrase raw out rest`: read as a phrase, with room for some levels of nesting, the
tokens `raw` in front of the tokens `rest` stand for the tokens `out`. -/
inductive Stands : Nat → Phrase → List Token → List Token → List Token → Prop
  | noValue {room : Nat} {rest : List Token} : (∀ u ∈ rest.head?, u.startsValue = false) →
      Stands room .value [] [] rest
  | fragment {room : Nat} {t : Token} {rest : List Token} : t.isFragment = true →
      (∀ u ∈ rest.head?, u.isFragment = false) → Stands room .value [t] [t] rest
  | pattern {room : Nat} {t : Token} {others rest : List Token} : t.isFragment = true →
      others ≠ [] → (∀ u ∈ others, u.isFragment = true) →
      (∀ u ∈ rest.head?, u.isFragment = false) →
      Stands room .value (t :: others)
        [⟨.pattern (t :: others), t.index, Span.over t others, false⟩] rest
  | whole {room : Nat} {t : Token} {rest : List Token} : t.isWhole = true →
      Stands room .value [t] [t] rest
  | group {room : Nat} {kind : List Token → Kind Token} {items forest rest : List Token}
      {index : Option Nat} {span : Span} {flagged : Bool} :
      kind = .group ∨ kind = .unclosedGroup → Stands room .forest items forest [] →
      Stands (room + 1) .value [⟨kind items, index, span, flagged⟩]
        [⟨kind forest, index, span, flagged⟩] rest
  /-- The last value of a list, if there is one, in front of blanks or the end. -/
  | last {room : Nat} {v? : Option Token} {raw rest : List Token} :
      Stands room .value raw v?.toList rest → (∀ u ∈ rest.head?, u.isSpace = true) →
      Stands room .items raw v?.toList rest
  /-- A value of a list, if there is one, with a comma behind it. -/
  | more {room : Nat} {v? : Option Token} {comma : Token} {raw raw' vs rest : List Token} :
      Stands room .value raw v?.toList (comma :: (raw' ++ rest)) → comma.isComma = true →
      Stands room .items raw' vs rest →
      Stands room .items (raw ++ comma :: raw') (v?.toList ++ vs) rest
  | noUnit {room : Nat} {rest : List Token} : (∀ u ∈ rest.head?, u.startsUnit = false) →
      Stands room .unit [] [] rest
  | operator {room : Nat} {t : Token} {rest : List Token} : t.isOperator = true →
      Stands room .unit [t] [t] rest
  /-- A value by itself. Nothing may follow that would make it a part of something else, unless it
  is a group. -/
  | ofValue {room : Nat} {v : Token} {raw rest : List Token} : Stands room .value raw [v] rest →
      (∃ t ∈ raw.head?, t.isGroup = true) ∨
        (∀ u ∈ rest.head?, u.isDots = false ∧ u.isComma = false) ∧
        (∀ t, raw = [t] → t.isPinnable = true → ∀ u ∈ rest.head?, u.isColon = false) →
      Stands room .unit raw [v] rest
  | comparison {room : Nat} {op : Comparator} {t : Token} {v? : Option Token}
      {raw rest : List Token} : t.kind = .comparator op → Stands room .value raw v?.toList rest →
      Stands room .unit (t :: raw)
        [⟨.comparison op v?, t.index, ⟨t.span.start, Token.stop? v?⟩, false⟩] rest
  /-- A range with both bounds left out. -/
  | dots {room : Nat} {t : Token} {rest : List Token} : t.isDots = true →
      (∀ u ∈ rest.head?, u.isSpace = true) →
      Stands room .unit [t]
        [⟨.range .unbounded (some .unbounded), t.index, t.span, t.flagged⟩] rest
  /-- A range with its lower bound left out. -/
  | rangeTo {room : Nat} {t : Token} {v? : Option Token} {raw rest : List Token} :
      t.isDots = true → (∃ u ∈ (raw ++ rest).head?, u.isSpace = false) →
      Stands room .value raw v?.toList rest →
      Stands room .unit (t :: raw)
        [⟨.range .unbounded v?, t.index, ⟨t.span.start, Token.stop? v?⟩, false⟩] rest
  /-- A range with its upper bound left out. -/
  | rangeFrom {room : Nat} {t v : Token} {raw rest : List Token} :
      Stands room .value raw [v] (t :: rest) → (∀ u ∈ raw.head?, u.isGroup = false) →
      t.isDots = true → (∀ u ∈ rest.head?, u.isSpace = true) →
      Stands room .unit (raw ++ [t])
        [⟨.range v (some .unbounded), v.index, ⟨v.span.start, t.span.stop⟩, false⟩] rest
  | range {room : Nat} {t v : Token} {w? : Option Token} {raw raw' rest : List Token} :
      Stands room .value raw [v] (t :: (raw' ++ rest)) → (∀ u ∈ raw.head?, u.isGroup = false) →
      t.isDots = true → (∃ u ∈ (raw' ++ rest).head?, u.isSpace = false) →
      Stands room .value raw' w?.toList rest →
      Stands room .unit (raw ++ t :: raw')
        [⟨.range v w?, v.index, ⟨v.span.start, Token.stop? w?⟩, false⟩] rest
  | pair {room : Nat} {key? v? : Option Token} {colon : Token} {raw rest : List Token} :
      (∀ key ∈ key?, key.isPinnable = true) → colon.isColon = true →
      Stands room .unit raw v?.toList rest →
      Stands (room + 1) .unit (key?.toList ++ colon :: raw)
        [⟨Kind.ofPair key? v?, (key?.getD colon).index,
          ⟨(key?.getD colon).span.start, Token.stop? v?⟩, false⟩] rest
  /-- A list, which starts with a value or with its first comma. -/
  | list {room : Nat} {v? : Option Token} {comma first : Token}
      {raw raw' vs others rest : List Token} :
      Stands room .value raw v?.toList (comma :: (raw' ++ rest)) →
      (∀ u ∈ raw.head?, u.isGroup = false) → comma.isComma = true →
      Stands room .items raw' vs rest → raw ++ comma :: raw' = first :: others →
      Stands room .unit (first :: others)
        [⟨.list (v?.toList ++ vs), first.index, Span.over first others, false⟩] rest
  | done {room : Nat} : Stands room .forest [] [] []
  | blank {room : Nat} {t : Token} {ts us : List Token} : t.isSpace = true →
      Stands room .forest ts us [] → Stands room .forest (t :: ts) us []
  | next {room : Nat} {t u : Token} {raw rest us : List Token} :
      Stands room .unit (t :: raw) [u] rest → t.isSpace = false → Stands room .forest rest us [] →
      Stands room .forest (t :: (raw ++ rest)) (u :: us) []

/-! ## What the readers find -/

/-- What was found where the tokens `raw` stand for `out`, which is one token or nothing. -/
def Found.of (raw out : List Token) : Option Found := out.head?.map fun t => ⟨t, raw.length - 1⟩

namespace Level

/-- No value is found in front of tokens that none can start with. -/
theorem value_eq_none {level : Level} {ts : List Token}
    (h : ∀ u ∈ ts.head?, u.startsValue = false) : level.value ts = .ok none := by
  cases ts with
  | nil => rfl
  | cons t ts =>
    have ht := h t rfl
    obtain ⟨kind, index, span, flagged⟩ := t
    cases kind <;> first | rfl | cases ht

/-- A token that is a value as it is. -/
theorem value_whole {level : Level} {t : Token} {ts : List Token} (h : t.isWhole = true) :
    level.value (t :: ts) = .ok (some ⟨t, 0⟩) := by
  obtain ⟨kind, index, span, flagged⟩ := t
  cases kind <;> first | rfl | cases h

/-- A fragment by itself is a value. -/
theorem value_fragment {level : Level} {t : Token} {rest : List Token} (ht : t.isFragment = true)
    (hrest : ∀ u ∈ rest.head?, u.isFragment = false) :
    level.value (t :: rest) = .ok (some ⟨t, 0⟩) := by
  have hrun : rest.takeWhile Token.isFragment = [] := takeWhile_append_eq (l := []) nofun hrest
  rw [value, if_pos ht, Found.ofFragments, hrun]

/-- A run of fragments is found as a whole. -/
theorem value_pattern {level : Level} {t : Token} {others rest : List Token}
    (ht : t.isFragment = true) (hne : others ≠ []) (hothers : ∀ u ∈ others, u.isFragment = true)
    (hrest : ∀ u ∈ rest.head?, u.isFragment = false) :
    level.value (t :: (others ++ rest)) = .ok (some
      ⟨⟨.pattern (t :: others), t.index, Span.over t others, false⟩, others.length⟩) := by
  obtain ⟨u, us, rfl⟩ := List.exists_cons_of_ne_nil hne
  rw [value, if_pos ht, Found.ofFragments, takeWhile_append_eq hothers hrest]

/-- A group is found with the units that its items consist of. -/
theorem value_group {level : Level} {unit : Reader} {kind : List Token → Kind Token}
    {items forest rest : List Token} {index : Option Nat} {span : Span} {flagged : Bool}
    (hkind : kind = .group ∨ kind = .unclosedGroup) (hdeeper : level.deeper? = some unit)
    (h : sequence unit items = .ok forest) :
    level.value (⟨kind items, index, span, flagged⟩ :: rest) =
      .ok (some ⟨⟨kind forest, index, span, flagged⟩, 0⟩) := by
  rcases hkind with rfl | rfl
  all_goals
    simp only [value, Token.isFragment, readGroup, enter, hdeeper, Bool.false_eq_true, if_false]
    simp only [bind, Except.bind, h]

/-- No unit is found in front of tokens that none can start with. -/
theorem unit_eq_none {level : Level} {ts : List Token}
    (h : ∀ u ∈ ts.head?, u.startsUnit = false) : level.unit ts = .ok none := by
  cases ts with
  | nil => rfl
  | cons t ts =>
    have ht := h t rfl
    obtain ⟨kind, index, span, flagged⟩ := t
    cases kind <;> first | rfl | cases ht

/-- An operator is a unit as it is. -/
theorem unit_operator {level : Level} {t : Token} {ts : List Token} (h : t.isOperator = true) :
    level.unit (t :: ts) = .ok (some ⟨t, 0⟩) := by
  obtain ⟨kind, index, span, flagged⟩ := t
  cases kind <;> first | rfl | cases h

/-- Every unit that starts like a value, and is neither a group nor a pair, starts with a value. -/
theorem unit_eq_operand {level : Level} {t : Token} {ts : List Token}
    (ht : t.startsValue = true) (hgroup : t.isGroup = false)
    (hcolon : t.isPinnable = true → ∀ u ∈ ts.head?, u.isColon = false) :
    level.unit (t :: ts) = level.operand t ts := by
  obtain ⟨kind, index, span, flagged⟩ := t
  cases kind
  case word | quoted =>
    cases ts with
    | nil => rfl
    | cons u us => simp [unit, hcolon rfl u rfl]
  case group | unclosedGroup => cases hgroup
  all_goals first | rfl | cases ht

/-- A list is its first value, if there is one, and what it is read on with behind that. -/
theorem items_eq_bind (level : Level) (ts : List Token) :
    level.items ts = (do
      let found? ← level.value ts
      match ts.drop (Found.used found?) with
      | [] => .ok ⟨(Found.token? found?).toList, Found.used found?⟩
      | next :: rest =>
        if next.isSpace then .ok ⟨(Found.token? found?).toList, Found.used found?⟩
        else if next.isComma then do
          let others ← level.items rest
          .ok ⟨(Found.token? found?).toList ++ others.tokens, Found.used found? + 1 + others.used⟩
        else .error (.unterminatedList next.kind.name next.offset)) := by
  cases ts with
  | nil => rw [items]; rfl
  | cons t ts =>
    rw [items]
    cases level.value (t :: ts) with
    | error fault => rfl
    | ok found? =>
      simp only [bind, Except.bind]
      split <;> rename_i hdrop <;> rw [hdrop]

/-- A list is read on behind what has been found of it. -/
theorem items_eq {level : Level} {found? : Option Found} {raw rest : List Token}
    (h : level.value (raw ++ rest) = .ok found?) (hused : Found.used found? = raw.length) :
    level.items (raw ++ rest) = match rest with
      | [] => .ok ⟨(Found.token? found?).toList, raw.length⟩
      | next :: rest =>
        if next.isSpace then .ok ⟨(Found.token? found?).toList, raw.length⟩
        else if next.isComma then do
          let others ← level.items rest
          .ok ⟨(Found.token? found?).toList ++ others.tokens, raw.length + 1 + others.used⟩
        else .error (.unterminatedList next.kind.name next.offset) := by
  rw [items_eq_bind, h]
  simp only [bind, Except.bind, hused, List.drop_left]
  cases rest <;> rfl

/-- Behind a comma a list is read on. -/
theorem items_more {level : Level} {found? : Option Found} {items : Items} {comma : Token}
    {raw raw' rest : List Token}
    (hvalue : level.value (raw ++ comma :: (raw' ++ rest)) = .ok found?)
    (hused : Found.used found? = raw.length) (hcomma : comma.isComma = true)
    (hitems : level.items (raw' ++ rest) = .ok items) :
    level.items (raw ++ comma :: raw' ++ rest) =
      .ok ⟨(Found.token? found?).toList ++ items.tokens, raw.length + 1 + items.used⟩ := by
  have hspace : comma.isSpace = false := by simp [Token.isSpace, Token.isComma_iff.mp hcomma]
  rw [List.append_assoc, List.cons_append, items_eq hvalue hused]
  simp [hspace, hcomma, hitems, bind, Except.bind]

theorem unit_comparator {level : Level} {op : Comparator} {t : Token} {ts : List Token}
    (h : t.kind = .comparator op) : level.unit (t :: ts) = level.comparison op t ts := by
  simp only [unit, h]

theorem unit_dots {level : Level} {t : Token} {ts : List Token} (h : t.isDots = true) :
    level.unit (t :: ts) = level.openRange t ts := by
  simp only [unit, Token.isDots_iff.mp h]

theorem unit_comma {level : Level} {t : Token} {ts : List Token} (h : t.isComma = true) :
    level.unit (t :: ts) = level.list t ts := by
  simp only [unit, Token.isComma_iff.mp h]

/-- A colon makes a pair, with the key in front of it if there is one. -/
theorem unit_colon {level : Level} {key? : Option Token} {colon : Token} {ts : List Token}
    (hkey : ∀ key ∈ key?, key.isPinnable = true) (h : colon.isColon = true) :
    level.unit (key?.toList ++ colon :: ts) = level.pair key? colon ts := by
  cases key? with
  | none => simp only [Option.toList_none, List.nil_append, unit, Token.isColon_iff.mp h]
  | some key =>
    have hkey := hkey key rfl
    obtain ⟨kind, index, span, flagged⟩ := key
    cases kind
    case word | quoted => simp [unit, h]
    all_goals cases hkey

/-- A group by itself is a unit. -/
theorem unit_eq_value {level : Level} {t : Token} {ts : List Token} (h : t.isGroup = true) :
    level.unit (t :: ts) = level.value (t :: ts) := by
  obtain ⟨kind, index, span, flagged⟩ := t
  cases kind <;> first | rfl | cases h

/-- What an operand goes on with depends on the token behind its first value. -/
theorem operand_eq {level : Level} {t v : Token} {raw rest : List Token}
    (h : level.value (t :: (raw ++ rest)) = .ok (some ⟨v, raw.length⟩)) :
    level.operand t (raw ++ rest) = match rest with
      | [] => .ok (some ⟨v, raw.length⟩)
      | next :: rest' =>
        match next.kind with
        | .dots => level.rangeFrom ⟨v, raw.length⟩ next rest'
        | .comma => level.list t (raw ++ rest)
        | _ => .ok (some ⟨v, raw.length⟩) := by
  rw [operand, h]
  simp only [bind, Except.bind, List.drop_left]
  cases rest <;> rfl

/-- Where neither dots nor a comma follow, an operand is its first value. -/
theorem operand_eq_value {level : Level} {t v : Token} {raw rest : List Token}
    (h : level.value (t :: (raw ++ rest)) = .ok (some ⟨v, raw.length⟩))
    (hrest : ∀ u ∈ rest.head?, u.isDots = false ∧ u.isComma = false) :
    level.operand t (raw ++ rest) = .ok (some ⟨v, raw.length⟩) := by
  rw [operand_eq h]
  cases rest with
  | nil => rfl
  | cons u us =>
    obtain ⟨hdots, hcomma⟩ := hrest u rfl
    dsimp only
    split
    · next hkind => simp [Token.isDots, hkind] at hdots
    · next hkind => simp [Token.isComma, hkind] at hcomma
    · rfl

/-- The bound of a range is left out in front of blanks and at the end. -/
theorem upperBound_omitted {level : Level} {rest : List Token}
    (h : ∀ u ∈ rest.head?, u.isSpace = true) : level.upperBound rest = .ok .omitted := by
  cases rest with
  | nil => rfl
  | cons u us => rw [upperBound, if_pos (h u rfl)]

/-- In front of anything else the bound of a range is the value that is found there. -/
theorem upperBound_written {level : Level} {found? : Option Found} {ts : List Token}
    (hnext : ∃ u ∈ ts.head?, u.isSpace = false) (h : level.value ts = .ok found?) :
    level.upperBound ts = .ok (.written found?) := by
  obtain ⟨u, hu, hspace⟩ := hnext
  cases ts with
  | nil => cases hu
  | cons t ts =>
    cases hu
    rw [upperBound, if_neg (by simp [hspace]), h]
    rfl

end Level

/-! ## What stands for something is found -/

/-- What it means that the readers find what some tokens stand for. -/
def Phrase.Finds (limit room : Nat) : Phrase → List Token → List Token → List Token → Prop
  | value, raw, out, rest =>
    (Level.withRoom limit room).value (raw ++ rest) = .ok (Found.of raw out)
  | items, raw, out, rest =>
    (Level.withRoom limit room).items (raw ++ rest) = .ok ⟨out, raw.length⟩
  | unit, raw, out, rest =>
    (Level.withRoom limit room).unit (raw ++ rest) = .ok (Found.of raw out)
  | forest, raw, out, _ => sequence (Level.withRoom limit room).unit raw = .ok out

/-- A value stands for at least one token. -/
theorem Stands.value_cons {room : Nat} {v : Token} {raw rest : List Token}
    (h : Stands room .value raw [v] rest) :
    ∃ t others, raw = t :: others ∧ t.startsValue = true ∧
      ∀ u ∈ others, u.isFragment = true := by
  cases h with
  | fragment ht => exact ⟨v, [], rfl, by simp [Token.startsValue, ht], nofun⟩
  | @pattern _ t others _ ht _ hothers =>
    exact ⟨t, others, rfl, by simp [Token.startsValue, ht], hothers⟩
  | whole ht => exact ⟨v, [], rfl, by simp [Token.startsValue, ht], nofun⟩
  | group hkind =>
    refine ⟨_, [], rfl, ?_, nofun⟩
    rcases hkind with rfl | rfl <;> rfl

/-- Nothing stands for a missing value. -/
theorem Stands.value_nil {room : Nat} {raw rest : List Token}
    (h : Stands room .value raw [] rest) : raw = [] := by
  cases h
  rfl

/-- Every token of a value could start one. -/
theorem Stands.startsValue {room : Nat} {raw out rest : List Token}
    (h : Stands room .value raw out rest) : ∀ u ∈ raw, u.startsValue = true := by
  cases h with
  | noValue => exact nofun
  | fragment ht => exact List.forall_mem_singleton.mpr (by simp [Token.startsValue, ht])
  | pattern ht _ hothers =>
    refine List.forall_mem_cons.mpr ⟨by simp [Token.startsValue, ht], fun u hu => ?_⟩
    simp [Token.startsValue, hothers u hu]
  | whole ht => exact List.forall_mem_singleton.mpr (by simp [Token.startsValue, ht])
  | group hkind =>
    refine List.forall_mem_singleton.mpr ?_
    rcases hkind with rfl | rfl <;> rfl

/-- A unit stands for at least one token, and nothing stands for a missing unit. -/
theorem Stands.unit_nil_iff {room : Nat} {out raw rest : List Token}
    (h : Stands room .unit raw out rest) : raw = [] ↔ out = [] := by
  cases h with
  | ofValue hv =>
    obtain ⟨t, others, rfl, -⟩ := hv.value_cons
    simp
  | _ => simp

/-- A token that was found stops where it says. -/
theorem Found.stop?_eq (found? : Option Found) :
    Found.stop? found? = Token.stop? (Found.token? found?) := by
  cases found? <;> rfl

/-- How far a reader of values gets, and what it returns. -/
theorem Stands.of_value {room : Nat} {v? : Option Token} {raw rest : List Token}
    (h : Stands room .value raw v?.toList rest) :
    Found.used (Found.of raw v?.toList) = raw.length ∧
      Found.token? (Found.of raw v?.toList) = v? := by
  cases v? with
  | none =>
    obtain rfl := h.value_nil
    exact ⟨rfl, rfl⟩
  | some v =>
    obtain ⟨t, others, rfl, -⟩ := h.value_cons
    exact ⟨rfl, rfl⟩

/-- How far a reader of units gets, and what it returns. -/
theorem Stands.of_unit {room : Nat} {v? : Option Token} {raw rest : List Token}
    (h : Stands room .unit raw v?.toList rest) :
    Found.used (Found.of raw v?.toList) = raw.length ∧
      Found.token? (Found.of raw v?.toList) = v? := by
  cases v? with
  | none =>
    obtain rfl := h.unit_nil_iff.mpr rfl
    exact ⟨rfl, rfl⟩
  | some v =>
    cases raw with
    | nil => cases h.unit_nil_iff.mp rfl
    | cons t others => exact ⟨rfl, rfl⟩

/-- A word or quoted string in front of something other than a colon is not a key. -/
theorem Stands.not_key {room : Nat} {t v : Token} {others rest : List Token}
    (h : Stands room .value (t :: others) [v] rest)
    (hrest : others = [] → t.isPinnable = true → ∀ u ∈ rest.head?, u.isColon = false) :
    t.isPinnable = true → ∀ u ∈ (others ++ rest).head?, u.isColon = false := by
  intro ht u hu
  cases others with
  | nil => exact hrest rfl ht u hu
  | cons w ws =>
    cases hu
    obtain ⟨t', others', heq, -, hothers⟩ := h.value_cons
    cases heq
    have hw := hothers u (.head _)
    unfold Token.isFragment at hw
    unfold Token.isColon
    split at hw <;> simp_all

/-- A value in front of dots or a comma, other than a group, is read as an operand. -/
theorem Stands.unit_eq_operand {level : Level} {room : Nat} {t v next : Token}
    {others rest : List Token} (h : Stands room .value (t :: others) [v] (next :: rest))
    (hgroup : t.isGroup = false) (hnext : next.isDots = true ∨ next.isComma = true) :
    level.unit (t :: (others ++ next :: rest)) = level.operand t (others ++ next :: rest) := by
  obtain ⟨t', others', heq, ht, -⟩ := h.value_cons
  obtain ⟨rfl, rfl⟩ := List.cons.inj heq
  have hcolon : next.isColon = false := by
    rcases hnext with hdots | hcomma
    · simp [Token.isColon, Token.isDots_iff.mp hdots]
    · simp [Token.isColon, Token.isComma_iff.mp hcomma]
  refine Level.unit_eq_operand ht hgroup (h.not_key ?_)
  rintro - - u ⟨⟩
  exact hcolon

/-- The readers find what some tokens stand for. -/
theorem Stands.finds {limit room : Nat} {phrase : Phrase} {raw out rest : List Token}
    (h : Stands room phrase raw out rest) : phrase.Finds limit room raw out rest := by
  induction h with
  | noValue h => exact Level.value_eq_none h
  | fragment ht hrest => exact Level.value_fragment ht hrest
  | pattern ht hne hothers hrest => exact Level.value_pattern ht hne hothers hrest
  | whole ht => exact Level.value_whole ht
  | group hkind _ ih => exact Level.value_group hkind rfl ih
  | @last room v? raw rest hv hrest ih =>
    obtain ⟨hused, htoken⟩ := hv.of_value
    simp only [Phrase.Finds] at ih ⊢
    rw [Level.items_eq ih hused, htoken]
    cases rest with
    | nil => rfl
    | cons u us => simp [hrest u rfl]
  | @more room v? comma raw raw' vs rest hv hcomma _ ih₁ ih₂ =>
    obtain ⟨hused, htoken⟩ := hv.of_value
    simp only [Phrase.Finds] at ih₁ ih₂ ⊢
    rw [Level.items_more ih₁ hused hcomma ih₂, htoken]
    simp only [List.length_append, List.length_cons, Nat.add_right_comm, Nat.add_assoc]
  | noUnit h => exact Level.unit_eq_none h
  | operator ht => exact Level.unit_operator ht
  | @ofValue room v raw rest hv hend ih =>
    obtain ⟨t, others, rfl, ht, -⟩ := hv.value_cons
    simp only [Phrase.Finds, List.cons_append] at ih ⊢
    cases hgroup : t.isGroup with
    | true => rw [Level.unit_eq_value hgroup, ih]
    | false =>
      rcases hend with ⟨u, hu, hug⟩ | ⟨hnext, hcolon⟩
      · cases hu
        rw [hgroup] at hug
        cases hug
      · have hkey := hv.not_key fun h => hcolon t (by rw [h])
        rw [Level.unit_eq_operand ht hgroup hkey, Level.operand_eq_value ih hnext]
        rfl
  | @comparison room op t v? raw rest hop hv ih =>
    obtain ⟨hused, htoken⟩ := hv.of_value
    simp only [Phrase.Finds, List.cons_append] at ih ⊢
    rw [Level.unit_comparator hop, Level.comparison, ih]
    simp only [bind, Except.bind, hused, htoken, Found.stop?_eq]
    rfl
  | @dots room t rest ht hrest =>
    simp only [Phrase.Finds, List.cons_append]
    rw [Level.unit_dots ht, Level.openRange, List.nil_append, Level.upperBound_omitted hrest]
    rfl
  | @rangeTo room t v? raw rest ht hnext hv ih =>
    obtain ⟨hused, htoken⟩ := hv.of_value
    simp only [Phrase.Finds, List.cons_append] at ih ⊢
    rw [Level.unit_dots ht, Level.openRange, Level.upperBound_written hnext ih]
    simp only [bind, Except.bind, UpperBound.stop?, UpperBound.token?, UpperBound.used, hused,
      htoken, Found.stop?_eq]
    rfl
  | @rangeFrom room t v raw rest hv hgroup ht hrest ih =>
    obtain ⟨first, others, rfl, -⟩ := hv.value_cons
    simp only [Phrase.Finds, List.cons_append, List.append_assoc, List.nil_append] at ih ⊢
    rw [hv.unit_eq_operand (hgroup first rfl) (.inl ht), Level.operand_eq ih]
    simp only [Token.isDots_iff.mp ht, Level.rangeFrom, Level.upperBound_omitted hrest, bind,
      Except.bind]
    simp [Found.of, UpperBound.token?, UpperBound.stop?, UpperBound.used]
  | @range room t v w? raw raw' rest hv hgroup ht hnext hw ih₁ ih₂ =>
    obtain ⟨hused, htoken⟩ := hw.of_value
    obtain ⟨first, others, rfl, -⟩ := hv.value_cons
    simp only [Phrase.Finds, List.cons_append, List.append_assoc] at ih₁ ih₂ ⊢
    rw [hv.unit_eq_operand (hgroup first rfl) (.inl ht), Level.operand_eq ih₁]
    simp only [Token.isDots_iff.mp ht, Level.rangeFrom, Level.upperBound_written hnext ih₂, bind,
      Except.bind, UpperBound.token?, UpperBound.stop?, UpperBound.used, hused, htoken,
      Found.stop?_eq]
    simp [Found.of]
    omega
  | @pair room key? v? colon raw rest hkey hcolon hu ih =>
    obtain ⟨hused, htoken⟩ := hu.of_unit
    simp only [Phrase.Finds, List.append_assoc, List.cons_append] at ih ⊢
    rw [Level.unit_colon hkey hcolon, Level.pair, Level.enter, Level.withRoom]
    simp only [bind, Except.bind, ih, hused, htoken, Found.stop?_eq]
    cases key? <;> simp [Found.of, Nat.add_comm]
  | @list room v? comma first raw raw' vs others rest hv hgroup hcomma hvs heq ih₁ ih₂ =>
    obtain ⟨hused, htoken⟩ := hv.of_value
    simp only [Phrase.Finds] at ih₁ ih₂ ⊢
    have hitems := Level.items_more ih₁ hused hcomma ih₂
    have hlen : raw.length + 1 + raw'.length = others.length + 1 := by
      have := congrArg List.length heq
      simp only [List.length_append, List.length_cons] at this
      omega
    have hlist : (Level.withRoom limit room).list first (others ++ rest) =
        .ok (Found.of (first :: others)
          [⟨.list (v?.toList ++ vs), first.index, Span.over first others, false⟩]) := by
      rw [htoken, heq, List.cons_append] at hitems
      rw [Level.list, hitems]
      simp [bind, Except.bind, hlen, Found.of]
    cases v? with
    | none =>
      obtain rfl := hv.value_nil
      cases heq
      rw [List.cons_append, Level.unit_comma hcomma, hlist]
    | some v =>
      obtain ⟨t, ts, rfl, -⟩ := hv.value_cons
      rw [List.cons_append] at heq
      obtain ⟨rfl, rfl⟩ := List.cons.inj heq
      simp only [List.cons_append, List.append_assoc] at ih₁ hlist ⊢
      rw [hv.unit_eq_operand (hgroup t rfl) (.inr hcomma), Level.operand_eq ih₁]
      simp only [Token.isComma_iff.mp hcomma, hlist]
  | done => rw [Phrase.Finds, sequence]
  | blank ht _ ih =>
    simp only [Phrase.Finds] at ih ⊢
    rw [sequence, if_pos ht, ih]
  | @next room t u raw rest us hu ht _ ih₁ ih₂ =>
    simp only [Phrase.Finds, List.cons_append] at ih₁ ih₂ ⊢
    rw [sequence, if_neg (by simp [ht]), ih₁]
    simp [bind, Except.bind, Found.of, ih₂]

end SearchQuery
