import SearchQuery.Proofs.Forest.Derivation

/-!
# Whatever is found stands for something

The converse of `Stands.finds`. A reader that succeeds has taken up the first tokens it was given,
and these stand for what it returns (`StandsFor`). The readers of one level are followed one by one,
from values up to units; going down into groups and pairs is an induction on the room that is left.
With `forestOf_eq_ok_iff`, every fact about the forests that are read is a fact about `Stands`.
-/

namespace SearchQuery

/-- A step that succeeds hands on something with which the next step succeeds. -/
theorem exists_of_bind_eq_ok {α β : Type} {x : Except Fault α} {f : α → Except Fault β} {b : β}
    (h : x >>= f = .ok b) : ∃ a, x = .ok a ∧ f a = .ok b := by
  cases x with
  | error fault => cases h
  | ok a => exact ⟨a, rfl, h⟩

/-- The first tokens of `ts`, as many as were used, stand for the tokens `out`. -/
def StandsFor (room : Nat) (phrase : Phrase) (ts out : List Token) (used : Nat) : Prop :=
  ∃ raw rest, ts = raw ++ rest ∧ used = raw.length ∧ Stands room phrase raw out rest

/-- What was found in front of some tokens stands for the first of them. -/
def Accounts (room : Nat) (phrase : Phrase) (ts : List Token) (found? : Option Found) : Prop :=
  StandsFor room phrase ts (Found.token? found?).toList (Found.used found?)

/-- In front of a token that a value can start with, a value is found. -/
theorem Accounts.exists_value {room : Nat} {t : Token} {ts : List Token} {found? : Option Found}
    (h : Accounts room .value (t :: ts) found?) (ht : t.startsValue = true) :
    ∃ v raw rest, ts = raw ++ rest ∧ found? = some ⟨v, raw.length⟩ ∧
      Stands room .value (t :: raw) [v] rest := by
  obtain ⟨raw, rest, heq, hused, hstands⟩ := h
  cases found? with
  | none =>
    cases hstands with
    | noValue hnext =>
      obtain rfl : t :: ts = rest := heq
      simp [hnext t rfl] at ht
  | some found =>
    cases raw with
    | nil => cases hused
    | cons t' raw =>
      rw [List.cons_append] at heq
      obtain ⟨rfl, rfl⟩ := List.cons.inj heq
      obtain ⟨v, further⟩ := found
      obtain rfl : further = raw.length := by simpa using hused
      exact ⟨v, raw, rest, rfl, rfl, hstands⟩

/-- Whatever units are read with some room left stand for the tokens that they take up. -/
def UnitsAccounted (limit room : Nat) : Prop :=
  ∀ ts found?, (Level.withRoom limit room).unit ts = .ok found? → Accounts room .unit ts found?

/-- The units of a whole sequence of tokens stand for it. -/
theorem sequence_accounted {limit room : Nat} (hunits : UnitsAccounted limit room)
    {ts forest : List Token} (h : sequence (Level.withRoom limit room).unit ts = .ok forest) :
    Stands room .forest ts forest [] := by
  induction hn : ts.length using Nat.strongRecOn generalizing ts forest with
  | ind n ih =>
    subst hn
    cases ts with
    | nil =>
      rw [sequence] at h
      cases h
      exact .done
    | cons t ts =>
      rw [sequence] at h
      split at h
      · next ht => exact .blank ht (ih _ (by simp) h rfl)
      · next ht =>
        obtain ⟨found?, hunit, h⟩ := exists_of_bind_eq_ok h
        cases found? with
        | none => cases h
        | some found =>
          obtain ⟨others, hothers, h⟩ := exists_of_bind_eq_ok h
          cases h
          obtain ⟨raw, rest, heq, hused, hstands⟩ := hunits _ _ hunit
          cases raw with
          | nil => cases hused
          | cons t' raw =>
            rw [List.cons_append] at heq
            obtain ⟨rfl, rfl⟩ := List.cons.inj heq
            have hfurther : found.further = raw.length := by simpa using hused
            rw [hfurther, List.drop_left] at hothers
            have hlen : rest.length < (t :: (raw ++ rest)).length := by
              simp only [List.length_cons, List.length_append]
              omega
            exact .next hstands (by simpa using ht) (ih _ hlen hothers rfl)

namespace Level

section

variable {limit room : Nat} (hdeeper : ∀ r, room = r + 1 → UnitsAccounted limit r)

include hdeeper

/-- A value stands for the tokens that it takes up, if the units of groups do. -/
theorem value_accounted {ts : List Token} {found? : Option Found}
    (h : (withRoom limit room).value ts = .ok found?) : Accounts room .value ts found? := by
  cases ts with
  | nil =>
    cases h
    exact ⟨[], [], rfl, rfl, .noValue nofun⟩
  | cons t ts =>
    by_cases hfragment : t.isFragment = true
    · have hsplit := List.takeWhile_append_dropWhile (p := Token.isFragment) (l := ts)
      have hall : ∀ u ∈ ts.takeWhile Token.isFragment, u.isFragment = true := fun u hu =>
        List.mem_takeWhile_imp hu
      have hrest := head?_dropWhile Token.isFragment ts
      generalize ts.takeWhile Token.isFragment = others at hsplit hall
      generalize ts.dropWhile Token.isFragment = rest at hsplit hrest
      subst hsplit
      cases others with
      | nil =>
        rw [List.nil_append, value_fragment hfragment hrest] at h
        cases h
        exact ⟨[t], rest, rfl, rfl, .fragment hfragment hrest⟩
      | cons u us =>
        rw [value_pattern hfragment (by simp) hall hrest] at h
        cases h
        exact ⟨t :: u :: us, rest, rfl, rfl, .pattern hfragment (by simp) hall hrest⟩
    by_cases hwhole : t.isWhole = true
    · rw [value_whole hwhole] at h
      cases h
      exact ⟨[t], ts, rfl, rfl, .whole hwhole⟩
    by_cases hgroup : t.isGroup = true
    · obtain ⟨kind, items, hkind, heq⟩ := Token.exists_of_isGroup hgroup
      have hread : (withRoom limit room).value (t :: ts) =
          (withRoom limit room).readGroup t items kind := by
        rw [value, if_neg hfragment]
        rcases hkind with rfl | rfl <;> rw [heq]
      rw [hread, readGroup] at h
      obtain ⟨unit, henter, h⟩ := exists_of_bind_eq_ok h
      obtain ⟨forest, hforest, h⟩ := exists_of_bind_eq_ok h
      cases h
      cases room with
      | zero => cases henter
      | succ r =>
        cases henter
        have hstands := sequence_accounted (hdeeper r rfl) hforest
        rw [heq]
        exact ⟨_, ts, rfl, rfl, .group hkind hstands⟩
    · have ht : ∀ u ∈ (t :: ts).head?, u.startsValue = false := by
        intro u hu
        cases hu
        simp [Token.startsValue, hfragment, hwhole, hgroup]
      rw [value_eq_none ht] at h
      cases h
      exact ⟨[], t :: ts, rfl, rfl, .noValue ht⟩

/-- The values of a list stand for the tokens that they take up. -/
theorem items_accounted {ts : List Token} {items : Items}
    (h : (withRoom limit room).items ts = .ok items) :
    StandsFor room .items ts items.tokens items.used := by
  induction hn : ts.length using Nat.strongRecOn generalizing ts items with
  | ind n ih =>
    subst hn
    cases hvalue : (withRoom limit room).value ts with
    | error fault =>
      cases ts with
      | nil => cases hvalue
      | cons t ts =>
        rw [Level.items, hvalue] at h
        cases h
    | ok found? =>
      obtain ⟨raw, rest, rfl, hused, hstands⟩ := value_accounted hdeeper hvalue
      rw [items_eq hvalue hused] at h
      cases rest with
      | nil =>
        cases h
        exact ⟨raw, [], rfl, rfl, .last hstands (by simp)⟩
      | cons next rest =>
        dsimp only at h
        split at h
        · next hspace =>
          cases h
          exact ⟨raw, next :: rest, rfl, rfl, .last hstands fun u hu => by cases hu; exact hspace⟩
        · split at h
          · next hcomma =>
            obtain ⟨others, hothers, h⟩ := exists_of_bind_eq_ok h
            cases h
            have hlen : rest.length < (raw ++ next :: rest).length := by
              simp only [List.length_cons, List.length_append]
              omega
            obtain ⟨raw', rest', rfl, hused', hstands'⟩ := ih _ hlen hothers rfl
            refine ⟨raw ++ next :: raw', rest', by simp, ?_, .more hstands hcomma hstands'⟩
            simp only [hused', List.length_append, List.length_cons]
            omega
          · cases h

/-- A list stands for the tokens that it takes up. -/
theorem list_accounted {first comma : Token} {v? found? : Option Found}
    {raw rest others : List Token}
    (hv : (withRoom limit room).value (raw ++ comma :: rest) = .ok v?)
    (hused : Found.used v? = raw.length)
    (hstands : Stands room .value raw (Found.token? v?).toList (comma :: rest))
    (hgroup : ∀ u ∈ raw.head?, u.isGroup = false) (hcomma : comma.isComma = true)
    (heq : first :: others = raw ++ comma :: rest)
    (h : (withRoom limit room).list first others = .ok found?) :
    Accounts room .unit (first :: others) found? := by
  rw [list, heq] at h
  obtain ⟨items, hitems, h⟩ := exists_of_bind_eq_ok h
  cases h
  have hspace : comma.isSpace = false := by simp [Token.isSpace, Token.isComma_iff.mp hcomma]
  rw [items_eq hv hused] at hitems
  simp only [hspace, hcomma, Bool.false_eq_true, if_false, if_true] at hitems
  obtain ⟨others', hothers, hitems⟩ := exists_of_bind_eq_ok hitems
  cases hitems
  obtain ⟨raw', rest', rfl, hused', hstands'⟩ := items_accounted hdeeper hothers
  obtain ⟨first', others', hlist⟩ := List.exists_cons_of_ne_nil
    (show raw ++ comma :: raw' ≠ [] by simp)
  have hsplit : first :: others = (first' :: others') ++ rest' := by
    rw [heq, ← hlist, List.append_assoc, List.cons_append]
  rw [List.cons_append] at hsplit
  obtain ⟨rfl, rfl⟩ := List.cons.inj hsplit
  have hfurther : raw.length + 1 + raw'.length - 1 = others'.length := by
    have := congrArg List.length hlist
    simp only [List.length_append, List.length_cons] at this
    omega
  simp only [hused', hfurther, List.take_left]
  exact ⟨first :: others', rest', rfl, rfl, .list hstands hgroup hcomma hstands' hlist⟩

/-- The bound of a range is left out in front of blanks and at the end, and stands for the tokens
that it takes up in front of anything else. -/
theorem upperBound_accounted {ts : List Token} {upper : UpperBound}
    (h : (withRoom limit room).upperBound ts = .ok upper) :
    (upper = .omitted ∧ ∀ u ∈ ts.head?, u.isSpace = true) ∨
      ∃ found?, upper = .written found? ∧ (∃ u ∈ ts.head?, u.isSpace = false) ∧
        Accounts room .value ts found? := by
  cases ts with
  | nil =>
    cases h
    exact .inl ⟨rfl, nofun⟩
  | cons t ts =>
    rw [upperBound] at h
    split at h
    · next hspace =>
      cases h
      exact .inl ⟨rfl, fun u hu => by cases hu; exact hspace⟩
    · next hspace =>
      cases hvalue : (withRoom limit room).value (t :: ts) with
      | error fault =>
        rw [hvalue] at h
        cases h
      | ok found? =>
        rw [hvalue] at h
        cases h
        exact .inr ⟨found?, rfl, ⟨t, rfl, by simpa using hspace⟩, value_accounted hdeeper hvalue⟩

/-- A comparison stands for the tokens that it takes up. -/
theorem comparison_accounted {op : Comparator} {t : Token} {ts : List Token}
    {found? : Option Found} (hop : t.kind = .comparator op)
    (h : (withRoom limit room).comparison op t ts = .ok found?) :
    Accounts room .unit (t :: ts) found? := by
  obtain ⟨v?, hvalue, h⟩ := exists_of_bind_eq_ok h
  cases h
  obtain ⟨raw, rest, rfl, hused, hstands⟩ := value_accounted hdeeper hvalue
  refine ⟨t :: raw, rest, rfl, by simp [hused], ?_⟩
  rw [Found.stop?_eq]
  exact .comparison hop hstands

/-- A range without a lower bound stands for the tokens that it takes up. -/
theorem openRange_accounted {dots : Token} {ts : List Token} {found? : Option Found}
    (hdots : dots.isDots = true)
    (h : (withRoom limit room).openRange dots ts = .ok found?) :
    Accounts room .unit (dots :: ts) found? := by
  obtain ⟨upper, hupper, h⟩ := exists_of_bind_eq_ok h
  cases h
  rcases upperBound_accounted hdeeper hupper with ⟨rfl, hnext⟩ | ⟨v?, rfl, hnext, hv⟩
  · exact ⟨[dots], ts, rfl, rfl, .dots hdots hnext⟩
  · obtain ⟨raw, rest, rfl, hused, hstands⟩ := hv
    refine ⟨dots :: raw, rest, rfl, by simp [UpperBound.used, hused], ?_⟩
    simp only [UpperBound.stop?, Found.stop?_eq]
    exact .rangeTo hdots hnext hstands

/-- A range with a lower bound stands for the tokens that it takes up. -/
theorem rangeFrom_accounted {lower : Found} {dots : Token} {raw rest : List Token}
    {found? : Option Found}
    (hstands : Stands room .value raw [lower.token] (dots :: rest))
    (hused : lower.further + 1 = raw.length) (hgroup : ∀ u ∈ raw.head?, u.isGroup = false)
    (hdots : dots.isDots = true)
    (h : (withRoom limit room).rangeFrom lower dots rest = .ok found?) :
    Accounts room .unit (raw ++ dots :: rest) found? := by
  obtain ⟨upper, hupper, h⟩ := exists_of_bind_eq_ok h
  cases h
  rcases upperBound_accounted hdeeper hupper with ⟨rfl, hnext⟩ | ⟨v?, rfl, hnext, hv⟩
  · refine ⟨raw ++ [dots], rest, by simp, ?_, .rangeFrom hstands hgroup hdots hnext⟩
    simp [UpperBound.used, hused]
  · obtain ⟨raw', rest', rfl, hused', hstands'⟩ := hv
    refine ⟨raw ++ dots :: raw', rest', by simp, ?_, ?_⟩
    · simp only [UpperBound.used, hused', Found.used_some, List.length_append, List.length_cons]
      omega
    · simp only [UpperBound.stop?, Found.stop?_eq]
      exact .range hstands hgroup hdots hnext hstands'

/-- A pair stands for the tokens that it takes up, if the units one level deeper do. -/
theorem pair_accounted {key? : Option Token} {colon : Token} {ts : List Token}
    {found? : Option Found}
    (hkey : ∀ key ∈ key?, key.isPinnable = true) (hcolon : colon.isColon = true)
    (h : (withRoom limit room).pair key? colon ts = .ok found?) :
    Accounts room .unit (key?.toList ++ colon :: ts) found? := by
  obtain ⟨unit, henter, h⟩ := exists_of_bind_eq_ok h
  obtain ⟨v?, hunit, h⟩ := exists_of_bind_eq_ok h
  cases h
  cases room with
  | zero => cases henter
  | succ r =>
    cases henter
    obtain ⟨raw, rest, rfl, hused, hstands⟩ := hdeeper r rfl ts v? hunit
    refine ⟨key?.toList ++ colon :: raw, rest, by simp, ?_, ?_⟩
    · simp only [Found.used_some, hused, List.length_append, List.length_cons]
      omega
    · rw [Found.stop?_eq]
      exact .pair hkey hcolon hstands

/-- An operand stands for the tokens that it takes up. -/
theorem operand_accounted {t : Token} {ts : List Token} {found? : Option Found}
    (ht : t.startsValue = true) (hgroup : t.isGroup = false)
    (hkey : t.isPinnable = true → ∀ u ∈ ts.head?, u.isColon = false)
    (h : (withRoom limit room).operand t ts = .ok found?) :
    Accounts room .unit (t :: ts) found? := by
  cases hvalue : (withRoom limit room).value (t :: ts) with
  | error fault =>
    rw [operand, hvalue] at h
    cases h
  | ok v? =>
    obtain ⟨v, raw, rest, rfl, rfl, hstands⟩ := (value_accounted hdeeper hvalue).exists_value ht
    have hnot : ∀ u ∈ (t :: raw).head?, u.isGroup = false := by
      intro u hu
      cases hu
      exact hgroup
    -- A value by itself, unless dots or a comma follow.
    have hbare : (∀ u ∈ rest.head?, u.isDots = false ∧ u.isComma = false) →
        Accounts room .unit (t :: (raw ++ rest)) (some ⟨v, raw.length⟩) := by
      intro hnext
      refine ⟨t :: raw, rest, rfl, rfl, .ofValue hstands (.inr ⟨hnext, ?_⟩)⟩
      intro t' ht' hpinnable
      obtain ⟨rfl, rfl⟩ := List.cons.inj ht'
      exact hkey hpinnable
    rw [operand_eq hvalue] at h
    cases rest with
    | nil =>
      cases h
      exact hbare (by simp)
    | cons next rest =>
      dsimp only at h
      split at h
      · next hkind =>
        exact rangeFrom_accounted hdeeper hstands rfl hnot (Token.isDots_iff.mpr hkind) h
      · next hkind =>
        have hcomma := Token.isComma_iff.mpr hkind
        exact list_accounted hdeeper hvalue rfl hstands hnot hcomma rfl h
      · next hdots hcomma =>
        cases h
        refine hbare ?_
        rintro u ⟨⟩
        refine ⟨?_, ?_⟩
        · simpa using mt Token.isDots_iff.mp hdots
        · simpa using mt Token.isComma_iff.mp hcomma

/-- A unit stands for the tokens that it takes up, if the units one level deeper do. -/
theorem unit_accounted : UnitsAccounted limit room := by
  intro ts found? h
  cases ts with
  | nil =>
    cases h
    exact ⟨[], [], rfl, rfl, .noUnit nofun⟩
  | cons t ts =>
    by_cases hoperator : t.isOperator = true
    · rw [unit_operator hoperator] at h
      cases h
      exact ⟨[t], ts, rfl, rfl, .operator hoperator⟩
    by_cases hcomparator : t.isComparator = true
    · obtain ⟨op, hop⟩ := Token.exists_of_isComparator hcomparator
      rw [unit_comparator hop] at h
      exact comparison_accounted hdeeper hop h
    by_cases hdots : t.isDots = true
    · rw [unit_dots hdots] at h
      exact openRange_accounted hdeeper hdots h
    by_cases hcolon : t.isColon = true
    · have hnone : ∀ key ∈ (none : Option Token), key.isPinnable = true := nofun
      have hpair : (withRoom limit room).unit (t :: ts) = (withRoom limit room).pair none t ts :=
        unit_colon hnone hcolon
      rw [hpair] at h
      exact pair_accounted hdeeper hnone hcolon h
    by_cases hcomma : t.isComma = true
    · rw [unit_comma hcomma] at h
      have hnone : ∀ u ∈ (t :: ts).head?, u.startsValue = false := by
        intro u hu
        cases hu
        simp [Token.startsValue, Token.isFragment, Token.isWhole, Token.isGroup,
          Token.isComma_iff.mp hcomma]
      have hvalue : (withRoom limit room).value ([] ++ t :: ts) = .ok none := value_eq_none hnone
      exact list_accounted hdeeper hvalue rfl (.noValue hnone) nofun hcomma rfl h
    by_cases hgroup : t.isGroup = true
    · rw [unit_eq_value hgroup] at h
      have ht : t.startsValue = true := by simp [Token.startsValue, hgroup]
      obtain ⟨v, raw, rest, rfl, rfl, hstands⟩ := (value_accounted hdeeper h).exists_value ht
      exact ⟨t :: raw, rest, rfl, rfl, .ofValue hstands (.inl ⟨t, rfl, hgroup⟩)⟩
    by_cases hvalue : t.startsValue = true
    · by_cases hkey : t.isPinnable = true ∧ ∃ u ∈ ts.head?, u.isColon = true
      · obtain ⟨hpinnable, u, hu, hcolon⟩ := hkey
        cases ts with
        | nil => cases hu
        | cons u' us =>
          cases hu
          have hsome : ∀ key ∈ some t, key.isPinnable = true := by
            intro key hk
            cases hk
            exact hpinnable
          have hpair : (withRoom limit room).unit (t :: u :: us) =
              (withRoom limit room).pair (some t) u us := unit_colon hsome hcolon
          rw [hpair] at h
          exact pair_accounted hdeeper hsome hcolon h
      · have hnot : t.isPinnable = true → ∀ u ∈ ts.head?, u.isColon = false := by
          intro hpinnable u hu
          by_contra hcolon
          exact hkey ⟨hpinnable, u, hu, by simpa using hcolon⟩
        have hgroup : t.isGroup = false := by simpa using hgroup
        rw [unit_eq_operand hvalue hgroup hnot] at h
        exact operand_accounted hdeeper hvalue hgroup hnot h
    · have hnone : ∀ u ∈ (t :: ts).head?, u.startsUnit = false := by
        intro u hu
        cases hu
        simp [Token.startsUnit, hvalue, hoperator, hcomparator, hdots, hcolon, hcomma]
      rw [unit_eq_none hnone] at h
      cases h
      exact ⟨[], t :: ts, rfl, rfl, .noUnit hnone⟩

end

/-- Whatever units are read stand for the tokens that they take up. -/
theorem withRoom_accounted (limit room : Nat) : UnitsAccounted limit room := by
  induction room with
  | zero => exact unit_accounted nofun
  | succ room ih =>
    refine unit_accounted ?_
    rintro r ⟨⟩
    exact ih

end Level

/-- The forest of some tokens is the one that they stand for, with room for as many levels of
nesting as the limit allows. -/
theorem forestOf_eq_ok_iff {limit : Nat} {ts forest : List Token} :
    forestOf limit ts = .ok forest ↔ Stands limit .forest ts forest [] := by
  constructor
  · exact sequence_accounted (Level.withRoom_accounted limit limit)
  · intro h
    exact h.finds

end SearchQuery
