import SearchQuery.Proofs.Forest.Soundness
import SearchQuery.Proofs.Token.Reached

/-!
# What tokens cannot be read for

`Fails` is the counterpart of `Stands`: which tokens cannot be read as a phrase, for which reason,
and which token is to blame. The fault that is reported follows from the reason and the token
(`Reason.fault`), so that nothing here depends on where tokens lie. Every sequence of tokens either
stands for something or fails (`forest_stands_or_fails`), and the readers fail just where the tokens
do (`forestOf_eq_error_iff`). With `forestOf_eq_ok_iff`, every fact about the outcome of reading is
a fact about the two relations.
-/

namespace SearchQuery

/-- Why tokens cannot be read. -/
inductive Reason where
  /-- A token neither continues nor ends the list in front of it. -/
  | unterminatedList
  /-- A token starts nothing. -/
  | nothingToRead
  /-- There is no room for what a token opens. -/
  | tooDeep
deriving DecidableEq, Repr

/-- The fault that is reported when a token is to blame. -/
def Reason.fault (limit : Nat) (t : Token) : Reason → Fault
  | unterminatedList => .unterminatedList t.kind.name t.offset
  | nothingToRead => .nothingToRead t.kind.name t.offset
  | tooDeep => .tooDeep t.offset limit

/-- `Fails room phrase ts reason t`: with room for some levels of nesting, the tokens `ts` cannot be
read as a phrase, for a reason that the token `t` is to blame for. -/
inductive Fails : Nat → Phrase → List Token → Reason → Token → Prop
  | groupTooDeep {t : Token} {rest : List Token} : t.isGroup = true →
      Fails 0 .value (t :: rest) .tooDeep t
  | group {room : Nat} {kind : List Token → Kind Token} {items rest : List Token}
      {index : Option Nat} {span : Span} {flagged : Bool} {reason : Reason} {t : Token} :
      kind = .group ∨ kind = .unclosedGroup → Fails room .forest items reason t →
      Fails (room + 1) .value (⟨kind items, index, span, flagged⟩ :: rest) reason t
  /-- A value of a list cannot be read. -/
  | item {room : Nat} {ts : List Token} {reason : Reason} {t : Token} :
      Fails room .value ts reason t → Fails room .items ts reason t
  /-- A value of a list has something else behind it than blanks or a comma. -/
  | unterminated {room : Nat} {v? : Option Token} {next : Token} {raw rest : List Token} :
      Stands room .value raw v?.toList (next :: rest) → next.isSpace = false →
      next.isComma = false → Fails room .items (raw ++ next :: rest) .unterminatedList next
  | more {room : Nat} {v? : Option Token} {comma : Token} {raw rest : List Token}
      {reason : Reason} {t : Token} : Stands room .value raw v?.toList (comma :: rest) →
      comma.isComma = true → Fails room .items rest reason t →
      Fails room .items (raw ++ comma :: rest) reason t
  | ofValue {room : Nat} {ts : List Token} {reason : Reason} {t : Token} :
      Fails room .value ts reason t → Fails room .unit ts reason t
  | comparison {room : Nat} {op : Comparator} {u : Token} {rest : List Token} {reason : Reason}
      {t : Token} : u.kind = .comparator op → Fails room .value rest reason t →
      Fails room .unit (u :: rest) reason t
  | rangeTo {room : Nat} {dots : Token} {rest : List Token} {reason : Reason} {t : Token} :
      dots.isDots = true → Fails room .value rest reason t →
      Fails room .unit (dots :: rest) reason t
  | range {room : Nat} {dots v : Token} {raw rest : List Token} {reason : Reason} {t : Token} :
      Stands room .value raw [v] (dots :: rest) → (∀ u ∈ raw.head?, u.isGroup = false) →
      dots.isDots = true → Fails room .value rest reason t →
      Fails room .unit (raw ++ dots :: rest) reason t
  | pairTooDeep {key? : Option Token} {colon : Token} {rest : List Token} :
      (∀ key ∈ key?, key.isPinnable = true) → colon.isColon = true →
      Fails 0 .unit (key?.toList ++ colon :: rest) .tooDeep colon
  | pair {room : Nat} {key? : Option Token} {colon : Token} {rest : List Token}
      {reason : Reason} {t : Token} : (∀ key ∈ key?, key.isPinnable = true) →
      colon.isColon = true → Fails room .unit rest reason t →
      Fails (room + 1) .unit (key?.toList ++ colon :: rest) reason t
  | list {room : Nat} {v? : Option Token} {comma : Token} {raw rest : List Token}
      {reason : Reason} {t : Token} : Stands room .value raw v?.toList (comma :: rest) →
      (∀ u ∈ raw.head?, u.isGroup = false) → comma.isComma = true →
      Fails room .items rest reason t → Fails room .unit (raw ++ comma :: rest) reason t
  | nothing {room : Nat} {t : Token} {ts : List Token} : t.isSpace = false →
      t.startsUnit = false → Fails room .forest (t :: ts) .nothingToRead t
  | blank {room : Nat} {u : Token} {ts : List Token} {reason : Reason} {t : Token} :
      u.isSpace = true → Fails room .forest ts reason t → Fails room .forest (u :: ts) reason t
  | unit {room : Nat} {ts : List Token} {reason : Reason} {t : Token} :
      Fails room .unit ts reason t → Fails room .forest ts reason t
  | next {room : Nat} {u v : Token} {raw rest : List Token} {reason : Reason} {t : Token} :
      Stands room .unit (u :: raw) [v] rest → u.isSpace = false →
      Fails room .forest rest reason t → Fails room .forest (u :: (raw ++ rest)) reason t

/-- The token to blame is one of those that were to be read, or is reached from them through
groups. -/
theorem Fails.reached {room : Nat} {phrase : Phrase} {ts : List Token} {reason : Reason} {t : Token}
    (h : Fails room phrase ts reason t) : Reached ts t := by
  induction h with
  | groupTooDeep | nothing => exact .here (.head _)
  | unterminated | pairTooDeep => exact .here (by simp)
  | group hkind _ ih => rcases hkind with rfl | rfl <;> exact .inside (.head _) rfl ih
  | item _ ih | ofValue _ ih | unit _ ih => exact ih
  | comparison _ _ ih | rangeTo _ _ ih | blank _ _ ih => exact ih.mono (List.subset_cons_self _ _)
  | more _ _ _ ih | range _ _ _ _ ih | pair _ _ _ ih | list _ _ _ _ ih =>
    exact ih.mono (List.subset_append_of_subset_right _ (List.subset_cons_self _ _))
  | next _ _ _ ih =>
    exact ih.mono (List.subset_cons_of_subset _ (List.subset_append_right _ _))

/-! ## The readers fail where the tokens do -/

/-- What it means that the readers report a fault. -/
def Phrase.Refuses (limit room : Nat) : Phrase → List Token → Fault → Prop
  | value, ts, fault => (Level.withRoom limit room).value ts = .error fault
  | items, ts, fault => (Level.withRoom limit room).items ts = .error fault
  | unit, ts, fault => (Level.withRoom limit room).unit ts = .error fault
  | forest, ts, fault => sequence (Level.withRoom limit room).unit ts = .error fault

/-- Only a group can fail to be a value. -/
theorem Fails.value_cons {room : Nat} {ts : List Token} {reason : Reason} {t : Token}
    (h : Fails room .value ts reason t) :
    ∃ u rest, ts = u :: rest ∧ u.isGroup = true ∧ u.isSpace = false := by
  cases h with
  | @groupTooDeep t rest hgroup =>
    refine ⟨t, rest, rfl, hgroup, ?_⟩
    by_contra hspace
    rw [Token.isGroup_of_isSpace (by simpa using hspace)] at hgroup
    cases hgroup
  | group hkind =>
    refine ⟨_, _, rfl, ?_⟩
    rcases hkind with rfl | rfl <;> exact ⟨rfl, rfl⟩

/-- What fails to be a unit does not start with a blank. -/
theorem Fails.unit_cons {room : Nat} {ts : List Token} {reason : Reason} {t : Token}
    (h : Fails room .unit ts reason t) : ∃ u rest, ts = u :: rest ∧ u.isSpace = false := by
  cases h with
  | ofValue hv =>
    obtain ⟨u, rest, rfl, -, hspace⟩ := hv.value_cons
    exact ⟨u, rest, rfl, hspace⟩
  | comparison hop => exact ⟨_, _, rfl, by simp [Token.isSpace, hop]⟩
  | rangeTo hdots => exact ⟨_, _, rfl, by simp [Token.isSpace, Token.isDots_iff.mp hdots]⟩
  | range hv =>
    obtain ⟨u, others, rfl, hu, -⟩ := hv.value_cons
    exact ⟨u, _, rfl, Token.isSpace_of_startsValue hu⟩
  | @pairTooDeep key? _ _ hkey hcolon | @pair _ key? _ _ _ _ hkey hcolon =>
    cases key? with
    | none => exact ⟨_, _, rfl, by simp [Token.isSpace, Token.isColon_iff.mp hcolon]⟩
    | some key =>
      have hfragment := Token.isFragment_of_isPinnable (hkey key rfl)
      exact ⟨key, _, rfl, Token.isSpace_eq_false (.inl hfragment)⟩
  | @list _ v? comma raw rest _ _ hv _ hcomma =>
    cases v? with
    | none =>
      obtain rfl := hv.value_nil
      exact ⟨comma, rest, rfl, by simp [Token.isSpace, Token.isComma_iff.mp hcomma]⟩
    | some v =>
      obtain ⟨u, others, rfl, hu, -⟩ := hv.value_cons
      exact ⟨u, _, rfl, Token.isSpace_of_startsValue hu⟩

namespace Level

/-- A group is read as one. -/
theorem value_eq_readGroup {level : Level} {kind : List Token → Kind Token}
    {items rest : List Token} {index : Option Nat} {span : Span} {flagged : Bool}
    (hkind : kind = .group ∨ kind = .unclosedGroup) :
    level.value (⟨kind items, index, span, flagged⟩ :: rest) =
      level.readGroup ⟨kind items, index, span, flagged⟩ items kind := by
  rcases hkind with rfl | rfl <;> rfl

/-- A list fails behind a comma if the rest of it does. -/
theorem items_more_error {level : Level} {found? : Option Found} {comma : Token}
    {raw rest : List Token} {fault : Fault}
    (hvalue : level.value (raw ++ comma :: rest) = .ok found?)
    (hused : Found.used found? = raw.length) (hcomma : comma.isComma = true)
    (hitems : level.items rest = .error fault) :
    level.items (raw ++ comma :: rest) = .error fault := by
  have hspace : comma.isSpace = false := by simp [Token.isSpace, Token.isComma_iff.mp hcomma]
  rw [items_eq hvalue hused]
  simp [hspace, hcomma, hitems, bind, Except.bind]

/-- The bound of a range fails if the value behind the dots does. -/
theorem upperBound_error {level : Level} {u : Token} {rest : List Token} {fault : Fault}
    (hspace : u.isSpace = false) (h : level.value (u :: rest) = .error fault) :
    level.upperBound (u :: rest) = .error fault := by
  rw [upperBound, if_neg (by simp [hspace]), h]
  rfl

end Level

/-- The readers report the fault that the token to blame causes. -/
theorem Fails.refuses {limit room : Nat} {phrase : Phrase} {ts : List Token} {reason : Reason}
    {t : Token} (h : Fails room phrase ts reason t) :
    phrase.Refuses limit room ts (reason.fault limit t) := by
  induction h with
  | groupTooDeep hgroup =>
    obtain ⟨kind, items, hkind, heq⟩ := Token.exists_of_isGroup hgroup
    simp only [Phrase.Refuses]
    rw [heq, Level.value_eq_readGroup hkind]
    rfl
  | group hkind _ ih =>
    simp only [Phrase.Refuses] at ih ⊢
    rw [Level.value_eq_readGroup hkind, Level.readGroup, Level.enter, Level.withRoom]
    simp only [bind, Except.bind, ih]
  | @item room ts reason t hv ih =>
    obtain ⟨u, rest, rfl, -⟩ := hv.value_cons
    simp only [Phrase.Refuses] at ih ⊢
    rw [Level.items, ih]
    rfl
  | unterminated hv hspace hcomma =>
    simp only [Phrase.Refuses]
    rw [Level.items_eq hv.finds hv.of_value.1]
    simp [hspace, hcomma, Reason.fault]
  | more hv hcomma _ ih => exact Level.items_more_error hv.finds hv.of_value.1 hcomma ih
  | ofValue hv ih =>
    obtain ⟨u, rest, rfl, hgroup, -⟩ := hv.value_cons
    simp only [Phrase.Refuses] at ih ⊢
    rw [Level.unit_eq_value hgroup, ih]
  | comparison hop _ ih =>
    simp only [Phrase.Refuses] at ih ⊢
    rw [Level.unit_comparator hop, Level.comparison, ih]
    rfl
  | rangeTo hdots hv ih =>
    obtain ⟨u, rest, rfl, -, hspace⟩ := hv.value_cons
    simp only [Phrase.Refuses] at ih ⊢
    rw [Level.unit_dots hdots, Level.openRange, Level.upperBound_error hspace ih]
    rfl
  | range hv hgroup hdots hbound ih =>
    obtain ⟨first, others, rfl, -⟩ := hv.value_cons
    obtain ⟨u, rest, rfl, -, hspace⟩ := hbound.value_cons
    simp only [Phrase.Refuses, List.cons_append] at ih ⊢
    rw [hv.unit_eq_operand (hgroup first rfl) (.inl hdots), Level.operand_eq hv.finds]
    simp only [Token.isDots_iff.mp hdots, Level.rangeFrom, Level.upperBound_error hspace ih]
    rfl
  | pairTooDeep hkey hcolon =>
    simp only [Phrase.Refuses]
    rw [Level.unit_colon hkey hcolon]
    rfl
  | pair hkey hcolon _ ih =>
    simp only [Phrase.Refuses] at ih ⊢
    rw [Level.unit_colon hkey hcolon, Level.pair, Level.enter, Level.withRoom]
    simp only [bind, Except.bind, ih]
  | @list room v? comma raw rest reason t hv hgroup hcomma _ ih =>
    have hitems := Level.items_more_error hv.finds hv.of_value.1 hcomma ih
    simp only [Phrase.Refuses]
    cases v? with
    | none =>
      obtain rfl := hv.value_nil
      rw [List.nil_append] at hitems ⊢
      rw [Level.unit_comma hcomma, Level.list, hitems]
      rfl
    | some v =>
      obtain ⟨first, others, rfl, -⟩ := hv.value_cons
      rw [List.cons_append] at hitems ⊢
      rw [hv.unit_eq_operand (hgroup first rfl) (.inr hcomma), Level.operand_eq hv.finds]
      simp only [Token.isComma_iff.mp hcomma, Level.list, hitems]
      rfl
  | @nothing room t ts hspace hunit =>
    have hnone : ∀ u ∈ (t :: ts).head?, u.startsUnit = false := by
      rintro u ⟨⟩
      exact hunit
    simp only [Phrase.Refuses]
    rw [sequence, if_neg (by simp [hspace]), Level.unit_eq_none hnone]
    rfl
  | blank hspace _ ih =>
    simp only [Phrase.Refuses] at ih ⊢
    rw [sequence, if_pos hspace, ih]
  | unit hu ih =>
    obtain ⟨u, rest, rfl, hspace⟩ := hu.unit_cons
    simp only [Phrase.Refuses] at ih ⊢
    rw [sequence, if_neg (by simp [hspace]), ih]
    rfl
  | @next room u v raw rest reason t hu hspace _ ih =>
    have hunit : (Level.withRoom limit room).unit (u :: (raw ++ rest)) =
        .ok (Found.of (u :: raw) [v]) := hu.finds
    simp only [Phrase.Refuses] at ih ⊢
    rw [sequence, if_neg (by simp [hspace]), hunit]
    simp [bind, Except.bind, Found.of, ih]

/-! ## Whatever stands for nothing fails -/

/-- The tokens in front of `ts` stand for a phrase, or `ts` fails to be one. -/
def Decided (room : Nat) (phrase : Phrase) (ts : List Token) : Prop :=
  (∃ raw out rest, ts = raw ++ rest ∧ Stands room phrase raw out rest) ∨
    ∃ reason t, Fails room phrase ts reason t

/-- At most one token is found for a value or unit. -/
theorem Stands.exists_toList {room : Nat} {phrase : Phrase} {raw out rest : List Token}
    (h : Stands room phrase raw out rest) (hphrase : phrase = .value ∨ phrase = .unit) :
    ∃ v? : Option Token, out = v?.toList := by
  cases h with
  | noValue | noUnit => exact ⟨none, rfl⟩
  | last | more | done | blank | next => simp at hphrase
  | _ => exact ⟨some _, rfl⟩

/-- Where no token stands for a unit, none can start there. -/
theorem Stands.startsUnit_eq_false {room : Nat} {raw out rest : List Token}
    (h : Stands room .unit raw out rest) (hraw : raw = []) :
    ∀ u ∈ rest.head?, u.startsUnit = false := by
  cases h with
  | noUnit hnone => exact hnone
  | ofValue hv =>
    obtain ⟨t, others, rfl, -⟩ := hv.value_cons
    cases hraw
  | _ => simp at hraw

section

variable {room : Nat}

/-- A sequence of tokens stands for its units or fails, if this is so of single units. -/
theorem forest_decided (hunits : ∀ ts, Decided room .unit ts) (ts : List Token) :
    (∃ out, Stands room .forest ts out []) ∨ ∃ reason t, Fails room .forest ts reason t := by
  induction hn : ts.length using Nat.strongRecOn generalizing ts with
  | ind n ih =>
    subst hn
    cases ts with
    | nil => exact .inl ⟨[], .done⟩
    | cons t ts =>
      cases hspace : t.isSpace with
      | true =>
        rcases ih _ (by simp) ts rfl with ⟨out, hts⟩ | ⟨reason, u, hts⟩
        · exact .inl ⟨out, .blank hspace hts⟩
        · exact .inr ⟨reason, u, .blank hspace hts⟩
      | false =>
        rcases hunits (t :: ts) with ⟨raw, out, rest, heq, hu⟩ | ⟨reason, u, hu⟩
        · obtain ⟨v?, rfl⟩ := hu.exists_toList (.inr rfl)
          cases v? with
          | none =>
            obtain rfl := hu.unit_nil_iff.mpr rfl
            obtain rfl : t :: ts = rest := heq
            exact .inr ⟨_, t, .nothing hspace (hu.startsUnit_eq_false rfl t rfl)⟩
          | some v =>
            cases raw with
            | nil => cases hu.unit_nil_iff.mp rfl
            | cons t' raw =>
              rw [List.cons_append] at heq
              obtain ⟨rfl, rfl⟩ := List.cons.inj heq
              have hlen : rest.length < (t :: (raw ++ rest)).length := by
                simp only [List.length_cons, List.length_append]
                omega
              rcases ih _ hlen rest rfl with ⟨out, hrest⟩ | ⟨reason, u, hrest⟩
              · exact .inl ⟨_, .next hu hspace hrest⟩
              · exact .inr ⟨reason, u, .next hu hspace hrest⟩
        · exact .inr ⟨reason, u, .unit hu⟩

variable (hdeeper : ∀ r, room = r + 1 → ∀ ts, Decided r .unit ts)

include hdeeper

/-- A value is found, or fails to be read, if this is so of the units one level deeper. -/
theorem value_decided (ts : List Token) : Decided room .value ts := by
  cases ts with
  | nil => exact .inl ⟨[], [], [], rfl, .noValue nofun⟩
  | cons t ts =>
    by_cases hfragment : t.isFragment = true
    · have hsplit : t :: ts.takeWhile Token.isFragment ++ ts.dropWhile Token.isFragment =
          t :: ts := by
        rw [List.cons_append, List.takeWhile_append_dropWhile]
      have hall : ∀ u ∈ ts.takeWhile Token.isFragment, u.isFragment = true := fun u hu =>
        List.mem_takeWhile_imp hu
      have hrest := head?_dropWhile Token.isFragment ts
      by_cases hnone : ts.takeWhile Token.isFragment = []
      · rw [hnone] at hsplit
        exact .inl ⟨[t], _, _, hsplit.symm, .fragment hfragment hrest⟩
      · exact .inl ⟨_, _, _, hsplit.symm, .pattern hfragment hnone hall hrest⟩
    by_cases hwhole : t.isWhole = true
    · exact .inl ⟨[t], _, ts, rfl, .whole hwhole⟩
    by_cases hgroup : t.isGroup = true
    · cases room with
      | zero => exact .inr ⟨_, t, .groupTooDeep hgroup⟩
      | succ r =>
        obtain ⟨kind, items, hkind, heq⟩ := Token.exists_of_isGroup hgroup
        rw [heq]
        rcases forest_decided (hdeeper r rfl) items with ⟨out, hitems⟩ | ⟨reason, u, hitems⟩
        · exact .inl ⟨[_], _, ts, rfl, .group hkind hitems⟩
        · exact .inr ⟨reason, u, .group hkind hitems⟩
    · refine .inl ⟨[], [], t :: ts, rfl, .noValue ?_⟩
      rintro u ⟨⟩
      simp [Token.startsValue, hfragment, hwhole, hgroup]

/-- The values of a list are found, or fail to be read. -/
theorem items_decided (ts : List Token) : Decided room .items ts := by
  induction hn : ts.length using Nat.strongRecOn generalizing ts with
  | ind n ih =>
    subst hn
    rcases value_decided hdeeper ts with ⟨raw, out, rest, rfl, hv⟩ | ⟨reason, t, hv⟩
    · obtain ⟨v?, rfl⟩ := hv.exists_toList (.inl rfl)
      cases rest with
      | nil => exact .inl ⟨raw, _, [], rfl, .last hv nofun⟩
      | cons next rest =>
        cases hspace : next.isSpace with
        | true =>
          refine .inl ⟨raw, _, next :: rest, rfl, .last hv ?_⟩
          rintro u ⟨⟩
          exact hspace
        | false =>
          cases hcomma : next.isComma with
          | false => exact .inr ⟨_, next, .unterminated hv hspace hcomma⟩
          | true =>
            have hlen : rest.length < (raw ++ next :: rest).length := by
              simp only [List.length_append, List.length_cons]
              omega
            rcases ih _ hlen rest rfl with ⟨raw', vs, rest', rfl, hvs⟩ | ⟨reason, t, hvs⟩
            · exact .inl ⟨raw ++ next :: raw', _, rest', by simp, .more hv hcomma hvs⟩
            · exact .inr ⟨reason, t, .more hv hcomma hvs⟩
    · exact .inr ⟨reason, t, .item hv⟩

/-- A list is found, or fails to be read, where a comma stands behind its first value. -/
theorem list_decided (v? : Option Token) {comma : Token} {raw rest : List Token}
    (hv : Stands room .value raw v?.toList (comma :: rest))
    (hgroup : ∀ u ∈ raw.head?, u.isGroup = false) (hcomma : comma.isComma = true) :
    Decided room .unit (raw ++ comma :: rest) := by
  rcases items_decided hdeeper rest with ⟨raw', vs, rest', rfl, hvs⟩ | ⟨reason, t, hvs⟩
  · obtain ⟨first, others, hlist⟩ := List.exists_cons_of_ne_nil
      (show raw ++ comma :: raw' ≠ [] by simp)
    refine .inl ⟨first :: others, _, rest', ?_, .list hv hgroup hcomma hvs hlist⟩
    rw [← hlist, List.append_assoc, List.cons_append]
  · exact .inr ⟨reason, t, .list hv hgroup hcomma hvs⟩

/-- What is behind the dots of a range is left out, found, or fails to be read. -/
theorem upperBound_decided (ts : List Token) :
    (∀ u ∈ ts.head?, u.isSpace = true) ∨
      (∃ raw, ∃ v? : Option Token, ∃ rest, ts = raw ++ rest ∧
        (∃ u ∈ (raw ++ rest).head?, u.isSpace = false) ∧ Stands room .value raw v?.toList rest) ∨
      ∃ reason t, Fails room .value ts reason t := by
  cases ts with
  | nil => exact .inl nofun
  | cons t ts =>
    cases hspace : t.isSpace with
    | true =>
      refine .inl ?_
      rintro u ⟨⟩
      exact hspace
    | false =>
      rcases value_decided hdeeper (t :: ts) with ⟨raw, out, rest, heq, hv⟩ | hfails
      · obtain ⟨v?, rfl⟩ := hv.exists_toList (.inl rfl)
        exact .inr (.inl ⟨raw, v?, rest, heq, ⟨t, by rw [← heq]; rfl, hspace⟩, hv⟩)
      · exact .inr (.inr hfails)

/-- A pair is found, or fails to be read. -/
theorem pair_decided (key? : Option Token) {colon : Token}
    (hkey : ∀ key ∈ key?, key.isPinnable = true) (hcolon : colon.isColon = true)
    (ts : List Token) : Decided room .unit (key?.toList ++ colon :: ts) := by
  cases room with
  | zero => exact .inr ⟨_, colon, .pairTooDeep hkey hcolon⟩
  | succ r =>
    rcases hdeeper r rfl ts with ⟨raw, out, rest, rfl, hu⟩ | ⟨reason, t, hu⟩
    · obtain ⟨v?, rfl⟩ := hu.exists_toList (.inr rfl)
      exact .inl ⟨key?.toList ++ colon :: raw, _, rest, by simp, .pair hkey hcolon hu⟩
    · exact .inr ⟨reason, t, .pair hkey hcolon hu⟩

/-- A unit that starts with a value, and is neither a group nor a pair, is found, or fails to be
read. -/
theorem operand_decided {t : Token} {ts : List Token} (ht : t.startsValue = true)
    (hgroup : t.isGroup = false) (hkey : t.isPinnable = true → ∀ u ∈ ts.head?, u.isColon = false) :
    Decided room .unit (t :: ts) := by
  rcases value_decided hdeeper (t :: ts) with ⟨raw, out, rest, heq, hv⟩ | ⟨reason, u, hv⟩
  · cases raw with
    | nil =>
      cases hv with
      | noValue hnone =>
        obtain rfl : t :: ts = rest := heq
        rw [hnone t rfl] at ht
        cases ht
    | cons t' raw =>
      rw [List.cons_append] at heq
      obtain ⟨rfl, rfl⟩ := List.cons.inj heq
      obtain ⟨v?, rfl⟩ := hv.exists_toList (.inl rfl)
      cases v? with
      | none => cases hv.value_nil
      | some v =>
        have hnot : ∀ u ∈ (t :: raw).head?, u.isGroup = false := by
          rintro u ⟨⟩
          exact hgroup
        cases rest with
        | nil =>
          refine .inl ⟨t :: raw, _, [], rfl, .ofValue hv (.inr ⟨nofun, fun _ _ _ => nofun⟩)⟩
        | cons next rest =>
          by_cases hdots : next.isDots = true
          · rcases upperBound_decided hdeeper rest with
              hspace | ⟨raw', w?, rest', rfl, hnext, hw⟩ | ⟨reason, u, hw⟩
            · exact .inl ⟨t :: raw ++ [next], _, rest, by simp, .rangeFrom hv hnot hdots hspace⟩
            · exact .inl ⟨t :: raw ++ next :: raw', _, rest', by simp,
                .range hv hnot hdots hnext hw⟩
            · exact .inr ⟨reason, u, .range hv hnot hdots hw⟩
          by_cases hcomma : next.isComma = true
          · exact list_decided hdeeper (some v) hv hnot hcomma
          · refine .inl ⟨t :: raw, _, next :: rest, rfl, .ofValue hv (.inr ⟨?_, ?_⟩)⟩
            · rintro u ⟨⟩
              simp [hdots, hcomma]
            · intro t' ht' hpinnable
              obtain ⟨rfl, rfl⟩ := List.cons.inj ht'
              exact hkey hpinnable
  · obtain ⟨u', rest, heq, hgroup', -⟩ := hv.value_cons
    obtain ⟨rfl, rfl⟩ := List.cons.inj heq
    rw [hgroup] at hgroup'
    cases hgroup'

/-- A unit is found, or fails to be read, if this is so one level deeper. -/
theorem unit_decided (ts : List Token) : Decided room .unit ts := by
  cases ts with
  | nil => exact .inl ⟨[], [], [], rfl, .noUnit nofun⟩
  | cons t ts =>
    by_cases hoperator : t.isOperator = true
    · exact .inl ⟨[t], _, ts, rfl, .operator hoperator⟩
    by_cases hcomparator : t.isComparator = true
    · obtain ⟨op, hop⟩ := Token.exists_of_isComparator hcomparator
      rcases value_decided hdeeper ts with ⟨raw, out, rest, rfl, hv⟩ | ⟨reason, u, hv⟩
      · obtain ⟨v?, rfl⟩ := hv.exists_toList (.inl rfl)
        exact .inl ⟨t :: raw, _, rest, rfl, .comparison hop hv⟩
      · exact .inr ⟨reason, u, .comparison hop hv⟩
    by_cases hdots : t.isDots = true
    · rcases upperBound_decided hdeeper ts with
        hspace | ⟨raw, v?, rest, rfl, hnext, hv⟩ | ⟨reason, u, hv⟩
      · exact .inl ⟨[t], _, ts, rfl, .dots hdots hspace⟩
      · exact .inl ⟨t :: raw, _, rest, rfl, .rangeTo hdots hnext hv⟩
      · exact .inr ⟨reason, u, .rangeTo hdots hv⟩
    by_cases hcolon : t.isColon = true
    · exact pair_decided hdeeper none nofun hcolon ts
    by_cases hcomma : t.isComma = true
    · refine list_decided hdeeper none (.noValue ?_) nofun hcomma
      rintro u ⟨⟩
      simp [Token.startsValue, Token.isFragment, Token.isWhole, Token.isGroup,
        Token.isComma_iff.mp hcomma]
    by_cases hgroup : t.isGroup = true
    · rcases value_decided hdeeper (t :: ts) with ⟨raw, out, rest, heq, hv⟩ | ⟨reason, u, hv⟩
      · obtain ⟨v?, rfl⟩ := hv.exists_toList (.inl rfl)
        cases v? with
        | none =>
          obtain rfl := hv.value_nil
          obtain rfl : t :: ts = rest := heq
          cases hv with
          | noValue hnone => simp [Token.startsValue, hgroup] at hnone
        | some v =>
          obtain ⟨t', others, rfl, -⟩ := hv.value_cons
          obtain ⟨rfl, -⟩ := List.cons.inj heq
          exact .inl ⟨_, _, rest, heq, .ofValue hv (.inl ⟨t, rfl, hgroup⟩)⟩
      · exact .inr ⟨reason, u, .ofValue hv⟩
    by_cases hvalue : t.startsValue = true
    · by_cases hkey : t.isPinnable = true ∧ ∃ u ∈ ts.head?, u.isColon = true
      · obtain ⟨hpinnable, u, hu, hcolon⟩ := hkey
        cases ts with
        | nil => cases hu
        | cons u' us =>
          cases hu
          refine pair_decided hdeeper (some t) ?_ hcolon us
          rintro key ⟨⟩
          exact hpinnable
      · refine operand_decided hdeeper hvalue (by simpa using hgroup) ?_
        intro hpinnable u hu
        by_contra hcolon
        exact hkey ⟨hpinnable, u, hu, by simpa using hcolon⟩
    · refine .inl ⟨[], [], t :: ts, rfl, .noUnit ?_⟩
      rintro u ⟨⟩
      simp [Token.startsUnit, hvalue, hoperator, hcomparator, hdots, hcolon, hcomma]

end

/-- A unit is found, or fails to be read. -/
theorem unit_stands_or_fails (room : Nat) : ∀ ts, Decided room .unit ts := by
  induction room with
  | zero => exact unit_decided nofun
  | succ room ih =>
    refine unit_decided ?_
    rintro r ⟨⟩
    exact ih

/-- A value is found, or fails to be read. -/
theorem value_stands_or_fails (room : Nat) (ts : List Token) : Decided room .value ts :=
  value_decided (fun r _ => unit_stands_or_fails r) ts

/-- Every sequence of tokens stands for a forest or fails. -/
theorem forest_stands_or_fails (room : Nat) (ts : List Token) :
    (∃ out, Stands room .forest ts out []) ∨ ∃ reason t, Fails room .forest ts reason t :=
  forest_decided (unit_stands_or_fails room) ts

/-- Some tokens have no forest just where they fail, and the fault is that of the token to blame. -/
theorem forestOf_eq_error_iff {limit : Nat} {ts : List Token} {fault : Fault} :
    forestOf limit ts = .error fault ↔
      ∃ reason t, Fails limit .forest ts reason t ∧ reason.fault limit t = fault := by
  constructor
  · intro h
    rcases forest_stands_or_fails limit ts with ⟨out, hstands⟩ | ⟨reason, t, hfails⟩
    · rw [forestOf_eq_ok_iff.mpr hstands] at h
      cases h
    · have hrefused : forestOf limit ts = .error (reason.fault limit t) := hfails.refuses
      rw [hrefused] at h
      cases h
      exact ⟨reason, t, hfails, rfl⟩
  · rintro ⟨reason, t, hfails, rfl⟩
    exact hfails.refuses

end SearchQuery
