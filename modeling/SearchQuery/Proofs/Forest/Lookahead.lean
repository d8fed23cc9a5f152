import SearchQuery.Proofs.Forest.Failure

/-!
# Readers look one token ahead

What tokens stand for depends on the tokens behind them only through the next one, and blanks there
are as good as the end (`ahead?`, `Stands.of_ahead?_eq`). A failure does not depend on what follows
at all (`Fails.append`): a token is to blame that has been read. So a user who goes on typing never
gets rid of a fault, and may only change the last unit: its tokens are read again together with the
new ones, while all units in front of it are settled (`exists_settled`). `forestOf_append` is the
law for the forests on both sides.
-/

namespace SearchQuery

/-- The next token, where a run of blanks is as good as the end. -/
def ahead? (ts : List Token) : Option Token := ts.head?.filter fun t => !t.isSpace

/-- With the same tokens in front, the next token is the same if it is the same behind them. -/
theorem ahead?_append_congr {rest rest' : List Token} (h : ahead? rest' = ahead? rest)
    (raw : List Token) : ahead? (raw ++ rest') = ahead? (raw ++ rest) := by
  cases raw with
  | nil => exact h
  | cons t raw => rfl

/-- More tokens behind the next one make no difference to it. -/
theorem ahead?_append {ts : List Token} (hne : ts ≠ []) (us : List Token) :
    ahead? (ts ++ us) = ahead? ts := by
  cases ts with
  | nil => exact absurd rfl hne
  | cons t ts => rfl

/-- A blank is as good as the end. -/
theorem ahead?_append_blank {blank : Token} (hblank : blank.isSpace = true) (ts us : List Token) :
    ahead? (ts ++ blank :: us) = ahead? ts := by
  cases ts with
  | nil => simp [ahead?, hblank]
  | cons t ts => rfl

/-- The next token, if it is not blank. -/
theorem ahead?_eq_some_iff {ts : List Token} {u : Token} :
    ahead? ts = some u ↔ u ∈ ts.head? ∧ u.isSpace = false := by
  simp [ahead?, Option.filter_eq_some_iff]

section

variable {p : Token → Prop} {rest rest' : List Token}

/-- What holds of all blanks, and of the next token, holds of every next token that is as good. -/
theorem forall_head?_of_ahead?_eq (h : ahead? rest' = ahead? rest)
    (hblank : ∀ t : Token, t.isSpace = true → p t) (hrest : ∀ u ∈ rest.head?, p u) :
    ∀ u ∈ rest'.head?, p u := by
  intro u hu
  cases hspace : u.isSpace with
  | true => exact hblank u hspace
  | false =>
    have hu' := ahead?_eq_some_iff.mpr ⟨hu, hspace⟩
    exact hrest u (ahead?_eq_some_iff.mp (h ▸ hu')).1

/-- There is a next token that is not blank just where there is one that is as good. -/
theorem exists_head?_of_ahead?_eq (h : ahead? rest' = ahead? rest)
    (hrest : ∃ u ∈ rest.head?, u.isSpace = false) : ∃ u ∈ rest'.head?, u.isSpace = false := by
  obtain ⟨u, hu⟩ := hrest
  exact ⟨u, ahead?_eq_some_iff.mp (h.trans (ahead?_eq_some_iff.mpr hu))⟩

end

/-- What tokens stand for depends on what follows only through the next token. -/
theorem Stands.of_ahead?_eq {room : Nat} {phrase : Phrase} {raw out rest rest' : List Token}
    (h : Stands room phrase raw out rest) (hphrase : phrase ≠ .forest)
    (hrest : ahead? rest' = ahead? rest) : Stands room phrase raw out rest' := by
  induction h generalizing rest' with
  | noValue hnone =>
    exact .noValue (forall_head?_of_ahead?_eq hrest (fun _ hs => (Token.of_isSpace hs).2.1) hnone)
  | fragment ht hend =>
    exact .fragment ht (forall_head?_of_ahead?_eq hrest (fun _ hs => (Token.of_isSpace hs).1) hend)
  | pattern ht hne hothers hend =>
    exact .pattern ht hne hothers
      (forall_head?_of_ahead?_eq hrest (fun _ hs => (Token.of_isSpace hs).1) hend)
  | whole ht => exact .whole ht
  | group hkind hitems => exact .group hkind hitems
  | last _ hend ih =>
    exact .last (ih nofun hrest) (forall_head?_of_ahead?_eq hrest (fun _ hs => hs) hend)
  | more _ hcomma _ ih₁ ih₂ => exact .more (ih₁ nofun rfl) hcomma (ih₂ nofun hrest)
  | noUnit hnone =>
    exact .noUnit
      (forall_head?_of_ahead?_eq hrest (fun _ hs => Token.startsUnit_of_isSpace hs) hnone)
  | operator ht => exact .operator ht
  | ofValue _ hend ih =>
    refine .ofValue (ih nofun hrest) (hend.imp_right ?_)
    rintro ⟨hnext, hkey⟩
    constructor
    · refine forall_head?_of_ahead?_eq hrest (fun _ hs => ?_) hnext
      exact ⟨(Token.of_isSpace hs).2.2.1, (Token.of_isSpace hs).2.2.2.1⟩
    · intro t ht hpinnable
      exact forall_head?_of_ahead?_eq hrest (fun _ hs => (Token.of_isSpace hs).2.2.2.2)
        (hkey t ht hpinnable)
  | comparison hop _ ih => exact .comparison hop (ih nofun hrest)
  | dots ht hend => exact .dots ht (forall_head?_of_ahead?_eq hrest (fun _ hs => hs) hend)
  | @rangeTo _ _ _ raw _ ht hnext _ ih =>
    exact .rangeTo ht (exists_head?_of_ahead?_eq (ahead?_append_congr hrest raw) hnext)
      (ih nofun hrest)
  | rangeFrom _ hgroup ht hend ih =>
    exact .rangeFrom (ih nofun rfl) hgroup ht
      (forall_head?_of_ahead?_eq hrest (fun _ hs => hs) hend)
  | @range _ _ _ _ _ raw' _ _ hgroup ht hnext _ ih₁ ih₂ =>
    exact .range (ih₁ nofun rfl) hgroup ht
      (exists_head?_of_ahead?_eq (ahead?_append_congr hrest raw') hnext) (ih₂ nofun hrest)
  | pair hkey hcolon _ ih => exact .pair hkey hcolon (ih nofun hrest)
  | list _ hgroup hcomma _ heq ih₁ ih₂ =>
    exact .list (ih₁ nofun rfl) hgroup hcomma (ih₂ nofun hrest) heq
  | done | blank | next => exact absurd rfl hphrase

/-- Nothing fails without a token. -/
theorem Fails.forest_ne_nil {room : Nat} {ts : List Token} {reason : Reason} {t : Token}
    (h : Fails room .forest ts reason t) : ts ≠ [] := by
  cases h with
  | unit hu =>
    obtain ⟨u, rest, rfl, -⟩ := hu.unit_cons
    exact List.cons_ne_nil u rest
  | nothing | blank | next => exact List.cons_ne_nil _ _

/-- What tokens fail for they fail for whatever follows. -/
theorem Fails.append {room : Nat} {phrase : Phrase} {ts : List Token} {reason : Reason} {t : Token}
    (h : Fails room phrase ts reason t) (us : List Token) :
    Fails room phrase (ts ++ us) reason t := by
  induction h with
  | groupTooDeep hgroup => exact .groupTooDeep hgroup
  | group hkind hitems => exact .group hkind hitems
  | item _ ih => exact .item ih
  | unterminated hv hspace hcomma =>
    rw [List.append_assoc]
    exact .unterminated (hv.of_ahead?_eq nofun rfl) hspace hcomma
  | more hv hcomma _ ih =>
    rw [List.append_assoc]
    exact .more (hv.of_ahead?_eq nofun rfl) hcomma ih
  | ofValue _ ih => exact .ofValue ih
  | comparison hop _ ih => exact .comparison hop ih
  | rangeTo hdots _ ih => exact .rangeTo hdots ih
  | range hv hgroup hdots _ ih =>
    rw [List.append_assoc]
    exact .range (hv.of_ahead?_eq nofun rfl) hgroup hdots ih
  | pairTooDeep hkey hcolon =>
    rw [List.append_assoc]
    exact .pairTooDeep hkey hcolon
  | pair hkey hcolon _ ih =>
    rw [List.append_assoc]
    exact .pair hkey hcolon ih
  | list hv hgroup hcomma _ ih =>
    rw [List.append_assoc]
    exact .list (hv.of_ahead?_eq nofun rfl) hgroup hcomma ih
  | nothing hspace hunit => exact .nothing hspace hunit
  | blank hspace _ ih => exact .blank hspace ih
  | unit _ ih => exact .unit ih
  | next hu hspace hrest ih =>
    rw [List.cons_append, List.append_assoc]
    exact .next (hu.of_ahead?_eq nofun (ahead?_append hrest.forest_ne_nil us)) hspace ih

/-- The units in front of the last one are settled: whatever follows, they stand where they are, and
how the tokens behind them are read decides the rest. -/
theorem Stands.exists_settled {room : Nat} :
    ∀ {ts forest : List Token}, Stands room .forest ts forest [] →
      ∃ front back, ts = front ++ back ∧ Stands room .forest back forest.getLast?.toList [] ∧
        ∀ us,
          (∀ forest', Stands room .forest (back ++ us) forest' [] →
            Stands room .forest (ts ++ us) (forest.dropLast ++ forest') []) ∧
          ∀ reason t, Fails room .forest (back ++ us) reason t →
            Fails room .forest (ts ++ us) reason t
  | _, _, .done => ⟨[], [], rfl, .done, fun _ => ⟨fun _ h => h, fun _ _ h => h⟩⟩
  | _, _, @Stands.blank _ t _ _ ht hts => by
    obtain ⟨front, back, rfl, hback, hrest⟩ := hts.exists_settled
    refine ⟨t :: front, back, rfl, hback, fun us => ⟨fun forest' h => ?_, fun reason u h => ?_⟩⟩
    · exact .blank ht ((hrest us).1 forest' h)
    · exact .blank ht ((hrest us).2 reason u h)
  | _, _, @Stands.next _ _ _ _ _ [] hu ht hrest =>
    ⟨[], _, rfl, .next hu ht hrest, fun _ => ⟨fun _ h => h, fun _ _ h => h⟩⟩
  | _, _, @Stands.next _ t _ raw _ (v :: vs) hu ht hrest => by
    obtain ⟨front, back, rfl, hback, hsettled⟩ := hrest.exists_settled
    have hne : front ++ back ≠ [] := by
      intro hnil
      rw [hnil] at hrest
      cases hrest
    refine ⟨t :: (raw ++ front), back, by simp, by simpa using hback, fun us => ?_⟩
    have hunit := hu.of_ahead?_eq nofun (ahead?_append hne us)
    rw [List.cons_append, List.append_assoc]
    refine ⟨fun forest' h => ?_, fun reason u h => ?_⟩
    · exact .next hunit ht ((hsettled us).1 forest' h)
    · exact .next hunit ht ((hsettled us).2 reason u h)

/-- Reading goes on where the last unit starts: with more tokens behind, the units in front of the
last one stay as they are, and only the tokens of the last one are read again. -/
theorem exists_settled {limit : Nat} {ts forest : List Token} (h : forestOf limit ts = .ok forest) :
    ∃ front back, ts = front ++ back ∧ forestOf limit back = .ok forest.getLast?.toList ∧
      ∀ us, forestOf limit (ts ++ us) =
        (forestOf limit (back ++ us)).map fun forest' => forest.dropLast ++ forest' := by
  obtain ⟨front, back, hsplit, hback, hrest⟩ := (forestOf_eq_ok_iff.mp h).exists_settled
  refine ⟨front, back, hsplit, forestOf_eq_ok_iff.mpr hback, fun us => ?_⟩
  cases hus : forestOf limit (back ++ us) with
  | ok forest' => exact forestOf_eq_ok_iff.mpr ((hrest us).1 forest' (forestOf_eq_ok_iff.mp hus))
  | error fault =>
    obtain ⟨reason, t, hfails, rfl⟩ := forestOf_eq_error_iff.mp hus
    exact forestOf_eq_error_iff.mpr ⟨reason, t, (hrest us).2 reason t hfails, rfl⟩

/-- Reading is incremental. A fault stays the same whatever tokens follow, and as long as there is
none, all units except the last one stay as they are, in front of the others. -/
theorem forestOf_append (limit : Nat) (ts us : List Token) :
    (∀ fault, forestOf limit ts = .error fault → forestOf limit (ts ++ us) = .error fault) ∧
      ∀ forest forest', forestOf limit ts = .ok forest → forestOf limit (ts ++ us) = .ok forest' →
        forest.dropLast <+: forest' := by
  constructor
  · intro fault h
    obtain ⟨reason, t, hfails, rfl⟩ := forestOf_eq_error_iff.mp h
    exact forestOf_eq_error_iff.mpr ⟨reason, t, hfails.append us, rfl⟩
  · intro forest forest' h h'
    obtain ⟨front, back, -, -, hrest⟩ := exists_settled h
    rw [hrest us] at h'
    cases hus : forestOf limit (back ++ us) with
    | error fault =>
      rw [hus] at h'
      cases h'
    | ok others =>
      rw [hus] at h'
      cases h'
      exact List.prefix_append _ _

/-- The law for a range that gets its upper bound, while the word in front of it stays as it is, and
for a list that has gone over into a pair, which is refused for its colon whatever follows. -/
theorem forestOf_append_bound :
    (∃ forest forest', forestOf 1 [.covering (.word "a") 0 1, .covering (.space " ") 1 2,
        .covering (.word "b") 2 3, .covering .dots 3 5] = .ok forest ∧
      forestOf 1 ([.covering (.word "a") 0 1, .covering (.space " ") 1 2,
        .covering (.word "b") 2 3, .covering .dots 3 5] ++ [.covering (.word "c") 5 6]) =
          .ok forest' ∧
      ¬ forest <+: forest' ∧ forest.dropLast <+: forest') ∧
    forestOf 1 [.covering (.word "a") 0 1, .covering .comma 1 2, .covering .colon 2 3] =
      .error (.unterminatedList "pair_op" 2) ∧
    forestOf 1 ([.covering (.word "a") 0 1, .covering .comma 1 2, .covering .colon 2 3] ++
      [.covering (.word "c") 3 4]) = .error (.unterminatedList "pair_op" 2) := by
  have hshort : forestOf 1 [.covering (.word "a") 0 1, .covering (.space " ") 1 2,
      .covering (.word "b") 2 3, .covering .dots 3 5] = .ok [.covering (.word "a") 0 1,
        .covering (.range (.covering (.word "b") 2 3) (some .unbounded)) 2 5] := by cbv
  have hlong : forestOf 1 ([.covering (.word "a") 0 1, .covering (.space " ") 1 2,
      .covering (.word "b") 2 3, .covering .dots 3 5] ++ [.covering (.word "c") 5 6]) =
        .ok [.covering (.word "a") 0 1, .covering (.range (.covering (.word "b") 2 3)
          (some (.covering (.word "c") 5 6))) 2 6] := by cbv
  have hfault : forestOf 1 [.covering (.word "a") 0 1, .covering .comma 1 2,
      .covering .colon 2 3] = .error (.unterminatedList "pair_op" 2) := by cbv
  refine ⟨⟨_, _, hshort, hlong, ?_, (forestOf_append 1 _ _).2 _ _ hshort hlong⟩, hfault,
    (forestOf_append 1 _ _).1 _ hfault⟩
  rintro ⟨others, heq⟩
  cases heq

end SearchQuery
