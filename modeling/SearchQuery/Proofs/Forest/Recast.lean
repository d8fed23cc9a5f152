import SearchQuery.Proofs.Forest.Failure
import SearchQuery.Proofs.Forest.Room
import SearchQuery.Proofs.Token.Relabel

/-!
# Positions and blanks have no part in what tokens mean

Tokens at other positions and with other blanks are promoted to the same tokens there
(`Promotes.recast`), stand for the same forest there (`Stands.recast`), and fail for the same
reason, with the same token to blame (`Fails.recast`). So they have the same forest or the same
fault there (`forestOf_map_recast`), and go too deep in the same group (`overflowAll?_recast`). That
only the positions change is a case of it (`Stands.relabel`).
-/

namespace SearchQuery

section

variable {f : Nat → Option Nat} {b : String → String}

/-- What holds of the token in front holds of it at another position. -/
theorem forall_head?_recast {p : Token → Prop} {ts : List Token}
    (h : ∀ u ∈ ts.head?, p (u.recast f b)) : ∀ u ∈ (ts.map (Token.recast f b)).head?, p u := by
  cases ts with
  | nil => exact nofun
  | cons t ts =>
    rintro u ⟨⟩
    exact h t rfl

/-- What is in front of some tokens and is no blank is none at another position. -/
theorem exists_head?_recast {ts us : List Token}
    (h : ∃ u ∈ (ts ++ us).head?, u.isSpace = false) :
    ∃ u ∈ (ts.map (Token.recast f b) ++ us.map (Token.recast f b)).head?, u.isSpace = false := by
  obtain ⟨u, hu, hspace⟩ := h
  refine ⟨u.recast f b, ?_, by simpa using hspace⟩
  rw [← List.map_append, List.head?_map, Option.mem_def.mp hu]
  rfl

/-- A stretch of tokens at other positions. -/
theorem Span.over_recast (t : Token) (ts : List Token) :
    (Span.over t ts).relabel f = Span.over (t.recast f b) (ts.map (Token.recast f b)) := by
  rw [Span.over, Span.over, List.getLast?_map]
  cases ts.getLast? <;> simp [Span.relabel]

/-- Where a part at another position stops. -/
@[simp] theorem Token.stop?_recast (t? : Option Token) :
    Token.stop? (t?.map (Token.recast f b)) = (Token.stop? t?).bind f := by
  cases t? <;> simp [Token.stop?, Span.relabel]

/-- A pair at another position. -/
@[simp] theorem Kind.recast_ofPair (key? v? : Option Token) :
    (Kind.ofPair key? v?).recast f b =
      .ofPair (key?.map (Token.recast f b)) (v?.map (Token.recast f b)) := by
  cases key? <;> cases v? <;> rfl

/-! ## Promotion -/

/-- Whether a token is settled does not depend on where it lies. -/
theorem Token.isSettled_recast (t : Token) : (t.recast f b).isSettled = t.isSettled := by
  obtain ⟨kind, index, span, flagged⟩ := t
  cases kind <;> rfl

/-- A keyword has no parts to be put elsewhere. -/
theorem Kind.recast_keyword (text : String) :
    ((keyword? text).getD (.word text) : Kind Token).recast f b =
      (keyword? text).getD (.word text) := by
  unfold keyword?
  split <;> rfl

/-- Tokens at other positions are promoted in the same way. -/
theorem Promotes.recast {ts us : List Token} (h : Promotes ts us) :
    Promotes (ts.map (Token.recast f b)) (us.map (Token.recast f b)) := by
  induction h with
  | nil => exact .nil
  | @dangling mark hmark =>
    have heq : mark.dangling.recast f b = (mark.recast f b).dangling := by cases mark; rfl
    rw [List.map_singleton, List.map_singleton, heq]
    exact .dangling (by simpa using hmark)
  | @pinning mark value ts us hmark hvalue _ ih =>
    have heq : (mark.pinning value).recast f b = (mark.recast f b).pinning (value.recast f b) := by
      cases mark
      cases value
      rfl
    rw [List.map_cons, List.map_cons, List.map_cons, heq]
    exact .pinning (by simpa using hmark) (by simpa using hvalue) ih
  | @pinningNothing mark t ts us hmark ht _ ih =>
    have heq : mark.pinningNothing.recast f b = (mark.recast f b).pinningNothing := by
      cases mark
      rfl
    rw [List.map_cons, List.map_cons, List.map_cons, heq]
    exact .pinningNothing (by simpa using hmark) (by simpa using ht) ih
  | word _ ih =>
    rw [List.map_cons, List.map_cons, Token.recast, Token.recast, Kind.recast_keyword]
    exact .word ih
  | group hkind _ _ ih₁ ih₂ =>
    rw [List.map_cons, List.map_cons, Token.recast, Token.recast, Kind.recast_group hkind,
      Kind.recast_group hkind]
    exact .group hkind ih₁ ih₂
  | settled hsettled _ ih => exact .settled (by rwa [Token.isSettled_recast]) ih

/-- The same in terms of what promotion makes of tokens. -/
theorem promote_recast (ts : List Token) :
    promote (ts.map (Token.recast f b)) = (promote ts).map (Token.recast f b) :=
  (promotes ts).recast.eq

/-! ## What tokens stand for -/

/-- Tokens at other positions stand for the same forest there. -/
theorem Stands.recast {room : Nat} {phrase : Phrase} {raw out rest : List Token}
    (h : Stands room phrase raw out rest) :
    Stands room phrase (raw.map (Token.recast f b)) (out.map (Token.recast f b))
      (rest.map (Token.recast f b)) := by
  induction h with
  | noValue hrest => exact .noValue (forall_head?_recast (by simpa using hrest))
  | fragment ht hrest =>
    exact .fragment (by simpa using ht) (forall_head?_recast (by simpa using hrest))
  | @pattern _ t others rest ht hne hothers hrest =>
    have heq : (⟨.pattern (t :: others), t.index, Span.over t others, false⟩ : Token).recast f b =
        ⟨.pattern (t.recast f b :: others.map (Token.recast f b)), (t.recast f b).index,
          Span.over (t.recast f b) (others.map (Token.recast f b)), false⟩ := by
      rw [Token.recast, Kind.recast, recastAll, recastAll_eq_map, Span.over_recast,
        Token.index_recast]
    rw [List.map_singleton, heq]
    exact .pattern (by simpa using ht) (by simpa using hne) (by simpa using hothers)
      (forall_head?_recast (by simpa using hrest))
  | whole ht => exact .whole (by simpa using ht)
  | group hkind _ ih =>
    rw [List.map_singleton, List.map_singleton, Token.recast, Token.recast,
      Kind.recast_group hkind, Kind.recast_group hkind]
    exact .group hkind ih
  | last _ hrest ih =>
    rw [← Option.toList_map] at ih ⊢
    exact .last ih (forall_head?_recast (by simpa using hrest))
  | more _ hcomma _ ih₁ ih₂ =>
    simp only [← Option.toList_map, List.map_cons, List.map_append] at ih₁ ⊢
    exact .more ih₁ (by simpa using hcomma) ih₂
  | noUnit hrest => exact .noUnit (forall_head?_recast (by simpa using hrest))
  | operator ht => exact .operator (by simpa using ht)
  | @ofValue _ v raw rest _ hend ih =>
    refine .ofValue ih ?_
    rcases hend with ⟨t, ht, hgroup⟩ | ⟨hnext, hcolon⟩
    · refine .inl ⟨t.recast f b, ?_, by simpa using hgroup⟩
      rw [List.head?_map, Option.mem_def.mp ht]
      rfl
    · refine .inr ⟨forall_head?_recast (by simpa using hnext), ?_⟩
      intro t ht hpinnable
      obtain ⟨u, rfl, rfl⟩ := List.map_eq_singleton_iff.mp ht
      refine forall_head?_recast ?_
      simpa using hcolon u rfl (by simpa using hpinnable)
  | @comparison _ op t v? raw rest hop _ ih =>
    have heq : (⟨.comparison op v?, t.index, ⟨t.span.start, Token.stop? v?⟩, false⟩ :
        Token).recast f b = ⟨.comparison op (v?.map (Token.recast f b)), (t.recast f b).index,
          ⟨(t.recast f b).span.start, Token.stop? (v?.map (Token.recast f b))⟩, false⟩ := by
      simp [Token.recast, Kind.recast, Span.relabel]
    rw [List.map_singleton, heq]
    rw [← Option.toList_map] at ih
    exact .comparison (by simp [hop, Kind.recast]) ih
  | @dots _ t rest ht hrest =>
    have heq : (⟨.range .unbounded (some .unbounded), t.index, t.span, t.flagged⟩ :
        Token).recast f b = ⟨.range .unbounded (some .unbounded), (t.recast f b).index,
          (t.recast f b).span, (t.recast f b).flagged⟩ := by
      cases t
      rfl
    rw [List.map_singleton, List.map_singleton, heq]
    exact .dots (by simpa using ht) (forall_head?_recast (by simpa using hrest))
  | @rangeTo _ t v? raw rest ht hnext _ ih =>
    have heq : (⟨.range .unbounded v?, t.index, ⟨t.span.start, Token.stop? v?⟩, false⟩ :
        Token).recast f b = ⟨.range .unbounded (v?.map (Token.recast f b)), (t.recast f b).index,
          ⟨(t.recast f b).span.start, Token.stop? (v?.map (Token.recast f b))⟩, false⟩ := by
      simp [Token.recast, Kind.recast, Span.relabel, Token.unbounded]
    rw [List.map_singleton, heq]
    rw [← Option.toList_map] at ih
    exact .rangeTo (by simpa using ht) (exists_head?_recast hnext) ih
  | @rangeFrom _ t v raw rest _ hgroup ht hrest ih =>
    have heq : (⟨.range v (some .unbounded), v.index, ⟨v.span.start, t.span.stop⟩, false⟩ :
        Token).recast f b = ⟨.range (v.recast f b) (some .unbounded), (v.recast f b).index,
          ⟨(v.recast f b).span.start, (t.recast f b).span.stop⟩, false⟩ := by
      simp [Token.recast, Kind.recast, Span.relabel, Token.unbounded]
    rw [List.map_append, List.map_singleton, List.map_singleton, heq]
    exact .rangeFrom ih (forall_head?_recast (by simpa using hgroup)) (by simpa using ht)
      (forall_head?_recast (by simpa using hrest))
  | @range _ t v w? raw raw' rest _ hgroup ht hnext _ ih₁ ih₂ =>
    have heq : (⟨.range v w?, v.index, ⟨v.span.start, Token.stop? w?⟩, false⟩ :
        Token).recast f b =
          ⟨.range (v.recast f b) (w?.map (Token.recast f b)), (v.recast f b).index,
            ⟨(v.recast f b).span.start, Token.stop? (w?.map (Token.recast f b))⟩, false⟩ := by
      simp [Token.recast, Kind.recast, Span.relabel]
    rw [List.map_append, List.map_cons, List.map_singleton, heq]
    simp only [List.map_cons, List.map_append, List.map_nil] at ih₁
    rw [← Option.toList_map] at ih₂
    exact .range ih₁ (forall_head?_recast (by simpa using hgroup)) (by simpa using ht)
      (exists_head?_recast hnext) ih₂
  | @pair _ key? v? colon raw rest hkey hcolon _ ih =>
    have heq : (⟨Kind.ofPair key? v?, (key?.getD colon).index,
        ⟨(key?.getD colon).span.start, Token.stop? v?⟩, false⟩ : Token).recast f b =
          ⟨Kind.ofPair (key?.map (Token.recast f b)) (v?.map (Token.recast f b)),
            ((key?.map (Token.recast f b)).getD (colon.recast f b)).index,
            ⟨((key?.map (Token.recast f b)).getD (colon.recast f b)).span.start,
              Token.stop? (v?.map (Token.recast f b))⟩, false⟩ := by
      cases key? <;> simp [Token.recast, Span.relabel]
    rw [List.map_append, List.map_cons, List.map_singleton, heq, ← Option.toList_map]
    rw [← Option.toList_map] at ih
    refine .pair ?_ (by simpa using hcolon) ih
    simpa using hkey
  | @list _ v? comma first raw raw' vs others rest _ hgroup hcomma _ heq' ih₁ ih₂ =>
    have heq : (⟨.list (v?.toList ++ vs), first.index, Span.over first others, false⟩ :
        Token).recast f b =
          ⟨.list ((v?.map (Token.recast f b)).toList ++ vs.map (Token.recast f b)),
            (first.recast f b).index, Span.over (first.recast f b) (others.map (Token.recast f b)),
            false⟩ := by
      simp [Token.recast, Kind.recast, Option.toList_map, Span.over_recast (b := b)]
    rw [List.map_singleton, heq]
    rw [← Option.toList_map, List.map_cons, List.map_append] at ih₁
    refine .list ih₁ (forall_head?_recast (by simpa using hgroup)) (by simpa using hcomma) ih₂ ?_
    rw [← List.map_cons, ← List.map_append, heq', List.map_cons]
  | done => exact .done
  | blank ht _ ih => exact .blank (by simpa using ht) ih
  | next _ ht _ ih₁ ih₂ =>
    rw [List.map_cons, List.map_append, List.map_cons]
    exact .next ih₁ (by simpa using ht) ih₂

/-! ## What tokens fail for -/

/-- A reason stays the same, and so does the token that is to blame, up to where it lies. -/
theorem Fails.recast {room : Nat} {phrase : Phrase} {ts : List Token} {reason : Reason}
    {t : Token} (h : Fails room phrase ts reason t) :
    Fails room phrase (ts.map (Token.recast f b)) reason (t.recast f b) := by
  induction h with
  | groupTooDeep hgroup => exact .groupTooDeep (by simpa using hgroup)
  | group hkind _ ih =>
    rw [List.map_cons, Token.recast, Kind.recast_group hkind]
    exact .group hkind ih
  | item _ ih => exact .item ih
  | unterminated hv hspace hcomma =>
    have hv := hv.recast (f := f) (b := b)
    rw [← Option.toList_map] at hv
    rw [List.map_append]
    exact .unterminated hv (by simpa using hspace) (by simpa using hcomma)
  | more hv hcomma _ ih =>
    have hv := hv.recast (f := f) (b := b)
    rw [← Option.toList_map] at hv
    rw [List.map_append]
    exact .more hv (by simpa using hcomma) ih
  | ofValue _ ih => exact .ofValue ih
  | @comparison _ op u _ _ _ hop _ ih =>
    have hop' : (u.recast f b).kind = .comparator op := by simp [hop, Kind.recast]
    exact .comparison hop' ih
  | rangeTo hdots _ ih => exact .rangeTo (by simpa using hdots) ih
  | range hv hgroup hdots _ ih =>
    rw [List.map_append]
    exact .range hv.recast (forall_head?_recast (by simpa using hgroup)) (by simpa using hdots)
      ih
  | pairTooDeep hkey hcolon =>
    rw [List.map_append, ← Option.toList_map]
    exact .pairTooDeep (by simpa using hkey) (by simpa using hcolon)
  | pair hkey hcolon _ ih =>
    rw [List.map_append, ← Option.toList_map]
    exact .pair (by simpa using hkey) (by simpa using hcolon) ih
  | list hv hgroup hcomma _ ih =>
    have hv := hv.recast (f := f) (b := b)
    rw [← Option.toList_map] at hv
    rw [List.map_append]
    exact .list hv (forall_head?_recast (by simpa using hgroup)) (by simpa using hcomma) ih
  | nothing hspace hunit => exact .nothing (by simpa using hspace) (by simpa using hunit)
  | blank hspace _ ih => exact .blank (by simpa using hspace) ih
  | unit _ ih => exact .unit ih
  | next hu hspace _ ih =>
    rw [List.map_cons, List.map_append]
    exact .next hu.recast (by simpa using hspace) ih

/-! ## Faults -/

/-- The same fault at another position, or at the first one where `f` gives none. -/
def Fault.recast (f : Nat → Option Nat) : Fault → Fault
  | unterminatedList kind offset => .unterminatedList kind ((f offset).getD 0)
  | nothingToRead kind offset => .nothingToRead kind ((f offset).getD 0)
  | tooDeep offset limit => .tooDeep ((f offset).getD 0) limit

/-- A token that is known by a position is complained about where that is put. -/
theorem Token.offset_recast {t : Token} (h : t.index.isSome = true) :
    (t.recast f b).offset = (f t.offset).getD 0 := by
  obtain ⟨p, hp⟩ := Option.isSome_iff_exists.mp h
  simp [offset, hp]

/-- The fault that a token at another position causes. -/
theorem Reason.fault_recast {reason : Reason} {limit : Nat} {t : Token}
    (h : t.index.isSome = true) :
    reason.fault limit (t.recast f b) = (reason.fault limit t).recast f := by
  cases reason <;>
    simp only [fault, Fault.recast, Token.offset_recast h, Token.kind_recast, Kind.name_recast]

/-- Tokens at other positions have the same forest there, or the same fault. -/
theorem forestOf_map_recast {limit : Nat} {ts : List Token}
    (h : ∀ t ∈ preorderAll ts, t.index.isSome = true) :
    forestOf limit (ts.map (Token.recast f b)) =
      match forestOf limit ts with
      | .ok forest => .ok (forest.map (Token.recast f b))
      | .error fault => .error (fault.recast f) := by
  cases hread : forestOf limit ts with
  | ok forest => exact forestOf_eq_ok_iff.mpr (forestOf_eq_ok_iff.mp hread).recast
  | error fault =>
    obtain ⟨reason, t, hfails, rfl⟩ := forestOf_eq_error_iff.mp hread
    have hindex := h t hfails.reached.mem_preorderAll
    exact forestOf_eq_error_iff.mpr
      ⟨reason, t.recast f b, hfails.recast, Reason.fault_recast hindex⟩

/-! ## Room -/

/-- Tokens go too deep at other positions where each of them does. -/
theorem overflowAll?_recast_of_forall {ts : List Token}
    (h : ∀ t ∈ ts, ∀ room,
      (t.recast f b).overflow? room = (t.overflow? room).map fun p => (f p).getD 0) (room : Nat) :
    overflowAll? room (ts.map (Token.recast f b)) =
      (overflowAll? room ts).map fun p => (f p).getD 0 := by
  induction ts with
  | nil => rfl
  | cons t ts ih =>
    obtain ⟨ht, hts⟩ := List.forall_mem_cons.mp h
    rw [List.map_cons, overflowAll?, overflowAll?, ht, ih hts]
    cases t.overflow? room <;> rfl

/-- The first group in a token that goes too deep is the first one at another position. -/
theorem Token.overflow?_recast {t : Token} (h : ∀ u ∈ t.preorder, u.index.isSome = true)
    (room : Nat) :
    (t.recast f b).overflow? room = (t.overflow? room).map fun p => (f p).getD 0 := by
  induction t using Token.induct generalizing room with
  | step t ih =>
    have ht := h t t.mem_preorder_self
    have hparts : ∀ p ∈ t.kind.parts, ∀ room,
        (p.recast f b).overflow? room = (p.overflow? room).map fun p => (f p).getD 0 :=
      fun p hp => ih p hp fun u hu => h u (mem_preorder_of_part hp hu)
    cases hgroup : t.isGroup with
    | true =>
      obtain ⟨kind, items, hkind, heq⟩ := exists_of_isGroup hgroup
      rw [heq] at ht hparts ⊢
      rw [recast, Kind.recast_group hkind]
      cases room with
      | zero =>
        obtain ⟨p, hp⟩ := Option.isSome_iff_exists.mp ht
        rw [show t.index = some p from hp]
        rcases hkind with rfl | rfl <;> rfl
      | succ room =>
        rw [overflow?_group hkind, overflow?_group hkind]
        refine overflowAll?_recast_of_forall ?_ room
        rcases hkind with rfl | rfl <;> exact hparts
    | false =>
      rw [overflow?_of_not_isGroup hgroup, overflow?_of_not_isGroup (by simpa using hgroup)]
      rfl

/-- The first group of some tokens that goes too deep is the first one at another position. -/
theorem overflowAll?_recast {room : Nat} {ts : List Token}
    (h : ∀ t ∈ preorderAll ts, t.index.isSome = true) :
    overflowAll? room (ts.map (Token.recast f b)) =
      (overflowAll? room ts).map fun p => (f p).getD 0 := by
  refine overflowAll?_recast_of_forall ?_ room
  intro t ht
  exact Token.overflow?_recast fun u hu => h u (mem_preorderAll_iff.mpr ⟨t, ht, hu⟩)

/-! ## Other positions only -/

/-- Tokens at other positions are promoted in the same way. -/
theorem Promotes.relabel {ts us : List Token} (h : Promotes ts us) :
    Promotes (ts.map (Token.relabel f)) (us.map (Token.relabel f)) := by
  simp only [map_relabel_eq_map_recast]
  exact h.recast

/-- Tokens at other positions stand for the same forest there. -/
theorem Stands.relabel {room : Nat} {phrase : Phrase} {raw out rest : List Token}
    (h : Stands room phrase raw out rest) :
    Stands room phrase (raw.map (Token.relabel f)) (out.map (Token.relabel f))
      (rest.map (Token.relabel f)) := by
  simp only [map_relabel_eq_map_recast]
  exact h.recast

end

end SearchQuery
