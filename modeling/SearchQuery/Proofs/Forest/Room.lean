import SearchQuery.Proofs.Canonical.Basic
import SearchQuery.Proofs.Forest.Derivation
import SearchQuery.Proofs.Promotion

/-!
# Room for nesting

What can be read with room for some levels of nesting can be read with more of it (`Stands.mono`),
and is nested no more deeply than there is room (`Stands.nestingAll_le`). A scan only counts groups
where reading counts pairs too, so it finds room for whatever can be read (`Stands.overflow`).
-/

namespace SearchQuery

/-- More room does no harm. -/
theorem Stands.mono {room room' : Nat} {phrase : Phrase} {raw out rest : List Token}
    (h : Stands room phrase raw out rest) (hle : room ≤ room') :
    Stands room' phrase raw out rest := by
  induction h generalizing room' with
  | noValue hrest => exact .noValue hrest
  | fragment ht hrest => exact .fragment ht hrest
  | pattern ht hne hothers hrest => exact .pattern ht hne hothers hrest
  | whole ht => exact .whole ht
  | group hkind _ ih =>
    obtain ⟨r, rfl⟩ : ∃ r, room' = r + 1 := ⟨room' - 1, by omega⟩
    exact .group hkind (ih (Nat.le_of_succ_le_succ hle))
  | last _ hrest ih => exact .last (ih hle) hrest
  | more _ hcomma _ ih₁ ih₂ => exact .more (ih₁ hle) hcomma (ih₂ hle)
  | noUnit hrest => exact .noUnit hrest
  | operator ht => exact .operator ht
  | ofValue _ hend ih => exact .ofValue (ih hle) hend
  | comparison hop _ ih => exact .comparison hop (ih hle)
  | dots ht hrest => exact .dots ht hrest
  | rangeTo ht hnext _ ih => exact .rangeTo ht hnext (ih hle)
  | rangeFrom _ hgroup ht hrest ih => exact .rangeFrom (ih hle) hgroup ht hrest
  | range _ hgroup ht hnext _ ih₁ ih₂ => exact .range (ih₁ hle) hgroup ht hnext (ih₂ hle)
  | pair hkey hcolon _ ih =>
    obtain ⟨r, rfl⟩ : ∃ r, room' = r + 1 := ⟨room' - 1, by omega⟩
    exact .pair hkey hcolon (ih (Nat.le_of_succ_le_succ hle))
  | list _ hgroup hcomma _ heq ih₁ ih₂ => exact .list (ih₁ hle) hgroup hcomma (ih₂ hle) heq
  | done => exact .done
  | blank ht _ ih => exact .blank ht (ih hle)
  | next _ ht _ ih₁ ih₂ => exact .next (ih₁ hle) ht (ih₂ hle)

/-! ## Room in a scan -/

/-- There is room for some tokens if there is room for each of them. -/
theorem overflowAll?_eq_none_iff {room : Nat} {ts : List Token} :
    overflowAll? room ts = none ↔ ∀ t ∈ ts, t.overflow? room = none := by
  rw [overflowAll?_eq_findSome?, List.findSome?_eq_none_iff]

/-- Of tokens side by side, those in front go too deep first. -/
theorem overflowAll?_append (room : Nat) (ts us : List Token) :
    overflowAll? room (ts ++ us) = (overflowAll? room ts).or (overflowAll? room us) := by
  simp only [overflowAll?_eq_findSome?, List.findSome?_append]

/-- Only groups need room. -/
theorem Token.overflow?_of_not_isGroup {room : Nat} {t : Token} (h : t.isGroup = false) :
    t.overflow? room = none := by
  obtain ⟨kind, index, span, flagged⟩ := t
  cases kind with
  | group | unclosedGroup => cases h
  | _ => rfl

/-- A group needs a level more than its items. -/
theorem Token.overflow?_group {kind : List Token → Kind Token} {room : Nat} {items : List Token}
    {index : Option Nat} {span : Span} {flagged : Bool}
    (hkind : kind = .group ∨ kind = .unclosedGroup) :
    (⟨kind items, index, span, flagged⟩ : Token).overflow? (room + 1) =
      overflowAll? room items := by
  rcases hkind with rfl | rfl <;> rw [overflow?]

/-- Where there is room for a token, there is room for it with one level more. -/
theorem Token.overflow?_succ {room : Nat} {t : Token} (h : t.overflow? room = none) :
    t.overflow? (room + 1) = none := by
  induction t using Token.induct generalizing room with
  | step t ih =>
    obtain ⟨kind, index, span, flagged⟩ := t
    cases kind with
    | group items | unclosedGroup items =>
      cases room with
      | zero => cases h
      | succ room =>
        rw [overflow?, overflowAll?_eq_none_iff] at h ⊢
        exact fun t ht => ih t ht (h t ht)
    | _ => rfl

/-- There is room in a scan for whatever can be read. -/
theorem Stands.overflow {room : Nat} {phrase : Phrase} {raw out rest : List Token}
    (h : Stands room phrase raw out rest) : overflowAll? room raw = none := by
  rw [overflowAll?_eq_none_iff]
  induction h with
  | noValue | noUnit | done => exact nofun
  | fragment ht =>
    refine List.forall_mem_singleton.mpr ?_
    exact Token.overflow?_of_not_isGroup (Token.isGroup_eq_false (.inl ht))
  | whole ht =>
    refine List.forall_mem_singleton.mpr ?_
    exact Token.overflow?_of_not_isGroup (Token.isGroup_eq_false (.inr (.inl ht)))
  | operator ht =>
    refine List.forall_mem_singleton.mpr ?_
    exact Token.overflow?_of_not_isGroup (Token.isGroup_eq_false (.inr (.inr ht)))
  | pattern ht _ hothers =>
    refine List.forall_mem_cons.mpr ⟨?_, ?_⟩
    · exact Token.overflow?_of_not_isGroup (Token.isGroup_eq_false (.inl ht))
    · intro u hu
      exact Token.overflow?_of_not_isGroup (Token.isGroup_eq_false (.inl (hothers u hu)))
  | group hkind _ ih =>
    refine List.forall_mem_singleton.mpr ?_
    rw [Token.overflow?_group hkind, overflowAll?_eq_none_iff]
    exact ih
  | last _ _ ih | ofValue _ _ ih => exact ih
  | more _ hcomma _ ih₁ ih₂ =>
    exact List.forall_mem_append.mpr ⟨ih₁, List.forall_mem_cons.mpr
      ⟨Token.overflow?_of_not_isGroup (Token.isGroup_of_isComma hcomma), ih₂⟩⟩
  | comparison hop _ ih =>
    refine List.forall_mem_cons.mpr ⟨Token.overflow?_of_not_isGroup ?_, ih⟩
    simp [Token.isGroup, hop]
  | dots ht =>
    refine List.forall_mem_singleton.mpr ?_
    exact Token.overflow?_of_not_isGroup (Token.isGroup_of_isDots ht)
  | rangeTo ht _ _ ih =>
    exact List.forall_mem_cons.mpr
      ⟨Token.overflow?_of_not_isGroup (Token.isGroup_of_isDots ht), ih⟩
  | rangeFrom _ _ ht _ ih =>
    exact List.forall_mem_append.mpr ⟨ih, List.forall_mem_singleton.mpr
      (Token.overflow?_of_not_isGroup (Token.isGroup_of_isDots ht))⟩
  | range _ _ ht _ _ ih₁ ih₂ =>
    exact List.forall_mem_append.mpr ⟨ih₁, List.forall_mem_cons.mpr
      ⟨Token.overflow?_of_not_isGroup (Token.isGroup_of_isDots ht), ih₂⟩⟩
  | pair hkey hcolon _ ih =>
    refine List.forall_mem_append.mpr ⟨?_, List.forall_mem_cons.mpr ⟨?_, ?_⟩⟩
    · intro u hu
      have hfragment := Token.isFragment_of_isPinnable (hkey u (Option.mem_toList.mp hu))
      exact Token.overflow?_of_not_isGroup (Token.isGroup_eq_false (.inl hfragment))
    · refine Token.overflow?_of_not_isGroup ?_
      simp [Token.isGroup, Token.isColon_iff.mp hcolon]
    · intro u hu
      exact Token.overflow?_succ (ih u hu)
  | list _ _ hcomma _ heq ih₁ ih₂ =>
    rw [← heq]
    exact List.forall_mem_append.mpr ⟨ih₁, List.forall_mem_cons.mpr
      ⟨Token.overflow?_of_not_isGroup (Token.isGroup_of_isComma hcomma), ih₂⟩⟩
  | blank ht _ ih =>
    exact List.forall_mem_cons.mpr
      ⟨Token.overflow?_of_not_isGroup (Token.isGroup_of_isSpace ht), ih⟩
  | next _ _ _ ih₁ ih₂ => exact List.forall_mem_append.mpr ⟨ih₁, ih₂⟩

/-- Promotion leaves groups as they are nested. -/
theorem Promotes.overflow {room : Nat} {ts us : List Token} (h : Promotes ts us) :
    overflowAll? room ts = overflowAll? room us := by
  induction h generalizing room with
  | nil => rfl
  | @dangling mark hmark =>
    have hmark' : mark.overflow? room = none :=
      Token.overflow?_of_not_isGroup (Token.isGroup_of_isPinMark hmark)
    rw [overflowAll?, hmark']
    rfl
  | @pinning mark value ts us hmark hvalue _ ih =>
    have hmark' : mark.overflow? room = none :=
      Token.overflow?_of_not_isGroup (Token.isGroup_of_isPinMark hmark)
    have hvalue' : value.overflow? room = none := Token.overflow?_of_not_isGroup
      (Token.isGroup_eq_false (.inl (Token.isFragment_of_isPinnable hvalue)))
    rw [overflowAll?, overflowAll?, overflowAll?, hmark', hvalue', ih]
    rfl
  | @pinningNothing mark t ts us hmark _ _ ih =>
    have hmark' : mark.overflow? room = none :=
      Token.overflow?_of_not_isGroup (Token.isGroup_of_isPinMark hmark)
    rw [overflowAll?, hmark', ih, overflowAll?]
    rfl
  | word _ ih =>
    rw [overflowAll?, overflowAll?, ih, Token.overflow?_of_not_isGroup Token.isGroup_keyword.1]
    rfl
  | group hkind _ _ ih₁ ih₂ =>
    rw [overflowAll?, overflowAll?, ih₂]
    cases room with
    | zero => rcases hkind with rfl | rfl <;> rfl
    | succ room => rw [Token.overflow?_group hkind, Token.overflow?_group hkind, ih₁]
  | settled _ _ ih => rw [overflowAll?, overflowAll?, ih]

/-! ## Room for a forest -/

/-- Fragments, keywords and pins of single values hold no levels of nesting. -/
theorem Token.nesting_eq_zero {t : Token} (hgroup : t.isGroup = false)
    (hpromoted : t.isPromoted = true) : t.nesting = 0 := by
  obtain ⟨kind, index, span, flagged⟩ := t
  cases kind with
  | pin value? =>
    cases value? with
    | none => rfl
    | some value =>
      obtain ⟨kind, index, span, flagged⟩ := value
      cases kind with
      | word | quoted => rfl
      | _ => cases hpromoted
  | group | unclosedGroup => cases hgroup
  | comparison | range | pair | unfinishedPair | list | pattern => cases hpromoted
  | _ => rfl

/-- Two forests together are nested no more deeply than a number says just if neither is. -/
theorem nestingAll_append_le_iff {ts us : List Token} {n : Nat} :
    nestingAll (ts ++ us) ≤ n ↔ nestingAll ts ≤ n ∧ nestingAll us ≤ n := by
  simp only [nestingAll_le_iff, List.forall_mem_append]

/-- Promoted tokens that are no groups hold no levels of nesting. -/
theorem nestingAll_le_of_not_isGroup {ts : List Token} {n : Nat}
    (hgroup : ∀ t ∈ ts, t.isGroup = false)
    (hpromoted : ∀ t ∈ preorderAll ts, t.isPromoted = true) : nestingAll ts ≤ n := by
  rw [nestingAll_le_iff]
  intro t ht
  rw [Token.nesting_eq_zero (hgroup t ht) (hpromoted t (mem_preorderAll ht))]
  exact Nat.zero_le n

/-- A pair is nested one level more deeply than what there is of a key and a value. -/
theorem Kind.nesting_ofPair (key? v? : Option Token) :
    (Kind.ofPair key? v?).nesting = nestingAll (key?.toList ++ v?.toList) + 1 := by
  cases key? <;> cases v? <;> simp [Kind.ofPair, Kind.nesting, nestingOption, nestingAll]

/-- What is read from promoted tokens is nested no more deeply than there is room. -/
theorem Stands.nestingAll_le {room : Nat} {phrase : Phrase} {raw out rest : List Token}
    (h : Stands room phrase raw out rest)
    (hpromoted : ∀ t ∈ preorderAll raw, t.isPromoted = true) : nestingAll out ≤ room := by
  induction h with
  | noValue | noUnit | done => exact Nat.zero_le _
  | fragment ht =>
    have hgroup := Token.isGroup_eq_false (.inl ht)
    exact nestingAll_le_of_not_isGroup (List.forall_mem_singleton.mpr hgroup) hpromoted
  | whole ht =>
    have hgroup := Token.isGroup_eq_false (.inr (.inl ht))
    exact nestingAll_le_of_not_isGroup (List.forall_mem_singleton.mpr hgroup) hpromoted
  | operator ht =>
    have hgroup := Token.isGroup_eq_false (.inr (.inr ht))
    exact nestingAll_le_of_not_isGroup (List.forall_mem_singleton.mpr hgroup) hpromoted
  | @pattern _ t others _ ht _ hothers =>
    have hall : ∀ u ∈ t :: others, u.isFragment = true := List.forall_mem_cons.mpr ⟨ht, hothers⟩
    rw [nestingAll_singleton, Token.nesting, Kind.nesting]
    refine nestingAll_le_of_not_isGroup ?_ hpromoted
    intro u hu
    exact Token.isGroup_eq_false (.inl (hall u hu))
  | group hkind _ ih =>
    obtain ⟨-, hitems, -⟩ := forall_mem_preorderAll_cons.mp hpromoted
    rw [nestingAll_singleton]
    rcases hkind with rfl | rfl
    · exact Nat.succ_le_succ (ih hitems)
    · exact Nat.succ_le_succ (ih hitems)
  | last _ _ ih | ofValue _ _ ih => exact ih hpromoted
  | more _ _ _ ih₁ ih₂ =>
    obtain ⟨hraw, hrest⟩ := forall_mem_preorderAll_append.mp hpromoted
    obtain ⟨-, -, hraw'⟩ := forall_mem_preorderAll_cons.mp hrest
    exact nestingAll_append_le_iff.mpr ⟨ih₁ hraw, ih₂ hraw'⟩
  | comparison _ _ ih =>
    obtain ⟨-, -, hraw⟩ := forall_mem_preorderAll_cons.mp hpromoted
    rw [nestingAll_singleton, Token.nesting, Kind.nesting, nestingOption_eq]
    exact ih hraw
  | dots => exact Nat.zero_le _
  | rangeTo _ _ _ ih =>
    obtain ⟨-, -, hraw⟩ := forall_mem_preorderAll_cons.mp hpromoted
    rw [nestingAll_singleton, Token.nesting, Kind.nesting, nestingOption_eq]
    exact Nat.max_le.mpr ⟨Nat.zero_le _, ih hraw⟩
  | rangeFrom _ _ _ _ ih =>
    obtain ⟨hraw, -⟩ := forall_mem_preorderAll_append.mp hpromoted
    rw [nestingAll_singleton, Token.nesting, Kind.nesting, nestingOption_eq]
    have := ih hraw
    rw [nestingAll_singleton] at this
    exact Nat.max_le.mpr ⟨this, Nat.zero_le _⟩
  | range _ _ _ _ _ ih₁ ih₂ =>
    obtain ⟨hraw, hrest⟩ := forall_mem_preorderAll_append.mp hpromoted
    obtain ⟨-, -, hraw'⟩ := forall_mem_preorderAll_cons.mp hrest
    rw [nestingAll_singleton, Token.nesting, Kind.nesting, nestingOption_eq]
    have := ih₁ hraw
    rw [nestingAll_singleton] at this
    exact Nat.max_le.mpr ⟨this, ih₂ hraw'⟩
  | @pair room key? v? colon _ _ hkey _ _ ih =>
    obtain ⟨hkeys, hrest⟩ := forall_mem_preorderAll_append.mp hpromoted
    obtain ⟨-, -, hraw⟩ := forall_mem_preorderAll_cons.mp hrest
    have hk : nestingAll key?.toList ≤ room := by
      refine nestingAll_le_of_not_isGroup ?_ hkeys
      intro u hu
      have hfragment := Token.isFragment_of_isPinnable (hkey u (Option.mem_toList.mp hu))
      exact Token.isGroup_eq_false (.inl hfragment)
    have hparts := nestingAll_append_le_iff.mpr ⟨hk, ih hraw⟩
    rw [nestingAll_singleton, Token.nesting, Kind.nesting_ofPair]
    exact Nat.succ_le_succ hparts
  | list _ _ _ _ heq ih₁ ih₂ =>
    rw [← heq] at hpromoted
    obtain ⟨hraw, hrest⟩ := forall_mem_preorderAll_append.mp hpromoted
    obtain ⟨-, -, hraw'⟩ := forall_mem_preorderAll_cons.mp hrest
    rw [nestingAll_singleton]
    exact nestingAll_append_le_iff.mpr ⟨ih₁ hraw, ih₂ hraw'⟩
  | blank _ _ ih =>
    obtain ⟨-, -, hts⟩ := forall_mem_preorderAll_cons.mp hpromoted
    exact ih hts
  | next _ _ _ ih₁ ih₂ =>
    rw [← List.cons_append] at hpromoted
    obtain ⟨hraw, hrest⟩ := forall_mem_preorderAll_append.mp hpromoted
    exact nestingAll_append_le_iff.mpr ⟨ih₁ hraw, ih₂ hrest⟩

end SearchQuery
