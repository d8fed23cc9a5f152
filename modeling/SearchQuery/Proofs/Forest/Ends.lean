import SearchQuery.Proofs.Forest.Derivation
import SearchQuery.Proofs.Promotion

/-!
# Where the tokens of a forest end

A token may lack a part that it should have (`Token.lacksPart`), and where one does it may not be
known where it ends. Nothing else hides an end: where a forest lacks no part, all its tokens have
ends, except for the bounds that were left out of ranges (`Stands.ended`).
-/

namespace SearchQuery

namespace Token

/-- Does the token lack a part that it should have? -/
def lacksPart (t : Token) : Bool :=
  match t.kind with
  | .unclosedQuoted _ | .unclosedGroup _ | .danglingPin | .pin none | .unfinishedPair _ _
  | .comparison _ none | .range _ none => true
  | _ => false

/-- Is the token a comparison without a value, or a range without the upper bound that it should
have? -/
def isHalf (t : Token) : Bool :=
  match t.kind with
  | .comparison _ none | .range _ none => true
  | _ => false

/-- Is it known where the token ends? -/
def hasEnd (t : Token) : Bool := t.span.stop.isSome

/-- Does the token end somewhere, or is it a group that was left open? -/
def isEnded (t : Token) : Bool :=
  match t.kind with
  | .unclosedGroup _ => true
  | _ => t.hasEnd

/-- Is the token flagged, if it is a pin of nothing? -/
def flagsPin (t : Token) : Bool :=
  match t.kind with
  | .pin none => t.flagged
  | _ => true

/-- A token that lacks a part asks for a correction, unless it is a comparison or a range. -/
theorem isHalf_of_lacksPart {t : Token} (hlacks : t.lacksPart = true)
    (hproblem : t.isProblem = false) (hflags : t.flagsPin = true) : t.isHalf = true := by
  obtain ⟨kind, index, span, flagged⟩ := t
  cases kind with
  | pin value? =>
    cases value? with
    | none =>
      cases flagged with
      | true => cases hproblem
      | false => cases hflags
    | some value => cases hlacks
  | comparison op value? => cases value? <;> first | rfl | cases hlacks
  | range lower upper? => cases upper? <;> first | rfl | cases hlacks
  | unclosedQuoted | unclosedGroup | danglingPin | unfinishedPair => cases hproblem
  | _ => cases hlacks

/-- A token that lacks no part has an end, and so has one that is no group. -/
theorem hasEnd_of_isEnded {t : Token} (h : t.isEnded = true)
    (hlacks : t.lacksPart = false ∨ t.isGroup = false) : t.hasEnd = true := by
  obtain ⟨kind, index, span, flagged⟩ := t
  cases kind with
  | unclosedGroup => rcases hlacks with hlacks | hlacks <;> cases hlacks
  | _ => exact h

/-- A token with an end ends somewhere. -/
theorem isEnded_of_hasEnd {t : Token} (h : t.hasEnd = true) : t.isEnded = true := by
  unfold isEnded
  split
  · rfl
  · exact h

/-- A raw token is no pin. -/
theorem flagsPin_of_isRaw {t : Token} (h : t.isRaw = true) : t.flagsPin = true := by
  obtain ⟨kind, index, span, flagged⟩ := t
  cases kind <;> first | rfl | cases h

end Token

/-! ## Ends -/

/-- The tokens `raw` that others were read from have ends, and so have those others, except for
bounds that were left out. -/
structure Ended (raw out : List Token) : Prop where
  source : ∀ t ∈ raw, t.hasEnd = true
  trees : ∀ t ∈ out, t.hasEnd = true
  inside : ∀ t ∈ preorderAll out, t.kind = .unbounded ∨ t.hasEnd = true

theorem Ended.nil : Ended [] [] := ⟨nofun, nofun, nofun⟩

theorem Ended.append {raw raw' out out' : List Token} (h : Ended raw out) (h' : Ended raw' out') :
    Ended (raw ++ raw') (out ++ out') :=
  ⟨List.forall_mem_append.mpr ⟨h.source, h'.source⟩, List.forall_mem_append.mpr ⟨h.trees, h'.trees⟩,
    forall_mem_preorderAll_append.mpr ⟨h.inside, h'.inside⟩⟩

/-- A sign that leaves nothing in a forest has an end too. -/
theorem Ended.cons {raw out : List Token} (h : Ended raw out) {t : Token} (ht : t.isEnded = true)
    (hgroup : t.isGroup = false) : Ended (t :: raw) out :=
  ⟨List.forall_mem_cons.mpr ⟨Token.hasEnd_of_isEnded ht (.inr hgroup), h.source⟩, h.trees, h.inside⟩

/-- A token made of parts has an end if its own is known. -/
theorem Ended.composite {raw : List Token} {t : Token} (hraw : ∀ u ∈ raw, u.hasEnd = true)
    (ht : t.hasEnd = true)
    (hparts : ∀ u ∈ preorderAll t.kind.parts, u.kind = .unbounded ∨ u.hasEnd = true) :
    Ended raw [t] :=
  ⟨hraw, List.forall_mem_singleton.mpr ht,
    forall_mem_preorderAll_cons.mpr ⟨.inr ht, hparts, nofun⟩⟩

/-- Tokens that lack nothing have ends if they have them at all. -/
theorem Ended.refl {ts : List Token} (hraw : ∀ t ∈ preorderAll ts, t.isEnded = true)
    (hlacks : ∀ t ∈ preorderAll ts, t.lacksPart = false) : Ended ts ts := by
  have hall : ∀ t ∈ preorderAll ts, t.hasEnd = true :=
    fun t ht => Token.hasEnd_of_isEnded (hraw t ht) (.inl (hlacks t ht))
  have htops : ∀ t ∈ ts, t.hasEnd = true := fun t ht => hall t (mem_preorderAll ht)
  exact ⟨htops, htops, fun t ht => .inr (hall t ht)⟩

/-- A stretch of tokens ends where the last of them does. -/
theorem Span.stop_over_isSome {t : Token} {ts : List Token}
    (h : ∀ u ∈ t :: ts, u.hasEnd = true) : (Span.over t ts).stop.isSome = true := by
  rw [Span.over]
  refine h _ ?_
  cases hlast : ts.getLast? with
  | none => exact .head _
  | some u => exact .tail _ (List.mem_of_getLast? hlast)

/-- A bound that was left out has no end and contains nothing. -/
theorem unbounded_inside :
    ∀ u ∈ preorderAll [Token.unbounded], u.kind = .unbounded ∨ u.hasEnd = true :=
  forall_mem_preorderAll_cons.mpr ⟨.inl rfl, nofun, nofun⟩

/-- Where a forest lacks no part, its tokens have ends, and so have those that it was read from. -/
theorem Stands.ended {room : Nat} {phrase : Phrase} {raw out rest : List Token}
    (h : Stands room phrase raw out rest) (hraw : ∀ t ∈ preorderAll raw, t.isEnded = true)
    (hlacks : ∀ t ∈ preorderAll out, t.lacksPart = false) : Ended raw out := by
  induction h with
  | noValue | noUnit | done => exact .nil
  | fragment | whole | operator => exact .refl hraw hlacks
  | @pattern _ t others =>
    obtain ⟨-, hparts, -⟩ := forall_mem_preorderAll_cons.mp hlacks
    have hended : Ended (t :: others) (t :: others) := .refl hraw hparts
    exact .composite hended.source (Span.stop_over_isSome hended.source) hended.inside
  | group hkind _ ih =>
    obtain ⟨htop, hitems, -⟩ := forall_mem_preorderAll_cons.mp hraw
    obtain ⟨hlacks, hforest, -⟩ := forall_mem_preorderAll_cons.mp hlacks
    rcases hkind with rfl | rfl
    · exact .composite (List.forall_mem_singleton.mpr htop) htop (ih hitems hforest).inside
    · cases hlacks
  | last _ _ ih | ofValue _ _ ih => exact ih hraw hlacks
  | more _ hcomma _ ih₁ ih₂ =>
    obtain ⟨hraw, hrest⟩ := forall_mem_preorderAll_append.mp hraw
    obtain ⟨hsign, -, hraw'⟩ := forall_mem_preorderAll_cons.mp hrest
    obtain ⟨hv, hvs⟩ := forall_mem_preorderAll_append.mp hlacks
    exact (ih₁ hraw hv).append ((ih₂ hraw' hvs).cons hsign (Token.isGroup_of_isComma hcomma))
  | @comparison _ op t v? raw rest hop _ ih =>
    obtain ⟨hsign, -, hraw⟩ := forall_mem_preorderAll_cons.mp hraw
    obtain ⟨hlacks, hparts, -⟩ := forall_mem_preorderAll_cons.mp hlacks
    cases v? with
    | none => cases hlacks
    | some v =>
      have hgroup : t.isGroup = false := by simp [Token.isGroup, hop]
      have hended := (ih hraw hparts).cons hsign hgroup
      exact .composite hended.source (hended.trees v (.head _)) hended.inside
  | dots ht =>
    obtain ⟨hsign, -, -⟩ := forall_mem_preorderAll_cons.mp hraw
    have hend := Token.hasEnd_of_isEnded hsign (.inr (Token.isGroup_of_isDots ht))
    refine .composite (List.forall_mem_singleton.mpr hend) hend ?_
    exact forall_mem_preorderAll_append.mpr ⟨unbounded_inside, unbounded_inside⟩
  | @rangeTo _ t v? raw rest ht _ _ ih =>
    obtain ⟨hsign, -, hraw⟩ := forall_mem_preorderAll_cons.mp hraw
    obtain ⟨hlacks, hparts, -⟩ := forall_mem_preorderAll_cons.mp hlacks
    obtain ⟨-, hupper⟩ := forall_mem_preorderAll_append.mp
      (show ∀ u ∈ preorderAll ([.unbounded] ++ v?.toList), u.lacksPart = false from hparts)
    cases v? with
    | none => cases hlacks
    | some v =>
      have hended := (ih hraw hupper).cons hsign (Token.isGroup_of_isDots ht)
      refine .composite hended.source (hended.trees v (.head _)) ?_
      exact forall_mem_preorderAll_append.mpr ⟨unbounded_inside, hended.inside⟩
  | @rangeFrom _ t v raw rest _ _ ht _ ih =>
    obtain ⟨hraw, hrest⟩ := forall_mem_preorderAll_append.mp hraw
    obtain ⟨hsign, -, -⟩ := forall_mem_preorderAll_cons.mp hrest
    obtain ⟨-, hparts, -⟩ := forall_mem_preorderAll_cons.mp hlacks
    obtain ⟨hv, -⟩ := forall_mem_preorderAll_append.mp
      (show ∀ u ∈ preorderAll ([v] ++ [.unbounded]), u.lacksPart = false from hparts)
    have hlower := ih hraw hv
    have hend := Token.hasEnd_of_isEnded hsign (.inr (Token.isGroup_of_isDots ht))
    refine .composite (List.forall_mem_append.mpr ⟨hlower.source, ?_⟩) hend ?_
    · exact List.forall_mem_singleton.mpr hend
    · exact forall_mem_preorderAll_append.mpr ⟨hlower.inside, unbounded_inside⟩
  | @range _ t v w? raw raw' rest _ _ ht _ _ ih₁ ih₂ =>
    obtain ⟨hraw, hrest⟩ := forall_mem_preorderAll_append.mp hraw
    obtain ⟨hsign, -, hraw'⟩ := forall_mem_preorderAll_cons.mp hrest
    obtain ⟨hlacks, hparts, -⟩ := forall_mem_preorderAll_cons.mp hlacks
    obtain ⟨hv, hw⟩ := forall_mem_preorderAll_append.mp
      (show ∀ u ∈ preorderAll ([v] ++ w?.toList), u.lacksPart = false from hparts)
    cases w? with
    | none => cases hlacks
    | some w =>
      have hupper := ih₂ hraw' hw
      have hended := (ih₁ hraw hv).append (hupper.cons hsign (Token.isGroup_of_isDots ht))
      exact .composite hended.source (hupper.trees w (.head _)) hended.inside
  | @pair _ key? v? colon raw rest hkey hcolon _ ih =>
    obtain ⟨hkeys, hrest⟩ := forall_mem_preorderAll_append.mp hraw
    obtain ⟨hsign, -, hraw⟩ := forall_mem_preorderAll_cons.mp hrest
    obtain ⟨hlacks, hparts, -⟩ := forall_mem_preorderAll_cons.mp hlacks
    rw [Kind.parts_ofPair] at hparts
    obtain ⟨hkey', hv⟩ := forall_mem_preorderAll_append.mp hparts
    have hcolon' : colon.isGroup = false := by simp [Token.isGroup, Token.isColon_iff.mp hcolon]
    have hvalue := ih hraw hv
    have hended := (Ended.refl hkeys hkey').append (hvalue.cons hsign hcolon')
    cases key? with
    | none => cases hlacks
    | some key =>
      cases v? with
      | none => cases hlacks
      | some v => exact .composite hended.source (hvalue.trees v (.head _)) hended.inside
  | @list _ v? comma first raw raw' vs others rest _ _ hcomma _ heq ih₁ ih₂ =>
    rw [← heq] at hraw
    obtain ⟨hraw, hrest⟩ := forall_mem_preorderAll_append.mp hraw
    obtain ⟨hsign, -, hraw'⟩ := forall_mem_preorderAll_cons.mp hrest
    obtain ⟨-, hparts, -⟩ := forall_mem_preorderAll_cons.mp hlacks
    obtain ⟨hv, hvs⟩ := forall_mem_preorderAll_append.mp hparts
    have hended := (ih₁ hraw hv).append
      ((ih₂ hraw' hvs).cons hsign (Token.isGroup_of_isComma hcomma))
    rw [heq] at hended
    exact .composite hended.source (Span.stop_over_isSome hended.source) hended.inside
  | blank ht _ ih =>
    obtain ⟨hblank, -, hts⟩ := forall_mem_preorderAll_cons.mp hraw
    exact (ih hts hlacks).cons hblank (Token.isGroup_of_isSpace ht)
  | next _ _ _ ih₁ ih₂ =>
    rw [← List.cons_append] at hraw
    obtain ⟨hraw, hrest⟩ := forall_mem_preorderAll_append.mp hraw
    rw [← List.singleton_append] at hlacks
    obtain ⟨hu, hus⟩ := forall_mem_preorderAll_append.mp hlacks
    rw [← List.cons_append, ← List.singleton_append]
    exact (ih₁ hraw hu).append (ih₂ hrest hus)

/-! ## What a forest is made of -/

/-- Is the token one that readers make, other than raw tokens that are taken as they are? -/
def Token.isMade (t : Token) : Bool :=
  match t.kind with
  | .group _ | .unclosedGroup _ | .pattern _ | .comparison _ _ | .range _ _ | .pair _ _
  | .unfinishedPair _ _ | .list _ | .unbounded => true
  | _ => false

/-- What holds of the tokens that a forest is read from, and of all that readers make, holds of all
tokens of the forest. -/
theorem Stands.forall_mem_preorderAll {P : Token → Prop}
    (hmade : ∀ t : Token, t.isMade = true → P t) {room : Nat} {phrase : Phrase}
    {raw out rest : List Token} (h : Stands room phrase raw out rest)
    (hraw : ∀ t ∈ preorderAll raw, P t) :
    ∀ t ∈ preorderAll out, P t := by
  have hunbounded : ∀ t ∈ preorderAll [Token.unbounded], P t :=
    forall_mem_preorderAll_cons.mpr ⟨hmade _ rfl, nofun, nofun⟩
  induction h with
  | noValue | noUnit | done => exact nofun
  | fragment | whole | operator => exact hraw
  | pattern => exact forall_mem_preorderAll_cons.mpr ⟨hmade _ rfl, hraw, nofun⟩
  | group hkind _ ih =>
    obtain ⟨-, hitems, -⟩ := forall_mem_preorderAll_cons.mp hraw
    rcases hkind with rfl | rfl
    all_goals exact forall_mem_preorderAll_cons.mpr ⟨hmade _ rfl, ih hitems, nofun⟩
  | last _ _ ih | ofValue _ _ ih => exact ih hraw
  | more _ _ _ ih₁ ih₂ =>
    obtain ⟨hraw, hrest⟩ := forall_mem_preorderAll_append.mp hraw
    obtain ⟨-, -, hraw'⟩ := forall_mem_preorderAll_cons.mp hrest
    exact forall_mem_preorderAll_append.mpr ⟨ih₁ hraw, ih₂ hraw'⟩
  | comparison _ _ ih =>
    obtain ⟨-, -, hraw⟩ := forall_mem_preorderAll_cons.mp hraw
    exact forall_mem_preorderAll_cons.mpr ⟨hmade _ rfl, ih hraw, nofun⟩
  | dots =>
    have hparts := forall_mem_preorderAll_append.mpr ⟨hunbounded, hunbounded⟩
    exact forall_mem_preorderAll_cons.mpr ⟨hmade _ rfl, hparts, nofun⟩
  | rangeTo _ _ _ ih =>
    obtain ⟨-, -, hraw⟩ := forall_mem_preorderAll_cons.mp hraw
    have hparts := forall_mem_preorderAll_append.mpr ⟨hunbounded, ih hraw⟩
    exact forall_mem_preorderAll_cons.mpr ⟨hmade _ rfl, hparts, nofun⟩
  | rangeFrom _ _ _ _ ih =>
    obtain ⟨hraw, -⟩ := forall_mem_preorderAll_append.mp hraw
    have hparts := forall_mem_preorderAll_append.mpr ⟨ih hraw, hunbounded⟩
    exact forall_mem_preorderAll_cons.mpr ⟨hmade _ rfl, hparts, nofun⟩
  | range _ _ _ _ _ ih₁ ih₂ =>
    obtain ⟨hraw, hrest⟩ := forall_mem_preorderAll_append.mp hraw
    obtain ⟨-, -, hraw'⟩ := forall_mem_preorderAll_cons.mp hrest
    have hparts := forall_mem_preorderAll_append.mpr ⟨ih₁ hraw, ih₂ hraw'⟩
    exact forall_mem_preorderAll_cons.mpr ⟨hmade _ rfl, hparts, nofun⟩
  | @pair _ key? v? _ _ _ _ _ _ ih =>
    obtain ⟨hkey, hrest⟩ := forall_mem_preorderAll_append.mp hraw
    obtain ⟨-, -, hraw⟩ := forall_mem_preorderAll_cons.mp hrest
    have hparts := forall_mem_preorderAll_append.mpr ⟨hkey, ih hraw⟩
    rw [← Kind.parts_ofPair] at hparts
    refine forall_mem_preorderAll_cons.mpr ⟨hmade _ ?_, hparts, nofun⟩
    cases key? <;> cases v? <;> rfl
  | list _ _ _ _ heq ih₁ ih₂ =>
    rw [← heq] at hraw
    obtain ⟨hraw, hrest⟩ := forall_mem_preorderAll_append.mp hraw
    obtain ⟨-, -, hraw'⟩ := forall_mem_preorderAll_cons.mp hrest
    have hparts := forall_mem_preorderAll_append.mpr ⟨ih₁ hraw, ih₂ hraw'⟩
    exact forall_mem_preorderAll_cons.mpr ⟨hmade _ rfl, hparts, nofun⟩
  | blank _ _ ih =>
    obtain ⟨-, -, hts⟩ := forall_mem_preorderAll_cons.mp hraw
    exact ih hts
  | next _ _ _ ih₁ ih₂ =>
    rw [← List.cons_append] at hraw
    obtain ⟨hraw, hrest⟩ := forall_mem_preorderAll_append.mp hraw
    rw [← List.singleton_append]
    exact forall_mem_preorderAll_append.mpr ⟨ih₁ hraw, ih₂ hrest⟩

/-- Readers make no pins. -/
theorem Token.flagsPin_of_isMade {t : Token} (h : t.isMade = true) : t.flagsPin = true := by
  obtain ⟨kind, index, span, flagged⟩ := t
  cases kind <;> first | rfl | cases h

/-! ## Scanned and promoted tokens -/

/-- The tokens of a scan end somewhere, except for groups that were left open. -/
theorem Scans.isEnded {p q : Nat} {cs left : List Char} {ts : List Token}
    (h : Scans p cs ts q left) : ∀ t ∈ preorderAll ts, t.isEnded = true :=
  h.forall_mem_preorderAll (fun _ _ _ => Token.isEnded_of_hasEnd rfl) (fun _ _ _ => rfl)
    fun _ _ => rfl

/-- Promotion leaves the ends of a token as they are. -/
theorem Token.isEnded_promote {t : Token} (h : t.isEnded = true) : t.promote.isEnded = true := by
  unfold promote
  split
  · exact isEnded_of_hasEnd h
  · exact h
  · rfl
  · exact h

/-- Promoted tokens end somewhere if the raw ones do. -/
theorem Promotes.isEnded {ts us : List Token} (h : Promotes ts us)
    (hraw : ∀ t ∈ preorderAll ts, t.isRaw = true ∧ t.isEnded = true) :
    ∀ t ∈ preorderAll us, t.isEnded = true := by
  refine h.forall_mem_preorderAll ?_ ?_ (fun _ _ _ => Token.isEnded_promote) hraw
  · intro mark hmark hended
    have hend := Token.hasEnd_of_isEnded hended (.inr (Token.isGroup_of_isPinMark hmark))
    exact ⟨hend, hend⟩
  · intro mark value hvalue _ hended
    have hgroup := Token.isGroup_eq_false (.inl (Token.isFragment_of_isPinnable hvalue))
    have hend : value.hasEnd = true := Token.hasEnd_of_isEnded hended (.inr hgroup)
    exact ⟨hend, hended⟩

/-- What a token other than a pin mark means is no pin. -/
theorem Token.flagsPin_promote {t : Token} (h : t.isRaw = true) : t.promote.flagsPin = true := by
  unfold promote
  split
  · unfold keyword?
    split <;> rfl
  · rfl
  · rfl
  · exact flagsPin_of_isRaw h

/-- A pin of nothing is flagged. -/
theorem Promotes.flagsPin {ts us : List Token} (h : Promotes ts us)
    (hraw : ∀ t ∈ preorderAll ts, t.isRaw = true) : ∀ t ∈ preorderAll us, t.flagsPin = true := by
  refine h.forall_mem_preorderAll (fun _ _ _ => ⟨rfl, rfl⟩) (fun _ _ _ _ hvalue => ⟨rfl, hvalue⟩)
    (fun _ ht _ _ => Token.flagsPin_promote ht) fun t ht => ⟨hraw t ht, ?_⟩
  exact Token.flagsPin_of_isRaw (hraw t ht)

end SearchQuery
