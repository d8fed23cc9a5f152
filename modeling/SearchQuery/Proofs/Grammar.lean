import Mathlib
import SearchQuery.Proofs.Canonical.Recovery
import SearchQuery.Proofs.Outcome

/-!
# The grammar of forests

Any text may be read, also a malformed one, but not any forest comes of it. `Token.Grammatical` is
the grammar of the forests that do: which tokens there are, and which of them may be parts of which
others. It is wider than that of the forests that can be written down (`Token.Canonical`), because
parts may be missing, and strings and groups may be unclosed. Promoted tokens keep to a part of the
grammar (`Token.Recognized`), and readers put them together by its rules (`Stands.grammatical`).
-/

namespace SearchQuery

/-- A token that can be found in a forest, in some role. Nothing is said about where it lies. -/
inductive Token.Grammatical : Role → Token → Prop
  | word {word : String} {index : Option Nat} {span : Span} : ¬ SpellsKeyword word →
      Grammatical .fragment ⟨.word word, index, span, false⟩
  | quoted {text : String} {index : Option Nat} {span : Span} :
      Grammatical .fragment ⟨.quoted text, index, span, false⟩
  | unclosedQuoted {text : String} {index : Option Nat} {span : Span} :
      Grammatical .fragment ⟨.unclosedQuoted text, index, span, false⟩
  | wildcard {index : Option Nat} {span : Span} :
      Grammatical .fragment ⟨.wildcard, index, span, false⟩
  | anyChar {index : Option Nat} {span : Span} :
      Grammatical .fragment ⟨.anyChar, index, span, false⟩
  | fragment {t : Token} : Grammatical .fragment t → Grammatical .value t
  | pattern {fragments : List Token} {index : Option Nat} {span : Span} : 2 ≤ fragments.length →
      (∀ t ∈ fragments, Grammatical .fragment t) →
      Grammatical .value ⟨.pattern fragments, index, span, false⟩
  | null {index : Option Nat} {span : Span} : Grammatical .value ⟨.null, index, span, false⟩
  /-- A pinned word may spell a keyword. -/
  | pin {value : Token} {index : Option Nat} {span : Span} : value.isPinnable = true →
      value.flagged = false → Grammatical .value ⟨.pin (some value), index, span, false⟩
  /-- The only token that is flagged. -/
  | pinOfNothing {index : Option Nat} {span : Span} :
      Grammatical .value ⟨.pin none, index, span, true⟩
  | danglingPin {index : Option Nat} {span : Span} :
      Grammatical .value ⟨.danglingPin, index, span, false⟩
  | group {units : List Token} {index : Option Nat} {span : Span} :
      (∀ t ∈ units, Grammatical .unit t) → Grammatical .value ⟨.group units, index, span, false⟩
  | unclosedGroup {units : List Token} {index : Option Nat} {span : Span} :
      (∀ t ∈ units, Grammatical .unit t) →
      Grammatical .value ⟨.unclosedGroup units, index, span, false⟩
  | noLower : Grammatical .lower .unbounded
  | lower {t : Token} : Grammatical .value t → t.isGroup = false → Grammatical .lower t
  | noUpper : Grammatical .upper .unbounded
  | upper {t : Token} : Grammatical .value t → Grammatical .upper t
  | value {t : Token} : Grammatical .value t → Grammatical .unit t
  | and {index : Option Nat} {span : Span} : Grammatical .unit ⟨.and, index, span, false⟩
  | or {index : Option Nat} {span : Span} : Grammatical .unit ⟨.or, index, span, false⟩
  | not {index : Option Nat} {span : Span} : Grammatical .unit ⟨.not, index, span, false⟩
  | comparison {op : Comparator} {v? : Option Token} {index : Option Nat} {span : Span} :
      (∀ v ∈ v?, Grammatical .value v) →
      Grammatical .unit ⟨.comparison op v?, index, span, false⟩
  | range {lower : Token} {upper? : Option Token} {index : Option Nat} {span : Span} :
      Grammatical .lower lower → (∀ upper ∈ upper?, Grammatical .upper upper) →
      Grammatical .unit ⟨.range lower upper?, index, span, false⟩
  | list {values : List Token} {index : Option Nat} {span : Span} :
      (∀ v ∈ values, Grammatical .value v) → Grammatical .unit ⟨.list values, index, span, false⟩
  | pair {key value : Token} {index : Option Nat} {span : Span} : Grammatical .fragment key →
      key.isPinnable = true → Grammatical .unit value →
      Grammatical .unit ⟨.pair key value, index, span, false⟩
  /-- A pair that lacks its key, its value, or both. -/
  | unfinishedPair {key? value? : Option Token} {index : Option Nat} {span : Span} :
      (∀ key ∈ key?, Grammatical .fragment key) → (∀ key ∈ key?, key.isPinnable = true) →
      (∀ value ∈ value?, Grammatical .unit value) → key? = none ∨ value? = none →
      Grammatical .unit ⟨.unfinishedPair key? value?, index, span, false⟩

namespace Token

/-- Is the token a run of blanks, or a sign that says what the tokens next to it are for? -/
def isPunctuation (t : Token) : Bool :=
  match t.kind with
  | .space _ | .pinMark | .comparator _ | .colon | .dots | .comma => true
  | _ => false

/-- Blanks, commas, colons and dots are punctuation. -/
theorem isPunctuation_eq_true {t : Token}
    (h : t.isSpace = true ∨ t.isComma = true ∨ t.isColon = true ∨ t.isDots = true) :
    t.isPunctuation = true := by
  obtain ⟨kind, index, span, flagged⟩ := t
  cases kind with
  | space | comma | colon | dots => rfl
  | _ => rcases h with h | h | h | h <;> cases h

/-- There is no punctuation anywhere in a grammatical token, and only pins of nothing are
flagged. -/
theorem Grammatical.inside {role : Role} {t : Token} (h : Grammatical role t) :
    ∀ x ∈ t.preorder, x.isPunctuation = false ∧ (x.flagged = true ↔ x.kind = .pin none) := by
  induction h with
  | fragment _ ih | lower _ _ ih | upper _ ih | value _ ih => exact ih
  | pattern _ _ ih | group _ ih | unclosedGroup _ ih | list _ ih =>
    exact forall_mem_preorder ⟨rfl, by simp⟩ ih
  | @pin value _ _ hvalue hflagged =>
    refine forall_mem_preorder ⟨rfl, by simp⟩ (List.forall_mem_singleton.mpr ?_)
    obtain ⟨kind, index, span, flagged⟩ := value
    cases hflagged
    cases kind with
    | word | quoted => exact forall_mem_preorder ⟨rfl, by simp⟩ nofun
    | _ => cases hvalue
  | @comparison _ v? _ _ _ ih =>
    refine forall_mem_preorder ⟨rfl, by simp⟩ ?_
    exact fun v hv => ih v (Option.mem_toList.mp hv)
  | @range _ upper? _ _ _ _ ih₁ ih₂ =>
    refine forall_mem_preorder ⟨rfl, by simp⟩ (List.forall_mem_cons.mpr ⟨ih₁, ?_⟩)
    exact fun upper hupper => ih₂ upper (Option.mem_toList.mp hupper)
  | pair _ _ _ ih₁ ih₂ =>
    exact forall_mem_preorder ⟨rfl, by simp⟩
      (List.forall_mem_cons.mpr ⟨ih₁, List.forall_mem_singleton.mpr ih₂⟩)
  | unfinishedPair _ _ _ _ ih₁ ih₂ =>
    refine forall_mem_preorder ⟨rfl, by simp⟩ (List.forall_mem_append.mpr ⟨?_, ?_⟩)
    · exact fun key hkey => ih₁ key (Option.mem_toList.mp hkey)
    · exact fun value hvalue => ih₂ value (Option.mem_toList.mp hvalue)
  | noLower | noUpper => exact forall_mem_preorder ⟨rfl, by simp [unbounded]⟩ nofun
  | _ => exact forall_mem_preorder ⟨rfl, by simp⟩ nofun

/-! ## Promoted tokens -/

/-- Is the token anything but a word that spells a keyword? -/
def AvoidsKeyword (t : Token) : Prop := ∀ word, t.kind = .word word → ¬ SpellsKeyword word

/-- A promoted token: no word that spells a keyword is left in it, except as the value of a pin, and
only pins of nothing are flagged. -/
structure Recognized (t : Token) : Prop where
  self : t.AvoidsKeyword
  items : ∀ x ∈ t.preorder, x.isGroup = true → ∀ p ∈ x.kind.parts, p.AvoidsKeyword
  promoted : ∀ x ∈ t.preorder, x.isPromoted = true
  flagged : ∀ x ∈ t.preorder, x.flagged = true ↔ x.kind = .pin none

end Token

/-- A word that is recognised as no keyword spells none. -/
theorem not_spellsKeyword {τ : Type} {text word : String}
    (h : (keyword? text).getD (.word text) = (.word word : Kind τ)) : ¬ SpellsKeyword word := by
  intro hspells
  cases hk : (keyword? text : Option (Kind τ)) with
  | none =>
    rw [hk] at h
    cases h
    simp only [SpellsKeyword, List.map_cons, List.map_nil, List.mem_cons, List.not_mem_nil,
      or_false] at hspells
    unfold keyword? at hk
    rcases hspells with heq | heq | heq | heq <;> rw [heq] at hk <;> cases hk
  | some kind =>
    rw [hk] at h
    unfold keyword? at hk
    split at hk <;> cases hk <;> cases h

/-- Promotion leaves no word that spells a keyword. -/
theorem Promotes.avoidsKeyword {ts us : List Token} (h : Promotes ts us) :
    ∀ u ∈ us, u.AvoidsKeyword := by
  induction h with
  | nil => exact nofun
  | dangling => exact List.forall_mem_singleton.mpr nofun
  | pinning _ _ _ ih | pinningNothing _ _ _ ih => exact List.forall_mem_cons.mpr ⟨nofun, ih⟩
  | word _ ih => exact List.forall_mem_cons.mpr ⟨fun _ => not_spellsKeyword, ih⟩
  | group hkind _ _ _ ih =>
    rcases hkind with rfl | rfl <;> exact List.forall_mem_cons.mpr ⟨nofun, ih⟩
  | @settled t _ _ ht _ ih =>
    refine List.forall_mem_cons.mpr ⟨?_, ih⟩
    intro word hword
    simp [Token.isSettled, hword] at ht

/-- By itself a raw token is promoted to none that is flagged, and a group to one without keywords
among its items that are still words. -/
theorem Token.recognized_promote {t : Token} (hraw : t.isRaw = true) (hflagged : t.flagged = false) :
    (t.promote.flagged = true ↔ t.promote.kind = .pin none) ∧
      (t.promote.isGroup = true → ∀ p ∈ t.promote.kind.parts, p.AvoidsKeyword) := by
  obtain ⟨kind, index, span, flagged⟩ := t
  cases hflagged
  cases kind with
  | word text =>
    rw [promote, isGroup_keyword.1]
    refine ⟨?_, by simp⟩
    unfold keyword?
    split <;> simp
  | group items | unclosedGroup items =>
    rw [promote]
    exact ⟨by simp, fun _ => (promotes items).avoidsKeyword⟩
  | _ => first | (cases hraw; done) | simp [promote, isGroup]

/-- Raw tokens that are not flagged are promoted to recognised ones. -/
theorem Promotes.recognized {ts us : List Token} (h : Promotes ts us)
    (hraw : ∀ t ∈ preorderAll ts, t.isRaw = true ∧ t.flagged = false) :
    ∀ u ∈ us, u.Recognized := by
  have hinside : ∀ x ∈ preorderAll us, (x.flagged = true ↔ x.kind = .pin none) ∧
      (x.isGroup = true → ∀ p ∈ x.kind.parts, p.AvoidsKeyword) := by
    refine h.forall_mem_preorderAll ?_ ?_ ?_ hraw
    · intro mark _ hflagged
      simp [Token.dangling, Token.pinningNothing, Token.isGroup, hflagged]
    · intro mark value hvalue hflagged hflagged'
      have hgroup := Token.isGroup_eq_false (.inl (Token.isFragment_of_isPinnable hvalue))
      have hkind : value.kind ≠ .pin none := by
        intro hkind
        simp [Token.isPinnable, hkind] at hvalue
      constructor
      · simp [Token.pinning, Token.isGroup, hflagged]
      · simp [hflagged', hkind, hgroup]
    · exact fun t hraw _ => Token.recognized_promote hraw
  have hpromoted := h.isPromoted fun t ht => (hraw t ht).1
  intro u hu
  have hsub : ∀ x ∈ u.preorder, x ∈ preorderAll us :=
    fun x hx => mem_preorderAll_iff.mpr ⟨u, hu, hx⟩
  exact ⟨h.avoidsKeyword u hu, fun x hx => (hinside x (hsub x hx)).2,
    fun x hx => hpromoted x (hsub x hx), fun x hx => (hinside x (hsub x hx)).1⟩

/-- The raw tokens of a scan are not flagged. -/
theorem Scans.flagged_eq_false {p q : Nat} {cs left : List Char} {ts : List Token}
    (h : Scans p cs ts q left) : ∀ t ∈ preorderAll ts, t.flagged = false :=
  h.forall_mem_preorderAll (fun _ _ _ => rfl) (fun _ _ _ => rfl) fun _ _ => rfl

namespace Token.Recognized

variable {t : Token}

/-- What holds inside a recognised token holds of the token itself. -/
theorem here (h : t.Recognized) :
    t.isPromoted = true ∧ (t.flagged = true ↔ t.kind = .pin none) :=
  ⟨h.promoted t t.mem_preorder_self, h.flagged t t.mem_preorder_self⟩

/-- A recognised token other than a pin of nothing is not flagged. -/
theorem flagged_eq_false (h : t.Recognized) (hkind : t.kind ≠ .pin none) : t.flagged = false := by
  have := h.here.2
  cases hflagged : t.flagged with
  | false => rfl
  | true => exact absurd (this.mp hflagged) hkind

/-- The items of a recognised group are recognised. -/
theorem part (h : t.Recognized) (hgroup : t.isGroup = true) :
    ∀ p ∈ t.kind.parts, p.Recognized := by
  intro p hp
  have hsub : ∀ x ∈ p.preorder, x ∈ t.preorder := fun x => mem_preorder_of_part hp
  exact ⟨h.items t t.mem_preorder_self hgroup p hp, fun x hx => h.items x (hsub x hx),
    fun x hx => h.promoted x (hsub x hx), fun x hx => h.flagged x (hsub x hx)⟩

/-- Recognised tokens that are taken as they are keep to the grammar. -/
theorem fragment (h : t.Recognized) (ht : t.isFragment = true) : Grammatical .fragment t := by
  have hflagged : t.flagged = false := h.flagged_eq_false (by
    intro hkind
    simp [isFragment, hkind] at ht)
  have hword := h.self
  obtain ⟨kind, index, span, flagged⟩ := t
  cases hflagged
  cases kind with
  | word text => exact .word (hword text rfl)
  | quoted => exact .quoted
  | unclosedQuoted => exact .unclosedQuoted
  | wildcard => exact .wildcard
  | anyChar => exact .anyChar
  | _ => cases ht

/-- What a recognised pin holds can be pinned, and is not flagged. -/
theorem pinned (h : t.Recognized) (value : Token) (hkind : t.kind = .pin (some value)) :
    value.isPinnable = true ∧ value.flagged = false := by
  have hvalue : value.isPinnable = true := by simpa [isPromoted, hkind] using h.here.1
  have hmem : value ∈ t.preorder :=
    mem_preorder_of_part (by rw [hkind]; exact .head _) value.mem_preorder_self
  refine ⟨hvalue, ?_⟩
  cases hflagged : value.flagged with
  | false => rfl
  | true => simp [isPinnable, (h.flagged value hmem).mp hflagged] at hvalue

theorem whole (h : t.Recognized) (ht : t.isWhole = true) : Grammatical .value t := by
  obtain ⟨hpromoted, hflagged⟩ := h.here
  have hpinned := h.pinned
  obtain ⟨kind, index, span, flagged⟩ := t
  cases kind with
  | null =>
    obtain rfl : flagged = false := by simpa using hflagged
    exact .null
  | danglingPin =>
    obtain rfl : flagged = false := by simpa using hflagged
    exact .danglingPin
  | pin value? =>
    cases value? with
    | none =>
      obtain rfl : flagged = true := by simpa using hflagged
      exact .pinOfNothing
    | some value =>
      obtain rfl : flagged = false := by simpa using hflagged
      obtain ⟨hvalue, hunflagged⟩ := hpinned value rfl
      exact .pin hvalue hunflagged
  | range | comparison => cases hpromoted
  | _ => cases ht

theorem operator (h : t.Recognized) (ht : t.isOperator = true) : Grammatical .unit t := by
  have hflagged : t.flagged = false := h.flagged_eq_false (by
    intro hkind
    simp [isOperator, hkind] at ht)
  obtain ⟨kind, index, span, flagged⟩ := t
  cases hflagged
  cases kind with
  | and => exact .and
  | or => exact .or
  | not => exact .not
  | _ => cases ht

end Token.Recognized

/-! ## Forests -/

/-- What the tokens that a phrase stands for may be used as. -/
def Phrase.role : Phrase → Role
  | value | items => .value
  | unit | forest => .unit

/-- A grammatical value in front of dots is a lower bound, as it does not start with a group. -/
theorem Stands.grammatical_lower {room : Nat} {raw rest : List Token} {v : Token}
    (h : Stands room .value raw [v] rest) (hgroup : ∀ u ∈ raw.head?, u.isGroup = false)
    (hv : Token.Grammatical .value v) : Token.Grammatical .lower v := by
  obtain ⟨t, others, rfl, -⟩ := h.value_cons
  refine .lower hv ?_
  rw [← h.isGroup_head t rfl]
  exact hgroup t rfl

/-- A pair of a grammatical key and a grammatical value, as far as there are such. -/
theorem Token.Grammatical.ofPair {key? value? : Option Token} {index : Option Nat} {span : Span}
    (hkey : ∀ key ∈ key?, Grammatical .fragment key) (hpin : ∀ key ∈ key?, key.isPinnable = true)
    (hvalue : ∀ value ∈ value?, Grammatical .unit value) :
    Grammatical .unit ⟨Kind.ofPair key? value?, index, span, false⟩ := by
  cases key? with
  | none => exact .unfinishedPair hkey hpin hvalue (.inl rfl)
  | some key =>
    cases value? with
    | none => exact .unfinishedPair hkey hpin hvalue (.inr rfl)
    | some value => exact .pair (hkey key rfl) (hpin key rfl) (hvalue value rfl)

/-- Readers put recognised tokens together by the rules of the grammar. -/
theorem Stands.grammatical {room : Nat} {phrase : Phrase} {raw out rest : List Token}
    (h : Stands room phrase raw out rest) (hraw : ∀ t ∈ raw, t.Recognized) :
    ∀ t ∈ out, Token.Grammatical phrase.role t := by
  induction h with
  | noValue | noUnit | done => exact nofun
  | @fragment _ t _ ht =>
    have hfragment := (hraw t (.head _)).fragment ht
    exact List.forall_mem_singleton.mpr hfragment.fragment
  | @pattern _ t others _ ht hne hothers =>
    obtain ⟨hfirst, hrest⟩ := List.forall_mem_cons.mp hraw
    refine List.forall_mem_singleton.mpr (.pattern ?_ ?_)
    · have := List.length_pos_iff.mpr hne
      rw [List.length_cons]
      omega
    · refine List.forall_mem_cons.mpr ⟨hfirst.fragment ht, ?_⟩
      exact fun u hu => (hrest u hu).fragment (hothers u hu)
  | @whole _ t _ ht => exact List.forall_mem_singleton.mpr ((hraw t (.head _)).whole ht)
  | group hkind _ ih =>
    -- The items are read as units of their own, and a group is not flagged, as it is no pin.
    have hgroup := hraw _ (.head _)
    rcases hkind with rfl | rfl
    all_goals
      obtain rfl := hgroup.flagged_eq_false nofun
      have hitems := ih (hgroup.part rfl)
    · exact List.forall_mem_singleton.mpr (.group hitems)
    · exact List.forall_mem_singleton.mpr (.unclosedGroup hitems)
  | last _ _ ih => exact ih hraw
  | more _ _ _ ih₁ ih₂ =>
    obtain ⟨hraw, hrest⟩ := List.forall_mem_append.mp hraw
    obtain ⟨-, hraw'⟩ := List.forall_mem_cons.mp hrest
    exact List.forall_mem_append.mpr ⟨ih₁ hraw, ih₂ hraw'⟩
  | @operator _ t _ ht => exact List.forall_mem_singleton.mpr ((hraw t (.head _)).operator ht)
  | ofValue _ _ ih => exact fun t ht => (ih hraw t ht).value
  | comparison _ _ ih =>
    obtain ⟨-, hraw⟩ := List.forall_mem_cons.mp hraw
    refine List.forall_mem_singleton.mpr (.comparison ?_)
    exact fun v hv => ih hraw v (Option.mem_toList.mpr hv)
  | @dots _ t _ ht =>
    have hflagged : t.flagged = false := (hraw t (.head _)).flagged_eq_false (by
      intro hkind
      simp [Token.isDots, hkind] at ht)
    rw [hflagged]
    refine List.forall_mem_singleton.mpr (.range .noLower ?_)
    rintro upper ⟨⟩
    exact .noUpper
  | rangeTo _ _ _ ih =>
    obtain ⟨-, hraw⟩ := List.forall_mem_cons.mp hraw
    refine List.forall_mem_singleton.mpr (.range .noLower ?_)
    exact fun v hv => (ih hraw v (Option.mem_toList.mpr hv)).upper
  | @rangeFrom _ _ v _ _ hlower hgroup _ _ ih =>
    obtain ⟨hraw, -⟩ := List.forall_mem_append.mp hraw
    have hv := hlower.grammatical_lower hgroup (ih hraw v (.head _))
    refine List.forall_mem_singleton.mpr (.range hv ?_)
    rintro upper ⟨⟩
    exact .noUpper
  | @range _ _ v _ _ _ _ hlower hgroup _ _ _ ih₁ ih₂ =>
    obtain ⟨hraw, hrest⟩ := List.forall_mem_append.mp hraw
    obtain ⟨-, hraw'⟩ := List.forall_mem_cons.mp hrest
    have hv := hlower.grammatical_lower hgroup (ih₁ hraw v (.head _))
    refine List.forall_mem_singleton.mpr (.range hv ?_)
    exact fun w hw => (ih₂ hraw' w (Option.mem_toList.mpr hw)).upper
  | pair hpin _ _ ih =>
    obtain ⟨hkeys, hrest⟩ := List.forall_mem_append.mp hraw
    obtain ⟨-, hraw⟩ := List.forall_mem_cons.mp hrest
    refine List.forall_mem_singleton.mpr (.ofPair ?_ hpin ?_)
    · intro key hkey
      have hfragment := Token.isFragment_of_isPinnable (hpin key hkey)
      exact (hkeys key (Option.mem_toList.mpr hkey)).fragment hfragment
    · exact fun value hvalue => ih hraw value (Option.mem_toList.mpr hvalue)
  | list _ _ _ _ heq ih₁ ih₂ =>
    rw [← heq] at hraw
    obtain ⟨hraw, hrest⟩ := List.forall_mem_append.mp hraw
    obtain ⟨-, hraw'⟩ := List.forall_mem_cons.mp hrest
    have hvalues := List.forall_mem_append.mpr ⟨ih₁ hraw, ih₂ hraw'⟩
    exact List.forall_mem_singleton.mpr (.list hvalues)
  | blank _ _ ih => exact ih (List.forall_mem_cons.mp hraw).2
  | next _ _ _ ih₁ ih₂ =>
    rw [← List.cons_append] at hraw
    obtain ⟨hraw, hrest⟩ := List.forall_mem_append.mp hraw
    exact List.forall_mem_cons.mpr ⟨ih₁ hraw _ (.head _), ih₂ hrest⟩

/-- The tokens of a run are promoted to tokens of the grammar. -/
theorem Scans.recognized {p q : Nat} {cs left : List Char} {ts : List Token}
    (h : Scans p cs ts q left) : ∀ t ∈ promote ts, t.Recognized :=
  (promotes ts).recognized fun t ht => ⟨h.isRaw t ht, h.flagged_eq_false t ht⟩

/-- The trees of every forest that is read are units of the grammar. There is no punctuation
anywhere in the forest, and only pins of nothing are flagged. -/
theorem Query.read_grammatical {limit : Nat} {text : String} {query : Query}
    (h : Query.read limit text = .ok query) :
    (∀ t ∈ query.forest, Token.Grammatical .unit t) ∧
      ∀ t ∈ preorderAll query.forest,
        t.isPunctuation = false ∧ (t.flagged = true ↔ t.kind = .pin none) := by
  obtain ⟨ts, q, left, hs⟩ := exists_scans 0 text.toList
  obtain ⟨forest, hstands, rfl⟩ := (read_eq_ok_iff hs).mp h
  have hgrammatical : ∀ t ∈ forest, Token.Grammatical .unit t := hstands.grammatical hs.recognized
  refine ⟨hgrammatical, ?_⟩
  intro x hx
  obtain ⟨t, ht, hx⟩ := mem_preorderAll_iff.mp hx
  exact (hgrammatical t ht).inside x hx

/-- The law for a group that was left open, with a pinned keyword, a pin of nothing in front of a
colon that stands alone, and a range that goes on. -/
theorem Query.read_grammatical_open : ∃ query, Query.read 2 "(^OR ^: a.." = .ok query ∧
    (∀ t ∈ query.forest, Token.Grammatical .unit t) ∧
    (∀ t ∈ preorderAll query.forest,
      t.isPunctuation = false ∧ (t.flagged = true ↔ t.kind = .pin none)) ∧
    (preorderAll query.forest).countP Token.flagged = 1 := by
  have hread : Query.read 2 "(^OR ^: a.." = .ok ⟨
      [⟨.unclosedGroup [.covering .pinMark 1 2, .covering (.word "OR") 2 4,
          .covering (.space " ") 4 5, .covering .pinMark 5 6, .covering .colon 6 7,
          .covering (.space " ") 7 8, .covering (.word "a") 8 9, .covering .dots 9 11],
        some 0, ⟨some 0, none⟩, false⟩],
      [⟨.unclosedGroup [.covering (.pin (some (.covering (.word "OR") 2 4))) 1 4,
          ⟨.pin none, some 5, ⟨some 5, some 6⟩, true⟩,
          ⟨.unfinishedPair none none, some 6, ⟨some 6, none⟩, false⟩,
          .covering (.range (.covering (.word "a") 8 9) (some .unbounded)) 8 11],
        some 0, ⟨some 0, none⟩, false⟩],
      0, 11, 11⟩ := by cbv
  obtain ⟨hgrammatical, hinside⟩ := Query.read_grammatical hread
  exact ⟨_, hread, hgrammatical, hinside, rfl⟩

end SearchQuery
