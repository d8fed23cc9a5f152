import SearchQuery.Keyword
import SearchQuery.Proofs.Scan.Derivation
import SearchQuery.Proofs.Token.Class
import SearchQuery.Token.Preorder

/-!
# What raw tokens are promoted to

`Promotes` restates `promote` as a relation on sequences, one rule for each thing that may happen to
the token in front, so that what holds of promoted tokens is shown by induction. Two facts on which
tokens there are come first: a scan yields tokens as they stand in a text (`Token.isRaw`), and what
these are promoted to contains no pin marks, but keywords and pins of single values
(`Token.isPromoted`).
-/

namespace SearchQuery

namespace Token

/-- Can the token stand in a text? -/
def isRaw (t : Token) : Bool :=
  match t.kind with
  | .space _ | .word _ | .quoted _ | .unclosedQuoted _ | .pinMark | .comparator _ | .colon | .dots
  | .comma | .wildcard | .anyChar | .group _ | .unclosedGroup _ => true
  | _ => false

/-- Can the token be what a raw one is promoted to? -/
def isPromoted (t : Token) : Bool :=
  match t.kind with
  | .space _ | .word _ | .quoted _ | .unclosedQuoted _ | .comparator _ | .colon | .dots | .comma
  | .wildcard | .anyChar | .group _ | .unclosedGroup _ | .and | .or | .not | .null
  | .danglingPin => true
  | .pin value? => value?.all isPinnable
  | _ => false

/-- Does the token stay as it is when it is promoted? -/
def isSettled (t : Token) : Bool :=
  match t.kind with
  | .word _ | .pinMark | .group _ | .unclosedGroup _ => false
  | _ => true

end Token

/-- The raw tokens `ts` are promoted to the tokens `us`. -/
inductive Promotes : List Token → List Token → Prop
  | nil : Promotes [] []
  | dangling {mark : Token} : mark.isPinMark = true → Promotes [mark] [mark.dangling]
  | pinning {mark value : Token} {ts us : List Token} : mark.isPinMark = true →
      value.isPinnable = true → Promotes ts us →
      Promotes (mark :: value :: ts) (mark.pinning value :: us)
  | pinningNothing {mark t : Token} {ts us : List Token} : mark.isPinMark = true →
      t.isPinnable = false → Promotes (t :: ts) us →
      Promotes (mark :: t :: ts) (mark.pinningNothing :: us)
  | word {text : String} {index : Option Nat} {span : Span} {flagged : Bool}
      {ts us : List Token} : Promotes ts us →
      Promotes (⟨.word text, index, span, flagged⟩ :: ts)
        (⟨(keyword? text).getD (.word text), index, span, flagged⟩ :: us)
  | group {kind : List Token → Kind Token} {items items' ts us : List Token}
      {index : Option Nat} {span : Span} {flagged : Bool} :
      kind = .group ∨ kind = .unclosedGroup → Promotes items items' → Promotes ts us →
      Promotes (⟨kind items, index, span, flagged⟩ :: ts)
        (⟨kind items', index, span, flagged⟩ :: us)
  | settled {t : Token} {ts us : List Token} : t.isSettled = true → Promotes ts us →
      Promotes (t :: ts) (t :: us)

mutual

/-- A token other than a pin mark is promoted by itself. -/
theorem Token.promotes_cons {ts us : List Token} (hts : Promotes ts us) :
    ∀ t : Token, t.isPinMark = false → Promotes (t :: ts) (t.promote :: us)
  | ⟨kind, _, _, _⟩, h => by
    cases kind with
    | word text => exact .word hts
    | group items => exact .group (.inl rfl) (promotes items) hts
    | unclosedGroup items => exact .group (.inr rfl) (promotes items) hts
    | pinMark => cases h
    | _ => exact .settled rfl hts

/-- Raw tokens are promoted to what promotion makes of them. -/
theorem promotes : ∀ ts : List Token, Promotes ts (promote ts)
  | [] => .nil
  | [t] => by
    rw [promote]
    cases hmark : t.isPinMark with
    | true => exact .dangling hmark
    | false => exact t.promotes_cons .nil hmark
  | t :: u :: ts => by
    rw [promote]
    cases hmark : t.isPinMark with
    | false => exact t.promotes_cons (promotes (u :: ts)) hmark
    | true =>
      cases hu : u.isPinnable with
      | true => exact .pinning hmark hu (promotes ts)
      | false => exact .pinningNothing hmark hu (promotes (u :: ts))

end

/-- A token other than a pin mark does not change what follows. -/
theorem promote_cons {t : Token} {ts : List Token} (h : t.isPinMark = false) :
    promote (t :: ts) = t.promote :: promote ts := by
  cases ts <;> simp [promote, h]

/-- A settled token is promoted to itself. -/
theorem Token.promote_of_isSettled {t : Token} (h : t.isSettled = true) :
    t.isPinMark = false ∧ t.promote = t := by
  obtain ⟨kind, index, span, flagged⟩ := t
  cases kind <;> first | exact ⟨rfl, rfl⟩ | cases h

/-- Raw tokens are promoted to nothing else. -/
theorem Promotes.eq {ts us : List Token} (h : Promotes ts us) : promote ts = us := by
  induction h with
  | nil => rfl
  | dangling hmark => rw [promote, if_pos hmark]
  | pinning hmark hvalue _ ih => rw [promote, if_pos hmark, if_pos hvalue, ih]
  | pinningNothing hmark ht _ ih => rw [promote, if_pos hmark, if_neg (by simp [ht]), ih]
  | word _ ih => rw [promote_cons rfl, Token.promote, ih]
  | group hkind _ _ ih₁ ih₂ =>
    rcases hkind with rfl | rfl <;> rw [promote_cons rfl, Token.promote, ih₁, ih₂]
  | settled ht _ ih =>
    obtain ⟨hmark, hself⟩ := Token.promote_of_isSettled ht
    rw [promote_cons hmark, hself, ih]

/-! ## Which tokens there are -/

/-- What is written for a token can stand in a text. -/
theorem Piece.Written.isRaw {kind : Kind Token} {front rest : List Char} {p q : Nat}
    (h : (Piece.token kind).Written front rest) : (Token.covering kind p q).isRaw = true := by
  cases h with
  | sign hs => cases kind <;> first | rfl | cases hs
  | _ => rfl

/-- What is written for a token is no group. -/
theorem Piece.Written.isGroup {kind : Kind Token} {front rest : List Char} {p q : Nat}
    (h : (Piece.token kind).Written front rest) : (Token.covering kind p q).isGroup = false := by
  cases h with
  | sign hs => cases kind <;> first | rfl | cases hs
  | _ => rfl

/-- What holds of everything that can be written, and of groups, holds of all tokens of a scan. -/
theorem Scans.forall_mem_preorderAll {P : Token → Prop}
    (htoken : ∀ {kind : Kind Token} {front rest : List Char} (p q : Nat),
      (Piece.token kind).Written front rest → P (.covering kind p q))
    (hgroup : ∀ items p q, P (.covering (.group items) p q))
    (hcutOff : ∀ items p, P (.cutOff items p)) {p q : Nat} {cs left : List Char}
    {ts : List Token} (h : Scans p cs ts q left) : ∀ t ∈ preorderAll ts, P t := by
  induction h with
  | stop => exact nofun
  | token hw _ ih =>
    refine forall_mem_preorderAll_cons.mpr ⟨htoken _ _ hw, ?_, ih⟩
    rw [Token.covering, hw.parts_eq_nil]
    exact nofun
  | closed _ _ ih₁ ih₂ => exact forall_mem_preorderAll_cons.mpr ⟨hgroup _ _ _, ih₁, ih₂⟩
  | cut _ _ _ ih₁ ih₂ => exact forall_mem_preorderAll_cons.mpr ⟨hcutOff _ _, ih₁, ih₂⟩
  | unclosed _ ih => exact forall_mem_preorderAll_cons.mpr ⟨hcutOff _ _, ih, nofun⟩

/-- A scan yields tokens that can stand in a text. -/
theorem Scans.isRaw {p q : Nat} {cs left : List Char} {ts : List Token}
    (h : Scans p cs ts q left) : ∀ t ∈ preorderAll ts, t.isRaw = true :=
  h.forall_mem_preorderAll (fun _ _ hw => hw.isRaw) (fun _ _ _ => rfl) fun _ _ => rfl

/-- A keyword is promoted. -/
theorem isPromoted_keyword {text : String} {index : Option Nat} {span : Span} {flagged : Bool} :
    (⟨(keyword? text).getD (.word text), index, span, flagged⟩ : Token).isPromoted = true := by
  unfold keyword?
  split <;> rfl

/-- A keyword has no parts. -/
theorem parts_keyword (text : String) :
    ((keyword? text).getD (.word text) : Kind Token).parts = [] := by
  unfold keyword?
  split <;> rfl

/-- A word or a quoted string has no parts. -/
theorem Token.parts_of_isPinnable {t : Token} (h : t.isPinnable = true) :
    t.isPromoted = true ∧ t.kind.parts = [] := by
  obtain ⟨kind, index, span, flagged⟩ := t
  cases kind <;> first | exact ⟨rfl, rfl⟩ | cases h

/-- A raw token that stays as it is has no parts. -/
theorem Token.isPromoted_of_isSettled {t : Token} (h : t.isSettled = true) (hraw : t.isRaw = true) :
    t.isPromoted = true ∧ t.kind.parts = [] := by
  obtain ⟨kind, index, span, flagged⟩ := t
  cases kind <;> first | exact ⟨rfl, rfl⟩ | (cases hraw; done) | cases h

/-- What holds of everything that raw tokens can become holds of all that they are promoted to: of
pin marks without a value, of pins and their values, and of what other tokens mean on their own. -/
theorem Promotes.forall_mem_preorderAll {P Q : Token → Prop}
    (hmark : ∀ mark : Token, mark.isPinMark = true → P mark →
      Q mark.dangling ∧ Q mark.pinningNothing)
    (hpin : ∀ mark value : Token, value.isPinnable = true → P mark → P value →
      Q (mark.pinning value) ∧ Q value)
    (htoken : ∀ t : Token, t.isRaw = true → t.isPinMark = false → P t → Q t.promote)
    {ts us : List Token} (h : Promotes ts us)
    (hraw : ∀ t ∈ preorderAll ts, t.isRaw = true ∧ P t) : ∀ t ∈ preorderAll us, Q t := by
  induction h with
  | nil => exact nofun
  | dangling hpinMark =>
    obtain ⟨⟨-, hP⟩, -, -⟩ := forall_mem_preorderAll_cons.mp hraw
    exact forall_mem_preorderAll_cons.mpr ⟨(hmark _ hpinMark hP).1, nofun, nofun⟩
  | @pinning mark value ts us _ hvalue _ ih =>
    obtain ⟨⟨-, hP⟩, -, hrest⟩ := forall_mem_preorderAll_cons.mp hraw
    obtain ⟨⟨-, hP'⟩, -, hts⟩ := forall_mem_preorderAll_cons.mp hrest
    obtain ⟨hQ, hQ'⟩ := hpin mark value hvalue hP hP'
    refine forall_mem_preorderAll_cons.mpr ⟨hQ, ?_, ih hts⟩
    refine forall_mem_preorderAll_cons.mpr ⟨hQ', ?_, nofun⟩
    rw [(Token.parts_of_isPinnable hvalue).2]
    exact nofun
  | pinningNothing hpinMark _ _ ih =>
    obtain ⟨⟨-, hP⟩, -, hrest⟩ := forall_mem_preorderAll_cons.mp hraw
    exact forall_mem_preorderAll_cons.mpr ⟨(hmark _ hpinMark hP).2, nofun, ih hrest⟩
  | word _ ih =>
    obtain ⟨⟨-, hP⟩, -, hrest⟩ := forall_mem_preorderAll_cons.mp hraw
    have hQ := htoken _ rfl rfl hP
    rw [Token.promote] at hQ
    refine forall_mem_preorderAll_cons.mpr ⟨hQ, ?_, ih hrest⟩
    rw [parts_keyword]
    exact nofun
  | group hkind hitems _ ih₁ ih₂ =>
    obtain ⟨⟨hgroup, hP⟩, hparts, hrest⟩ := forall_mem_preorderAll_cons.mp hraw
    rcases hkind with rfl | rfl
    all_goals
      have hQ := htoken _ hgroup rfl hP
      rw [Token.promote, hitems.eq] at hQ
      exact forall_mem_preorderAll_cons.mpr ⟨hQ, ih₁ hparts, ih₂ hrest⟩
  | settled hsettled _ ih =>
    obtain ⟨⟨ht, hP⟩, -, hrest⟩ := forall_mem_preorderAll_cons.mp hraw
    obtain ⟨hpinMark, hself⟩ := Token.promote_of_isSettled hsettled
    have hQ := htoken _ ht hpinMark hP
    rw [hself] at hQ
    refine forall_mem_preorderAll_cons.mpr ⟨hQ, ?_, ih hrest⟩
    rw [(Token.isPromoted_of_isSettled hsettled ht).2]
    exact nofun

/-- What a token other than a pin mark means is what a raw token can be promoted to. -/
theorem Token.isPromoted_promote {t : Token} (hraw : t.isRaw = true)
    (hmark : t.isPinMark = false) : t.promote.isPromoted = true := by
  obtain ⟨kind, index, span, flagged⟩ := t
  cases kind with
  | word => rw [promote]; exact isPromoted_keyword
  | pinMark => cases hmark
  | group | unclosedGroup => rw [promote]; rfl
  | _ => first | rfl | cases hraw

/-- Tokens that can stand in a text are promoted to such as can result from that. -/
theorem Promotes.isPromoted {ts us : List Token} (h : Promotes ts us)
    (hraw : ∀ t ∈ preorderAll ts, t.isRaw = true) : ∀ t ∈ preorderAll us, t.isPromoted = true := by
  refine h.forall_mem_preorderAll (fun _ _ _ => ⟨rfl, rfl⟩) ?_
    (fun t ht hmark _ => Token.isPromoted_promote ht hmark) fun t ht => ⟨hraw t ht, trivial⟩
  intro mark value hvalue _ _
  refine ⟨?_, (Token.parts_of_isPinnable hvalue).1⟩
  simpa [Token.isPromoted, Token.pinning] using hvalue

/-- The raw tokens of a text are promoted to such as can result from that. -/
theorem Scan.isPromoted {limit start : Nat} {text : String} {scan : Scan}
    (h : Scan.of limit start text = .ok scan) :
    ∀ t ∈ preorderAll (promote scan.tokens), t.isPromoted = true := by
  unfold Scan.of at h
  split at h
  · obtain ⟨left, hs, -⟩ := Scan.exists_scans_of_ofChars h
    exact (promotes scan.tokens).isPromoted hs.isRaw
  · cases h
    exact nofun

end SearchQuery
