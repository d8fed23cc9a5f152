import Mathlib
import SearchQuery.Proofs.Forest.Soundness
import SearchQuery.Proofs.Promotion
import SearchQuery.Query

/-!
# Reading keeps every token

A forest holds exactly the tokens that it was read from, in their order. To compare the two, both
are taken apart into entries: a sequence of promoted tokens by `rawContentsAll`, which drops blanks
and the signs that only join other tokens, and a forest by `contentsAll`, which drops what joins its
parts. For each dropped colon the forest has a pair, and for each dropped pair of dots a range, so
these are counted (`Kept`). `Query.read_keeps` is the statement for a whole query.
-/

namespace SearchQuery

/-- One thing that a sequence of tokens contains. -/
inductive Entry where
  /-- A token as it is. -/
  | token (t : Token)
  /-- A comparator, with or without a value behind it. -/
  | comparator (op : Comparator) (index : Option Nat)
  /-- The beginning of a group, which is closed or not. -/
  | group (closed : Bool) (index : Option Nat) (span : Span) (flagged : Bool)
deriving Repr

mutual

/-- What a promoted token contains. -/
def Token.rawContents : Token → List Entry
  | ⟨.space _, _, _, _⟩ | ⟨.colon, _, _, _⟩ | ⟨.dots, _, _, _⟩ | ⟨.comma, _, _, _⟩ => []
  | ⟨.comparator op, index, _, _⟩ => [.comparator op index]
  | ⟨.group items, index, span, flagged⟩ =>
    .group true index span flagged :: rawContentsAll items
  | ⟨.unclosedGroup items, index, span, flagged⟩ =>
    .group false index span flagged :: rawContentsAll items
  | t => [.token t]

/-- What some promoted tokens contain. -/
def rawContentsAll : List Token → List Entry
  | [] => []
  | t :: ts => t.rawContents ++ rawContentsAll ts

end

mutual

/-- What a token of a forest contains. -/
def Token.contents : Token → List Entry
  | ⟨.pattern items, _, _, _⟩ | ⟨.list items, _, _, _⟩ => contentsAll items
  | ⟨.pair key value, _, _, _⟩ => key.contents ++ value.contents
  | ⟨.unfinishedPair key? value?, _, _, _⟩ => contentsOption key? ++ contentsOption value?
  | ⟨.range lower upper?, _, _, _⟩ => lower.contents ++ contentsOption upper?
  | ⟨.unbounded, _, _, _⟩ => []
  | ⟨.comparison op value?, index, _, _⟩ => .comparator op index :: contentsOption value?
  | ⟨.group items, index, span, flagged⟩ =>
    .group true index span flagged :: contentsAll items
  | ⟨.unclosedGroup items, index, span, flagged⟩ =>
    .group false index span flagged :: contentsAll items
  | t => [.token t]

/-- What a part that may be missing contains. -/
def contentsOption : Option Token → List Entry
  | none => []
  | some t => t.contents

/-- What a forest contains. -/
def contentsAll : List Token → List Entry
  | [] => []
  | t :: ts => t.contents ++ contentsAll ts

end

namespace Token

/-- Is the token a pair, finished or not? -/
def isPair (t : Token) : Bool :=
  match t.kind with
  | .pair _ _ | .unfinishedPair _ _ => true
  | _ => false

/-- Is the token a range? -/
def isRange (t : Token) : Bool :=
  match t.kind with
  | .range _ _ => true
  | _ => false

end Token

@[simp] theorem rawContentsAll_append (ts us : List Token) :
    rawContentsAll (ts ++ us) = rawContentsAll ts ++ rawContentsAll us := by
  induction ts with
  | nil => rfl
  | cons t ts ih => rw [List.cons_append, rawContentsAll, rawContentsAll, ih, List.append_assoc]

@[simp] theorem contentsAll_append (ts us : List Token) :
    contentsAll (ts ++ us) = contentsAll ts ++ contentsAll us := by
  induction ts with
  | nil => rfl
  | cons t ts ih => rw [List.cons_append, contentsAll, contentsAll, ih, List.append_assoc]

/-- `contentsOption` in terms of lists. -/
theorem contentsOption_eq (t? : Option Token) : contentsOption t? = contentsAll t?.toList := by
  cases t? with
  | none => rfl
  | some t => simp [contentsOption, contentsAll]

/-- The tokens `out` contain what the promoted tokens `raw` contain, and have a pair for each colon
and a range for each pair of dots. -/
structure Kept (raw out : List Token) : Prop where
  contents : rawContentsAll raw = contentsAll out
  pairs : (preorderAll out).countP Token.isPair = (preorderAll raw).countP Token.isColon
  ranges : (preorderAll out).countP Token.isRange = (preorderAll raw).countP Token.isDots

theorem Kept.nil : Kept [] [] := ⟨rfl, rfl, rfl⟩

/-- What is kept of two sequences is kept of both together. -/
theorem Kept.append {raw raw' out out' : List Token} (h : Kept raw out) (h' : Kept raw' out') :
    Kept (raw ++ raw') (out ++ out') := by
  refine ⟨?_, ?_, ?_⟩
  · rw [rawContentsAll_append, contentsAll_append, h.contents, h'.contents]
  · simp only [preorderAll_append, List.countP_append, h.pairs, h'.pairs]
  · simp only [preorderAll_append, List.countP_append, h.ranges, h'.ranges]

/-- Tokens that only separate others contain nothing. -/
theorem Kept.separator {t : Token} (h : t.isSpace = true ∨ t.isComma = true) : Kept [t] [] := by
  obtain ⟨kind, index, span, flagged⟩ := t
  cases kind with
  | space | comma => exact ⟨rfl, rfl, rfl⟩
  | _ => rcases h with h | h <;> cases h

/-- Values and operators are kept as they are. -/
theorem Kept.single {t : Token} (h : t.isFragment = true ∨ t.isWhole = true ∨ t.isOperator = true)
    (hpromoted : t.isPromoted = true) : Kept [t] [t] := by
  obtain ⟨kind, index, span, flagged⟩ := t
  cases kind with
  | word | quoted | unclosedQuoted | wildcard | anyChar | null | danglingPin | and | or | not =>
    exact ⟨rfl, rfl, rfl⟩
  | pin value? =>
    -- What a pin holds is neither a pair nor a range, nor a sign.
    cases value? with
    | none => exact ⟨rfl, rfl, rfl⟩
    | some value =>
      obtain ⟨kind, index, span, flagged⟩ := value
      cases kind with
      | word | quoted => exact ⟨rfl, rfl, rfl⟩
      | _ => cases hpromoted
  | range | comparison => cases hpromoted
  | _ => rcases h with h | h | h <;> cases h

/-- A bound that was left out contains nothing. -/
theorem Kept.unbounded : Kept [] [.unbounded] := ⟨rfl, rfl, rfl⟩

/-- What is kept in the parts of a token is kept in the token, if that only holds them together. -/
theorem Kept.joined {raw : List Token} {t : Token} (h : Kept raw t.kind.parts)
    (hcontents : t.contents = contentsAll t.kind.parts) (hpair : t.isPair = false)
    (hrange : t.isRange = false) : Kept raw [t] := by
  refine ⟨?_, ?_, ?_⟩
  · rw [contentsAll, contentsAll, List.append_nil, hcontents, h.contents]
  · simp [preorderAll_cons, hpair, h.pairs]
  · simp [preorderAll_cons, hrange, h.ranges]

/-- The same for a token that stands for a sign between its parts. -/
theorem Kept.joinedBy {raw raw' : List Token} {sign t : Token}
    (hsign : sign.isDots = true ∨ sign.isColon = true) (h : Kept (raw ++ raw') t.kind.parts)
    (hcontents : t.contents = contentsAll t.kind.parts) (hpair : t.isPair = sign.isColon)
    (hrange : t.isRange = sign.isDots) : Kept (raw ++ sign :: raw') [t] := by
  have hnone : sign.kind.parts = [] ∧ sign.rawContents = [] := by
    obtain ⟨kind, index, span, flagged⟩ := sign
    cases kind with
    | dots | colon => exact ⟨rfl, by rw [Token.rawContents]⟩
    | _ => rcases hsign with h | h <;> cases h
  refine ⟨?_, ?_, ?_⟩
  · have := h.contents
    simp_all [rawContentsAll, contentsAll]
  · have := h.pairs
    simp_all [preorderAll_cons, List.countP_cons]
    omega
  · have := h.ranges
    simp_all [preorderAll_cons, List.countP_cons]
    omega

/-- What is kept of the items of a group is kept of the group. -/
theorem Kept.group {kind : List Token → Kind Token} {items forest : List Token}
    {index : Option Nat} {span : Span} {flagged : Bool}
    (hkind : kind = .group ∨ kind = .unclosedGroup) (h : Kept items forest) :
    Kept [⟨kind items, index, span, flagged⟩] [⟨kind forest, index, span, flagged⟩] := by
  rcases hkind with rfl | rfl
  all_goals
    refine ⟨?_, ?_, ?_⟩
    · simp only [rawContentsAll, contentsAll, Token.rawContents, Token.contents, h.contents]
    · simp [preorderAll_cons, Kind.parts, Token.isPair, Token.isColon, h.pairs]
    · simp [preorderAll_cons, Kind.parts, Token.isRange, Token.isDots, h.ranges]

/-- A comparison keeps its comparator and what is kept of its value. -/
theorem Kept.comparison {op : Comparator} {t : Token} {v? : Option Token} {raw : List Token}
    {span : Span} (hop : t.kind = .comparator op) (h : Kept raw v?.toList) :
    Kept (t :: raw) [⟨.comparison op v?, t.index, span, false⟩] := by
  obtain ⟨kind, index, span', flagged⟩ := t
  cases hop
  refine ⟨?_, ?_, ?_⟩
  · simp [rawContentsAll, contentsAll, Token.rawContents, Token.contents, h.contents,
      contentsOption_eq]
  · simp [preorderAll_cons, Kind.parts, Token.isPair, Token.isColon, h.pairs]
  · simp [preorderAll_cons, Kind.parts, Token.isRange, Token.isDots, h.ranges]

/-- A range keeps what is kept of its bounds, and stands for its dots. -/
theorem Kept.range {lower dots : Token} {upper? : Option Token} {raw raw' : List Token}
    {index : Option Nat} {span : Span} {flagged : Bool} (hdots : dots.isDots = true)
    (h : Kept raw [lower]) (h' : Kept raw' upper?.toList) :
    Kept (raw ++ dots :: raw') [⟨.range lower upper?, index, span, flagged⟩] := by
  refine .joinedBy (.inl hdots) (h.append h') ?_ ?_ ?_
  · simp [Kind.parts, Token.contents, contentsAll, contentsOption_eq]
  · simp [Token.isPair, Token.isColon, Token.isDots_iff.mp hdots]
  · rw [hdots]
    rfl

/-- A pair keeps its key and what is kept of its value, and stands for its colon. -/
theorem Kept.pair {colon : Token} {key? v? : Option Token} {raw : List Token}
    {index : Option Nat} {span : Span} {flagged : Bool} (hcolon : colon.isColon = true)
    (hkey : Kept key?.toList key?.toList) (h : Kept raw v?.toList) :
    Kept (key?.toList ++ colon :: raw) [⟨Kind.ofPair key? v?, index, span, flagged⟩] := by
  have hboth := hkey.append h
  have hdots : colon.isDots = false := by simp [Token.isDots, Token.isColon_iff.mp hcolon]
  refine .joinedBy (.inr hcolon) ?_ ?_ ?_ ?_
  · rw [Kind.parts_ofPair]
    exact hboth
  · cases key? <;> cases v? <;>
      simp [Kind.ofPair, Kind.parts, Token.contents, contentsAll, contentsOption]
  · rw [hcolon]
    cases key? <;> cases v? <;> rfl
  · rw [hdots]
    cases key? <;> cases v? <;> rfl

/-- Fragments are kept as they are. -/
theorem Kept.fragments {ts : List Token} (h : ∀ t ∈ ts, t.isFragment = true)
    (hpromoted : ∀ t ∈ preorderAll ts, t.isPromoted = true) : Kept ts ts := by
  induction ts with
  | nil => exact .nil
  | cons t ts ih =>
    obtain ⟨ht, -, hts⟩ := forall_mem_preorderAll_cons.mp hpromoted
    have hfirst := Kept.single (.inl (h t (.head _))) ht
    exact hfirst.append (ih (fun u hu => h u (.tail _ hu)) hts)

/-- Tokens that stand for others keep them. -/
theorem Stands.kept {room : Nat} {phrase : Phrase} {raw out rest : List Token}
    (h : Stands room phrase raw out rest)
    (hpromoted : ∀ t ∈ preorderAll raw, t.isPromoted = true) : Kept raw out := by
  induction h with
  | noValue | noUnit | done => exact .nil
  | fragment ht => exact .single (.inl ht) (forall_mem_preorderAll_cons.mp hpromoted).1
  | pattern ht _ hothers =>
    have hall := Kept.fragments (List.forall_mem_cons.mpr ⟨ht, hothers⟩) hpromoted
    exact .joined hall (by rw [Token.contents]; rfl) rfl rfl
  | whole ht => exact .single (.inr (.inl ht)) (forall_mem_preorderAll_cons.mp hpromoted).1
  | operator ht => exact .single (.inr (.inr ht)) (forall_mem_preorderAll_cons.mp hpromoted).1
  | group hkind _ ih =>
    obtain ⟨-, hitems, -⟩ := forall_mem_preorderAll_cons.mp hpromoted
    refine .group hkind (ih ?_)
    rcases hkind with rfl | rfl <;> exact hitems
  | last _ _ ih => exact ih hpromoted
  | more _ hcomma _ ih₁ ih₂ =>
    obtain ⟨hraw, hrest⟩ := forall_mem_preorderAll_append.mp hpromoted
    obtain ⟨-, -, hraw'⟩ := forall_mem_preorderAll_cons.mp hrest
    exact (ih₁ hraw).append ((Kept.separator (.inr hcomma)).append (ih₂ hraw'))
  | ofValue _ _ ih => exact ih hpromoted
  | comparison hop _ ih =>
    obtain ⟨-, -, hraw⟩ := forall_mem_preorderAll_cons.mp hpromoted
    exact .comparison hop (ih hraw)
  | dots ht => exact .range ht .unbounded .unbounded
  | rangeTo ht _ _ ih =>
    obtain ⟨-, -, hraw⟩ := forall_mem_preorderAll_cons.mp hpromoted
    exact .range ht .unbounded (ih hraw)
  | rangeFrom _ _ ht _ ih =>
    obtain ⟨hraw, -⟩ := forall_mem_preorderAll_append.mp hpromoted
    exact .range ht (ih hraw) .unbounded
  | range _ _ ht _ _ ih₁ ih₂ =>
    obtain ⟨hraw, hrest⟩ := forall_mem_preorderAll_append.mp hpromoted
    obtain ⟨-, -, hraw'⟩ := forall_mem_preorderAll_cons.mp hrest
    exact .range ht (ih₁ hraw) (ih₂ hraw')
  | pair hkey hcolon _ ih =>
    obtain ⟨hkeys, hrest⟩ := forall_mem_preorderAll_append.mp hpromoted
    obtain ⟨-, -, hraw⟩ := forall_mem_preorderAll_cons.mp hrest
    refine .pair hcolon (.fragments ?_ hkeys) (ih hraw)
    intro key hmem
    exact Token.isFragment_of_isPinnable (hkey key (Option.mem_toList.mp hmem))
  | list _ _ hcomma _ heq ih₁ ih₂ =>
    rw [← heq] at hpromoted ⊢
    obtain ⟨hraw, hrest⟩ := forall_mem_preorderAll_append.mp hpromoted
    obtain ⟨-, -, hraw'⟩ := forall_mem_preorderAll_cons.mp hrest
    have hparts := (ih₁ hraw).append ((Kept.separator (.inr hcomma)).append (ih₂ hraw'))
    exact .joined hparts (by rw [Token.contents]; rfl) rfl rfl
  | blank ht _ ih =>
    obtain ⟨-, -, hts⟩ := forall_mem_preorderAll_cons.mp hpromoted
    exact (Kept.separator (.inl ht)).append (ih hts)
  | next _ _ _ ih₁ ih₂ =>
    rw [← List.cons_append] at hpromoted ⊢
    obtain ⟨hraw, hrest⟩ := forall_mem_preorderAll_append.mp hpromoted
    exact (ih₁ hraw).append (ih₂ hrest)

/-- Reading a query neither loses nor duplicates nor reorders anything. What the tokens of the text
contain once keywords and pins are recognised is what the forest contains, in the same order. The
forest has as many pairs, finished or not, as there are colons, and as many ranges as there are
pairs of dots, groups included. -/
theorem Query.read_keeps {limit : Nat} {text : String} {query : Query}
    (h : Query.read limit text = .ok query) :
    ∃ scan, Scan.ofText limit text = .ok scan ∧
      rawContentsAll (promote scan.tokens) = contentsAll query.forest ∧
      (preorderAll query.forest).countP Token.isPair =
        (preorderAll (promote scan.tokens)).countP Token.isColon ∧
      (preorderAll query.forest).countP Token.isRange =
        (preorderAll (promote scan.tokens)).countP Token.isDots := by
  obtain ⟨scan, hscan, h⟩ := exists_of_bind_eq_ok h
  obtain ⟨forest, hforest, h⟩ := exists_of_bind_eq_ok h
  cases h
  have hkept := (forestOf_eq_ok_iff.mp hforest).kept (Scan.isPromoted hscan)
  exact ⟨scan, hscan, hkept.contents, hkept.pairs, hkept.ranges⟩

/-- The law for a pair whose value is a list without its first value, and for a range without
bounds in a group that is left open. -/
theorem Query.read_keeps_open : ∃ query, Query.read 1 "k:,x (.." = .ok query ∧
    query.forest = [
      ⟨.pair (.covering (.word "k") 0 1) (.covering (.list [.covering (.word "x") 3 4]) 2 4),
        some 0, ⟨some 0, some 4⟩, false⟩,
      .cutOff [.covering (.range .unbounded (some .unbounded)) 6 8] 5] ∧
    ∃ scan, Scan.ofText 1 "k:,x (.." = .ok scan ∧
      rawContentsAll (promote scan.tokens) = contentsAll query.forest ∧
      (preorderAll (promote scan.tokens)).countP Token.isColon = 1 ∧
      (preorderAll (promote scan.tokens)).countP Token.isDots = 1 := by
  have hread : Query.read 1 "k:,x (.." = .ok ⟨
      [.covering (.word "k") 0 1, .covering .colon 1 2, .covering .comma 2 3,
        .covering (.word "x") 3 4, .covering (.space " ") 4 5, .cutOff [.covering .dots 6 8] 5],
      [⟨.pair (.covering (.word "k") 0 1) (.covering (.list [.covering (.word "x") 3 4]) 2 4),
        some 0, ⟨some 0, some 4⟩, false⟩,
      .cutOff [.covering (.range .unbounded (some .unbounded)) 6 8] 5], 0, 8, 8⟩ := by cbv
  obtain ⟨scan, hscan, hcontents, hpairs, hranges⟩ := Query.read_keeps hread
  exact ⟨_, hread, rfl, scan, hscan, hcontents, hpairs.symm, hranges.symm⟩

end SearchQuery
