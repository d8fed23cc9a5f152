import SearchQuery.Proofs.Forest.Layout
import SearchQuery.Proofs.Grammar

/-!
# The report of problems

The problems of a query are looked for in its forest, but most of them show in the promoted tokens
already (`Token.isUnresolved`); only a pair that lacks its key or its value shows nowhere else.
`Reports` says of tokens and of what they stand for that the report leaves out none of the former
and adds no others but pairs, and that the positions in it rise. It is put together along the ways
of reading (`Stands.reports`).
-/

namespace SearchQuery

namespace Token

/-- Is the token a pair that lacks its key, its value, or both? -/
def isUnfinishedPair (t : Token) : Bool :=
  match t.kind with
  | .unfinishedPair _ _ => true
  | _ => false

/-- Does the promoted token ask for a correction? -/
def isUnresolved (t : Token) : Bool :=
  match t.kind with
  | .unclosedQuoted _ | .unclosedGroup _ | .danglingPin => true
  | .pin _ => t.flagged
  | _ => false

/-- The token without its items, if it is a group. -/
def hollow (t : Token) : Token :=
  match t.kind with
  | .group _ => { t with kind := .group [] }
  | .unclosedGroup _ => { t with kind := .unclosedGroup [] }
  | _ => t

end Token

/-! ## Rising positions -/

/-- The tokens are known by positions that rise from `a` on, and stay below `b`. -/
inductive Rising : Nat → List Token → Nat → Prop
  | nil {a b : Nat} : a ≤ b → Rising a [] b
  | cons {a i b : Nat} {t : Token} {ts : List Token} : t.index = some i → a ≤ i →
      Rising (i + 1) ts b → Rising a (t :: ts) b

namespace Rising

variable {a b c : Nat} {ts us : List Token}

/-- Positions that rise within some bounds rise within wider ones. -/
theorem mono {a' b' : Nat} (h : Rising a ts b) (ha : a' ≤ a) (hb : b ≤ b') : Rising a' ts b' := by
  induction h generalizing a' with
  | nil hle => exact .nil (ha.trans (hle.trans hb))
  | cons hindex hle _ ih => exact .cons hindex (ha.trans hle) (ih le_rfl hb)

/-- Tokens that rise from where others stop rise behind these. -/
theorem append (h : Rising a ts b) (h' : Rising b us c) : Rising a (ts ++ us) c := by
  induction h with
  | nil hle => exact h'.mono hle le_rfl
  | cons hindex hle _ ih => exact .cons hindex hle (ih h')

/-- The positions as a list of numbers. -/
theorem exists_indexes (h : Rising a ts b) : ∃ indexes : List Nat,
    ts.map Token.index = indexes.map some ∧ indexes.Pairwise (· < ·) ∧
      (∀ i ∈ indexes, a ≤ i ∧ i < b) ∧ a ≤ b := by
  induction h with
  | nil hle => exact ⟨[], rfl, .nil, nofun, hle⟩
  | @cons a i b t ts hindex hle _ ih =>
    obtain ⟨indexes, hmap, hpairwise, hbounds, hib⟩ := ih
    refine ⟨i :: indexes, ?_, .cons (fun j hj => (hbounds j hj).1) hpairwise, ?_, by omega⟩
    · rw [List.map_cons, List.map_cons, hindex, hmap]
    · refine List.forall_mem_cons.mpr ⟨by omega, fun j hj => ?_⟩
      have := hbounds j hj
      omega

end Rising

/-! ## The two lists of problems -/

/-- The problems of a forest apart from pairs; groups are listed without their items. -/
def reported (forest : List Token) : List Token :=
  ((problems forest).filter fun t => !t.isUnfinishedPair).map Token.hollow

/-- The problems that show in promoted tokens; groups are listed without their items. -/
def unresolved (promoted : List Token) : List Token :=
  ((preorderAll promoted).filter Token.isUnresolved).map Token.hollow

section

variable {t : Token} {ts us : List Token}

theorem problems_append : problems (ts ++ us) = problems ts ++ problems us := by
  simp [problems]

theorem problems_singleton :
    problems [t] = if t.isProblem then t :: problems t.kind.parts else problems t.kind.parts := by
  simp [problems, preorderAll_cons, List.filter_cons]

theorem problems_of_isProblem_eq_false (ht : t.isProblem = false) :
    problems [t] = problems t.kind.parts := by
  rw [problems_singleton, ht]
  rfl

theorem reported_append : reported (ts ++ us) = reported ts ++ reported us := by
  simp [reported, problems_append]

theorem unresolved_append : unresolved (ts ++ us) = unresolved ts ++ unresolved us := by
  simp [unresolved]

theorem unresolved_singleton : unresolved [t] =
    if t.isUnresolved then t.hollow :: unresolved t.kind.parts else unresolved t.kind.parts := by
  cases h : t.isUnresolved <;> simp [unresolved, preorderAll_cons, h]

theorem unresolved_of_isUnresolved_eq_false (ht : t.isUnresolved = false) :
    unresolved [t] = unresolved t.kind.parts := by
  rw [unresolved_singleton, ht]
  rfl

/-- A word or a quoted string is no problem. -/
theorem Token.problems_of_isPinnable (ht : t.isPinnable = true) (hflagged : t.flagged = false) :
    problems [t] = [] ∧ unresolved [t] = [] := by
  obtain ⟨kind, index, span, flagged⟩ := t
  cases hflagged
  cases kind with
  | word | quoted => exact ⟨rfl, rfl⟩
  | _ => cases ht

/-- A token that is taken as it is, and without its parts, is one problem at most. -/
theorem Token.Recognized.problems_single (h : t.Recognized)
    (ht : t.isFragment = true ∨ t.isWhole = true ∨ t.isOperator = true) :
    (problems [t] = [] ∨ problems [t] = [t]) ∧ reported [t] = unresolved [t] := by
  obtain ⟨hpromoted, hflagged⟩ := h.here
  have hpinned := h.pinned
  obtain ⟨kind, index, span, flagged⟩ := t
  cases kind with
  | pin value? =>
    cases value? with
    | none =>
      obtain rfl : flagged = true := by simpa using hflagged
      exact ⟨.inr rfl, rfl⟩
    | some value =>
      obtain rfl : flagged = false := by simpa using hflagged
      obtain ⟨hvalue, hunflagged⟩ := hpinned value rfl
      obtain ⟨hproblems, hunresolved⟩ := problems_of_isPinnable hvalue hunflagged
      have hfound : problems [⟨.pin (some value), index, span, false⟩] = [] :=
        (problems_of_isProblem_eq_false rfl).trans hproblems
      have hshown : unresolved [⟨.pin (some value), index, span, false⟩] = [] :=
        (unresolved_of_isUnresolved_eq_false rfl).trans hunresolved
      refine ⟨.inl hfound, ?_⟩
      rw [hshown, reported, hfound]
      rfl
  | word | quoted | wildcard | anyChar | null | and | or | not =>
    obtain rfl : flagged = false := by simpa using hflagged
    exact ⟨.inl rfl, rfl⟩
  | unclosedQuoted | danglingPin =>
    obtain rfl : flagged = false := by simpa using hflagged
    exact ⟨.inr rfl, rfl⟩
  | range | comparison => cases hpromoted
  | _ => rcases ht with ht | ht | ht <;> cases ht

end

/-! ## What tokens and what they stand for report -/

/-- The tokens `out` report what the promoted tokens `raw` do, and pairs in between, at positions
that rise from `a` on and stay below `b`. -/
structure Reports (a : Nat) (raw out : List Token) (b : Nat) : Prop where
  rising : Rising a (problems out) b
  same : reported out = unresolved raw

namespace Reports

variable {a b c m n : Nat} {t : Token} {raw raw' out out' : List Token}

theorem nil (h : a ≤ b) : Reports a [] [] b := ⟨.nil h, rfl⟩

theorem mono {a' b' : Nat} (h : Reports a raw out b) (ha : a' ≤ a) (hb : b ≤ b') :
    Reports a' raw out b' :=
  ⟨h.rising.mono ha hb, h.same⟩

/-- What stands side by side is reported one behind the other. -/
theorem append (h : Reports a raw out b) (h' : Reports b raw' out' c) :
    Reports a (raw ++ raw') (out ++ out') c := by
  refine ⟨?_, ?_⟩
  · rw [problems_append]
    exact h.rising.append h'.rising
  · rw [reported_append, unresolved_append, h.same, h'.same]

/-- A token that only says what the tokens next to it are for is nothing to report. -/
theorem sign (ht : t.isPunctuation = true) (h : a ≤ b) : Reports a [t] [] b := by
  refine ⟨.nil h, ?_⟩
  obtain ⟨kind, index, span, flagged⟩ := t
  cases kind <;> first | rfl | cases ht

/-- A token that is taken as it is is reported as it is. -/
theorem single (h : t.Recognized)
    (ht : t.isFragment = true ∨ t.isWhole = true ∨ t.isOperator = true) (hindex : t.index = some a)
    (hlt : a < b) : Reports a [t] [t] b := by
  obtain ⟨hproblems, hsame⟩ := h.problems_single ht
  refine ⟨?_, hsame⟩
  rcases hproblems with hnone | hself
  · rw [hnone]
    exact .nil hlt.le
  · rw [hself]
    exact .cons hindex le_rfl (.nil hlt)

/-- The parts of a token report for the token, unless it is a problem itself. -/
theorem joined (h : Reports a raw t.kind.parts b) (ht : t.isProblem = false) :
    Reports a raw [t] b := by
  have hproblems := problems_of_isProblem_eq_false ht
  refine ⟨hproblems ▸ h.rising, ?_⟩
  rw [← h.same, reported, hproblems]
  rfl

/-- An unfinished pair is reported in front of what its parts report. -/
theorem unfinishedPair (h : Reports m raw t.kind.parts b) (ht : t.isUnfinishedPair = true)
    (hindex : t.index = some a) (hlt : a < m) : Reports a raw [t] b := by
  have hproblem : t.isProblem = true := by
    obtain ⟨kind, index, span, flagged⟩ := t
    cases kind <;> first | rfl | cases ht
  have hproblems : problems [t] = t :: problems t.kind.parts := by
    rw [problems_singleton, hproblem]
    rfl
  refine ⟨?_, ?_⟩
  · rw [hproblems]
    exact .cons hindex le_rfl (h.rising.mono hlt le_rfl)
  · rw [← h.same, reported, hproblems, List.filter_cons, ht]
    rfl

/-- A group that was never closed is reported in front of what its units report. -/
theorem group {kind : List Token → Kind Token} {items forest : List Token} {span : Span}
    (hkind : kind = .group ∨ kind = .unclosedGroup) (h : Reports m items forest n) (hlt : a < m)
    (hle : n ≤ b) : Reports a [⟨kind items, some a, span, false⟩]
      [⟨kind forest, some a, span, false⟩] b := by
  have hinside := h.rising.mono (Nat.succ_le_of_lt hlt) hle
  rcases hkind with rfl | rfl
  · refine .joined ⟨hinside.mono (Nat.le_succ a) le_rfl, ?_⟩ rfl
    rw [unresolved_of_isUnresolved_eq_false rfl]
    exact h.same
  · refine ⟨?_, ?_⟩
    · rw [problems_singleton]
      exact .cons rfl le_rfl hinside
    · rw [unresolved_singleton, reported, problems_singleton]
      exact congrArg (_ :: ·) h.same

/-- A bound that was left out is nothing to report. -/
theorem unbounded (h : a ≤ b) : Reports a [] [.unbounded] b := ⟨.nil h, rfl⟩

/-- Keys are nothing to report. -/
theorem key {key? : Option Token} (hkey : ∀ key ∈ key?, key.isPinnable = true)
    (hflagged : ∀ key ∈ key?, key.flagged = false) (h : a ≤ b) :
    Reports a key?.toList key?.toList b := by
  cases key? with
  | none => exact .nil h
  | some key =>
    obtain ⟨hproblems, hunresolved⟩ :=
      Token.problems_of_isPinnable (hkey key rfl) (hflagged key rfl)
    refine ⟨?_, ?_⟩
    · rw [Option.toList_some, hproblems]
      exact .nil h
    · rw [Option.toList_some, hunresolved, reported, hproblems]
      rfl

/-- A pair is reported in front of what its parts report, or not at all. -/
theorem ofPair {key? v? : Option Token} {index : Option Nat} {span : Span}
    (h : Reports m raw (Kind.ofPair key? v?).parts b) (hindex : index = some a) (hlt : a < m) :
    Reports a raw [⟨Kind.ofPair key? v?, index, span, false⟩] b := by
  cases key? with
  | none => exact .unfinishedPair h rfl hindex hlt
  | some key =>
    cases v? with
    | none => exact .unfinishedPair h rfl hindex hlt
    | some v => exact .joined (h.mono hlt.le le_rfl) rfl

end Reports

section

variable {cs : List Char} {a b c : Nat}

/-- Fragments that are laid in a text are reported as they are. -/
theorem Laid.reports_fragments {ts : List Token} (h : Laid cs a ts b)
    (hts : ∀ t ∈ ts, t.isFragment = true) (hrecognized : ∀ t ∈ ts, t.Recognized) :
    Reports a ts ts b := by
  induction ts generalizing a with
  | nil => exact .nil h.bounds.2.2
  | cons t ts ih =>
    obtain ⟨ht, hts⟩ := List.forall_mem_cons.mp hts
    obtain ⟨hself, hrecognized⟩ := List.forall_mem_cons.mp hrecognized
    obtain ⟨m, hfirst, hrest⟩ := h.tail
    obtain ⟨hindex, -, hlt⟩ := hfirst.head
    exact (Reports.single hself (.inl ht) hindex hlt).append (ih hrest hts hrecognized)

/-- What stands behind a sign is reported. -/
theorem Laid.reports_behind {sign : Token} {raw out : List Token} (h : Laid cs a (sign :: raw) c)
    (hsign : sign.isPunctuation = true)
    (hbehind : ∀ {m}, Laid cs m raw c → Reports m raw out c) : Reports a (sign :: raw) out c := by
  obtain ⟨m, hsign', hraw⟩ := h.tail
  exact (Reports.sign hsign hsign'.bounds.2.2).append (hbehind hraw)

/-- What stands on both sides of a sign is reported one behind the other. -/
theorem Laid.reports_between {sign : Token} {raw raw' out out' : List Token}
    (h : Laid cs a (raw ++ sign :: raw') c) (hsign : sign.isPunctuation = true)
    (hfront : ∀ {m}, Laid cs a raw m → Reports a raw out m)
    (hbehind : ∀ {m}, Laid cs m raw' c → Reports m raw' out' c) :
    Reports a (raw ++ sign :: raw') (out ++ out') c := by
  obtain ⟨m, hraw, hrest⟩ := h.split
  exact (hfront hraw).append (hrest.reports_behind hsign hbehind)

/-- Readers report what the tokens report that they read. -/
theorem Stands.reports {room : Nat} {phrase : Phrase} {raw out rest : List Token}
    (h : Stands room phrase raw out rest) (hraw : Laid cs a raw b)
    (hrecognized : ∀ t ∈ raw, t.Recognized) : Reports a raw out b := by
  induction h generalizing a b with
  | noValue | noUnit | done => exact .nil hraw.bounds.2.2
  | fragment ht =>
    obtain ⟨hindex, -, hlt⟩ := hraw.head
    exact .single (hrecognized _ (.head _)) (.inl ht) hindex hlt
  | whole ht =>
    obtain ⟨hindex, -, hlt⟩ := hraw.head
    exact .single (hrecognized _ (.head _)) (.inr (.inl ht)) hindex hlt
  | operator ht =>
    obtain ⟨hindex, -, hlt⟩ := hraw.head
    exact .single (hrecognized _ (.head _)) (.inr (.inr ht)) hindex hlt
  | pattern ht _ hothers =>
    have hparts := hraw.reports_fragments (List.forall_mem_cons.mpr ⟨ht, hothers⟩) hrecognized
    exact .joined hparts rfl
  | group hkind _ ih =>
    have hself := hrecognized _ (.head _)
    rcases hkind with rfl | rfl
    · obtain rfl := hself.flagged_eq_false nofun
      cases hraw with
      | token _ _ hgroup => cases hgroup
      | group _ hitems _ hnil =>
        cases hnil
        exact .group (.inl rfl) (ih hitems (hself.part rfl)) (Nat.lt_succ_self a) (Nat.le_succ _)
    · obtain rfl := hself.flagged_eq_false nofun
      cases hraw with
      | token _ _ hgroup => cases hgroup
      | unclosedGroup _ hitems hle hnil =>
        cases hnil
        exact .group (.inr rfl) (ih hitems (hself.part rfl)) (Nat.lt_succ_self a) hle
  | last _ _ ih => exact ih hraw hrecognized
  | more _ hcomma _ ih₁ ih₂ =>
    obtain ⟨hfront, hbehind⟩ := List.forall_mem_append.mp hrecognized
    exact hraw.reports_between (Token.isPunctuation_eq_true (.inr (.inl hcomma)))
      (ih₁ · hfront) (ih₂ · (List.forall_mem_cons.mp hbehind).2)
  | ofValue _ _ ih => exact ih hraw hrecognized
  | comparison hop _ ih =>
    refine .joined (hraw.reports_behind ?_ ?_) rfl
    · simp [Token.isPunctuation, hop]
    · exact (ih · (List.forall_mem_cons.mp hrecognized).2)
  | dots ht =>
    have hflagged := (hrecognized _ (.head _)).flagged_eq_false (by simp [Token.isDots_iff.mp ht])
    have hupper := hraw.reports_behind (Token.isPunctuation_eq_true (.inr (.inr (.inr ht))))
      (Reports.unbounded ·.bounds.2.2)
    exact .joined ((Reports.unbounded le_rfl).append hupper) hflagged
  | rangeTo ht _ _ ih =>
    have hupper := hraw.reports_behind (Token.isPunctuation_eq_true (.inr (.inr (.inr ht))))
      (ih · (List.forall_mem_cons.mp hrecognized).2)
    exact .joined ((Reports.unbounded le_rfl).append hupper) rfl
  | rangeFrom _ _ ht _ ih =>
    obtain ⟨hfront, -⟩ := List.forall_mem_append.mp hrecognized
    refine .joined (hraw.reports_between (Token.isPunctuation_eq_true (.inr (.inr (.inr ht))))
      (ih · hfront) (.unbounded ·.bounds.2.2)) rfl
  | range _ _ ht _ _ ih₁ ih₂ =>
    obtain ⟨hfront, hbehind⟩ := List.forall_mem_append.mp hrecognized
    refine .joined (hraw.reports_between (Token.isPunctuation_eq_true (.inr (.inr (.inr ht))))
      (ih₁ · hfront) (ih₂ · (List.forall_mem_cons.mp hbehind).2)) rfl
  | @pair _ key? _ colon _ _ hkey hcolon _ ih =>
    obtain ⟨hkeys, hbehind⟩ := List.forall_mem_append.mp hrecognized
    obtain ⟨m, hfront, hrest⟩ := hraw.split
    obtain ⟨n, hsign, hvalue⟩ := hrest.tail
    have hlt : a < n := hfront.bounds.2.2.trans_lt hsign.head.2.2
    have hindex : (key?.getD colon).index = some a := by cases key? <;> exact hraw.head.1
    have hunflagged : ∀ key ∈ key?, key.flagged = false := by
      intro key hmem
      refine (hkeys key (Option.mem_toList.mpr hmem)).flagged_eq_false fun hkind => ?_
      have := hkey key hmem
      simp [Token.isPinnable, hkind] at this
    have hinside := (Reports.key hkey hunflagged le_rfl).append
      ((Reports.sign (Token.isPunctuation_eq_true (.inr (.inr (.inl hcolon)))) (le_refl n)).append
        (ih hvalue (List.forall_mem_cons.mp hbehind).2))
    refine .ofPair (m := n) ?_ hindex hlt
    rw [Kind.parts_ofPair]
    exact hinside
  | list _ _ hcomma _ heq ih₁ ih₂ =>
    rw [← heq] at hraw hrecognized ⊢
    obtain ⟨hfront, hbehind⟩ := List.forall_mem_append.mp hrecognized
    refine .joined (hraw.reports_between (Token.isPunctuation_eq_true (.inr (.inl hcomma)))
      (ih₁ · hfront) (ih₂ · (List.forall_mem_cons.mp hbehind).2)) rfl
  | blank ht _ ih =>
    exact hraw.reports_behind (Token.isPunctuation_eq_true (.inl ht))
      (ih · (List.forall_mem_cons.mp hrecognized).2)
  | next _ _ _ ih₁ ih₂ =>
    rw [← List.cons_append] at hraw hrecognized ⊢
    obtain ⟨hunit, hrest⟩ := List.forall_mem_append.mp hrecognized
    obtain ⟨m, hfront, hbehind⟩ := hraw.split
    exact (ih₁ hfront hunit).append (ih₂ hbehind hrest)

end

/-- The report of problems is complete, in order and free of duplicates. Every problem of a query is
known by a position, and the positions rise strictly and lie in what was read. Apart from the pairs
that lack something, the problems are those that show in the promoted tokens, groups included: token
by token and in the same order, where of a group everything but the items is compared. -/
theorem Query.problems_complete {limit : Nat} {text : String} {query : Query}
    (h : Query.read limit text = .ok query) :
    (∃ indexes : List Nat, query.problems.map Token.index = indexes.map some ∧
      indexes.Pairwise (· < ·) ∧ ∀ i ∈ indexes, i < query.stop) ∧
    (query.problems.filter fun t => !t.isUnfinishedPair).map Token.hollow =
      ((preorderAll (promote query.tokens)).filter Token.isUnresolved).map Token.hollow := by
  obtain ⟨ts, q, left, hs⟩ := exists_scans 0 text.toList
  obtain ⟨forest, hstands, rfl⟩ := (read_eq_ok_iff hs).mp h
  have hlaid := (promotes ts).laid (hs.laid (Text.suffixAt?_zero _))
  have hreports := hstands.reports hlaid hs.recognized
  obtain ⟨indexes, hmap, hpairwise, hbounds, -⟩ := hreports.rising.exists_indexes
  exact ⟨⟨indexes, hmap, hpairwise, fun i hi => (hbounds i hi).2⟩, hreports.same⟩

/-- The law for a query whose problems lie within each other: a pair that lacks its key holds a group
that is never closed, and in this are a pin of nothing and a pair that lacks its value. -/
theorem Query.problems_complete_nested : ∃ query, Query.read 3 ":(^ b:" = .ok query ∧
    query.problems.map Token.index = [some 0, some 1, some 2, some 4] ∧
    (∃ indexes : List Nat, query.problems.map Token.index = indexes.map some ∧
      indexes.Pairwise (· < ·) ∧ ∀ i ∈ indexes, i < query.stop) ∧
    (query.problems.filter fun t => !t.isUnfinishedPair).map Token.hollow =
      ((preorderAll (promote query.tokens)).filter Token.isUnresolved).map Token.hollow := by
  have hread : Query.read 3 ":(^ b:" = .ok ⟨
      [.covering .colon 0 1, .cutOff [.covering .pinMark 2 3, .covering (.space " ") 3 4,
        .covering (.word "b") 4 5, .covering .colon 5 6] 1],
      [⟨.unfinishedPair none (some (.cutOff [⟨.pin none, some 2, ⟨some 2, some 3⟩, true⟩,
        ⟨.unfinishedPair (some (.covering (.word "b") 4 5)) none, some 4, ⟨some 4, none⟩, false⟩]
        1)), some 0, ⟨some 0, none⟩, false⟩], 0, 6, 6⟩ := by cbv
  exact ⟨_, hread, rfl, Query.problems_complete hread⟩

end SearchQuery
