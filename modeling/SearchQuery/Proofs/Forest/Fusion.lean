import Mathlib
import SearchQuery.Proofs.Report

/-!
# Fragments are fused into patterns

Values are read in many places: at the start of a unit, behind a comparator, dots, a colon or a
comma. None of these places lies within a run of fragments, and no reader stops within one. So the
patterns of a forest are exactly the longest runs of at least two fragments, in the same order, and
a fragment that stands alone stays by itself. `fragmentRunsAll` lists the longest runs of some
promoted tokens, groups included, and `Fused` says what becomes of them, together with the reason
why tokens that are read one behind the other may be looked at one by one: no run goes on from the
first ones into those behind (`Apart`).
-/

namespace SearchQuery

mutual

/-- The longest runs of fragments inside a token, which has such runs only if it is a group. -/
def Token.fragmentRuns : Token → List (List Token)
  | ⟨.group items, _, _, _⟩ | ⟨.unclosedGroup items, _, _, _⟩ => fragmentRunsAll items
  | _ => []

/-- The longest runs of fragments in a sequence, and inside its groups, in the order of the text. -/
def fragmentRunsAll : List Token → List (List Token)
  | [] => []
  | t :: ts =>
    if t.isFragment then
      if ts.head?.any Token.isFragment then (fragmentRunsAll ts).modifyHead (t :: ·)
      else [t] :: fragmentRunsAll ts
    else t.fragmentRuns ++ fragmentRunsAll ts

end

/-- Is the token a pattern? -/
def Token.isPattern (t : Token) : Bool :=
  match t.kind with
  | .pattern _ => true
  | _ => false

@[simp] theorem fragmentRunsAll_nil : fragmentRunsAll [] = [] := by
  rw [fragmentRunsAll]

section

variable {t : Token} {ts us : List Token}

/-- A token that is no fragment belongs to no run, and has runs inside if it is a group. -/
theorem fragmentRunsAll_cons (h : t.isFragment = false) :
    fragmentRunsAll (t :: ts) = t.fragmentRuns ++ fragmentRunsAll ts := by
  rw [fragmentRunsAll, if_neg (by simp [h])]

/-- A token that is no group holds no runs. -/
theorem Token.fragmentRuns_eq_nil (h : t.isGroup = false) : t.fragmentRuns = [] := by
  obtain ⟨kind, index, span, flagged⟩ := t
  cases kind with
  | group | unclosedGroup => cases h
  | _ => rw [Token.fragmentRuns] <;> exact nofun

/-- A fragment with no fragment behind it is a run by itself. -/
theorem fragmentRunsAll_single (h : t.isFragment = true)
    (hts : ∀ u ∈ ts.head?, u.isFragment = false) :
    fragmentRunsAll (t :: ts) = [t] :: fragmentRunsAll ts := by
  have hnone : ts.head?.any Token.isFragment = false := by
    cases ts with
    | nil => rfl
    | cons u us => exact hts u rfl
  rw [fragmentRunsAll, if_pos h, hnone]
  rfl

theorem fragmentRunsAll_singleton (h : t.isFragment = true) : fragmentRunsAll [t] = [[t]] := by
  rw [← fragmentRunsAll_nil]
  exact fragmentRunsAll_single h nofun

/-- A fragment belongs to the run behind it. -/
theorem fragmentRunsAll_join {u : Token} (h : t.isFragment = true) (hu : u.isFragment = true) :
    fragmentRunsAll (t :: u :: ts) = (fragmentRunsAll (u :: ts)).modifyHead (t :: ·) := by
  rw [fragmentRunsAll.eq_2 t, if_pos h, if_pos (by simpa using hu)]

/-- A fragment in front starts the first run. -/
theorem exists_fragmentRunsAll_cons (ts : List Token) (h : t.isFragment = true) :
    ∃ run runs, fragmentRunsAll (t :: ts) = (t :: run) :: runs := by
  induction ts generalizing t with
  | nil => exact ⟨[], _, fragmentRunsAll_singleton h⟩
  | cons u ts ih =>
    cases hu : u.isFragment with
    | false => exact ⟨[], _, fragmentRunsAll_single h (by rintro v ⟨⟩; exact hu)⟩
    | true =>
      obtain ⟨run, runs, hrun⟩ := ih hu
      exact ⟨u :: run, runs, by rw [fragmentRunsAll_join h hu, hrun]; rfl⟩

/-- Fragments that nothing else stands between are one run, where no fragment follows. -/
theorem fragmentRunsAll_run (hne : ts ≠ []) (hts : ∀ t ∈ ts, t.isFragment = true)
    (hus : ∀ u ∈ us.head?, u.isFragment = false) :
    fragmentRunsAll (ts ++ us) = ts :: fragmentRunsAll us := by
  induction ts with
  | nil => cases hne rfl
  | cons t ts ih =>
    obtain ⟨ht, hts⟩ := List.forall_mem_cons.mp hts
    cases ts with
    | nil => exact fragmentRunsAll_single ht hus
    | cons u ts =>
      rw [List.cons_append, List.cons_append, fragmentRunsAll_join ht (hts u (.head _)),
        ← List.cons_append, ih (List.cons_ne_nil u ts) hts]
      rfl

/-- No run of fragments goes on from the end of the tokens `ts` into the tokens `us` behind them. -/
def Apart (ts us : List Token) : Prop :=
  ∀ t ∈ ts.getLast?, t.isFragment = true → ∀ u ∈ us.head?, u.isFragment = false

/-- The runs of two sequences are those of both together, unless a run goes on from one into the
other. -/
theorem fragmentRunsAll_append (h : Apart ts us) :
    fragmentRunsAll (ts ++ us) = fragmentRunsAll ts ++ fragmentRunsAll us := by
  induction ts with
  | nil => rw [fragmentRunsAll_nil, List.nil_append, List.nil_append]
  | cons t ts ih =>
    have hrest := ih (getLast?_of_cons h)
    rw [List.cons_append]
    cases ht : t.isFragment with
    | false =>
      rw [fragmentRunsAll_cons ht, fragmentRunsAll_cons ht, hrest, List.append_assoc]
    | true =>
      cases ts with
      | nil =>
        rw [List.nil_append, fragmentRunsAll_single ht (h t rfl ht), fragmentRunsAll_singleton ht]
        rfl
      | cons u ts =>
        rw [List.cons_append] at hrest ⊢
        cases hu : u.isFragment with
        | false =>
          have hnext : ∀ {vs : List Token}, ∀ v ∈ (u :: vs).head?, v.isFragment = false := by
            rintro vs v ⟨⟩
            exact hu
          rw [fragmentRunsAll_single ht hnext, fragmentRunsAll_single ht hnext, hrest]
          rfl
        | true =>
          obtain ⟨run, runs, hrun⟩ := exists_fragmentRunsAll_cons ts hu
          rw [fragmentRunsAll_join ht hu, fragmentRunsAll_join ht hu, hrest, hrun]
          rfl

/-- What stands behind two sequences stands behind the second one of them. -/
theorem Apart.append {vs : List Token} (h : Apart ts (us ++ vs)) (h' : Apart us vs) :
    Apart (ts ++ us) vs := by
  cases us with
  | nil => rwa [List.append_nil]
  | cons u us =>
    intro t ht
    rw [List.getLast?_append_of_ne_nil _ (List.cons_ne_nil u us)] at ht
    exact h' t ht

/-- A token that is no fragment is the end of no run. -/
theorem Apart.of_not_isFragment (us : List Token) (h : t.isFragment = false) : Apart [t] us := by
  intro u hu hfragment
  cases hu
  exact absurd (h.symm.trans hfragment) Bool.false_ne_true

end

/-! ## What is fused -/

/-- A fragment has no parts. -/
theorem Token.parts_of_isFragment {t : Token} (h : t.isFragment = true) :
    t.kind.parts = [] ∧ t.isPattern = false := by
  obtain ⟨kind, index, span, flagged⟩ := t
  cases kind <;> first | exact ⟨rfl, rfl⟩ | cases h

/-- A token without parts is all that it consists of. -/
theorem preorderAll_singleton {t : Token} (h : t.kind.parts = []) : preorderAll [t] = [t] := by
  rw [preorderAll_cons, h]
  rfl

/-- Fragments are all the tokens that they consist of. -/
theorem preorderAll_fragments {ts : List Token} (h : ∀ t ∈ ts, t.isFragment = true) :
    preorderAll ts = ts := by
  induction ts with
  | nil => rfl
  | cons t ts ih =>
    obtain ⟨ht, hts⟩ := List.forall_mem_cons.mp h
    rw [preorderAll_cons, (Token.parts_of_isFragment ht).1, ih hts]
    rfl

/-- The tokens `out` that the promoted tokens `raw` stand for, in front of the tokens `rest`, have a
pattern for each run of at least two fragments, made of just these, and the fragment itself for
each run of one. No run goes on behind `raw`. -/
structure Fused (raw out rest : List Token) : Prop where
  patterns : ((preorderAll out).filter Token.isPattern).map (fun p => p.kind.parts) =
    (fragmentRunsAll raw).filter fun run => 2 ≤ run.length
  singles : ∀ t, [t] ∈ fragmentRunsAll raw → t ∈ preorderAll out
  apart : Apart raw rest

namespace Fused

variable {t : Token} {raw raw' out out' rest : List Token}

theorem nil (rest : List Token) : Fused [] [] rest := by
  refine ⟨by rw [fragmentRunsAll_nil]; rfl, ?_, nofun⟩
  rw [fragmentRunsAll_nil]
  exact nofun

/-- What is fused of two sequences one behind the other is fused of both together. -/
theorem append (h : Fused raw out (raw' ++ rest)) (h' : Fused raw' out' rest) :
    Fused (raw ++ raw') (out ++ out') rest := by
  have hruns : fragmentRunsAll (raw ++ raw') = fragmentRunsAll raw ++ fragmentRunsAll raw' := by
    refine fragmentRunsAll_append fun t ht hfragment u hu => h.apart t ht hfragment u ?_
    rw [List.head?_append, Option.mem_def.mp hu]
    rfl
  refine ⟨?_, ?_, h.apart.append h'.apart⟩
  · rw [hruns, preorderAll_append, List.filter_append, List.filter_append, List.map_append,
      h.patterns, h'.patterns]
  · intro t ht
    rw [hruns, List.mem_append] at ht
    rw [preorderAll_append, List.mem_append]
    exact ht.imp (h.singles t) (h'.singles t)

/-- A token fuses what its parts do, unless it is a pattern. -/
theorem joined (h : Fused raw t.kind.parts rest) (ht : t.isPattern = false) :
    Fused raw [t] rest := by
  refine ⟨?_, ?_, h.apart⟩
  · rw [preorderAll_cons, preorderAll_nil, List.append_nil, List.filter_cons, ht, ← h.patterns]
    rfl
  · intro u hu
    rw [preorderAll_cons]
    exact .tail _ (List.mem_append_left _ (h.singles u hu))

/-- A fragment with no other one behind it stays by itself. -/
theorem fragment (ht : t.isFragment = true) (hrest : ∀ u ∈ rest.head?, u.isFragment = false) :
    Fused [t] [t] rest := by
  have hruns := fragmentRunsAll_singleton ht
  obtain ⟨hparts, hpattern⟩ := Token.parts_of_isFragment ht
  have htokens := preorderAll_singleton hparts
  refine ⟨by simp [hruns, htokens, hpattern], ?_, fun _ _ _ => hrest⟩
  intro u hu
  rw [hruns] at hu
  cases List.mem_singleton.mp hu
  rw [htokens]
  exact .head _

/-- Several fragments side by side become a pattern. -/
theorem pattern {others : List Token} {index : Option Nat} {span : Span} (hne : others ≠ [])
    (hall : ∀ u ∈ t :: others, u.isFragment = true)
    (hrest : ∀ u ∈ rest.head?, u.isFragment = false) :
    Fused (t :: others) [⟨.pattern (t :: others), index, span, false⟩] rest := by
  have hruns : fragmentRunsAll (t :: others) = [t :: others] := by
    have hrun : fragmentRunsAll (t :: others ++ []) = (t :: others) :: fragmentRunsAll [] :=
      fragmentRunsAll_run (List.cons_ne_nil t others) hall nofun
    rwa [List.append_nil, fragmentRunsAll_nil] at hrun
  have hnone : (t :: others).filter Token.isPattern = [] :=
    List.filter_eq_nil_iff.mpr fun u hu => by simp [(Token.parts_of_isFragment (hall u hu)).2]
  have hlength : 2 ≤ (t :: others).length := Nat.succ_le_succ (List.length_pos_iff.mpr hne)
  refine ⟨?_, ?_, fun _ _ _ => hrest⟩
  · rw [hruns, preorderAll_cons, preorderAll_nil, List.append_nil, Kind.parts,
      preorderAll_fragments hall, List.filter_cons, hnone, List.filter_cons, decide_eq_true hlength]
    rfl
  · intro u hu
    rw [hruns] at hu
    cases List.mem_singleton.mp hu
    cases hne rfl

/-- A token that is no fragment and holds no runs. -/
theorem apart_from_runs (hfragment : t.isFragment = false) (hgroup : t.isGroup = false)
    (hout : ∀ u ∈ preorderAll out, u.isPattern = false) :
    Fused [t] out rest := by
  have hruns : fragmentRunsAll [t] = [] := by
    rw [fragmentRunsAll_cons hfragment, fragmentRunsAll_nil, List.append_nil,
      Token.fragmentRuns_eq_nil hgroup]
  have hnone : (preorderAll out).filter Token.isPattern = [] :=
    List.filter_eq_nil_iff.mpr fun u hu => by simp [hout u hu]
  refine ⟨by rw [hruns, hnone]; rfl, ?_, .of_not_isFragment rest hfragment⟩
  rw [hruns]
  exact nofun

/-- A group fuses what its items do. -/
theorem group {kind : List Token → Kind Token} {items forest : List Token}
    {index : Option Nat} {span : Span} {flagged : Bool}
    (hkind : kind = .group ∨ kind = .unclosedGroup) (h : Fused items forest []) :
    Fused [⟨kind items, index, span, flagged⟩] [⟨kind forest, index, span, flagged⟩] rest := by
  have hruns : fragmentRunsAll [⟨kind items, index, span, flagged⟩] = fragmentRunsAll items := by
    rcases hkind with rfl | rfl <;>
      rw [fragmentRunsAll_cons rfl, fragmentRunsAll_nil, List.append_nil, Token.fragmentRuns]
  have hparts : (kind forest).parts = forest := by rcases hkind with rfl | rfl <;> rfl
  have hself : Fused items [⟨kind forest, index, span, flagged⟩] [] := by
    refine .joined (by rwa [hparts]) ?_
    rcases hkind with rfl | rfl <;> rfl
  refine ⟨by rw [hruns, hself.patterns], by rw [hruns]; exact hself.singles,
    .of_not_isFragment rest ?_⟩
  rcases hkind with rfl | rfl <;> rfl

/-- A sign that only says what the tokens next to it are for holds no runs. -/
theorem sign (rest : List Token) (ht : t.isPunctuation = true) : Fused [t] [] rest := by
  obtain ⟨kind, index, span, flagged⟩ := t
  cases kind <;> first | exact .apart_from_runs rfl rfl nofun | cases ht

/-- Values other than fragments, and operators, hold no runs. -/
theorem single (ht : t.isWhole = true ∨ t.isOperator = true) (hpromoted : t.isPromoted = true) :
    Fused [t] [t] rest := by
  obtain ⟨kind, index, span, flagged⟩ := t
  cases kind with
  | pin value? =>
    refine .apart_from_runs rfl rfl ?_
    cases value? with
    | none =>
      rw [preorderAll_singleton rfl]
      exact List.forall_mem_singleton.mpr rfl
    | some value =>
      have hfragment : value.isFragment = true := Token.isFragment_of_isPinnable hpromoted
      obtain ⟨hparts, hpattern⟩ := Token.parts_of_isFragment hfragment
      refine forall_mem_preorderAll_cons.mpr ⟨rfl, ?_, List.forall_mem_nil _⟩
      rw [Kind.parts, Option.toList_some, preorderAll_singleton hparts]
      exact List.forall_mem_singleton.mpr hpattern
  | null | danglingPin | and | or | not =>
    refine .apart_from_runs rfl rfl ?_
    rw [preorderAll_singleton rfl]
    exact List.forall_mem_singleton.mpr rfl
  | range | comparison => cases hpromoted
  | _ => rcases ht with ht | ht <;> cases ht

/-- A bound that was left out fuses nothing. -/
theorem unbounded (rest : List Token) : Fused [] [.unbounded] rest := .joined (nil rest) rfl

/-- A key in front of its colon stays by itself. -/
theorem key {key? : Option Token} {colon : Token} (hkey : ∀ key ∈ key?, key.isPinnable = true)
    (hcolon : colon.isColon = true) : Fused key?.toList key?.toList (colon :: rest) := by
  cases key? with
  | none => exact nil _
  | some key =>
    refine fragment (Token.isFragment_of_isPinnable (hkey key rfl)) ?_
    rintro u ⟨⟩
    simp [Token.isFragment, Token.isColon_iff.mp hcolon]

/-- A pair fuses what its parts do. -/
theorem ofPair {key? v? : Option Token} {index : Option Nat} {span : Span}
    (h : Fused raw (key?.toList ++ v?.toList) rest) :
    Fused raw [⟨Kind.ofPair key? v?, index, span, false⟩] rest := by
  refine joined (by rwa [Kind.parts_ofPair]) ?_
  cases key? <;> cases v? <;> rfl

/-- Behind a sign everything is fused as it is by itself. -/
theorem behind (hsign : t.isPunctuation = true) (h : Fused raw out rest) :
    Fused (t :: raw) out rest :=
  (Fused.sign (raw ++ rest) hsign).append h

end Fused

/-- Readers fuse the runs of the tokens that they read, and never stop within a run. -/
theorem Stands.fused {room : Nat} {phrase : Phrase} {raw out rest : List Token}
    (h : Stands room phrase raw out rest)
    (hpromoted : ∀ t ∈ preorderAll raw, t.isPromoted = true) : Fused raw out rest := by
  induction h with
  | noValue | noUnit | done => exact .nil _
  | fragment ht hrest => exact .fragment ht hrest
  | pattern ht hne hothers hrest =>
    exact .pattern hne (List.forall_mem_cons.mpr ⟨ht, hothers⟩) hrest
  | whole ht => exact .single (.inl ht) (forall_mem_preorderAll_cons.mp hpromoted).1
  | operator ht => exact .single (.inr ht) (forall_mem_preorderAll_cons.mp hpromoted).1
  | group hkind _ ih =>
    obtain ⟨-, hitems, -⟩ := forall_mem_preorderAll_cons.mp hpromoted
    refine .group hkind (ih ?_)
    rcases hkind with rfl | rfl <;> exact hitems
  | last _ _ ih => exact ih hpromoted
  | more _ hcomma _ ih₁ ih₂ =>
    obtain ⟨hraw, hrest⟩ := forall_mem_preorderAll_append.mp hpromoted
    obtain ⟨-, -, hraw'⟩ := forall_mem_preorderAll_cons.mp hrest
    exact (ih₁ hraw).append ((ih₂ hraw').behind (Token.isPunctuation_eq_true (.inr (.inl hcomma))))
  | ofValue _ _ ih => exact ih hpromoted
  | comparison hop _ ih =>
    obtain ⟨-, -, hraw⟩ := forall_mem_preorderAll_cons.mp hpromoted
    exact .joined ((ih hraw).behind (by simp [Token.isPunctuation, hop])) rfl
  | dots ht =>
    refine .joined ((Fused.unbounded _).append (.behind ?_ (.unbounded _))) rfl
    exact Token.isPunctuation_eq_true (.inr (.inr (.inr ht)))
  | rangeTo ht _ _ ih =>
    obtain ⟨-, -, hraw⟩ := forall_mem_preorderAll_cons.mp hpromoted
    have hupper := (ih hraw).behind (Token.isPunctuation_eq_true (.inr (.inr (.inr ht))))
    exact .joined ((Fused.unbounded _).append hupper) rfl
  | rangeFrom _ _ ht _ ih =>
    obtain ⟨hraw, -⟩ := forall_mem_preorderAll_append.mp hpromoted
    refine .joined ((ih hraw).append (.behind ?_ (.unbounded _))) rfl
    exact Token.isPunctuation_eq_true (.inr (.inr (.inr ht)))
  | range _ _ ht _ _ ih₁ ih₂ =>
    obtain ⟨hraw, hrest⟩ := forall_mem_preorderAll_append.mp hpromoted
    obtain ⟨-, -, hraw'⟩ := forall_mem_preorderAll_cons.mp hrest
    have hupper := (ih₂ hraw').behind (Token.isPunctuation_eq_true (.inr (.inr (.inr ht))))
    exact .joined ((ih₁ hraw).append hupper) rfl
  | pair hkey hcolon _ ih =>
    obtain ⟨-, hrest⟩ := forall_mem_preorderAll_append.mp hpromoted
    obtain ⟨-, -, hraw⟩ := forall_mem_preorderAll_cons.mp hrest
    have hvalue := (ih hraw).behind (Token.isPunctuation_eq_true (.inr (.inr (.inl hcolon))))
    exact .ofPair ((Fused.key hkey hcolon).append hvalue)
  | list _ _ hcomma _ heq ih₁ ih₂ =>
    rw [← heq] at hpromoted ⊢
    obtain ⟨hraw, hrest⟩ := forall_mem_preorderAll_append.mp hpromoted
    obtain ⟨-, -, hraw'⟩ := forall_mem_preorderAll_cons.mp hrest
    have hothers := (ih₂ hraw').behind (Token.isPunctuation_eq_true (.inr (.inl hcomma)))
    exact .joined ((ih₁ hraw).append hothers) rfl
  | blank ht _ ih =>
    obtain ⟨-, -, hts⟩ := forall_mem_preorderAll_cons.mp hpromoted
    exact (ih hts).behind (Token.isPunctuation_eq_true (.inl ht))
  | @next _ t u raw rest us _ _ _ ih₁ ih₂ =>
    rw [← List.cons_append] at hpromoted ⊢
    obtain ⟨hraw, hrest⟩ := forall_mem_preorderAll_append.mp hpromoted
    have hunit : Fused (t :: raw) [u] (rest ++ []) := by
      rw [List.append_nil]
      exact ih₁ hraw
    exact hunit.append (ih₂ hrest)

/-! ## Every fragment belongs to one run -/

/-- A fragment in front is the first one of all that belong to runs. -/
theorem flatten_fragmentRunsAll_cons {t : Token} (ts : List Token) (h : t.isFragment = true) :
    (fragmentRunsAll (t :: ts)).flatten = t :: (fragmentRunsAll ts).flatten := by
  cases ts with
  | nil =>
    rw [fragmentRunsAll_singleton h]
    rfl
  | cons u us =>
    cases hu : u.isFragment with
    | false =>
      rw [fragmentRunsAll_single h (by rintro v ⟨⟩; exact hu)]
      rfl
    | true =>
      obtain ⟨run, runs, hrun⟩ := exists_fragmentRunsAll_cons us hu
      rw [fragmentRunsAll_join h hu, hrun]
      rfl

/-- The fragments of tokens that are laid in a text are known by positions that rise. -/
theorem Laid.rising_fragments {cs : List Char} {a b : Nat} {ts : List Token} (h : Laid cs a ts b) :
    Rising a (fragmentRunsAll ts).flatten b := by
  induction h with
  | nil =>
    rw [fragmentRunsAll_nil]
    exact .nil le_rfl
  | @token a m b t ts hlies _ hgroup _ hts ih =>
    cases hfragment : t.isFragment with
    | false =>
      rw [fragmentRunsAll_cons hfragment, Token.fragmentRuns_eq_nil hgroup, List.nil_append]
      exact ih.mono hlies.1.lt.le le_rfl
    | true =>
      rw [flatten_fragmentRunsAll_cons ts hfragment]
      exact .cons hlies.1.index le_rfl (ih.mono hlies.1.lt le_rfl)
  | group _ _ _ _ ih₁ ih₂ =>
    rw [fragmentRunsAll_cons rfl, Token.fragmentRuns, List.flatten_append]
    exact (ih₁.mono (Nat.le_succ _) (Nat.le_succ _)).append ih₂
  | unclosedGroup _ _ hle _ ih₁ ih₂ =>
    rw [fragmentRunsAll_cons rfl, Token.fragmentRuns, List.flatten_append]
    exact (ih₁.mono (Nat.le_succ _) hle).append ih₂

/-- Tokens that are known by rising positions differ. -/
theorem Rising.nodup {a b : Nat} {ts : List Token} (h : Rising a ts b) : ts.Nodup := by
  obtain ⟨indexes, hmap, hpairwise, -⟩ := h.exists_indexes
  refine List.Nodup.of_map Token.index ?_
  rw [hmap]
  exact List.Nodup.map (Option.some_injective _) (hpairwise.imp Nat.ne_of_lt)

/-- Two runs in a text have no fragment in common. -/
theorem Laid.disjoint_runs {cs : List Char} {a b : Nat} {ts run run' : List Token}
    (h : Laid cs a ts b) (hrun : run ∈ fragmentRunsAll ts) (hrun' : run' ∈ fragmentRunsAll ts)
    (hne : run ≠ run') : List.Disjoint run run' := by
  have hsymm : Std.Symm (List.Disjoint : List Token → List Token → Prop) := ⟨fun _ _ h => h.symm⟩
  have hpairwise := (List.nodup_flatten.mp h.rising_fragments.nodup).2
  exact hpairwise.forall hrun hrun' hne

/-- Fragments are fused exactly as far as they stand side by side. The patterns of a forest, each
before its parts and in the order of the text, are one for one the longest runs of at least two
fragments among the promoted tokens and inside their groups, with the fragments of the run for their
parts. A fragment that is a run by itself is in the forest as it is, and is a part of no pattern. -/
theorem Query.read_fuses {limit : Nat} {text : String} {query : Query}
    (h : Query.read limit text = .ok query) :
    ∃ scan, Scan.ofText limit text = .ok scan ∧
      ((preorderAll query.forest).filter Token.isPattern).map (fun p => p.kind.parts) =
        (fragmentRunsAll (promote scan.tokens)).filter (fun run => 2 ≤ run.length) ∧
      ∀ t, [t] ∈ fragmentRunsAll (promote scan.tokens) → t ∈ preorderAll query.forest ∧
        ∀ p ∈ preorderAll query.forest, p.isPattern = true → t ∉ p.kind.parts := by
  obtain ⟨scan, hscan, h⟩ := exists_of_bind_eq_ok h
  obtain ⟨forest, hforest, h⟩ := exists_of_bind_eq_ok h
  cases h
  have hfused := (forestOf_eq_ok_iff.mp hforest).fused (Scan.isPromoted hscan)
  refine ⟨scan, hscan, hfused.patterns, fun t ht => ⟨hfused.singles t ht, ?_⟩⟩
  intro p hp hpattern hmem
  have hfused_run : p.kind.parts ∈ (fragmentRunsAll (promote scan.tokens)).filter
      fun run => 2 ≤ run.length := by
    rw [← hfused.patterns]
    exact List.mem_map.mpr ⟨p, List.mem_filter.mpr ⟨hp, hpattern⟩, rfl⟩
  obtain ⟨hrun, hlength⟩ := List.mem_filter.mp hfused_run
  have hne : [t] ≠ p.kind.parts := by
    intro heq
    rw [← heq] at hlength
    cases hlength
  rw [Scan.ofText_eq] at hscan
  obtain ⟨left, hs, -⟩ := Scan.exists_scans_of_ofChars hscan
  have hlaid := (promotes scan.tokens).laid (hs.laid (Text.suffixAt?_zero _))
  exact hlaid.disjoint_runs ht hrun hne (.head _) hmem

/-- The law for a key with a pattern for its value, a pin that ends the pattern, and a list in a
group that is left open, with a pattern for its first value. -/
theorem Query.read_fuses_nested : ∃ query, Query.read 1 "k:a*^b(?\"c\",x" = .ok query ∧
    fragmentRunsAll (promote query.tokens) = [[.covering (.word "k") 0 1],
      [.covering (.word "a") 2 3, .covering .wildcard 3 4],
      [.covering .anyChar 7 8, .covering (.quoted "c") 8 11], [.covering (.word "x") 12 13]] ∧
    ∃ scan, Scan.ofText 1 "k:a*^b(?\"c\",x" = .ok scan ∧
      ((preorderAll query.forest).filter Token.isPattern).map (fun p => p.kind.parts) =
        (fragmentRunsAll (promote scan.tokens)).filter (fun run => 2 ≤ run.length) ∧
      ∀ t, [t] ∈ fragmentRunsAll (promote scan.tokens) → t ∈ preorderAll query.forest ∧
        ∀ p ∈ preorderAll query.forest, p.isPattern = true → t ∉ p.kind.parts := by
  have hread : Query.read 1 "k:a*^b(?\"c\",x" = .ok ⟨
      [.covering (.word "k") 0 1, .covering .colon 1 2, .covering (.word "a") 2 3,
        .covering .wildcard 3 4, .covering .pinMark 4 5, .covering (.word "b") 5 6,
        .cutOff [.covering .anyChar 7 8, .covering (.quoted "c") 8 11, .covering .comma 11 12,
          .covering (.word "x") 12 13] 6],
      [.covering (.pair (.covering (.word "k") 0 1)
          (.covering (.pattern [.covering (.word "a") 2 3, .covering .wildcard 3 4]) 2 4)) 0 4,
        .covering (.pin (some (.covering (.word "b") 5 6))) 4 6,
        .cutOff [.covering (.list [.covering (.pattern [.covering .anyChar 7 8,
          .covering (.quoted "c") 8 11]) 7 11, .covering (.word "x") 12 13]) 7 13] 6],
      0, 13, 13⟩ := by cbv
  exact ⟨_, hread, rfl, Query.read_fuses hread⟩

end SearchQuery
