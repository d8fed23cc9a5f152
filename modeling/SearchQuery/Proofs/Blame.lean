import SearchQuery.Proofs.Outcome
import SearchQuery.Proofs.Scan.Tiling
import SearchQuery.Proofs.Shift

/-!
# What a fault points at

A fault names a position, and the reason for the fault is found there: at the position of a fault of
nesting stands a sign that opens a level, and the token that a fault of a list names stands behind a
comma, with no blank between the two. There is no fault for want of something to read, since every
promoted token that is not blank starts a unit. `Query.read_justified` states the three together.
-/

namespace SearchQuery

open Text (width suffixAt? width_of_suffixAt?)

/-! ## Tokens to blame -/

/-- What there is to say of a token that is to blame for a reason, wherever it stands. -/
def Reason.Blames : Reason → Token → Prop
  | unterminatedList, t => t.isSpace = false ∧ t.isComma = false
  | nothingToRead, t => t.isSpace = false ∧ t.startsUnit = false
  | tooDeep, t => t.isGroup = true ∨ t.isColon = true

/-- The token to blame is of the sort that the reason says. -/
theorem Fails.blames {room : Nat} {phrase : Phrase} {ts : List Token} {reason : Reason} {t : Token}
    (h : Fails room phrase ts reason t) : reason.Blames t := by
  induction h with
  | groupTooDeep hgroup => exact .inl hgroup
  | pairTooDeep _ hcolon => exact .inr hcolon
  | unterminated _ hspace hcomma => exact ⟨hspace, hcomma⟩
  | nothing hspace hstarts => exact ⟨hspace, hstarts⟩
  | group _ _ ih | item _ ih | ofValue _ ih | comparison _ _ ih | rangeTo _ _ ih | blank _ _ ih
  | unit _ ih | pair _ _ _ ih | more _ _ _ ih | next _ _ _ ih | range _ _ _ _ ih
  | list _ _ _ _ ih => exact ih

/-- A promoted token is blank, or starts a unit. -/
theorem Token.startsUnit_of_isPromoted {t : Token} (h : t.isPromoted = true)
    (hspace : t.isSpace = false) : t.startsUnit = true := by
  obtain ⟨kind, index, span, flagged⟩ := t
  cases kind with
  | space => cases hspace
  | _ => first | rfl | cases h

/-! ## Lists that are broken off -/

/-- In some tokens, `t` stands with no blank in front of it, and is neither a blank nor a comma. -/
def Unspaced (ts : List Token) (t : Token) : Prop :=
  t.isSpace = false ∧ t.isComma = false ∧
    ∃ between behind, ts = between ++ t :: behind ∧ ∀ u ∈ between, u.isSpace = false

/-- In some tokens, `t` stands behind a comma, with no blank between the two. -/
def BreaksList (ts : List Token) (t : Token) : Prop :=
  ∃ front comma rest, ts = front ++ comma :: rest ∧ comma.isComma = true ∧ Unspaced rest t

/-- Among the items of a group, `t` stands behind a comma, with no blank between the two. -/
def BreaksListInGroup (ts : List Token) (t : Token) : Prop :=
  ∃ g ∈ preorderAll ts, g.isGroup = true ∧ BreaksList g.kind.parts t

/-- Where a token stands that breaks off a list, among tokens that cannot be read as a phrase. -/
def Phrase.Breaks : Phrase → List Token → Token → Prop
  | value, ts, t => BreaksListInGroup ts t
  | items, ts, t => Unspaced ts t ∨ BreaksListInGroup ts t
  | unit, ts, t | forest, ts, t => BreaksList ts t ∨ BreaksListInGroup ts t

theorem Unspaced.append {ts front : List Token} {t : Token} (h : Unspaced ts t)
    (hfront : ∀ u ∈ front, u.isSpace = false) : Unspaced (front ++ ts) t := by
  obtain ⟨hspace, hcomma, between, behind, rfl, hbetween⟩ := h
  refine ⟨hspace, hcomma, front ++ between, behind, (List.append_assoc _ _ _).symm, ?_⟩
  exact List.forall_mem_append.mpr ⟨hfront, hbetween⟩

theorem BreaksList.append {ts : List Token} {t : Token} (h : BreaksList ts t)
    (front : List Token) : BreaksList (front ++ ts) t := by
  obtain ⟨before, comma, rest, rfl, hcomma, ht⟩ := h
  exact ⟨front ++ before, comma, rest, (List.append_assoc _ _ _).symm, hcomma, ht⟩

theorem BreaksListInGroup.append {ts : List Token} {t : Token} (h : BreaksListInGroup ts t)
    (front : List Token) : BreaksListInGroup (front ++ ts) t := by
  obtain ⟨g, hg, hgroup, ht⟩ := h
  exact ⟨g, by rw [preorderAll_append]; exact List.mem_append_right _ hg, hgroup, ht⟩

theorem Phrase.Breaks.append {ts : List Token} {t : Token} (h : Phrase.unit.Breaks ts t)
    (front : List Token) : Phrase.unit.Breaks (front ++ ts) t :=
  h.imp (·.append front) (·.append front)

/-- There are no blanks in what stands for a value. -/
theorem Stands.isSpace_of_value {room : Nat} {raw out rest : List Token}
    (h : Stands room .value raw out rest) : ∀ u ∈ raw, u.isSpace = false :=
  fun u hu => Token.isSpace_of_startsValue (h.startsValue u hu)

/-- A token that neither continues nor ends a list stands behind a comma of that list. -/
theorem Fails.breaks {room : Nat} {phrase : Phrase} {ts : List Token} {reason : Reason} {t : Token}
    (h : Fails room phrase ts reason t) (hreason : reason = .unterminatedList) :
    phrase.Breaks ts t := by
  induction h with
  | groupTooDeep | pairTooDeep | nothing => cases hreason
  | @group _ kind items rest index span flagged _ _ hkind _ ih =>
    rcases ih hreason with hlist | ⟨g, hg, hgroup, hlist⟩
    · refine ⟨⟨kind items, index, span, flagged⟩, SearchQuery.mem_preorderAll (.head _), ?_⟩
      rcases hkind with rfl | rfl <;> exact ⟨rfl, hlist⟩
    · refine ⟨g, ?_, hgroup, hlist⟩
      rw [preorderAll_cons]
      rcases hkind with rfl | rfl <;> exact .tail _ (List.mem_append_left _ hg)
  | item _ ih | ofValue _ ih => exact .inr (ih hreason)
  | @unterminated _ _ _ raw rest hv hspace hcomma =>
    exact .inl ⟨hspace, hcomma, raw, rest, rfl, hv.isSpace_of_value⟩
  | @more _ _ comma raw _ _ _ hv hcomma _ ih =>
    -- Neither the value in front nor its comma is a blank, so the list goes on over both.
    have hsigns : ∀ u ∈ raw ++ [comma], u.isSpace = false := by
      refine List.forall_mem_append.mpr ⟨hv.isSpace_of_value, List.forall_mem_singleton.mpr ?_⟩
      simp [Token.isSpace, Token.isComma_iff.mp hcomma]
    rw [List.append_cons]
    exact (ih hreason).imp (·.append hsigns) (·.append _)
  | @comparison _ _ sign _ _ _ _ _ ih | @rangeTo _ sign _ _ _ _ _ ih =>
    have hgroup : BreaksListInGroup _ _ := ih hreason
    exact .inr (hgroup.append [sign])
  | @range _ dots _ raw _ _ _ _ _ _ _ ih =>
    have hgroup : BreaksListInGroup _ _ := ih hreason
    exact .inr ((hgroup.append [dots]).append raw)
  | @pair _ key? colon _ _ _ _ _ _ ih => exact ((ih hreason).append [colon]).append key?.toList
  | @list _ _ comma raw rest _ _ _ _ hcomma _ ih =>
    -- The first comma of the list is the one that the token stands behind.
    rcases ih hreason with ht | hgroup
    · exact .inl ⟨raw, comma, rest, rfl, hcomma, ht⟩
    · exact .inr ((hgroup.append [comma]).append raw)
  | @blank _ u _ _ _ _ _ ih => exact (ih hreason).append [u]
  | unit _ ih => exact ih hreason
  | @next _ u _ raw _ _ _ _ _ _ ih => exact (ih hreason).append (u :: raw)

/-! ## Signs that open a level -/

/-- At a position of a text stands a sign that opens a level of nesting. -/
def OpensLevel (cs : List Char) (n : Nat) : Prop :=
  ∃ c rest, suffixAt? n cs = some (c :: rest) ∧ (c = '(' ∨ c = ':')

/-- Groups and colons are spelled by a sign that opens a level. -/
theorem Token.Spelled.opensLevel {limit : Nat} {text : String} {t : Token}
    (h : t.Spelled limit text) (ht : t.isGroup = true ∨ t.isColon = true) :
    OpensLevel text.toList t.offset := by
  cases h with
  | space | word | quoted | unclosedQuoted => rcases ht with ht | ht <;> cases ht
  | @sign kind s a b hs hstretch =>
    cases kind with
    | colon =>
      cases hs
      obtain ⟨rest, hrest, -⟩ := hstretch
      exact ⟨':', rest, hrest, .inr rfl⟩
    | _ => first | (rcases ht with ht | ht <;> cases ht; done) | cases hs
  | group hopen | unclosedGroup hopen =>
    obtain ⟨rest, hrest, -⟩ := hopen
    exact ⟨'(', rest, hrest, .inl rfl⟩

/-- Promotion makes no groups and no colons. -/
theorem Token.opener_of_promote {t : Token}
    (h : t.promote.isGroup = true ∨ t.promote.isColon = true) :
    t.isGroup = true ∨ t.isColon = true := by
  obtain ⟨kind, index, span, flagged⟩ := t
  cases kind with
  | word text =>
    rw [promote] at h
    unfold keyword? at h
    split at h <;> rcases h with h | h <;> cases h
  | group | unclosedGroup => exact .inl rfl
  | _ => exact h

/-- The promoted groups and colons of a text are known by the positions of their signs. -/
theorem Promotes.opensLevel {cs : List Char} {ts us : List Token} (h : Promotes ts us)
    (hraw : ∀ t ∈ preorderAll ts, t.isRaw = true ∧
      (t.isGroup = true ∨ t.isColon = true → OpensLevel cs t.offset)) :
    ∀ t ∈ preorderAll us, t.isGroup = true ∨ t.isColon = true → OpensLevel cs t.offset := by
  refine h.forall_mem_preorderAll ?_ ?_ ?_ hraw
  · intro mark _ _
    constructor <;> rintro (h | h) <;> cases h
  · intro mark value _ _ hvalue
    refine ⟨?_, hvalue⟩
    rintro (h | h) <;> cases h
  · intro t _ _ ht hpromote
    rw [Token.offset, Token.index_promote]
    exact ht (Token.opener_of_promote hpromote)

/-- A token for which there is no room is a group, or there is such a group in it. -/
theorem Token.exists_of_overflow? {room offset : Nat} {t : Token}
    (h : t.overflow? room = some offset) :
    ∃ g ∈ t.preorder, g.isGroup = true ∧ g.offset = offset := by
  induction t using Token.induct generalizing room with
  | step t ih =>
    by_cases hgroup : t.isGroup = true
    · obtain ⟨kind, items, hkind, heq⟩ := exists_of_isGroup hgroup
      cases room with
      | zero =>
        refine ⟨t, t.mem_preorder_self, hgroup, ?_⟩
        rw [heq] at h
        rcases hkind with rfl | rfl <;> exact Option.some.inj h
      | succ room =>
        have hparts : t.kind.parts = items := by
          rw [heq]
          rcases hkind with rfl | rfl <;> rfl
        rw [heq, overflow?_group hkind, overflowAll?_eq_findSome?] at h
        obtain ⟨p, hp, hover⟩ := List.exists_of_findSome?_eq_some h
        rw [← hparts] at hp
        obtain ⟨g, hg, hgroup', hoffset⟩ := ih p hp hover
        exact ⟨g, mem_preorder_of_part hp hg, hgroup', hoffset⟩
    · rw [overflow?_of_not_isGroup (by simpa using hgroup)] at h
      cases h

/-- Where there is no room for some tokens, the position of a group in them is named. -/
theorem exists_of_overflowAll? {room offset : Nat} {ts : List Token}
    (h : overflowAll? room ts = some offset) :
    ∃ g ∈ preorderAll ts, g.isGroup = true ∧ g.offset = offset := by
  rw [overflowAll?_eq_findSome?] at h
  obtain ⟨t, ht, hover⟩ := List.exists_of_findSome?_eq_some h
  obtain ⟨g, hg, hgroup, hoffset⟩ := Token.exists_of_overflow? hover
  exact ⟨g, mem_preorderAll_iff.mpr ⟨t, ht, hg⟩, hgroup, hoffset⟩

/-! ## Faults -/

/-- What a fault says is the case. -/
def Fault.Justified (limit : Nat) (text : String) : Fault → Prop
  | unterminatedList kind offset => ∃ scan, Scan.ofText limit text = .ok scan ∧
      ∃ t, t.index = some offset ∧ t.kind.name = kind ∧
        (BreaksList (promote scan.tokens) t ∨ BreaksListInGroup (promote scan.tokens) t)
  | nothingToRead _ _ => False
  | tooDeep offset limit' =>
    limit' = limit ∧ offset < width text.toList ∧ OpensLevel text.toList offset

/-- Where a level is opened there is something left of the text. -/
theorem OpensLevel.lt {cs : List Char} {n : Nat} (h : OpensLevel cs n) : n < width cs := by
  obtain ⟨c, rest, hrest, -⟩ := h
  have hwidth := width_of_suffixAt? hrest
  have := c.utf8Size_pos
  rw [Text.width_cons] at hwidth
  omega

/-- A query is refused for one of two reasons. Either a list is broken off, in the query or in one
of its groups, by the token that the fault names, or a level of nesting that there is no room for is
opened at the position that the fault names. -/
theorem Query.read_justified {limit : Nat} {text : String} {fault : Fault}
    (h : Query.read limit text = .error fault) : fault.Justified limit text := by
  obtain ⟨ts, q, left, hs⟩ := exists_scans 0 text.toList
  have hopens : ∀ t ∈ preorderAll ts, t.isGroup = true ∨ t.isColon = true →
      OpensLevel text.toList t.offset := by
    have hspelled : ∀ t ∈ preorderAll ts, t.Spelled limit text :=
      (hs.tiles (Text.suffixAt?_zero _)).2
    exact fun t ht => (hspelled t ht).opensLevel
  rcases (read_eq_error_iff hs).mp h with ⟨offset, hover, rfl⟩ | ⟨hroom, reason, t, hfails, rfl⟩
  · obtain ⟨g, hg, hgroup, rfl⟩ := exists_of_overflowAll? hover
    have hopen := hopens g hg (.inl hgroup)
    exact ⟨rfl, hopen.lt, hopen⟩
  · have hblames := hfails.blames
    have hmem := hfails.reached.mem_preorderAll
    cases reason with
    | unterminatedList =>
      have hscan : Scan.ofText limit text = .ok ⟨0, q, ts⟩ := by
        rw [Scan.ofText_eq, Scan.ofChars_of_scans hs, hroom]
      have hindex := (promotes ts).index_isSome
        (fun t ht => ⟨hs.isRaw t ht, hs.index_isSome t ht⟩) t hmem
      obtain ⟨p, hp⟩ := Option.isSome_iff_exists.mp hindex
      refine ⟨_, hscan, t, ?_, rfl, hfails.breaks rfl⟩
      rw [Token.offset, hp, Option.getD_some]
    | nothingToRead =>
      -- There is no such token: one that is not blank starts a unit.
      have hpromoted := (promotes ts).isPromoted hs.isRaw t hmem
      have hstarts := Token.startsUnit_of_isPromoted hpromoted hblames.1
      simp [hblames.2] at hstarts
    | tooDeep =>
      have hopen := (promotes ts).opensLevel
        (fun t ht => ⟨hs.isRaw t ht, hopens t ht⟩) t hmem hblames
      exact ⟨rfl, hopen.lt, hopen⟩

/-- The law for a colon that there is no room for, and for one that breaks off a list in a group. -/
theorem Query.read_justified_colon :
    (Query.read 2 "\"é\" (a:b:c" = .error (.tooDeep 9 2) ∧
      Fault.Justified 2 "\"é\" (a:b:c" (.tooDeep 9 2)) ∧
    Query.read 1 "\"é\" (^a,b*:c" = .error (.unterminatedList "pair_op" 11) ∧
      Fault.Justified 1 "\"é\" (^a,b*:c" (.unterminatedList "pair_op" 11) := by
  have hdeep : Query.read 2 "\"é\" (a:b:c" = .error (.tooDeep 9 2) := by cbv
  have hlist : Query.read 1 "\"é\" (^a,b*:c" = .error (.unterminatedList "pair_op" 11) := by cbv
  exact ⟨⟨hdeep, Query.read_justified hdeep⟩, hlist, Query.read_justified hlist⟩

end SearchQuery
