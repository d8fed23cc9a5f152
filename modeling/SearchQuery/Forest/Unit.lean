import SearchQuery.Forest.Items

/-!
# Units

A query is a sequence of units. The first token of a unit, and for some units the one behind it,
says what the unit is:

* `AND`, `OR`, `NOT` and groups stand for themselves;
* a comparator takes the value behind it;
* dots take the upper bound behind them and make a range, with the value in front of them as the
  lower bound if there is one;
* a colon takes the whole unit behind it and makes a pair, with the word or quoted string in front
  of it as the key if there is one;
* a comma, alone or behind a value, makes a list;
* any other value stands for itself.

A pair counts as a level of nesting, so that chains of colons are limited as groups are.
-/

namespace SearchQuery

/-- Is the token a colon? -/
def Token.isColon (t : Token) : Bool :=
  match t.kind with
  | .colon => true
  | _ => false

/-- A pair of what there is of a key and a value. -/
def Kind.ofPair {τ : Type} : Option τ → Option τ → Kind τ
  | some key, some value => .pair key value
  | key?, value? => .unfinishedPair key? value?

/-- The parts of a pair are what there is of a key and a value. -/
theorem Kind.parts_ofPair {τ : Type} (key? value? : Option τ) :
    (Kind.ofPair key? value?).parts = key?.toList ++ value?.toList := by
  cases key? <;> cases value? <;> rfl

/-- The upper bound of a range: left out, or whatever value was found behind the dots. -/
inductive UpperBound where
  | omitted
  | written (found? : Option Found)
deriving Repr

namespace UpperBound

/-- The token of a bound. -/
def token? : UpperBound → Option Token
  | omitted => some .unbounded
  | written found? => Found.token? found?

/-- Where a range with these dots and this bound stops. -/
def stop? (dots : Token) : UpperBound → Option Nat
  | omitted => dots.span.stop
  | written found? => Found.stop? found?

/-- How many raw tokens a bound takes up. -/
def used : UpperBound → Nat
  | omitted => 0
  | written found? => Found.used found?

/-- Was the bound left out? -/
def isOmitted : UpperBound → Bool
  | omitted => true
  | written _ => false

end UpperBound

namespace Level

/-- Reads the bound behind the dots of a range; it is left out in front of a run of blanks and at
the end. -/
def upperBound (level : Level) : List Token → Except Fault UpperBound
  | [] => .ok .omitted
  | t :: ts =>
    if t.isSpace then .ok .omitted else (level.value (t :: ts)).map UpperBound.written

/-- Reads a comparison, from its comparator on. -/
def comparison (level : Level) (op : Comparator) (t : Token) (ts : List Token) :
    Except Fault (Option Found) := do
  let found? ← level.value ts
  let span := ⟨t.span.start, Found.stop? found?⟩
  .ok (some ⟨⟨.comparison op (Found.token? found?), t.index, span, false⟩, Found.used found?⟩)

/-- Reads a range without a lower bound, from its dots on. Dots that stand alone stay flagged where
they were. -/
def openRange (level : Level) (dots : Token) (ts : List Token) : Except Fault (Option Found) := do
  let upper ← level.upperBound ts
  let span := ⟨dots.span.start, upper.stop? dots⟩
  let flagged := upper.isOmitted && dots.flagged
  .ok (some ⟨⟨.range .unbounded upper.token?, dots.index, span, flagged⟩, upper.used⟩)

/-- Reads on behind the lower bound of a range and its dots. -/
def rangeFrom (level : Level) (lower : Found) (dots : Token) (ts : List Token) :
    Except Fault (Option Found) := do
  let upper ← level.upperBound ts
  let value := lower.token
  let span := ⟨value.span.start, upper.stop? dots⟩
  .ok (some ⟨⟨.range value upper.token?, value.index, span, false⟩,
    lower.further + 1 + upper.used⟩)

/-- Reads on behind the colon of a pair, whose key may be missing. -/
def pair (level : Level) (key? : Option Token) (colon : Token) (ts : List Token) :
    Except Fault (Option Found) := do
  let unit ← level.enter colon
  let found? ← unit ts
  let first := key?.getD colon
  let span := ⟨first.span.start, Found.stop? found?⟩
  .ok (some ⟨⟨Kind.ofPair key? (Found.token? found?), first.index, span, false⟩,
    key?.toList.length + Found.used found?⟩)

/-- Reads a value, and with it the range or list that it is the beginning of. -/
def operand (level : Level) (t : Token) (ts : List Token) : Except Fault (Option Found) := do
  match ← level.value (t :: ts) with
  | none => .ok none
  | some found =>
    match ts.drop found.further with
    | [] => .ok (some found)
    | next :: rest =>
      match next.kind with
      | .dots => level.rangeFrom found next rest
      | .comma => level.list t ts
      | _ => .ok (some found)

/-- Reads a unit. -/
def unit (level : Level) : Reader
  | [] => .ok none
  | t :: ts =>
    match t.kind with
    | .and | .or | .not => .ok (some ⟨t, 0⟩)
    | .group _ | .unclosedGroup _ => level.value (t :: ts)
    | .comparator op => level.comparison op t ts
    | .dots => level.openRange t ts
    | .colon => level.pair none t ts
    | .comma => level.list t ts
    | .word _ | .quoted _ =>
      match ts with
      | [] => level.operand t []
      | next :: rest =>
        if next.isColon then level.pair (some t) next rest else level.operand t (next :: rest)
    | _ => level.operand t ts

/-- The level that has room for some more levels below it. A level below is made up only when it is
entered, however large the limit is. -/
def withRoom (limit : Nat) : Nat → Level
  | 0 => ⟨limit, none⟩
  | room + 1 => ⟨limit, some fun tokens => (withRoom limit room).unit tokens⟩

/-- The level outside all groups and pairs. -/
def outermost (limit : Nat) : Level := withRoom limit limit

end Level

end SearchQuery
