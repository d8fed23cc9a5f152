import SearchQuery.Proofs.Forest.Cursor

/-!
# Reading by index

The readers are given the tokens that are left, so that there is nothing for them to reach beyond.
Here they are once more as an index runs over the whole sequence. Each look-up and each slice is
checked against the bounds, and each loop is given as many rounds as there are tokens; reading halts
if it goes beyond either. Going down into groups and pairs is a recursion on the room that is left.
`CursorLevel.outermost_reads` says that this comes to the same as reading what is left: reading by
index ends, in a round for each token at most, and it never goes out of bounds.
-/

namespace SearchQuery

/-- Why reading by index halts without an answer. -/
inductive Halt where
  /-- The tokens cannot be read. -/
  | fault (fault : Fault)
  /-- A look-up or a slice goes beyond the tokens. -/
  | outOfBounds
  /-- A loop goes on for more rounds than there are tokens. -/
  | outOfRounds
deriving DecidableEq, Repr

/-- Reads what stands at an index of a sequence of tokens, if anything does. -/
abbrev CursorReader := List Token → Nat → Except Halt (Advance (Option Token))

/-- The token at an index. -/
def tokenAt (ts : List Token) (i : Nat) : Except Halt Token :=
  match ts[i]? with
  | some t => .ok t
  | none => .error .outOfBounds

/-- The tokens from an index up to another one. -/
def slice (ts : List Token) (start stop : Nat) : Except Halt (List Token) :=
  if start ≤ stop ∧ stop ≤ ts.length then .ok ((ts.drop start).take (stop - start))
  else .error .outOfBounds

/-- The stretch of text from the first token of a slice to its last one. -/
def spanAt (ts : List Token) (start stop : Nat) : Except Halt Span := do
  match ← slice ts start stop with
  | [] => .ok ⟨none, none⟩
  | first :: others => .ok (Span.over first others)

/-- Does anything other than a blank stand at an index? -/
def boundFollows (ts : List Token) (i : Nat) : Bool := ts[i]?.any fun t => !t.isSpace

/-- The units from an index on, in some rounds. -/
def sequenceAt (unit : CursorReader) (ts : List Token) : Nat → Nat → Except Halt (List Token)
  | 0, i => if i < ts.length then .error .outOfRounds else .ok []
  | rounds + 1, i =>
    match ts[i]? with
    | none => .ok []
    | some t =>
      if t.isSpace then sequenceAt unit ts rounds (i + 1)
      else do
        let step ← unit ts i
        match step.value with
        | none => .error (.fault (.nothingToRead t.kind.name t.offset))
        | some u =>
          let others ← sequenceAt unit ts rounds step.cursor
          .ok (u :: others)

/-- A level of nesting, as `Level` is one. -/
structure CursorLevel where
  limit : Nat
  deeper? : Option CursorReader

namespace CursorLevel

/-- The reader of the units inside a token, which is refused where no deeper level is left. -/
def enter (level : CursorLevel) (t : Token) : Except Halt CursorReader :=
  match level.deeper? with
  | none => .error (.fault (.tooDeep t.offset level.limit))
  | some unit => .ok unit

/-- A group at an index, with its items read. -/
def readGroup (level : CursorLevel) (group : Token) (items : List Token)
    (kind : List Token → Kind Token) (i : Nat) : Except Halt (Advance (Option Token)) := do
  let unit ← level.enter group
  let forest ← sequenceAt unit items items.length 0
  .ok ⟨some { group with kind := kind forest }, i + 1⟩

/-- The fragments at an index, the first of which is `first`. -/
def fragments (first : Token) : CursorReader := fun ts i => do
  let behind ← slice ts i ts.length
  let run := (behind.takeWhile Token.isFragment).length
  let fragments ← slice ts i (i + run)
  let last ← tokenAt fragments (run - 1)
  let span := ⟨first.span.start, last.span.stop⟩
  let value := if run = 1 then first else ⟨.pattern fragments, first.index, span, false⟩
  .ok ⟨some value, i + run⟩

/-- Reads a value. -/
def value (level : CursorLevel) : CursorReader := fun ts i =>
  match ts[i]? with
  | none => .ok ⟨none, i⟩
  | some t =>
    if t.isFragment then fragments t ts i
    else
      match t.kind with
      | .null | .range _ _ | .comparison _ _ | .pin _ | .danglingPin => .ok ⟨some t, i + 1⟩
      | .group items => level.readGroup t items .group i
      | .unclosedGroup items => level.readGroup t items .unclosedGroup i
      | _ => .ok ⟨none, i⟩

/-- Reads the values of a list, in some rounds. -/
def items (level : CursorLevel) (ts : List Token) :
    Nat → Nat → Except Halt (Advance (List Token))
  | 0, i => if i < ts.length then .error .outOfRounds else .ok ⟨[], i⟩
  | rounds + 1, i =>
    if i < ts.length then do
      let step ← level.value ts i
      let values := step.value.toList
      match ts[step.cursor]? with
      | none => .ok ⟨values, step.cursor⟩
      | some next =>
        if next.isSpace then .ok ⟨values, step.cursor⟩
        else if next.isComma then do
          let others ← level.items ts rounds (step.cursor + 1)
          .ok ⟨values ++ others.value, others.cursor⟩
        else .error (.fault (.unterminatedList next.kind.name next.offset))
    else .ok ⟨[], i⟩

/-- Reads a list, which is known by some position. -/
def list (level : CursorLevel) (index : Option Nat) : CursorReader := fun ts i => do
  let items ← level.items ts ts.length i
  let span ← spanAt ts i items.cursor
  .ok ⟨some ⟨.list items.value, index, span, false⟩, items.cursor⟩

/-- Reads a comparison, from its comparator on. -/
def comparison (level : CursorLevel) (op : Comparator) (t : Token) : CursorReader := fun ts i => do
  let step ← level.value ts (i + 1)
  let span := ⟨t.span.start, Token.stop? step.value⟩
  .ok ⟨some ⟨.comparison op step.value, t.index, span, false⟩, step.cursor⟩

/-- Reads a range without a lower bound, from its dots on. -/
def openRange (level : CursorLevel) (dots : Token) : CursorReader := fun ts i => do
  if boundFollows ts (i + 1) then
    let step ← level.value ts (i + 1)
    let span := ⟨dots.span.start, Token.stop? step.value⟩
    .ok ⟨some ⟨.range .unbounded step.value, dots.index, span, false⟩, step.cursor⟩
  else .ok ⟨some { dots with kind := .range .unbounded (some .unbounded) }, i + 1⟩

/-- Reads on at the dots behind the lower bound of a range. -/
def rangeFrom (level : CursorLevel) (lower : Token) : CursorReader := fun ts i => do
  let dots ← tokenAt ts i
  let upper ← if boundFollows ts (i + 1) then level.value ts (i + 1)
    else .ok ⟨some .unbounded, i + 1⟩
  let stop := upper.value.bind fun t => if t.isUnbounded then dots.span.stop else t.span.stop
  .ok ⟨some ⟨.range lower upper.value, lower.index, ⟨lower.span.start, stop⟩, false⟩, upper.cursor⟩

/-- Reads a value, and with it the range or list that it is the beginning of. -/
def operand (level : CursorLevel) : CursorReader := fun ts i => do
  let step ← level.value ts i
  match step.value with
  | none => .ok ⟨none, step.cursor⟩
  | some value =>
    if ts[step.cursor]?.any Token.isDots then level.rangeFrom value ts step.cursor
    else if ts[step.cursor]?.any Token.isComma then level.list value.index ts i
    else .ok ⟨some value, step.cursor⟩

/-- Reads on behind the colon of a pair, whose key may be missing. -/
def pair (level : CursorLevel) (key? : Option Token) (colon : Token) : CursorReader :=
    fun ts i => do
  let unit ← level.enter colon
  let step ← unit ts i
  let first := key?.getD colon
  let span := ⟨first.span.start, Token.stop? step.value⟩
  .ok ⟨some ⟨Kind.ofPair key? step.value, first.index, span, false⟩, step.cursor⟩

/-- Reads a unit. -/
def unit (level : CursorLevel) : CursorReader := fun ts i =>
  match ts[i]? with
  | none => .ok ⟨none, i⟩
  | some t =>
    match t.kind with
    | .and | .or | .not => .ok ⟨some t, i + 1⟩
    | .group items => level.readGroup t items .group i
    | .unclosedGroup items => level.readGroup t items .unclosedGroup i
    | .comparator op => level.comparison op t ts i
    | .dots => level.openRange t ts i
    | .colon => level.pair none t ts (i + 1)
    | .comma => level.list t.index ts i
    | .word _ | .quoted _ =>
      if ts[i + 1]?.any Token.isColon then do
        let colon ← tokenAt ts (i + 1)
        level.pair (some t) colon ts (i + 2)
      else level.operand ts i
    | _ => level.operand ts i

/-- The level that has room for some more levels below it. -/
def withRoom (limit : Nat) : Nat → CursorLevel
  | 0 => ⟨limit, none⟩
  | room + 1 => ⟨limit, some fun ts => (withRoom limit room).unit ts⟩

/-- The level outside all groups and pairs. -/
def outermost (limit : Nat) : CursorLevel := withRoom limit limit

end CursorLevel

end SearchQuery
