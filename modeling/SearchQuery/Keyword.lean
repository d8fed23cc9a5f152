import SearchQuery.Token.Basic

/-!
# Keywords and pins

Raw tokens know words and pin marks; `promote` recognises what they mean. A word that spells a
keyword, in letters of either case, becomes that keyword. A pin mark takes the word or quoted
string directly behind it as the value that it pins, and such a value stays as it was written, even
where it spells a keyword. The same goes on inside groups.
-/

namespace SearchQuery

/-- The keyword that a word spells, in letters of either case. -/
def keyword? {τ : Type} (word : String) : Option (Kind τ) :=
  match word.toList.map Char.toUpper with
  | ['A', 'N', 'D'] => some .and
  | ['O', 'R'] => some .or
  | ['N', 'O', 'T'] => some .not
  | ['N', 'U', 'L', 'L'] => some .null
  | _ => none

namespace Token

/-- Only words and quoted strings can be pinned. -/
def isPinnable (t : Token) : Bool :=
  match t.kind with
  | .word _ | .quoted _ => true
  | _ => false

/-- Is the token a mark that pins what follows? -/
def isPinMark (t : Token) : Bool :=
  match t.kind with
  | .pinMark => true
  | _ => false

/-- The pin that a mark makes with the value behind it. -/
def pinning (mark value : Token) : Token :=
  ⟨.pin (some value), mark.index, ⟨mark.span.start, value.span.stop⟩, mark.flagged⟩

/-- The pin that a mark makes when something follows that cannot be pinned. -/
def pinningNothing (mark : Token) : Token := { mark with kind := .pin none, flagged := true }

/-- What a mark is when nothing follows. -/
def dangling (mark : Token) : Token := { mark with kind := .danglingPin }

end Token

mutual

/-- What a token other than a pin mark means on its own. -/
def Token.promote : Token → Token
  | ⟨.word text, index, span, flagged⟩ =>
    ⟨(keyword? text).getD (.word text), index, span, flagged⟩
  | ⟨.group items, index, span, flagged⟩ => ⟨.group (promote items), index, span, flagged⟩
  | ⟨.unclosedGroup items, index, span, flagged⟩ =>
    ⟨.unclosedGroup (promote items), index, span, flagged⟩
  | t => t

/-- What some raw tokens mean: keywords and pins are recognised, here and inside groups. -/
def promote : List Token → List Token
  | [] => []
  | [t] => [if t.isPinMark then t.dangling else t.promote]
  | t :: u :: ts =>
    if t.isPinMark then
      if u.isPinnable then t.pinning u :: promote ts else t.pinningNothing :: promote (u :: ts)
    else t.promote :: promote (u :: ts)

end

end SearchQuery
