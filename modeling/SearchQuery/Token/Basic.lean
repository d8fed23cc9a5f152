import SearchQuery.Comparator

/-!
# Tokens

A query is described by tokens: first the raw ones that its text consists of, and in the end a
forest of tokens that hold other tokens as their parts. Both are of the one type `Token`: what the
token is (`Kind`), the position it is known by, the stretch of text it covers, and a flag for a
token that was written wrongly. The positions are independent of each other and each may be
missing, for instance the end of a group that was never closed.

`Kind` takes the type of its parts as a parameter, so that a definition which only looks at one
level (`name`, `parts`, `text?`) needs no recursion. `Token.induct` is induction on the parts.
-/

namespace SearchQuery

/-- The stretch of text from `start` up to `stop`, where either end may be unknown. -/
structure Span where
  start : Option Nat
  stop : Option Nat
deriving DecidableEq, Repr

/-- What a token is, with parts of type `τ`. -/
inductive Kind (τ : Type) where
  /-- A run of blank characters. -/
  | space (text : String)
  /-- A bare word. -/
  | word (text : String)
  /-- A quoted string, its escapes already resolved. -/
  | quoted (text : String)
  /-- A quoted string that the text ends in. -/
  | unclosedQuoted (text : String)
  /-- The mark that pins the value behind it. -/
  | pinMark
  /-- A comparator on its own. -/
  | comparator (op : Comparator)
  /-- The colon between a key and its value. -/
  | colon
  /-- The two dots of a range. -/
  | dots
  /-- The comma of a list. -/
  | comma
  /-- Stands for any text in a pattern. -/
  | wildcard
  /-- Stands for any one character in a pattern. -/
  | anyChar
  /-- A query in parentheses. -/
  | group (items : List τ)
  /-- A group without its closing parenthesis. -/
  | unclosedGroup (items : List τ)
  | and
  | or
  | not
  | null
  /-- A pinned value; it is missing where something that cannot be pinned follows the mark. -/
  | pin (value : Option τ)
  /-- A pin mark with nothing behind it. -/
  | danglingPin
  /-- A comparator with its value, which is missing where no value follows. -/
  | comparison (op : Comparator) (value : Option τ)
  /-- A range; its upper bound is missing where something other than a value follows the dots. -/
  | range (lower : τ) (upper : Option τ)
  /-- A key with its value. -/
  | pair (key value : τ)
  /-- A pair without its key, its value, or both. -/
  | unfinishedPair (key value : Option τ)
  /-- Values separated by commas. -/
  | list (items : List τ)
  /-- Fragments of a pattern, written without a gap. -/
  | pattern (fragments : List τ)
  /-- The bound of a range that was left out. -/
  | unbounded
deriving DecidableEq, Repr

namespace Kind

variable {τ : Type}

/-- The name of a kind in output. -/
def name : Kind τ → String
  | space _ => "space"
  | word _ => "word"
  | quoted _ => "quoted_string"
  | unclosedQuoted _ => "incomplete:quoted_string"
  | pinMark => "pin_op"
  | comparator _ => "cmp_op"
  | colon => "pair_op"
  | dots => "range_op"
  | comma => "continuation_op"
  | wildcard => "wildcard"
  | anyChar => "any_char"
  | group _ => "group"
  | unclosedGroup _ => "incomplete:group"
  | and => "and"
  | or => "or"
  | not => "not"
  | null => "null"
  | pin _ => "pin"
  | danglingPin => "incomplete:pin"
  | comparison _ _ => "cmp"
  | range _ _ => "range"
  | pair _ _ => "pair"
  | unfinishedPair _ _ => "incomplete:pair"
  | list _ => "list"
  | pattern _ => "partial"
  | unbounded => "infinity"

/-- The parts of a token of this kind, in the order of the text. -/
def parts : Kind τ → List τ
  | group items | unclosedGroup items | list items | pattern items => items
  | pin value | comparison _ value => value.toList
  | range lower upper => lower :: upper.toList
  | pair key value => [key, value]
  | unfinishedPair key value => key.toList ++ value.toList
  | _ => []

/-- The text that a word, a quoted string or a run of blanks carries. -/
def text? : Kind τ → Option String
  | space text | word text | quoted text | unclosedQuoted text => some text
  | _ => none

/-- Does the kind say that something is still to be written? -/
def isUnfinished : Kind τ → Bool
  | unclosedQuoted _ | unclosedGroup _ | danglingPin | unfinishedPair _ _ => true
  | _ => false

end Kind

/-- A token: what it is, the position it is known by, the text it covers, and whether it was
written wrongly. -/
structure Token where
  kind : Kind Token
  index : Option Nat
  span : Span
  flagged : Bool
deriving Repr

namespace Token

/-- Stands for a bound that was left out. -/
def unbounded : Token := ⟨.unbounded, none, ⟨none, none⟩, false⟩

/-- A token of raw text, which is known by the position that it starts at. -/
def covering (kind : Kind Token) (start stop : Nat) : Token :=
  ⟨kind, some start, ⟨some start, some stop⟩, false⟩

/-- The position that a complaint about the token names. -/
def offset (t : Token) : Nat := t.index.getD 0

/-- Is the token a run of blanks? -/
def isSpace (t : Token) : Bool :=
  match t.kind with
  | .space _ => true
  | _ => false

/-- Is the token a bound that was left out? -/
def isUnbounded (t : Token) : Bool :=
  match t.kind with
  | .unbounded => true
  | _ => false

/-- Does the token ask for a correction: is it unfinished, or was it written wrongly? -/
def isProblem (t : Token) : Bool := t.kind.isUnfinished || t.flagged

/-- Induction on tokens: what holds of a token as soon as it holds of its parts holds of all. -/
@[elab_as_elim]
theorem induct {P : Token → Prop} (step : ∀ t : Token, (∀ p ∈ t.kind.parts, P p) → P t)
    (t : Token) : P t := by
  have leaf : ∀ p ∈ ([] : List Token), P p := nofun
  exact @Token.rec P (fun k => ∀ p ∈ k.parts, P p) (fun ts => ∀ p ∈ ts, P p)
    (fun o => ∀ p ∈ o.toList, P p)
    (fun k i s f ih => step ⟨k, i, s, f⟩ ih)
    (fun _ => leaf) (fun _ => leaf) (fun _ => leaf) (fun _ => leaf) leaf (fun _ => leaf)
    leaf leaf leaf leaf leaf
    (fun _ ih => ih) (fun _ ih => ih)
    leaf leaf leaf leaf
    (fun _ ih => ih) leaf (fun _ _ ih => ih)
    (fun _ _ lower upper => List.forall_mem_cons.mpr ⟨lower, upper⟩)
    (fun _ _ key value => List.forall_mem_cons.mpr ⟨key, List.forall_mem_cons.mpr ⟨value, leaf⟩⟩)
    (fun _ _ key value => List.forall_mem_append.mpr ⟨key, value⟩)
    (fun _ ih => ih) (fun _ ih => ih) leaf
    leaf (fun _ _ head tail => List.forall_mem_cons.mpr ⟨head, tail⟩)
    leaf (fun _ value => List.forall_mem_cons.mpr ⟨value, leaf⟩)
    t

end Token

end SearchQuery
