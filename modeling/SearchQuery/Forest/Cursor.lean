import SearchQuery.Forest.Unit

/-!
# Reading at a cursor

`forestOf` reads a whole sequence of tokens. Tools that follow what a user is doing also read single
units, values and lists anywhere in a sequence: at a cursor, the number of tokens in front. Each
answers with the cursor behind what it read, which stays where it is if there was nothing to read.
-/

namespace SearchQuery

/-- The forest that a sequence of tokens stands for. -/
def forestOf (limit : Nat) (tokens : List Token) : Except Fault (List Token) :=
  sequence (Level.outermost limit).unit tokens

/-- What was read at a cursor, and the cursor behind it. -/
structure Advance (α : Type) where
  value : α
  cursor : Nat
deriving Repr

/-- How far a reader gets that was given the tokens behind a cursor. -/
def Advance.ofFound (cursor : Nat) (found? : Option Found) : Advance (Option Token) :=
  ⟨Found.token? found?, cursor + Found.used found?⟩

/-- The unit at a cursor. -/
def unitAt (limit : Nat) (tokens : List Token) (cursor : Nat) :
    Except Fault (Advance (Option Token)) :=
  ((Level.outermost limit).unit (tokens.drop cursor)).map (Advance.ofFound cursor)

/-- The value at a cursor. -/
def valueAt (limit : Nat) (tokens : List Token) (cursor : Nat) :
    Except Fault (Advance (Option Token)) :=
  ((Level.outermost limit).value (tokens.drop cursor)).map (Advance.ofFound cursor)

/-- The values of the list at a cursor. -/
def itemsAt (limit : Nat) (tokens : List Token) (cursor : Nat) :
    Except Fault (Advance (List Token)) :=
  ((Level.outermost limit).items (tokens.drop cursor)).map fun items =>
    ⟨items.tokens, cursor + items.used⟩

end SearchQuery
