/-!
# JSON

Values of the JSON format, as far as the program writes them: numbers are whole. The fields of an
object keep the order that they are given in, and it is the business of whoever builds an object to
give them in alphabetical order.
-/

namespace SearchQuery

/-- A JSON value. -/
inductive Json where
  | null
  | boolean (value : Bool)
  | number (value : Int)
  | text (value : String)
  | array (items : List Json)
  | object (fields : List (String × Json))
deriving Repr, Inhabited

end SearchQuery
