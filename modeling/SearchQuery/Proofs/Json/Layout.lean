import SearchQuery.Proofs.Json.Squeeze
import SearchQuery.Token.Wire

/-!
# Both texts are one document

The compact and the indented text of a forest differ in layout alone (`squeeze_prettyText`): less
the spaces and newlines outside strings, the indented text is the compact one. The compact text has
no control characters below U+0020: those of a string are escaped (`Json.noControls_escape`), and
nothing else that is written has any.
-/

namespace SearchQuery.Json

/-- Some characters of which none is a control character below U+0020. -/
def NoControls (cs : List Char) : Prop := ∀ c ∈ cs, 0x20 ≤ c.toNat

instance (cs : List Char) : Decidable (NoControls cs) := List.decidableBAll _ cs

section

variable {c : Char} {cs ds : List Char}

theorem NoControls.append (hc : NoControls cs) (hd : NoControls ds) : NoControls (cs ++ ds) :=
  List.forall_mem_append.mpr ⟨hc, hd⟩

theorem NoControls.cons (hc : 0x20 ≤ c.toNat) (hcs : NoControls cs) : NoControls (c :: cs) :=
  List.forall_mem_cons.mpr ⟨hc, hcs⟩

/-- A number has no control characters. -/
theorem noControls_digits (n : Int) : NoControls (digits n) := by
  intro c hc
  rcases isDigit_or_of_mem_digits hc with hdigit | rfl
  · exact Nat.le_trans (by decide) (Char.isDigit_iff_toNat.mp hdigit).1
  · decide

/-- What is written for a character of a string has no control characters. -/
theorem noControls_escape (c : Char) : NoControls (escape c) := by
  have hnumbered : ∀ n < 0x20,
      NoControls ['\\', 'u', '0', '0', Nat.digitChar (n / 16), Nat.digitChar (n % 16)] := by decide
  unfold escape
  split
  iterate 7 decide
  split
  · next hlt => exact hnumbered c.toNat hlt
  · next hge => exact .cons (Nat.le_of_not_lt hge) nofun

/-- A string has no control characters, whatever it says. -/
theorem noControls_quote (s : String) : NoControls (quote s) := by
  have hbody : NoControls (s.toList.flatMap escape) := by
    intro d hd
    obtain ⟨c, -, hc⟩ := List.mem_flatMap.mp hd
    exact noControls_escape c d hc
  exact .cons (by decide) (hbody.append (by decide))

end

mutual

/-- The compact text of a value has no control characters, if what follows has none. -/
theorem noControls_compact : ∀ (value : Json) {rest : List Char}, NoControls rest →
    NoControls (value.compact rest)
  | null, _, h | boolean true, _, h | boolean false, _, h => .append (by decide) h
  | number n, _, h => (noControls_digits n).append h
  | text s, _, h => (noControls_quote s).append h
  | array items, _, h => .cons (by decide) (noControls_compactItems items (.cons (by decide) h))
  | object fields, _, h => .cons (by decide) (noControls_compactFields fields (.cons (by decide) h))

/-- The compact text of some items has no control characters, if what follows has none. -/
theorem noControls_compactItems : ∀ (items : List Json) {rest : List Char}, NoControls rest →
    NoControls (compactItems items rest)
  | [], _, h => h
  | [item], _, h => noControls_compact item h
  | item :: next :: items, _, h =>
    noControls_compact item (.cons (by decide) (noControls_compactItems (next :: items) h))

/-- The compact text of some fields has no control characters, if what follows has none. -/
theorem noControls_compactFields : ∀ (fields : List (String × Json)) {rest : List Char},
    NoControls rest → NoControls (compactFields fields rest)
  | [], _, h => h
  | [(name, value)], _, h =>
    (noControls_quote name).append (.cons (by decide) (noControls_compact value h))
  | (name, value) :: next :: fields, _, h =>
    (noControls_quote name).append <| .cons (by decide) <|
      noControls_compact value (.cons (by decide) (noControls_compactFields (next :: fields) h))

end

end SearchQuery.Json

namespace SearchQuery

/-- The indented and the compact text of a forest are the same document: without the spaces and
newlines that lie outside strings the indented text is the compact one, and this has no characters
below U+0020. Nothing is asked of the tokens or of the texts in them. -/
theorem squeeze_prettyText (forest : List Token) :
    Json.squeeze .outside (prettyText forest).toList = (compactText forest).toList ∧
    ∀ c ∈ (compactText forest).toList, 0x20 ≤ c.toNat := by
  have hpretty : (prettyText forest).toList = (Json.array (forestToJson forest)).pretty 0 [] :=
    String.toList_ofList
  have hcompact : (compactText forest).toList = (Json.array (forestToJson forest)).compact [] :=
    String.toList_ofList
  rw [hpretty, hcompact]
  exact ⟨Json.squeeze_pretty 0 [] _, Json.noControls_compact _ nofun⟩

end SearchQuery
