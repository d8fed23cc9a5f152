import Mathlib.Data.List.Nodup
import SearchQuery.CommandLine
import SearchQuery.Proofs.Json.Unambiguous

/-!
# Reading arguments

`ReadsArguments` is what the program relies on in the reader of its arguments. Behind the name of a
command stand its options, in any spelling and order and none of them twice, and each is taken for
what it says. One argument behind `--` is the query, whatever it looks like; where there is none, no
query is given.

`readArgs` is a reader of this kind (`readArgs_readsArguments`). It reads options one by one
(`Draft.read_settings`), and each only changes what it is about (`Draft.Lacks.set`).
-/

namespace SearchQuery.CommandLine

/-! ## Options -/

/-- An option in one of the ways in which it is written. -/
inductive Setting where
  /-- Indented output, by the short or the long name. -/
  | indented (short : Bool)
  /-- Raw tokens. -/
  | raw
  /-- The limit, joined to its name or as an argument of its own. -/
  | limit (n : Nat) (joined : Bool)
deriving DecidableEq, Repr

namespace Setting

/-- The long name of an option. -/
def name : Setting → String
  | indented _ => "--pretty"
  | raw => "--tokens"
  | limit _ _ => "--max-depth"

/-- The arguments that an option is written as. -/
def args : Setting → List String
  | indented true => ["-p"]
  | indented false => ["--pretty"]
  | raw => ["--tokens"]
  | limit n true => ["--max-depth=" ++ n.repr]
  | limit n false => ["--max-depth", n.repr]

/-- The limit that an option gives. -/
def limit? : Setting → Option Nat
  | limit n _ => some n
  | _ => none

/-- Does a command have the option, and can its number be given? -/
def Fits (verb : Verb) : Setting → Prop
  | indented _ | raw => verb = .parse
  | limit n _ => n ≤ largestLimit

instance (verb : Verb) : (s : Setting) → Decidable (s.Fits verb)
  | indented _ | raw => inferInstanceAs (Decidable (verb = .parse))
  | limit n _ => inferInstanceAs (Decidable (n ≤ largestLimit))

end Setting

/-- Options that a command can be given together. -/
structure Admissible (verb : Verb) (settings : List Setting) : Prop where
  fits : ∀ s ∈ settings, s.Fits verb
  once : (settings.map Setting.name).Nodup

/-- The arguments of a command with its options, and without a query. -/
def argsOf (verb : Verb) (settings : List Setting) : List String :=
  verb.name :: settings.flatMap Setting.args

/-- What some options ask for, together with a query or without one. -/
def requestOf (settings : List Setting) (query : Option String) : Request :=
  ⟨query, (settings.findSome? Setting.limit?).getD defaultLimit,
    settings.any (·.name = "--tokens"), settings.any (·.name = "--pretty")⟩

/-- What the program relies on in the reader of its arguments. -/
structure ReadsArguments (readArgs : List String → Except Outcome Command) : Prop where
  /-- What stands behind `--` is the query, also where it looks like an option. -/
  query : ∀ {verb : Verb} {settings : List Setting} (q : String), Admissible verb settings →
    readArgs (argsOf verb settings ++ ["--", q]) = .ok ⟨verb, requestOf settings (some q)⟩
  /-- Options are no query. -/
  noQuery : ∀ {verb : Verb} {settings : List Setting}, Admissible verb settings →
    readArgs (argsOf verb settings) = .ok ⟨verb, requestOf settings none⟩

/-! ## The reader of this library -/

/-- The number that is written in decimal digits is read as the limit, if it is not too large. -/
theorem limit?_repr {n : Nat} (hn : n ≤ largestLimit) : limit? n.repr.toList = some n := by
  have hall : (Nat.toDigits 10 n).all Char.isDigit = true :=
    List.all_eq_true.mpr fun c hc => Nat.isDigit_of_mem_toDigits (by decide) (by decide) hc
  have hvalue : (Nat.toDigits 10 n).foldl (fun n c => 10 * n + (c.toNat - '0'.toNat)) 0 = n :=
    Nat.ofDigitChars_ten_toDigits
  obtain ⟨c, cs, hdigits, hc⟩ := Json.exists_toDigits_eq_cons n
  have hplus : c ≠ '+' := by
    rintro rfl
    cases hc
  rw [Nat.repr_eq_ofList_toDigits, String.toList_ofList]
  rw [hdigits] at hall hvalue ⊢
  simp only [limit?]
  split
  · next heq => exact absurd (List.cons.inj heq).1 hplus
  · rw [hvalue, hall, if_pos hn]
    rfl

namespace Draft

variable {verb : Verb} {draft : Draft} {s s' : Setting}

/-- The arguments have not said anything on what an option is about. -/
def Lacks (draft : Draft) : Setting → Prop
  | .indented _ => draft.indented = false
  | .raw => draft.raw = false
  | .limit _ _ => draft.limit = none

/-- At the start nothing has been said. -/
theorem lacks_empty (s : Setting) : empty.Lacks s := by
  cases s <;> rfl

/-- What the arguments have said with an option more. -/
def set (draft : Draft) : Setting → Draft
  | .indented _ => { draft with indented := true }
  | .raw => { draft with raw := true }
  | .limit n _ => { draft with limit := some n }

/-- What the arguments have said with some options more. -/
def extend (draft : Draft) (settings : List Setting) : Draft :=
  ⟨draft.query, draft.limit.or (settings.findSome? Setting.limit?),
    draft.indented || settings.any (·.name = "--pretty"),
    draft.raw || settings.any (·.name = "--tokens")⟩

/-- An option leaves open what other options are about. -/
theorem Lacks.set (h : draft.Lacks s') (hne : s.name ≠ s'.name) : (draft.set s).Lacks s' := by
  cases s <;> cases s' <;> first | exact h | exact absurd rfl hne

/-- An option on something that is still open counts along with the others. -/
theorem extend_cons (h : draft.Lacks s) (settings : List Setting) :
    draft.extend (s :: settings) = (draft.set s).extend settings := by
  obtain ⟨query, limit, indented, raw⟩ := draft
  cases s with
  | indented short =>
    obtain rfl : indented = false := h
    simp [extend, set, List.findSome?_cons, Setting.limit?, Setting.name]
  | raw =>
    obtain rfl : raw = false := h
    simp [extend, set, List.findSome?_cons, Setting.limit?, Setting.name]
  | limit n joined =>
    obtain rfl : limit = none := h
    simp [extend, set, List.findSome?_cons, Setting.limit?, Setting.name]

/-- A joined name and value are no other argument that is shorter than the name. -/
theorem joined_ne (text : String) {other : String}
    (hlen : other.toList.length < limitOption.length) : "--max-depth=" ++ text ≠ other := by
  rintro rfl
  rw [String.toList_append, List.length_append] at hlen
  exact absurd hlen (Nat.not_lt_of_le (Nat.le_add_right _ _))

/-- A number that can be given is taken for a limit that is still open. -/
theorem withLimit_repr {n : Nat} (hn : n ≤ largestLimit) (h : draft.limit = none) :
    draft.withLimit n.repr.toList = .ok { draft with limit := some n } := by
  rw [withLimit, limit?_repr hn, h]

/-- An argument that starts with the name of the limit goes on with its number. -/
theorem withArgument_joined (text : String) :
    draft.withArgument verb ("--max-depth=" ++ text) = draft.withLimit text.toList := by
  have hlist : ("--max-depth=" ++ text).toList = limitOption ++ text.toList := String.toList_append
  have hhelp : "--max-depth=" ++ text ≠ "--help" := joined_ne text (by decide)
  have hpretty : "--max-depth=" ++ text ≠ "--pretty" := joined_ne text (by decide)
  have htokens : "--max-depth=" ++ text ≠ "--tokens" := joined_ne text (by decide)
  rw [withArgument, if_neg hhelp, if_neg (by simp [hpretty]), if_neg (by simp [htokens]), hlist]
  simp

/-- An argument that stands on its own is read by itself. -/
theorem read_cons {arg : String} (args : List String) (hdashes : arg ≠ "--")
    (hlimit : arg ≠ "--max-depth") :
    draft.read verb (arg :: args) =
      (draft.withArgument verb arg).bind fun draft' => draft'.read verb args := by
  rw [read.eq_def]
  dsimp only
  rw [if_neg hdashes, if_neg hlimit]

/-- The short name of the wish for indented output is as good as the long one. -/
theorem withArgument_short : draft.withArgument .parse "-p" = draft.withIndent := by
  have hletters : draft.withArgument .parse "-p" = draft.withIndent.bind .ok := rfl
  refine hletters.trans ?_
  cases draft.withIndent <;> rfl

/-- An option is read off the front of the arguments. -/
theorem read_setting (hfits : s.Fits verb) (h : draft.Lacks s) (args : List String) :
    draft.read verb (s.args ++ args) = (draft.set s).read verb args := by
  cases s with
  | indented short =>
    obtain rfl : verb = .parse := hfits
    have hindent : draft.withIndent = .ok (draft.set (.indented short)) :=
      if_neg (Bool.eq_false_iff.mp h)
    cases short with
    | false =>
      have harg : draft.withArgument .parse "--pretty" = draft.withIndent := rfl
      rw [Setting.args, List.singleton_append, read_cons args (by decide) (by decide), harg,
        hindent, Except.bind]
    | true =>
      rw [Setting.args, List.singleton_append, read_cons args (by decide) (by decide),
        withArgument_short, hindent, Except.bind]
  | raw =>
    obtain rfl : verb = .parse := hfits
    have hraw : draft.withArgument .parse "--tokens" = .ok (draft.set .raw) :=
      if_neg (Bool.eq_false_iff.mp h)
    rw [Setting.args, List.singleton_append, read_cons args (by decide) (by decide), hraw,
      Except.bind]
  | limit n joined =>
    have hnumber : draft.withLimit n.repr.toList = .ok (draft.set (.limit n joined)) :=
      withLimit_repr hfits h
    cases joined with
    | true =>
      have hdashes : "--max-depth=" ++ n.repr ≠ "--" := joined_ne n.repr (by decide)
      have hname : "--max-depth=" ++ n.repr ≠ "--max-depth" := joined_ne n.repr (by decide)
      rw [Setting.args, List.singleton_append, read_cons args hdashes hname, withArgument_joined,
        hnumber, Except.bind]
    | false =>
      -- The number stands in an argument of its own, which is read with the name in front of it.
      exact congrArg (Except.bind · fun draft' => draft'.read verb args) hnumber

/-- Options are read one by one, in the order in which they are written. -/
theorem read_settings {settings : List Setting} (hsettings : Admissible verb settings)
    (h : ∀ s ∈ settings, draft.Lacks s) (args : List String) :
    draft.read verb (settings.flatMap Setting.args ++ args) =
      (draft.extend settings).read verb args := by
  induction settings generalizing draft with
  | nil => simp [extend]
  | cons s settings ih =>
    obtain ⟨hfits, hrest⟩ := List.forall_mem_cons.mp hsettings.fits
    obtain ⟨hnew, honce⟩ := List.nodup_cons.mp hsettings.once
    obtain ⟨hlacks, hothers⟩ := List.forall_mem_cons.mp h
    rw [List.flatMap_cons, List.append_assoc, read_setting hfits hlacks, extend_cons hlacks]
    refine ih ⟨hrest, honce⟩ fun s' hs' => (hothers s' hs').set fun heq => hnew ?_
    exact List.mem_map.mpr ⟨s', hs', heq.symm⟩

end Draft

/-- Behind the name of a command stand the arguments that are read. -/
theorem Command.ofArgs_cons (verb : Verb) (args : List String) :
    Command.ofArgs (verb.name :: args) =
      (Draft.empty.read verb args).map fun draft => ⟨verb, draft.toRequest⟩ := by
  cases verb <;> rfl

/-- The reader of this library does what the program relies on. -/
theorem readArgs_readsArguments : ReadsArguments readArgs where
  query {verb settings} q hsettings := by
    have hdraft : Draft.empty.read verb (settings.flatMap Setting.args ++ ["--", q]) =
        .ok { Draft.empty.extend settings with query := some q } :=
      Draft.read_settings hsettings (fun s _ => Draft.lacks_empty s) ["--", q]
    rw [readArgs, argsOf, List.cons_append, Command.ofArgs_cons, hdraft]
    rfl
  noQuery {verb settings} hsettings := by
    have hdraft : Draft.empty.read verb (settings.flatMap Setting.args ++ []) =
        .ok (Draft.empty.extend settings) :=
      Draft.read_settings hsettings (fun s _ => Draft.lacks_empty s) []
    rw [List.append_nil] at hdraft
    rw [readArgs, argsOf, Command.ofArgs_cons, hdraft]
    rfl

end SearchQuery.CommandLine
