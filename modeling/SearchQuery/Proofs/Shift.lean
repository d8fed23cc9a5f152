import SearchQuery.Proofs.Forest.Recast

/-!
# Texts that stand further on

A text that stands behind another one is scanned, promoted and read as it is by itself, with all
positions moved on. `Token.shift` moves tokens and `Fault.shift` faults. A scan knows the position
of every token (`Scans.index_isSome`), so that a fault that names a token moves on with it
(`forestOf_map_shift`), and so does the first group that goes too deep (`overflowAll?_shift`).
-/

namespace SearchQuery

open Text (width)

/-- The same fault, found `n` bytes further on. -/
def Fault.shift (n : Nat) : Fault → Fault
  | unterminatedList kind offset => .unterminatedList kind (offset + n)
  | nothingToRead kind offset => .nothingToRead kind (offset + n)
  | tooDeep offset limit => .tooDeep (offset + n) limit

/-- A token further on is the same token at other positions. -/
theorem Token.shift_eq_recast (n : Nat) : shift n = recast (fun p => some (p + n)) id :=
  funext relabel_eq_recast

/-- A fault further on is the same fault at another position. -/
theorem Fault.shift_eq_recast (n : Nat) (fault : Fault) :
    fault.shift n = fault.recast fun p => some (p + n) := by
  cases fault <;> rfl

/-- A scan knows the position of every token. -/
theorem Scans.index_isSome {p q : Nat} {cs left : List Char} {ts : List Token}
    (h : Scans p cs ts q left) : ∀ t ∈ preorderAll ts, t.index.isSome = true :=
  h.forall_mem_preorderAll (fun _ _ _ => rfl) (fun _ _ _ => rfl) fun _ _ => rfl

/-- Promotion leaves a token at its position. -/
theorem Token.index_promote (t : Token) : t.promote.index = t.index := by
  unfold promote
  split <;> rfl

/-- Promotion leaves tokens at known positions. -/
theorem Promotes.index_isSome {ts us : List Token} (h : Promotes ts us)
    (hraw : ∀ t ∈ preorderAll ts, t.isRaw = true ∧ t.index.isSome = true) :
    ∀ t ∈ preorderAll us, t.index.isSome = true := by
  refine h.forall_mem_preorderAll (fun _ _ h => ⟨h, h⟩) (fun _ _ _ h h' => ⟨h, h'⟩) ?_ hraw
  intro t _ _ hindex
  rw [Token.index_promote]
  exact hindex

/-! ## Forests -/

/-- The first group of a scan that goes too deep is the first one further on. -/
theorem overflowAll?_shift {room n : Nat} {ts : List Token}
    (h : ∀ t ∈ preorderAll ts, t.index.isSome = true) :
    overflowAll? room (ts.map (Token.shift n)) = (overflowAll? room ts).map (· + n) := by
  rw [Token.shift_eq_recast, overflowAll?_recast h]
  rfl

/-- Tokens further on are promoted in the same way. -/
theorem promote_shift (n : Nat) (ts : List Token) :
    promote (ts.map (Token.shift n)) = (promote ts).map (Token.shift n) := by
  rw [Token.shift_eq_recast, promote_recast]

/-- Tokens further on have the same forest there, or the same fault. -/
theorem forestOf_map_shift {limit n : Nat} {ts : List Token}
    (h : ∀ t ∈ preorderAll ts, t.index.isSome = true) :
    forestOf limit (ts.map (Token.shift n)) =
      match forestOf limit ts with
      | .ok forest => .ok (forest.map (Token.shift n))
      | .error fault => .error (fault.shift n) := by
  simp only [Token.shift_eq_recast, Fault.shift_eq_recast]
  exact forestOf_map_recast h

/-! ## Scans -/

/-- What is written for a token is the same token further on. -/
theorem Piece.Written.shift_covering {kind : Kind Token} {front rest : List Char} {p q n : Nat}
    (h : (Piece.token kind).Written front rest) :
    (Token.covering kind p q).shift n = .covering kind (p + n) (q + n) := by
  have hkind : kind.relabel (fun p => some (p + n)) = kind := by
    cases h with
    | sign hs => cases kind <;> first | rfl | cases hs
    | _ => rfl
  rw [Token.shift, Token.covering, Token.relabel, hkind]
  rfl

/-- A group is a group further on. -/
theorem Token.shift_covering_group {items : List Token} {p q n : Nat} :
    (Token.covering (.group items) p q).shift n =
      .covering (.group (items.map (Token.shift n))) (p + n) (q + n) := by
  rw [shift, covering, relabel, Kind.relabel_group (.inl rfl)]
  rfl

/-- A group that was left open is one further on. -/
theorem Token.shift_cutOff {items : List Token} {p n : Nat} :
    (Token.cutOff items p).shift n = .cutOff (items.map (Token.shift n)) (p + n) := by
  rw [shift, cutOff, relabel, Kind.relabel_group (.inr rfl)]
  rfl

/-- A text that stands further on is scanned in the same way. -/
theorem Scans.shift {p q : Nat} {cs left : List Char} {ts : List Token}
    (h : Scans p cs ts q left) (n : Nat) :
    Scans (p + n) cs (ts.map (Token.shift n)) (q + n) left := by
  induction h with
  | stop h => exact .stop h
  | token hw _ ih =>
    rw [List.map_cons, hw.shift_covering, Nat.add_right_comm]
    rw [Nat.add_right_comm] at ih
    exact .token hw ih
  | @closed p q r cs ds left items ts _ _ ih₁ ih₂ =>
    rw [Nat.add_right_comm] at ih₁ ih₂
    rw [List.map_cons, Token.shift_covering_group, Nat.add_right_comm q]
    exact .closed ih₁ ih₂
  | cut _ hd _ ih₁ ih₂ =>
    rw [Nat.add_right_comm] at ih₁ ih₂
    rw [List.map_cons, Token.shift_cutOff]
    exact .cut ih₁ hd ih₂
  | unclosed _ ih =>
    rw [Nat.add_right_comm] at ih
    rw [List.map_singleton, Token.shift_cutOff]
    exact .unclosed ih

end SearchQuery
