import Unmask.Proofs.NameCycles

/-!
# Where an expansion is cut

The pieces of a template are evaluated one after the other until their values have more bytes than
the limit.  The value of the template is what stands in front of the cut, and what lies behind the
piece that crosses the limit is not evaluated, so it counts for nothing: not for the value, the
cyclic flag and the memory, and no fault in it stops the run.

    isCut_iff                  the cut is the longest start of a text that fits
    expandPiecesWith_literals  literal text comes out as it is, cut
    expandPiecesWith_eq_ok_iff what an expansion comes to, piece by piece
-/

namespace Unmask

namespace Text

/-! ## Cuts -/

/-- A text as far as `budget` bytes go: all of it, or the longest start that has no more bytes. -/
def IsCut (budget : Nat) (s value : Text) : Prop :=
  (byteLength s ≤ budget → value = s) ∧
  (budget < byteLength s → value <+: s ∧ byteLength value ≤ budget ∧
    ∀ start, start <+: s → byteLength start ≤ budget → start <+: value)

/-- Whatever start of a text fits is a start of what is taken. -/
theorem isPrefix_takeBytes {budget : Nat} {s start : Text} (h : start <+: s)
    (hsize : byteLength start ≤ budget) : start <+: takeBytes budget s := by
  obtain ⟨rest, rfl⟩ := h
  rw [takeBytes_append hsize]
  exact List.prefix_append start _

theorem isCut_iff {budget : Nat} {s value : Text} :
    IsCut budget s value ↔ value = takeBytes budget s := by
  constructor
  · rintro ⟨hwhole, hcut⟩
    by_cases hsize : byteLength s ≤ budget
    · rw [hwhole hsize, takeBytes_eq_self hsize]
    · obtain ⟨hstart, hfits, hlongest⟩ := hcut (Nat.lt_of_not_le hsize)
      have htake := hlongest _ (takeBytes_isPrefix budget s) (byteLength_takeBytes_le budget s)
      have hvalue := isPrefix_takeBytes hstart hfits
      exact hvalue.eq_of_length_le htake.length_le
  · rintro rfl
    exact ⟨takeBytes_eq_self, fun _ => ⟨takeBytes_isPrefix budget s,
      byteLength_takeBytes_le budget s, fun _ => isPrefix_takeBytes⟩⟩

/-- What stands behind the cut does not count. -/
theorem takeBytes_append_of_lt {budget : Nat} {s : Text} (h : budget < byteLength s) (t : Text) :
    takeBytes budget (s ++ t) = takeBytes budget s := by
  induction s generalizing budget with
  | nil => cases h
  | cons c s ih =>
    rw [byteLength] at h
    rw [List.cons_append, takeBytes, takeBytes]
    split
    · rw [ih (by omega)]
    · rfl

end Text

def Resolution.cut (budget : Nat) (r : Resolution) : Resolution :=
  { r with value := Text.takeBytes budget r.value }

theorem Resolution.cut_eq_self_iff {budget : Nat} {r : Resolution} :
    r.cut budget = r ↔ Text.byteLength r.value ≤ budget := by
  constructor
  · intro h
    rw [← h]
    exact Text.byteLength_takeBytes_le _ _
  · intro h
    rw [cut, Text.takeBytes_eq_self h]

/-- A template of literal texts that make up a value. -/
inductive Template.Literals : Template → Text → Prop
  | nil : Literals [] []
  | cons {template : Template} {value : Text} (token text : Text) (h : Literals template value) :
      Literals (⟨token, .literal text⟩ :: template) (text ++ value)

namespace Expansion.Scope

/-! ## Single pieces and literal text -/

theorem expandPiecesWith_singleton (scope : Scope) (descend : Descent) (chain : Chain)
    (budget : Nat) (piece : Piece) (memory : Memory) :
    scope.expandPiecesWith descend chain budget [piece] memory =
      (scope.expandPieceWith descend chain piece memory).map fun p =>
        ({ p.1 with resolution := p.1.resolution.cut budget }, p.2) := by
  cases hpiece : scope.expandPieceWith descend chain piece memory with
  | error fault =>
    rw [expandPiecesWith, hpiece]
    rfl
  | ok step =>
    obtain ⟨o, memory'⟩ := step
    by_cases hsize : Text.byteLength o.resolution.value ≤ budget
    · rw [expandPiecesWith_cons hpiece hsize rfl, append_literal_nil]
      simp only [Except.map, Resolution.cut_eq_self_iff.2 hsize]
    · rw [expandPiecesWith, hpiece]
      exact if_pos (Nat.lt_of_not_le hsize)

/-- Literal text comes out as it is, as far as the budget goes. -/
theorem expandPiecesWith_literals (scope : Scope) (descend : Descent) (chain : Chain)
    {template : Template} {value : Text} (h : Template.Literals template value) (budget : Nat)
    (memory : Memory) :
    scope.expandPiecesWith descend chain budget template memory =
      .ok (.literal (Text.takeBytes budget value), memory) := by
  induction h generalizing budget with
  | nil => rfl
  | @cons template value token text h ih =>
    have hhead : scope.expandPieceWith descend chain ⟨token, .literal text⟩ memory =
        .ok (.literal text, memory) := rfl
    by_cases hsize : Text.byteLength text ≤ budget
    · rw [expandPiecesWith_cons hhead hsize (ih _), Text.takeBytes_append hsize]
      rfl
    · have hcut := Nat.lt_of_not_le hsize
      rw [expandPiecesWith, hhead, Text.takeBytes_append_of_lt hcut]
      exact if_pos hcut

/-! ## Pieces in order -/

/-- Pieces are evaluated in order, each with the memory that the one before it leaves. -/
inductive Evaluates (scope : Scope) (descend : Descent) (chain : Chain) :
    Template → Memory → List Outcome → Memory → Prop
  | nil (memory) : Evaluates scope descend chain [] memory [] memory
  | cons {piece pieces memory memory' memory'' head tail} :
      scope.expandPieceWith descend chain piece memory = .ok (head, memory') →
      Evaluates scope descend chain pieces memory' tail memory'' →
      Evaluates scope descend chain (piece :: pieces) memory (head :: tail) memory''

def joinedValues (outcomes : List Outcome) : Text :=
  outcomes.flatMap fun o => o.resolution.value

/-- What outcomes make up within `budget` bytes. -/
def cutOutcome (budget : Nat) (outcomes : List Outcome) : Outcome where
  resolution :=
    ⟨Text.takeBytes budget (joinedValues outcomes), outcomes.any fun o => o.resolution.cyclic⟩
  hits := outcomes.flatMap Outcome.hits

/-- The outcomes of `done`, which are all pieces or cross the budget with the last one. -/
structure Stops (scope : Scope) (descend : Descent) (chain : Chain) (budget : Nat)
    (done rest : Template) (memory : Memory) (outcomes : List Outcome) (memory' : Memory) :
    Prop where
  evaluates : scope.Evaluates descend chain done memory outcomes memory'
  /-- In front of the last piece the budget is not crossed. -/
  room : Text.byteLength (joinedValues outcomes.dropLast) ≤ budget
  /-- Pieces are left out only behind one that crosses it. -/
  crossed : rest ≠ [] → budget < Text.byteLength (joinedValues outcomes)

variable {scope : Scope} {descend : Descent} {chain : Chain} {memory memory' : Memory}

theorem joinedValues_cons (head : Outcome) (tail : List Outcome) :
    joinedValues (head :: tail) = head.resolution.value ++ joinedValues tail :=
  List.flatMap_cons

/-- A first outcome that fits stands in front of what the others make up. -/
theorem cutOutcome_cons {budget : Nat} {head : Outcome} {tail : List Outcome}
    (hsize : Text.byteLength head.resolution.value ≤ budget) :
    cutOutcome budget (head :: tail) =
      head.append (cutOutcome (budget - Text.byteLength head.resolution.value) tail) := by
  unfold cutOutcome Outcome.append
  rw [joinedValues_cons, Text.takeBytes_append hsize, List.any_cons, List.flatMap_cons]

theorem cutOutcome_singleton (budget : Nat) (head : Outcome) :
    cutOutcome budget [head] = { head with resolution := head.resolution.cut budget } := by
  unfold cutOutcome Resolution.cut
  simp [joinedValues]

/-- A piece that fits is evaluated in front of the pieces that stop behind it. -/
theorem Stops.cons {budget : Nat} {piece : Piece} {done rest : Template} {head : Outcome}
    {tail : List Outcome} {memory'' : Memory}
    (hhead : scope.expandPieceWith descend chain piece memory = .ok (head, memory'))
    (hsize : Text.byteLength head.resolution.value ≤ budget)
    (h : scope.Stops descend chain (budget - Text.byteLength head.resolution.value) done rest memory'
      tail memory'') :
    scope.Stops descend chain budget (piece :: done) rest memory (head :: tail) memory'' where
  evaluates := .cons hhead h.evaluates
  room := by
    cases tail with
    | nil => exact Nat.zero_le budget
    | cons next tail =>
      have hroom := h.room
      rw [List.dropLast_cons_cons, joinedValues_cons, Text.byteLength_append]
      omega
  crossed hrest := by
    have hcrossed := h.crossed hrest
    rw [joinedValues_cons, Text.byteLength_append]
    omega

/-- What an expansion comes to, for any budget. -/
theorem expandPiecesWith_stops {budget : Nat} {template : Template} {o : Outcome} :
    scope.expandPiecesWith descend chain budget template memory = .ok (o, memory') ↔
      ∃ done rest outcomes, template = done ++ rest ∧
        scope.Stops descend chain budget done rest memory outcomes memory' ∧
        o = cutOutcome budget outcomes := by
  constructor
  · intro h
    induction template generalizing budget memory o with
    | nil =>
      cases h
      exact ⟨[], [], [], rfl, ⟨.nil _, Nat.zero_le _, fun hne => absurd rfl hne⟩, rfl⟩
    | cons piece pieces ih =>
      rw [expandPiecesWith] at h
      obtain ⟨⟨head, memory₁⟩, hhead, h⟩ := bind_eq_ok.1 h
      dsimp only at h
      by_cases hcut : budget < Text.byteLength head.resolution.value
      · rw [if_pos hcut] at h
        cases h
        refine ⟨[piece], pieces, [head], rfl, ⟨.cons hhead (.nil _), Nat.zero_le _, fun _ => ?_⟩,
          (cutOutcome_singleton budget head).symm⟩
        rwa [joinedValues_cons, Text.byteLength_append, joinedValues, List.flatMap_nil,
          Text.byteLength, Nat.add_zero]
      · rw [if_neg hcut] at h
        obtain ⟨⟨tail, memory₂⟩, htail, h⟩ := bind_eq_ok.1 h
        cases h
        obtain ⟨done, rest, outcomes, rfl, hstops, rfl⟩ := ih htail
        have hsize := Nat.le_of_not_lt hcut
        exact ⟨piece :: done, rest, head :: outcomes, rfl, hstops.cons hhead hsize,
          (cutOutcome_cons hsize).symm⟩
  · rintro ⟨done, rest, outcomes, rfl, ⟨hevaluates, hroom, hcrossed⟩, rfl⟩
    induction hevaluates generalizing budget with
    | nil memory =>
      cases rest with
      | nil => rfl
      | cons piece rest => exact absurd (hcrossed (List.cons_ne_nil piece rest)) (Nat.not_lt_zero _)
    | @cons piece pieces memory memory₁ memory₂ head tail hhead htail ih =>
      rw [List.cons_append, expandPiecesWith]
      refine bind_eq_ok.2 ⟨(head, memory₁), hhead, ?_⟩
      dsimp only
      rw [joinedValues_cons, Text.byteLength_append] at hcrossed
      by_cases hcut : budget < Text.byteLength head.resolution.value
      · -- the first value crosses the budget already, so it is the last one
        cases htail with
        | nil =>
          rw [if_pos hcut, cutOutcome_singleton]
          rfl
        | cons =>
          rw [List.dropLast_cons_cons, joinedValues_cons, Text.byteLength_append] at hroom
          omega
      · have hsize := Nat.le_of_not_lt hcut
        rw [if_neg hcut, cutOutcome_cons hsize]
        refine bind_eq_ok.2 ⟨_, ih ?_ fun hrest => ?_, rfl⟩
        · cases htail with
          | nil => exact Nat.zero_le _
          | cons =>
            rw [List.dropLast_cons_cons, joinedValues_cons, Text.byteLength_append] at hroom
            omega
        · have := hcrossed hrest
          omega

/--
An expansion evaluates pieces in order, up to the end or to the first one with which their values
have more bytes than the limit.  Its value is these values one behind the other if they fit, and the
longest start of them that fits if not, whatever the pieces behind are worth.  It is cyclic if one of
the pieces that are evaluated is.
-/
theorem expandPiecesWith_eq_ok_iff (scope : Scope) (descend : Descent) (chain : Chain)
    (template : Template) (memory memory' : Memory) (o : Outcome) :
    scope.expandPiecesWith descend chain limit template memory = .ok (o, memory') ↔
      ∃ done rest outcomes, template = done ++ rest ∧
        scope.Stops descend chain limit done rest memory outcomes memory' ∧
        (∀ behind, (rest = [] → behind = []) →
          Text.IsCut limit (joinedValues outcomes ++ behind) o.resolution.value) ∧
        (o.resolution.cyclic = true ↔ ∃ part ∈ outcomes, part.resolution.cyclic = true) ∧
        o.hits = outcomes.flatMap Outcome.hits := by
  rw [expandPiecesWith_stops]
  refine exists_congr fun done => exists_congr fun rest => exists_congr fun outcomes =>
    and_congr_right fun _ => and_congr_right fun hstops => ?_
  constructor
  · rintro rfl
    refine ⟨fun behind hbehind => Text.isCut_iff.2 ?_, List.any_eq_true, rfl⟩
    by_cases hrest : rest = []
    · rw [hbehind hrest, List.append_nil]
      rfl
    · rw [Text.takeBytes_append_of_lt (hstops.crossed hrest)]
      rfl
  · rintro ⟨hvalue, hcyclic, hhits⟩
    have hvalue := Text.isCut_iff.1 (hvalue [] fun _ => rfl)
    rw [List.append_nil] at hvalue
    have hcyclic : o.resolution.cyclic = outcomes.any fun part => part.resolution.cyclic :=
      Bool.eq_iff_iff.2 (hcyclic.trans List.any_eq_true.symm)
    obtain ⟨⟨value, cyclic⟩, hits⟩ := o
    dsimp only at hvalue hcyclic hhits
    rw [hvalue, hcyclic, hhits]
    rfl

end Expansion.Scope

end Unmask
