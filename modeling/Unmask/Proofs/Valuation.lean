import Unmask.Expansion.Session
import Unmask.Proofs.Chains
import Unmask.Proofs.Outcomes

/-!
# What a definition is worth

The value of a definition, said without chains and memories.  In the text of a definition, a
reference to the same name is worth the definition before, and nothing, as a cycle, where there is
none; a reference to any other name is worth its newest definition.  An expansion agrees with these
equations as long as every name it meets is found to be what it is worth.

    resolveWith_agrees         a reference is resolved to its value
    expandPiecesWith_agrees    a template expands to its value
-/

namespace Unmask.Expansion

/-- What a key is worth to a text that refers to it: `none` where it has no value. -/
abbrev Worth := Text → Except Fault (Option Resolution)

abbrev Valuation := Generation → Except Fault Resolution

namespace Scope

/-! ## The value of a text -/

/-- What a reference to a name without a value stands for: its fallback, itself, or nothing. -/
def absent (scope : Scope) (token : Text) (r : Reference) : Resolution :=
  match r.modifier with
  | .fallback text => ⟨text, false⟩
  | _ => ⟨if scope.unknownNames = .keep then token else [], false⟩

def referenceValue (scope : Scope) (worth : Worth) (token : Text) (r : Reference) :
    Except Fault Resolution := do
  match ← worth (Definitions.key r.name) with
  | none => return scope.absent token r
  | some value => return r.modifier.apply value

def pieceValue (scope : Scope) (worth : Worth) (piece : Piece) : Except Fault Resolution :=
  match piece.expr with
  | .literal text => .ok ⟨text, false⟩
  | .reference r => scope.referenceValue worth piece.token r

def piecesValue (scope : Scope) (worth : Worth) : (budget : Nat) → Template → Except Fault Resolution
  | _, [] => .ok ⟨[], false⟩
  | budget, piece :: pieces => do
    let head ← scope.pieceValue worth piece
    let size := Text.byteLength head.value
    if budget < size then return { head with value := Text.takeBytes budget head.value }
    else
      let tail ← scope.piecesValue worth (budget - size) pieces
      return ⟨head.value ++ tail.value, head.cyclic || tail.cyclic⟩

/-- The value of a text, cut as every expansion is. -/
def textValue (scope : Scope) (worth : Worth) (text : Text) : Except Fault Resolution := do
  let template ← Template.read scope.dialect text
  scope.piecesValue worth limit template

/-! ## The value of a definition -/

/-- A key is worth its newest definition. -/
def newest (scope : Scope) (val : Valuation) : Worth := fun k =>
  match (scope.definitions.valuesOf k).length with
  | 0 => .ok none
  | n + 1 => (val ⟨k, n⟩).map some

/-- What keys are worth in the text of a definition: its own key is worth the one before. -/
def within (scope : Scope) (val : Valuation) (g : Generation) : Worth := fun k =>
  if k = g.key then
    match g.index with
    | 0 => .ok (some ⟨[], true⟩)
    | i + 1 => (val ⟨k, i⟩).map some
  else scope.newest val k

/-- The value of each definition is the value of its text. -/
def Denotes (scope : Scope) (val : Valuation) : Prop :=
  ∀ g text, (scope.definitions.valuesOf g.key)[g.index]? = some text →
    val g = scope.textValue (scope.within val g) text

end Scope

def Finding.worth (val : Valuation) : Finding → Except Fault (Option Resolution)
  | .unknown => .ok none
  | .exhausted _ => .ok (some ⟨[], true⟩)
  | .value g _ _ => (val g).map some

/-! ## Memories that hold values of definitions -/

/-- Every finished value is the value of its definition. -/
def Sound (val : Valuation) (memory : Memory) : Prop :=
  ∀ g r, memory.known? g = some r → val g = .ok r

theorem sound_empty (val : Valuation) : Sound val .empty := by
  intro g r h
  cases h

theorem Sound.report {val : Valuation} {memory : Memory} (h : Sound val memory) (d : Diagnostic) :
    Sound val (memory.report d) := h

theorem Sound.keep {val : Valuation} {memory : Memory} (h : Sound val memory) {g : Generation}
    {r : Resolution} (hr : val g = .ok r) : Sound val (memory.keep g r) := by
  intro g' r' hk
  unfold Memory.known? Memory.keep at hk
  rw [List.lookup_cons] at hk
  split at hk
  · next he =>
    rw [beq_iff_eq] at he
    subst he
    rw [hr, Option.some.inj hk]
  · exact h g' r' hk

/-- A run gives what a value says and leaves a sound memory, or it stops where the value does. -/
def Agrees (val : Valuation) (run : Except Fault (Outcome × Memory))
    (value : Except Fault Resolution) : Prop :=
  match run with
  | .error fault => value = .error fault
  | .ok (outcome, memory) => value = .ok outcome.resolution ∧ Sound val memory

section Agrees

variable {val : Valuation} {run : Except Fault (Outcome × Memory)} {value : Except Fault Resolution}

/-- A run that goes on agrees with a value that is used. -/
theorem Agrees.bind (h : Agrees val run value)
    {k : Outcome × Memory → Except Fault (Outcome × Memory)} {k' : Resolution → Except Fault Resolution}
    (hk : ∀ outcome memory, value = .ok outcome.resolution → Sound val memory →
      Agrees val (k (outcome, memory)) (k' outcome.resolution)) :
    Agrees val (run >>= k) (value >>= k') := by
  cases run with
  | error fault =>
    have hvalue : value = .error fault := h
    rw [hvalue]
    exact rfl
  | ok found =>
    obtain ⟨hvalue, sound⟩ := h
    have hrest := hk found.1 found.2 hvalue sound
    rw [hvalue]
    exact hrest

/-- The resolution of a run that agrees with a value is that value. -/
theorem Agrees.map_fst (h : Agrees val run value) :
    (run >>= fun found => .ok (found.1.resolution, found.2)).map Prod.fst = value := by
  cases run with
  | error fault => exact Eq.symm h
  | ok found => exact h.1.symm

theorem Agrees.sound (h : Agrees val run value) {r : Resolution} {memory : Memory}
    (hrun : (run >>= fun found => .ok (found.1.resolution, found.2)) = .ok (r, memory)) :
    Sound val memory := by
  obtain ⟨found, rfl, hfound⟩ := bind_eq_ok.1 hrun
  cases hfound
  exact h.2

end Agrees

namespace Scope

variable {scope : Scope} {val : Valuation} {worth : Worth} {descend : Descent} {chain : Chain}

/-- Under a chain, a name is found to be what it is worth, and entering it computes that. -/
structure Serves (scope : Scope) (val : Valuation) (worth : Worth) (descend : Descent) (chain : Chain)
    (name : Text) : Prop where
  worth_eq : worth (Definitions.key name) = (scope.find chain name).worth val
  enter : ∀ g text hit, scope.find chain name = .value g text hit → ∀ memory, Sound val memory →
    Agrees val (descend (g :: chain) text memory) (val g)

theorem missing_agrees (token : Text) (r : Reference) {memory : Memory} (sound : Sound val memory) :
    Agrees val (.ok (scope.missing token r memory)) (.ok (scope.absent token r)) := by
  unfold missing absent
  cases r.modifier <;> exact ⟨rfl, sound⟩

/-- A reference to a name that is found to be what it is worth is resolved to its value. -/
theorem resolveWith_agrees {r : Reference} (serves : scope.Serves val worth descend chain r.name)
    (token : Text) {memory : Memory} (sound : Sound val memory) :
    Agrees val (scope.resolveWith descend chain token r memory)
      (scope.referenceValue worth token r) := by
  unfold resolveWith referenceValue
  rw [serves.worth_eq]
  cases hf : scope.find chain r.name with
  | unknown => exact missing_agrees token r sound
  | exhausted key => exact ⟨rfl, sound.report _⟩
  | value g text hit =>
    simp only [Finding.worth]
    cases hk : memory.known? g with
    | some known =>
      rw [sound g known hk]
      exact ⟨rfl, sound⟩
    | none =>
      have hmap : ((val g).map some >>= fun value : Option Resolution =>
          match value with
          | none => pure (scope.absent token r)
          | some value => pure (r.modifier.apply value)) =
          val g >>= fun value => pure (r.modifier.apply value) := by
        cases val g with
        | error fault => rfl
        | ok value => rfl
      refine hmap ▸ (serves.enter g text hit hf memory sound).bind fun inner memory' hval sound' => ?_
      refine ⟨rfl, ?_⟩
      dsimp only
      split
      · exact sound'.keep hval
      · exact sound'

/-- A template whose names are found to be what they are worth expands to its value. -/
theorem expandPiecesWith_agrees {template : Template}
    (serves : ∀ r ∈ template.references, scope.Serves val worth descend chain r.name) (budget : Nat)
    {memory : Memory} (sound : Sound val memory) :
    Agrees val (scope.expandPiecesWith descend chain budget template memory)
      (scope.piecesValue worth budget template) := by
  induction template generalizing budget memory with
  | nil => exact ⟨rfl, sound⟩
  | cons piece pieces ih =>
    have hhead : Agrees val (scope.expandPieceWith descend chain piece memory)
        (scope.pieceValue worth piece) := by
      unfold expandPieceWith pieceValue
      cases he : piece.expr with
      | literal text => exact ⟨rfl, sound⟩
      | reference r =>
        exact resolveWith_agrees
          (serves r (Template.mem_references.2 ⟨piece, List.mem_cons_self, he⟩)) _ sound
    have htail : ∀ r ∈ Template.references pieces, scope.Serves val worth descend chain r.name := by
      intro r hr
      obtain ⟨p, hp, he⟩ := Template.mem_references.1 hr
      exact serves r (Template.mem_references.2 ⟨p, List.mem_cons_of_mem _ hp, he⟩)
    unfold expandPiecesWith piecesValue
    refine hhead.bind fun head memory' _ sound' => ?_
    dsimp only
    split
    · exact ⟨rfl, sound'⟩
    · exact (ih htail _ sound').bind fun tail memory'' _ sound'' => ⟨rfl, sound''⟩

end Scope

end Unmask.Expansion
