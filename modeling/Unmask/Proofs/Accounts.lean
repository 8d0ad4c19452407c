import Unmask.Proofs.Diagnostics
import Unmask.Proofs.Reachability
import Unmask.Proofs.Valuation

/-!
# What an expansion tells

Where no name leads back to itself, an expansion can be said without chains and memories: beside its
value it has notes, one for each reference to a name without a value, in the order in which they are
met.  An expansion with a memory gives the same value.  It notes the same too, but for what was
noted when the values in its memory were worked out.

    account_eq                   the account of a text is put together from those of its names
    descend_recounts             a definition that is entered tells what its account says
    expandPiecesWith_recounts    and so does a template
-/

namespace Unmask

/-! ## Adding what is there -/

namespace Diagnostic

theorem foldl_add_eq_self {new ds : List Diagnostic} (h : ∀ d ∈ new, d ∈ ds) :
    new.foldl (fun ds d => d.add ds) ds = ds := by
  induction new with
  | nil => rfl
  | cons d new ih =>
    have hd : d.add ds = ds := if_pos (h d List.mem_cons_self)
    rw [List.foldl_cons, hd]
    exact ih fun a ha => h a (List.mem_cons_of_mem d ha)

end Diagnostic

namespace Expansion

/-! ## Accounts -/

/-- What an expansion gives, and what it notes in order. -/
structure Account where
  resolution : Resolution
  notes : List Diagnostic

abbrev Accounting := Text → Except Fault Account

namespace Scope

/-- No name leads back to itself. -/
def Acyclic (scope : Scope) : Prop :=
  ∀ k, ¬ scope.Reaches k k

/-- A rank that every reference lowers rules out that a name leads back to itself. -/
theorem acyclic_ofList {d : Dialect} {unknownNames : UnknownNames} (rank : Text → Nat)
    {pairs : List (Text × Text)} (h : (pairs.all fun pair => (namedKeys d pair.2).all fun k =>
      decide (rank k < rank (Definitions.key pair.1))) = true) :
    Acyclic ⟨Definitions.ofList pairs, d, unknownNames⟩ := by
  intro k hk
  suffices hlower : ∀ a b, Reaches ⟨Definitions.ofList pairs, d, unknownNames⟩ a b →
      rank b < rank a from Nat.lt_irrefl _ (hlower k k hk)
  have hstep : ∀ a b, RefersTo ⟨Definitions.ofList pairs, d, unknownNames⟩ a b →
      rank b < rank a := by
    rintro a b ⟨text, htext, template, hread, r, hr, rfl⟩
    obtain ⟨pair, hpair, rfl, rfl⟩ := Definitions.mem_of_mem_valuesOf_ofList htext
    have hall := List.all_eq_true.1 (List.all_eq_true.1 h pair hpair) _ (mem_namedKeys hread hr)
    exact of_decide_eq_true hall
  intro a b hab
  induction hab with
  | single hab => exact hstep a _ hab
  | tail _ hbc ih =>
    have := hstep _ _ hbc
    omega

def absentNotes (r : Reference) : List Diagnostic :=
  match r.modifier with
  | .fallback _ => []
  | _ => [.unresolvedReference r.name]

def referenceAccount (scope : Scope) (inner : Accounting) (token : Text) (r : Reference) :
    Except Fault Account :=
  match scope.definitions.lookup? r.name with
  | none => .ok ⟨scope.absent token r, absentNotes r⟩
  | some text => do
    let account ← inner text
    return ⟨r.modifier.apply account.resolution, account.notes⟩

def pieceAccount (scope : Scope) (inner : Accounting) (piece : Piece) : Except Fault Account :=
  match piece.expr with
  | .literal text => .ok ⟨⟨text, false⟩, []⟩
  | .reference r => scope.referenceAccount inner piece.token r

def piecesAccount (scope : Scope) (inner : Accounting) :
    (budget : Nat) → Template → Except Fault Account
  | _, [] => .ok ⟨⟨[], false⟩, []⟩
  | budget, piece :: pieces => do
    let head ← scope.pieceAccount inner piece
    let size := Text.byteLength head.resolution.value
    if budget < size then
      let value := Text.takeBytes budget head.resolution.value
      return { head with resolution := { head.resolution with value } }
    else
      let tail ← scope.piecesAccount inner (budget - size) pieces
      return ⟨⟨head.resolution.value ++ tail.resolution.value,
        head.resolution.cyclic || tail.resolution.cyclic⟩, head.notes ++ tail.notes⟩

/-- The account of a text, by what its names stand for. -/
def textAccount (scope : Scope) (inner : Accounting) (text : Text) : Except Fault Account := do
  let template ← Template.read scope.dialect text
  scope.piecesAccount inner limit template

/-- The account of a text, references being followed at most `depth` deep. -/
def accountUpTo (scope : Scope) : (depth : Nat) → Accounting
  | 0, _ => .ok ⟨⟨[], false⟩, []⟩
  | depth + 1, text => scope.textAccount (scope.accountUpTo depth) text

/-- The account of a text; no references lead deeper than there are definitions. -/
def account (scope : Scope) : Accounting :=
  scope.accountUpTo (scope.definitions.total + 1)

variable {scope : Scope} {chain : Chain}

/-! ## Names that are not in progress -/

/-- What a text refers to, the definition at the head of a chain does. -/
def Within (scope : Scope) (chain : Chain) (text : Text) : Prop :=
  ∀ older ∈ chain.head?, ∀ template, Template.read scope.dialect text = .ok template →
    ∀ r ∈ template.references, scope.RefersTo older.key (Definitions.key r.name)

theorem within_nil (scope : Scope) (text : Text) : scope.Within [] text := by
  intro older holder
  cases holder

/-- Where no name leads back to itself, no name that is met is in progress. -/
theorem WellFormed.current?_of_acyclic (wf : scope.WellFormed chain) (hacyclic : scope.Acyclic)
    {k : Text} (href : ∀ older ∈ chain.head?, scope.RefersTo older.key k) :
    chain.current? k = none := by
  refine Chain.current?_eq_none.2 fun g hg hk => ?_
  cases chain with
  | nil => cases hg
  | cons head chain =>
    have hhead := href head rfl
    rcases List.mem_cons.1 hg with rfl | hg
    · exact hacyclic k (hk ▸ .single (hk ▸ hhead))
    · exact hacyclic k (hk ▸ (wf.reaches_head hg).tail (hk ▸ hhead))

theorem find_eq_find_nil {name : Text} (hcurrent : chain.current? (Definitions.key name) = none) :
    scope.find chain name = scope.find [] name := by
  have hnil : Chain.current? [] (Definitions.key name) = none := rfl
  simp only [find, hcurrent, hnil]

/-- A name that is not in progress is found to be its newest value. -/
theorem find_of_current? (scope : Scope) {chain : Chain} {name : Text}
    (hcurrent : chain.current? (Definitions.key name) = none) :
    scope.definitions.lookup? name = none ∧ scope.find chain name = .unknown ∨
      ∃ g text, scope.definitions.lookup? name = some text ∧
        scope.find chain name = .value g text false := by
  unfold Definitions.lookup? Definitions.history
  cases hn : (scope.definitions.valuesOf (Definitions.key name)).length with
  | zero =>
    have hnil := List.length_eq_zero_iff.1 hn
    exact Or.inl ⟨by rw [hnil]; rfl, find_undefined hcurrent hnil⟩
  | succ n =>
    obtain ⟨text, htext⟩ : ∃ text,
        (scope.definitions.valuesOf (Definitions.key name))[n]? = some text :=
      ⟨_, List.getElem?_eq_getElem (by omega)⟩
    refine Or.inr ⟨_, text, ?_, find_newest hcurrent hn htext⟩
    rw [List.getLast?_eq_getElem?, hn, Nat.add_sub_cancel]
    exact htext

/-- Entering the value of a name that is met keeps to what names lead to. -/
theorem WellFormed.within (wf : scope.WellFormed chain) {name text : Text} {g : Generation}
    {hit : Bool} (hfind : scope.find chain name = .value g text hit)
    (href : ∀ older ∈ chain.head?, scope.RefersTo older.key (Definitions.key name)) :
    scope.WellFormed (g :: chain) ∧ scope.Within (g :: chain) text := by
  obtain ⟨hkey, htext, -⟩ := find_eq_value hfind
  refine ⟨wf.cons hfind fun older holder => hkey ▸ href older holder, ?_⟩
  intro older holder template hread r hr
  obtain rfl : g = older := Option.some.inj holder
  exact ⟨text, List.mem_of_getElem? htext, template, hread, r, hr, rfl⟩

/-! ## Depth -/

theorem piecesAccount_congr {inner inner' : Accounting} {template : Template}
    (h : ∀ r ∈ template.references, ∀ text, scope.definitions.lookup? r.name = some text →
      inner text = inner' text) (budget : Nat) :
    scope.piecesAccount inner budget template = scope.piecesAccount inner' budget template := by
  induction template generalizing budget with
  | nil => rfl
  | cons piece pieces ih =>
    have hhead : scope.pieceAccount inner piece = scope.pieceAccount inner' piece := by
      unfold pieceAccount
      cases he : piece.expr with
      | literal text => rfl
      | reference r =>
        have hr := h r (Template.mem_references.2 ⟨piece, List.mem_cons_self, he⟩)
        unfold referenceAccount
        dsimp only
        cases hlookup : scope.definitions.lookup? r.name with
        | none => rfl
        | some text => simp only [hr text hlookup]
    have htail : ∀ r ∈ Template.references pieces, ∀ text,
        scope.definitions.lookup? r.name = some text → inner text = inner' text := by
      intro r hr
      obtain ⟨p, hp, he⟩ := Template.mem_references.1 hr
      exact h r (Template.mem_references.2 ⟨p, List.mem_cons_of_mem _ hp, he⟩)
    simp only [piecesAccount, hhead, ih htail]

/-- Following references deeper than chains can be long changes nothing. -/
theorem accountUpTo_succ (hacyclic : scope.Acyclic) {depth : Nat} {text : Text}
    (wf : scope.WellFormed chain) (hwithin : scope.Within chain text)
    (hdepth : scope.definitions.total < depth + chain.length) :
    scope.accountUpTo depth text = scope.accountUpTo (depth + 1) text := by
  induction depth generalizing chain text with
  | zero =>
    have := wf.length_le_total
    omega
  | succ depth ih =>
    unfold accountUpTo textAccount
    cases hread : Template.read scope.dialect text with
    | error fault => rfl
    | ok template =>
      refine piecesAccount_congr (fun r hr value hvalue => ?_) limit
      have href : ∀ older ∈ chain.head?, scope.RefersTo older.key (Definitions.key r.name) :=
        fun older holder => hwithin older holder template hread r hr
      rcases find_of_current? scope (wf.current?_of_acyclic hacyclic href) with
        ⟨hnone, -⟩ | ⟨g, value', hsome, hfind⟩
      · cases hnone.symm.trans hvalue
      · obtain rfl := Option.some.inj (hsome.symm.trans hvalue)
        obtain ⟨wf', hwithin'⟩ := wf.within hfind href
        exact ih wf' hwithin' (by rw [List.length_cons]; omega)

/-- The account of a text is put together from the accounts of the values of its names. -/
theorem account_eq (hacyclic : scope.Acyclic) (text : Text) :
    scope.account text = scope.textAccount scope.account text :=
  accountUpTo_succ hacyclic (wellFormed_nil scope) (within_nil scope text) (Nat.lt_succ_self _)

/-! ## Memories that remember accounts -/

/--
A finished value is the newest one of some name and that of its account, and what the account notes
is noted or was told.
-/
def Remembers (scope : Scope) (told : List Diagnostic) (memory : Memory) : Prop :=
  ∀ g r, memory.known? g = some r → ∃ name text notes, scope.find [] name = .value g text false ∧
    scope.account text = .ok ⟨r, notes⟩ ∧ ∀ d ∈ notes, d ∈ memory.diagnostics ∨ d ∈ told

theorem remembers_empty (scope : Scope) (told : List Diagnostic) : scope.Remembers told .empty := by
  intro g r h
  cases h

/--
A memory follows another one by some notes: it holds no others, and what was not told before is as if
they were added in order.
-/
structure Follows (scope : Scope) (told : List Diagnostic) (memory : Memory)
    (notes : List Diagnostic) (memory' : Memory) : Prop where
  remembers : scope.Remembers told memory'
  noted : ∀ d ∈ memory'.diagnostics, d ∈ memory.diagnostics ∨ d ∈ notes
  untold : memory'.diagnostics.filter (· ∉ told) =
    (notes.foldl (fun ds d => d.add ds) memory.diagnostics).filter (· ∉ told)

namespace Follows

variable {told notes notes' : List Diagnostic} {memory memory' memory'' : Memory}

/-- What is added is there in the end, or was told before. -/
theorem mem_or_told (h : scope.Follows told memory notes memory') {d : Diagnostic}
    (hd : d ∈ memory.diagnostics ∨ d ∈ notes) : d ∈ memory'.diagnostics ∨ d ∈ told := by
  by_cases htold : d ∈ told
  · exact Or.inr htold
  · have hmem : d ∈ memory'.diagnostics.filter (· ∉ told) := by
      rw [h.untold]
      exact List.mem_filter.2 ⟨(Diagnostic.mem_foldl_add _ _).2 hd, decide_eq_true htold⟩
    exact Or.inl (List.mem_filter.1 hmem).1

/-- What is noted or was told already changes nothing. -/
theorem of_known (h : scope.Remembers told memory)
    (hnotes : ∀ d ∈ notes, d ∈ memory.diagnostics ∨ d ∈ told) :
    scope.Follows told memory notes memory := by
  refine ⟨h, fun d hd => Or.inl hd, ?_⟩
  rw [Diagnostic.filter_foldl_add_filter, Diagnostic.foldl_add_eq_self]
  intro d hd
  obtain ⟨hmem, huntold⟩ := List.mem_filter.1 hd
  exact List.mem_filter.2 ⟨(hnotes d hmem).resolve_right (of_decide_eq_true huntold), huntold⟩

theorem refl (h : scope.Remembers told memory) : scope.Follows told memory [] memory :=
  of_known h fun _ hd => absurd hd List.not_mem_nil

theorem of_report (h : scope.Remembers told memory) (d : Diagnostic) :
    scope.Follows told memory [d] (memory.report d) := by
  refine ⟨fun g r hknown => ?_, fun a ha => ?_, rfl⟩
  · obtain ⟨name, text, notes, hfind, haccount, hnotes⟩ := h g r hknown
    refine ⟨name, text, notes, hfind, haccount, fun a ha => ?_⟩
    exact (hnotes a ha).imp_left fun hmem => Diagnostic.mem_add.2 (Or.inl hmem)
  · exact (Diagnostic.mem_add.1 ha).imp_right fun he => List.mem_singleton.2 he

theorem trans (h : scope.Follows told memory notes memory')
    (h' : scope.Follows told memory' notes' memory'') :
    scope.Follows told memory (notes ++ notes') memory'' := by
  refine ⟨h'.remembers, fun d hd => ?_, ?_⟩
  · rcases h'.noted d hd with hd | hd
    · exact (h.noted d hd).imp_right (List.mem_append_left notes')
    · exact Or.inr (List.mem_append_right notes hd)
  · rw [h'.untold, Diagnostic.filter_foldl_add_filter, h.untold, List.foldl_append,
      Diagnostic.filter_foldl_add_filter _ notes']

theorem keep (h : scope.Follows told memory notes memory') {g : Generation} {r : Resolution}
    {name text : Text} (hfind : scope.find [] name = .value g text false)
    (haccount : scope.account text = .ok ⟨r, notes⟩) :
    scope.Follows told memory notes (memory'.keep g r) := by
  refine ⟨fun g' r' hknown => ?_, h.noted, h.untold⟩
  unfold Memory.known? Memory.keep at hknown
  rw [List.lookup_cons] at hknown
  split at hknown
  · next he =>
    obtain rfl := beq_iff_eq.1 he
    obtain rfl := Option.some.inj hknown
    exact ⟨name, text, notes, hfind, haccount, fun d hd => h.mem_or_told (Or.inr hd)⟩
  · exact h.remembers g' r' hknown

end Follows

/-- A run gives what an account says and notes it, or it stops where the account does. -/
def Recounts (scope : Scope) (told : List Diagnostic) (memory : Memory)
    (run : Except Fault (Outcome × Memory)) (account : Except Fault Account) : Prop :=
  match run with
  | .error fault => account = .error fault
  | .ok (outcome, memory') => ∃ notes, account = .ok ⟨outcome.resolution, notes⟩ ∧
      outcome.hits = [] ∧ scope.Follows told memory notes memory'

theorem Recounts.bind {told : List Diagnostic} {memory : Memory}
    {run : Except Fault (Outcome × Memory)} {account : Except Fault Account}
    (h : scope.Recounts told memory run account)
    {k : Outcome × Memory → Except Fault (Outcome × Memory)} {k' : Account → Except Fault Account}
    (hk : ∀ outcome memory' notes, account = .ok ⟨outcome.resolution, notes⟩ → outcome.hits = [] →
      scope.Follows told memory notes memory' →
      scope.Recounts told memory (k (outcome, memory')) (k' ⟨outcome.resolution, notes⟩)) :
    scope.Recounts told memory (run >>= k) (account >>= k') := by
  cases run with
  | error fault =>
    have haccount : account = .error fault := h
    rw [haccount]
    exact rfl
  | ok found =>
    obtain ⟨outcome, memory'⟩ := found
    obtain ⟨notes, haccount, hhits, hfollows⟩ := h
    have hrest := hk outcome memory' notes haccount hhits hfollows
    rw [haccount]
    exact hrest

/-! ## Expansions -/

/-- A name is not in progress under a chain, and entering it tells what its account says. -/
structure Admits (scope : Scope) (told : List Diagnostic) (descend : Descent) (chain : Chain)
    (name : Text) : Prop where
  current : chain.current? (Definitions.key name) = none
  enter : ∀ g text hit, scope.find chain name = .value g text hit → ∀ memory,
    scope.Remembers told memory →
      scope.Recounts told memory (descend (g :: chain) text memory) (scope.account text)

variable {told : List Diagnostic} {descend : Descent} {memory : Memory}

theorem missing_recounts (token : Text) (r : Reference) (h : scope.Remembers told memory) :
    scope.Recounts told memory (.ok (scope.missing token r memory))
      (.ok ⟨scope.absent token r, absentNotes r⟩) := by
  have hnone : ∀ text, scope.Recounts told memory (.ok (.literal text, memory))
      (.ok ⟨⟨text, false⟩, []⟩) := fun text =>
    ⟨[], rfl, rfl, .refl h⟩
  have hreport : ∀ text, scope.Recounts told memory
      (.ok (.literal text, memory.report (.unresolvedReference r.name)))
      (.ok ⟨⟨text, false⟩, [.unresolvedReference r.name]⟩) := fun text =>
    ⟨_, rfl, rfl, .of_report h _⟩
  unfold missing absent absentNotes
  cases r.modifier with
  | fallback text => exact hnone text
  | whole | slice _ _ | replace _ _ => exact hreport _

theorem resolveWith_recounts {r : Reference} (hadmits : scope.Admits told descend chain r.name)
    (token : Text) (h : scope.Remembers told memory) :
    scope.Recounts told memory (scope.resolveWith descend chain token r memory)
      (scope.referenceAccount scope.account token r) := by
  unfold resolveWith referenceAccount
  rcases find_of_current? scope hadmits.current with ⟨hlookup, hfind⟩ | ⟨g, text, hlookup, hfind⟩
  · rw [hfind, hlookup]
    exact missing_recounts token r h
  · obtain ⟨-, htext, -⟩ := find_eq_value hfind
    rw [hfind, hlookup]
    dsimp only
    cases hknown : memory.known? g with
    | some known =>
      obtain ⟨name, text', notes, hfind', haccount, hnotes⟩ := h g known hknown
      obtain rfl := Option.some.inj (htext.symm.trans (find_eq_value hfind').2.1)
      rw [haccount]
      exact ⟨notes, rfl, rfl, .of_known h hnotes⟩
    | none =>
      refine (hadmits.enter g text false hfind memory h).bind fun inner memory' notes haccount hhits
        hfollows => ⟨notes, rfl, hhits, ?_⟩
      -- nothing was met again, so the value is kept
      rw [hhits]
      exact hfollows.keep ((find_eq_find_nil hadmits.current).symm.trans hfind) haccount

theorem expandPieceWith_recounts {piece : Piece}
    (hadmits : ∀ r, piece.expr = .reference r → scope.Admits told descend chain r.name)
    (h : scope.Remembers told memory) :
    scope.Recounts told memory (scope.expandPieceWith descend chain piece memory)
      (scope.pieceAccount scope.account piece) := by
  unfold expandPieceWith pieceAccount
  cases he : piece.expr with
  | literal text => exact ⟨[], rfl, rfl, .refl h⟩
  | reference r => exact resolveWith_recounts (hadmits r he) _ h

theorem expandPiecesWith_recounts {template : Template}
    (hadmits : ∀ r ∈ template.references, scope.Admits told descend chain r.name) (budget : Nat)
    (h : scope.Remembers told memory) :
    scope.Recounts told memory (scope.expandPiecesWith descend chain budget template memory)
      (scope.piecesAccount scope.account budget template) := by
  induction template generalizing budget memory with
  | nil => exact ⟨[], rfl, rfl, .refl h⟩
  | cons piece pieces ih =>
    have hhead : ∀ r, piece.expr = .reference r → scope.Admits told descend chain r.name :=
      fun r he => hadmits r (Template.mem_references.2 ⟨piece, List.mem_cons_self, he⟩)
    have htail : ∀ r ∈ Template.references pieces, scope.Admits told descend chain r.name := by
      intro r hr
      obtain ⟨p, hp, he⟩ := Template.mem_references.1 hr
      exact hadmits r (Template.mem_references.2 ⟨p, List.mem_cons_of_mem _ hp, he⟩)
    unfold expandPiecesWith piecesAccount
    refine (expandPieceWith_recounts hhead h).bind fun head memory' notes _ hhits hfollows => ?_
    dsimp only
    split
    · exact ⟨notes, rfl, hhits, hfollows⟩
    · have hrest := ih htail (budget - Text.byteLength head.resolution.value) hfollows.remembers
      cases hrun : scope.expandPiecesWith descend chain (budget -
          Text.byteLength head.resolution.value) pieces memory' with
      | error fault =>
        rw [hrun] at hrest
        have haccount : scope.piecesAccount scope.account _ pieces = .error fault := hrest
        rw [haccount]
        exact rfl
      | ok found =>
        rw [hrun] at hrest
        obtain ⟨notes', haccount, hhits', hfollows'⟩ := hrest
        rw [haccount]
        refine ⟨notes ++ notes', rfl, ?_, hfollows.trans hfollows'⟩
        exact List.append_eq_nil_iff.2 ⟨hhits, hhits'⟩

/-- A definition that is entered tells what its account says, if the depth is enough. -/
theorem descend_recounts (hacyclic : scope.Acyclic) {depth : Nat} {text : Text}
    (wf : scope.WellFormed chain) (hwithin : scope.Within chain text)
    (hdepth : scope.definitions.total < depth + chain.length) (h : scope.Remembers told memory) :
    scope.Recounts told memory (scope.descend depth chain text memory) (scope.account text) := by
  induction depth generalizing chain text memory with
  | zero =>
    have := wf.length_le_total
    omega
  | succ depth ih =>
    rw [account_eq hacyclic]
    unfold descend textAccount
    cases hread : Template.read scope.dialect text with
    | error fault => exact rfl
    | ok template =>
      refine expandPiecesWith_recounts (fun r hr => ?_) limit h
      have href : ∀ older ∈ chain.head?, scope.RefersTo older.key (Definitions.key r.name) :=
        fun older holder => hwithin older holder template hread r hr
      refine ⟨wf.current?_of_acyclic hacyclic href, fun g value hit hfind memory' h' => ?_⟩
      obtain ⟨wf', hwithin'⟩ := wf.within hfind href
      exact ih wf' hwithin' (by rw [List.length_cons]; omega) h'

/-- Outside of any definition every name can be entered. -/
theorem admits_nil (hacyclic : scope.Acyclic) (told : List Diagnostic) (name : Text) :
    scope.Admits told (scope.descend scope.definitions.total) [] name := by
  refine ⟨rfl, fun g text hit hfind memory h => ?_⟩
  obtain ⟨wf, hwithin⟩ := (wellFormed_nil scope).within hfind fun older holder => by cases holder
  exact descend_recounts hacyclic wf hwithin (Nat.lt_succ_self _) h

end Scope

end Expansion

end Unmask
