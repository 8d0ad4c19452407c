import Unmask.Proofs.Lookups
import Unmask.Proofs.Tokens

/-!
# Alphabets

An expansion on a command line makes no characters of its own.  If the text, the definitions and the
finished values in the memory are written in some alphabet, so is the value: each modifier takes
characters away or puts text in that stood in the site.

    over_of_read    the pieces of a text are written in its alphabet
    expand_over     so is the value that it expands to
-/

namespace Unmask

/-! ## Texts -/

namespace Text

theorem trimEnd_isPrefix (s : Text) : trimEnd s <+: s := by
  have h := List.reverse_prefix.2 (List.dropWhile_suffix isSpace (l := s.reverse))
  rwa [List.reverse_reverse] at h

theorem mem_of_mem_trim {c : Char} {s : Text} (h : c ∈ trim s) : c ∈ s :=
  (List.dropWhile_suffix isSpace).mem ((trimEnd_isPrefix (trimStart s)).mem h)

/-- A text is written in an alphabet. -/
def Over (p : Char → Prop) (s : Text) : Prop :=
  ∀ c ∈ s, p c

variable {p : Char → Prop} {s t : Text}

theorem over_nil : Over p [] := fun _ hc => absurd hc List.not_mem_nil

theorem over_of_all {f : Char → Bool} (h : (s.all fun c => !f c) = true) : Over (f · = false) s :=
  fun c hc => by simpa using List.all_eq_true.1 h c hc

theorem isAlphanum_bounds {c : Char} (h : c.isAlphanum = true) :
    32 < c.toNat ∧ c.toNat < 127 := by
  have hclass : (c.isUpper || c.isLower || c.isDigit) = true := h
  rw [Bool.or_eq_true, Bool.or_eq_true] at hclass
  rcases hclass with (hupper | hlower) | hdigit
  · have hrange : 65 ≤ c.toNat ∧ c.toNat ≤ 90 := of_decide_eq_true hupper
    omega
  · have hrange : (decide (97 ≤ c.toNat) && decide (c.toNat ≤ 122)) = true := hlower
    rw [Bool.and_eq_true, decide_eq_true_iff, decide_eq_true_iff] at hrange
    omega
  · have hrange : (decide (48 ≤ c.toNat) && decide (c.toNat ≤ 57)) = true := hdigit
    rw [Bool.and_eq_true, decide_eq_true_iff, decide_eq_true_iff] at hrange
    omega

theorem Over.append (hs : Over p s) (ht : Over p t) : Over p (s ++ t) :=
  fun c hc => (List.mem_append.1 hc).elim (hs c) (ht c)

theorem Over.of_sublist (hs : Over p s) (h : t.Sublist s) : Over p t :=
  fun c hc => hs c (h.subset hc)

theorem Over.of_isSuffix (hs : Over p s) (h : t <:+ s) : Over p t :=
  hs.of_sublist h.sublist

theorem Over.of_isPrefix (hs : Over p s) (h : t <+: s) : Over p t :=
  hs.of_sublist h.sublist

theorem Over.trim (hs : Over p s) : Over p (Text.trim s) :=
  fun c hc => hs c (mem_of_mem_trim hc)

theorem Over.takeBytes (hs : Over p s) (budget : Nat) : Over p (Text.takeBytes budget s) :=
  hs.of_isPrefix (takeBytes_isPrefix budget s)

theorem Over.replaceAll (hs : Over p s) (ht : Over p t) (same : Char → Char → Bool)
    (pattern : Text) : Over p (Text.replaceAll same pattern t s) := by
  unfold Text.replaceAll
  generalize 0 = skip
  fun_induction replaceFrom same pattern t skip s with
  | case1 => exact over_nil
  | case2 skip c s ih => exact ih fun a ha => hs a (List.mem_cons_of_mem c ha)
  | case3 c s rest hmatch ih => exact ht.append (ih fun a ha => hs a (List.mem_cons_of_mem c ha))
  | case4 c s hmatch ih =>
    intro a ha
    rcases List.mem_cons.1 ha with rfl | ha
    · exact hs a List.mem_cons_self
    · exact ih (fun b hb => hs b (List.mem_cons_of_mem c hb)) a ha

theorem dropMatch?_isSuffix {same : Char → Char → Bool} {pattern s rest : Text}
    (h : dropMatch? same pattern s = some rest) : rest <:+ s := by
  induction pattern generalizing s with
  | nil =>
    cases h
    exact List.suffix_refl _
  | cons a pattern ih =>
    cases s with
    | nil => cases h
    | cons c s =>
      rw [dropMatch?] at h
      split at h
      · exact (ih h).trans (List.suffix_cons c s)
      · cases h

theorem afterFirst?_isSuffix {same : Char → Char → Bool} {pattern s rest : Text}
    (h : afterFirst? same pattern s = some rest) : rest <:+ s := by
  induction s with
  | nil => cases h
  | cons c s ih =>
    rw [afterFirst?] at h
    split at h
    · next hmatch =>
      cases h
      exact dropMatch?_isSuffix hmatch
    · exact (ih h).trans (List.suffix_cons c s)

/-- The text with another text in place of each `mark`. -/
def replaceMark (mark : Char) (text s : Text) : Text :=
  s.flatMap fun c => if c = mark then text else [c]

section

variable {mark : Char} {text : Text}

theorem replaceMark_mark (s : Text) :
    replaceMark mark text (mark :: s) = text ++ replaceMark mark text s := by
  rw [replaceMark, List.flatMap_cons, if_pos rfl]
  rfl

theorem replaceMark_cons {c : Char} (hc : c ≠ mark) (s : Text) :
    replaceMark mark text (c :: s) = c :: replaceMark mark text s := by
  rw [replaceMark, List.flatMap_cons, if_neg hc]
  rfl

theorem replaceMark_append (s t : Text) :
    replaceMark mark text (s ++ t) = replaceMark mark text s ++ replaceMark mark text t :=
  List.flatMap_append

theorem replaceMark_eq_self (hs : mark ∉ s) : replaceMark mark text s = s := by
  induction s with
  | nil => rfl
  | cons c s ih =>
    rw [List.mem_cons, not_or] at hs
    rw [replaceMark_cons (Ne.symm hs.1), ih hs.2]

theorem Over.replaceMark (hs : Over p s) (htext : Over p text) :
    Over p (Text.replaceMark mark text s) := by
  intro a ha
  obtain ⟨c, hc, ha⟩ := List.mem_flatMap.1 ha
  split at ha
  · exact htext a ha
  · exact List.mem_singleton.1 ha ▸ hs c hc

end

end Text

open Text (Over)

variable {p : Char → Prop}

/-! ## Templates -/

def Modifier.Over (p : Char → Prop) : Modifier → Prop
  | whole => True
  | slice _ _ => True
  | fallback text => Text.Over p text
  | replace _ replacement => Text.Over p replacement

/-- The token of a piece and the texts that it puts in are written in an alphabet. -/
structure Piece.Over (p : Char → Prop) (piece : Piece) : Prop where
  token : Text.Over p piece.token
  literal : ∀ text, piece.expr = .literal text → Text.Over p text
  modifier : ∀ r, piece.expr = .reference r → r.modifier.Over p

theorem Template.Fragment.over_of_readModifier {body : Text} {m : Modifier} (hbody : Over p body)
    (h : readModifier body = .ok m) : m.Over p := by
  cases m with
  | whole | slice _ _ => trivial
  | fallback text =>
    have htext : text = body.drop 1 := eq_drop_of_readModifier h
    exact htext ▸ hbody.of_isSuffix (List.drop_suffix 1 body)
  | replace search replacement =>
    unfold readModifier at h
    split at h
    · obtain ⟨start, -, h⟩ := bind_eq_ok.1 h
      split at h
      · cases start <;> cases h
      · obtain ⟨length, -, h⟩ := bind_eq_ok.1 h
        split at h <;> cases h
    · split at h
      · next c rest hdrop =>
        cases h
        have hrest : replacement <:+ body :=
          (List.suffix_cons c replacement).trans (hdrop ▸ List.dropWhile_suffix _)
        exact hbody.of_isSuffix hrest
      · cases h

/-- The pieces of a text on a command line are written in its alphabet. -/
theorem Template.over_of_read {d : Dialect} (hd : d ≠ .inf) {s : Text} (hs : Over p s)
    {t : Template} (h : read d s = .ok t) : ∀ piece ∈ t, piece.Over p := by
  intro piece hpiece
  have htoken : Over p piece.token := by
    intro c hc
    refine hs c ?_
    rw [← flatMap_token h]
    exact List.mem_flatMap.2 ⟨piece, hpiece, hc⟩
  refine ⟨htoken, fun text he => text_eq_token hd h hpiece he ▸ htoken, fun r he => ?_⟩
  obtain ⟨f, -, hread⟩ := exists_of_mapM_ok h hpiece
  cases f with
  | plain text | escape =>
    cases hread
    cases he
  | site mark name body =>
    cases body with
    | none =>
      cases hread
      cases he
      trivial
    | some body =>
      obtain ⟨modifier, hmodifier, hread⟩ := bind_eq_ok.1 hread
      cases hread
      cases he
      refine Fragment.over_of_readModifier (fun c hc => htoken c ?_) hmodifier
      simp only [Fragment.toText, List.cons_append, List.mem_cons, List.mem_append]
      exact .inr (.inl (.inr (.inr hc)))

/-! ## Expansions -/

/-- A modified value is written in the alphabet of the value and of what the modifier puts in. -/
theorem Modifier.Over.apply {m : Modifier} (hm : m.Over p) {r : Resolution} (hr : Text.Over p r.value) :
    Text.Over p (m.apply r).value := by
  unfold Modifier.apply
  cases m with
  | whole => exact hr
  | slice start length =>
    unfold Expansion.slice
    exact hr.of_sublist ((List.drop_sublist _ _).trans (List.take_sublist _ _))
  | fallback text =>
    dsimp only
    split
    · exact hm
    · exact hr
  | replace search replacement =>
    unfold Expansion.replace
    dsimp only
    split
    · exact hr
    · exact hr
    · split
      · next rest hafter => exact hm.append (hr.of_isSuffix (Text.afterFirst?_isSuffix hafter))
      · exact hr
    · exact hr.replaceAll hm _ _

def Definitions.Over (p : Char → Prop) (ds : Definitions) : Prop :=
  ∀ k, ∀ value ∈ ds.valuesOf k, Text.Over p value

namespace Expansion

def Memory.Over (p : Char → Prop) (memory : Memory) : Prop :=
  ∀ g r, memory.known? g = some r → Text.Over p r.value

theorem Memory.over_empty : Memory.empty.Over p := fun _ _ h => by cases h

theorem Memory.Over.keep {memory : Memory} (h : memory.Over p) (g : Generation) {r : Resolution}
    (hr : Text.Over p r.value) : (memory.keep g r).Over p := by
  intro g' r' hk
  unfold Memory.known? Memory.keep at hk
  rw [List.lookup_cons] at hk
  split at hk
  · cases hk
    exact hr
  · exact h g' r' hk

/-- A computation that has a result gives a value in an alphabet and leaves such a memory. -/
def Writes (p : Char → Prop) (run : Except Fault (Outcome × Memory)) : Prop :=
  ∀ outcome memory, run = .ok (outcome, memory) →
    Text.Over p outcome.resolution.value ∧ memory.Over p

namespace Scope

variable {scope : Scope} (hdefinitions : scope.definitions.Over p)

include hdefinitions

section

variable {descend : Descent} (hdescend : ∀ chain text memory, Text.Over p text → memory.Over p →
  Writes p (descend chain text memory))

include hdescend

theorem resolveWith_writes {chain : Chain} {token : Text} {r : Reference}
    (htoken : Text.Over p token) (hr : r.modifier.Over p) {memory : Memory} (hmemory : memory.Over p) :
    Writes p (scope.resolveWith descend chain token r memory) := by
  intro outcome memory' h
  unfold resolveWith at h
  split at h
  · have hmissing := Except.ok.inj h
    unfold missing at hmissing
    split at hmissing
    · next text hfallback =>
      cases hmissing
      rw [hfallback] at hr
      exact ⟨hr, hmemory⟩
    · cases hmissing
      refine ⟨?_, hmemory⟩
      unfold Outcome.literal
      dsimp only
      split
      · exact htoken
      · exact Text.over_nil
  · cases h
    exact ⟨hr.apply Text.over_nil, hmemory⟩
  · next g text hit hfind =>
    dsimp only at h
    split at h
    · next known hknown =>
      cases h
      exact ⟨hr.apply (hmemory g known hknown), hmemory⟩
    · obtain ⟨⟨inner, memory''⟩, hinner, h⟩ := bind_eq_ok.1 h
      cases h
      have htext := hdefinitions _ text (mem_of_find hfind)
      obtain ⟨hvalue, hmemory''⟩ := hdescend _ text memory htext hmemory _ _ hinner
      refine ⟨hr.apply hvalue, ?_⟩
      split
      · exact hmemory''.keep g hvalue
      · exact hmemory''

theorem expandPiecesWith_writes {chain : Chain} {template : Template}
    (htemplate : ∀ piece ∈ template, piece.Over p) (budget : Nat) {memory : Memory}
    (hmemory : memory.Over p) :
    Writes p (scope.expandPiecesWith descend chain budget template memory) := by
  induction template generalizing budget memory with
  | nil =>
    intro outcome memory' h
    cases h
    exact ⟨Text.over_nil, hmemory⟩
  | cons piece pieces ih =>
    have hpiece := htemplate piece List.mem_cons_self
    have hhead : Writes p (scope.expandPieceWith descend chain piece memory) := by
      unfold expandPieceWith
      split
      · next text he =>
        intro outcome memory' h
        cases h
        exact ⟨hpiece.literal text he, hmemory⟩
      · next r he =>
        exact resolveWith_writes hdefinitions hdescend hpiece.token (hpiece.modifier r he) hmemory
    intro outcome memory' h
    rw [expandPiecesWith] at h
    obtain ⟨⟨head, memory₁⟩, hrun, h⟩ := bind_eq_ok.1 h
    obtain ⟨hvalue, hmemory₁⟩ := hhead _ _ hrun
    dsimp only at h
    split at h
    · cases h
      exact ⟨hvalue.takeBytes budget, hmemory₁⟩
    · obtain ⟨⟨tail, memory₂⟩, htail, h⟩ := bind_eq_ok.1 h
      cases h
      obtain ⟨hrest, hmemory₂⟩ :=
        ih (fun piece hp => htemplate piece (List.mem_cons_of_mem _ hp)) _ hmemory₁ _ _ htail
      exact ⟨hvalue.append hrest, hmemory₂⟩

end

variable (hd : scope.dialect ≠ .inf)

include hd

theorem descend_writes (depth : Nat) (chain : Chain) (text : Text) (memory : Memory)
    (htext : Text.Over p text) (hmemory : memory.Over p) :
    Writes p (scope.descend depth chain text memory) := by
  induction depth generalizing chain text memory with
  | zero =>
    intro outcome memory' h
    cases h
    exact ⟨Text.over_nil, hmemory⟩
  | succ depth ih =>
    intro outcome memory' h
    rw [descend] at h
    obtain ⟨template, hread, h⟩ := bind_eq_ok.1 h
    exact expandPiecesWith_writes hdefinitions ih (Template.over_of_read hd htext hread) limit
      hmemory _ _ h

/-- The value of a text is written in the alphabet of the text and of the definitions. -/
theorem expand_over {text : Text} (htext : Text.Over p text) {memory memory' : Memory}
    (hmemory : memory.Over p) {r : Resolution} (h : scope.expand text memory = .ok (r, memory')) :
    Text.Over p r.value := by
  unfold expand expandTemplate at h
  obtain ⟨template, hread, h⟩ := bind_eq_ok.1 h
  obtain ⟨⟨outcome, memory''⟩, hrun, h⟩ := bind_eq_ok.1 h
  cases h
  exact (expandPiecesWith_writes hdefinitions (descend_writes hdefinitions hd _)
    (Template.over_of_read hd htext hread) limit hmemory _ _ hrun).1

end Scope

end Expansion

end Unmask
