import Mathlib.Data.List.Nodup
import Unmask.Proofs.SampleFiles

/-!
# Runs over samples

None of the files that are written changes a directory.  So a run writes what each of its samples
would write on the machine at the start, one after the other.  Samples whose names are read as the
same text write to the same places, and what the last of them writes is found there in the end.

    takeAll_eq             a run from its samples
    report_of_eq           the report on a sample of a run
    result_of_mem          what became of it
    history_congr          with the same reports the same becomes of all samples
    node?_argumentsPlace, node?_revealedPlace
                           what is found where a sample may write to
-/

namespace Unmask

namespace Samples

/-! ## What is taken down of a run -/

/-- A sample of a run: the report on it and what became of it. -/
structure Sample where
  name : FileName
  report : Except SampleError Text
  result : Except Fault (Except SampleError Path)

namespace Sample

def arguments (s : Sample) : Except SampleError Text :=
  s.report.bind (readReport s.name)

def fault? (s : Sample) : Option Fault :=
  match s.result with
  | .error fault => some fault
  | .ok _ => none

def target? (s : Sample) : Option Path :=
  match s.result with
  | .ok (.ok target) => some target
  | _ => none

/-- The path of a sample of `directory` that is skipped, and why it is. -/
def skip? (directory : Path) (s : Sample) : Option (Path × SampleError) :=
  match s.result with
  | .ok (.error e) => some (joinPath directory s.name, e)
  | _ => none

theorem skip?_eq_some_iff {directory path : Path} {s : Sample} {e : SampleError} :
    s.skip? directory = some (path, e) ↔
      path = joinPath directory s.name ∧ s.result = .ok (.error e) := by
  unfold skip?
  split
  · next e' hresult =>
    rw [hresult, Option.some.injEq, Prod.mk.injEq, Except.ok.injEq, Except.error.injEq]
    exact and_congr_left fun _ => eq_comm
  · next hresult => simpa using fun _ => hresult e

end Sample

/-- What a run without fault tells about its samples. -/
def report (directory : Path) (samples : List Sample) : Collection where
  written := samples.filterMap Sample.target?
  skipped := (samples.filterMap (Sample.skip? directory)).map Prod.fst
  warnings := (samples.filterMap (Sample.skip? directory)).map Prod.snd

/-- How a run over samples ends. -/
def verdict (directory : Path) (samples : List Sample) : Except Fault Collection :=
  match samples.findSome? Sample.fault? with
  | some fault => .error fault
  | none => .ok (report directory samples)

section
variable (source : Source (StateM World)) (settings : Settings) (directory output : Path)

def sampleAt (name : FileName) (w : World) : Sample where
  name
  report := (source (joinPath directory name) w).1
  result := (takeSample source settings directory output name w).1

/-- The samples that a run takes, up to the first one with a fault. -/
def historyFrom : List FileName → World → List Sample
  | [], _ => []
  | name :: names, w =>
    let s := sampleAt source settings directory output name w
    if s.result.isOk then
      s :: historyFrom names (takeSample source settings directory output name w).2
    else [s]

end

variable {source : Source (StateM World)} {settings : Settings} {directory output : Path}
  {name : FileName} {parent : Place} {w₀ w w' : World} {names : List FileName}

/-! ## All samples -/

section
variable (settings : Settings) (output : Path) (w : World)

def filesOf (samples : List Sample) : List (Place × Bytes) :=
  samples.flatMap fun s => (outcome settings output w s.name s.report).files

end

theorem verdict_cons_fault {s : Sample} {fault : Fault} (h : s.result = .error fault)
    (samples : List Sample) : verdict directory (s :: samples) = .error fault := by
  unfold verdict
  rw [List.findSome?_cons]
  simp only [Sample.fault?, h]

theorem verdict_cons_ok {s : Sample} {result : Except SampleError Path} (h : s.result = .ok result)
    (samples : List Sample) :
    verdict directory (s :: samples) = (verdict directory samples).map fun c =>
      { written := s.target?.toList ++ c.written
        skipped := (s.skip? directory).toList.map Prod.fst ++ c.skipped
        warnings := (s.skip? directory).toList.map Prod.snd ++ c.warnings } := by
  have hfault : s.fault? = none := by
    unfold Sample.fault?
    rw [h]
  unfold verdict report
  rw [List.findSome?_cons, hfault]
  cases samples.findSome? Sample.fault? with
  | some fault => rfl
  | none =>
    cases result with
    | ok target => simp [Sample.target?, Sample.skip?, h, Except.map]
    | error e => simp [Sample.target?, Sample.skip?, h, Except.map]

theorem verdict_eq_ok_iff {samples : List Sample} {c : Collection} :
    verdict directory samples = .ok c ↔
      (∀ s ∈ samples, s.fault? = none) ∧ report directory samples = c := by
  unfold verdict
  rw [← List.findSome?_eq_none_iff]
  cases samples.findSome? Sample.fault? with
  | some fault => simp
  | none => simp

/-- Taking a sample, seen from a machine with the same directories. -/
theorem takeSample_sampleAt (hsource : ReadsOnly source) (hready : Ready output parent w₀)
    (hkeeps : w₀.Keeps w) (hname : slash ∉ name) {s : Sample}
    (hs : sampleAt source settings directory output name w = s) :
    s.name = name ∧ s.result = (outcome settings output w₀ s.name s.report).result ∧
      takeSample source settings directory output name w =
        (s.result, w.putFiles (outcome settings output w₀ s.name s.report).files) := by
  subst hs
  have hstep : takeSample source settings directory output name w = _ :=
    takeSample_eq hsource (hready.keeps hkeeps) hname
  rw [outcome_congr hready hkeeps hname] at hstep
  refine ⟨rfl, congrArg Prod.fst hstep, Prod.ext rfl ?_⟩
  exact (congrArg Prod.snd hstep :)

theorem keeps_putFiles (hready : Ready output parent w₀) (hkeeps : w₀.Keeps w) (hname : slash ∉ name)
    (settings : Settings) (report : Except SampleError Text) :
    w₀.Keeps (w.putFiles (outcome settings output w₀ name report).files) := by
  refine hkeeps.trans (.putFiles fun file hfile hdirectory => ?_)
  have hnot := ((course hready hname report).place_of_mem hfile).2
  exact hnot ((hkeeps.directory_iff _).1 hdirectory)

section
variable {s : Sample} (hs : sampleAt source settings directory output name w = s)
include hs

theorem historyFrom_fault {fault : Fault} (hresult : s.result = .error fault) :
    historyFrom source settings directory output (name :: names) w = [s] := by
  rw [historyFrom]
  rw [hs, hresult]
  exact if_neg Bool.false_ne_true

theorem historyFrom_ok {result : Except SampleError Path} (hresult : s.result = .ok result) :
    historyFrom source settings directory output (name :: names) w =
      s :: historyFrom source settings directory output names
        (takeSample source settings directory output name w).2 := by
  rw [historyFrom]
  rw [hs, hresult]
  exact if_pos rfl

end

theorem takeAll_fault {fault : Fault}
    (h : takeSample source settings directory output name w = (.error fault, w')) :
    takeAll source settings directory output (name :: names) w = (.error fault, w') := by
  unfold takeAll
  rw [World.bind_eq h]
  rfl

theorem takeAll_ok {s : Sample} {result : Except SampleError Path} (hresult : s.result = .ok result)
    (h : takeSample source settings directory output s.name w = (.ok result, w'))
    {history : List Sample} {w'' : World}
    (hrest : takeAll source settings directory output names w' = (verdict directory history, w'')) :
    takeAll source settings directory output (s.name :: names) w =
      (verdict directory (s :: history), w'') := by
  unfold takeAll
  rw [World.bind_eq h]
  dsimp only
  rw [World.bind_eq hrest, verdict_cons_ok hresult]
  cases verdict directory history with
  | error fault => rfl
  | ok c =>
    unfold Sample.target? Sample.skip?
    rw [hresult]
    cases result with
    | ok target => rfl
    | error e => rfl

/--
A run ends as its samples tell, and writes what each of them would write on the machine at the
start.
-/
theorem takeAll_eq (hsource : ReadsOnly source) (hready : Ready output parent w₀)
    (hnames : ∀ name ∈ names, slash ∉ name) (hkeeps : w₀.Keeps w) :
    takeAll source settings directory output names w =
      (verdict directory (historyFrom source settings directory output names w),
        w.putFiles
          (filesOf settings output w₀ (historyFrom source settings directory output names w))) := by
  induction names generalizing w with
  | nil => rfl
  | cons name names ih =>
    have hname := hnames name List.mem_cons_self
    obtain ⟨s, hs⟩ : ∃ s, sampleAt source settings directory output name w = s := ⟨_, rfl⟩
    obtain ⟨rfl, -, htake⟩ := takeSample_sampleAt hsource hready hkeeps hname hs
    cases hresult : s.result with
    | error fault =>
      rw [hresult] at htake
      rw [historyFrom_fault hs hresult, takeAll_fault htake, verdict_cons_fault hresult]
      unfold filesOf
      rw [List.flatMap_singleton]
    | ok result =>
      have hrest := ih (fun name hmem => hnames name (List.mem_cons_of_mem _ hmem))
        (keeps_putFiles hready hkeeps hname settings s.report)
      rw [historyFrom_ok hs hresult, htake]
      rw [hresult] at htake
      unfold filesOf at hrest ⊢
      rw [takeAll_ok hresult htake hrest, List.flatMap_cons, World.putFiles_append]

/-! ## The samples of a run -/

/-- A run takes the samples in order, and all of them if there is no fault. -/
theorem names_isPrefix (names : List FileName) (w : World) :
    (historyFrom source settings directory output names w).map Sample.name <+: names := by
  induction names generalizing w with
  | nil => exact List.nil_prefix
  | cons name names ih =>
    obtain ⟨s, hs⟩ : ∃ s, sampleAt source settings directory output name w = s := ⟨_, rfl⟩
    have hname : s.name = name := by rw [← hs, sampleAt]
    cases hresult : s.result with
    | error fault =>
      rw [historyFrom_fault hs hresult, List.map_singleton, hname]
      exact List.prefix_append [name] names
    | ok result =>
      rw [historyFrom_ok hs hresult, List.map_cons, hname]
      exact List.cons_prefix_cons.2 ⟨rfl, ih _⟩

theorem names_eq (h : ∀ s ∈ historyFrom source settings directory output names w, s.fault? = none) :
    (historyFrom source settings directory output names w).map Sample.name = names := by
  induction names generalizing w with
  | nil => rfl
  | cons name names ih =>
    obtain ⟨s, hs⟩ : ∃ s, sampleAt source settings directory output name w = s := ⟨_, rfl⟩
    have hname : s.name = name := by rw [← hs, sampleAt]
    cases hresult : s.result with
    | error fault =>
      rw [historyFrom_fault hs hresult] at h
      have hnone := h s (List.mem_singleton_self s)
      simp [Sample.fault?, hresult] at hnone
    | ok result =>
      rw [historyFrom_ok hs hresult] at h ⊢
      rw [List.map_cons, hname, ih fun s hmem => h s (List.mem_cons_of_mem _ hmem)]

theorem name_mem {s : Sample} (h : s ∈ historyFrom source settings directory output names w) :
    s.name ∈ names :=
  (names_isPrefix names w).subset (List.mem_map_of_mem h)

/-- A run goes on with the other samples where the first one leaves the machine. -/
theorem snd_takeAll_cons {result : Except SampleError Path}
    (h : takeSample source settings directory output name w = (.ok result, w')) :
    (takeAll source settings directory output (name :: names) w).2 =
      (takeAll source settings directory output names w').2 := by
  rw [takeAll]
  rw [World.bind_eq h]
  dsimp only
  obtain ⟨ending, v, hrest⟩ : ∃ ending v,
      takeAll source settings directory output names w' = (ending, v) := ⟨_, _, rfl⟩
  rw [World.bind_eq hrest, hrest]
  cases ending with
  | error fault => rfl
  | ok c => cases result <;> rfl

/--
The report on a sample is the one that the source gives when its turn comes, on the machine behind
the samples before it.
-/
theorem report_of_eq {before behind : List Sample} {s : Sample}
    (h : historyFrom source settings directory output names w = before ++ s :: behind) :
    s.report = (source (joinPath directory s.name)
      (takeAll source settings directory output (before.map Sample.name) w).2).1 := by
  induction names generalizing w before with
  | nil => exact absurd h.symm (List.append_ne_nil_of_right_ne_nil _ (List.cons_ne_nil _ _))
  | cons name names ih =>
    obtain ⟨t, ht⟩ : ∃ t, sampleAt source settings directory output name w = t := ⟨_, rfl⟩
    have hname : t.name = name := by rw [← ht, sampleAt]
    cases before with
    | nil =>
      have hfirst : t = s := by
        cases hcase : t.result with
        | error fault =>
          rw [historyFrom_fault ht hcase] at h
          exact (List.cons.inj h).1
        | ok result =>
          rw [historyFrom_ok ht hcase] at h
          exact (List.cons.inj h).1
      subst hfirst
      rw [← ht, sampleAt]
      rfl
    | cons u before =>
      cases hcase : t.result with
      | error fault =>
        rw [historyFrom_fault ht hcase] at h
        have hnil := (List.cons.inj h).2
        exact absurd hnil.symm (List.append_ne_nil_of_right_ne_nil _ (List.cons_ne_nil _ _))
      | ok result =>
        rw [historyFrom_ok ht hcase] at h
        obtain ⟨rfl, hrest⟩ := List.cons.inj h
        have htake : takeSample source settings directory output name w =
            (.ok result, (takeSample source settings directory output name w).2) := by
          refine Prod.ext ?_ rfl
          rw [← hcase, ← ht, sampleAt]
        rw [List.map_cons, hname, snd_takeAll_cons htake]
        exact ih hrest

/-- What became of a sample is what comes of it on the machine at the start. -/
theorem result_of_mem (hsource : ReadsOnly source) (hready : Ready output parent w₀)
    (hnames : ∀ name ∈ names, slash ∉ name) (hkeeps : w₀.Keeps w) {s : Sample}
    (h : s ∈ historyFrom source settings directory output names w) :
    s.result = (outcome settings output w₀ s.name s.report).result := by
  induction names generalizing w with
  | nil => cases h
  | cons name names ih =>
    have hname := hnames name List.mem_cons_self
    obtain ⟨t, ht⟩ : ∃ t, sampleAt source settings directory output name w = t := ⟨_, rfl⟩
    obtain ⟨rfl, hresult, htake⟩ := takeSample_sampleAt hsource hready hkeeps hname ht
    cases hcase : t.result with
    | error fault =>
      rw [historyFrom_fault ht hcase] at h
      rw [List.mem_singleton.1 h]
      exact hresult
    | ok result =>
      rw [historyFrom_ok ht hcase, htake] at h
      rcases List.mem_cons.1 h with rfl | hmem
      · exact hresult
      · exact ih (fun name hmem => hnames name (List.mem_cons_of_mem _ hmem))
          (keeps_putFiles hready hkeeps hname _ t.report) hmem

/-- The samples of the second run are reported on as in the first run. -/
def SameReports (first second : List Sample) : Prop :=
  ∀ s ∈ first, ∀ t ∈ second, t.name = s.name → t.report = s.report

/-- With the same reports the same becomes of the samples. -/
theorem history_congr (hsource : ReadsOnly source) (hready : Ready output parent w₀)
    (hnames : ∀ name ∈ names, slash ∉ name) (hkeeps : w₀.Keeps w) (hkeeps' : w₀.Keeps w')
    (hreports : SameReports (historyFrom source settings directory output names w)
      (historyFrom source settings directory output names w')) :
    historyFrom source settings directory output names w' =
      historyFrom source settings directory output names w := by
  induction names generalizing w w' with
  | nil => rfl
  | cons name names ih =>
    have hname := hnames name List.mem_cons_self
    obtain ⟨s, hs⟩ : ∃ s, sampleAt source settings directory output name w = s := ⟨_, rfl⟩
    obtain ⟨t, ht⟩ : ∃ t, sampleAt source settings directory output name w' = t := ⟨_, rfl⟩
    obtain ⟨hsname, hsresult, hstake⟩ := takeSample_sampleAt hsource hready hkeeps hname hs
    obtain ⟨htname, htresult, httake⟩ := takeSample_sampleAt hsource hready hkeeps' hname ht
    -- both runs take this sample first
    have hhead : ∀ v u, sampleAt source settings directory output name v = u →
        u ∈ historyFrom source settings directory output (name :: names) v := by
      intro v u hu
      cases hresult : u.result with
      | error fault => simp [historyFrom_fault hu hresult]
      | ok result => simp [historyFrom_ok hu hresult]
    have hreport : t.report = s.report :=
      hreports s (hhead w s hs) t (hhead w' t ht) (htname.trans hsname.symm)
    obtain rfl : t = s := by
      have hresult : t.result = s.result := by
        rw [htresult, hsresult, hreport, htname, hsname]
      cases s
      cases t
      simp_all
    cases hresult : t.result with
    | error fault => rw [historyFrom_fault ht hresult, historyFrom_fault hs hresult]
    | ok result =>
      rw [historyFrom_ok ht hresult, historyFrom_ok hs hresult, hstake, httake] at hreports ⊢
      rw [ih (fun name hmem => hnames name (List.mem_cons_of_mem _ hmem))
        (keeps_putFiles hready hkeeps (hsname ▸ hname) _ t.report)
        (keeps_putFiles hready hkeeps' (hsname ▸ hname) _ t.report)
        fun s hmem t hmem' =>
          hreports s (List.mem_cons_of_mem _ hmem) t (List.mem_cons_of_mem _ hmem')]

/-! ## The files of a run -/

/-- The arguments of the samples that have the same files as `name`, in order. -/
def argumentsFor (samples : List Sample) (name : FileName) : List Text :=
  samples.filterMap fun s =>
    if nameText s.name = nameText name then s.arguments.toOption else none

/-- Where something comes of each, what comes of the last is the last of what comes. -/
theorem getLast?_filterMap {α β : Type} {f : α → Option β} {l : List α}
    (h : ∀ a ∈ l, (f a).isSome = true) : (l.filterMap f).getLast? = l.getLast?.bind f := by
  rcases List.eq_nil_or_concat' l with rfl | ⟨before, a, rfl⟩
  · rfl
  · obtain ⟨b, hb⟩ := Option.isSome_iff_exists.1 (h a (List.mem_append_right _ List.mem_cons_self))
    rw [List.filterMap_append, List.filterMap_cons_some hb, List.filterMap_nil, List.getLast?_concat,
      List.getLast?_concat, Option.bind_some, hb]

/-- The arguments of the last of them. -/
def lastArguments? (samples : List Sample) (name : FileName) : Option Text :=
  (argumentsFor samples name).getLast?

theorem mem_argumentsFor {samples : List Sample} {s : Sample} {arguments : Text} (hs : s ∈ samples)
    (h : s.arguments = .ok arguments) : arguments ∈ argumentsFor samples s.name := by
  refine List.mem_filterMap.2 ⟨s, hs, ?_⟩
  rw [if_pos rfl, h]
  rfl

theorem exists_lastArguments {samples : List Sample} {s : Sample} {arguments : Text}
    (hs : s ∈ samples) (h : s.arguments = .ok arguments) :
    ∃ last, lastArguments? samples s.name = some last :=
  ⟨_, List.getLast?_eq_some_getLast (List.ne_nil_of_mem (mem_argumentsFor hs h))⟩

/-- A sample whose name is read as no other one is the last one with its files. -/
theorem lastArguments?_of_alone {samples : List Sample} {s : Sample}
    (nodup : (samples.map Sample.name).Nodup) (hs : s ∈ samples)
    (halone : ∀ t ∈ samples, nameText t.name = nameText s.name → t.name = s.name) :
    lastArguments? samples s.name = s.arguments.toOption := by
  obtain ⟨before, behind, rfl⟩ := List.append_of_mem hs
  rw [List.map_append, List.map_cons, List.nodup_middle, List.nodup_cons, ← List.map_append] at nodup
  have hother : ∀ t ∈ before ++ behind, nameText t.name ≠ nameText s.name := by
    intro t ht heq
    have hmem : t ∈ before ++ s :: behind := by
      rcases List.mem_append.1 ht with ht | ht
      · exact List.mem_append_left _ ht
      · exact List.mem_append_right _ (List.mem_cons_of_mem _ ht)
    exact nodup.1 (halone t hmem heq ▸ List.mem_map_of_mem ht)
  have hnil (samples : List Sample) (h : ∀ t ∈ samples, nameText t.name ≠ nameText s.name) :
      argumentsFor samples s.name = [] :=
    List.filterMap_eq_nil_iff.2 fun t ht => if_neg (h t ht)
  have hsingle : argumentsFor (before ++ s :: behind) s.name = s.arguments.toOption.toList := by
    unfold argumentsFor at hnil ⊢
    rw [List.filterMap_append, List.filterMap_cons, if_pos rfl,
      hnil before fun t ht => hother t (List.mem_append_left _ ht),
      hnil behind fun t ht => hother t (List.mem_append_right _ ht)]
    cases s.arguments <;> rfl
  rw [lastArguments?, hsingle]
  cases s.arguments <;> rfl

section
variable {history : List Sample} (hready : Ready output parent w₀)
  (hnames : ∀ s ∈ history, slash ∉ s.name)
include hready hnames

theorem exists_of_mem_filesOf {file : Place × Bytes}
    (h : file ∈ filesOf settings output w₀ history) :
    ∃ s ∈ history, file ∈ (outcome settings output w₀ s.name s.report).files ∧
      IsPlaceOf parent s.name file.1 ∧ w₀.tree.node? file.1 ≠ some .directory := by
  obtain ⟨s, hs, hmem⟩ := List.mem_flatMap.1 h
  exact ⟨s, hs, hmem, (course hready (hnames s hs) s.report).place_of_mem hmem⟩

theorem keeps_filesOf : w₀.Keeps (w₀.putFiles (filesOf settings output w₀ history)) := by
  refine .putFiles fun file hfile => ?_
  obtain ⟨s, -, -, -, hnode⟩ := exists_of_mem_filesOf hready hnames hfile
  exact hnode

/-- What is written to a place of some samples, from the arguments of these samples. -/
theorem writtenTo_filesOf {place : Place} (hplace : IsPlaceOf parent name place)
    (written : Text → Option Bytes)
    (hown : ∀ s ∈ history, nameText s.name = nameText name →
      World.writtenTo place (outcome settings output w₀ s.name s.report).files =
        (s.arguments.toOption.bind written).toList) :
    World.writtenTo place (filesOf settings output w₀ history) =
      (argumentsFor history name).filterMap written := by
  unfold filesOf argumentsFor
  rw [World.writtenTo_flatMap, List.filterMap_filterMap, List.filterMap_eq_flatMap_toList]
  refine List.flatMap_congr fun s hs => ?_
  by_cases hname : nameText s.name = nameText name
  · rw [hown s hs hname, if_pos hname]
  · rw [if_neg hname]
    exact (course hready (hnames s hs) s.report).writtenTo_eq_nil hname hplace

/-- Below the places of samples nothing is written. -/
theorem node?_below {place p : Place} (hplace : IsPlaceOf parent name place) (hp : place <+: p)
    (hne : p ≠ place) :
    (w₀.putFiles (filesOf settings output w₀ history)).tree.node? p = w₀.tree.node? p := by
  have hnil : p ≠ [] := fun h => hplace.ne_nil (List.prefix_nil.1 (h ▸ hp))
  have hwritten : World.writtenTo p (filesOf settings output w₀ history) = [] := by
    refine World.writtenTo_eq_nil_iff.2 fun file hfile heq => ?_
    -- all places of samples are equally long
    obtain ⟨s, -, -, hother, -⟩ := exists_of_mem_filesOf hready hnames hfile
    refine hne (hp.eq_of_length ?_).symm
    rw [hplace.length_eq, ← heq, hother.length_eq]
  rw [World.node?_putFiles hnil, hwritten]
  rfl

/-- Where nothing is written for any arguments, all is as it was. -/
theorem node?_of_unwritten {place : Place} (hplace : IsPlaceOf parent name place)
    (hown : ∀ s ∈ history, nameText s.name = nameText name →
      World.writtenTo place (outcome settings output w₀ s.name s.report).files = []) :
    (w₀.putFiles (filesOf settings output w₀ history)).tree.node? place = w₀.tree.node? place := by
  have hwritten := writtenTo_filesOf hready hnames hplace (fun _ => none) fun s hs hname => by
    rw [hown s hs hname]
    cases s.arguments.toOption <;> rfl
  rw [World.node?_putFiles hplace.ne_nil, hwritten, List.filterMap_none]
  rfl

/-- Where something is written for the last arguments, it is found in the end. -/
theorem node?_of_written {place : Place} (hplace : IsPlaceOf parent name place)
    {written : Text → Option Bytes}
    (hown : ∀ s ∈ history, nameText s.name = nameText name →
      World.writtenTo place (outcome settings output w₀ s.name s.report).files =
        (s.arguments.toOption.bind written).toList)
    (hlast : ∀ arguments ∈ argumentsFor history name, (written arguments).isSome = true) :
    (w₀.putFiles (filesOf settings output w₀ history)).tree.node? place =
      (((lastArguments? history name).bind written).map .file).or (w₀.tree.node? place) := by
  rw [World.node?_putFiles hplace.ne_nil, writtenTo_filesOf hready hnames hplace written hown,
    lastArguments?, getLast?_filterMap hlast]

section
variable (hfirst : w₀.fileAt (argumentsPath output name) = .ok (argumentsPlace parent name))
include hfirst

theorem node?_argumentsPlace :
    (w₀.putFiles (filesOf settings output w₀ history)).tree.node? (argumentsPlace parent name) =
      ((lastArguments? history name).map fun arguments =>
        .file (Encoding.Utf8.encode arguments)).or (w₀.tree.node? (argumentsPlace parent name)) := by
  have hown : ∀ s ∈ history, nameText s.name = nameText name →
      World.writtenTo (argumentsPlace parent name)
          (outcome settings output w₀ s.name s.report).files =
        (s.arguments.toOption.bind fun arguments => some (Encoding.Utf8.encode arguments)).toList := by
    intro s hs hname
    rw [← argumentsPlace_eq_iff.2 hname, ← argumentsPath_congr hname] at hfirst
    rw [← argumentsPlace_eq_iff.2 hname,
      (course hready (hnames s hs) s.report).writtenTo_argumentsPlace, if_pos hfirst,
      Option.map_eq_bind]
    rfl
  rw [node?_of_written hready hnames (Or.inl rfl) hown fun _ _ => rfl]
  cases lastArguments? history name <;> rfl

/-- It is revealed what arguments do that are written by a run without fault. -/
theorem exists_revealed_of_mem {arguments : Text}
    (hresults : ∀ s ∈ history, ∃ result,
      (outcome settings output w₀ s.name s.report).result = .ok result)
    (h : arguments ∈ argumentsFor history name) :
    ∃ revealed, Script.reveal settings arguments = .ok revealed := by
  obtain ⟨s, hs, hmem⟩ := List.mem_filterMap.1 h
  split at hmem
  · next hname =>
    rw [← argumentsPlace_eq_iff.2 hname, ← argumentsPath_congr hname] at hfirst
    obtain ⟨result, hresult⟩ := hresults s hs
    refine (course hready (hnames s hs) s.report).exists_revealed hresult ?_ hfirst
    cases harguments : s.arguments with
    | error e =>
      rw [harguments] at hmem
      cases hmem
    | ok own =>
      rw [harguments] at hmem
      cases hmem
      exact harguments
  · cases hmem

theorem node?_revealedPlace
    (hsecond : w₀.fileAt (revealedPath output name) = .ok (revealedPlace parent name))
    (hresults : ∀ s ∈ history, ∃ result,
      (outcome settings output w₀ s.name s.report).result = .ok result) :
    (w₀.putFiles (filesOf settings output w₀ history)).tree.node? (revealedPlace parent name) =
      (((lastArguments? history name).bind (revealedBytes? settings)).map .file).or
        (w₀.tree.node? (revealedPlace parent name)) := by
  refine node?_of_written hready hnames (Or.inr rfl) (fun s hs hname => ?_) fun arguments h => ?_
  · rw [← argumentsPlace_eq_iff.2 hname, ← argumentsPath_congr hname] at hfirst
    rw [← revealedPlace_eq_iff.2 hname, ← revealedPath_congr hname] at hsecond
    rw [← revealedPlace_eq_iff.2 hname,
      (course hready (hnames s hs) s.report).writtenTo_revealedPlace, if_pos ⟨hfirst, hsecond⟩]
    rfl
  · obtain ⟨revealed, hreveal⟩ := exists_revealed_of_mem hready hnames hfirst hresults h
    rw [revealedBytes?_of_ok hreveal]
    rfl

end

theorem node?_argumentsPlace_of_refused
    (hfirst : w₀.fileAt (argumentsPath output name) ≠ .ok (argumentsPlace parent name)) :
    (w₀.putFiles (filesOf settings output w₀ history)).tree.node? (argumentsPlace parent name) =
      w₀.tree.node? (argumentsPlace parent name) := by
  refine node?_of_unwritten hready hnames (Or.inl rfl) fun s hs hname => ?_
  rw [← argumentsPlace_eq_iff.2 hname, ← argumentsPath_congr hname] at hfirst
  rw [← argumentsPlace_eq_iff.2 hname,
    (course hready (hnames s hs) s.report).writtenTo_argumentsPlace, if_neg hfirst]

theorem node?_revealedPlace_of_refused
    (h : ¬(w₀.fileAt (argumentsPath output name) = .ok (argumentsPlace parent name) ∧
      w₀.fileAt (revealedPath output name) = .ok (revealedPlace parent name))) :
    (w₀.putFiles (filesOf settings output w₀ history)).tree.node? (revealedPlace parent name) =
      w₀.tree.node? (revealedPlace parent name) := by
  refine node?_of_unwritten hready hnames (Or.inr rfl) fun s hs hname => ?_
  rw [← argumentsPlace_eq_iff.2 hname, ← argumentsPath_congr hname, ← revealedPlace_eq_iff.2 hname,
    ← revealedPath_congr hname] at h
  rw [← revealedPlace_eq_iff.2 hname,
    (course hready (hnames s hs) s.report).writtenTo_revealedPlace, if_neg h]

end

end Samples

end Unmask
