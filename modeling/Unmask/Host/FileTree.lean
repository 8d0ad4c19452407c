import Unmask.Host.Basic

/-!
# File trees

A modelled machine: a tree of files and directories, a current directory, and the standard
input.

Main statements: a file that was written is read back, and writing changes no other place
(`node?_put_self`, `node?_put_of_ne`).

## Algorithm

A path is followed name by name.  An empty name and `.` stay where they are, which has to be a
directory; `..` goes up, and stays at the root.
-/

namespace Unmask

/-- What is found at a place. -/
inductive Node where
  | directory
  | file (content : Bytes)
deriving DecidableEq, Repr

/-- The files and directories of a machine below the root, one for each place. -/
@[ext]
structure FileTree where
  nodes : List (Place × Node)
  nodup : (nodes.map Prod.fst).Nodup
deriving DecidableEq, Repr

namespace FileTree

/-! ## Nodes -/

/-- Puts a node at a place of a list, instead of what is found there. -/
def putNode (place : Place) (node : Node) : List (Place × Node) → List (Place × Node)
  | [] => [(place, node)]
  | (p, n) :: rest => if p = place then (place, node) :: rest else (p, n) :: putNode place node rest

theorem mem_places_putNode {place p : Place} {node : Node} {nodes : List (Place × Node)} :
    p ∈ (putNode place node nodes).map Prod.fst ↔ p = place ∨ p ∈ nodes.map Prod.fst := by
  induction nodes with
  | nil => simp [putNode]
  | cons entry rest ih =>
    obtain ⟨q, n⟩ := entry
    by_cases h : q = place
    · simp only [putNode, List.map_cons, List.mem_cons, h]
      grind
    · simp only [putNode, if_neg h, List.map_cons, List.mem_cons, ih]
      grind

theorem places_putNode_nodup {nodes : List (Place × Node)} (place : Place) (node : Node)
    (nodup : (nodes.map Prod.fst).Nodup) : ((putNode place node nodes).map Prod.fst).Nodup := by
  induction nodes with
  | nil => simp [putNode]
  | cons entry rest ih =>
    obtain ⟨q, n⟩ := entry
    rw [List.map_cons, List.nodup_cons] at nodup
    by_cases h : q = place
    · rw [putNode, if_pos h, List.map_cons, List.nodup_cons]
      exact h ▸ nodup
    · rw [putNode, if_neg h, List.map_cons, List.nodup_cons]
      refine ⟨fun hmem => ?_, ih nodup.2⟩
      rcases mem_places_putNode.1 hmem with heq | hin
      · exact h heq
      · exact nodup.1 hin

theorem lookup_putNode_self (place : Place) (node : Node) (nodes : List (Place × Node)) :
    (putNode place node nodes).lookup place = some node := by
  induction nodes with
  | nil => simp [putNode]
  | cons entry rest ih =>
    obtain ⟨p, n⟩ := entry
    by_cases h : p = place
    · simp [putNode, h]
    · have hne : (place == p) = false := by simpa using fun heq => h heq.symm
      simp [putNode, h, List.lookup_cons, hne, ih]

theorem lookup_putNode_of_ne {place other : Place} (node : Node) (nodes : List (Place × Node))
    (hne : other ≠ place) : (putNode place node nodes).lookup other = nodes.lookup other := by
  have hbeq : (other == place) = false := by simpa using hne
  induction nodes with
  | nil => simp [putNode, List.lookup_cons, hbeq]
  | cons entry rest ih =>
    obtain ⟨p, n⟩ := entry
    by_cases h : p = place
    · simp [putNode, h, List.lookup_cons, hbeq]
    · simp only [putNode, h, if_false, List.lookup_cons, ih]

def empty : FileTree :=
  ⟨[], List.nodup_nil⟩

/-- What is found at a place.  The root is a directory. -/
def node? (tree : FileTree) (place : Place) : Option Node :=
  if place.isEmpty then some .directory else tree.nodes.lookup place

def put (place : Place) (node : Node) (tree : FileTree) : FileTree :=
  ⟨putNode place node tree.nodes, places_putNode_nodup place node tree.nodup⟩

theorem node?_put_self {place : Place} (node : Node) (tree : FileTree) (h : place ≠ []) :
    (tree.put place node).node? place = some node := by
  simp [node?, put, h, lookup_putNode_self]

theorem node?_put_of_ne {place other : Place} (node : Node) (tree : FileTree)
    (hne : other ≠ place) : (tree.put place node).node? other = tree.node? other := by
  simp [node?, put, lookup_putNode_of_ne node tree.nodes hne]

def namesIn (tree : FileTree) (place : Place) : List FileName :=
  tree.nodes.filterMap fun (p, node) =>
    match node, p.getLast? with
    | .file _, some name => if p.dropLast = place then some name else none
    | _, _ => none

/-! ## Paths -/

/-- The most bytes a name may have. -/
def greatestNameLength : Nat := 255

/-- The name of a directory in itself. -/
def dot : FileName := [0x2E]

/-- The name of the directory above. -/
def dots : FileName := [0x2E, 0x2E]

/-- Follows names from a place. -/
def follow (tree : FileTree) : (place : Place) → (names : List FileName) → Except FileError Place
  | place, [] => .ok place
  | place, name :: names =>
    match tree.node? place with
    | none => .error .notFound
    | some (.file _) => .error .notDirectory
    | some .directory =>
      if name.isEmpty ∨ name = dot then follow tree place names
      else if name = dots then follow tree place.dropLast names
      else if greatestNameLength < name.length then .error .nameTooLong
      else follow tree (place ++ [name]) names

/-- Follows names from a place and makes the directories that are missing. -/
def make : (place : Place) → (names : List FileName) → FileTree → Except FileError Unit × FileTree
  | place, [], tree =>
    (if tree.node? place = some .directory then .ok () else .error .alreadyExists, tree)
  | place, name :: names, tree =>
    match tree.node? place with
    | none => (.error .notFound, tree)
    | some (.file _) => (.error .notDirectory, tree)
    | some .directory =>
      if name.isEmpty ∨ name = dot then make place names tree
      else if name = dots then make place.dropLast names tree
      else if greatestNameLength < name.length then (.error .nameTooLong, tree)
      else
        let next := place ++ [name]
        make next names (if (tree.node? next).isSome then tree else tree.put next .directory)

end FileTree

/-- A modelled machine. -/
structure World where
  tree : FileTree
  /-- The current directory. -/
  here : Place
  input : Bytes
deriving DecidableEq, Repr

namespace World

/-- Where a path starts, and the names on it. -/
def names (w : World) (path : Path) : Place × List FileName :=
  (if path.head? = some slash then [] else w.here, Text.fields (· == slash) path)

/-- The most bytes a path may have. -/
def greatestPathLength : Nat := 4095

/-- Why a path cannot be followed at all. -/
def refusal? (path : Path) : Option FileError :=
  if path.isEmpty then some .notFound
  else if path.contains 0 then
    some (.other "file name contained an unexpected NUL byte".toList)
  else if greatestPathLength < path.length then some .nameTooLong
  else none

/-- The place that a path leads to. -/
def locate (w : World) (path : Path) : Except FileError Place :=
  match refusal? path with
  | some e => .error e
  | none =>
    let (start, names) := w.names path
    w.tree.follow start names

def find (w : World) (path : Path) : Except FileError (Place × Node) := do
  let place ← w.locate path
  match w.tree.node? place with
  | none => .error .notFound
  | some node => return (place, node)

def isDirectory (w : World) (path : Path) : Bool :=
  match w.find path with
  | .ok (_, .directory) => true
  | _ => false

def fileNames (w : World) (path : Path) : Except FileError (List FileName) := do
  match ← w.find path with
  | (place, .directory) => return w.tree.namesIn place
  | (_, .file _) => .error .notDirectory

def makeDirectory (path : Path) (w : World) : Except FileError Unit × World :=
  match refusal? path with
  | some .notFound => (.ok (), w)
  | some e => (.error e, w)
  | none =>
    let (start, names) := w.names path
    let (result, tree) := FileTree.make start names w.tree
    (result, { w with tree })

def fileContent (w : World) (path : Path) : Except FileError Bytes := do
  match ← w.find path with
  | (_, .directory) => .error .isDirectory
  | (_, .file content) => return content

def writeFile (path : Path) (content : Bytes) (w : World) : Except FileError Unit × World :=
  match w.locate path with
  | .error e => (.error e, w)
  | .ok place =>
    if w.tree.node? place = some .directory then (.error .isDirectory, w)
    else (.ok (), { w with tree := w.tree.put place (.file content) })

end World

instance : Host (StateM World) where
  isDirectory path := return (← get).isDirectory path
  fileNames path := return (← get).fileNames path
  makeDirectory path := modifyGet (World.makeDirectory path)
  readFile path := return (← get).fileContent path
  writeFile path content := modifyGet (World.writeFile path content)
  standardInput := return (← get).input

end Unmask
