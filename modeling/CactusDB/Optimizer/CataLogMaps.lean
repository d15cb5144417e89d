import CactusDB.Optimizer.Resources

/-! The maps of the catalog that a node's data is looked up in: file addresses, file formats and
sources. A ledger keeps what the latest operation said about every node; the catalog is compared
with it along a sequence of operations. -/

namespace CactusDB.Optimizer.CataLogMaps
open Std Library.TextScan Core.Plan Resources ExtTreeMap

inductive SourceType where
  | node
  | file
  | vector
  | database
  deriving DecidableEq, Repr

structure OutputStat where
  name : Text := []
  numRows : Int
  numCols : Int
  deriving DecidableEq, Repr

/-- The pointer to the statistics may be null. -/
structure Source where
  name : Text := []
  type : SourceType := .node
  stats : Option OutputStat := none
  deriving DecidableEq, Repr

structure TempFilePath where
  path : Text

structure SourcedCataLog extends CataLog where
  sourceMap : TextMap Source := ∅

open TempFilePath

namespace SourcedCataLog

variable (cataLog : SourcedCataLog)

def setIdAddressMap (p : PlanNodeId) (filePath : List Text) : SourcedCataLog :=
  { cataLog with toCataLog := cataLog.toCataLog.setIdAddressMap p filePath }

def setIdAddressMapFormat (p : PlanNodeId) (filePath : List Text)
    (format : FileFormat) : SourcedCataLog :=
  { cataLog with
    idFileAddrMap := cataLog.idFileAddrMap.insert p filePath
    idFileFormatMap := cataLog.idFileFormatMap.insert p format }

def setIdAddressMapTemp (p : PlanNodeId) (filePath : List TempFilePath) :
    SourcedCataLog :=
  cataLog.setIdAddressMap p (filePath.map path)

def setIdAddressMapTo (map : ExtTreeMap PlanNodeId (List Text)) :
    SourcedCataLog :=
  { cataLog with toCataLog := cataLog.toCataLog.setIdAddressMapTo map }

/-- The access inserts an empty list of files for a node without one. -/
def getFileAddress (p : PlanNodeId) : List Text × SourcedCataLog :=
  match cataLog.idFileAddrMap[p]? with
  | some filePath => (filePath, cataLog)
  | none => ([], { cataLog with idFileAddrMap := cataLog.idFileAddrMap.insert p [] })

def deleteIdAddressMap (p : PlanNodeId) : SourcedCataLog :=
  { cataLog with toCataLog := cataLog.toCataLog.deleteIdAddressMap p }

def clearIdAddressMap : SourcedCataLog :=
  { cataLog with idFileAddrMap := ∅ }

def getIdFileFormat (p : PlanNodeId) : FileFormat :=
  cataLog.idFileFormatMap[p]?.getD .dwrf

/-- The insertion keeps a source that is already there under the name. -/
def addSource (src : Source) : SourcedCataLog :=
  { cataLog with sourceMap := cataLog.sourceMap.insertIfNew src.name src }

def getSource (srcName : Text) : Except Text Source :=
  match cataLog.sourceMap[srcName]? with
  | some src => .ok src
  | none => .error ("[ERROR] srcName: ".toList ++ srcName ++ " not exist in sourceMap".toList)

end SourcedCataLog

inductive Operation where
  | setIdAddressMap (p : PlanNodeId) (filePath : List Text)
  | setIdAddressMapFormat (p : PlanNodeId) (filePath : List Text) (format : FileFormat)
  | setIdAddressMapTemp (p : PlanNodeId) (filePath : List TempFilePath)
  | setIdAddressMapTo (map : ExtTreeMap PlanNodeId (List Text))
  | deleteIdAddressMap (p : PlanNodeId)
  | clearIdAddressMap
  | addSource (src : Source)

def perform (cataLog : SourcedCataLog) : Operation → SourcedCataLog
  | .setIdAddressMap p filePath => cataLog.setIdAddressMap p filePath
  | .setIdAddressMapFormat p filePath format => cataLog.setIdAddressMapFormat p filePath format
  | .setIdAddressMapTemp p filePath => cataLog.setIdAddressMapTemp p filePath
  | .setIdAddressMapTo map => cataLog.setIdAddressMapTo map
  | .deleteIdAddressMap p => cataLog.deleteIdAddressMap p
  | .clearIdAddressMap => cataLog.clearIdAddressMap
  | .addSource src => cataLog.addSource src

def performAll (operations : List Operation) : SourcedCataLog := operations.foldl perform {}

structure Ledger where
  files : PlanNodeId → Option (List Text × FileFormat) := fun _ => none
  sources : Text → Option Source := fun _ => none

def Ledger.setFiles (ledger : Ledger) (p : PlanNodeId) (filePath : List Text) (format : FileFormat) :
    Ledger :=
  { ledger with files := fun other => if other = p then some (filePath, format) else ledger.files other }

/-- A whole map says nothing about formats: a live node keeps its own, a new one is in DWRF. -/
def Ledger.setMap (ledger : Ledger) (map : ExtTreeMap PlanNodeId (List Text)) : Ledger :=
  { ledger with
    files := fun p => map[p]?.map fun filePath => (filePath, ((ledger.files p).map Prod.snd).getD .dwrf) }

def Ledger.enter (ledger : Ledger) : Operation → Ledger
  | .setIdAddressMap p filePath => ledger.setFiles p filePath .dwrf
  | .setIdAddressMapFormat p filePath format => ledger.setFiles p filePath format
  | .setIdAddressMapTemp p filePath => ledger.setFiles p (filePath.map path) .dwrf
  | .setIdAddressMapTo map => ledger.setMap map
  | .deleteIdAddressMap p =>
    { ledger with files := fun other => if other = p then none else ledger.files other }
  | .clearIdAddressMap => { ledger with files := fun _ => none }
  | .addSource src =>
    { ledger with sources := fun name => if name = src.name then some src else ledger.sources name }

open Ledger

def Ledger.enterAll (operations : List Operation) : Ledger := operations.foldl enter {}

/-- The two maps of a node's files have the same keys, a lookup of a live node returns its latest
addresses and format, and a lookup of a source returns the latest one of that name. -/
structure InStep (cataLog : SourcedCataLog) (ledger : Ledger) : Prop where
  sameIds : ∀ p, p ∈ cataLog.idFileFormatMap ↔ p ∈ cataLog.idFileAddrMap
  live : ∀ p, p ∈ cataLog.idFileAddrMap →
    ledger.files p = some ((cataLog.getFileAddress p).1, cataLog.getIdFileFormat p)
  source : ∀ name src, ledger.sources name = some src → cataLog.getSource name = .ok src

/-- The operations after which the maps are still in step. Nothing may be taken out of the address
map, since its format stays behind, and no source may be replaced. -/
def KeepsStep (ledger : Ledger) : Operation → Prop
  | .setIdAddressMapTo map => ∀ p, p ∈ map ↔ (ledger.files p).isSome
  | .deleteIdAddressMap p => ledger.files p = none
  | .clearIdAddressMap => ∀ p, ledger.files p = none
  | .addSource src => ∀ old, ledger.sources src.name = some old → old = src
  | _ => True

open SourcedCataLog Option

section

structure Follows (cataLog : SourcedCataLog) (ledger : Ledger) : Prop where
  addresses : ∀ p, cataLog.idFileAddrMap[p]? = (ledger.files p).map Prod.fst
  names : ∀ name, cataLog.sourceMap[name]?.isSome = (ledger.sources name).isSome

structure Exact (cataLog : SourcedCataLog) (ledger : Ledger) : Prop where
  formats : ∀ p, cataLog.idFileFormatMap[p]? = (ledger.files p).map Prod.snd
  sources : ∀ name, cataLog.sourceMap[name]? = ledger.sources name

theorem getElem_insert_eq {ν : Type} (map : ExtTreeMap PlanNodeId ν) (p other : PlanNodeId) (value : ν) :
    (map.insert p value)[other]? = if other = p then some value else map[other]? := by
  simp only [getElem?_insert, Nat.compare_eq_eq, eq_comm (a := p)]

theorem getElem_erase_eq {ν : Type} (map : ExtTreeMap PlanNodeId ν) (p other : PlanNodeId) :
    (map.erase p)[other]? = if other = p then none else map[other]? := by
  simp only [getElem?_erase, Nat.compare_eq_eq, eq_comm (a := p)]

/-- The first source of a name stays. -/
theorem addSource_lookup (cataLog : SourcedCataLog) (src : Source) (name : Text) :
    (cataLog.addSource src).sourceMap[name]? =
      cataLog.sourceMap[name]?.or (if name = src.name then some src else none) := by
  rw [addSource, getElem?_insertIfNew]
  by_cases there : name ∈ cataLog.sourceMap
  · obtain ⟨old, found⟩ := isSome_iff_exists.mp (isSome_getElem?_iff_mem.mpr there)
    rw [found, some_or]
    split
    · next new =>
        have same := LawfulEqCmp.compare_eq_iff_eq.mp new.1
        exact absurd (same ▸ there) new.2
    · rfl
  · rw [getElem?_eq_none there, none_or]
    by_cases same : name = src.name
    · subst same
      simp [there]
    · have different : compare src.name name ≠ .eq :=
        fun equal => same (LawfulEqCmp.compare_eq_iff_eq.mp equal).symm
      simp [same, different]

variable {cataLog : SourcedCataLog} {ledger : Ledger}

section

variable (follows : Follows cataLog ledger)
include follows

theorem follows_set (p : PlanNodeId) (filePath : List Text) (format : FileFormat) :
    Follows (cataLog.setIdAddressMapFormat p filePath format) (ledger.setFiles p filePath format) where
  addresses other := by
    simp only [setIdAddressMapFormat, getElem_insert_eq, setFiles, follows.addresses]
    split <;> rfl
  names := follows.names

/-- Addresses are set and taken out as the ledger says, whatever the operations. -/
theorem follows_perform (operation : Operation) : Follows (perform cataLog operation) (ledger.enter operation) := by
  cases operation with
  | setIdAddressMap p filePath => exact follows_set follows p filePath .dwrf
  | setIdAddressMapFormat p filePath format => exact follows_set follows p filePath format
  | setIdAddressMapTemp p filePath => exact follows_set follows p (filePath.map path) .dwrf
  | setIdAddressMapTo map =>
    refine ⟨fun p => ?_, follows.names⟩
    simp [perform, setIdAddressMapTo, CataLog.setIdAddressMapTo, enter, setMap,
      Function.comp_def]
  | deleteIdAddressMap p =>
    refine ⟨fun other => ?_, follows.names⟩
    simp only [perform, deleteIdAddressMap, CataLog.deleteIdAddressMap, enter,
      getElem_erase_eq, follows.addresses]
    split <;> rfl
  | clearIdAddressMap =>
    refine ⟨fun p => ?_, follows.names⟩
    simp [perform, clearIdAddressMap, enter]
  | addSource src =>
    refine ⟨follows.addresses, fun name => ?_⟩
    simp only [perform, addSource_lookup, enter, isSome_or, follows.names]
    by_cases same : name = src.name <;> simp [same]

/-- When the addresses follow the ledger, being in step is a matter of formats and sources. -/
theorem inStep_iff_exact : InStep cataLog ledger ↔ Exact cataLog ledger := by
  have alive : ∀ p, p ∈ cataLog.idFileAddrMap ↔ (ledger.files p).isSome := fun p => by
    rw [← isSome_getElem?_iff_mem, follows.addresses, isSome_map]
  have lookup : ∀ p files, ledger.files p = some files → (cataLog.getFileAddress p).1 = files.1 := by
    intro p files entered
    simp [getFileAddress, follows.addresses, entered]
  constructor
  · intro inStep
    refine ⟨fun p => ?_, fun name => ?_⟩
    · cases entered : ledger.files p with
      | none =>
        have gone : p ∉ cataLog.idFileFormatMap := by
          rw [inStep.sameIds, alive, entered]
          exact Bool.false_ne_true
        simp [getElem?_eq_none gone]
      | some files =>
        have there : p ∈ cataLog.idFileAddrMap := (alive p).mpr (by simp [entered])
        have format := inStep.live p there
        obtain ⟨recorded, found⟩ := isSome_iff_exists.mp
          (isSome_getElem?_iff_mem.mpr ((inStep.sameIds p).mpr there))
        rw [entered] at format
        simp only [getIdFileFormat, found, getD_some, some.injEq] at format
        rw [found, format]
        rfl
    · cases entered : ledger.sources name with
      | none =>
        have unnamed := follows.names name
        rw [entered] at unnamed
        exact not_isSome_iff_eq_none.mp (by simp only [unnamed, isSome_none, Bool.false_eq_true,
          not_false_eq_true])
      | some src =>
        have found := inStep.source name src entered
        unfold getSource at found
        split at found
        · next stored lookedUp => rw [lookedUp, Except.ok.inj found]
        · exact nomatch found
  · intro exact
    refine ⟨fun p => ?_, fun p there => ?_, fun name src entered => ?_⟩
    · rw [alive, ← isSome_getElem?_iff_mem, exact.formats, isSome_map]
    · obtain ⟨files, entered⟩ := isSome_iff_exists.mp ((alive p).mp there)
      simp [entered, lookup p files entered, getIdFileFormat, exact.formats]
    · simp [getSource, exact.sources, entered]

end

theorem exact_set (exact : Exact cataLog ledger) (p : PlanNodeId) (filePath : List Text) (format : FileFormat) :
    Exact (cataLog.setIdAddressMapFormat p filePath format) (ledger.setFiles p filePath format) where
  formats other := by
    simp only [setIdAddressMapFormat, getElem_insert_eq, setFiles, exact.formats]
    split <;> rfl
  sources := exact.sources

/-- One operation keeps formats and sources right exactly under its condition. -/
theorem exact_perform_iff (exact : Exact cataLog ledger) (operation : Operation) :
    Exact (perform cataLog operation) (ledger.enter operation) ↔ KeepsStep ledger operation := by
  cases operation with
  | setIdAddressMap p filePath => exact iff_of_true (exact_set exact p filePath .dwrf) trivial
  | setIdAddressMapFormat p filePath format => exact iff_of_true (exact_set exact p filePath format) trivial
  | setIdAddressMapTemp p filePath =>
    exact iff_of_true (exact_set exact p (filePath.map path) .dwrf) trivial
  | setIdAddressMapTo map =>
    have formats : (∀ p, cataLog.idFileFormatMap[p]? = ((ledger.setMap map).files p).map Prod.snd) ↔
        ∀ p, p ∈ map ↔ (ledger.files p).isSome := by
      refine forall_congr' fun p => ?_
      rw [exact.formats, ← isSome_getElem?_iff_mem]
      simp only [setMap, Option.map_map]
      cases ledger.files p <;> cases map[p]? <;> simp
    exact ⟨fun after => formats.mp after.formats, fun keeps => ⟨formats.mpr keeps, exact.sources⟩⟩
  | deleteIdAddressMap p =>
    constructor
    · intro after
      have stays := after.formats p
      simp only [perform, deleteIdAddressMap, CataLog.deleteIdAddressMap, exact.formats,
        enter, if_true, map_none, map_eq_none_iff] at stays
      exact stays
    · intro gone
      refine ⟨fun other => (exact.formats other).trans ?_, exact.sources⟩
      by_cases same : other = p
      · simp [enter, same, show ledger.files p = none from gone]
      · simp [enter, same]
  | clearIdAddressMap =>
    constructor
    · intro after p
      have stays := after.formats p
      simp only [perform, clearIdAddressMap, exact.formats, enter, map_none,
        map_eq_none_iff] at stays
      exact stays
    · intro gone
      refine ⟨fun p => (exact.formats p).trans ?_, exact.sources⟩
      simp [enter, show ledger.files p = none from gone p]
  | addSource src =>
    constructor
    · intro after old entered
      have stays := after.sources src.name
      simpa [perform, addSource_lookup, exact.sources, entered, enter] using stays
    · intro keeps
      refine ⟨exact.formats, fun name => ?_⟩
      simp only [perform, addSource_lookup, exact.sources, enter]
      by_cases same : name = src.name
      · subst same
        cases entered : ledger.sources src.name with
        | none => simp
        | some old => simp [show old = src from keeps old entered]
      · simp [same]

end

theorem follows_performAll (operations : List Operation) :
    Follows (performAll operations) (enterAll operations) := by
  have start : Follows {} {} := ⟨fun p => by simp, fun name => by simp⟩
  unfold performAll enterAll
  generalize ({} : SourcedCataLog) = cataLog, ({} : Ledger) = ledger at start
  induction operations generalizing cataLog ledger with
  | nil => exact start
  | cons operation rest ih => exact ih _ _ (follows_perform start operation)

theorem exact_empty : Exact {} {} := ⟨fun p => by simp, fun name => by simp⟩

/-- The catalog is right after every initial part of the sequence exactly when every operation
meets its condition at the time it is performed. -/
theorem inStep_throughout_iff (operations : List Operation) :
    (∀ done rest, operations = done ++ rest → InStep (performAll done) (enterAll done)) ↔
      ∀ done operation rest, operations = done ++ operation :: rest →
        KeepsStep (enterAll done) operation := by
  simp only [inStep_iff_exact (follows_performAll _)]
  have one : ∀ done operation, Exact (performAll done) (enterAll done) →
      (Exact (performAll (done ++ [operation])) (enterAll (done ++ [operation])) ↔
        KeepsStep (enterAll done) operation) := by
    intro done operation before
    simpa only [performAll, enterAll, List.foldl_append, List.foldl_cons, List.foldl_nil] using
      exact_perform_iff before operation
  constructor
  · intro always done operation rest split
    refine (one done operation (always done _ split)).mp (always _ rest ?_)
    simp [split]
  · intro keeps done rest split
    induction done using List.reverseRecOn generalizing rest with
    | nil => exact exact_empty
    | append_singleton done operation ih =>
      have whole : operations = done ++ operation :: rest := by simpa using split
      exact (one done operation (ih _ whole)).mpr (keeps done operation rest whole)

/-- A deleted node keeps its format, and a second source of a name is dropped. -/
theorem deleted_node_keeps_format :
    (let operations : List Operation := [.setIdAddressMap 0 ["a".toList], .deleteIdAddressMap 0]
     0 ∈ (performAll operations).idFileFormatMap ∧ 0 ∉ (performAll operations).idFileAddrMap ∧
      ¬InStep (performAll operations) (enterAll operations)) ∧
    (let first : Source := { name := "s".toList, type := .file }
     let second : Source := { name := "s".toList, type := .database }
     (performAll [.addSource first, .addSource second]).getSource "s".toList = .ok first ∧
      ¬InStep (performAll [.addSource first, .addSource second])
        (enterAll [.addSource first, .addSource second])) := by
  refine ⟨?_, ?_⟩
  · intro operations
    have format : 0 ∈ (performAll operations).idFileFormatMap := by
      simp [operations, performAll, perform, setIdAddressMap, CataLog.setIdAddressMap,
        deleteIdAddressMap, CataLog.deleteIdAddressMap]
    have address : 0 ∉ (performAll operations).idFileAddrMap := by
      simp [operations, performAll, perform, deleteIdAddressMap, CataLog.deleteIdAddressMap]
    exact ⟨format, address, fun inStep => address ((inStep.sameIds 0).mp format)⟩
  · intro first second
    have kept : (performAll [.addSource first, .addSource second]).getSource "s".toList = .ok first := by
      simp [performAll, perform, getSource, addSource_lookup, first, second]
    refine ⟨kept, fun inStep => ?_⟩
    have latest := inStep.source "s".toList second (by simp [enterAll, enter, first, second])
    rw [kept] at latest
    exact absurd (Except.ok.inj latest) (by decide)

/-- The format of every live node is recorded as the ledger has it. -/
def LiveFormats (cataLog : SourcedCataLog) (ledger : Ledger) : Prop :=
  ∀ p files, ledger.files p = some files → cataLog.idFileFormatMap[p]? = some files.2

variable {cataLog : SourcedCataLog}

theorem liveFormats_set {ledger : Ledger} (formats : LiveFormats cataLog ledger)
    (p : PlanNodeId) (filePath : List Text) (format : FileFormat) :
    LiveFormats (cataLog.setIdAddressMapFormat p filePath format) (ledger.setFiles p filePath format) := by
  intro other files entered
  simp only [setIdAddressMapFormat, getElem_insert_eq, setFiles] at entered ⊢
  split at entered
  · next same => rw [if_pos same, ← some.inj entered]
  · next different => rw [if_neg different, formats other files entered]

theorem liveFormats_perform {ledger : Ledger} (formats : LiveFormats cataLog ledger)
    {operation : Operation} (single : ∀ map, operation ≠ .setIdAddressMapTo map) :
    LiveFormats (perform cataLog operation) (ledger.enter operation) := by
  cases operation with
  | setIdAddressMap p filePath => exact liveFormats_set formats p filePath .dwrf
  | setIdAddressMapFormat p filePath format => exact liveFormats_set formats p filePath format
  | setIdAddressMapTemp p filePath => exact liveFormats_set formats p (filePath.map path) .dwrf
  | setIdAddressMapTo map => exact absurd rfl (single map)
  | deleteIdAddressMap p =>
    intro other files entered
    simp only [enter] at entered
    split at entered
    · exact nomatch entered
    · exact formats other files entered
  | clearIdAddressMap => exact fun p files entered => nomatch entered
  | addSource src => exact formats

/-- Deletions and clears do not spoil the lookups of live nodes: only a whole map can bring a node
back to the format it had before. -/
theorem live_lookup (operations : List Operation) (single : ∀ map, .setIdAddressMapTo map ∉ operations)
    (p : PlanNodeId) (live : p ∈ (performAll operations).idFileAddrMap) :
    (enterAll operations).files p =
      some (((performAll operations).getFileAddress p).1, (performAll operations).getIdFileFormat p) := by
  have formats : LiveFormats (performAll operations) (enterAll operations) := by
    have start : LiveFormats {} {} := fun p files entered => nomatch entered
    unfold performAll enterAll
    clear live
    generalize ({} : SourcedCataLog) = cataLog, ({} : Ledger) = ledger at start
    induction operations generalizing cataLog ledger with
    | nil => exact start
    | cons operation rest ih =>
      have here : ∀ map, operation ≠ .setIdAddressMapTo map := fun map same => single map (by simp [same])
      have later : ∀ map, .setIdAddressMapTo map ∉ rest := fun map mem => single map (by simp [mem])
      exact ih later _ _ (liveFormats_perform start here)
  have follows := follows_performAll operations
  have entered := isSome_getElem?_iff_mem.mpr live
  rw [follows.addresses, isSome_map] at entered
  obtain ⟨files, entered⟩ := isSome_iff_exists.mp entered
  simp [getFileAddress, getIdFileFormat, follows.addresses, entered,
    formats p files entered]

end CactusDB.Optimizer.CataLogMaps
