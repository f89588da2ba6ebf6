import Mathlib

/-! The errors of the cache, and where they come from: each call of the operating system and each
question to the work guard has its own site, and a run is determined by what happens at each
site. With the publication lock held no other process changes the directory, so that a call
either does what it says or fails. -/

namespace QTrace.Cache

inductive OperationAbort
  | cancelled
  | budgetExceeded (dimension : String) (limit consumed : ℕ)
  deriving DecidableEq

/-- An error of the operating system: its number and how it prints. -/
structure Errno where
  number : ℕ
  text : String
  deriving DecidableEq

inductive PublicationState
  | noVisibleFinal
  | visibleDurabilityUncertain
  deriving DecidableEq

inductive CacheErrorDetail
  | message (text : String)
  | abort (cause : OperationAbort)
  deriving DecidableEq

structure CacheError where
  code : String
  detail : CacheErrorDetail
  publicationState : PublicationState
  deriving DecidableEq

def OperationAbort.display : OperationAbort → String
  | cancelled => "operation cancelled"
  | budgetExceeded dimension limit consumed => s!"{dimension} budget exceeded: consumed {consumed}, limit {limit}"

namespace CacheError

def new (code detail : String) : CacheError := ⟨code, .message detail, .noVisibleFinal⟩

def invalid (detail : String) : CacheError := new "cache.invalid_argument" detail

def access (detail : String) : CacheError := new "cache.access" detail

def io (detail : String) : CacheError := new "cache.io" detail

def permission (detail : String) : CacheError := new "cache.permission_denied" detail

def resource (detail : String) : CacheError := new "control.resource_exhausted" detail

def ofAbort (abort : OperationAbort) : CacheError :=
  ⟨match abort with
    | .cancelled => "job.cancelled"
    | .budgetExceeded _ _ _ => "control.budget_exceeded", .abort abort, .noVisibleFinal⟩

def operationAbort (e : CacheError) : Option OperationAbort :=
  match e.detail with
  | .abort abort => some abort
  | .message _ => none

def display (e : CacheError) : String :=
  let code := e.code
  let detail := match e.detail with
    | .message text => text
    | .abort abort => abort.display
  s!"{code}: {detail}"

end CacheError

/-- `ENOMEM`, `ENFILE` and `EMFILE`. -/
def Errno.isResource (e : Errno) : Bool := e.number == 12 || e.number == 23 || e.number == 24

/-- `map_errno` and `map_io_error`. -/
def mapErrno (context : String) (e : Errno) : CacheError :=
  let text := e.text
  if e.isResource then .resource s!"{context}: {text}"
  else if e.number == 1 || e.number == 13 then .permission s!"{context}: {text}"
  else .io s!"{context}: {text}"

inductive CacheIdentityField
  | analyzerVersion | artifactDigest | buildOptionDigest | cacheSchema | endian | layoutVersion | sourceFeatures
  | sourceFormat | sourceMajor | sourceMinor
  deriving DecidableEq

inductive RebuildReason
  | header (detail : String)
  | identityMismatch (field : CacheIdentityField)
  | manifest (detail : String)
  | section (detail : String)
  deriving DecidableEq

inductive ValidationFailure
  | rebuild (reason : RebuildReason)
  | fatal (error : CacheError)
  deriving DecidableEq

/-- The places where the guard may abort or a call may fail. The pieces of a loop are numbered, and
neighbouring questions to the guard share a site. -/
inductive Site
  -- validation of a file
  | stat | header | manifestWork | manifest | manifestDecode | canonicalWork
  | sectionWork (ordinal : ℕ) | padding (ordinal piece : ℕ) | payload (ordinal piece : ℕ)
  | namesWork | rowsWork | rowsPiece (piece : ℕ) | keys (piece : ℕ) | kinds (piece : ℕ)
  | metaWork | metaRead (piece : ℕ) | metaDecode (piece : ℕ)
  | binaryWork (ordinal : ℕ) | binary (ordinal : ℕ) | catalogWork | verifyDirectory | restat | viewWork
  -- the identity of a file that was refused
  | probeStat | probeHeader | probeWork | probeManifest | probeDecode
  -- the new file
  | keyWork | openDirectory | acquireLock | temporaryWork | createTemporary | directoryReceipt
  | writeHeader | writeKinds (piece : ℕ) | writePadding (ordinal : ℕ) | writeKeys (piece : ℕ)
  | descriptorWork (ordinal : ℕ) | writeSection (ordinal piece : ℕ) | writeManifestWork | writeManifest
  | rewriteWork | seek | rewriteHeader | syncWork | syncTemporary
  -- publication
  | inspectWork | inspectDirectory | inspectLock | openFinal | statFinal | cloneFinal
  | existingInspect | existingUnlink | existingDirectory | existingLock | existingSync | existingLockAgain
  | existingDirectoryAgain
  | rename | publishedWork | publishedDirectory | publishedLock
  | boundLock | boundFinal | boundStaging | sync | boundLockAgain | boundFinalAgain | boundStagingAgain
  | committedDirectory
  | cleanupLock | cleanupFinal | cleanupStaging | cleanupInspect | cleanupUnlink | cleanupSync | cleanedLock
  | cleanedFinal | cleanedDirectory
  | rollbackLock | rollbackFinal | rollbackStaging | rollbackLockAgain | rollbackExchange | rolledFinal
  | rolledStaging | rollbackInspect | rollbackUnlink | rollbackSync
  | abandonInspect | abandonUnlink
  deriving DecidableEq

inductive Fault
  | abort (cause : OperationAbort)
  | errno (error : Errno)
  deriving DecidableEq

/-- What goes wrong where. -/
abbrev Faults := Site → Option Fault

/-- Nothing goes wrong. -/
def noFaults : Faults := fun _ => none

/-- `WorkGuard::consume`. -/
def work (faults : Faults) (site : Site) : Except CacheError Unit :=
  match faults site with
  | some (.abort cause) => .error (.ofAbort cause)
  | _ => .ok ()

/-- A call of the operating system. -/
def system (faults : Faults) (site : Site) (context : String) : Except CacheError Unit :=
  match faults site with
  | some (.errno error) => .error (mapErrno context error)
  | _ => .ok ()

@[simp] theorem work_noFaults (site : Site) : work noFaults site = .ok () := rfl

@[simp] theorem system_noFaults (site : Site) (context : String) : system noFaults site context = .ok () := rfl

end QTrace.Cache
