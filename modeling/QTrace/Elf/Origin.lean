import QTrace.Lib.Parser
import QTrace.Lib.Search

/-! The origin of an image, three times. The host, the tracer and the viewer each read the
program headers of one ELF file, decide whether to accept them and subtract an origin of their
own from virtual addresses: the host the least difference of address and file offset over all
loads, the tracer the same over the loads that occupy memory, the viewer the least address. -/

namespace QTrace.Elf

open Lib

def maxU64 : ℕ := 2 ^ 64 - 1

structure ProgramHeader where
  isLoad : Bool
  readable : Bool
  writable : Bool
  executable : Bool
  offset : ℕ
  vaddr : ℕ
  fileSize : ℕ
  memSize : ℕ
  align : ℕ
  deriving DecidableEq

def loads (headers : List ProgramHeader) : List ProgramHeader := headers.filter ProgramHeader.isLoad

/-- Two neighbours of a sorted list of ranges overlap. -/
def overlapping : List (ℕ × ℕ) → Bool
  | previous :: current :: rest => decide (current.1 < previous.2) || overlapping (current :: rest)
  | _ => false

/-- The code and the detail of a failed inspection. -/
abbrev Failure := String × String

def malformed (detail : String) : Failure := ("target.program_header_malformed", detail)

/-- One row of the program headers; only loads are looked at. -/
def readHeader (seen : List ProgramHeader) (h : ProgramHeader) : Except Failure (List ProgramHeader) :=
  if !h.isLoad then pure seen
  else do
    failIf (!(h.readable || h.writable || h.executable)) (malformed "PT_LOAD row has missing fields")
    failIf (decide (h.memSize < h.fileSize)) (malformed "PT_LOAD file size exceeds memory size")
    failIf (decide (maxU64 - h.vaddr < h.memSize))
      ("target.program_header_overflow", "PT_LOAD virtual range overflows uint64")
    failIf (decide (h.align ≠ 0 ∧ h.align ≠ 1 ∧ h.align &&& (h.align - 1) ≠ 0))
      (malformed "PT_LOAD alignment is not a power of two")
    failIf (decide (1 < h.align ∧ h.vaddr % h.align ≠ h.offset % h.align))
      (malformed "PT_LOAD address and file offset are incongruent")
    failIf (decide (h.vaddr < h.offset)) ("target.load_bias_invalid", "PT_LOAD has negative load bias")
    failIf (decide (h ∈ seen)) ("target.program_header_ambiguous", "PT_LOAD record is repeated")
    return seen ++ [h]

/-- The load bias and the executable ranges relative to it. -/
def programHeaders (headers : List ProgramHeader) : Except Failure (ℕ × List (ℕ × ℕ)) := do
  let loads ← headers.foldlM readHeader []
  failIf loads.isEmpty ("target.program_header_missing", "ELF has no PT_LOAD records")
  let executableLoads := loads.filter fun h => h.executable && decide (h.memSize ≠ 0)
  failIf executableLoads.isEmpty ("target.executable_range_missing", "ELF has no executable PT_LOAD range")
  let loadBias := (loads.map fun h => h.vaddr - h.offset).min?.getD 0
  let ranges := executableLoads.map fun h => (h.vaddr - loadBias, h.vaddr + h.memSize - loadBias)
  failIf (ranges.any fun range => decide (range.2 ≤ range.1)) (malformed "executable PT_LOAD range is empty")
  let sorted := ranges.mergeSort fun a b => decide (a.1 < b.1 ∨ a.1 = b.1 ∧ a.2 ≤ b.2)
  failIf (overlapping sorted) ("target.executable_range_ambiguous", "executable PT_LOAD ranges overlap")
  return (loadBias, sorted)

structure Symbol where
  value : ℕ
  size : ℕ

/-- The scene range of a text symbol. -/
def symbolRange (loadBias : ℕ) (ranges : List (ℕ × ℕ)) (symbol : Symbol) : Except Failure (ℕ × ℕ) := do
  failIf (decide (symbol.size = 0)) ("target.symbol_size_invalid", "symbol has zero size")
  failIf (decide (maxU64 - symbol.value < symbol.size)) ("target.symbol_overflow", "symbol range overflows")
  failIf (decide (symbol.value < loadBias ∨ symbol.value + symbol.size < loadBias))
    ("target.symbol_overflow", "symbol precedes load bias")
  let start := symbol.value - loadBias
  let stop := symbol.value + symbol.size - loadBias
  failIf (decide (start % 4 ≠ 0 ∨ stop % 4 ≠ 0)) ("target.symbol_alignment_invalid", "symbol is not four-byte aligned")
  failIf (!(decide (start < stop) && ranges.any fun range => decide (range.1 ≤ start ∧ stop ≤ range.2)))
    ("target.scene_not_executable", "symbol is outside executable PT_LOAD ranges")
  return (start, stop)

/-- What the loop over the headers of a loaded image has found so far. -/
structure LoadScan where
  imageOrigin : ℕ
  maximumLoadEnd : ℕ
  haveLoad : Bool
  executableRanges : List (ℕ × ℕ)

def scanHeader (base : ℕ) (scan : LoadScan) (h : ProgramHeader) : Option LoadScan :=
  if h.isLoad = false ∨ h.memSize = 0 then some scan
  else if h.vaddr < h.offset ∨ maxU64 - h.memSize < h.vaddr then none
  else
    let found : LoadScan := { scan with
      imageOrigin := min scan.imageOrigin (h.vaddr - h.offset)
      maximumLoadEnd := max scan.maximumLoadEnd (h.vaddr + h.memSize)
      haveLoad := true }
    if !h.executable then some found
    else if scan.executableRanges.length = 8 then none
    else if maxU64 - base < h.vaddr ∨ maxU64 - base < h.vaddr + h.memSize then none
    else some { found with
      executableRanges := scan.executableRanges ++ [(base + h.vaddr, base + (h.vaddr + h.memSize))] }

structure ModuleRange where
  start : ℕ
  stop : ℕ
  executableRanges : List (ℕ × ℕ)

/-- The end of the last load, at the next page. -/
def pageEnd (pageSize loadEnd : ℕ) : Option ℕ :=
  if loadEnd % pageSize = 0 then some loadEnd
  else if maxU64 - (pageSize - loadEnd % pageSize) < loadEnd then none
  else some (loadEnd + (pageSize - loadEnd % pageSize))

def moduleRangeFromPhdr (base pageSize : ℕ) (headers : List ProgramHeader) : Option ModuleRange := do
  let scan ← headers.foldlM (scanHeader base) ⟨maxU64, 0, false, []⟩
  if !scan.haveLoad || decide (maxU64 - base < scan.imageOrigin) then none
  else do
    let loadEnd ← pageEnd pageSize scan.maximumLoadEnd
    if loadEnd = 0 ∨ maxU64 - base < loadEnd then none
    else some ⟨base + scan.imageOrigin, base + loadEnd, scan.executableRanges⟩

structure LoadRange where
  start : ℕ
  stop : ℕ
  executable : Bool

structure RawElf where
  imageBase : ℕ
  loads : List LoadRange
  executable : List (ℕ × ℕ)

/-- The loads of the file so far and their least address. -/
structure ViewerScan where
  imageBase : ℕ
  loads : List LoadRange

def viewHeader (fileLength : ℕ) (scan : ViewerScan) (h : ProgramHeader) : Except String ViewerScan :=
  if !h.isLoad then pure scan
  else do
    failIf (decide (h.memSize < h.fileSize ∨ maxU64 < h.offset + h.fileSize ∨ fileLength < h.offset + h.fileSize))
      "invalid PT_LOAD file range"
    failIf (decide (maxU64 < h.vaddr + h.memSize)) "PT_LOAD address overflow"
    return ⟨min scan.imageBase h.vaddr, scan.loads ++ [⟨h.vaddr, h.vaddr + h.memSize, h.executable⟩]⟩

def preflight (fileLength : ℕ) (headers : List ProgramHeader) : Except String RawElf := do
  failIf headers.isEmpty "missing or invalid program table"
  let scan ← headers.foldlM (viewHeader fileLength) ⟨maxU64, []⟩
  let executable := (scan.loads.filter fun range => range.executable && decide (range.start ≠ range.stop)).map
    fun range => (range.start, range.stop)
  failIf (scan.loads.isEmpty || executable.isEmpty) "no executable PT_LOAD segment"
  let sorted := executable.mergeSort fun a b => decide (a.1 ≤ b.1)
  failIf (overlapping sorted) "overlapping executable PT_LOAD ranges"
  return ⟨scan.imageBase, scan.loads, sorted⟩

/-- The range that starts last before the address holds the symbol. -/
def contained (executable : List (ℕ × ℕ)) (symbol : Symbol) : Bool :=
  match upperBound executable.length fun i => decide ((executable.getD i (0, 0)).1 ≤ symbol.value) with
  | 0 => false
  | i + 1 =>
    let range := executable.getD i (0, 0)
    decide (symbol.value < range.2) &&
      (decide (symbol.size = 0) || decide (symbol.value + symbol.size ≤ maxU64 ∧ symbol.value + symbol.size ≤ range.2))

/-- The address under which a function symbol is stored, if it is. -/
def candidateAddress (elf : RawElf) (symbol : Symbol) : Except String (Option ℕ) :=
  if !contained elf.executable symbol then pure none
  else if symbol.value < elf.imageBase then throw "symbol precedes image base"
  else pure (some (symbol.value - elf.imageBase))

end QTrace.Elf
