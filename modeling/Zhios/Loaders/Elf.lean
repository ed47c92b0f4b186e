import Zhios.Fs.File
import Zhios.Memory.Paging

/-! The program loaders of `src/loaders`: ELF files, flat binaries, and the mapping of
either into a process. -/
namespace Zhios
open Machine

def EINFORMAT : ℤ := 4
def zhiosProgramVirtualAddress : ℕ := 0x400000

def ptLoad : ℕ := 1
def pfW : ℕ := 2
def etExec : ℕ := 2

def elfSignature : List UInt8 := [0x7f, 0x45, 0x4c, 0x46]

/-- The fields of `struct ElfHeader` that the loader reads. -/
structure ElfHeader where
  eIdent : ℕ → UInt8
  eType : ℕ
  eEntry : ℕ
  ePhoff : ℕ
  ePhnum : ℕ

def elfGetHeader (m : Mem) (elfMemory : ℕ) : ElfHeader :=
  { eIdent := fun i => m (elfMemory + i)
    eType := load16 m (elfMemory + 16)
    eEntry := load32 m (elfMemory + 24)
    ePhoff := load32 m (elfMemory + 28)
    ePhnum := load16 m (elfMemory + 44) }

/-- `p_addr` and `p_align` are never read. -/
structure ElfProgramHeader where
  pType : ℕ
  pOffset : ℕ
  pVaddr : ℕ
  pFilesz : ℕ
  pMemsz : ℕ
  pFlags : ℕ
  pOffset_lt : pOffset < 2 ^ 32
  pVaddr_lt : pVaddr < 2 ^ 32
  pFilesz_lt : pFilesz < 2 ^ 32
  pMemsz_lt : pMemsz < 2 ^ 32
  deriving DecidableEq

def sizeofElfProgramHeader : ℕ := 32

def ElfProgramHeader.load (m : Mem) (a : ℕ) : ElfProgramHeader :=
  { pType := load32 m a
    pOffset := load32 m (a + 4)
    pVaddr := load32 m (a + 8)
    pFilesz := load32 m (a + 16)
    pMemsz := load32 m (a + 20)
    pFlags := load32 m (a + 24)
    pOffset_lt := load32_lt m _
    pVaddr_lt := load32_lt m _
    pFilesz_lt := load32_lt m _
    pMemsz_lt := load32_lt m _ }

def elfGetPheaderStart (m : Mem) (header : ℕ) : ℕ :=
  if (elfGetHeader m header).ePhoff = 0 then 0 else uint32 (header + (elfGetHeader m header).ePhoff)

def elfGetPheader (m : Mem) (header index : ℕ) : ElfProgramHeader :=
  .load m (uint32 (elfGetPheaderStart m header + sizeofElfProgramHeader * index))

/-- Both sizes that are compared first are four bytes. -/
def elfIsValidSignature (header : ElfHeader) : Bool :=
  memcmp (fun i => elfSignature.getD i.toNat 0) (fun i => header.eIdent i.toNat) elfSignature.length == 0

def elfIsValidClass (header : ElfHeader) : Bool := header.eIdent 4 == 0 || header.eIdent 4 == 1

def elfIsValidEncoding (header : ElfHeader) : Bool := header.eIdent 5 == 0 || header.eIdent 5 == 1

def elfIsExecutable (header : ElfHeader) : Bool :=
  header.eType == etExec && decide (zhiosProgramVirtualAddress ≤ header.eEntry)

def elfHasProgramHeader (header : ElfHeader) : Bool := header.ePhoff != 0

def elfValidateLoad (header : ElfHeader) : ℤ :=
  if elfIsValidSignature header && elfIsValidClass header && elfIsValidEncoding header &&
    elfHasProgramHeader header && elfIsExecutable header then 0 else - EINFORMAT

/-- A `struct ElfFile` at `address`. -/
structure ElfFile where
  address : ℕ
  elfMemory : ℕ
  virtualBaseAddress : ℕ
  virtualEndAddress : ℕ
  physicalStartAddress : ℕ
  physicalEndAddress : ℕ
  deriving DecidableEq, Repr

def sizeofElfFile : ℕ := 124

def elfGetPheaderPhyAddress (elfMemory : ℕ) (header : ElfProgramHeader) : ℕ := uint32 (elfMemory + header.pOffset)

def elfProcessPtLoad (file : ElfFile) (pheader : ElfProgramHeader) : ElfFile :=
  let file := if pheader.pVaddr ≤ file.virtualBaseAddress ∨ file.virtualBaseAddress = 0 then
      { file with
        virtualBaseAddress := pheader.pVaddr
        physicalStartAddress := uint32 (file.elfMemory + pheader.pOffset) }
    else file
  let endVirtualAddress := uint32 (pheader.pVaddr + pheader.pFilesz)
  if file.virtualEndAddress ≤ endVirtualAddress ∨ file.virtualEndAddress = 0 then
    { file with
      virtualEndAddress := endVirtualAddress
      physicalEndAddress := uint32 (file.elfMemory + pheader.pOffset + pheader.pFilesz) }
  else file

def elfProcessPheader (file : ElfFile) (pheader : ElfProgramHeader) : ElfFile :=
  if pheader.pType = ptLoad then elfProcessPtLoad file pheader else file

/-- The scan does not fail. -/
def elfProcessPheaders (m : Mem) (file : ElfFile) : ℤ × ElfFile :=
  (0, (List.range (elfGetHeader m file.elfMemory).ePhnum).foldl
    (fun file i => elfProcessPheader file (elfGetPheader m file.elfMemory i)) file)

def elfProcessLoaded (m : Mem) (file : ElfFile) : ℤ × ElfFile :=
  let res := elfValidateLoad (elfGetHeader m file.elfMemory)
  if res < 0 then (res, file) else elfProcessPheaders m file

/-- The label `out` of `elf_load` with a negative status. -/
def elfLoadFailed (s : FileState) (elfFile elfMemory : ℕ) (fd res : ℤ) : Option (ℤ × Option ElfFile × FileState) :=
  let k := if elfFile = 0 then s.kmem
    else kfree (if elfMemory = 0 then s.kmem else kfree s.kmem elfMemory) elfFile
  let s := { s with kmem := k }
  if fd = 0 then some (res, none, s) else (fclose s fd).map fun s => (res, none, s)

/-- The status, the file stored through the out parameter and the state after the
call. The record is not checked before it is written to. -/
def elfLoad (s : FileState) (filename : List UInt8) (stale : ℕ) : Option (ℤ × Option ElfFile × FileState) := do
  let e := kzalloc s.kmem sizeofElfFile
  let (fd, s) ← fopen { s with kmem := e.2 } filename [0x72] stale
  if fd ≤ 0 then elfLoadFailed s e.1 0 fd (- EIO)
  else
    let (res, stat) ← fstat s fd
    match stat with
    | none => elfLoadFailed s e.1 0 fd (if res < 0 then - EIO else res)
    | some stat =>
      let b := kzalloc s.kmem stat.size
      if e.1 = 0 then none
      else
        let (res, s) ← fread { s with kmem := b.2 } fd b.1 (int32 stat.size)
        if res < 0 then elfLoadFailed s e.1 b.1 fd res
        else
          let r := elfProcessLoaded s.kmem.mem ⟨e.1, b.1, 0, 0, 0, 0⟩
          if r.1 < 0 then elfLoadFailed s e.1 b.1 fd r.1
          else (fclose s fd).map fun s => (r.1, some r.2, s)

def elfClose (k : KMem) (file : ElfFile) : KMem :=
  if file.address = 0 then k else kfree (kfree k file.elfMemory) file.address

/-- The status, the data, its size and the state after the call. -/
def loadBinary (s : FileState) (filename : List UInt8) (stale : ℕ) : Option (ℤ × ℕ × ℕ × FileState) := do
  let (fd, s) ← fopen s filename [0x72] stale
  if fd = 0 then (fclose s fd).map fun s => (- EIO, 0, 0, s)
  else
    let (res, stat) ← fstat s fd
    match stat with
    | none => (fclose s fd).map fun s => (res, 0, 0, s)
    | some stat =>
      let b := kzalloc s.kmem stat.size
      let s := { s with kmem := b.2 }
      if b.1 = 0 then (fclose s fd).map fun s => (- EMEM, 0, 0, s)
      else
        let (read, s) ← fread s fd b.1 (int32 stat.size)
        if read < 0 then (fclose { s with kmem := kfree s.kmem b.1 } fd).map fun s => (- EIO, 0, 0, s)
        else (fclose s fd).map fun s => (res, b.1, stat.size, s)

/-- The program of a process, by its file type. -/
inductive ProgramData
  | elf (file : ElfFile)
  | binary (ptr size : ℕ)
  deriving DecidableEq, Repr

/-- The status of a load that fails, or the program. -/
def loadData (s : FileState) (filename : List UInt8) (stale : ℕ) : Option ((ℤ ⊕ ProgramData) × FileState) := do
  let (res, file, s) ← elfLoad s filename stale
  if res = - EINFORMAT then
    let (res, ptr, size, s) ← loadBinary s filename stale
    some (if res < 0 then .inl res else .inr (.binary ptr size), s)
  else match file with
    | none => some (.inl res, s)
    | some file => some (.inr (.elf file), s)

def pheaderFlags (pheader : ElfProgramHeader) : ℕ :=
  let flags := pagingIsPresent ||| pagingAccessFromAll
  if pheader.pFlags &&& pfW ≠ 0 then flags ||| pagingIsWritable else flags

def mapPheader (m : Mem) (page elfMemory : ℕ) (pheader : ElfProgramHeader) : ℤ × Mem :=
  mapPageRange m page (alginToLowerPage pheader.pVaddr)
    (alginToLowerPage (elfGetPheaderPhyAddress elfMemory pheader)) (int32 pheader.pMemsz) (pheaderFlags pheader)

/-- Every header of the table is mapped, whatever its type. -/
def mapPheaders (page elfMemory : ℕ) : (fuel i : ℕ) → ℤ → Mem → ℤ × Mem
  | 0, _, res, m => (res, m)
  | fuel + 1, i, res, m =>
    if i < (elfGetHeader m elfMemory).ePhnum then
      let r := mapPheader m page elfMemory (elfGetPheader m elfMemory i)
      if r.1 < 0 then r else mapPheaders page elfMemory fuel (i + 1) r.1 r.2
    else (res, m)

/-- `e_phnum` has 16 bits. -/
def processMapMemoryToElf (m : Mem) (page : ℕ) (file : ElfFile) : ℤ × Mem :=
  mapPheaders page file.elfMemory (2 ^ 16) 0 0 m

def processMapMemoryToBinary (m : Mem) (page data size : ℕ) : ℤ × Mem :=
  mapPageRange m page zhiosProgramVirtualAddress data (int32 size)
    (pagingIsPresent ||| pagingIsWritable ||| pagingAccessFromAll)

def loaderMapMemory (m : Mem) (page : ℕ) : ProgramData → ℤ × Mem
  | .elf file => processMapMemoryToElf m page file
  | .binary ptr size => processMapMemoryToBinary m page ptr size

def loaderFreeData (k : KMem) : ProgramData → KMem
  | .elf file => elfClose k file
  | .binary ptr _ => kfree k ptr

end Zhios
