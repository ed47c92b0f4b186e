import Zhios.Fs.FatOpen

/-! The file descriptors of `src/fs/file.c`. -/
namespace Zhios
open Machine

def zhiosMaxFileDescriptors : ℕ := 256
def sizeofFileDescriptor : ℕ := 16

/-- A `struct FileDescriptor` at `address`. Its file system and disk are always the
same ones. -/
structure FileDescriptor where
  address : ℕ
  id : ℤ
  privateData : Option Fat16Descriptor

/-- The kernel heap, the disk with the volume mounted on it, if any, and the table
`file_descriptors`. -/
structure FileState where
  kmem : KMem
  volume : Option FatDisk
  fileDescriptors : ℕ → Option FileDescriptor

def getFileModeFromString (modeStr : List UInt8) : FileMode :=
  if strncmp modeStr [0x72] 1 = 0 then .read
  else if strncmp modeStr [0x77] 1 = 0 then .write
  else if strncmp modeStr [0x61] 1 = 0 then .append
  else .invalid

def freeSlot (s : FileState) : Option ℕ :=
  findSlot (fun i => (s.fileDescriptors i).isNone) zhiosMaxFileDescriptors 0

/-- The new descriptor's slot, with `fd->private_data` as `fopen` stores it
afterwards. The allocation comes first and is not checked. -/
def newFileDescriptor (s : FileState) (privateData : Option Fat16Descriptor) : Option (Option ℤ × FileState) :=
  let r := kzalloc s.kmem sizeofFileDescriptor
  match freeSlot s with
  | none => some (none, { s with kmem := kfree r.2 r.1 })
  | some i =>
    if r.1 = 0 then none
    else some (some (i + 1), { s with
      kmem := r.2
      fileDescriptors := Function.update s.fileDescriptors i (some ⟨r.1, i + 1, privateData⟩) })

/-- The label `out` of `fopen` with a negative status, reached before anything was
stored in `private_descriptor_data`: whatever the stack held there is closed. -/
def fopenFailed (s : FileState) (path : Option RootPath) (stale : ℕ) (res : ℤ) : Option (ℤ × FileState) :=
  if stale ≠ 0 then none
  else some (res, { s with kmem := match path with
    | none => s.kmem
    | some path => freePath s.kmem path })

/-- The status and the state after the call, with `stale` for the uninitialised
pointer. A pointer is never less than zero, so `ISERR` holds of no result. -/
def fopen (s : FileState) (filename mode : List UInt8) (stale : ℕ) : Option (ℤ × FileState) :=
  (parsePath s.kmem filename).bind fun p =>
    let s := { s with kmem := p.2 }
    match p.1 with
    | none => fopenFailed s none stale (- EINARG)
    | some path =>
      if path.root = [] then fopenFailed s (some path) stale (- EINARG)
      else if getFileModeFromString mode = .invalid then some (- EINARG, s)
      else if path.driveNumber ≠ 0 then fopenFailed s (some path) stale (- EIO)
      else match s.volume with
        | none => fopenFailed s (some path) stale (- EIO)
        | some v =>
          (fat16Open s.kmem v path.root (getFileModeFromString mode)).bind fun d =>
            (newFileDescriptor { s with kmem := d.2 } d.1).map fun f => (f.1.getD 0, f.2)

/-- The slot of an id. There is none in the table for an id that is not positive. -/
def getFileDescriptor (s : FileState) (id : ℤ) : Option (Option FileDescriptor) :=
  if zhiosMaxFileDescriptors < id then some none
  else if id < 1 then none
  else some (s.fileDescriptors (id - 1).toNat)

/-- What a call on an open file works on: the slot, its descriptor and the private
data. -/
def openFile (s : FileState) (fd : ℤ) : Option (FileDescriptor × Fat16Descriptor) := do
  let desc ← (← getFileDescriptor s fd)
  let d ← desc.privateData
  some (desc, d)

def FileState.setPrivateData (s : FileState) (fd : ℤ) (desc : FileDescriptor) (d : Fat16Descriptor) : FileState :=
  let slot := some { desc with privateData := some d }
  { s with fileDescriptors := Function.update s.fileDescriptors (fd - 1).toNat slot }

def fread (s : FileState) (fd : ℤ) (buffer : ℕ) (size : ℤ) : Option (ℤ × FileState) :=
  if size = 0 ∨ fd < 0 then some (- EINARG, s)
  else do
    let (desc, d) ← openFile s fd
    let v ← s.volume
    let (res, bytes, d') ← fat16Read v d size
    let s := s.setPrivateData fd desc d'
    some (res, { s with kmem := { s.kmem with mem := storeBytes s.kmem.mem buffer bytes } })

inductive FileSeekMode
  | seekBegin
  | seekCurrent
  | seekEnd
  deriving DecidableEq, Repr

/-- Both modes seek from the beginning. -/
def fseek (s : FileState) (fd offset : ℤ) (mode : FileSeekMode) : Option (ℤ × FileState) :=
  match mode with
  | .seekEnd => some (- EINARG, s)
  | _ => do
    let (desc, d) ← openFile s fd
    let (res, d') ← fat16Seek d offset
    some (res, s.setPrivateData fd desc d')

/-- The status and what is stored in the caller's record. -/
def fstat (s : FileState) (fd : ℤ) : Option (ℤ × Option FileStat) := do
  match ← getFileDescriptor s fd with
  | none => some (- EIO, none)
  | some desc =>
    let d ← desc.privateData
    let stat ← fat16Stat s.kmem.mem d
    some (0, some stat)

def freeFileDescriptor (s : FileState) (desc : FileDescriptor) : FileState :=
  { s with
    fileDescriptors := Function.update s.fileDescriptors (desc.id - 1).toNat none
    kmem := kfree s.kmem desc.address }

def fclose (s : FileState) (fd : ℤ) : Option FileState := do
  let (desc, d) ← openFile s fd
  some (freeFileDescriptor { s with kmem := fat16Close s.kmem d } desc)

section Invalid
variable {s : FileState} {fd : ℤ}

def FileState.LiveId (s : FileState) (fd : ℤ) : Prop :=
  1 ≤ fd ∧ fd ≤ zhiosMaxFileDescriptors ∧ (s.fileDescriptors (fd - 1).toNat).isSome

/-- An error code, and nothing has changed. -/
def FileState.Rejects (s : FileState) (r : Option (ℤ × FileState)) : Prop := ∃ res < 0, r = some (res, s)

/-- For any other id there is no descriptor: an id below 1 even leads to an index
below the table. -/
theorem getFileDescriptor_invalid (h : ¬ s.LiveId fd) :
    getFileDescriptor s fd = if 1 ≤ fd then some none else none := by
  unfold FileState.LiveId at h
  unfold getFileDescriptor
  by_cases hlarge : (zhiosMaxFileDescriptors : ℤ) < fd
  · have hpos : 1 ≤ fd := by unfold zhiosMaxFileDescriptors at hlarge; omega
    rw [if_pos hlarge, if_pos hpos]
  · rw [if_neg hlarge]
    by_cases hpos : 1 ≤ fd
    · rw [if_neg (by omega), if_pos hpos, Option.some.injEq, ← Option.not_isSome_iff_eq_none]
      exact fun hsome => h ⟨hpos, by omega, hsome⟩
    · rw [if_pos (by omega), if_neg hpos]

theorem openFile_invalid (h : ¬ s.LiveId fd) : openFile s fd = none := by
  unfold openFile
  rw [getFileDescriptor_invalid h]
  split_ifs <;> rfl

end Invalid

end Zhios
