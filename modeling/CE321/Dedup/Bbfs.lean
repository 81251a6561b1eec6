import CE321.Dedup.OurLib

/-! # The file system calls, `bbfs.c`

A file of the mounted directory is a file of the root directory that holds the
list of its block IDs. Every call gets the file's path and, where it takes a
`fuse_file_info`, a handle that is open on that file. Log output is left out.
-/

namespace CE321.Dedup

open CString ByteFile

def base : Nat := 4096

/-- The storage, and the root directory: the files that exist and their bytes. -/
structure BbState (Path : Type) extends Storage where
  names : Finset Path
  idFile : Path → Bytes

section

variable {Path : Type} [DecidableEq Path]

def BbState.withIdFile (state : BbState Path) (path : Path) (data : Bytes) : BbState Path :=
  { state with idFile := Function.update state.idFile path data }

/-- The storage directory `main` creates, with the ledger line `bb_init` writes. -/
def initStorage : Storage where
  hashFile := ByteFile.fwrite ⟨[], 0⟩ (endLine 1)
  block := fun _ => none

def bbInit : BbState Path where
  toStorage := initStorage
  names := ∅
  idFile := fun _ => []

/-- `open(fpath, O_CREAT | O_EXCL | O_WRONLY, mode)` on a path that is free. -/
def bbMknod (state : BbState Path) (path : Path) : Option (BbState Path) :=
  if path ∈ state.names then none
  else some { state with
    names := insert path state.names
    idFile := Function.update state.idFile path [] }

/-- `st_size` as `bb_getattr` reports it. -/
def bbGetattr (state : BbState Path) (path : Path) (fresh : Fresh) : Option Int :=
  if path ∈ state.names then
    let stSize := (state.idFile path).length
    let totalBytes := findRealSize state.toStorage stSize (some (state.idFile path)) base fresh
    some (if totalBytes > 0 then totalBytes else stSize)
  else none

/-- `st_size` as `bb_fgetattr` reports it for a regular file. -/
def bbFgetattr (state : BbState Path) (path : Path) : Option Int :=
  if path ∈ state.names then some (state.idFile path).length else none

/-- The bytes delivered; their number is the result of the call. The length of the
data becomes an `int`: `fwrite` of a negative number of bytes does not return. -/
def bbRead (state : BbState Path) (path : Path) (size : Nat) (offset : Int) (fresh : Fresh) :
    Option Bytes :=
  if path ∈ state.names then
    let fileIDs : ByteFile := ⟨state.idFile path, 0⟩
    let sizeOfIDs := fileIDs.fseekEnd.ftell
    match readFile state.toStorage sizeOfIDs offset fileIDs base fresh with
    | none => some (slice (state.idFile path) offset.toNat size)
    | some fileData =>
        let dataSize := toInt32 (strlen fileData)
        if dataSize < 0 then none
        else some (slice ((contents fileData).take dataSize.toNat) 0 size)
  else none

/-- The result of the call is the size, whatever `pwrite` reports. -/
def bbWrite (sha1 : Bytes → Fin 20 → UInt8) (state : BbState Path) (path : Path)
    (buf : Bytes) (size : Nat) (offset : Int) : Option (Int × BbState Path) :=
  if path ∈ state.names then do
    let idsToRemove ←
      getOverwrittenBlocks (state.idFile path) (toInt32 size) (toInt32 offset) base
    let (_, storage) := removeBlocks idsToRemove state.toStorage
    let (compressedBuf, storage) ← compressBuffer sha1 buf (toInt32 size) storage base
    let compressedOffset := getNewOffset (toInt32 offset) base
    let compressedSize := getSize compressedBuf
    -- `pwrite` fails on a negative offset.
    let idFile := if compressedOffset < 0 then state.idFile path
      else patch (state.idFile path) compressedOffset.toNat (compressedBuf.take compressedSize)
    pure (toInt32 size, { state with toStorage := storage }.withIdFile path idFile)
  else none

/-- The call of `truncate` is commented out. -/
def bbTruncate (state : BbState Path) (_path : Path) (_newsize : Int) : Int × BbState Path :=
  (0, state)

/-- `ftruncate` of the ID list; a negative size gives `-EINVAL`. -/
def bbFtruncate (state : BbState Path) (path : Path) (offset : Int) : Int × BbState Path :=
  if offset < 0 then (-22, state)
  else (0, state.withIdFile path (resize (state.idFile path) offset.toNat))

def bbUnlink (state : BbState Path) (path : Path) : Option (Int × BbState Path) :=
  if path ∈ state.names then do
    let fileSize := toInt32 (state.idFile path).length
    let idsToRemove ←
      getOverwrittenBlocks (state.idFile path) (toInt32 (fileSize.tdiv 4 * base)) 0 base
    let (_, storage) := removeBlocks idsToRemove state.toStorage
    pure (0, { state with toStorage := storage, names := state.names.erase path })
  else none

end

end CE321.Dedup
