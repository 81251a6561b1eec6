import CE321.Foundation.ByteFile

/-! # The block library, `our_lib.c`

The functions that keep file contents as shared blocks. `hash_ledger` is one
stream that every function repositions for itself; block number `id` is the file
`BLddd` of the storage directory. What is printed to the diagnostics file is left out,
but not that the data written is a format string there.

A result `none` stands for a call that does not return: a loop without end, a null
pointer followed, or what C leaves undefined. Stack buffers are the bytes written to
them so far.
-/

namespace CE321.Dedup

open CString ByteFile

/-- The storage directory: the open ledger stream and the block files. -/
structure Storage where
  hashFile : ByteFile
  block : Int → Option Bytes

/-- Conversion to `int` of a wider integer. -/
def toInt32 (value : Int) : Int := value.bmod (2 ^ 32)

def getNewOffset (offset base : Int) : Int := offset.tdiv base * 4

def getSize (input : Bytes) : Nat := strlen input

/-! ## The ledger -/

def zeroHash : Bytes := List.replicate 20 48

/-- `"%03d, 00000000000000000000, 00\n"`. -/
def endLine (id : Int) : Bytes :=
  sprintfDecimal 3 id ++ ([44, 32] ++ (zeroHash ++ ([44, 32] ++ ([48, 48] ++ [10]))))

/-- The do-while loop of `addHash`: the ID of the line it stops on, the position
behind that line and the stream. The loop has no test for the end of the file;
`fuel` bounds its rounds. -/
def addHashLoop : (fuel : Nat) → ByteFile → (idChar counterChar : Bytes) →
    Option (Int × Nat × ByteFile)
  | 0, _, _, _ => none
  | fuel + 1, file, idChar, counterChar =>
      let (received, file) := file.fread 3
      let idChar := overlay idChar received
      let id := atoi idChar
      let file := file.fseekCur 25
      -- Three bytes of ID and 25 more: the two bytes read are the second digit of
      -- the counter and the line's '\n', which also ends the number for `atoi`.
      let (received, file) := file.fread 2
      let counterChar := overlay counterChar received
      let counter := atoi counterChar
      let curPosition := file.ftell
      if counter ≠ 0 then addHashLoop fuel file idChar counterChar
      else some (id, curPosition, file)

def addHash (file : ByteFile) (hashFileSize : Nat) (newHash : Bytes) :
    Option (Int × ByteFile) := do
  let (id, curPosition, file) ← addHashLoop (hashFileSize + 1) (file.fseekSet 0) [] []
  let file := if curPosition = hashFileSize then
    file.fwrite ((endLine (id + 1)).take 30) else file
  let file := file.fseekSet (curPosition - 25)
  let file := file.fwrite (newHash.take 20)
  let file := file.fseekCur 2
  let file := file.fwrite [48, 49]
  pure (id, file)

/-- `fopen(.., "wb+")`, `fwrite` of the C string and `fclose`. -/
def createBlock (storage : Storage) (block : Bytes) (id : Int) : Storage :=
  { storage with block := Function.update storage.block id (some (contents block)) }

/-- The search loop of `compareHash`: the ID of the first line that carries the
hash, or no ID when the position reaches the end of the file. -/
def compareHashLoop (fileSize : Nat) (inHash : Bytes) :
    (fuel : Nat) → ByteFile → (idChar checkHash : Bytes) → Option (Option Int × ByteFile)
  | 0, _, _, _ => none
  | fuel + 1, file, idChar, checkHash =>
      if file.ftell = fileSize then some (none, file)
      else
        let (received, file) := file.fread 3
        let idChar := overlay idChar received
        let id := atoi idChar
        let file := file.fseekCur 2
        let (received, file) := file.fread 20
        let checkHash := overlay checkHash received
        let file := file.fseekCur 5
        if strcmpEq checkHash inHash then some (some id, file)
        else compareHashLoop fileSize inHash fuel file idChar checkHash

/-- The ID for the hash, whether a block file must be created, and the ledger. -/
def compareHash (file : ByteFile) (inHash : Bytes) : Option (Int × Bool × ByteFile) := do
  let fileSize := file.fseekEnd.ftell
  let (found, file) ←
    compareHashLoop fileSize inHash (fileSize + 1) (file.fseekSet 0) [] zeroHash
  match found with
  | none =>
      let (id, file) ← addHash (file.fseekSet 0) fileSize inHash
      pure (id, true, file)
  | some id =>
      let file := file.fseekCur (-3)
      let (counterChar, file) := file.fread 2
      let counter := atoi counterChar
      let isNewBlock := counter == 0
      let file := file.fseekCur (-2)
      -- Only two characters of the number go to the file, whatever its length.
      let file := file.fwrite ((sprintfDecimal 2 (counter + 1)).take 2)
      pure (id, isNewBlock, file)

/-! ## Storing blocks -/

section

-- `SHA1` of the crypto library: a digest of 20 bytes.
variable (sha1 : Bytes → Fin 20 → UInt8)

/-- One character of `"%02x"`. -/
def hexDigit (nibble : Nat) : UInt8 :=
  UInt8.ofNat (if nibble < 10 then 48 + nibble else 87 + nibble)

/-- The first 20 hexadecimal digits of the digest. -/
def getHash (input : Bytes) : Bytes :=
  let hash := sha1 (contents input)
  let buf := (List.finRange 20).flatMap fun i =>
    [hexDigit ((hash i).toNat / 16), hexDigit ((hash i).toNat % 16)]
  buf.take 20

def pushBlock (block : Bytes) (storage : Storage) : Option (Int × Storage) := do
  let hash := getHash sha1 block
  let (id, isNewBlock, file) ← compareHash storage.hashFile hash
  let storage := { storage with hashFile := file }
  pure (id, if isNewBlock then createBlock storage block id else storage)

/-- Block `i` of the buffer: the characters up to `base` of them or the end. -/
def segment (buf : Bytes) (size base i : Int) : Bytes :=
  (buf.drop (i * base).toNat).take (min base (size - i * base)).toNat

/-- The loop of `compressBuffer` from block `i` on, with `count` blocks to go. -/
def compressBufferLoop (buf : Bytes) (size base : Int) :
    (count : Nat) → (i : Nat) → (output : Bytes) → Storage → Option (Bytes × Storage)
  | 0, _, output, storage => some (output, storage)
  | count + 1, i, output, storage => do
      let block := segment buf size base i
      fprintf block
      let (numId, storage) ← pushBlock sha1 block storage
      compressBufferLoop buf size base count (i + 1)
        (output ++ (sprintfDecimal 3 numId ++ [10])) storage

def compressBuffer (buf : Bytes) (size : Int) (storage : Storage) (base : Int) :
    Option (Bytes × Storage) :=
  let nofBlocks := size.tdiv base + if size.tmod base ≠ 0 then 1 else 0
  if nofBlocks * 4 + 1 < 0 then none
  else compressBufferLoop sha1 buf size base nofBlocks.toNat 0 [] storage

end

/-! ## Reading blocks -/

/-- What fresh storage holds before anything is written to it: the four characters of
`readFile` and `findRealSize` on the stack, and each block buffer that `malloc`
returns. -/
structure Fresh where
  idChar : Bytes
  block : Nat → Nat → UInt8

/-- The block's contents in a fresh buffer of `base` characters, `none` for `NULL`. -/
def readBlock (storage : Storage) (id : Int) (base : Nat) (malloced : Nat → UInt8) :
    Option Bytes :=
  (storage.block id).map fun data =>
    overlay ((List.range base).map malloced) (data.take base)

/-- The loop of `readFile` with `count` blocks to go, after `i` of them. -/
def readFileLoop (storage : Storage) (base : Nat) (fresh : Fresh) :
    (count : Nat) → (i : Nat) → ByteFile → (idChar readResult : Bytes) → Option Bytes
  | 0, _, _, _, readResult => some readResult
  | count + 1, i, file, idChar, readResult => do
      let (received, file) := file.fread 4
      let idChar := overlay idChar received
      let id := atoi idChar
      let newBlock ← readBlock storage id base (fresh.block i)
      readFileLoop storage base fresh count (i + 1) file idChar
        (readResult ++ contents newBlock)

def readFile (storage : Storage) (size : Nat) (offset : Int) (file : ByteFile) (base : Nat)
    (fresh : Fresh) : Option Bytes :=
  let offsetBlock := getNewOffset (toInt32 offset) base
  let noBlocks := size / 4
  if noBlocks = 0 then none
  else readFileLoop storage base fresh noBlocks 0
    ((file.fseekSet 0).fseekCur offsetBlock) (fresh.idChar.take 4) []

/-! ## Releasing blocks -/

/-- The IDs in the list file where the write will go; a request for a negative
number of bytes gets no memory. -/
def getOverwrittenBlocks (idFile : Bytes) (size offset base : Int) : Option Bytes :=
  let skip := getNewOffset offset base
  let wanted := size.tdiv base * 4
  if wanted + 1 < 0 then none
  else some (slice idFile skip.toNat wanted.toNat)

/-- The loop of `removeBlocks` from entry `j` on, with `count` entries to go. -/
def removeBlocksLoop (input : Bytes) :
    (count : Nat) → (j : Nat) → (counterChar : Bytes) → Storage → Int × Storage
  | 0, _, _, storage => (0, storage)
  | count + 1, j, counterChar, storage =>
      let idToRemove := atoi (slice input (j * 4) 3)
      let file := storage.hashFile.fseekSet 0
      let file := (fun file : ByteFile => file.fseekCur 30)^[(idToRemove - 1).toNat] file
      let file := file.fseekCur 27
      let (received, file) := file.fread 2
      let counterChar := overlay counterChar received
      let counter := atoi counterChar - 1
      let (counterChar, file) :=
        if counter ≥ 0 then
          let counterChar := sprintfDecimal 2 counter
          (counterChar, (file.fseekCur (-2)).fwrite (counterChar.take 2))
        else (counterChar, file)
      let storage := { storage with hashFile := file }
      if counter = 0 then
        -- `remove` fails on a file that does not exist.
        if storage.block idToRemove = none then (1, storage)
        else removeBlocksLoop input count (j + 1) counterChar
          { storage with block := Function.update storage.block idToRemove none }
      else removeBlocksLoop input count (j + 1) counterChar storage

/-- Releases the IDs of a string of entries `"ddd\n"`. -/
def removeBlocks (input : Bytes) (storage : Storage) : Int × Storage :=
  removeBlocksLoop input (strlen input / 4) 0 [] storage

/-! ## Sizes -/

/-- The loop of `findRealSize`. -/
def findRealSizeLoop (storage : Storage) (base : Nat) (fresh : Fresh) :
    (count : Nat) → (i : Nat) → ByteFile → (idChar : Bytes) → (totalBytes : Int) → Int
  | 0, _, _, _, totalBytes => totalBytes
  | count + 1, i, file, idChar, totalBytes =>
      let (received, file) := file.fread 4
      let idChar := overlay idChar received
      let id := atoi idChar
      match readBlock storage id base (fresh.block i) with
      | none => -2
      | some block =>
          findRealSizeLoop storage base fresh count (i + 1) file idChar
            (toInt32 (totalBytes + strlen block))

def findRealSize (storage : Storage) (size : Nat) (fileIDs : Option Bytes) (base : Nat)
    (fresh : Fresh) : Int :=
  match fileIDs with
  | none => -1
  | some data =>
      findRealSizeLoop storage base fresh (size / 4) 0 ⟨data, 0⟩ (fresh.idChar.take 4) 0

end CE321.Dedup
