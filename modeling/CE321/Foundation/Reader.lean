import CE321.Foundation.CString

/-! # Streams with an end-of-file flag

A `FILE *` that is read byte by byte: a read at the end of the file gets nothing and sets the
flag, and a seek backward clears it.
-/

namespace CE321

/-- The bytes behind the position, the last one first, and those ahead of it. -/
@[ext] structure Reader where
  behind : Bytes
  ahead : Bytes
  eof : Bool
  deriving DecidableEq

namespace Reader

/-- A stream that has read some bytes and has others ahead. -/
def within (before after : Bytes) : Reader := ⟨before.reverse, after, false⟩

/-- `fread` of one byte. -/
def fread (file : Reader) : Option UInt8 × Reader :=
  match file.ahead with
  | [] => (none, { file with eof := true })
  | byte :: rest => (some byte, { file with behind := byte :: file.behind, ahead := rest })

/-- `fseek(file, -count, SEEK_CUR)`: a seek before the first byte fails. -/
def seekBack (file : Reader) (count : Nat) : Reader :=
  if count ≤ file.behind.length then
    ⟨file.behind.drop count, (file.behind.take count).reverse ++ file.ahead, false⟩
  else file

/-- Reads as long as the bytes are of a kind. The first other byte is pushed back. -/
def readWhile (file : Reader) (kind : UInt8 → Bool) : Bytes × Reader :=
  (file.ahead.takeWhile kind,
    ⟨(file.ahead.takeWhile kind).reverse ++ file.behind, file.ahead.dropWhile kind,
      file.eof || (file.ahead.dropWhile kind).isEmpty⟩)

/-- Reads up to the first byte that is not of a kind, that byte included. -/
def readPast (file : Reader) (kind : UInt8 → Bool) : Bytes × Reader :=
  let (bytes, file) := file.readWhile kind
  (bytes, file.fread.2)

variable {before after bytes : Bytes} {byte : UInt8} {kind : UInt8 → Bool}

theorem fread_nil : (within before []).fread = (none, { within before [] with eof := true }) := rfl

theorem fread_cons : (within before (byte :: after)).fread =
    (some byte, within (before ++ [byte]) after) := by
  simp [within, fread]

theorem seekBack_within : (within (before ++ bytes) after).seekBack bytes.length =
    within before (bytes ++ after) := by
  simp [within, seekBack]

/-- A seek clears the flag. -/
theorem seekBack_atEnd : ({ within (before ++ bytes) after with eof := true } : Reader).seekBack
    bytes.length = within before (bytes ++ after) := by
  simp [within, seekBack]

/-- A stream in which the byte ahead was looked for. -/
def looked (before after : Bytes) : Reader := ⟨before.reverse, after, after.isEmpty⟩

theorem looked_cons : looked before (byte :: after) = within before (byte :: after) := rfl

theorem looked_nil : looked before [] = { within before [] with eof := true } := rfl

/-- The bytes of a kind in front of one of another kind, or of the end of the file. -/
theorem readWhile_within (all : ∀ byte ∈ bytes, kind byte = true)
    (stops : ∀ byte, after.head? = some byte → kind byte = false) :
    (within before (bytes ++ after)).readWhile kind = (bytes, looked (before ++ bytes) after) := by
  have taken : after.takeWhile kind = [] := by
    cases after with
    | nil => rfl
    | cons byte after => simp [stops byte rfl]
  have dropped : after.dropWhile kind = after := by
    cases after with
    | nil => rfl
    | cons byte after => simp [stops byte rfl]
  simp [readWhile, within, looked, List.takeWhile_append_of_pos all, List.dropWhile_append_of_pos all,
    taken, dropped]

theorem readPast_cons (all : ∀ byte ∈ bytes, kind byte = true) (stops : kind byte = false) :
    (within before (bytes ++ byte :: after)).readPast kind =
      (bytes, within (before ++ bytes ++ [byte]) after) := by
  have read := @readWhile_within before (byte :: after) bytes kind all fun other first => by
    cases first
    exact stops
  rw [readPast, read, looked_cons]
  simp only [fread_cons]

theorem readPast_atEnd (all : ∀ byte ∈ bytes, kind byte = true) :
    (within before bytes).readPast kind = (bytes, looked (before ++ bytes) []) := by
  have read := @readWhile_within before [] bytes kind all fun other first => by cases first
  rw [List.append_nil] at read
  rw [readPast, read]
  rfl

end Reader

end CE321
