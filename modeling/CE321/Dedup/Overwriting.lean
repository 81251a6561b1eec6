import CE321.Dedup.PushBlock
import CE321.Dedup.Volume

/-! # What a write releases and what it replaces

`getOverwrittenBlocks` rounds the size of a write down to blocks and
`compressBuffer` rounds it up. The entries that `bb_write` releases are those its
`pwrite` replaces only where this makes no difference.
-/

namespace CE321.Dedup

open CString ByteFile

/-! ## The width of an entry -/

theorem fread_short (file : ByteFile) (count : Nat) : (file.fread count).1.length ≤ count := by
  simp [fread, slice]

theorem overlay_short {buffer received : Bytes} {bound : Nat} (bufferShort : buffer.length ≤ bound)
    (receivedShort : received.length ≤ bound) : (overlay buffer received).length ≤ bound := by
  rw [overlay, List.length_append, List.length_drop]
  omega

theorem addHashLoop_threeColumns (fuel : Nat) : ∀ {file : ByteFile} {idChar counterChar : Bytes}
    {id : Int} {position : Nat} {file' : ByteFile}, idChar.length ≤ 3 →
    addHashLoop fuel file idChar counterChar = some (id, position, file') → ThreeColumns id := by
  induction fuel with
  | zero => intro _ _ _ _ _ _ _ returned; cases returned
  | succ fuel induction =>
      intro file idChar counterChar id position file' short returned
      have idShort := overlay_short short (fread_short file 3)
      rw [addHashLoop] at returned
      simp only at returned
      split at returned
      · exact induction idShort returned
      · rcases Option.some.inj returned with ⟨rfl, _⟩
        exact atoi_threeColumns idShort

theorem compareHashLoop_threeColumns (fileSize : Nat) (inHash : Bytes) (fuel : Nat) :
    ∀ {file : ByteFile} {idChar checkHash : Bytes} {id : Int} {file' : ByteFile},
    idChar.length ≤ 3 →
    compareHashLoop fileSize inHash fuel file idChar checkHash = some (some id, file') →
    ThreeColumns id := by
  induction fuel with
  | zero => intro _ _ _ _ _ _ returned; cases returned
  | succ fuel induction =>
      intro file idChar checkHash id file' short returned
      have idShort := overlay_short short (fread_short file 3)
      rw [compareHashLoop] at returned
      split at returned
      · cases returned
      · simp only at returned
        split at returned
        · rcases Option.some.inj returned with ⟨rfl, _⟩
          exact atoi_threeColumns idShort
        · exact induction idShort returned

theorem compareHash_threeColumns {file file' : ByteFile} {inHash : Bytes} {id : Int}
    {isNewBlock : Bool} (returned : compareHash file inHash = some (id, isNewBlock, file')) :
    ThreeColumns id := by
  simp only [compareHash, Option.bind_eq_bind, Option.bind_eq_some_iff] at returned
  rcases returned with ⟨⟨found, position⟩, searched, rest⟩
  cases found with
  | none =>
      simp only [addHash, Option.bind_eq_bind, Option.bind_eq_some_iff] at rest
      rcases rest with ⟨⟨added, final⟩, ⟨⟨free, place, stopped⟩, loop, last⟩, same⟩
      rcases Option.some.inj last with ⟨rfl, _⟩
      rcases Option.some.inj same with ⟨rfl, _⟩
      exact addHashLoop_threeColumns _ (by simp) loop
  | some line =>
      rcases Option.some.inj rest with ⟨rfl, _⟩
      exact compareHashLoop_threeColumns _ _ _ (by simp) searched

section

variable {sha1 : Bytes → Fin 20 → UInt8}

theorem pushBlock_threeColumns {block : Bytes} {storage storage' : Storage} {id : Int}
    (returned : pushBlock sha1 block storage = some (id, storage')) : ThreeColumns id := by
  simp only [pushBlock, Option.bind_eq_bind, Option.bind_eq_some_iff] at returned
  rcases returned with ⟨⟨found, isNewBlock, file⟩, compared, last⟩
  rcases Option.some.inj last with ⟨rfl, _⟩
  exact compareHash_threeColumns compared

/-- Whatever the ledger holds, `compressBuffer` prints four characters for every block. -/
theorem compressBufferLoop_width {buf : Bytes} {size base : Int} (count : Nat) :
    ∀ {i : Nat} {output compressedBuf : Bytes} {storage storage' : Storage}, 0 ∉ output →
    compressBufferLoop sha1 buf size base count i output storage =
      some (compressedBuf, storage') →
    compressedBuf.length = output.length + 4 * count ∧ 0 ∉ compressedBuf := by
  induction count with
  | zero =>
      intro i output compressedBuf storage storage' zeroFree returned
      rcases Option.some.inj returned with ⟨rfl, _⟩
      exact ⟨by simp, zeroFree⟩
  | succ count induction =>
      intro i output compressedBuf storage storage' zeroFree returned
      simp only [compressBufferLoop, Option.bind_eq_bind, Option.bind_eq_some_iff] at returned
      rcases returned with ⟨_, _, ⟨numId, middle⟩, pushed, rest⟩
      rcases sprintfDecimal_threeColumns (pushBlock_threeColumns pushed) with ⟨width, idZeroFree⟩
      rcases induction (by simpa [zeroFree] using idZeroFree) rest with ⟨length, free⟩
      refine ⟨?_, free⟩
      rw [length, List.length_append, List.length_append, width, List.length_singleton]
      omega

theorem compressBuffer_width {buf compressedBuf : Bytes} {size base : Int}
    {storage storage' : Storage}
    (returned : compressBuffer sha1 buf size storage base = some (compressedBuf, storage')) :
    compressedBuf.length =
        4 * (size.tdiv base + if size.tmod base ≠ 0 then 1 else 0).toNat ∧
      0 ∉ compressedBuf := by
  simp only [compressBuffer] at returned
  generalize (size.tdiv base + if size.tmod base ≠ 0 then 1 else 0) = nofBlocks at returned ⊢
  split at returned
  · cases returned
  · rcases compressBufferLoop_width _ List.not_mem_nil returned with ⟨length, zeroFree⟩
    exact ⟨by simpa using length, zeroFree⟩

/-! ## The write -/

/-- What a `pwrite` of a buffer takes the place of, which is nothing where it fails. -/
def replaced (idFile : Bytes) (offset : Int) (new : Bytes) : Bytes :=
  if offset < 0 then [] else slice idFile offset.toNat new.length

variable {Path : Type} [DecidableEq Path] {state state' : BbState Path} {path : Path}
  {buf : Bytes} {size : Nat} {offset result : Int}

theorem bbWrite_steps (returned : bbWrite sha1 state path buf size offset =
      some (result, state')) :
    ∃ idsToRemove compressedBuf final,
      getOverwrittenBlocks (state.idFile path) (toInt32 size) (toInt32 offset) base =
        some idsToRemove ∧
      compressBuffer sha1 buf (toInt32 size) (removeBlocks idsToRemove state.toStorage).2 base =
        some (compressedBuf, final) ∧
      state' = { state with toStorage := final }.withIdFile path
        (if getNewOffset (toInt32 offset) base < 0 then state.idFile path
        else patch (state.idFile path) (getNewOffset (toInt32 offset) base).toNat
          (compressedBuf.take (getSize compressedBuf))) := by
  rw [bbWrite] at returned
  split at returned
  · simp only [Option.bind_eq_bind, Option.bind_eq_some_iff] at returned
    rcases returned with ⟨idsToRemove, overwritten, ⟨compressedBuf, final⟩, compressed, last⟩
    exact ⟨idsToRemove, compressedBuf, final, overwritten, compressed,
      (Prod.mk.inj (Option.some.inj last)).2.symm⟩
  · cases returned

theorem releasedIds_idText {ids : List Nat} (small : ∀ id ∈ ids, id < 1000) :
    releasedIds (idText ids) = ids := by
  have entriesSmall : Small (ids.map some) := fun id member => by
    rcases List.mem_map.mp member with ⟨other, otherMember, equal⟩
    exact Option.some.inj equal ▸ small other otherMember
  rw [← entriesText_ids, releasedIds_entriesText entriesSmall, leadingIds_map_some]

theorem slice_idText_range {ids : List Nat} (small : ∀ id ∈ ids, id < 1000) (index count : Nat) :
    slice (idText ids) (4 * index) (4 * count) = idText ((ids.drop index).take count) := by
  have entriesSmall : Small (ids.map some) := fun id member => by
    rcases List.mem_map.mp member with ⟨other, otherMember, equal⟩
    exact Option.some.inj equal ▸ small other otherMember
  rw [← entriesText_ids, slice_entriesText entriesSmall, ← List.map_drop, ← List.map_take,
    entriesText_ids]

theorem take_eq_take_succ_iff {Element : Type*} (list : List Element) (count extra : Nat)
    (few : extra ≤ 1) :
    list.take count = list.take (count + extra) ↔ extra = 0 ∨ list.length ≤ count := by
  constructor
  · intro same
    have lengths := congrArg List.length same
    rw [List.length_take, List.length_take] at lengths
    omega
  · rintro (rfl | short)
    · rfl
    · rw [List.take_of_length_le short, List.take_of_length_le (by omega)]

omit [DecidableEq Path] in
/-- The IDs released are those replaced if and only if the size is a multiple of the block
size or the list ends where the whole blocks of the write do; where the offset is
negative as an `int`, `pwrite` fails and nothing may be released. -/
theorem released_eq_replaced_iff {ids : List Nat} (text : state.idFile path = idText ids)
    (small : ∀ id ∈ ids, id < 1000) {idsToRemove compressedBuf : Bytes} {storage final : Storage}
    (overwritten : getOverwrittenBlocks (state.idFile path) (toInt32 size) (toInt32 offset) base =
      some idsToRemove)
    (compressed : compressBuffer sha1 buf (toInt32 size) storage base =
      some (compressedBuf, final)) :
    releasedIds idsToRemove = releasedIds (replaced (state.idFile path)
        (getNewOffset (toInt32 offset) base) (compressedBuf.take (getSize compressedBuf))) ↔
      if toInt32 offset ≤ -4096 then toInt32 size < 4096 ∨ ids = []
      else 4096 ∣ toInt32 size ∨
        (ids.length : Int) ≤ (toInt32 offset).tdiv 4096 + (toInt32 size).tdiv 4096 := by
  generalize toInt32 offset = offset at *
  generalize toInt32 size = size at *
  rcases compressBuffer_width compressed with ⟨width, zeroFree⟩
  have wholeBuffer : compressedBuf.take (getSize compressedBuf) = compressedBuf := by
    rw [getSize, strlen_of_zero_free zeroFree, List.take_length]
  have baseValue : ((base : Nat) : Int) = 4096 := rfl
  rw [getOverwrittenBlocks, getNewOffset, baseValue] at overwritten
  rw [wholeBuffer, getNewOffset, replaced, text, width, baseValue]
  split at overwritten
  · cases overwritten
  next enough =>
  have released := Option.some.inj overwritten
  have part : ∀ index count, ∀ id ∈ (ids.drop index).take count, id < 1000 :=
    fun index count id member => small id (List.mem_of_mem_drop (List.mem_of_mem_take member))
  have sizeCases := tdiv_cases size
  have offsetCases := tdiv_cases offset
  have divides : 4096 ∣ size ↔ size.tmod 4096 = 0 := Int.dvd_iff_tmod_eq_zero
  rw [divides]
  generalize size.tmod 4096 = remainder
  generalize size.tdiv 4096 = wholeBlocks at *
  generalize offset.tdiv 4096 = skipped at *
  rcases Int.eq_ofNat_of_zero_le (show 0 ≤ wholeBlocks by omega) with ⟨count, rfl⟩
  have countWidth : ((count : Int) * 4).toNat = 4 * count := by omega
  rw [text, countWidth] at released
  by_cases fails : offset ≤ -4096
  · have start : (skipped * 4).toNat = 4 * 0 := by omega
    have nothing : releasedIds [] = [] := rfl
    rw [start, slice_idText_range small] at released
    rw [if_pos fails, if_pos (by omega), nothing, ← released, releasedIds_idText (part 0 count),
      List.drop_zero, List.take_eq_nil_iff]
    apply or_congr_left
    omega
  · rcases Int.eq_ofNat_of_zero_le (show 0 ≤ skipped by omega) with ⟨index, rfl⟩
    have start : ((index : Int) * 4).toNat = 4 * index := by omega
    rcases (show ∃ extra ≤ 1, (if remainder ≠ 0 then (1 : Int) else 0) = (extra : Nat) ∧
        (extra = 0 ↔ remainder = 0) by
      by_cases whole : remainder = 0
      · exact ⟨0, by simp [whole]⟩
      · exact ⟨1, by simp [whole]⟩) with ⟨extra, few, equal, whole⟩
    have blocks : ((count : Int) + (extra : Nat)).toNat = count + extra := by omega
    rw [start, slice_idText_range small] at released
    rw [if_neg fails, if_neg (by omega), start, equal, blocks, slice_idText_range small, ← released,
      releasedIds_idText (part index count), releasedIds_idText (part index (count + extra)),
      take_eq_take_succ_iff _ _ _ few, List.length_drop, whole]
    apply or_congr_right
    omega

/-- Every `bb_write` on a file with an ID list: what it hands to `removeBlocks` against
what its `pwrite` replaces. -/
theorem write_releases_replaced_iff (state : BbState Path) (path : Path) (ids : List Nat)
    (text : state.idFile path = idText ids) (small : ∀ id ∈ ids, id < 1000) (buf : Bytes)
    (size : Nat) (offset : Int) (result : Int) (state' : BbState Path)
    (returned : bbWrite sha1 state path buf size offset = some (result, state')) :
    ∃ idsToRemove compressedBuf final,
      getOverwrittenBlocks (state.idFile path) (toInt32 size) (toInt32 offset) base =
        some idsToRemove ∧
      compressBuffer sha1 buf (toInt32 size) (removeBlocks idsToRemove state.toStorage).2 base =
        some (compressedBuf, final) ∧
      state' = { state with toStorage := final }.withIdFile path
        (if getNewOffset (toInt32 offset) base < 0 then state.idFile path
        else patch (state.idFile path) (getNewOffset (toInt32 offset) base).toNat
          (compressedBuf.take (getSize compressedBuf))) ∧
      (releasedIds idsToRemove = releasedIds (replaced (state.idFile path)
          (getNewOffset (toInt32 offset) base) (compressedBuf.take (getSize compressedBuf))) ↔
        if toInt32 offset ≤ -4096 then toInt32 size < 4096 ∨ ids = []
        else 4096 ∣ toInt32 size ∨
          (ids.length : Int) ≤ (toInt32 offset).tdiv 4096 + (toInt32 size).tdiv 4096) := by
  rcases bbWrite_steps returned with
    ⟨idsToRemove, compressedBuf, final, overwritten, compressed, after⟩
  exact ⟨idsToRemove, compressedBuf, final, overwritten, compressed, after,
    released_eq_replaced_iff text small overwritten compressed⟩

end

/-! ## A file of one block -/

/-- A file of one block. -/
def fileOfA : BbState Unit where
  toStorage := storageOfA 1 one_small
  names := {()}
  idFile := fun _ => idText [1]

theorem fileOfA_write : ∃ result state',
    bbWrite sha1OfLetters fileOfA () [98] 1 0 = some (result, state') := by
  have returns : (bbWrite sha1OfLetters fileOfA () [98] 1 0).isSome = true := by
    decide +kernel
  rcases Option.isSome_iff_exists.mp returns with ⟨⟨result, state'⟩, returned⟩
  exact ⟨result, state', returned⟩

theorem fileOfA_overwrite : ∃ result state',
    bbWrite sha1OfLetters fileOfA () (List.replicate 4096 98) 4096 0 = some (result, state') := by
  have returns : (bbWrite sha1OfLetters fileOfA () (List.replicate 4096 98) 4096 0).isSome =
      true := by decide +kernel
  rcases Option.isSome_iff_exists.mp returns with ⟨⟨result, state'⟩, returned⟩
  exact ⟨result, state', returned⟩

/-- A write of one block over the file releases the entry that it replaces. -/
theorem write_releases_replaced_iff_overwrite : ∃ idsToRemove compressedBuf,
    releasedIds idsToRemove = [1] ∧
    releasedIds idsToRemove = releasedIds (replaced (fileOfA.idFile ())
      (getNewOffset (toInt32 0) base) (List.take (getSize compressedBuf) compressedBuf)) := by
  rcases fileOfA_overwrite with ⟨result, state', returned⟩
  rcases write_releases_replaced_iff fileOfA () [1] rfl (by decide) (List.replicate 4096 98) 4096 0
    result state' returned with ⟨idsToRemove, compressedBuf, final, overwritten, _, _, exact⟩
  have given : getOverwrittenBlocks (fileOfA.idFile ()) (toInt32 (4096 : Nat)) (toInt32 0) base =
      some (idText [1]) := by decide +kernel
  obtain rfl := Option.some.inj (overwritten.symm.trans given)
  exact ⟨idText [1], compressedBuf, releasedIds_idText (by decide), exact.mpr (by decide)⟩

/-- A write of one byte over the file of one block releases nothing and replaces the
entry. -/
theorem write_keeps_reference : ∃ result state',
    bbWrite sha1OfLetters fileOfA () [98] 1 0 = some (result, state') ∧
    ∃ idsToRemove compressedBuf final,
      getOverwrittenBlocks (fileOfA.idFile ()) (toInt32 (1 : Nat)) (toInt32 0) base =
        some idsToRemove ∧
      compressBuffer sha1OfLetters [98] (toInt32 (1 : Nat))
        (removeBlocks idsToRemove fileOfA.toStorage).2 base = some (compressedBuf, final) ∧
      releasedIds idsToRemove ≠ releasedIds (replaced (fileOfA.idFile ())
        (getNewOffset (toInt32 0) base) (compressedBuf.take (getSize compressedBuf))) := by
  rcases fileOfA_write with ⟨result, state', returned⟩
  rcases bbWrite_steps returned with
    ⟨idsToRemove, compressedBuf, final, overwritten, compressed, _⟩
  have exact := @released_eq_replaced_iff sha1OfLetters Unit fileOfA () [98] 1 0 [1] rfl
    (by decide) idsToRemove compressedBuf _ final overwritten compressed
  refine ⟨result, state', returned, idsToRemove, compressedBuf, final, overwritten, compressed,
    fun same => ?_⟩
  have condition := exact.mp same
  revert condition
  decide

end CE321.Dedup
