import CE321.Dedup.Overwriting

/-! # What every run keeps

Whatever happens to the ledger, every ID list consists of whole entries, and the block
files hold strings of at most one block.
-/

namespace CE321.Dedup

open CString ByteFile

/-! ## Block files -/

theorem removeBlocksLoop_round (input : Bytes) (count j : Nat) (counterChar : Bytes)
    (storage : Storage) : ∃ (id counter : Int) (counterChar' : Bytes) (file : ByteFile),
    removeBlocksLoop input (count + 1) j counterChar storage =
      if counter = 0 then
        if storage.block id = none then (1, ⟨file, storage.block⟩)
        else removeBlocksLoop input count (j + 1) counterChar'
          ⟨file, Function.update storage.block id none⟩
      else removeBlocksLoop input count (j + 1) counterChar' ⟨file, storage.block⟩ :=
  ⟨_, _, _, _, rfl⟩

theorem removeBlocksLoop_origin {input : Bytes} (count : Nat) :
    ∀ {j : Nat} {counterChar : Bytes} {storage : Storage} {key : Int} {data : Bytes},
    (removeBlocksLoop input count j counterChar storage).2.block key = some data →
    storage.block key = some data := by
  induction count with
  | zero => exact fun found => found
  | succ count induction =>
      intro j counterChar storage key data found
      rcases removeBlocksLoop_round input count j counterChar storage with
        ⟨id, counter, counterChar', file, round⟩
      rw [round] at found
      split at found
      · split at found
        · exact found
        · have kept := induction found
          by_cases same : key = id
          · simp [same] at kept
          · simpa [same] using kept
      · have kept := induction found
        exact kept

theorem removeBlocks_origin {input : Bytes} {storage : Storage} {id : Int} {data : Bytes}
    (found : (removeBlocks input storage).2.block id = some data) :
    storage.block id = some data :=
  removeBlocksLoop_origin _ found

/-- The string in a block file, and it is no longer than a block. -/
def BlocksFit (storage : Storage) : Prop :=
  ∀ id data, storage.block id = some data → 0 ∉ data ∧ data.length ≤ 4096

section

variable {sha1 : Bytes → Fin 20 → UInt8}

/-- `PushBlock` changes no block file but the one it returns the ID of. -/
theorem pushBlock_blocks {block : Bytes} {storage storage' : Storage} {id : Int}
    (returned : pushBlock sha1 block storage = some (id, storage')) :
    storage'.block = storage.block ∨
      storage'.block = Function.update storage.block id (some (contents block)) := by
  simp only [pushBlock, Option.bind_eq_bind, Option.bind_eq_some_iff] at returned
  rcases returned with ⟨⟨found, isNewBlock, file⟩, _, last⟩
  rcases Option.some.inj last with ⟨rfl, _⟩
  cases isNewBlock with
  | false => exact .inl rfl
  | true => exact .inr rfl

theorem BlocksFit.pushBlock {storage storage' : Storage} (fit : BlocksFit storage)
    {block : Bytes} {id : Int} (short : block.length ≤ 4096)
    (returned : pushBlock sha1 block storage = some (id, storage')) : BlocksFit storage' := by
  intro key data found
  rcases pushBlock_blocks returned with same | updated
  · rw [same] at found
    exact fit key data found
  · rw [updated] at found
    by_cases here : key = id
    · rw [here, Function.update_self] at found
      obtain rfl := Option.some.inj found
      exact ⟨contents_zero_free block, (List.takeWhile_prefix _).length_le.trans short⟩
    · rw [Function.update_of_ne here] at found
      exact fit key data found

theorem segment_length_le (buf : Bytes) (size i : Int) : (segment buf size 4096 i).length ≤ 4096 := by
  rw [segment, List.length_take]
  omega

theorem BlocksFit.compressBufferLoop {buf : Bytes} {size : Int} (count : Nat) :
    ∀ {i : Nat} {output compressedBuf : Bytes} {storage storage' : Storage}, BlocksFit storage →
    compressBufferLoop sha1 buf size 4096 count i output storage =
      some (compressedBuf, storage') → BlocksFit storage' := by
  induction count with
  | zero =>
      intro i output compressedBuf storage storage' fit returned
      rcases Option.some.inj returned with ⟨rfl, rfl⟩
      exact fit
  | succ count induction =>
      intro i output compressedBuf storage storage' fit returned
      simp only [Dedup.compressBufferLoop, Option.bind_eq_bind, Option.bind_eq_some_iff] at returned
      rcases returned with ⟨_, _, ⟨numId, middle⟩, pushed, rest⟩
      exact induction (fit.pushBlock (segment_length_le buf size i) pushed) rest

theorem BlocksFit.compressBuffer {buf compressedBuf : Bytes} {size : Int}
    {storage storage' : Storage} (fit : BlocksFit storage)
    (returned : compressBuffer sha1 buf size storage base = some (compressedBuf, storage')) :
    BlocksFit storage' := by
  simp only [Dedup.compressBuffer] at returned
  generalize (size.tdiv base + if size.tmod base ≠ 0 then 1 else 0) = nofBlocks at returned
  split at returned
  · cases returned
  · exact BlocksFit.compressBufferLoop _ fit returned

theorem BlocksFit.removeBlocks {storage : Storage} (fit : BlocksFit storage) (input : Bytes) :
    BlocksFit (removeBlocks input storage).2 := fun id data found =>
  fit id data (removeBlocks_origin found)

/-! ## Runs -/

/-- Every ID list has whole entries, at most `2 ^ 20` of them. -/
structure StateFits {Path : Type} (state : BbState Path) : Prop where
  width : ∀ path, 4 ∣ (state.idFile path).length
  short : ∀ path, (state.idFile path).length ≤ 4194304
  fit : BlocksFit state.toStorage

variable {Path : Type} [DecidableEq Path] {state state' : BbState Path}

omit [DecidableEq Path] in
theorem StateFits.init : StateFits (bbInit : BbState Path) where
  width := by simp [bbInit]
  short := by simp [bbInit]
  fit := by intro id data found; cases found

theorem tdiv_range (value : Int) :
    -524288 ≤ (toInt32 value).tdiv 4096 ∧ (toInt32 value).tdiv 4096 < 524288 := by
  have range := toInt32_range value
  have quotient := tdiv_cases (toInt32 value)
  omega

theorem patch_bound {old width : Nat} {skipped blocks extra : Int} (oldWidth : 4 ∣ old)
    (oldShort : old ≤ 4194304) (inside : ¬skipped * 4 < 0) (skippedRange : skipped < 524288)
    (blocksRange : blocks < 524288) (extraRange : extra ≤ 1)
    (length : width = 4 * (blocks + extra).toNat) :
    4 ∣ max old ((skipped * 4).toNat + width) ∧
      max old ((skipped * 4).toNat + width) ≤ 4194304 := by
  omega

theorem StateFits.write (fits : StateFits state) {path : Path} {buf : Bytes}
    {size : Nat} {offset result : Int}
    (returned : bbWrite sha1 state path buf size offset = some (result, state')) :
    StateFits state' := by
  rcases bbWrite_steps returned with
    ⟨idsToRemove, compressedBuf, final, overwritten, compressed, rfl⟩
  rcases compressBuffer_width compressed with ⟨width, zeroFree⟩
  have wholeBuffer : compressedBuf.take (getSize compressedBuf) = compressedBuf := by
    rw [getSize, strlen_of_zero_free zeroFree, List.take_length]
  have baseValue : ((base : Nat) : Int) = 4096 := rfl
  have sizeRange := tdiv_range size
  have offsetRange := tdiv_range offset
  rw [wholeBuffer, getNewOffset]
  rw [baseValue] at width ⊢
  generalize (toInt32 size).tdiv 4096 = wholeBlocks at *
  generalize (toInt32 offset).tdiv 4096 = skipped at *
  have lists : ∀ other, 4 ∣ ((({ state with toStorage := final } : BbState Path).withIdFile path
        (if skipped * 4 < 0 then state.idFile path
        else patch (state.idFile path) (skipped * 4).toNat compressedBuf)).idFile other).length ∧
      ((({ state with toStorage := final } : BbState Path).withIdFile path
        (if skipped * 4 < 0 then state.idFile path
        else patch (state.idFile path) (skipped * 4).toNat compressedBuf)).idFile other).length ≤
          4194304 := by
    intro other
    have oldWidth := fits.width other
    have oldShort := fits.short other
    by_cases here : other = path
    · subst here
      simp only [BbState.withIdFile, Function.update_self]
      split
      · exact ⟨oldWidth, oldShort⟩
      · next inside =>
          have extra : (if (toInt32 size).tmod 4096 ≠ 0 then (1 : Int) else 0) ≤ 1 := by
            split <;> omega
          rw [patch_length]
          split
          · exact ⟨oldWidth, oldShort⟩
          · exact patch_bound oldWidth oldShort inside offsetRange.2 sizeRange.2 extra width
    · simp only [BbState.withIdFile, Function.update_of_ne here]
      exact ⟨oldWidth, oldShort⟩
  exact ⟨fun other => (lists other).1, fun other => (lists other).2,
    (fits.fit.removeBlocks idsToRemove).compressBuffer compressed⟩

theorem StateFits.step (fits : StateFits state) {op : Op Path}
    (returned : bbStep sha1 state op = some state') : StateFits state' := by
  cases op with
  | mknod path =>
      rw [bbStep, bbMknod] at returned
      split at returned
      · cases returned
      · obtain rfl := Option.some.inj returned
        have lists : ∀ other, Function.update state.idFile path [] other = [] ∨
            Function.update state.idFile path [] other = state.idFile other := by
          intro other
          by_cases here : other = path
          · exact .inl (here ▸ Function.update_self _ _ _)
          · exact .inr (Function.update_of_ne here _ _)
        refine ⟨fun other => ?_, fun other => ?_, fits.fit⟩
        · rcases lists other with empty | same
          · simp [empty]
          · simpa [same] using fits.width other
        · rcases lists other with empty | same
          · simp [empty]
          · simpa [same] using fits.short other
  | write path buf offset =>
      rcases Option.map_eq_some_iff.mp returned with ⟨⟨result, next⟩, written, rfl⟩
      exact fits.write written
  | unlink path =>
      rcases Option.map_eq_some_iff.mp returned with ⟨⟨result, next⟩, unlinked, rfl⟩
      rw [bbUnlink] at unlinked
      split at unlinked
      · simp only [Option.bind_eq_bind, Option.bind_eq_some_iff] at unlinked
        rcases unlinked with ⟨idsToRemove, _, last⟩
        rcases Option.some.inj last with ⟨_, rfl⟩
        exact ⟨fits.width, fits.short, fits.fit.removeBlocks idsToRemove⟩
      · cases unlinked

theorem StateFits.run (ops : List (Op Path)) :
    ∀ {state state' : BbState Path}, StateFits state → bbRun sha1 ops state = some state' →
    StateFits state' := by
  induction ops with
  | nil =>
      intro state state' fits returned
      exact Option.some.inj returned ▸ fits
  | cons op ops induction =>
      intro state state' fits returned
      rcases Option.bind_eq_some_iff.mp returned with ⟨next, stepped, rest⟩
      exact induction (fits.step stepped) rest

end

end CE321.Dedup
