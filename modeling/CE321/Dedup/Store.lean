import CE321.Dedup.Bbfs
import CE321.Dedup.Fields
import CE321.Dedup.Release

/-! # Ledger and block files together

What holds of the storage directory over any run of `PushBlock` and `removeBlocks`:
the ledger stays in format, and a block file exists for exactly the lines that
have references.
-/

namespace CE321.Dedup

open CString

/-! ## What a hash acquires, line by line -/

namespace Acquire

variable {hash : Hash} {lines lines' : List Line} {index : Nat} {isNew : Bool}

theorem acquired (acquire : Acquire hash lines index isNew lines') :
    ∃ line, lines'[index]? = some line ∧ line.hash = hash ∧ 0 < line.counter := by
  cases acquire with
  | shared before line after _ equal =>
      refine ⟨line.bump, by simp, equal, ?_⟩
      simp only [Line.bump]
      split <;> omega
  | reused before line after _ _ _ => exact ⟨Line.stored hash, by simp, rfl, Nat.one_pos⟩
  | appended lines _ _ => exact ⟨Line.stored hash, by simp, rfl, Nat.one_pos⟩

theorem others (acquire : Acquire hash lines index isNew lines') {other : Nat}
    (different : other ≠ index) : lines'[other]? = lines[other]? := by
  have middle : ∀ (before after : List Line) (left right : Line), other ≠ before.length →
      (before ++ left :: after)[other]? = (before ++ right :: after)[other]? := by
    intro before after left right apart
    rcases Nat.lt_or_gt_of_ne apart with earlier | later
    · rw [List.getElem?_append_left earlier, List.getElem?_append_left earlier]
    · rcases Nat.exists_eq_add_of_lt later with ⟨distance, rfl⟩
      rw [List.getElem?_append_right (by omega), List.getElem?_append_right (by omega),
        show before.length + distance + 1 - before.length = distance + 1 by omega]
      rfl
  cases acquire with
  | shared before line after _ _ => exact middle before after _ _ different
  | reused before line after _ _ _ => exact middle before after _ _ different
  | appended lines _ _ =>
      rcases Nat.lt_or_gt_of_ne different with earlier | later
      · rw [List.getElem?_append_left earlier]
      · rw [List.getElem?_eq_none (by simp; omega), List.getElem?_eq_none (by omega)]

theorem held (acquire : Acquire hash lines index isNew lines') (old : isNew = false) :
    ∃ line, lines[index]? = some line ∧ line.hash = hash ∧ 0 < line.counter := by
  cases acquire with
  | shared before line after _ equal =>
      exact ⟨line, by simp, equal, Nat.pos_of_ne_zero (by simpa using old)⟩
  | reused before line after _ _ _ => cases old
  | appended lines _ _ => cases old

/-- The ledger grows only when all its lines have references. -/
theorem length_or_full (acquire : Acquire hash lines index isNew lines') :
    lines'.length = lines.length ∨
      lines'.length = lines.length + 1 ∧ ∀ line ∈ lines', 0 < line.counter := by
  cases acquire with
  | shared before line after _ _ => left; simp
  | reused before line after _ _ _ => left; simp
  | appended lines _ taken =>
      right
      refine ⟨by simp, fun line member => ?_⟩
      rcases List.mem_append.mp member with member | member
      · have notMultiple := taken line member
        exact Nat.pos_of_ne_zero fun equal => notMultiple (by rw [equal])
      · rw [List.mem_singleton.mp member]
        exact Nat.one_pos

theorem mem_lines (acquire : Acquire hash lines index isNew lines') {line : Line}
    (member : line ∈ lines') : line.hash = hash ∨ line ∈ lines := by
  rcases List.mem_iff_getElem?.mp member with ⟨position, present⟩
  by_cases hit : position = index
  · rcases acquire.acquired with ⟨acquired, there, equal, _⟩
    rw [hit, there] at present
    exact .inl (Option.some.inj present ▸ equal)
  · rw [acquire.others hit] at present
    exact .inr (List.mem_of_getElem? present)

theorem nodup (acquire : Acquire hash lines index isNew lines')
    (distinct : (lines.map Line.hash).Nodup) : (lines'.map Line.hash).Nodup := by
  cases acquire with
  | shared before line after _ _ => simpa [Line.bump] using distinct
  | reused before line after absent _ _ =>
      simp only [List.map_append, List.map_cons] at distinct ⊢
      rw [List.nodup_middle, List.nodup_cons] at distinct ⊢
      refine ⟨fun member => ?_, distinct.2⟩
      rcases List.mem_map.mp
        (show hash ∈ (before ++ after).map Line.hash by simpa [Line.stored] using member) with
        ⟨other, otherMember, equal⟩
      exact absent other (by
        rcases List.mem_append.mp otherMember with early | late
        · exact List.mem_append_left _ early
        · exact List.mem_append_right _ (List.mem_cons_of_mem _ late)) equal
  | appended lines absent _ =>
      rw [List.map_append, List.map_cons, List.nodup_middle, List.nodup_cons]
      refine ⟨fun member => ?_, by simpa using distinct⟩
      rcases List.mem_map.mp
        (show hash ∈ lines.map Line.hash by simpa [Line.stored] using member) with
        ⟨other, otherMember, equal⟩
      exact absent other otherMember equal

end Acquire

section

variable (sha1 : Bytes → Fin 20 → UInt8)

/-! ## Hashes of blocks -/

theorem getHash_length (input : Bytes) : (getHash sha1 input).length = 20 := by
  simp [getHash]

private theorem hexDigit_ne_zero (nibble : Nat) (small : nibble < 16) : hexDigit nibble ≠ 0 := by
  revert nibble
  decide

theorem getHash_zero_free (input : Bytes) : 0 ∉ getHash sha1 input := by
  intro member
  rcases List.mem_flatMap.mp (List.mem_of_mem_take member) with ⟨i, _, digit⟩
  have bound := (sha1 (contents input) i).toNat_lt
  rcases List.mem_pair.mp digit with high | low
  · exact hexDigit_ne_zero _ (by omega) high.symm
  · exact hexDigit_ne_zero _ (by omega) low.symm

@[simp] theorem getHash_contents (input : Bytes) :
    getHash sha1 (contents input) = getHash sha1 input := by
  simp [getHash]

def blockHash (block : Bytes) : Hash :=
  ⟨getHash sha1 block, getHash_length sha1 block, getHash_zero_free sha1 block⟩

/-! ## The invariant -/

/-- The storage directory holds the given lines and their blocks. -/
structure StoreInvariant (storage : Storage) (lines : List Line) : Prop where
  text : storage.hashFile.data = ledgerText lines
  small : lines.length ≤ 998
  nonzero : ∀ line ∈ lines, line.hash ≠ Hash.zero
  nodup : (lines.map Line.hash).Nodup
  held : ∀ id : Int, storage.block id ≠ none ↔
    ∃ index line, lines[index]? = some line ∧ 0 < line.counter ∧ id = (index + 1 : Nat)
  hashed : ∀ index line bytes, lines[index]? = some line →
    storage.block (index + 1 : Nat) = some bytes → getHash sha1 bytes = line.hash.text

theorem StoreInvariant.init : StoreInvariant sha1 initStorage [] where
  text := by decide
  small := by simp
  nonzero := by simp
  nodup := by simp
  held := by simp [initStorage]
  hashed := by simp

end

section

variable {sha1 : Bytes → Fin 20 → UInt8} {storage : Storage} {lines : List Line}

theorem StoreInvariant.stored (holds : StoreInvariant sha1 storage lines) :
    Stored lines storage.block := fun index line present positive =>
  (holds.held _).mpr ⟨index, line, present, positive, rfl⟩

def pushBlocks (block : Bytes) (index : Nat) (isNew : Bool) (blocks : Int → Option Bytes) :
    Int → Option Bytes :=
  if isNew then Function.update blocks (index + 1 : Nat) (some (contents block)) else blocks

theorem pushBlocks_other (block : Bytes) {index : Nat} (isNew : Bool)
    (blocks : Int → Option Bytes) {id : Int} (different : id ≠ (index + 1 : Nat)) :
    pushBlocks block index isNew blocks id = blocks id := by
  unfold pushBlocks
  split
  · exact Function.update_of_ne different _ _
  · rfl

/-- `PushBlock` returns, and does to the ledger what the hash of the block acquires. -/
theorem pushBlock_acquires (text : storage.hashFile.data = ledgerText lines)
    (small : lines.length ≤ 998) (block : Bytes) (nonzero : getHash sha1 block ≠ zeroHash) :
    ∃ index isNew lines' storage',
      pushBlock sha1 block storage = some (((index + 1 : Nat) : Int), storage') ∧
      Acquire (blockHash sha1 block) lines index isNew lines' ∧
      storage'.block = pushBlocks block index isNew storage.block ∧
      storage'.hashFile.data = ledgerBytes lines' := by
  have nonzeroHash : blockHash sha1 block ≠ Hash.zero := fun equal =>
    nonzero (congrArg Hash.text equal)
  rcases compareHash_acquires storage.hashFile lines (blockHash sha1 block) text small
    nonzeroHash with ⟨index, isNew, lines', file', returned, acquire, text'⟩
  have found : compareHash storage.hashFile (getHash sha1 block) =
    some (((index + 1 : Nat) : Int), isNew, file') := returned
  refine ⟨index, isNew, lines', ⟨file', pushBlocks block index isNew storage.block⟩, ?_,
    acquire, rfl, text'⟩
  rw [pushBlock]
  simp only [found, Option.bind_eq_bind, Option.bind_some, Option.pure_def]
  cases isNew <;> rfl

theorem StoreInvariant.pushBlock_returns (holds : StoreInvariant sha1 storage lines)
    (block : Bytes) (nonzero : getHash sha1 block ≠ zeroHash) :
    ∃ index isNew lines' storage',
      pushBlock sha1 block storage = some (((index + 1 : Nat) : Int), storage') ∧
      Acquire (blockHash sha1 block) lines index isNew lines' ∧
      storage'.block = pushBlocks block index isNew storage.block ∧
      renderFrom 1 lines' <+: storage'.hashFile.data ∧
      (lines'.length ≤ 998 → storage'.hashFile.data = ledgerText lines') := by
  rcases pushBlock_acquires holds.text holds.small block nonzero with
    ⟨index, isNew, lines', storage', returned, acquire, blocks, text⟩
  exact ⟨index, isNew, lines', storage', returned, acquire, blocks,
    text ▸ ledgerBytes_prefix lines', fun few => text.trans (ledgerBytes_eq few)⟩

theorem StoreInvariant.push (holds : StoreInvariant sha1 storage lines) {block : Bytes}
    (nonzero : getHash sha1 block ≠ zeroHash) {index : Nat} {isNew : Bool}
    {lines' : List Line} {storage' : Storage}
    (acquire : Acquire (blockHash sha1 block) lines index isNew lines')
    (blocks : storage'.block = pushBlocks block index isNew storage.block)
    (text : storage'.hashFile.data = ledgerText lines') (small : lines'.length ≤ 998) :
    StoreInvariant sha1 storage' lines' where
  text := text
  small := small
  nonzero := by
    intro line member equal
    rcases acquire.mem_lines member with same | old
    · exact nonzero (congrArg Hash.text (same.symm.trans equal))
    · exact holds.nonzero line old equal
  nodup := acquire.nodup holds.nodup
  held := by
    intro id
    rw [blocks]
    by_cases hit : id = (index + 1 : Nat)
    · subst hit
      rcases acquire.acquired with ⟨line, present, _, positive⟩
      refine iff_of_true ?_ ⟨index, line, present, positive, rfl⟩
      cases isNew with
      | true => simp [pushBlocks]
      | false =>
          rcases acquire.held rfl with ⟨old, oldPresent, _, oldPositive⟩
          exact holds.stored index old oldPresent oldPositive
    · rw [pushBlocks_other _ _ _ hit, holds.held]
      have others : ∀ position, id = (position + 1 : Nat) →
          lines'[position]? = lines[position]? := by
        intro position equal
        exact acquire.others fun same => hit (same ▸ equal)
      constructor
      · rintro ⟨position, line, present, positive, equal⟩
        exact ⟨position, line, (others position equal).trans present, positive, equal⟩
      · rintro ⟨position, line, present, positive, equal⟩
        exact ⟨position, line, (others position equal).symm.trans present, positive, equal⟩
  hashed := by
    intro position line bytes present found
    rw [blocks] at found
    by_cases hit : position = index
    · subst hit
      rcases acquire.acquired with ⟨acquired, there, equal, _⟩
      have same : line = acquired := Option.some.inj (present.symm.trans there)
      rw [same, equal]
      cases isNew with
      | true =>
          have bytes_eq : contents block = bytes := by simpa [pushBlocks] using found
          rw [← bytes_eq, getHash_contents]
          rfl
      | false =>
          rcases acquire.held rfl with ⟨old, oldPresent, oldEqual, _⟩
          rw [← oldEqual]
          exact holds.hashed _ old bytes oldPresent found
    · rw [acquire.others hit] at present
      rw [pushBlocks_other _ _ _ (by omega)] at found
      exact holds.hashed position line bytes present found

theorem StoreInvariant.release (holds : StoreInvariant sha1 storage lines) {ids : List Nat}
    {storage' : Storage} (text : storage'.hashFile.data = ledgerText (releaseLines ids lines))
    (blocks : storage'.block = releaseBlocks ids lines storage.block) :
    StoreInvariant sha1 storage' (releaseLines ids lines) where
  text := text
  small := by simpa using holds.small
  nonzero := by
    intro line member
    rcases List.mem_iff_getElem?.mp member with ⟨index, present⟩
    rw [releaseLines_getElem?] at present
    rcases Option.map_eq_some_iff.mp present with ⟨old, oldPresent, rfl⟩
    exact holds.nonzero old (List.mem_of_getElem? oldPresent)
  nodup := by
    have same : (releaseLines ids lines).map Line.hash = lines.map Line.hash := by
      apply List.ext_getElem?
      intro index
      simp only [List.getElem?_map, releaseLines_getElem?, Option.map_map]
      rfl
    rw [same]
    exact holds.nodup
  held := by
    intro id
    rw [blocks]
    by_cases inside : ∃ index < lines.length, id = (index + 1 : Nat)
    · rcases inside with ⟨index, bound, rfl⟩
      have present := List.getElem?_eq_getElem bound
      have before := holds.held (index + 1 : Nat)
      have live : (∃ position line, lines[position]? = some line ∧ 0 < line.counter ∧
          ((index + 1 : Nat) : Int) = (position + 1 : Nat)) ↔ 0 < lines[index].counter := by
        constructor
        · rintro ⟨position, line, there, positive, equal⟩
          obtain rfl : index = position := by omega
          rwa [Option.some.inj (present.symm.trans there)]
        · exact fun positive => ⟨index, _, present, positive, rfl⟩
      rw [live] at before
      rw [releaseBlocks_index _ _ _ present]
      constructor
      · intro kept
        split at kept
        · exact absurd rfl kept
        · next notLast =>
            have positive := before.mp kept
            refine ⟨index, lines[index].releaseBy (ids.count (index + 1)), ?_, ?_, rfl⟩
            · rw [releaseLines_getElem?, present, Option.map_some]
            · rw [Line.releaseBy_counter]
              omega
      · rintro ⟨position, line, there, positive, equal⟩
        obtain rfl : index = position := by omega
        rw [releaseLines_getElem?, present, Option.map_some] at there
        rw [← Option.some.inj there, Line.releaseBy_counter] at positive
        rw [if_neg (by omega)]
        exact before.mpr (by omega)
    · have absent : ∀ index < lines.length, id ≠ (index + 1 : Nat) := fun index bound equal =>
        inside ⟨index, bound, equal⟩
      have outside : ∀ (others : List Line), others.length = lines.length →
          ¬∃ index line, others[index]? = some line ∧ 0 < line.counter ∧
            id = (index + 1 : Nat) := by
        rintro others sameLength ⟨index, line, present, _, equal⟩
        have bound := (List.getElem?_eq_some_iff.mp present).1
        exact absent index (sameLength ▸ bound) equal
      rw [releaseBlocks_other _ _ _ absent, holds.held]
      exact iff_of_false (outside lines rfl) (outside _ (releaseLines_length ids lines))
  hashed := by
    intro index line bytes present found
    rw [releaseLines_getElem?] at present
    rcases Option.map_eq_some_iff.mp present with ⟨old, oldPresent, rfl⟩
    rw [blocks, releaseBlocks_index _ _ _ oldPresent] at found
    split at found
    · cases found
    · exact holds.hashed index old bytes oldPresent found

theorem StoreInvariant.removeBlocks_returns (holds : StoreInvariant sha1 storage lines)
    {ids : List Nat} (present : ∀ id ∈ ids, 0 < id ∧ id ≤ lines.length + 1) :
    ∃ storage', removeBlocks (idText ids) storage = (0, storage') ∧
      StoreInvariant sha1 storage' (releaseLines ids lines) ∧
      storage'.block = releaseBlocks ids lines storage.block := by
  rcases removeBlocks_releases ids storage lines holds.text holds.small present holds.stored with
    ⟨storage', returned, text, blocks⟩
  exact ⟨storage', returned, holds.release text blocks, blocks⟩

end

/-! ## Runs -/

section

variable (sha1 : Bytes → Fin 20 → UInt8)

/-- One call: a block whose hash is not all zeros, or IDs of lines of the ledger. -/
inductive StoreStep : Storage → Storage → Prop
  | push {storage storage' : Storage} {block : Bytes} {id : Int} :
      getHash sha1 block ≠ zeroHash → pushBlock sha1 block storage = some (id, storage') →
      StoreStep storage storage'
  | remove {storage : Storage} {ids : List Nat} :
      (∀ id ∈ ids, ∃ index < lineCount storage.hashFile.data,
        lineId storage.hashFile.data index = id) →
      StoreStep storage (removeBlocks (idText ids) storage).2

/-- The storage after some calls, and the largest number of live lines so far. -/
inductive StoreRun : Storage → (peak : Nat) → Prop
  | init : StoreRun initStorage 0
  | step {storage storage' : Storage} {peak : Nat} :
      StoreRun storage peak → StoreStep sha1 storage storage' →
      live storage'.hashFile.data < 999 →
      StoreRun storage' (max peak (live storage'.hashFile.data))

end

section

variable {sha1 : Bytes → Fin 20 → UInt8} {storage storage' : Storage} {lines : List Line}

theorem StoreStep.invariant (step : StoreStep sha1 storage storage')
    (few : live storage'.hashFile.data < 999) (holds : StoreInvariant sha1 storage lines) :
    ∃ lines', StoreInvariant sha1 storage' lines' ∧
      lines'.length ≤ max lines.length (live storage'.hashFile.data) := by
  cases step with
  | @push _ block id nonzero pushed =>
      rcases holds.pushBlock_returns block nonzero with
        ⟨index, isNew, lines', final, returned, acquire, blocks, first, text⟩
      rcases Prod.mk.inj (Option.some.inj (pushed.symm.trans returned)) with ⟨-, rfl⟩
      have bound : lines'.length ≤ max lines.length (live storage'.hashFile.data) := by
        rcases acquire.length_or_full with same | ⟨grown, positive⟩
        · exact same.le.trans (le_max_left _ _)
        · have small := holds.small
          exact (length_le_live first (by omega) positive).trans (le_max_right _ _)
      have small : lines'.length ≤ 998 := by
        have small := holds.small
        omega
      exact ⟨lines', holds.push nonzero acquire blocks (text small) small, bound⟩
  | @remove ids present =>
      have inside : ∀ id ∈ ids, 0 < id ∧ id ≤ lines.length + 1 := by
        intro id member
        rcases present id member with ⟨index, bound, equal⟩
        rcases line_present holds.text holds.small bound with ⟨line, there⟩
        rw [lineCount_ledgerText holds.text holds.small] at bound
        have idField := (line_fields holds.text holds.small there).2.1
        omega
      rcases holds.removeBlocks_returns inside with ⟨final, returned, released, _⟩
      rw [returned]
      exact ⟨_, released, by simp⟩

theorem StoreRun.invariant {peak : Nat} (run : StoreRun sha1 storage peak) :
    ∃ lines, StoreInvariant sha1 storage lines ∧ lines.length ≤ peak := by
  induction run with
  | init => exact ⟨[], StoreInvariant.init sha1, le_rfl⟩
  | step _ step few induction =>
      rcases induction with ⟨lines, holds, bound⟩
      rcases step.invariant few holds with ⟨lines', holds', bound'⟩
      exact ⟨lines', holds', by omega⟩

end

end CE321.Dedup
