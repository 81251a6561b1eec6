import CE321.Dedup.Store

/-! # The storage directory over a run

Which block files exist, what they hold, and the form and the size of the ledger,
stated on the bytes.
-/

namespace CE321.Dedup

open CString ByteFile

/-- The bytes of a ledger: consecutive numbered lines of 30 bytes, the last of them
the sentinel, and no other hash twice. -/
structure LedgerFormat (data : Bytes) : Prop where
  whole : data.length = 30 * lineCount data
  nonempty : 0 < lineCount data
  columns : ∀ index < lineCount data, ∃ id hash counter : Bytes,
    id.length = 3 ∧ hash.length = 20 ∧ counter.length = 2 ∧
    (∀ byte ∈ id ++ counter, isDigit byte = true) ∧
    lineText data index = id ++ [44, 32] ++ hash ++ [44, 32] ++ counter ++ [10]
  numbered : ∀ index < lineCount data, lineId data index = (index + 1 : Nat)
  sentinel : lineText data (lineCount data - 1) = endLine (lineCount data)
  distinct : ∀ left < lineCount data, ∀ right < lineCount data,
    lineHash data left = lineHash data right → lineHash data left ≠ zeroHash → left = right

theorem zeroPadded_digits {width value : Nat} (fits : value < 10 ^ width) {byte : UInt8}
    (member : byte ∈ zeroPadded width value) : isDigit byte = true := by
  rw [zeroPadded_of_lt fits] at member
  exact isDigit_of_mem_decimalDigits member

theorem hash_index_unique {lines : List Line} (nodup : (lines.map Line.hash).Nodup)
    {left right : Nat} {line other : Line} (leftPresent : lines[left]? = some line)
    (rightPresent : lines[right]? = some other) (equal : line.hash = other.hash) :
    left = right := by
  have bound := (List.getElem?_eq_some_iff.mp leftPresent).1
  apply (List.getElem?_inj (by simpa using bound) nodup).mp
  rw [List.getElem?_map, List.getElem?_map, leftPresent, rightPresent, Option.map_some,
    Option.map_some, equal]

section

variable {sha1 : Bytes → Fin 20 → UInt8} {storage : Storage} {lines : List Line}

theorem StoreInvariant.format (holds : StoreInvariant sha1 storage lines) :
    LedgerFormat storage.hashFile.data := by
  have count := lineCount_ledgerText holds.text holds.small
  have fields := fun {index} {line} => @line_fields _ _ holds.text holds.small index line
  have present := fun {index} => @line_present _ _ holds.text holds.small index
  have small := holds.small
  refine ⟨?_, by omega, ?_, ?_, ?_, ?_⟩
  · rw [count, holds.text, ledgerText_length holds.small]
  · intro index bound
    rcases present bound with ⟨line, there⟩
    have idFits : index + 1 < 10 ^ 3 := by omega
    refine ⟨zeroPadded 3 (index + 1), line.hash.text, zeroPadded 2 line.counter,
      zeroPadded_length idFits, line.hash.length_eq, zeroPadded_length line.counter_lt, ?_, ?_⟩
    · intro byte member
      rcases List.mem_append.mp member with member | member
      · exact zeroPadded_digits idFits member
      · exact zeroPadded_digits line.counter_lt member
    · rw [(fields there).1, Line.render]
      simp
  · intro index bound
    rcases present bound with ⟨line, there⟩
    exact (fields there).2.1
  · have last : (lines ++ [Line.sentinel])[lines.length]? = some Line.sentinel := by simp
    rw [count, Nat.add_sub_cancel, (fields last).1, Line.endLine_eq]
  · intro left leftBound right rightBound equal nonzero
    rcases present leftBound with ⟨line, leftThere⟩
    rcases present rightBound with ⟨other, rightThere⟩
    rw [(fields leftThere).2.2.1] at equal nonzero
    rw [(fields rightThere).2.2.1] at equal
    have inLines : ∀ {index : Nat} {line : Line},
        (lines ++ [Line.sentinel])[index]? = some line → line.hash.text ≠ zeroHash →
        lines[index]? = some line := by
      intro index line there notZero
      rw [List.getElem?_append] at there
      split at there
      · exact there
      · have sentinel := List.mem_singleton.mp (List.mem_of_getElem? there)
        exact absurd (congrArg (fun line => line.hash.text) sentinel) notZero
    exact hash_index_unique holds.nodup (inLines leftThere nonzero)
      (inLines rightThere (equal ▸ nonzero)) (Hash.ext equal)

theorem StoreInvariant.addHash_search (holds : StoreInvariant sha1 storage lines) :
    ∃ index < lineCount storage.hashFile.data, ∃ file',
      addHashLoop (storage.hashFile.data.length + 1) (storage.hashFile.fseekSet 0) [] [] =
        some (lineId storage.hashFile.data index, 30 * (index + 1), file') := by
  rcases @splitAtFirst (lines ++ [Line.sentinel]) (·.counter % 10 = 0) _
      ⟨Line.sentinel, by simp, rfl⟩ with
    ⟨before, line, after, split, free, taken⟩
  have count := lineCount_ledgerText holds.text holds.small
  have width : before.length + 1 ≤ lines.length + 1 := by
    have same := congrArg List.length split
    simp only [List.length_append, List.length_cons, List.length_nil] at same
    omega
  have small := holds.small
  have text : storage.hashFile.data = renderFrom 1 before ++
      (line.render (before.length + 1) ++ renderFrom (before.length + 2) after) := by
    rw [holds.text, ledgerText, split, renderFrom_append, renderFrom, Nat.add_comm 1]
  have there : (lines ++ [Line.sentinel])[before.length]? = some line := by
    rw [split]
    simp
  have bytes : storage.hashFile.data.length = 30 * (lines.length + 1) := by
    rw [holds.text, ledgerText_length holds.small]
  refine ⟨before.length, by omega,
    { storage.hashFile.fseekSet 0 with pos := 30 * (before.length + 1) }, ?_⟩
  rw [(line_fields holds.text holds.small there).2.1]
  exact addHashLoop_stops (storage.hashFile.fseekSet 0) _ text rfl (by omega) taken free (by omega)

/-! ## The agreement -/

/-- For every ledger line the block file of its ID exists if and only if its counter
is positive, and then holds bytes with the hash of the line; so no two block files
hold the same bytes. -/
theorem blocks_agree_with_ledger {peak : Nat} (run : StoreRun sha1 storage peak) :
    (∀ index < lineCount storage.hashFile.data,
      (storage.block (lineId storage.hashFile.data index) ≠ none ↔
        0 < lineCounter storage.hashFile.data index) ∧
      ∀ bytes, storage.block (lineId storage.hashFile.data index) = some bytes →
        getHash sha1 bytes = lineHash storage.hashFile.data index) ∧
    ∀ left right bytes, storage.block left = some bytes → storage.block right = some bytes →
      left = right := by
  rcases run.invariant with ⟨lines, holds, _⟩
  have heldBy : ∀ {id : Int} {bytes}, storage.block id = some bytes →
      ∃ index line, lines[index]? = some line ∧ 0 < line.counter ∧ id = (index + 1 : Nat) :=
    fun found => (holds.held _).mp (by simp [found])
  constructor
  · intro index bound
    rcases line_present holds.text holds.small bound with ⟨line, there⟩
    rcases line_fields holds.text holds.small there with ⟨-, id, hash, counter⟩
    rw [id, hash, counter]
    have sameLine : ∀ {position other}, lines[position]? = some other →
        ((index + 1 : Nat) : Int) = (position + 1 : Nat) → other = line := by
      intro position other present equal
      obtain rfl : index = position := by omega
      have inFront : index < lines.length := (List.getElem?_eq_some_iff.mp present).1
      rw [List.getElem?_append_left inFront, present] at there
      exact Option.some.inj there
    constructor
    · rw [holds.held]
      constructor
      · rintro ⟨position, other, present, positive, equal⟩
        rw [sameLine present equal] at positive
        exact_mod_cast positive
      · intro positive
        have live : 0 < line.counter := by exact_mod_cast positive
        rw [List.getElem?_append] at there
        split at there
        · exact ⟨index, line, there, live, rfl⟩
        · have sentinel := List.mem_singleton.mp (List.mem_of_getElem? there)
          rw [sentinel] at live
          exact absurd live (lt_irrefl 0)
    · intro bytes found
      rcases heldBy found with ⟨position, other, present, _, equal⟩
      rw [equal] at found
      rw [holds.hashed position other bytes present found, sameLine present equal]
  · intro left right bytes leftFound rightFound
    rcases heldBy leftFound with ⟨index, line, present, _, rfl⟩
    rcases heldBy rightFound with ⟨position, other, otherPresent, _, rfl⟩
    have sameHash : line.hash = other.hash := Hash.ext
      ((holds.hashed index line bytes present leftFound).symm.trans
        (holds.hashed position other bytes otherPresent rightFound))
    rw [hash_index_unique holds.nodup present otherPresent sameHash]

/-- The ledger keeps its form, has no more lines before the sentinel than were live
at one time, and `addHash` always finds a line in it, so that `PushBlock` returns. -/
theorem ledger_in_format {peak : Nat} (run : StoreRun sha1 storage peak) :
    LedgerFormat storage.hashFile.data ∧
    lineCount storage.hashFile.data - 1 ≤ peak ∧
    (∃ index < lineCount storage.hashFile.data, ∃ file',
      addHashLoop (storage.hashFile.data.length + 1) (storage.hashFile.fseekSet 0) [] [] =
        some (lineId storage.hashFile.data index, 30 * (index + 1), file')) ∧
    ∀ block, getHash sha1 block ≠ zeroHash → ∃ returned,
      pushBlock sha1 block storage = some returned := by
  rcases run.invariant with ⟨lines, holds, bound⟩
  refine ⟨holds.format, ?_, holds.addHash_search, fun block nonzero => ?_⟩
  · rw [lineCount_ledgerText holds.text holds.small]
    exact bound
  · rcases holds.pushBlock_returns block nonzero with ⟨_, _, _, _, returned, _⟩
    exact ⟨_, returned⟩

end

/-! ## Two letters -/

def digestOfA : Bytes :=
  [0x86, 0xf7, 0xe4, 0x37, 0xfa, 0xa5, 0xa7, 0xfc, 0xe1, 0x5d,
    0x1d, 0xdc, 0xb9, 0xea, 0xea, 0xea, 0x37, 0x76, 0x67, 0xb8]

def digestOfB : Bytes :=
  [0xe9, 0xd7, 0x1f, 0x5e, 0xe7, 0xc9, 0x2d, 0x6d, 0xc9, 0xe9,
    0x2f, 0xfd, 0xad, 0x17, 0xb8, 0xbd, 0x49, 0x41, 0x8f, 0x98]

/-- A table of two digests. -/
def sha1OfLetters (input : Bytes) (i : Fin 20) : UInt8 :=
  (if input.head? = some 97 then digestOfA else digestOfB).getD i 0

/-- The directory after the blocks were pushed. -/
def pushedLetters (blocks : List Bytes) : Storage :=
  blocks.foldl (fun storage block =>
    ((pushBlock sha1OfLetters block storage).map Prod.snd).getD storage) initStorage

/-- The directory after `"a"` was pushed twice and `"b"` once, and a reference to each of them
was released. -/
def releasedLetters : Storage :=
  (removeBlocks (idText [1, 2]) (pushedLetters [[97], [97], [98]])).2

theorem pushedLetters_push {blocks : List Bytes} {letter : Bytes} {peak count : Nat}
    (run : StoreRun sha1OfLetters (pushedLetters blocks) peak)
    (nonzero : getHash sha1OfLetters letter ≠ zeroHash)
    (returns : (pushBlock sha1OfLetters letter (pushedLetters blocks)).isSome = true)
    (lines : live (pushedLetters (blocks ++ [letter])).hashFile.data = count)
    (few : count < 999) :
    StoreRun sha1OfLetters (pushedLetters (blocks ++ [letter])) (max peak count) := by
  rcases Option.isSome_iff_exists.mp returns with ⟨⟨id, storage⟩, pushed⟩
  have after : pushedLetters (blocks ++ [letter]) = storage := by
    rw [pushedLetters, List.foldl_append]
    exact (congrArg (fun result => (Option.map Prod.snd result).getD _) pushed).trans rfl
  rw [after] at lines ⊢
  rw [← lines] at few ⊢
  exact .step run (.push nonzero pushed) few

theorem pushedLetters_run : StoreRun sha1OfLetters (pushedLetters [[97], [97], [98]]) 2 := by
  have first := @pushedLetters_push [] [97] 0 1 .init (by decide +kernel) (by decide +kernel)
    (by decide +kernel) (by decide)
  have second := pushedLetters_push first (by decide +kernel) (by decide +kernel)
    (show live (pushedLetters ([[97]] ++ [[97]])).hashFile.data = 1 by decide +kernel) (by decide)
  exact pushedLetters_push second (by decide +kernel) (by decide +kernel)
    (show live (pushedLetters ([[97], [97]] ++ [[98]])).hashFile.data = 2 by decide +kernel)
    (by decide)

theorem releasedLetters_run : StoreRun sha1OfLetters releasedLetters 2 := by
  have present : ∀ id ∈ [1, 2], ∃ index <
      lineCount (pushedLetters [[97], [97], [98]]).hashFile.data,
      lineId (pushedLetters [[97], [97], [98]]).hashFile.data index = (id : Nat) := by
    decide +kernel
  have lines : live releasedLetters.hashFile.data = 1 := by decide +kernel
  have run := StoreRun.step pushedLetters_run (.remove present) (by
    rw [show (removeBlocks (idText [1, 2]) _).2 = releasedLetters from rfl, lines]
    decide)
  rwa [show (removeBlocks (idText [1, 2]) _).2 = releasedLetters from rfl, lines] at run

/-- One reference to `"a"` is left, and `"b"` is gone. -/
theorem blocks_agree_with_ledger_letters :
    releasedLetters.block (lineId releasedLetters.hashFile.data 0) ≠ none ∧
      releasedLetters.block (lineId releasedLetters.hashFile.data 1) = none := by
  have counters : lineCounter releasedLetters.hashFile.data 0 = 1 ∧
      lineCounter releasedLetters.hashFile.data 1 = 0 := by decide +kernel
  have agreement := (blocks_agree_with_ledger releasedLetters_run).1
  refine ⟨(agreement 0 (by decide +kernel)).1.mpr (by rw [counters.1]; decide), ?_⟩
  by_contra stored
  have positive := (agreement 1 (by decide +kernel)).1.mp stored
  rw [counters.2] at positive
  exact lt_irrefl 0 positive

theorem ledger_in_format_letters :
    LedgerFormat releasedLetters.hashFile.data ∧
      lineCount releasedLetters.hashFile.data - 1 ≤ 2 :=
  ⟨(ledger_in_format releasedLetters_run).1, (ledger_in_format releasedLetters_run).2.1⟩

end CE321.Dedup
