import CE321.Dedup.Agreement

/-! # The specification of `PushBlock`

A block goes to the line of its hash, or else to the first line without references.
The code looks for that line by the last digit of the counters only, so it finds
it exactly where no line before it has ten references, or twenty, and so on.
-/

namespace CE321.Dedup

open CString

/-! ## Where a new hash goes -/

/-- The first elements that satisfy a predicate and a weaker one are the same if and
only if nothing before the former satisfies the weaker one. -/
theorem findIdx_eq_findIdx_iff {Element : Type*} (strong weak : Element → Bool)
    (implies : ∀ element, strong element = true → weak element = true) (list : List Element) :
    list.findIdx weak = list.findIdx strong ↔
      ∀ element ∈ list.takeWhile (fun element => !strong element), weak element = false := by
  induction list with
  | nil => simp
  | cons first list induction =>
      rw [List.findIdx_cons, List.findIdx_cons]
      cases strongFirst : strong first with
      | true => simp [strongFirst, implies first strongFirst]
      | false =>
          cases weakFirst : weak first with
          | true => simp [strongFirst, weakFirst]
          | false => simpa [strongFirst, weakFirst] using induction

namespace Acquire

variable {hash : Hash} {lines lines' : List Line} {index : Nat} {isNew : Bool}

theorem shared_at (acquire : Acquire hash lines index isNew lines')
    (present : ∃ line ∈ lines, line.hash = hash) :
    lines'.length = lines.length ∧ ∃ line, lines[index]? = some line ∧ line.hash = hash ∧
      lines'[index]? = some line.bump ∧ isNew = (line.counter == 0) := by
  rcases present with ⟨other, member, same⟩
  cases acquire with
  | shared before line after _ equal => exact ⟨by simp, line, by simp, equal, by simp, rfl⟩
  | reused before line after absent _ _ => exact absurd same (absent other member)
  | appended lines absent _ => exact absurd same (absent other member)

/-- Any other hash takes the first line whose counter ends in zero. -/
theorem stored_at (acquire : Acquire hash lines index isNew lines')
    (absent : ∀ line ∈ lines, line.hash ≠ hash) :
    index = lines.findIdx (·.counter % 10 = 0) ∧ isNew = true ∧
      lines'[index]? = some (Line.stored hash) := by
  cases acquire with
  | shared before line after _ equal => exact absurd equal (absent line (by simp))
  | reused before line after _ taken free =>
      have skipped : before.findIdx (fun line => decide (line.counter % 10 = 0)) =
          before.length := List.findIdx_eq_length.mpr fun other member =>
        decide_eq_false (taken other member)
      refine ⟨?_, rfl, by simp⟩
      rw [List.findIdx_append, skipped]
      simp [List.findIdx_cons, free]
  | appended lines _ taken =>
      have skipped : lines.findIdx (fun line => decide (line.counter % 10 = 0)) =
          lines.length := List.findIdx_eq_length.mpr fun other member =>
        decide_eq_false (taken other member)
      exact ⟨skipped.symm, rfl, by simp⟩

end Acquire

/-! ## The specification -/

section

variable (sha1 : Bytes → Fin 20 → UInt8)

/-- The storage directory holds the given lines and the sentinel, and a block file
exactly for the lines with references. -/
structure WellFormed (storage : Storage) (lines : List Line) : Prop where
  text : storage.hashFile.data = ledgerText lines
  few : lines.length + 1 < 999
  counters : ∀ line ∈ lines, line.counter ≤ 98
  distinct : ((lines.map Line.hash).filter (· ≠ Hash.zero)).Nodup
  held : ∀ id : Int, storage.block id ≠ none ↔
    ∃ index line, lines[index]? = some line ∧ 0 < line.counter ∧ id = (index + 1 : Nat)
  hashed : ∀ index line bytes, lines[index]? = some line →
    storage.block (index + 1 : Nat) = some bytes → getHash sha1 bytes = line.hash.text

/-- The block is stored on line `index`: the line of its hash, or, if no line has it, the
first line without references, which is the sentinel if all others have some. -/
structure PushedTo (block : Bytes) (storage : Storage) (lines : List Line) (index : Nat)
    (storage' : Storage) (lines' : List Line) : Prop where
  text : storage'.hashFile.data = ledgerText lines'
  stored : storage'.block (index + 1 : Nat) = some block
  otherBlocks : ∀ id : Int, id ≠ (index + 1 : Nat) → storage'.block id = storage.block id
  otherLines : ∀ other line, other ≠ index → lines[other]? = some line → 0 < line.counter →
    lines'[other]? = some line
  shared : (∃ line ∈ lines, line.hash = blockHash sha1 block) →
    lines'.length = lines.length ∧ ∃ line line', lines[index]? = some line ∧
      line.hash = blockHash sha1 block ∧ lines'[index]? = some line' ∧
      line'.hash = line.hash ∧ line'.counter = line.counter + 1
  fresh : (∀ line ∈ lines, line.hash ≠ blockHash sha1 block) →
    index = lines.findIdx (·.counter = 0) ∧
      ∃ line', lines'[index]? = some line' ∧ line'.hash = blockHash sha1 block ∧
        line'.counter = 1

/-- `PushBlock` returns the ID of such a line. -/
def PushesRight (block : Bytes) (storage : Storage) (lines : List Line) : Prop :=
  ∃ index storage' lines',
    pushBlock sha1 block storage = some (((index + 1 : Nat) : Int), storage') ∧
    PushedTo sha1 block storage lines index storage' lines'

end

section

variable {sha1 : Bytes → Fin 20 → UInt8} {storage : Storage} {lines : List Line}
  {used : Set Bytes} {block : Bytes}

/-- A block that is pushed on the line of its hash is the one that is stored there. -/
theorem WellFormed.pushed_shared (holds : WellFormed sha1 storage lines)
    (injective : Set.InjOn (getHash sha1) used) (nonzero : getHash sha1 block ≠ zeroHash)
    (storedUsed : ∀ id bytes, storage.block id = some bytes → bytes ∈ used)
    (blockUsed : block ∈ used) (zeroFree : 0 ∉ block)
    (present : ∃ line ∈ lines, line.hash = blockHash sha1 block) :
    PushesRight sha1 block storage lines := by
  have few := holds.few
  rcases pushBlock_acquires holds.text (by omega) block nonzero with
    ⟨index, isNew, lines', storage', returned, acquire, blocks, text⟩
  rcases acquire.shared_at present with ⟨sameLength, line, there, hash, after, new⟩
  have counter := holds.counters line (List.mem_of_getElem? there)
  refine ⟨index, storage', lines', returned, text.trans (ledgerBytes_eq (by omega)), ?_, ?_,
    ?_, ?_, ?_⟩
  · rw [blocks, pushBlocks]
    cases isNew with
    | true => simp [contents_of_zero_free zeroFree]
    | false =>
        have positive : 0 < line.counter := Nat.pos_of_ne_zero (by simpa using new)
        rcases Option.ne_none_iff_exists'.mp
          ((holds.held _).mpr ⟨index, line, there, positive, rfl⟩) with ⟨bytes, found⟩
        have same := holds.hashed index line bytes there found
        rw [hash] at same
        have equal : bytes = block := injective (storedUsed _ _ found) blockUsed same
        rw [if_neg Bool.false_ne_true, found, equal]
  · intro id different
    rw [blocks, pushBlocks_other _ _ _ different]
  · intro other otherLine different otherThere _
    rw [acquire.others different, otherThere]
  · intro _
    refine ⟨sameLength, line, line.bump, there, hash, after, rfl, ?_⟩
    rw [Line.bump]
    exact if_neg (by omega)
  · intro absent
    rcases present with ⟨other, member, same⟩
    exact absurd same (absent other member)

/-- A block whose hash is on no line is pushed right if and only if no line before the
first free one has a counter that ends in zero. -/
theorem WellFormed.pushed_fresh (holds : WellFormed sha1 storage lines)
    (nonzero : getHash sha1 block ≠ zeroHash) (zeroFree : 0 ∉ block)
    (absent : ∀ line ∈ lines, line.hash ≠ blockHash sha1 block) :
    PushesRight sha1 block storage lines ↔
      ∀ line ∈ lines.takeWhile (·.counter ≠ 0), line.counter % 10 ≠ 0 := by
  have few := holds.few
  rcases pushBlock_acquires holds.text (by omega) block nonzero with
    ⟨index, isNew, lines', storage', returned, acquire, blocks, text⟩
  rcases acquire.stored_at absent with ⟨position, new, after⟩
  have first := findIdx_eq_findIdx_iff (fun line : Line => decide (line.counter = 0))
    (fun line => decide (line.counter % 10 = 0)) (fun line empty => by simp_all) lines
  rw [← position] at first
  have condition : (∀ line ∈ lines.takeWhile (fun line => !decide (line.counter = 0)),
      decide (line.counter % 10 = 0) = false) ↔
      ∀ line ∈ lines.takeWhile (·.counter ≠ 0), line.counter % 10 ≠ 0 := by
    simp
  rw [← condition, ← first]
  constructor
  · rintro ⟨other, final, lines₁, otherReturned, right⟩
    have sameId := (Prod.mk.inj (Option.some.inj (returned.symm.trans otherReturned))).1
    have same : index = other := by omega
    rw [same]
    exact (right.fresh absent).1
  · intro atFirst
    have length : lines'.length ≤ lines.length + 1 := by
      rcases acquire.length_or_full with sameLength | ⟨grown, _⟩
      · omega
      · omega
    refine ⟨index, storage', lines', returned, text.trans (ledgerBytes_eq (by omega)), ?_, ?_,
    ?_, ?_, ?_⟩
    · rw [blocks, new, pushBlocks, if_pos rfl, Function.update_self,
        contents_of_zero_free zeroFree]
    · intro id different
      rw [blocks, pushBlocks_other _ _ _ different]
    · intro other otherLine different otherThere _
      rw [acquire.others different, otherThere]
    · rintro ⟨line, member, same⟩
      exact absurd same (absent line member)
    · exact fun _ => ⟨atFirst, _, after, rfl, rfl⟩

/-- On a well-formed store, `PushBlock` does what it should if and only if the hash of the
block is on a line, or no line before the first free one has a counter that is a
positive multiple of ten. -/
theorem pushBlock_right_iff (lines : List Line) (storage : Storage) (block : Bytes)
    (used : Set Bytes) (holds : WellFormed sha1 storage lines)
    (injective : Set.InjOn (getHash sha1) used)
    (nonzero : ∀ bytes ∈ used, getHash sha1 bytes ≠ zeroHash)
    (storedUsed : ∀ id bytes, storage.block id = some bytes → bytes ∈ used)
    (blockUsed : block ∈ used) (zeroFree : 0 ∉ block) :
    PushesRight sha1 block storage lines ↔
      (∃ line ∈ lines, line.hash = blockHash sha1 block) ∨
        ∀ line ∈ lines.takeWhile (·.counter ≠ 0), line.counter % 10 ≠ 0 := by
  by_cases present : ∃ line ∈ lines, line.hash = blockHash sha1 block
  · exact iff_of_true (holds.pushed_shared injective (nonzero block blockUsed) storedUsed
      blockUsed zeroFree present) (.inl present)
  · have absent : ∀ line ∈ lines, line.hash ≠ blockHash sha1 block := fun line member same =>
      present ⟨line, member, same⟩
    rw [holds.pushed_fresh (nonzero block blockUsed) zeroFree absent]
    exact (or_iff_right present).symm

end

/-! ## A line with ten references -/

/-- The first line has `count` references to the block `"a"`. -/
def linesOfA (count : Nat) (small : count < 100) : List Line :=
  [⟨blockHash sha1OfLetters [97], count, small⟩]

def storageOfA (count : Nat) (small : count < 100) : Storage where
  hashFile := ⟨ledgerText (linesOfA count small), 0⟩
  block := Function.update (fun _ => none) 1 (some [97])

theorem one_small : 1 < 100 := by decide

theorem storageOfA_wellFormed {count : Nat} (small : count ≤ 98) (positive : 0 < count) :
    WellFormed sha1OfLetters (storageOfA count (by omega)) (linesOfA count (by omega)) where
  text := rfl
  few := by simp [linesOfA]
  counters := by simpa [linesOfA] using small
  distinct := List.Nodup.filter _ (by simp [linesOfA])
  held := by
    intro id
    by_cases first : id = 1
    · subst first
      exact iff_of_true (by simp [storageOfA]) ⟨0, _, rfl, positive, rfl⟩
    · refine iff_of_false (by simp [storageOfA, first]) ?_
      rintro ⟨index, line, there, _, rfl⟩
      have inside := (List.getElem?_eq_some_iff.mp there).1
      simp [linesOfA] at inside
      omega
  hashed := by
    intro index line bytes there found
    have inside := (List.getElem?_eq_some_iff.mp there).1
    obtain rfl : index = 0 := by simpa [linesOfA] using inside
    obtain rfl : _ = line := Option.some.inj there
    obtain rfl : _ = bytes := Option.some.inj found
    rfl

theorem getHash_letters_differ :
    getHash sha1OfLetters [97] ≠ getHash sha1OfLetters [98] := by
  decide +kernel

theorem letters_injective : Set.InjOn (getHash sha1OfLetters) {[97], [98]} := by
  rintro left (rfl | rfl) right (rfl | rfl) equal
  · rfl
  · exact absurd equal getHash_letters_differ
  · exact absurd equal.symm getHash_letters_differ
  · rfl

theorem letters_nonzero : ∀ bytes ∈ ({[97], [98]} : Set Bytes),
    getHash sha1OfLetters bytes ≠ zeroHash := by
  rintro _ (rfl | rfl) <;> decide +kernel

theorem storageOfA_used {count : Nat} (small : count < 100) :
    ∀ id bytes, (storageOfA count small).block id = some bytes →
      bytes ∈ ({[97], [98]} : Set Bytes) := by
  intro id bytes found
  by_cases first : id = 1
  · subst first
    exact .inl (Option.some.inj found).symm
  · simp [storageOfA, first] at found

/-- With nine references to the first block, another one goes to a line of its own. -/
theorem pushBlock_right_iff_nine :
    PushesRight sha1OfLetters [98] (storageOfA 9 (by decide)) (linesOfA 9 (by decide)) :=
  (pushBlock_right_iff (linesOfA 9 (by decide)) (storageOfA 9 (by decide)) [98] {[97], [98]}
    (storageOfA_wellFormed (by decide) (by decide)) letters_injective letters_nonzero
    (storageOfA_used (by decide)) (.inr rfl) (by decide)).mpr
    (.inr (by simp [linesOfA]))

/-- With ten, it takes the line of the first, and replaces its block. -/
theorem pushBlock_takes_ten :
    WellFormed sha1OfLetters (storageOfA 10 (by decide)) (linesOfA 10 (by decide)) ∧
      Set.InjOn (getHash sha1OfLetters) {[97], [98]} ∧
      (∀ bytes ∈ ({[97], [98]} : Set Bytes), getHash sha1OfLetters bytes ≠ zeroHash) ∧
      (∀ id bytes, (storageOfA 10 (by decide)).block id = some bytes →
        bytes ∈ ({[97], [98]} : Set Bytes)) ∧
      ¬PushesRight sha1OfLetters [98] (storageOfA 10 (by decide)) (linesOfA 10 (by decide)) := by
  have holds := storageOfA_wellFormed (show 10 ≤ 98 by decide) (by decide)
  refine ⟨holds, letters_injective, letters_nonzero, storageOfA_used (by decide), ?_⟩
  have absent : ∀ line ∈ linesOfA 10 (by decide), line.hash ≠ blockHash sha1OfLetters [98] := by
    intro line member same
    rw [linesOfA, List.mem_singleton] at member
    subst member
    exact getHash_letters_differ (congrArg Hash.text same)
  rw [holds.pushed_fresh (letters_nonzero _ (.inr rfl)) (by decide) absent]
  simp [linesOfA]

end CE321.Dedup
