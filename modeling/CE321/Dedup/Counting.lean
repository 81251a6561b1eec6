import CE321.Dedup.Store
import CE321.Foundation.RefTable

/-! # Counting references

The ledger as a reference-counted table, and the calls on which the code keeps to
it. `addHash` takes a line whose counter ends in the digit zero for a free one, and
the number after 99 loses its last digit; everywhere else a push is the table's
`acquire`.
-/

namespace CE321.Dedup

open CString RefTable

def Line.slot (line : Line) : Slot Bytes := ⟨line.hash.text, line.counter⟩

def tableOf (lines : List Line) : List (Slot Bytes) := lines.map Line.slot

/-- The table that the bytes of a ledger show: the lines before the sentinel. -/
def ledgerTable (data : Bytes) : List (Slot Bytes) :=
  (List.range (lineCount data - 1)).map fun index =>
    ⟨lineHash data index, (lineCounter data index).toNat⟩

/-- The table has room for the hash: the number of its slot stays below 100, and
where it needs another slot, no slot before the first free one has a number that
ends in the digit zero. -/
def Room (hash : Bytes) (table : List (Slot Bytes)) : Prop :=
  (∀ slot ∈ table, slot.key = hash → slot.references < 99) ∧
  ((∀ slot ∈ table, slot.key ≠ hash) →
    ∀ slot ∈ table.takeWhile (·.references ≠ 0), slot.references % 10 ≠ 0)

instance (hash : Bytes) (table : List (Slot Bytes)) : Decidable (Room hash table) :=
  inferInstanceAs (Decidable (_ ∧ _))

/-- The table has room for the hashes one after the other. -/
def RoomForAll : List Bytes → List (Slot Bytes) → Prop
  | [], _ => True
  | hash :: hashes, table => Room hash table ∧ RoomForAll hashes (acquire hash table)

instance decidableRoomForAll : (hashes : List Bytes) → (table : List (Slot Bytes)) →
    Decidable (RoomForAll hashes table)
  | [], _ => isTrue trivial
  | hash :: hashes, table =>
      @instDecidableAnd _ _ _ (decidableRoomForAll hashes (acquire hash table))

@[simp] theorem tableOf_length (lines : List Line) : (tableOf lines).length = lines.length :=
  List.length_map _

theorem ledgerTable_ledgerText {data : Bytes} {lines : List Line}
    (text : data = ledgerText lines) (small : lines.length ≤ 998) :
    ledgerTable data = tableOf lines := by
  apply List.ext_getElem?
  intro index
  rw [ledgerTable, lineCount_ledgerText text small, Nat.add_sub_cancel, tableOf,
    List.getElem?_map, List.getElem?_map]
  by_cases bound : index < lines.length
  · have present : (lines ++ [Line.sentinel])[index]? = some lines[index] := by
      rw [List.getElem?_append_left bound, List.getElem?_eq_getElem bound]
    rcases line_fields text small present with ⟨-, -, hash, counter⟩
    rw [List.getElem?_range bound, List.getElem?_eq_getElem bound, Option.map_some,
      Option.map_some, hash, counter]
    rfl
  · rw [List.getElem?_eq_none (by simpa using bound), List.getElem?_eq_none (by simpa using bound)]
    rfl

theorem tableOf_release (ids : List Nat) (lines : List Line) :
    tableOf (releaseLines ids lines) = release ids (tableOf lines) := by
  apply List.ext_getElem?
  intro index
  simp only [tableOf, release, List.getElem?_map, List.getElem?_mapIdx, releaseLines_getElem?,
    Option.map_map]
  rfl

/-! ## One push -/

section

variable {hash : Hash} {lines lines' : List Line} {index : Nat} {isNew : Bool}

private theorem findIdx_split {before : List Line} {line : Line} (after : List Line)
    (select : Slot Bytes → Bool) (skipped : ∀ other ∈ before, select other.slot = false)
    (selected : select line.slot = true) :
    (tableOf (before ++ line :: after)).findIdx select = before.length := by
  have none : (before.map Line.slot).findIdx select = before.length := by
    have all := @List.findIdx_eq_length _ select (before.map Line.slot)
    rw [List.length_map] at all
    exact all.mpr fun slot member => by
      rcases List.mem_map.mp member with ⟨other, otherMember, rfl⟩
      exact skipped other otherMember
  rw [tableOf, List.map_append, List.map_cons, List.findIdx_append, none]
  simp [List.findIdx_cons, selected]

private theorem acquire_split {before : List Line} {line next : Line} (after : List Line)
    (placed : place hash.text (tableOf (before ++ line :: after)) = before.length)
    (slot : next.slot = ⟨hash.text, line.counter + 1⟩) :
    tableOf (before ++ next :: after) = acquire hash.text (tableOf (before ++ line :: after)) := by
  have references : referencesAt (tableOf (before ++ line :: after)) before.length =
      line.counter := by
    simp [referencesAt, tableOf, Line.slot]
  have beforeWidth : (before.map Line.slot).length = before.length := List.length_map _
  rw [acquire, placed, references, ← slot]
  simp only [tableOf, List.map_append, List.map_cons]
  rw [← beforeWidth, List.take_left', List.drop_append]
  · simp
  · rfl

/-- Where there is room, a push is the table's `acquire`, and a block is new only if
its line has no references. -/
theorem Acquire.refines (acquired : Acquire hash lines index isNew lines')
    (room : Room hash.text (tableOf lines)) :
    index = place hash.text (tableOf lines) ∧
      tableOf lines' = acquire hash.text (tableOf lines) ∧
      (isNew = true → ∀ line, lines[index]? = some line → line.counter = 0) := by
  have member : ∀ {line : Line}, line ∈ lines → line.slot ∈ tableOf lines :=
    fun present => List.mem_map_of_mem present
  have without : (∀ other ∈ lines, other.hash ≠ hash) →
      ¬∃ slot ∈ tableOf lines, slot.key = hash.text := by
    rintro absent ⟨slot, slotMember, equal⟩
    rcases List.mem_map.mp slotMember with ⟨line, lineMember, rfl⟩
    exact absent line lineMember (Hash.ext equal)
  have nonzero : ∀ {count : Nat}, count % 10 ≠ 0 → count ≠ 0 := by
    rintro _ notMultiple rfl
    exact notMultiple rfl
  cases acquired with
  | shared before line after first equal =>
      have here : line.slot.key = hash.text := congrArg Hash.text equal
      have few : line.counter < 99 := room.1 line.slot (member (by simp)) here
      have placed : place hash.text (tableOf (before ++ line :: after)) = before.length := by
        rw [place, if_pos ⟨line.slot, member (by simp), here⟩]
        apply findIdx_split
        · intro other otherMember
          have different : other.slot.key ≠ hash.text := fun same =>
            first other otherMember (Hash.ext same)
          simpa using different
        · simpa using here
      refine ⟨placed.symm, acquire_split after placed ?_, fun new line' present => ?_⟩
      · rw [Line.slot, Line.bump, ← here]
        simp only [if_neg few.ne]
        rfl
      · obtain rfl : line = line' := by simpa using present
        simpa using new
  | reused before line after absent taken free =>
      have empty : line.counter = 0 := by
        by_contra counted
        have busy : line.slot ∈
            (tableOf (before ++ line :: after)).takeWhile (·.references ≠ 0) := by
          rw [tableOf, List.map_append, List.takeWhile_append_of_pos, List.map_cons,
            List.takeWhile_cons_of_pos]
          · simp
          · exact decide_eq_true counted
          · intro slot slotMember
            rcases List.mem_map.mp slotMember with ⟨other, otherMember, rfl⟩
            exact decide_eq_true (nonzero (taken other otherMember))
        have others : ∀ slot ∈ tableOf (before ++ line :: after), slot.key ≠ hash.text :=
          fun slot slotMember same => without absent ⟨slot, slotMember, same⟩
        exact room.2 others line.slot busy free
      have placed : place hash.text (tableOf (before ++ line :: after)) = before.length := by
        rw [place, if_neg (without absent)]
        apply findIdx_split
        · exact fun other otherMember => decide_eq_false (nonzero (taken other otherMember))
        · exact decide_eq_true empty
      refine ⟨placed.symm, acquire_split after placed ?_, fun _ line' present => ?_⟩
      · rw [empty]
        rfl
      · obtain rfl : line = line' := by simpa using present
        exact empty
  | appended lines absent taken =>
      have full : (tableOf lines).findIdx (·.references = 0) = lines.length := by
        have all := @List.findIdx_eq_length _ (fun slot : Slot Bytes =>
          decide (slot.references = 0)) (tableOf lines)
        rw [tableOf_length] at all
        apply all.mpr
        intro slot slotMember
        rcases List.mem_map.mp slotMember with ⟨other, otherMember, rfl⟩
        exact decide_eq_false (nonzero (taken other otherMember))
      have placed : place hash.text (tableOf lines) = lines.length := by
        rw [place, if_neg (without absent), full]
      refine ⟨placed.symm, ?_, fun _ line present => ?_⟩
      · rw [acquire, placed, List.take_of_length_le (by simp), List.drop_eq_nil_of_le (by simp)]
        simp [tableOf, referencesAt, Line.slot, Line.stored]
      · simp at present

end

/-- What a push does where there is room: the place of the block's hash gets one
reference more, and no block that is referenced changes. -/
structure Pushed (sha1 : Bytes → Fin 20 → UInt8) (block : Bytes) (storage : Storage)
    (lines : List Line) (references : Multiset Nat) (id : Nat) (storage' : Storage)
    (lines' : List Line) : Prop where
  holds : StoreInvariant sha1 storage' lines'
  table : tableOf lines' = acquire (getHash sha1 block) (tableOf lines)
  counts : Counts (tableOf lines') (id ::ₘ references)
  width : lines'.length ≤ max lines.length (references.card + 1)
  kept : ∀ other ∈ references, storage'.block other = storage.block other
  found : ∃ bytes, storage'.block id = some bytes ∧ getHash sha1 bytes = getHash sha1 block
  origin : ∀ key bytes, storage'.block key = some bytes →
    storage.block key = some bytes ∨ bytes = contents block

section

variable {sha1 : Bytes → Fin 20 → UInt8} {storage : Storage} {lines : List Line}
  {references : Multiset Nat}

theorem StoreInvariant.pushed (holds : StoreInvariant sha1 storage lines)
    (counts : Counts (tableOf lines) references) {block : Bytes}
    (nonzero : getHash sha1 block ≠ zeroHash)
    (room : Room (getHash sha1 block) (tableOf lines)) (few : references.card < 998) :
    ∃ id storage' lines', pushBlock sha1 block storage = some (((id : Nat) : Int), storage') ∧
      Pushed sha1 block storage lines references id storage' lines' := by
  rcases holds.pushBlock_returns block nonzero with
    ⟨index, isNew, lines', storage', returned, acquired, blocks, -, text⟩
  rcases acquired.refines room with ⟨placed, table, fresh⟩
  have counts' : Counts (tableOf lines') ((index + 1) ::ₘ references) := by
    rw [table, placed]
    exact counts.acquire _
  have width : lines'.length ≤ max lines.length (references.card + 1) := by
    rcases acquired.length_or_full with same | ⟨grown, positive⟩
    · exact same.le.trans (le_max_left _ _)
    · have bound := counts'.length_le_card fun slot member => by
        rcases List.mem_map.mp member with ⟨line, lineMember, rfl⟩
        exact positive line lineMember
      rw [tableOf_length, Multiset.card_cons] at bound
      exact bound.trans (le_max_right _ _)
  have small : lines'.length ≤ 998 := by
    have small := holds.small
    omega
  refine ⟨index + 1, storage', lines', returned,
    holds.push nonzero acquired blocks (text small) small, table, counts', width, ?_, ?_, ?_⟩
  · intro other member
    rw [blocks]
    by_cases hit : other = index + 1
    · subst hit
      cases isNew with
      | false => rfl
      | true =>
          rcases counts.inside _ member with ⟨_, bound⟩
          rw [tableOf_length] at bound
          have present := List.getElem?_eq_getElem (show index < lines.length by omega)
          have counted := counts.count index lines[index].slot (by
            rw [tableOf, List.getElem?_map, present, Option.map_some])
          rw [show lines[index].slot.references = lines[index].counter from rfl,
            fresh rfl _ present] at counted
          exact absurd member (Multiset.count_eq_zero.mp counted.symm)
    · exact pushBlocks_other _ _ _ (by omega)
  · have holds' := holds.push nonzero acquired blocks (text small) small
    rcases acquired.acquired with ⟨line, present, equal, positive⟩
    rcases Option.ne_none_iff_exists'.mp
      (holds'.stored index line present positive) with ⟨bytes, stored⟩
    exact ⟨bytes, stored, (holds'.hashed index line bytes present stored).trans
      (congrArg Hash.text equal)⟩
  · intro key bytes found
    rw [blocks] at found
    unfold pushBlocks at found
    split at found
    · by_cases hit : key = (index + 1 : Nat)
      · rw [hit, Function.update_self] at found
        exact .inr (Option.some.inj found).symm
      · rw [Function.update_of_ne hit] at found
        exact .inl found
    · exact .inl found

end

end CE321.Dedup
