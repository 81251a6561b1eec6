import CE321.Dedup.Release
import CE321.Foundation.Records

/-! # ID lists

The bytes of a file of the root directory: one entry of four characters for every
block, and four zero bytes where a write past the end left a hole.
-/

namespace CE321.Dedup

open CString

def entryText : Option Nat → Bytes
  | some id => zeroPadded 3 id ++ [10]
  | none => [0, 0, 0, 0]

def entriesText (entries : List (Option Nat)) : Bytes := (entries.map entryText).flatten

/-- The IDs before the first hole. -/
def leadingIds : List (Option Nat) → List Nat
  | some id :: entries => id :: leadingIds entries
  | _ => []

/-- Entries have three digits. -/
def Small (entries : List (Option Nat)) : Prop := ∀ id, some id ∈ entries → id < 1000

/-- The number of entries of an ID list file that hold the ID. -/
def occurrences (data : Bytes) (id : Nat) : Nat :=
  (List.range (data.length / 4)).countP fun position =>
    slice data (4 * position) 4 = zeroPadded 3 id ++ [10]

/-- No entry follows a hole: after its first zero byte a string has no other bytes. -/
def NoIdAfterHole (text : Bytes) : Prop := ∀ byte ∈ text.drop (strlen text), byte = 0

instance (text : Bytes) : Decidable (NoIdAfterHole text) :=
  inferInstanceAs (Decidable (∀ byte ∈ text.drop (strlen text), byte = 0))

def releasedIds (text : Bytes) : List Nat :=
  (List.range (strlen text / 4)).map fun position => (atoi (slice text (position * 4) 3)).toNat

theorem entriesText_ids (ids : List Nat) : entriesText (ids.map some) = idText ids := by
  rw [entriesText, idText, List.map_map, List.flatMap_def]
  rfl

theorem entriesText_append (before after : List (Option Nat)) :
    entriesText (before ++ after) = entriesText before ++ entriesText after := by
  simp [entriesText]

section

variable {entries : List (Option Nat)} (small : Small entries)
include small

theorem entryText_length : ∀ record ∈ entries.map entryText, record.length = 4 := by
  intro record member
  rcases List.mem_map.mp member with ⟨entry, entryMember, rfl⟩
  cases entry with
  | none => rfl
  | some id =>
      simp [entryText, zeroPadded_length (show id < 10 ^ 3 from small id entryMember)]

theorem entriesText_length : (entriesText entries).length = 4 * entries.length := by
  rw [entriesText, flatten_length (entryText_length small), List.length_map]

theorem slice_entriesText (index count : Nat) :
    slice (entriesText entries) (4 * index) (4 * count) =
      entriesText ((entries.drop index).take count) := by
  rw [entriesText, slice_flatten (entryText_length small), entriesText, List.map_take,
    List.map_drop]

theorem patch_entriesText (index : Nat) {ids : List Nat} (idsSmall : ∀ id ∈ ids, id < 1000) :
    patch (entriesText entries) (4 * index) (idText ids) =
      entriesText (patchRecords none entries index (ids.map some)) := by
  have newSmall : Small (ids.map some) := fun id member => by
    rcases List.mem_map.mp member with ⟨other, otherMember, equal⟩
    exact Option.some.inj equal ▸ idsSmall other otherMember
  have text := patch_flatten (entryText_length small) (by decide) index
    (entryText_length newSmall)
  rw [← entriesText_ids, entriesText, entriesText, text, entriesText, patchRecords_map]
  rfl

end

/-! ## Holes -/

theorem leadingIds_split (entries : List (Option Nat)) :
    ∃ rest, entries = (leadingIds entries).map some ++ rest ∧
      ∀ entry, rest.head? = some entry → entry = none := by
  induction entries with
  | nil => exact ⟨[], rfl, by simp⟩
  | cons entry entries induction =>
      cases entry with
      | none => exact ⟨none :: entries, rfl, by simp⟩
      | some id =>
          rcases induction with ⟨rest, split, hole⟩
          exact ⟨rest, congrArg (some id :: ·) split, hole⟩

theorem reduceOption_map_some (ids : List Nat) : (ids.map some).reduceOption = ids := by
  induction ids with
  | nil => rfl
  | cons id ids induction =>
      rw [List.map_cons, List.reduceOption_cons_of_some, induction]

theorem leadingIds_map_some (ids : List Nat) : leadingIds (ids.map some) = ids := by
  induction ids with
  | nil => rfl
  | cons id ids induction => exact congrArg (id :: ·) induction

section

variable {entries : List (Option Nat)} (small : Small entries)
include small

theorem leadingIds_small : ∀ id ∈ leadingIds entries, id < 1000 := by
  intro id member
  rcases leadingIds_split entries with ⟨rest, split, _⟩
  exact small id (split ▸ List.mem_append_left _ (List.mem_map_of_mem member))

/-- As a C string, an ID list is cut at its first hole. -/
theorem contents_entriesText : contents (entriesText entries) = idText (leadingIds entries) := by
  rcases leadingIds_split entries with ⟨rest, split, hole⟩
  have zeroFree := idText_zero_free (leadingIds_small small)
  have stops : contents (entriesText rest) = [] := by
    cases rest with
    | nil => rfl
    | cons entry rest =>
        obtain rfl := hole entry rfl
        simp [entriesText, entryText, contents]
  rw [split, entriesText_append, entriesText_ids, ← split, contents, List.takeWhile_append_of_pos]
  · rw [← contents, stops, List.append_nil]
  · intro byte member
    have different : byte ≠ 0 := fun equal => zeroFree (equal ▸ member)
    simpa using different

theorem strlen_entriesText : strlen (entriesText entries) = 4 * (leadingIds entries).length := by
  rw [strlen, contents_entriesText small, idText_length (leadingIds_small small)]

theorem slice_leading {position : Nat} {id : Nat}
    (present : (leadingIds entries)[position]? = some id) :
    slice (entriesText entries) (position * 4) 3 = zeroPadded 3 id := by
  rcases leadingIds_split entries with ⟨rest, split, _⟩
  rcases List.getElem?_eq_some_iff.mp present with ⟨bound, equal⟩
  have smallIds := leadingIds_small small
  obtain ⟨before, after, idSplit, width⟩ : ∃ before after,
      leadingIds entries = before ++ id :: after ∧ before.length = position :=
    ⟨(leadingIds entries).take position, (leadingIds entries).drop (position + 1),
      by simp [← equal], by simp; omega⟩
  have text : entriesText entries = idText before ++ (zeroPadded 3 id ++
      ([10] ++ idText after ++ entriesText rest)) := by
    rw [split, entriesText_append, entriesText_ids, idSplit, idText_append, idText_cons]
    simp
  have beforeSmall : ∀ other ∈ before, other < 1000 := fun other member =>
    smallIds other (idSplit ▸ List.mem_append_left _ member)
  have fits : id < 10 ^ 3 := smallIds id (idSplit ▸ by simp)
  have field := @slice_inside (idText before) (zeroPadded 3 id)
    ([10] ++ idText after ++ entriesText rest)
  rw [zeroPadded_length fits, idText_length beforeSmall, width, ← text] at field
  rwa [Nat.mul_comm] at field

theorem releasedIds_entriesText : releasedIds (entriesText entries) = leadingIds entries := by
  apply List.ext_getElem?
  intro position
  rw [releasedIds, strlen_entriesText small, Nat.mul_div_cancel_left _ (by decide),
    List.getElem?_map]
  by_cases bound : position < (leadingIds entries).length
  · have present := List.getElem?_eq_getElem bound
    have fits := leadingIds_small small _ (List.mem_of_getElem? present)
    rw [List.getElem?_range bound, present, Option.map_some, slice_leading small present,
      atoi_zeroPadded_self (by decide) (show _ < 10 ^ 3 from fits), Int.toNat_natCast]
  · rw [List.getElem?_eq_none (by simpa using bound), List.getElem?_eq_none (by simpa using bound)]
    rfl

theorem NoIdAfterHole.reduceOption (noId : NoIdAfterHole (entriesText entries)) :
    entries.reduceOption = leadingIds entries := by
  rcases leadingIds_split entries with ⟨rest, split, _⟩
  have restText : (entriesText entries).drop (strlen (entriesText entries)) =
      entriesText rest := by
    have width := idText_length (leadingIds_small small)
    have text : entriesText entries = idText (leadingIds entries) ++ entriesText rest := by
      rw [← entriesText_ids, ← entriesText_append, ← split]
    rw [strlen_entriesText small, ← width, text, List.drop_left]
  have holes : ∀ entry ∈ rest, entry = none := by
    intro entry member
    cases entry with
    | none => rfl
    | some id =>
        have newline : (10 : UInt8) ∈ entriesText rest := by
          apply List.mem_flatten.mpr
          exact ⟨entryText (some id), List.mem_map_of_mem member, by simp [entryText]⟩
        have zero := noId 10 (restText.symm ▸ newline)
        exact absurd zero (by decide)
  have restNone : rest.reduceOption = [] := by
    rw [List.eq_replicate_of_mem holes, List.reduceOption_replicate_none]
  conv_lhs => rw [split]
  rw [List.reduceOption_append, restNone, List.append_nil, reduceOption_map_some]

end

theorem noIdAfterHole_idText {ids : List Nat} (small : ∀ id ∈ ids, id < 1000) :
    NoIdAfterHole (idText ids) := by
  intro byte member
  rw [strlen_of_zero_free (idText_zero_free small), List.drop_length] at member
  cases member

/-! ## Releasing what a string holds -/

theorem removeBlocksLoop_congr {input other : Bytes} (count : Nat) :
    ∀ (j : Nat) (counterChar : Bytes) (storage : Storage),
    (∀ position, j ≤ position → position < j + count →
      slice input (position * 4) 3 = slice other (position * 4) 3) →
    removeBlocksLoop input count j counterChar storage =
      removeBlocksLoop other count j counterChar storage := by
  induction count with
  | zero => intros; rfl
  | succ count induction =>
      intro j counterChar storage same
      have here := same j le_rfl (by omega)
      have rest := fun counterChar storage => induction (j + 1) counterChar storage
        fun position after before => same position (by omega) (by omega)
      simp only [removeBlocksLoop, here, rest]

theorem removeBlocks_entriesText {entries : List (Option Nat)} (small : Small entries)
    (storage : Storage) : removeBlocks (entriesText entries) storage =
      removeBlocks (idText (leadingIds entries)) storage := by
  have leadingSmall := leadingIds_small small
  have sameIds := leadingIds_map_some (leadingIds entries)
  have idsSmall : Small ((leadingIds entries).map some) := fun id member => by
    rcases List.mem_map.mp member with ⟨other, otherMember, equal⟩
    exact Option.some.inj equal ▸ leadingSmall other otherMember
  rw [removeBlocks, removeBlocks, strlen_entriesText small, ← entriesText_ids,
    strlen_entriesText idsSmall, sameIds]
  apply removeBlocksLoop_congr
  intro position _ bound
  rw [Nat.zero_add, Nat.mul_div_cancel_left _ (by decide)] at bound
  obtain ⟨id, present⟩ : ∃ id, (leadingIds entries)[position]? = some id :=
    ⟨_, List.getElem?_eq_getElem bound⟩
  rw [slice_leading small present, slice_leading idsSmall (by rw [sameIds, present])]

/-! ## Occurrences -/

theorem entryText_inj {entry : Option Nat} {id : Nat}
    (entryFits : ∀ other, entry = some other → other < 1000) (fits : id < 1000) :
    entryText entry = zeroPadded 3 id ++ [10] ↔ entry = some id := by
  have newline : EndsNumber [10] := by simp [EndsNumber, isDigit]
  have value : atoi (zeroPadded 3 id ++ [10]) = id :=
    atoi_zeroPadded (by decide) (show id < 10 ^ 3 from fits) newline
  constructor
  · intro equal
    cases entry with
    | none =>
        have last := congrArg List.getLast? equal
        simp [entryText] at last
    | some other =>
        have otherValue : atoi (zeroPadded 3 other ++ [10]) = other :=
          atoi_zeroPadded (by decide) (show other < 10 ^ 3 from entryFits other rfl) newline
        rw [entryText] at equal
        rw [equal, value] at otherValue
        exact congrArg some (Int.ofNat.inj otherValue.symm)
  · rintro rfl
    rfl

theorem occurrences_entriesText {entries : List (Option Nat)} (small : Small entries) {id : Nat}
    (fits : id < 1000) :
    occurrences (entriesText entries) id = (entries.reduceOption : Multiset Nat).count id := by
  have counted : occurrences (entriesText entries) id = entries.count (some id) := by
    have entry : ∀ position ∈ List.range entries.length,
        decide (slice (entriesText entries) (4 * position) 4 = zeroPadded 3 id ++ [10]) =
          decide (entries[position]? = some (some id)) := by
      intro position member
      have bound := List.mem_range.mp member
      have present := List.getElem?_eq_getElem bound
      have one : (entries.drop position).take 1 = [entries[position]] := by
        rw [List.drop_eq_getElem_cons bound]
        rfl
      have slot := slice_entriesText small position 1
      rw [Nat.mul_one, one] at slot
      have text : entriesText [entries[position]] = entryText entries[position] := by
        simp [entriesText]
      rw [slot, text, present]
      apply decide_eq_decide.mpr
      rw [Option.some.injEq]
      exact entryText_inj (fun other equal => small other (equal ▸ List.mem_of_getElem? present)) fits
    rw [occurrences, entriesText_length small, Nat.mul_div_cancel_left _ (by decide),
      List.countP_congr fun position member => by rw [entry position member]]
    clear entry small
    induction entries with
    | nil => rfl
    | cons head entries induction =>
        rw [List.length_cons, List.range_succ_eq_map, List.countP_cons, List.countP_map,
          List.count_cons, ← induction]
        simp [Function.comp_def]
  rw [counted, Multiset.coe_count]
  clear counted small
  induction entries with
  | nil => rfl
  | cons entry entries induction =>
      cases entry with
      | none => simpa using induction
      | some other => simp [List.count_cons, induction]

end CE321.Dedup
