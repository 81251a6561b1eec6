import CE321.Dedup.Volume

/-! # Counters and references in balance

The counters of a ledger against the entries of some ID lists, byte by byte, and as a
table that counts references. A table counts one multiset of references only.
-/

namespace CE321.Dedup

open CString RefTable

/-- The entries that `bb_unlink` hands to `removeBlocks`. -/
def handedOver (entries : List (Option Nat)) : List (Option Nat) :=
  entries.take (entriesAsked entries.length).toNat

theorem mem_of_handedOver {entries : List (Option Nat)} {entry : Option Nat}
    (member : entry ∈ handedOver entries) : entry ∈ entries :=
  List.mem_of_mem_take member

/-- The IDs of a list are those in front of the first hole of what is handed over and the
others. -/
theorem reduceOption_handedOver (entries : List (Option Nat)) : ∃ behind : List Nat,
    entries.reduceOption = leadingIds (handedOver entries) ++ behind := by
  rcases leadingIds_split (handedOver entries) with ⟨rest, split, _⟩
  have whole : entries = (leadingIds (handedOver entries)).map some ++
      (rest ++ entries.drop (entriesAsked entries.length).toNat) := by
    rw [← List.append_assoc, ← split, handedOver, List.take_append_drop]
  refine ⟨(rest ++ entries.drop (entriesAsked entries.length).toNat).reduceOption, ?_⟩
  conv_lhs => rw [whole]
  rw [List.reduceOption_append, reduceOption_map_some]

theorem eq_sub_iff {whole part : Multiset Nat} (included : part ≤ whole) :
    whole = whole - part ↔ part = 0 := by
  constructor
  · intro same
    have cards := congrArg Multiset.card (same.symm.trans (tsub_add_cancel_of_le included).symm)
    rw [Multiset.card_add] at cards
    exact Multiset.card_eq_zero.mp (by omega)
  · rintro rfl
    rw [tsub_zero]

section

variable {File : Type}

/-- Every counter is the number of entries with its ID in the lists of the files, and a block
file exists where there is one. -/
def Balanced (storage : Storage) (files : Finset File) (list : File → Bytes) : Prop :=
  ∀ index < lineCount storage.hashFile.data, ∀ id : Nat,
    lineId storage.hashFile.data index = id →
    lineCounter storage.hashFile.data index =
        (∑ file ∈ files, occurrences (list file) id : Nat) ∧
      (storage.block id ≠ none ↔ 0 < ∑ file ∈ files, occurrences (list file) id)

/-- The ledger has the given lines and the sentinel, and the lists have entries, with IDs of
lines. -/
structure InFormat (storage : Storage) (lines : List Line) (files : Finset File)
    (entries : File → List (Option Nat)) (list : File → Bytes) : Prop where
  text : storage.hashFile.data = ledgerText lines
  small : lines.length ≤ 998
  lists : ∀ file ∈ files, list file = entriesText (entries file)
  inside : ∀ file ∈ files, ∀ id, some id ∈ entries file → 0 < id ∧ id ≤ lines.length

/-- The block files are those of the lines with references. -/
def BlocksMatch (lines : List Line) (block : Int → Option Bytes) : Prop :=
  ∀ index line, (lines ++ [Line.sentinel])[index]? = some line →
    (block (index + 1 : Nat) ≠ none ↔ 0 < line.counter)

variable {storage : Storage} {lines : List Line} {files : Finset File}
  {entries : File → List (Option Nat)} {list : File → Bytes}

theorem InFormat.entriesSmall (format : InFormat storage lines files entries list) {file : File}
    (member : file ∈ files) : Small (entries file) := by
  intro id present
  have bound := (format.inside file member id present).2
  have small := format.small
  omega

theorem InFormat.sum_occurrences (format : InFormat storage lines files entries list) {id : Nat}
    (fits : id < 1000) : ∑ file ∈ files, occurrences (list file) id =
      (references files entries).count id := by
  rw [references, Multiset.count_sum']
  apply Finset.sum_congr rfl
  intro file member
  rw [format.lists file member, occurrences_entriesText (format.entriesSmall member) fits]

theorem InFormat.mem_references (format : InFormat storage lines files entries list) {id : Nat}
    (member : id ∈ references files entries) : 0 < id ∧ id ≤ lines.length := by
  rcases Multiset.mem_sum.mp member with ⟨file, fileMember, present⟩
  exact format.inside file fileMember id (List.reduceOption_mem_iff.mp (Multiset.mem_coe.mp present))

/-- The bytes are in balance if and only if the table of the lines counts the references. -/
theorem InFormat.balanced_iff (format : InFormat storage lines files entries list) :
    Balanced storage files list ↔
      Counts (tableOf lines) (references files entries) ∧ BlocksMatch lines storage.block := by
  have small := format.small
  have atLine : ∀ index line, (lines ++ [Line.sentinel])[index]? = some line →
      index < lineCount storage.hashFile.data ∧
      lineId storage.hashFile.data index = (index + 1 : Nat) ∧
      lineCounter storage.hashFile.data index = line.counter ∧
      ∑ file ∈ files, occurrences (list file) (index + 1) =
        (references files entries).count (index + 1) := by
    intro index line present
    have bound := (List.getElem?_eq_some_iff.mp present).1
    rw [List.length_append, List.length_singleton] at bound
    rcases line_fields format.text small present with ⟨_, idField, _, counter⟩
    refine ⟨?_, idField, counter, format.sum_occurrences (by omega)⟩
    rwa [lineCount_ledgerText format.text small]
  have lastCount : (references files entries).count (lines.length + 1) = 0 := by
    apply Multiset.count_eq_zero_of_notMem
    intro member
    have bound := (format.mem_references member).2
    omega
  constructor
  · intro balanced
    have counted : ∀ index line, (lines ++ [Line.sentinel])[index]? = some line →
        line.counter = (references files entries).count (index + 1) ∧
          (storage.block (index + 1 : Nat) ≠ none ↔ 0 < line.counter) := by
      intro index line present
      rcases atLine index line present with ⟨inside, idField, counter, sum⟩
      rcases balanced index inside (index + 1) idField with ⟨equal, held⟩
      rw [counter, sum] at equal
      rw [sum] at held
      have same : line.counter = (references files entries).count (index + 1) := by omega
      exact ⟨same, by rwa [same]⟩
    refine ⟨⟨?_, fun id member => ?_⟩, fun index line present => (counted index line present).2⟩
    · intro index slot present
      rw [tableOf, List.getElem?_map] at present
      rcases Option.map_eq_some_iff.mp present with ⟨line, there, rfl⟩
      have inside := (List.getElem?_eq_some_iff.mp there).1
      exact (counted index line (by rw [List.getElem?_append_left inside, there])).1
    · rw [tableOf_length]
      exact format.mem_references member
  · rintro ⟨counts, blocks⟩ index inside id named
    rcases line_present format.text small inside with ⟨line, present⟩
    rcases atLine index line present with ⟨_, idField, counter, sum⟩
    obtain rfl : index + 1 = id := by omega
    have same : line.counter = (references files entries).count (index + 1) := by
      rcases Nat.lt_or_ge index lines.length with early | last
      · rw [List.getElem?_append_left early] at present
        exact counts.count index line.slot (by
          rw [tableOf, List.getElem?_map, present, Option.map_some])
      · have atEnd : index = lines.length := by
          have bound := (List.getElem?_eq_some_iff.mp present).1
          rw [List.length_append, List.length_singleton] at bound
          omega
        rw [atEnd, List.getElem?_concat_length] at present
        rw [atEnd, lastCount, ← Option.some.inj present]
        rfl
    rw [counter, sum, ← same]
    exact ⟨rfl, blocks index line present⟩

/-- A state with the same lines and references keeps its balance, any other one loses it. -/
theorem InFormat.keeps_iff (format : InFormat storage lines files entries list)
    {references' : Multiset Nat} (counts : Counts (tableOf lines) references')
    (blocks : BlocksMatch lines storage.block) :
    Balanced storage files list ↔ references files entries = references' := by
  rw [format.balanced_iff]
  constructor
  · rintro ⟨counts', _⟩
    exact counts'.unique counts
  · rintro rfl
    exact ⟨counts, blocks⟩

theorem BlocksMatch.stored {block : Int → Option Bytes} (blocks : BlocksMatch lines block) :
    Stored lines block := by
  intro index line present positive
  have inside := (List.getElem?_eq_some_iff.mp present).1
  exact (blocks index line (by rw [List.getElem?_append_left inside, present])).mpr positive

theorem BlocksMatch.release {block : Int → Option Bytes} (blocks : BlocksMatch lines block)
    (ids : List Nat) :
    BlocksMatch (releaseLines ids lines) (releaseBlocks ids lines block) := by
  intro index line present
  rw [← releaseLines_sentinel, releaseLines_getElem?] at present
  rcases Option.map_eq_some_iff.mp present with ⟨old, there, rfl⟩
  have before := blocks index old there
  rw [Line.releaseBy_counter, ← releaseBlocks_sentinel, releaseBlocks_index _ _ _ there]
  split
  · exact iff_of_false (by simp) (by omega)
  · rw [before]
    omega

/-- The storage after some IDs of the lists were released. -/
structure ReleasedFrom (ids : List Nat) (lines : List Line) (references : Multiset Nat)
    (storage' : Storage) : Prop where
  text : storage'.hashFile.data = ledgerText (releaseLines ids lines)
  counts : Counts (tableOf (releaseLines ids lines)) (references - (ids : Multiset Nat))
  blocks : BlocksMatch (releaseLines ids lines) storage'.block

theorem InFormat.handed (format : InFormat storage lines files entries list) {file : File}
    (member : file ∈ files) :
    getOverwrittenBlocks (list file) (toInt32 ((toInt32 (list file).length).tdiv 4 * base)) 0
        base =
      if entriesAsked (entries file).length < 0 then none
      else some (entriesText (handedOver (entries file))) := by
  have small := format.entriesSmall member
  have front := slice_entriesText small 0 (entriesAsked (entries file).length).toNat
  rw [Nat.mul_zero, slice, List.drop_zero, List.drop_zero] at front
  rw [format.lists file member, getOverwrittenBlocks_unlink (entriesText_length small), front,
    handedOver]

theorem InFormat.released (format : InFormat storage lines files entries list)
    (balanced : Balanced storage files list) {file : File} (member : file ∈ files) :
    ∃ storage', removeBlocks (entriesText (handedOver (entries file))) storage = (0, storage') ∧
      ReleasedFrom (leadingIds (handedOver (entries file))) lines (references files entries)
        storage' := by
  rcases format.balanced_iff.mp balanced with ⟨counts, blocks⟩
  have small : Small (handedOver (entries file)) := fun id idMember =>
    format.entriesSmall member id (mem_of_handedOver idMember)
  have present : ∀ id ∈ leadingIds (handedOver (entries file)),
      0 < id ∧ id ≤ lines.length + 1 := by
    intro id idMember
    rcases leadingIds_split (handedOver (entries file)) with ⟨rest, split, _⟩
    have inFront : some id ∈ handedOver (entries file) :=
      split ▸ List.mem_append_left _ (List.mem_map_of_mem idMember)
    have bounds := format.inside file member id (mem_of_handedOver inFront)
    omega
  rcases removeBlocks_releases _ storage lines format.text format.small present blocks.stored with
    ⟨storage', returned, text, blocks'⟩
  refine ⟨storage', ?_, text, ?_, ?_⟩
  · rw [removeBlocks_entriesText small, returned]
  · rw [tableOf_release]
    exact counts.release _
  · rw [blocks']
    exact blocks.release _

theorem InFormat.afterRelease (format : InFormat storage lines files entries list)
    {ids : List Nat} {references' : Multiset Nat} {storage' : Storage}
    (released : ReleasedFrom ids lines references' storage') {files' : Finset File}
    (fewer : files' ⊆ files) :
    InFormat storage' (releaseLines ids lines) files' entries list where
  text := released.text
  small := by simpa using format.small
  lists := fun file member => format.lists file (fewer member)
  inside := by
    intro file member id present
    rw [releaseLines_length]
    exact format.inside file (fewer member) id present

theorem leading_le_references [DecidableEq File] {file : File} (member : file ∈ files) :
    ((leadingIds (handedOver (entries file)) : List Nat) : Multiset Nat) ≤
      references files entries := by
  rcases reduceOption_handedOver (entries file) with ⟨behind, ids⟩
  rw [references_split member, ids, ← Multiset.coe_add, add_assoc]
  exact Multiset.le_add_right _ _

end

end CE321.Dedup
