import CE321.Dedup.Volume

/-! # The counters over a run

On careful runs the two digits of every ledger line are the number of entries of
all files that hold its ID, and a block file exists while there is such an entry.
-/

namespace CE321.Dedup

open CString RefTable

section

variable {Path : Type} [DecidableEq Path] {sha1 : Bytes → Fin 20 → UInt8}
  {state : BbState Path} {lines : List Line} {entries : Path → List (Option Nat)}

theorem VolumeInvariant.step (volume : VolumeInvariant sha1 state lines entries) {op : Op Path}
    (admissible : Admissible state.names op) (careful : Careful sha1 state op) :
    ∃ state' lines' entries', bbStep sha1 state op = some state' ∧
      VolumeInvariant sha1 state' lines' entries' := by
  cases op with
  | mknod path =>
      rcases volume.mknod admissible with ⟨state', returned, _, _, volume'⟩
      exact ⟨state', lines, _, returned, volume'⟩
  | write path buf offset =>
      rcases volume.write admissible careful with
        ⟨_, _, state', lines', returned, _, _, _, _, volume'⟩
      exact ⟨state', lines', _, returned, volume'⟩
  | unlink path =>
      rcases volume.unlink admissible careful with ⟨state', returned, _, _, volume'⟩
      exact ⟨state', _, entries, returned, volume'⟩

theorem VolumeInvariant.run (ops : List (Op Path)) :
    ∀ {state : BbState Path} {lines entries}, VolumeInvariant sha1 state lines entries →
      CarefulRun sha1 state ops →
      ∃ state' lines' entries', bbRun sha1 ops state = some state' ∧
        VolumeInvariant sha1 state' lines' entries' := by
  induction ops with
  | nil =>
      intro state lines entries volume _
      exact ⟨state, lines, entries, rfl, volume⟩
  | cons op ops induction =>
      intro state lines entries volume run
      rcases run with ⟨⟨admissible, careful⟩, rest⟩
      rcases volume.step admissible careful with ⟨next, lines₁, entries₁, returned, volume₁⟩
      rcases induction volume₁ (rest next returned) with
        ⟨final, lines₂, entries₂, returned₂, volume₂⟩
      exact ⟨final, lines₂, entries₂, by rw [bbRun, returned, Option.bind_some, returned₂],
        volume₂⟩

theorem VolumeInvariant.sum_occurrences (volume : VolumeInvariant sha1 state lines entries)
    {id : Nat} (fits : id < 1000) :
    ∑ path ∈ state.names, occurrences (state.idFile path) id =
      (references state.names entries).count id := by
  rw [references, Multiset.count_sum']
  refine Finset.sum_congr rfl fun path member => ?_
  rw [volume.files path member, occurrences_entriesText (volume.small member) fits]

theorem VolumeInvariant.counters (volume : VolumeInvariant sha1 state lines entries)
    {index id : Nat} (bound : index < lineCount state.hashFile.data)
    (numbered : lineId state.hashFile.data index = id) :
    lineCounter state.hashFile.data index =
        (∑ path ∈ state.names, occurrences (state.idFile path) id : Nat) ∧
      (state.block id ≠ none ↔
        0 < ∑ path ∈ state.names, occurrences (state.idFile path) id) := by
  rcases line_present volume.holds.text volume.holds.small bound with ⟨line, there⟩
  rcases line_fields volume.holds.text volume.holds.small there with ⟨-, idField, -, counter⟩
  obtain rfl : index + 1 = id := by omega
  have small := volume.holds.small
  rw [lineCount_ledgerText volume.holds.text small] at bound
  have counted : line.counter = (references state.names entries).count (index + 1) := by
    rcases Nat.lt_or_ge index lines.length with inside | last
    · rw [List.getElem?_append_left inside] at there
      exact volume.counts.count index line.slot (by
        rw [tableOf, List.getElem?_map, there, Option.map_some])
    · have sentinel : line = Line.sentinel := by
        rw [List.getElem?_append_right last] at there
        exact List.mem_singleton.mp (List.mem_of_getElem? there)
      rw [sentinel, Multiset.count_eq_zero.mpr]
      · rfl
      · intro member
        have range := (volume.counts.inside _ member).2
        rw [tableOf_length] at range
        omega
  rw [volume.sum_occurrences (by omega), counter, counted]
  refine ⟨rfl, ?_⟩
  rw [volume.holds.held]
  constructor
  · rintro ⟨position, other, present, positive, equal⟩
    obtain rfl : index = position := by omega
    have inside := (List.getElem?_eq_some_iff.mp present).1
    rw [List.getElem?_append_left inside, present] at there
    rwa [← counted, ← Option.some.inj there]
  · intro positive
    rcases Nat.lt_or_ge index lines.length with inside | last
    · rw [List.getElem?_append_left inside] at there
      exact ⟨index, line, there, counted ▸ positive, rfl⟩
    · have range := (volume.counts.inside _ (Multiset.count_pos.mp positive)).2
      rw [tableOf_length] at range
      omega

/-- In every state that a careful run reaches, the counter of every ledger line is the
number of entries with its ID in all files, and the block file of the ID exists if
and only if there is one. -/
theorem counters_exact (ops : List (Op Path))
    (run : CarefulRun sha1 (bbInit : BbState Path) ops) :
    ∃ state, bbRun sha1 ops (bbInit : BbState Path) = some state ∧
      ∀ index < lineCount state.hashFile.data, ∀ id : Nat,
        lineId state.hashFile.data index = id →
        lineCounter state.hashFile.data index =
            (∑ path ∈ state.names, occurrences (state.idFile path) id : Nat) ∧
          (state.block id ≠ none ↔
            0 < ∑ path ∈ state.names, occurrences (state.idFile path) id) := by
  rcases VolumeInvariant.run ops .init run with ⟨state, lines, entries, returned, volume⟩
  exact ⟨state, returned, fun index bound id numbered => volume.counters bound numbered⟩

end

/-! ## Two blocks -/

def digestOfAs : Bytes :=
  [0x8c, 0x51, 0xfb, 0x6a, 0x0b, 0x58, 0x7e, 0xc9, 0x5c, 0xa7,
    0x4a, 0xcf, 0xa4, 0x3d, 0xf7, 0x53, 0x9b, 0x48, 0x62, 0x97]

def digestOfBs : Bytes :=
  [0x1e, 0x41, 0xf7, 0xa5, 0x9e, 0x80, 0xc6, 0xeb, 0x4d, 0xc0,
    0x43, 0xca, 0xae, 0x80, 0xd2, 0x73, 0xf1, 0x30, 0xbe, 0xd8]

/-- A table of the two digests. -/
def sha1OfBlocks (input : Bytes) (i : Fin 20) : UInt8 :=
  (if input.head? = some 97 then digestOfAs else digestOfBs).getD i 0

def filled (count : Nat) (character : UInt8) : Bytes := List.replicate count character

@[simp] theorem filled_length (count : Nat) (character : UInt8) :
    (filled count character).length = count :=
  List.length_replicate

theorem slice_filled (character : UInt8) {count offset width : Nat}
    (inside : offset + width ≤ count) :
    slice (filled count character) offset width = filled width character := by
  rw [slice, filled, List.drop_replicate, List.take_replicate, min_eq_left (by omega), filled]

theorem blocksOf_filled (count : Nat) (character : UInt8) :
    blocksOf (filled (4096 * count) character) = List.replicate count (filled 4096 character) := by
  rw [blocksOf, filled_length, Nat.mul_div_cancel_left _ (by decide)]
  apply List.eq_replicate_iff.mpr
  refine ⟨by simp, fun block member => ?_⟩
  rcases List.mem_map.mp member with ⟨i, inRange, rfl⟩
  have bound := List.mem_range.mp inRange
  exact slice_filled character (by omega)

theorem filled_zero_free (count : Nat) {character : UInt8} (nonzero : character ≠ 0) :
    0 ∉ filled count character := fun member =>
  nonzero (List.eq_of_mem_replicate member).symm

theorem getHash_filled {character : UInt8} (nonzero : character ≠ 0) :
    getHash sha1OfBlocks (filled 4096 character) = getHash sha1OfBlocks [character] := by
  have head : ∀ i, sha1OfBlocks (filled 4096 character) i = sha1OfBlocks [character] i :=
    fun i => rfl
  rw [getHash, getHash, contents_of_zero_free (filled_zero_free _ nonzero),
    contents_of_zero_free (by simpa using nonzero.symm), funext head]

theorem filled_printable {count : Nat} {character : UInt8} (plain : character ≠ 37) :
    ∀ block ∈ blocksOf (filled (4096 * count) character), noConversion (contents block) := by
  intro block member
  rw [blocksOf_filled] at member
  apply noConversion_of_percent_free
  intro percent
  have inBlock := (List.takeWhile_prefix _).subset percent
  rw [List.eq_of_mem_replicate member] at inBlock
  exact plain (List.eq_of_mem_replicate inBlock).symm

attribute [irreducible] filled

/-! ## A first file -/

section

variable {Path : Type} [DecidableEq Path] (path : Path)

/-- The state after one file was made. -/
def oneFile : BbState Path where
  toStorage := initStorage
  names := {path}
  idFile := Function.update (fun _ => []) path []

theorem bbStep_mknod_init :
    bbStep sha1OfBlocks (bbInit : BbState Path) (.mknod path) = some (oneFile path) := rfl

theorem oneFile_volume :
    VolumeInvariant sha1OfBlocks (oneFile path) [] (Function.update (fun _ => []) path []) := by
  have admissible : Admissible (bbInit : BbState Path).names (.mknod path) := by
    simp [Admissible, bbInit]
  rcases VolumeInvariant.init.mknod admissible with ⟨state', returned, _, _, volume⟩
  rw [bbStep_mknod_init] at returned
  exact Option.some.inj returned ▸ volume

theorem oneFile_overwritten (buf : Bytes) (offset : Nat) :
    overwritten (oneFile path) path buf offset = [] := by
  simp [overwritten, oneFile, slice]

theorem oneFile_roomy {count index : Nat} {character : UInt8} (nonzero : character ≠ 0)
    (room : RoomForAll (List.replicate count (getHash sha1OfBlocks [character])) []) :
    Roomy sha1OfBlocks (oneFile path)
      (.write path (filled (4096 * count) character) (4096 * index)) := by
  have start : ledgerTable (oneFile path).hashFile.data = [] :=
    show ledgerTable initStorage.hashFile.data = [] by decide
  rw [Roomy, oneFile_overwritten, start, blocksOf_filled, List.map_replicate,
    getHash_filled nonzero]
  exact room

theorem oneFile_careful {count index : Nat} {character : UInt8} (nonzero : character ≠ 0)
    (plain : character ≠ 37) (hashNonzero : getHash sha1OfBlocks [character] ≠ zeroHash)
    (room : RoomForAll (List.replicate count (getHash sha1OfBlocks [character])) []) :
    Careful sha1OfBlocks (oneFile path)
      (.write path (filled (4096 * count) character) (4096 * index)) := by
  refine ⟨?_, ?_, filled_printable plain, oneFile_roomy path nonzero room⟩
  · rw [oneFile_overwritten]
    simp [NoIdAfterHole]
  · intro block member
    rw [blocksOf_filled] at member
    rw [List.eq_of_mem_replicate member, getHash_filled nonzero]
    exact hashNonzero

theorem oneFile_admissible {count index : Nat} {character : UInt8} (nonzero : character ≠ 0)
    (fits : index + count ≤ 16) :
    Admissible (oneFile path).names
      (.write path (filled (4096 * count) character) (4096 * index)) :=
  ⟨by simp [oneFile], by simp, by simp, by rw [filled_length]; omega,
    filled_zero_free _ nonzero⟩

end

theorem counters_exact_oneFile :
    ∃ state, bbRun sha1OfBlocks [.mknod (), .write () (filled 4096 97) 0]
        (bbInit : BbState Unit) = some state ∧
      ∀ index < lineCount state.hashFile.data, ∀ id : Nat,
        lineId state.hashFile.data index = id →
        lineCounter state.hashFile.data index =
            (∑ path ∈ state.names, occurrences (state.idFile path) id : Nat) ∧
          (state.block id ≠ none ↔
            0 < ∑ path ∈ state.names, occurrences (state.idFile path) id) := by
  apply counters_exact
  refine ⟨⟨by simp [Admissible, bbInit], trivial⟩, fun state returned => ?_⟩
  rw [bbStep_mknod_init] at returned
  obtain rfl := Option.some.inj returned
  exact ⟨⟨@oneFile_admissible _ _ () 1 0 97 (by decide) (by decide),
    @oneFile_careful _ _ () 1 0 97 (by decide) (by decide) (by decide +kernel)
      (by decide +kernel)⟩,
    fun _ _ => trivial⟩

/-- The file is written one block behind its end and unlinked: the hole hides the ID
from `removeBlocks`, and the counter of a block that no file has stays one. -/
theorem counter_outlives_hole :
    ∃ (ops : List (Op Unit)) (state : BbState Unit),
      AdmissibleRun sha1OfBlocks bbInit ops ∧ bbRun sha1OfBlocks ops bbInit = some state ∧
      ∃ index < lineCount state.hashFile.data, ∃ id : Nat,
        lineId state.hashFile.data index = id ∧
        lineCounter state.hashFile.data index ≠
          (∑ path ∈ state.names, occurrences (state.idFile path) id : Nat) := by
  have admissible := @oneFile_admissible _ _ () 1 1 97 (by decide) (by decide)
  have careful := @oneFile_careful _ _ () 1 1 97 (by decide) (by decide) (by decide +kernel)
    (by decide +kernel)
  rcases (oneFile_volume ()).write admissible careful with
    ⟨ids, middle, written, lines, returned, names, width, released, pushed, volume⟩
  have member : () ∈ written.names := by simp [names, oneFile]
  obtain ⟨id, rfl⟩ : ∃ id, ids = [id] := List.length_eq_one_iff.mp (by simpa using width)
  have entries : written.idFile () = entriesText [none, some id] := by
    have text := volume.files () member
    simpa [patchRecords] using text
  have small : Small [none, some id] := by
    have all := volume.small member
    simpa [patchRecords] using all
  have table : tableOf lines = [⟨getHash sha1OfBlocks (filled 4096 97), 1⟩] := by
    have acquired := pushed.table
    rw [blocksOf_filled 1] at acquired
    exact acquired
  have counter : ∃ line, lines = [line] ∧ line.counter = 1 := by
    rcases List.map_eq_singleton_iff.mp table with ⟨line, rfl, slot⟩
    exact ⟨line, rfl, congrArg Slot.references slot⟩
  rcases counter with ⟨line, rfl, one⟩
  let final : BbState Unit := { written with names := written.names.erase () }
  have unlinked : bbStep sha1OfBlocks written (.unlink ()) = some final := by
    have bytes : (entriesText [none, some id]).length = 4 * 2 := entriesText_length small
    have whole := @getOverwrittenBlocks_whole (entriesText [none, some id]) ⟨2, bytes⟩
      (by omega)
    rw [← entries] at whole
    have nothing : removeBlocks (entriesText [none, some id]) written.toStorage =
        (0, written.toStorage) := by
      rw [removeBlocks_entriesText small]
      simp [leadingIds, idText, removeBlocks, removeBlocksLoop, strlen, contents]
    rw [← entries] at nothing
    rw [bbStep, bbUnlink, if_pos member]
    simp only [whole, Option.bind_eq_bind, Option.bind_some, nothing, Option.pure_def,
      Option.map_some]
    rfl
  refine ⟨[.mknod (), .write () (filled (4096 * 1) 97) (4096 * 1), .unlink ()], final, ?_, ?_, ?_⟩
  · refine ⟨by simp [Admissible, bbInit], fun state made => ?_⟩
    rw [bbStep_mknod_init] at made
    obtain rfl := Option.some.inj made
    refine ⟨admissible, fun state' next => ?_⟩
    rw [returned] at next
    obtain rfl := Option.some.inj next
    exact ⟨member, fun _ _ => trivial⟩
  · rw [bbRun, bbStep_mknod_init, Option.bind_some, bbRun, returned, Option.bind_some, bbRun,
      unlinked]
    rfl
  · rcases @line_fields _ _ volume.holds.text volume.holds.small 0 line rfl with
      ⟨-, idField, -, counterField⟩
    refine ⟨0, ?_, 1, idField, ?_⟩
    · rw [show final.hashFile.data = written.hashFile.data from rfl,
        lineCount_ledgerText volume.holds.text volume.holds.small]
      simp
    · rw [show final.hashFile.data = written.hashFile.data from rfl, counterField, one]
      have noFiles : final.names = ∅ := by
        rw [show final.names = written.names.erase () from rfl, names]
        rfl
      simp [noFiles]

end CE321.Dedup
