import CE321.Dedup.ReadBack

/-! # Every block once

The storage directory against the plain file system: it has one block file for each block
that occurs in the files, and the ledger counts how often.
-/

namespace CE321.Dedup

open CString ByteFile RefTable

section

variable {Path : Type} [DecidableEq Path] {sha1 : Bytes → Fin 20 → UInt8} {used : Set Bytes}
  {state : BbState Path} {lines : List Line} {entries : Path → List (Option Nat)}
  {files : Files Path} {ids : Path → List Nat} {blocks : Path → List Bytes} {path : Path}

def Files.occurrences (files : Files Path) (bytes : Bytes) : Nat :=
  ∑ path ∈ files.names, (blocksOf (files.data path)).count bytes

omit [DecidableEq Path] in
theorem Backed.ofData (backed : Backed used state entries files ids blocks)
    (member : path ∈ state.names) : blocksOf (files.data path) = blocks path := by
  rw [backed.data path member]
  exact recordsOf_of_flatten (fun block present => (backed.whole path member block present).1)
    (by decide)

omit [DecidableEq Path] in
theorem VolumeInvariant.line (volume : VolumeInvariant sha1 state lines entries) {id : Int}
    {bytes : Bytes} (present : state.block id = some bytes) :
    ∃ index line, lines[index]? = some line ∧ id = (index + 1 : Nat) ∧ 0 < line.counter ∧
      line.counter = (references state.names entries).count (index + 1) ∧
      getHash sha1 bytes = line.hash.text := by
  rcases (volume.holds.held id).mp (by rw [present]; exact Option.some_ne_none _) with
    ⟨index, line, isLine, positive, rfl⟩
  refine ⟨index, line, isLine, rfl, positive, ?_, volume.holds.hashed index line bytes isLine present⟩
  have slot : (tableOf lines)[index]? = some line.slot := by
    rw [tableOf, List.getElem?_map, isLine, Option.map_some]
  exact volume.counts.count index line.slot slot

omit [DecidableEq Path] in
theorem VolumeInvariant.id_unique (volume : VolumeInvariant sha1 state lines entries) {id id' : Int}
    {bytes : Bytes} (present : state.block id = some bytes) (present' : state.block id' = some bytes) :
    id = id' := by
  rcases volume.line present with ⟨index, line, isLine, rfl, -, -, hash⟩
  rcases volume.line present' with ⟨index', line', isLine', rfl, -, -, hash'⟩
  have sameHash : line.hash = line'.hash := Hash.ext (hash.symm.trans hash')
  have hashes (i : Nat) (other : Line) (isIt : lines[i]? = some other) :
      (lines.map Line.hash)[i]? = some other.hash := by
    rw [List.getElem?_map, isIt, Option.map_some]
  have sameIndex : index = index' := by
    apply (List.getElem?_inj (by
      rw [List.length_map]
      exact (List.getElem?_eq_some_iff.mp isLine).1) volume.holds.nodup).mp
    rw [hashes index line isLine, hashes index' line' isLine', sameHash]
  rw [sameIndex]

omit [DecidableEq Path] in
theorem Backed.count (volume : VolumeInvariant sha1 state lines entries)
    (backed : Backed used state entries files ids blocks) (member : path ∈ state.names) {id : Nat}
    {bytes : Bytes} (present : state.block id = some bytes) :
    (ids path).count id = (blocks path).count bytes := by
  have occurs : (blocks path).count bytes = ((blocks path).map some).count (some bytes) :=
    (List.count_map_of_injective (blocks path) some (Option.some_injective _) bytes).symm
  rw [occurs, ← backed.found path member, List.count, List.count, List.countP_map]
  apply List.countP_congr
  intro other _
  simp only [Function.comp_apply, beq_iff_eq]
  constructor
  · rintro rfl
    exact present
  · intro present'
    exact Int.natCast_inj.mp (volume.id_unique present' present)

omit [DecidableEq Path] in
theorem Backed.references (volume : VolumeInvariant sha1 state lines entries)
    (backed : Backed used state entries files ids blocks) {id : Nat} {bytes : Bytes}
    (present : state.block id = some bytes) :
    (references state.names entries).count id = files.occurrences bytes := by
  rw [Dedup.references, Multiset.count_sum', Files.occurrences, ← backed.names]
  apply Finset.sum_congr rfl
  intro path member
  rw [backed.entries path member, reduceOption_map_some, Multiset.coe_count,
    backed.count volume member present, backed.ofData member]

omit [DecidableEq Path] in
theorem Backed.bijOn (volume : VolumeInvariant sha1 state lines entries)
    (backed : Backed used state entries files ids blocks) :
    Set.BijOn state.block {id | state.block id ≠ none} (some '' {bytes | 0 < files.occurrences bytes}) := by
  refine ⟨fun id isStored => ?_, fun id isStored id' _ same => ?_, ?_⟩
  · rcases Option.ne_none_iff_exists'.mp isStored with ⟨bytes, present⟩
    rcases volume.line present with ⟨index, line, -, rfl, positive, counted, -⟩
    rw [counted, backed.references volume present] at positive
    exact ⟨bytes, positive, present.symm⟩
  · rcases Option.ne_none_iff_exists'.mp isStored with ⟨bytes, present⟩
    exact volume.id_unique present (same ▸ present)
  · rintro _ ⟨bytes, occurs, rfl⟩
    have positive : 0 < ∑ path ∈ files.names, (blocksOf (files.data path)).count bytes := occurs
    rcases Finset.sum_pos_iff.mp positive with ⟨path, member, inFile⟩
    rw [← backed.names] at member
    rw [backed.ofData member] at inFile
    have isIn : some bytes ∈ (blocks path).map some :=
      List.mem_map_of_mem (List.count_pos_iff.mp inFile)
    rw [← backed.found path member] at isIn
    rcases List.mem_map.mp isIn with ⟨id, -, present⟩
    exact ⟨id, by
      rw [Set.mem_ofPred_eq, present]
      exact Option.some_ne_none bytes, present⟩

omit [DecidableEq Path] in
theorem Backed.counter (volume : VolumeInvariant sha1 state lines entries)
    (backed : Backed used state entries files ids blocks) {index : Nat} {bytes : Bytes}
    (present : state.block (index + 1 : Nat) = some bytes) :
    referencesAt (ledgerTable state.hashFile.data) index = files.occurrences bytes := by
  rw [ledgerTable_ledgerText volume.holds.text volume.holds.small, volume.counts.referencesAt,
    backed.references volume present]

/-- After every legal run on which the blocks that are written can be printed and the ledger has
room for them, the storage directory has each block that occurs in the files of the plain file
system under one ID, has no other block, and counts in the ledger how often it occurs. -/
theorem everyBlock_once (injective : Set.InjOn (getHash sha1) used)
    (nonzero : ∀ block ∈ used, getHash sha1 block ≠ zeroHash) (ops : List (Op Path))
    (legal : Files.LegalRun used Files.empty ops)
    (storable : Along sha1 (Storable sha1) (bbInit : BbState Path) ops) :
    ∃ state, bbRun sha1 ops (bbInit : BbState Path) = some state ∧
      Set.BijOn state.block {id | state.block id ≠ none}
        (some '' {bytes | 0 < (Files.run Files.empty ops).occurrences bytes}) ∧
      ∀ (index : Nat) (bytes : Bytes), state.block (index + 1 : Nat) = some bytes →
        referencesAt (ledgerTable state.hashFile.data) index =
          (Files.run Files.empty ops).occurrences bytes := by
  rcases Backed.run injective nonzero ops .init .init legal storable with
    ⟨state, lines, entries, ids, blocks, returned, volume, backed⟩
  exact ⟨state, returned, backed.bijOn volume, fun index bytes present => backed.counter volume present⟩

end

/-- A file with a block twice. -/
theorem everyBlock_once_twice :
    ∃ state, bbRun sha1OfBlocks [.mknod (), .write () (filled (4096 * 2) 97) (4096 * 0)]
        (bbInit : BbState Unit) = some state ∧
      ∃ id, (∀ other, state.block other ≠ none ↔ other = id) ∧
        state.block id = some (filled 4096 97) := by
  have blocks : blocksOf (filled (4096 * 2) 97) = List.replicate 2 (filled 4096 97) :=
    blocksOf_filled 2 97
  have width := filled_length (4096 * 2) 97
  have legal : Files.LegalRun {filled 4096 97} (Files.empty : Files Unit)
      [.mknod (), .write () (filled (4096 * 2) 97) (4096 * 0)] := by
    refine ⟨by simp [Files.Legal, Files.empty], ⟨Finset.mem_insert_self _ _, by omega, by omega,
      by decide, Nat.zero_le _, by omega, filled_zero_free _ (by decide), fun block present => ?_⟩,
      trivial⟩
    rw [blocks] at present
    exact List.eq_of_mem_replicate present
  have roomy := @oneFile_roomy Unit _ () 2 0 97 (by decide) (by decide +kernel)
  have storable : Along sha1OfBlocks (Storable sha1OfBlocks) (bbInit : BbState Unit)
      [.mknod (), .write () (filled (4096 * 2) 97) (4096 * 0)] := by
    refine ⟨⟨trivial, trivial⟩, fun state made => ?_⟩
    rw [bbStep_mknod_init] at made
    obtain rfl := Option.some.inj made
    exact ⟨⟨filled_printable (by decide), roomy⟩, fun _ _ => trivial⟩
  have nonzero : ∀ block ∈ ({filled 4096 97} : Set Bytes),
      getHash sha1OfBlocks block ≠ zeroHash := by
    rintro _ rfl
    rw [getHash_filled (by decide)]
    decide +kernel
  rcases everyBlock_once (Set.injOn_singleton _ _) nonzero
    [.mknod (), .write () (filled (4096 * 2) 97) (4096 * 0)] legal storable with
    ⟨state, returned, bijective, -⟩
  have data : (Files.run Files.empty
      [.mknod (), .write () (filled (4096 * 2) 97) (4096 * 0)]).data () = filled (4096 * 2) 97 := by
    simp only [Files.run, List.foldl, Files.step, Function.update_self]
    exact patch_atEnd [] _
  have occurs (bytes : Bytes) : (Files.run Files.empty
      [.mknod (), .write () (filled (4096 * 2) 97) (4096 * 0)]).occurrences bytes =
        (List.replicate 2 (filled 4096 97)).count bytes := by
    have names : (Files.run Files.empty [.mknod (),
        .write () (filled (4096 * 2) 97) (4096 * 0)]).names = {()} := rfl
    rw [Files.occurrences, names, Finset.sum_singleton, data, blocks]
  simp only [occurs, List.count_pos_iff, List.mem_replicate, ne_eq, OfNat.ofNat_ne_zero,
    not_false_eq_true, true_and, Set.ofPred_eq_eq_singleton, Set.image_singleton] at bijective
  rcases bijective.surjOn rfl with ⟨id, isStored, present⟩
  refine ⟨state, returned, id, fun other => ⟨fun otherStored => ?_, fun same => same ▸ isStored⟩,
    present⟩
  apply bijective.injOn otherStored isStored
  exact (bijective.mapsTo otherStored).trans present.symm

end CE321.Dedup
