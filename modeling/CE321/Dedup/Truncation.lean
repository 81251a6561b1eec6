import CE321.Dedup.Counters
import CE321.Dedup.EveryRun
import CE321.Dedup.Sizes

/-! # Paths and handles

`bb_getattr` and `bb_truncate` take a path, `bb_fgetattr` and `bb_ftruncate` an open
handle. The former know the size of the contents or do nothing, the latter work on
the ID list, so they agree on hardly any file.
-/

namespace CE321.Dedup

open CString ByteFile

section

variable {Path : Type} [DecidableEq Path]

/-- The data of all blocks of a file. -/
def NamesBlocks (state : BbState Path) (path : Path) (datas : List Bytes) : Prop :=
  (recordsOf 4 (state.idFile path)).map (fun record => state.block (atoi record)) =
    datas.map some

/-- What the two pairs of calls should do on a file. -/
structure PathsAgree (state : BbState Path) (path : Path) (target : Nat) : Prop where
  size : ∀ fresh, bbFgetattr state path = bbGetattr state path fresh
  list : (bbTruncate state path target).2.idFile path =
    (bbFtruncate state path target).2.idFile path
  ledger : (bbTruncate state path target).2.hashFile.data =
    (bbFtruncate state path target).2.hashFile.data
  reads : ∀ size offset fresh, bbRead (bbTruncate state path target).2 path size offset fresh =
    bbRead (bbFtruncate state path target).2 path size offset fresh
  shrunk : ∀ datas, NamesBlocks state path datas → target < datas.flatten.length →
    ∀ size fresh, target ≤ size →
      bbRead (bbTruncate state path target).2 path size 0 fresh =
        some (datas.flatten.take target)

/-- A buffer of zero bytes but for one byte, and other buffers of zero bytes. -/
def oneByteFresh (round position : Nat) : Fresh :=
  ⟨[], fun i j => if i = round ∧ j = position then 1 else 0⟩

/-- The byte follows a block that ends in front of it. -/
theorem blockText_oneByte (round : Nat) {data : Bytes} (zeroFree : 0 ∉ data)
    (short : data.length < 4096) :
    (blockText 4096 (oneByteFresh round data.length) round data).length = data.length + 1 := by
  have rest : ((List.range 4096).map ((oneByteFresh round data.length).block round)).drop
      data.length = 1 :: (List.range' (data.length + 1) (4095 - data.length)).map
        ((oneByteFresh round data.length).block round) := by
    rw [List.range_eq_range', ← List.map_drop, List.drop_range', Nat.zero_add,
      show 4096 - data.length = 4095 - data.length + 1 by omega, List.range'_succ, List.map_cons]
    simp [oneByteFresh]
  have zeros : (List.range' (data.length + 1) (4095 - data.length)).map
      ((oneByteFresh round data.length).block round) = List.replicate (4095 - data.length) 0 := by
    apply List.eq_replicate_iff.mpr
    refine ⟨by simp, fun byte member => ?_⟩
    rcases List.mem_map.mp member with ⟨j, inRange, rfl⟩
    have beyond := (List.mem_range'_1.mp inRange).1
    simp [oneByteFresh]
    omega
  have stops : (List.replicate (4095 - data.length) (0 : UInt8)).takeWhile (· ≠ 0) = [] := by
    cases 4095 - data.length <;> simp [List.replicate_succ]
  have whole := contents_of_zero_free zeroFree
  rw [blockText, List.take_of_length_le short.le, overlay, rest, zeros, contents,
    List.takeWhile_append]
  rw [contents] at whole
  rw [whole, if_pos rfl, List.takeWhile_cons_of_pos (by decide), stops]
  simp

section

variable {state : BbState Path} {path : Path}

omit [DecidableEq Path] in
theorem StateFits.records (fits : StateFits state) (path : Path) :
    state.idFile path = (recordsOf 4 (state.idFile path)).flatten ∧
      (state.idFile path).length = 4 * (recordsOf 4 (state.idFile path)).length ∧
      (recordsOf 4 (state.idFile path)).length ≤ 1048576 := by
  have width := fits.width path
  have short := fits.short path
  refine ⟨(recordsOf_flatten (by decide) width).symm, ?_, ?_⟩
  · rw [recordsOf_length, Nat.mul_div_cancel' width]
  · rw [recordsOf_length]
    omega

omit [DecidableEq Path] in
theorem StateFits.datas (fits : StateFits state) {datas : List Bytes}
    (found : NamesBlocks state path datas) :
    datas.length = (recordsOf 4 (state.idFile path)).length ∧
      ∀ data ∈ datas, 0 ∉ data ∧ data.length ≤ 4096 := by
  constructor
  · have lengths := congrArg List.length found
    simpa using lengths.symm
  · intro data present
    have stored : some data ∈ (recordsOf 4 (state.idFile path)).map
        (fun record => state.block (atoi record)) := found ▸ List.mem_map_of_mem present
    rcases List.mem_map.mp stored with ⟨record, _, equal⟩
    exact fits.fit _ data equal

theorem mapIdx_blockText_strings {fresh : Fresh} {i : Nat} {datas : List Bytes}
    (zeroed : ∀ index < datas.length, ∀ j, fresh.block (i + index) j = 0)
    (strings : ∀ data ∈ datas, 0 ∉ data ∧ data.length ≤ 4096) :
    (datas.mapIdx fun j data => blockText 4096 fresh (i + j) data) = datas := by
  calc (datas.mapIdx fun j data => blockText 4096 fresh (i + j) data)
      = datas.map contents := mapIdx_blockText_zeroed zeroed fun data present =>
        (strings data present).2
    _ = datas.map id := List.map_congr_left fun data present =>
        contents_of_zero_free (strings data present).1
    _ = datas := List.map_id datas

omit [DecidableEq Path] in
theorem StateFits.texts_zeroed (fits : StateFits state) {datas : List Bytes}
    (found : NamesBlocks state path datas) :
    recordTexts state.toStorage 4096 zeroFresh 0 (recordsOf 4 (state.idFile path)) =
      some datas := by
  rw [recordTexts_found found, mapIdx_blockText_strings (fun _ _ _ => rfl) (fits.datas found).2]

omit [DecidableEq Path] in
theorem StateFits.texts_oneByte (fits : StateFits state) {before after : List Bytes}
    {data : Bytes} (found : NamesBlocks state path (before ++ data :: after))
    (short : data.length < 4096) :
    ∃ texts, recordTexts state.toStorage 4096 (oneByteFresh before.length data.length) 0
        (recordsOf 4 (state.idFile path)) = some texts ∧
      texts.flatten.length = (before ++ data :: after).flatten.length + 1 := by
  have strings := (fits.datas found).2
  refine ⟨_, recordTexts_found found 0, ?_⟩
  have early := @mapIdx_blockText_strings (oneByteFresh before.length data.length) 0 before
    (fun index inside j => by simp [oneByteFresh]; omega)
    (fun other present => strings other (by simp [present]))
  have late := @mapIdx_blockText_strings (oneByteFresh before.length data.length)
    (before.length + 1) after (fun index inside j => by simp [oneByteFresh]; omega)
    (fun other present => strings other (by simp [present]))
  have shifted : ∀ j, before.length + 1 + j = 0 + (j + 1 + before.length) := fun j => by omega
  simp only [shifted] at late
  rw [List.mapIdx_append, List.mapIdx_cons, early, late]
  have here := blockText_oneByte before.length (strings data (by simp)).1 short
  simp only [Nat.zero_add, List.flatten_append, List.flatten_cons, List.length_append, here]
  omega

/-- Where all blocks are there, the sizes agree on no file but an empty one or one that is
longer than its ID list. -/
theorem StateFits.sizes_agree (fits : StateFits state) (member : path ∈ state.names)
    {datas : List Bytes} (found : NamesBlocks state path datas)
    (agree : ∀ fresh, bbFgetattr state path = bbGetattr state path fresh) :
    datas = [] ∨ (state.idFile path).length < datas.flatten.length := by
  rcases fits.records path with ⟨text, width, few⟩
  rcases fits.datas found with ⟨sameLength, strings⟩
  have uniform := recordsOf_uniform 4 (state.idFile path)
  by_contra neither
  rw [not_or] at neither
  have positive := List.length_pos_of_ne_nil neither.1
  have short : ∃ data ∈ datas, data.length < 4096 := by
    by_contra none
    have full := @flatten_length 4096 datas fun data present =>
      (strings data present).2.antisymm (not_lt.mp fun less => none ⟨data, present, less⟩)
    omega
  rcases short with ⟨data, present, less⟩
  rcases List.append_of_mem present with ⟨before, after, rfl⟩
  rcases fits.texts_oneByte found less with ⟨texts, returned, longer⟩
  have zeroed := agree zeroFresh
  have oneByte := agree (oneByteFresh before.length data.length)
  rw [bbGetattr_eq member text uniform, bbFgetattr, if_pos member] at zeroed oneByte
  rw [fits.texts_zeroed found] at zeroed
  rw [returned] at oneByte
  simp only [longer] at oneByte
  simp only at zeroed
  rw [toInt32_of_lt (by omega)] at zeroed oneByte
  rw [if_pos (by omega)] at oneByte
  have oneMore := Option.some.inj oneByte
  split at zeroed
  · have same := Option.some.inj zeroed
    omega
  · omega

/-- A file that is longer than its ID list is not read as cut at the size of the list. -/
theorem StateFits.not_shrunk (fits : StateFits state) (member : path ∈ state.names)
    {datas : List Bytes} (found : NamesBlocks state path datas) (notEmpty : datas ≠ [])
    (longer : (state.idFile path).length < datas.flatten.length) :
    bbRead state path ((state.idFile path).length + 1) 0 zeroFresh ≠
      some (datas.flatten.take (state.idFile path).length) := by
  rcases fits.records path with ⟨text, width, few⟩
  rcases fits.datas found with ⟨sameLength, strings⟩
  have bound := flatten_length_le fun data present => (strings data present).2
  have positive := List.length_pos_of_ne_nil notEmpty
  have recordsNotEmpty : recordsOf 4 (state.idFile path) ≠ [] :=
    List.ne_nil_of_length_pos (by omega)
  have range := toInt32_range datas.flatten.length
  have congruent := toInt32_emod datas.flatten.length
  rw [bbRead_eq member text (recordsOf_uniform 4 _) recordsNotEmpty, firstBlock_zero, visited_zero,
    fits.texts_zeroed found]
  simp only
  generalize toInt32 datas.flatten.length = dataSize at *
  intro same
  split at same
  · cases same
  · have lengths := congrArg List.length (Option.some.inj same)
    rw [List.length_take, List.length_take, List.length_take] at lengths
    omega

/-- The state that both truncations leave is the old one where the size is that of the list. -/
theorem bbFtruncate_self (state : BbState Path) (path : Path) :
    (bbFtruncate state path (state.idFile path).length).2 = state := by
  rw [bbFtruncate, if_neg (by omega), Int.toNat_natCast, resize_self]
  simp [BbState.withIdFile]

end

variable {sha1 : Bytes → Fin 20 → UInt8}

/-- In every state that calls reach: the calls with a path and those with a handle agree
on a file if and only if the target size is the size of its ID list, and the list is
empty or has an entry whose block file does not exist. -/
theorem paths_agree_iff (ops : List (Op Path)) (state : BbState Path)
    (returned : bbRun sha1 ops bbInit = some state) (path : Path) (member : path ∈ state.names)
    (target : Nat) :
    PathsAgree state path target ↔
      (state.idFile path).length = target ∧
        (state.idFile path = [] ∨
          ∃ record ∈ recordsOf 4 (state.idFile path), state.block (atoi record) = none) := by
  have fits := StateFits.init.run ops returned
  rcases fits.records path with ⟨text, width, few⟩
  have uniform := recordsOf_uniform 4 (state.idFile path)
  constructor
  · intro agree
    have sameList := agree.list
    have length : (state.idFile path).length = target := by
      rw [bbTruncate, bbFtruncate, if_neg (by omega), Int.toNat_natCast] at sameList
      have lengths := congrArg List.length sameList
      simpa [BbState.withIdFile] using lengths
    refine ⟨length, ?_⟩
    by_contra neither
    rw [not_or] at neither
    have found : NamesBlocks state path ((recordsOf 4 (state.idFile path)).map fun record =>
        (state.block (atoi record)).getD []) := by
      rw [NamesBlocks, List.map_map]
      apply List.map_congr_left
      intro record present
      rcases Option.ne_none_iff_exists'.mp fun none => neither.2 ⟨record, present, none⟩ with
        ⟨data, there⟩
      rw [Function.comp, there, Option.getD_some]
    have notEmpty : (recordsOf 4 (state.idFile path)).map (fun record =>
        (state.block (atoi record)).getD []) ≠ [] := by
      intro empty
      rw [List.map_eq_nil_iff.mp empty] at text
      exact neither.1 text
    rcases fits.sizes_agree member found agree.size with empty | longer
    · exact notEmpty empty
    · have read := agree.shrunk _ found (length ▸ longer) ((state.idFile path).length + 1)
        zeroFresh (by omega)
      rw [bbTruncate, ← length] at read
      exact fits.not_shrunk member found notEmpty longer read
  · rintro ⟨rfl, exempt⟩
    have same := bbFtruncate_self state path
    refine ⟨?_, by rw [same]; rfl, by rw [same]; rfl, by rw [same]; exact fun _ _ _ => rfl, ?_⟩
    · intro fresh
      rw [bbFgetattr, if_pos member, bbGetattr_eq member text uniform, ← width]
      rcases exempt with empty | ⟨record, present, missing⟩
      · simp [empty, recordsOf, recordTexts, toInt32]
      · rw [recordTexts_missing present missing]
    · intro datas found longer
      rcases exempt with empty | ⟨record, present, missing⟩
      · have none : datas = [] := by
          rw [NamesBlocks, empty] at found
          exact List.map_eq_nil_iff.mp found.symm
        simp [none] at longer
      · have stored : none ∈ datas.map some := by
          rw [← found, ← missing]
          exact List.mem_map_of_mem present
        rcases List.mem_map.mp stored with ⟨data, _, equal⟩
        cases equal

end

/-! ## A file of one block -/

/-- One block behind 1023 holes: the list has 4096 bytes, and cutting the file to 4096 changes
nothing by either way. -/
theorem paths_agree_iff_holes : ∃ state : BbState Unit,
    bbRun sha1OfBlocks [.mknod (), .write () (filled 4096 97) (1023 * 4096)] bbInit = some state ∧
    (state.idFile ()).length = 4096 ∧ PathsAgree state () 4096 := by
  have facts : (bbRun sha1OfBlocks [.mknod (), .write () (filled 4096 97) (1023 * 4096)]
      bbInit).map (fun state : BbState Unit => (state.names, (state.idFile ()).length,
        (state.idFile ()).take 4, state.block 0)) = some ({()}, 4096, [0, 0, 0, 0], none) := by
    decide +kernel
  rcases Option.map_eq_some_iff.mp facts with ⟨state, returned, same⟩
  simp only [Prod.mk.injEq] at same
  rcases same with ⟨names, length, front, missing⟩
  have hole : ([0, 0, 0, 0] : Bytes) ∈ recordsOf 4 (state.idFile ()) :=
    List.mem_map.mpr ⟨0, List.mem_range.mpr (by rw [length]; decide), front⟩
  exact ⟨state, returned, length, (paths_agree_iff _ state returned () (by simp [names]) 4096).mpr
    ⟨length, .inr ⟨_, hole, missing⟩⟩⟩

/-- After one block was written, cutting the file to nothing has an effect only with a
handle. -/
theorem paths_disagree_oneBlock : ∃ state : BbState Unit,
    bbRun sha1OfBlocks [.mknod (), .write () (filled (4096 * 1) 97) (4096 * 0)] bbInit =
      some state ∧
    () ∈ state.names ∧ ¬PathsAgree state () 0 := by
  have admissible := @oneFile_admissible _ _ () 1 0 97 (by decide) (by decide)
  have careful := @oneFile_careful _ _ () 1 0 97 (by decide) (by decide) (by decide +kernel)
    (by decide +kernel)
  rcases (oneFile_volume ()).write admissible careful with
    ⟨ids, middle, written, lines, returned, names, width, released, pushed, volume⟩
  have member : () ∈ written.names := by simp [names, oneFile]
  rcases List.length_eq_one_iff.mp (show ids.length = 1 by simpa using width) with ⟨id, rfl⟩
  have length := congrArg List.length (volume.files () member)
  rw [entriesText_length (volume.small member), Function.update_self, Function.update_self,
    patchRecords] at length
  refine ⟨written, ?_, member, fun agree => ?_⟩
  · rw [bbRun, bbStep_mknod_init, Option.bind_some, bbRun, returned]
    rfl
  · have sameList := congrArg List.length agree.list
    simp [bbTruncate, bbFtruncate, BbState.withIdFile, length] at sameList

end CE321.Dedup
