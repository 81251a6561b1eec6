import CE321.Dedup.PushBlock

/-! # Pushing one block after the other

What an empty store holds after some blocks were pushed. The ledger has a line for every
different block, and keeps its counter up to multiples of ten; the IDs tell the
blocks apart as long as every new block gets a line of its own.
-/

namespace CE321.Dedup

open CString ByteFile

/-! ## The IDs that a search can return -/

/-- The number in the first columns of one of the lines. -/
def NamesLine (data : Bytes) (count : Nat) (id : Int) : Prop :=
  ∃ index < count, id = atoi (slice data (30 * index) 3)

section

variable {file : ByteFile} {count : Nat}

theorem slice_length {data : Bytes} {offset width : Nat} (inside : offset + width ≤ data.length) :
    (slice data offset width).length = width := by
  rw [slice, List.length_take, List.length_drop]
  omega

theorem fread_id (width : file.data.length = 30 * count) {index : Nat} (inside : index < count)
    (position : file.pos = 30 * index) {idChar : Bytes} (short : idChar.length ≤ 3) :
    overlay idChar (file.fread 3).1 = slice file.data (30 * index) 3 ∧
      (file.fread 3).2 = { file with pos := 30 * index + 3 } := by
  have received : (slice file.data (30 * index) 3).length = 3 := slice_length (by omega)
  rw [fread, position]
  exact ⟨overlay_eq (short.trans_eq received.symm), by simp only [received]⟩

theorem compareHashLoop_names {inHash : Bytes} (fuel : Nat) :
    ∀ {file file' : ByteFile} {index : Nat} {idChar checkHash : Bytes} {found : Option Int},
    file.data.length = 30 * count → file.pos = 30 * index → index ≤ count → idChar.length ≤ 3 →
    compareHashLoop (30 * count) inHash fuel file idChar checkHash = some (found, file') →
    file'.data = file.data ∧ ∀ id, found = some id → NamesLine file.data count id := by
  induction fuel with
  | zero => intro _ _ _ _ _ _ _ _ _ _ returned; cases returned
  | succ fuel induction =>
      intro file file' index idChar checkHash found width position inside short returned
      rw [compareHashLoop] at returned
      split at returned
      · rcases Prod.mk.inj (Option.some.inj returned) with ⟨rfl, rfl⟩
        exact ⟨rfl, fun id none => by cases none⟩
      next notAtEnd =>
      have before : index < count := by
        simp only [ftell] at notAtEnd
        omega
      rcases fread_id width before position short with ⟨idText, behindId⟩
      have behindHash : (({ file with pos := 30 * index + 3 } : ByteFile).fseekCur 2).fread 20 =
          (slice file.data (30 * index + 5) 20, { file with pos := 30 * index + 25 }) := by
        have received : (slice file.data (30 * index + 5) 20).length = 20 :=
          slice_length (by omega)
        rw [show (2 : Int) = ((2 : Nat) : Int) from rfl, fseekCur_forward, fread]
        simp only [received]
      have next : ({ file with pos := 30 * index + 25 } : ByteFile).fseekCur 5 =
          { file with pos := 30 * (index + 1) } := by
        rw [show (5 : Int) = ((5 : Nat) : Int) from rfl, fseekCur_forward]
        rfl
      simp only [idText, behindId, behindHash, next] at returned
      have idShort : (slice file.data (30 * index) 3).length = 3 := slice_length (by omega)
      split at returned
      · rcases Prod.mk.inj (Option.some.inj returned) with ⟨rfl, rfl⟩
        exact ⟨rfl, fun id same => ⟨index, before, (Option.some.inj same).symm⟩⟩
      · exact @induction { file with pos := 30 * (index + 1) } file' (index + 1) _ _ found width rfl
          before idShort.le returned

theorem addHashLoop_names (fuel : Nat) :
    ∀ {file file' : ByteFile} {idChar counterChar : Bytes} {id : Int} {position : Nat},
    file.data.length = 30 * count → idChar.length ≤ 3 →
    ((∃ index < count, file.pos = 30 * index) ∨
      30 * count ≤ file.pos ∧ NamesLine file.data count (atoi idChar)) →
    addHashLoop fuel file idChar counterChar = some (id, position, file') →
    NamesLine file.data count id := by
  induction fuel with
  | zero => intro _ _ _ _ _ _ _ _ _ returned; cases returned
  | succ fuel induction =>
      intro file file' idChar counterChar id position width short place returned
      rw [addHashLoop] at returned
      rcases place with ⟨index, before, atLine⟩ | ⟨beyond, named⟩
      · rcases fread_id width before atLine short with ⟨idText, behindId⟩
        have behindCounter : (({ file with pos := 30 * index + 3 } : ByteFile).fseekCur 25).fread 2 =
            (slice file.data (30 * index + 28) 2, { file with pos := 30 * (index + 1) }) := by
          have received : (slice file.data (30 * index + 28) 2).length = 2 :=
            slice_length (by omega)
          rw [show (25 : Int) = ((25 : Nat) : Int) from rfl, fseekCur_forward, fread]
          simp only [received]
          rfl
        have named : NamesLine file.data count (atoi (slice file.data (30 * index) 3)) :=
          ⟨index, before, rfl⟩
        have idShort : (slice file.data (30 * index) 3).length = 3 := slice_length (by omega)
        simp only [idText, behindId, behindCounter] at returned
        split at returned
        · apply @induction { file with pos := 30 * (index + 1) } _ _ _ _ _ width idShort.le _ returned
          rcases Nat.lt_or_ge (index + 1) count with more | last
          · exact .inl ⟨index + 1, more, rfl⟩
          · exact .inr ⟨Nat.mul_le_mul_left 30 last, named⟩
        · rcases Prod.mk.inj (Option.some.inj returned) with ⟨rfl, _⟩
          exact named
      · have nothing : ∀ pos, 30 * count ≤ pos → ∀ wanted, slice file.data pos wanted = [] := by
          intro pos later wanted
          rw [slice, List.drop_eq_nil_of_le (by omega), List.take_nil]
        have behindId : file.fread 3 = ([], file) := by
          rw [fread, nothing _ beyond]
          rfl
        have behindCounter : (file.fseekCur 25).fread 2 = ([], { file with pos := file.pos + 25 }) := by
          rw [show (25 : Int) = ((25 : Nat) : Int) from rfl, fseekCur_forward, fread,
            nothing _ (beyond.trans (Nat.le_add_right _ _))]
          rfl
        have kept : overlay idChar [] = idChar := by simp [overlay]
        simp only [behindId, behindCounter, kept] at returned
        split at returned
        · exact @induction { file with pos := file.pos + 25 } _ _ _ _ _ width short
            (.inr ⟨beyond.trans (Nat.le_add_right _ _), named⟩) returned
        · rcases Prod.mk.inj (Option.some.inj returned) with ⟨rfl, _⟩
          exact named

/-- Whatever a ledger of whole lines holds, `compareHash` returns the ID of one of them. -/
theorem compareHash_names (width : file.data.length = 30 * count) (positive : 0 < count)
    {inHash : Bytes} {id : Int} {isNewBlock : Bool} {file' : ByteFile}
    (returned : compareHash file inHash = some (id, isNewBlock, file')) :
    NamesLine file.data count id := by
  simp only [compareHash, Option.bind_eq_bind, Option.bind_eq_some_iff] at returned
  rcases returned with ⟨⟨found, behind⟩, searched, rest⟩
  have size : file.fseekEnd.ftell = 30 * count := width
  rw [size] at searched rest
  rcases @compareHashLoop_names count inHash _ (file.fseekSet 0) behind 0 [] zeroHash found width
    rfl (Nat.zero_le _) (by simp) searched with ⟨sameData, named⟩
  rw [fseekSet_data] at sameData named
  cases found with
  | none =>
      simp only [addHash, Option.bind_eq_bind, Option.bind_eq_some_iff] at rest
      rcases rest with ⟨⟨added, final⟩, ⟨⟨free, place, stopped⟩, loop, last⟩, same⟩
      rcases Option.some.inj last with ⟨rfl, _⟩
      rcases Option.some.inj same with ⟨rfl, _⟩
      have line := @addHashLoop_names count _ ((behind.fseekSet 0).fseekSet 0) _ [] [] free place
        (by simpa [sameData] using width) (by simp) (.inl ⟨0, positive, rfl⟩) loop
      simpa [sameData] using line
  | some line =>
      rcases Option.some.inj rest with ⟨rfl, _⟩
      exact named _ rfl

end

theorem ledgerBytes_length {lines : List Line} (few : lines.length ≤ 999) :
    (ledgerBytes lines).length = 30 * (lines.length + 1) := by
  have endWidth : ((endLine (lines.length + 1 : Nat)).take 30).length = 30 := by
    rcases Nat.lt_or_ge lines.length 999 with room | full
    · have width : (endLine (lines.length + 1 : Nat)).length = 30 :=
        Line.sentinel.render_length (by omega)
      rw [List.take_of_length_le width.le, width]
    · rw [show lines.length = 999 by omega]
      decide
  rw [ledgerBytes, List.length_append, endWidth, renderFrom_length (by omega)]
  omega

/-- With 999 lines the ID of the end line is cut to `100`. -/
theorem full_names {lines : List Line} (full : lines.length = 999) {id : Int}
    (named : NamesLine (ledgerBytes lines) (lines.length + 1) id) :
    ∃ index < lines.length, id = (index + 1 : Nat) := by
  rcases named with ⟨index, before, rfl⟩
  rcases Nat.lt_or_ge index lines.length with inside | last
  · rcases line_split ( ledgerBytes_prefix lines) full.le (List.getElem?_eq_getElem inside) with
      ⟨early, rest, split, position, small⟩
    exact ⟨index, inside, lineId_render split position small⟩
  · have endField : slice (ledgerBytes lines) (30 * index) 3 = [49, 48, 48] := by
      have position : (renderFrom 1 lines).length = 30 * index := by
        rw [renderFrom_length (by omega)]
        omega
      rw [ledgerBytes, slice, List.drop_left' position, full]
      decide
    refine ⟨99, by omega, ?_⟩
    rw [endField]
    decide

/-! ## A line for every block -/

namespace Acquire

variable {hash : Hash} {lines lines' : List Line} {index : Nat} {isNew : Bool}

theorem behind_others (acquire : Acquire hash lines index isNew lines')
    (absent : ∀ line ∈ lines, line.hash ≠ hash) (taken : ∀ line ∈ lines, line.counter % 10 ≠ 0) :
    index = lines.length ∧ isNew = true ∧ lines' = lines ++ [Line.stored hash] := by
  cases acquire with
  | shared before line after _ equal => exact absurd equal (absent line (by simp))
  | reused before line after _ _ free => exact absurd free (taken line (by simp))
  | appended lines _ _ => exact ⟨rfl, rfl, rfl⟩

end Acquire

theorem bump_mod (line : Line) : line.bump.counter % 10 = (line.counter + 1) % 10 := by
  simp only [Line.bump]
  split <;> omega

theorem bump_positive (line : Line) : 0 < line.bump.counter := by
  simp only [Line.bump]
  split <;> omega

/-- A block that was not pushed yet finds the end line: no block was pushed ten times, or
twenty, and so on, and there are lines left. -/
def HasRoom (done : List Bytes) (block : Bytes) : Prop :=
  block ∉ done → (∀ earlier ∈ done, done.count earlier % 10 ≠ 0) ∧ done.toFinset.card < 999

/-- The storage directory after the blocks `done` were pushed. Line `i` is for the block
`kinds[i]`. -/
structure Gathered (sha1 : Bytes → Fin 20 → UInt8) (used : Set Bytes) (done kinds : List Bytes)
    (storage : Storage) (lines : List Line) : Prop where
  text : storage.hashFile.data = ledgerBytes lines
  length : lines.length = kinds.length
  few : kinds.length ≤ 999
  distinct : kinds.Nodup
  same : ∀ block, block ∈ kinds ↔ block ∈ done
  legal : ∀ block ∈ done, block ∈ used ∧ 0 ∉ block
  line : ∀ (index : Nat) (block : Bytes), kinds[index]? = some block → ∃ line : Line, lines[index]? = some line ∧
    line.hash = blockHash sha1 block ∧ 0 < line.counter ∧
    line.counter % 10 = done.count block % 10
  stored : ∀ (index : Nat) (block : Bytes), kinds[index]? = some block →
    storage.block (index + 1 : Nat) = some block

namespace Gathered

variable {sha1 : Bytes → Fin 20 → UInt8} {used : Set Bytes} {done kinds : List Bytes}
  {storage : Storage} {lines : List Line}

theorem init : Gathered sha1 used [] [] initStorage [] where
  text := by decide
  length := rfl
  few := by simp
  distinct := List.nodup_nil
  same := by simp
  legal := by simp
  line := by simp
  stored := by simp

theorem card (gathered : Gathered sha1 used done kinds storage lines) :
    done.toFinset.card = kinds.length := by
  have same : done.toFinset = kinds.toFinset := by
    ext block
    rw [List.mem_toFinset, List.mem_toFinset, gathered.same]
  rw [same, List.toFinset_card_of_nodup gathered.distinct]

theorem kind (gathered : Gathered sha1 used done kinds storage lines) {index : Nat} {line : Line}
    (present : lines[index]? = some line) :
    ∃ block, kinds[index]? = some block ∧ block ∈ done ∧ line.hash = blockHash sha1 block ∧
      line.counter % 10 = done.count block % 10 := by
  have inside := (List.getElem?_eq_some_iff.mp present).1
  rw [gathered.length] at inside
  have here := List.getElem?_eq_getElem inside
  rcases gathered.line index _ here with ⟨other, there, hash, _, counter⟩
  obtain rfl := Option.some.inj (present.symm.trans there)
  exact ⟨_, here, (gathered.same _).mp (List.getElem_mem inside), hash, counter⟩

section

variable (gathered : Gathered sha1 used done kinds storage lines) {block : Bytes}
  (injective : Set.InjOn (getHash sha1) used) (legal : block ∈ used ∧ 0 ∉ block)
include gathered injective legal

theorem hash_kind {index : Nat} {line : Line} (present : lines[index]? = some line)
    (hash : line.hash = blockHash sha1 block) : kinds[index]? = some block := by
  rcases gathered.kind present with ⟨other, here, member, otherHash, _⟩
  have equal : getHash sha1 other = getHash sha1 block :=
    congrArg Hash.text (otherHash.symm.trans hash)
  rw [here, injective (gathered.legal other member).1 legal.1 equal]

theorem absent (fresh : block ∉ done) : ∀ line ∈ lines, line.hash ≠ blockHash sha1 block := by
  intro line member hash
  rcases List.mem_iff_getElem?.mp member with ⟨index, present⟩
  have here := gathered.hash_kind injective legal present hash
  exact fresh ((gathered.same block).mp (List.mem_of_getElem? here))

theorem push_again (again : block ∈ done) : ∃ storage' lines',
    pushBlock sha1 block storage = some (((kinds.idxOf block + 1 : Nat) : Int), storage') ∧
      Gathered sha1 used (done ++ [block]) kinds storage' lines' := by
  have inside := List.idxOf_lt_length_iff.mpr ((gathered.same block).mpr again)
  have here : kinds[kinds.idxOf block]? = some block := by
    rw [List.getElem?_eq_getElem inside, List.getElem_idxOf]
  rcases gathered.line _ _ here with ⟨line, there, hash, positive, counter⟩
  rcases renderFrom_split there with ⟨before, after, rfl, position⟩
  have first : ∀ other ∈ before, other.hash ≠ line.hash := by
    intro other member equal
    rcases List.mem_iff_getElem?.mp member with ⟨index, present⟩
    have earlier := (List.getElem?_eq_some_iff.mp present).1
    have otherHere := gathered.hash_kind injective legal
      (show (before ++ line :: after)[index]? = some other by
        rw [List.getElem?_append_left earlier, present]) (equal.trans hash)
    have sameIndex := (List.getElem?_inj inside gathered.distinct).mp (here.trans otherHere.symm)
    omega
  have small : before.length + 1 < 1000 := by
    have few := gathered.few
    omega
  have split : storage.hashFile.data = renderFrom 1 before ++ (line.render (before.length + 1) ++
      (renderFrom (before.length + 2) after ++
        (endLine ((before ++ line :: after).length + 1 : Nat)).take 30)) := by
    rw [gathered.text, ledgerBytes, renderFrom_append, renderFrom, Nat.add_comm 1]
    simp only [List.append_assoc]
  rcases compareHash_found storage.hashFile before line _ split small first with
    ⟨file', found, text'⟩
  have notNew : (line.counter == 0) = false := by
    rw [beq_eq_false_iff_ne]
    omega
  have searched : compareHash storage.hashFile (getHash sha1 block) =
      some (((kinds.idxOf block + 1 : Nat) : Int), false, file') := by
    rw [← position, ← notNew, ← found, hash]
    rfl
  refine ⟨{ storage with hashFile := file' }, before ++ line.bump :: after, ?_, ?_, ?_,
    gathered.few, gathered.distinct, ?_, ?_, ?_, gathered.stored⟩
  · rw [pushBlock]
    simp only [searched, Option.bind_eq_bind, Option.bind_some, Option.pure_def]
    rfl
  · rw [text', ledgerBytes, renderFrom_append, renderFrom, Nat.add_comm 1]
    simp only [List.append_assoc, List.length_append, List.length_cons]
  · rw [← gathered.length]
    simp
  · intro other
    rw [gathered.same, List.mem_append, List.mem_singleton]
    exact ⟨.inl, fun member => member.elim id fun equal => equal ▸ again⟩
  · intro other member
    rcases List.mem_append.mp member with old | new
    · exact gathered.legal other old
    · exact List.mem_singleton.mp new ▸ legal
  · intro index other present
    rcases gathered.line index other present with ⟨old, oldThere, oldHash, oldPositive, oldCounter⟩
    rw [List.count_append]
    by_cases atLine : index = before.length
    · subst atLine
      obtain rfl : line = old := by simpa using oldThere
      obtain rfl : block = other := by
        rw [position] at present
        exact Option.some.inj (here.symm.trans present)
      refine ⟨line.bump, by simp, hash, bump_positive line, ?_⟩
      rw [bump_mod, List.count_singleton_self]
      omega
    · have different : block ≠ other := by
        intro equal
        subst equal
        have sameIndex := (List.getElem?_inj inside gathered.distinct).mp (here.trans present.symm)
        omega
      refine ⟨old, ?_, oldHash, oldPositive, ?_⟩
      · rw [← oldThere]
        exact (Acquire.shared before line after first rfl).others atLine
      · rw [List.count_singleton, beq_false_of_ne different]
        exact oldCounter

theorem push_fresh (nonzero : getHash sha1 block ≠ zeroHash) (fresh : block ∉ done)
    (room : HasRoom done block) : ∃ storage' lines',
    pushBlock sha1 block storage = some (((kinds.length + 1 : Nat) : Int), storage') ∧
      Gathered sha1 used (done ++ [block]) (kinds ++ [block]) storage' lines' := by
  rcases room fresh with ⟨apart, few⟩
  rw [gathered.card] at few
  have length := gathered.length
  have freshKind : block ∉ kinds := fun member => fresh ((gathered.same block).mp member)
  have taken : ∀ line ∈ lines, line.counter % 10 ≠ 0 := by
    intro line member
    rcases List.mem_iff_getElem?.mp member with ⟨index, present⟩
    rcases gathered.kind present with ⟨other, _, otherMember, _, counter⟩
    rw [counter]
    exact apart other otherMember
  rcases pushBlock_acquires (gathered.text.trans (ledgerBytes_eq (by omega))) (by omega) block
    nonzero with ⟨index, isNew, lines', storage', returned, acquire, blocks, text⟩
  rcases acquire.behind_others (gathered.absent injective legal fresh) taken with
    ⟨rfl, rfl, rfl⟩
  rw [length] at returned blocks
  have counts : ∀ other, (done ++ [block]).count other =
      done.count other + if block = other then 1 else 0 := by
    intro other
    rw [List.count_append, List.count_singleton]
    simp only [beq_iff_eq]
  refine ⟨storage', lines ++ [Line.stored (blockHash sha1 block)], returned, text, by simp [length],
    by simp; omega, ?_, ?_, ?_, ?_, ?_⟩
  · exact List.nodup_append'.mpr ⟨gathered.distinct, List.nodup_singleton _,
      List.disjoint_singleton.mpr freshKind⟩
  · intro other
    rw [List.mem_append, List.mem_append, gathered.same]
  · intro other member
    rcases List.mem_append.mp member with old | new
    · exact gathered.legal other old
    · exact List.mem_singleton.mp new ▸ legal
  · intro index other present
    rw [counts]
    rcases Nat.lt_or_ge index kinds.length with old | new
    · rw [List.getElem?_append_left old] at present
      rcases gathered.line index other present with ⟨line, there, hash, positive, counter⟩
      have different : block ≠ other := fun equal =>
        freshKind (equal ▸ List.mem_of_getElem? present)
      refine ⟨line, ?_, hash, positive, ?_⟩
      · rw [List.getElem?_append_left (by omega), there]
      · rw [if_neg different, counter, Nat.add_zero]
    · rw [List.getElem?_append_right new, List.getElem?_singleton] at present
      split at present
      · obtain rfl := Option.some.inj present
        refine ⟨Line.stored (blockHash sha1 block), ?_, rfl, Nat.one_pos, ?_⟩
        · rw [List.getElem?_append_right (by omega), show index - lines.length = 0 by omega]
          rfl
        · rw [if_pos rfl, List.count_eq_zero_of_not_mem fresh]
          rfl
      · cases present
  · intro index other present
    rw [blocks, pushBlocks, if_pos rfl]
    rcases Nat.lt_or_ge index kinds.length with old | new
    · rw [List.getElem?_append_left old] at present
      rw [Function.update_of_ne (by omega)]
      exact gathered.stored index other present
    · rw [List.getElem?_append_right new, List.getElem?_singleton] at present
      split at present
      · obtain rfl := Option.some.inj present
        rw [show index = kinds.length by omega, Function.update_self,
          contents_of_zero_free legal.2]
      · cases present

/-- A new block without room gets the ID of an earlier one. -/
theorem push_crowded (nonzero : getHash sha1 block ≠ zeroHash) (crowded : ¬HasRoom done block)
    {id : Int} {storage' : Storage} (returned : pushBlock sha1 block storage = some (id, storage')) :
    ∃ earlier ∈ done, id = (kinds.idxOf earlier + 1 : Nat) := by
  have length := gathered.length
  have few := gathered.few
  rw [HasRoom, Classical.not_imp, not_and_or, gathered.card, not_lt] at crowded
  rcases crowded with ⟨fresh, crowded⟩
  have ofLine : ∀ index < lines.length, ∃ earlier ∈ done,
      ((index + 1 : Nat) : Int) = (kinds.idxOf earlier + 1 : Nat) := by
    intro index inside
    rcases gathered.kind (List.getElem?_eq_getElem inside) with ⟨earlier, here, member, _⟩
    have insideKinds : index < kinds.length := by omega
    refine ⟨earlier, member, ?_⟩
    rw [List.getElem?_eq_getElem insideKinds] at here
    rw [← Option.some.inj here, gathered.distinct.idxOf_getElem]
  rcases Nat.lt_or_ge lines.length 999 with room | full
  · rcases crowded with tenTimes | full
    · simp only [not_forall, not_not] at tenTimes
      rcases tenTimes with ⟨earlier, member, free⟩
      rcases pushBlock_acquires (gathered.text.trans (ledgerBytes_eq (by omega))) (by omega) block
        nonzero with ⟨index, isNew, lines', final, pushed, acquire, _, _⟩
      rcases acquire.stored_at (gathered.absent injective legal fresh) with ⟨position, _, _⟩
      have inside := List.idxOf_lt_length_iff.mpr ((gathered.same earlier).mpr member)
      rcases gathered.line _ earlier (by rw [List.getElem?_eq_getElem inside, List.getElem_idxOf])
        with ⟨line, there, _, _, counter⟩
      have before : index < lines.length := by
        rw [position]
        apply List.findIdx_lt_length_of_exists
        exact ⟨line, List.mem_of_getElem? there, by simpa [counter] using free⟩
      obtain rfl := (Prod.mk.inj (Option.some.inj (returned.symm.trans pushed))).1
      exact ofLine index before
    · omega
  · have width := ledgerBytes_length (show lines.length ≤ 999 by omega)
    rw [← gathered.text] at width
    simp only [pushBlock, Option.bind_eq_bind, Option.bind_eq_some_iff] at returned
    rcases returned with ⟨⟨found, isNewBlock, file⟩, compared, last⟩
    obtain rfl := (Prod.mk.inj (Option.some.inj last)).1
    have named := compareHash_names width (by omega) compared
    rw [gathered.text] at named
    rcases full_names (show lines.length = 999 by omega) named with ⟨index, inside, rfl⟩
    exact ofLine index inside

end

end Gathered

/-! ## All blocks of a buffer -/

section

variable (sha1 : Bytes → Fin 20 → UInt8)

/-- The IDs of the blocks that are pushed. -/
def pushEach : (blocks : List Bytes) → Storage → Option (List Int × Storage)
  | [], storage => some ([], storage)
  | block :: blocks, storage => do
      let (id, storage) ← pushBlock sha1 block storage
      let (ids, storage) ← pushEach blocks storage
      pure (id :: ids, storage)

/-- The text of one entry of an ID list. -/
def idEntry (id : Int) : Bytes := sprintfDecimal 3 id ++ [10]

theorem compressBufferLoop_printed {buf : Bytes} {size base : Int} (count : Nat) :
    ∀ {i : Nat} {output compressedBuf : Bytes} {storage storage' : Storage},
    compressBufferLoop sha1 buf size base count i output storage =
      some (compressedBuf, storage') →
    ∀ j ∈ List.range' i count, noConversion (contents (segment buf size base (j : Nat))) := by
  induction count with
  | zero =>
      intro i output compressedBuf storage storage' _ j member
      cases member
  | succ count induction =>
      intro i output compressedBuf storage storage' returned j member
      simp only [compressBufferLoop, Option.bind_eq_bind, Option.bind_eq_some_iff] at returned
      rcases returned with ⟨_, printed, ⟨numId, middle⟩, _, rest⟩
      rw [List.range'_succ] at member
      rcases List.mem_cons.mp member with rfl | later
      · exact fprintf_eq_some_iff.mp printed
      · exact induction rest j later

theorem compressBufferLoop_eq (buf : Bytes) (size base : Int) (count : Nat) :
    ∀ (i : Nat) (output : Bytes) (storage : Storage),
    (∀ j ∈ List.range' i count, noConversion (contents (segment buf size base (j : Nat)))) →
    compressBufferLoop sha1 buf size base count i output storage =
      (pushEach sha1 ((List.range' i count).map fun j => segment buf size base (j : Nat))
        storage).map fun pushed => (output ++ (pushed.1.map idEntry).flatten, pushed.2) := by
  induction count with
  | zero =>
      intro i output storage _
      simp [compressBufferLoop, pushEach]
  | succ count induction =>
      intro i output storage plain
      rw [List.range'_succ] at plain
      have printed := (@fprintf_eq_some_iff _ ()).mpr (plain i List.mem_cons_self)
      have rest := fun output storage => induction (i + 1) output storage fun j later =>
        plain j (List.mem_cons_of_mem _ later)
      rw [compressBufferLoop, List.range'_succ, List.map_cons, pushEach]
      simp only [printed, rest, Option.bind_eq_bind, Option.bind_some, Option.pure_def]
      cases pushBlock sha1 (segment buf size base i) storage with
      | none => rfl
      | some first =>
          simp only [Option.bind_some]
          cases pushEach sha1 ((List.range' (i + 1) count).map fun j =>
              segment buf size base (j : Nat)) first.2 with
          | none => rfl
          | some rest => simp [idEntry]

end

namespace Gathered

variable {sha1 : Bytes → Fin 20 → UInt8} {used : Set Bytes}
  (injective : Set.InjOn (getHash sha1) used)
  (nonzero : ∀ block ∈ used, getHash sha1 block ≠ zeroHash)
include injective nonzero

theorem push {done kinds : List Bytes} {storage : Storage} {lines : List Line} {block : Bytes}
    (gathered : Gathered sha1 used done kinds storage lines) (legal : block ∈ used ∧ 0 ∉ block)
    (room : HasRoom done block) : ∃ kinds' storage' lines',
    pushBlock sha1 block storage = some (((kinds'.idxOf block + 1 : Nat) : Int), storage') ∧
      kinds <+: kinds' ∧ Gathered sha1 used (done ++ [block]) kinds' storage' lines' := by
  by_cases again : block ∈ done
  · rcases gathered.push_again injective legal again with ⟨storage', lines', returned, after⟩
    exact ⟨kinds, storage', lines', returned, List.prefix_rfl, after⟩
  · rcases gathered.push_fresh injective legal (nonzero block legal.1) again room with
      ⟨storage', lines', returned, after⟩
    have freshKind : block ∉ kinds := fun member => again ((gathered.same block).mp member)
    refine ⟨kinds ++ [block], storage', lines', ?_, List.prefix_append _ _, after⟩
    rw [List.idxOf_append_of_notMem freshKind, List.idxOf_cons_self, Nat.add_zero]
    exact returned

theorem pushEach_returns (blocks : List Bytes) :
    ∀ {done kinds : List Bytes} {storage : Storage} {lines : List Line},
    Gathered sha1 used done kinds storage lines → (∀ block ∈ blocks, block ∈ used ∧ 0 ∉ block) →
    (∀ before block after, blocks = before ++ block :: after → HasRoom (done ++ before) block) →
    ∃ kinds' storage' lines',
      pushEach sha1 blocks storage =
        some (blocks.map fun block => ((kinds'.idxOf block + 1 : Nat) : Int), storage') ∧
      kinds <+: kinds' ∧ Gathered sha1 used (done ++ blocks) kinds' storage' lines' := by
  induction blocks with
  | nil =>
      intro done kinds storage lines gathered _ _
      refine ⟨kinds, storage, lines, rfl, List.prefix_rfl, ?_⟩
      rwa [List.append_nil]
  | cons block blocks induction =>
      intro done kinds storage lines gathered legal room
      have roomHere : HasRoom done block := by
        have here := room [] block blocks rfl
        rwa [List.append_nil] at here
      rcases gathered.push injective nonzero (legal block List.mem_cons_self) roomHere with
        ⟨kinds₁, middle, lines₁, returned, longer, gathered₁⟩
      rcases induction gathered₁ (fun other member => legal other (List.mem_cons_of_mem _ member))
        (fun before other after split => by
          have later := room (block :: before) other after (by rw [split]; rfl)
          rwa [List.append_cons] at later) with
        ⟨kinds₂, final, lines₂, rest, longer₂, gathered₂⟩
      refine ⟨kinds₂, final, lines₂, ?_, longer.trans longer₂, by rwa [List.append_cons]⟩
      have kept : kinds₁.idxOf block = kinds₂.idxOf block := by
        rcases longer₂ with ⟨tail, rfl⟩
        rw [List.idxOf_append_of_mem ((gathered₁.same block).mpr (by simp))]
      rw [pushEach]
      simp only [returned, Option.bind_eq_bind, Option.bind_some, rest, Option.pure_def,
        List.map_cons, kept]

theorem pushEach_tells (blocks : List Bytes) (blockOf : Int → Option Bytes) :
    ∀ {done kinds : List Bytes} {storage storage' : Storage} {lines : List Line} {ids : List Int},
    Gathered sha1 used done kinds storage lines → (∀ block ∈ blocks, block ∈ used ∧ 0 ∉ block) →
    pushEach sha1 blocks storage = some (ids, storage') →
    (∀ earlier ∈ done, blockOf (kinds.idxOf earlier + 1 : Nat) = some earlier) →
    ids.map blockOf = blocks.map some →
    ∀ before block after, blocks = before ++ block :: after → HasRoom (done ++ before) block := by
  induction blocks with
  | nil =>
      intro done kinds storage storage' lines ids _ _ _ _ _ before block after split
      simp at split
  | cons block blocks induction =>
      intro done kinds storage storage' lines ids gathered legal returned told tells
      simp only [pushEach, Option.bind_eq_bind, Option.bind_eq_some_iff] at returned
      rcases returned with ⟨⟨id, middle⟩, pushed, ⟨rest, final⟩, others, last⟩
      rcases Prod.mk.inj (Option.some.inj last) with ⟨rfl, _⟩
      rcases List.cons.inj tells with ⟨here, there⟩
      have legalHere := legal block List.mem_cons_self
      have roomHere : HasRoom done block := by
        by_contra crowded
        rcases gathered.push_crowded injective legalHere (nonzero block legalHere.1) crowded pushed
          with ⟨earlier, member, rfl⟩
        have equal := Option.some.inj ((told earlier member).symm.trans here)
        rw [HasRoom, Classical.not_imp] at crowded
        exact crowded.1 (equal ▸ member)
      rcases gathered.push injective nonzero legalHere roomHere with
        ⟨kinds₁, middle₁, lines₁, returned, longer, gathered₁⟩
      rcases Prod.mk.inj (Option.some.inj (pushed.symm.trans returned)) with ⟨rfl, rfl⟩
      have toldAll : ∀ earlier ∈ done ++ [block],
          blockOf (kinds₁.idxOf earlier + 1 : Nat) = some earlier := by
        intro earlier member
        rcases List.mem_append.mp member with old | new
        · rcases longer with ⟨tail, rfl⟩
          rw [List.idxOf_append_of_mem ((gathered.same earlier).mpr old)]
          exact told earlier old
        · rw [List.mem_singleton.mp new]
          exact here
      intro before other after split
      cases before with
      | nil =>
          rcases List.cons.inj split with ⟨rfl, _⟩
          rwa [List.append_nil]
      | cons first before =>
          rcases List.cons.inj split with ⟨rfl, tailSplit⟩
          rw [List.append_cons]
          exact induction gathered₁ (fun other member => legal other (List.mem_cons_of_mem _ member))
            others toldAll there before other after tailSplit

end Gathered

end CE321.Dedup
