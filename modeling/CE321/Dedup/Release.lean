import CE321.Dedup.Fields

/-! # Releasing references

What `removeBlocks` does to the ledger lines and the block files: every entry of
its string takes one from a counter that is not zero, and the block file goes
when the counter gets there.
-/

namespace CE321.Dedup

open CString ByteFile

/-- The string of entries `"ddd\n"`. -/
def idText (ids : List Nat) : Bytes := ids.flatMap fun id => zeroPadded 3 id ++ [10]

theorem idText_cons (id : Nat) (ids : List Nat) :
    idText (id :: ids) = zeroPadded 3 id ++ ([10] ++ idText ids) := by
  simp [idText]

theorem idText_append (before after : List Nat) :
    idText (before ++ after) = idText before ++ idText after := by
  simp [idText]

theorem idText_length {ids : List Nat} (small : ∀ id ∈ ids, id < 1000) :
    (idText ids).length = 4 * ids.length := by
  induction ids with
  | nil => rfl
  | cons id ids induction =>
      have width : (zeroPadded 3 id).length = 3 :=
        zeroPadded_length (small id List.mem_cons_self)
      rw [idText_cons, List.length_append, List.length_append, width,
        induction fun other member => small other (List.mem_cons_of_mem _ member)]
      simp
      omega

theorem idText_zero_free {ids : List Nat} (small : ∀ id ∈ ids, id < 1000) : 0 ∉ idText ids := by
  intro member
  rcases List.mem_flatMap.mp member with ⟨id, idMember, member⟩
  rw [zeroPadded_of_lt (show id < 10 ^ 3 from small id idMember)] at member
  rcases List.mem_append.mp member with member | member
  · exact decimalDigits_zero_free _ _ member
  · simp at member

theorem slice_idText (before : List Nat) (id : Nat) (after : List Nat)
    (small : ∀ other ∈ before, other < 1000) (fits : id < 1000) :
    slice (idText (before ++ id :: after)) (before.length * 4) 3 = zeroPadded 3 id := by
  have width : (zeroPadded 3 id).length = 3 := zeroPadded_length fits
  have found := @slice_inside (idText before) (zeroPadded 3 id) ([10] ++ idText after)
  rw [width, idText_length small] at found
  rw [idText_append, idText_cons, Nat.mul_comm, found]

/-! ## The abstract release -/

def Line.releaseBy (line : Line) (count : Nat) : Line :=
  ⟨line.hash, line.counter - count, by have bound := line.counter_lt; omega⟩

@[simp] theorem Line.releaseBy_hash (line : Line) (count : Nat) :
    (line.releaseBy count).hash = line.hash := rfl

@[simp] theorem Line.releaseBy_counter (line : Line) (count : Nat) :
    (line.releaseBy count).counter = line.counter - count := rfl

def releaseLines (ids : List Nat) (lines : List Line) : List Line :=
  lines.mapIdx fun index line => line.releaseBy (ids.count (index + 1))

def releaseBlocks (ids : List Nat) (lines : List Line) (block : Int → Option Bytes) :
    Int → Option Bytes := fun id =>
  match lines[id.toNat - 1]? with
  | none => block id
  | some line =>
      if 0 < id ∧ 0 < line.counter ∧ line.counter ≤ ids.count id.toNat then none else block id

@[simp] theorem releaseLines_length (ids : List Nat) (lines : List Line) :
    (releaseLines ids lines).length = lines.length := by
  simp [releaseLines]

theorem releaseLines_getElem? (ids : List Nat) (lines : List Line) (index : Nat) :
    (releaseLines ids lines)[index]? =
      lines[index]?.map fun line => line.releaseBy (ids.count (index + 1)) := by
  simp [releaseLines]

theorem releaseLines_nil (lines : List Line) : releaseLines [] lines = lines := by
  apply List.ext_getElem?
  intro index
  rw [releaseLines_getElem?]
  cases lines[index]? <;> rfl

theorem releaseLines_cons (id : Nat) (ids : List Nat) (lines : List Line) :
    releaseLines (id :: ids) lines = releaseLines ids (releaseLines [id] lines) := by
  apply List.ext_getElem?
  intro index
  rw [releaseLines_getElem?, releaseLines_getElem?, releaseLines_getElem?, Option.map_map]
  congr 1
  funext line
  apply Line.ext
  · rfl
  · simp only [Line.releaseBy_counter, Function.comp, List.count_cons, List.count_nil]
    omega

theorem releaseBlocks_index (ids : List Nat) (lines : List Line) (block : Int → Option Bytes)
    {index : Nat} {line : Line} (present : lines[index]? = some line) :
    releaseBlocks ids lines block (index + 1 : Nat) =
      if 0 < line.counter ∧ line.counter ≤ ids.count (index + 1) then none
      else block (index + 1 : Nat) := by
  simp [releaseBlocks, present]

theorem releaseBlocks_other (ids : List Nat) (lines : List Line) (block : Int → Option Bytes)
    {id : Int} (absent : ∀ index < lines.length, id ≠ (index + 1 : Nat)) :
    releaseBlocks ids lines block id = block id := by
  unfold releaseBlocks
  split
  · rfl
  · next line present =>
      have bound := (List.getElem?_eq_some_iff.mp present).1
      have different := absent _ bound
      rw [if_neg (by omega)]

theorem releaseBlocks_cons (id : Nat) (ids : List Nat) (lines : List Line)
    (block : Int → Option Bytes) :
    releaseBlocks (id :: ids) lines block =
      releaseBlocks ids (releaseLines [id] lines) (releaseBlocks [id] lines block) := by
  funext key
  by_cases present : ∃ index < lines.length, key = (index + 1 : Nat)
  · rcases present with ⟨index, bound, rfl⟩
    have line := List.getElem?_eq_getElem bound
    have released : (releaseLines [id] lines)[index]? =
        some (lines[index].releaseBy (List.count (index + 1) [id])) := by
      rw [releaseLines_getElem?, line, Option.map_some]
    rw [releaseBlocks_index _ _ _ line, releaseBlocks_index _ _ _ released,
      releaseBlocks_index _ _ _ line]
    simp only [Line.releaseBy_counter, List.count_cons, List.count_nil]
    split_ifs <;> first | rfl | omega
  · have absent : ∀ index < lines.length, key ≠ (index + 1 : Nat) := fun index bound equal =>
      present ⟨index, bound, equal⟩
    rw [releaseBlocks_other _ _ _ absent, releaseBlocks_other _ _ _ (by simpa using absent),
      releaseBlocks_other _ _ _ absent]

theorem releaseLines_sentinel (ids : List Nat) (lines : List Line) :
    releaseLines ids (lines ++ [Line.sentinel]) = releaseLines ids lines ++ [Line.sentinel] := by
  have same : ∀ count, Line.sentinel.releaseBy count = Line.sentinel := fun count =>
    Line.ext rfl (Nat.zero_sub count)
  simp [releaseLines, List.mapIdx_append, same]

theorem releaseLines_single (before : List Line) (line : Line) (after : List Line) :
    releaseLines [before.length + 1] (before ++ line :: after) =
      before ++ line.releaseBy 1 :: after := by
  have untouched : ∀ line : Line, line.releaseBy 0 = line := fun line => rfl
  apply List.ext_getElem?
  intro index
  rw [releaseLines_getElem?, List.count_singleton]
  rcases Nat.lt_trichotomy index before.length with earlier | rfl | later
  · rw [List.getElem?_append_left earlier, List.getElem?_append_left earlier,
      if_neg (by simp; omega)]
    simp [untouched]
  · simp
  · rw [List.getElem?_append_right later.le, List.getElem?_append_right later.le,
      if_neg (by simp; omega), List.getElem?_cons, List.getElem?_cons,
      if_neg (by omega), if_neg (by omega)]
    simp [untouched]

theorem releaseBlocks_single (lines : List Line) (block : Int → Option Bytes)
    {index : Nat} {line : Line} (present : lines[index]? = some line) :
    releaseBlocks [index + 1] lines block =
      if line.counter = 1 then Function.update block (index + 1 : Nat) none else block := by
  have others : ∀ key : Int, key ≠ (index + 1 : Nat) →
      releaseBlocks [index + 1] lines block key = block key := by
    intro key different
    by_cases inside : ∃ position < lines.length, key = (position + 1 : Nat)
    · rcases inside with ⟨position, bound, rfl⟩
      have apart : index ≠ position := by omega
      rw [releaseBlocks_index _ _ _ (List.getElem?_eq_getElem bound), List.count_singleton,
        if_neg (by simp [apart]; omega)]
    · exact releaseBlocks_other _ _ _ fun position bound equal =>
        inside ⟨position, bound, equal⟩
  funext key
  by_cases hit : key = (index + 1 : Nat)
  · subst hit
    rw [releaseBlocks_index _ _ _ present, List.count_singleton]
    by_cases lastOne : line.counter = 1
    · simp [lastOne]
    · rw [if_neg lastOne, if_neg (by simp; omega)]
  · rw [others key hit]
    split
    · rw [Function.update_of_ne hit]
    · rfl

theorem releaseBlocks_nil (lines : List Line) (block : Int → Option Bytes) :
    releaseBlocks [] lines block = block := by
  funext key
  by_cases inside : ∃ index < lines.length, key = (index + 1 : Nat)
  · rcases inside with ⟨index, bound, rfl⟩
    rw [releaseBlocks_index _ _ _ (List.getElem?_eq_getElem bound), if_neg (by simp; omega)]
  · exact releaseBlocks_other _ _ _ fun index bound equal => inside ⟨index, bound, equal⟩

theorem releaseBlocks_sentinel (ids : List Nat) (lines : List Line)
    (block : Int → Option Bytes) :
    releaseBlocks ids (lines ++ [Line.sentinel]) block = releaseBlocks ids lines block := by
  funext key
  unfold releaseBlocks
  rcases Nat.lt_trichotomy (key.toNat - 1) lines.length with earlier | last | later
  · rw [List.getElem?_append_left earlier]
  · simp [last, Line.sentinel]
  · rw [List.getElem?_eq_none later.le, List.getElem?_eq_none (by simp; omega)]

/-! ### The order of the entries -/

theorem releaseLines_perm {ids others : List Nat} (sameIds : ids.Perm others)
    (lines : List Line) : releaseLines ids lines = releaseLines others lines := by
  apply List.ext_getElem?
  intro index
  rw [releaseLines_getElem?, releaseLines_getElem?, sameIds.count_eq]

theorem releaseBlocks_perm {ids others : List Nat} (sameIds : ids.Perm others)
    (lines : List Line) (block : Int → Option Bytes) :
    releaseBlocks ids lines block = releaseBlocks others lines block := by
  funext key
  simp only [releaseBlocks, sameIds.count_eq]

/-! ## The loop -/

theorem fseekCur_iterate (file : ByteFile) (width count : Nat) :
    (fun file : ByteFile => file.fseekCur width)^[count] file =
      { file with pos := file.pos + width * count } := by
  induction count generalizing file with
  | zero => rfl
  | succ count induction =>
      rw [Function.iterate_succ_apply, fseekCur_forward, induction]
      simp only [Nat.mul_succ]
      congr 1
      omega

theorem removeBlocksLoop_entry (input : Bytes) (count j : Nat) (counterChar : Bytes)
    (storage : Storage) (before : List Line) (line : Line) (rest : Bytes)
    (text : storage.hashFile.data =
      renderFrom 1 before ++ (line.render (before.length + 1) ++ rest))
    (small : before.length + 1 < 1000)
    (entry : slice input (j * 4) 3 = zeroPadded 3 (before.length + 1))
    (counterRoom : counterChar.length ≤ 2) :
    removeBlocksLoop input (count + 1) j counterChar storage =
      let id : Int := (before.length + 1 : Nat)
      let counterChar := zeroPadded 2 (line.counter - 1)
      let storage' := { storage with hashFile := ⟨renderFrom 1 before ++
        ((line.releaseBy 1).render (before.length + 1) ++ rest), 30 * before.length + 29⟩ }
      if line.counter = 1 then
        if storage.block id = none then (1, storage')
        else removeBlocksLoop input count (j + 1) counterChar
          { storage' with block := Function.update storage.block id none }
      else removeBlocksLoop input count (j + 1) counterChar storage' := by
  have beforeWidth : (renderFrom 1 before).length = 30 * before.length :=
    renderFrom_length (by omega)
  have counterWidth : (zeroPadded 2 line.counter).length = 2 :=
    zeroPadded_length (show line.counter < 10 ^ 2 from line.counter_lt)
  have id : atoi (zeroPadded 3 (before.length + 1)) = (before.length + 1 : Nat) :=
    atoi_zeroPadded_self (by decide) (show before.length + 1 < 10 ^ 3 from small)
  have counter : atoi (zeroPadded 2 line.counter) = line.counter :=
    atoi_zeroPadded_self (by decide) line.counter_lt
  have skipped : (((before.length + 1 : Nat) : Int) - 1).toNat = before.length := by omega
  have atCounter : (ByteFile.mk storage.hashFile.data (0 + 30 * before.length)).fseekCur 27 =
      ⟨storage.hashFile.data, (renderFrom 1 before).length + 27⟩ := by
    rw [show (27 : Int) = ((27 : Nat) : Int) from rfl, fseekCur_forward, beforeWidth, Nat.zero_add]
  have back : (ByteFile.mk storage.hashFile.data ((renderFrom 1 before).length + 29)).fseekCur
      (-2) = ⟨storage.hashFile.data, (renderFrom 1 before).length + 27⟩ := by
    rw [show (-2 : Int) = -((2 : Nat) : Int) from rfl, fseekCur_backward _ (by simp)]
    congr 1
  have readCounter := fread_counter storage.hashFile.data (renderFrom 1 before) _ line _ text small
  have written := fwrite_counter storage.hashFile.data (renderFrom 1 before) _ line
    (line.releaseBy 1) _ text small rfl
  have steps := fseekCur_iterate (storage.hashFile.fseekSet 0) 30 before.length
  rw [removeBlocksLoop]
  simp only [entry, id, skipped]
  rw [show (30 : Int) = ((30 : Nat) : Int) from rfl, steps]
  simp only [fseekSet_data, fseekSet_pos, atCounter, readCounter,
    overlay_eq (counterRoom.trans_eq counterWidth.symm), counter]
  by_cases dead : line.counter = 0
  · have same : line.releaseBy 1 = line := by
      apply Line.ext <;> simp [dead]
    simp [dead, same, ← text, beforeWidth]
  · have next : ((line.counter : Int) - 1) = ((line.counter - 1 : Nat) : Int) := by omega
    have rendered : sprintfDecimal 2 ((line.counter - 1 : Nat) : Int) =
      zeroPadded 2 (line.counter - 1) := rfl
    have nextWidth : (zeroPadded 2 (line.counter - 1)).length = 2 :=
      zeroPadded_length (by have bound := line.counter_lt; omega)
    have nonnegative : ((line.counter - 1 : Nat) : Int) ≥ 0 := by omega
    rw [Line.releaseBy_counter] at written
    simp only [next, if_pos nonnegative, rendered, List.take_of_length_le nextWidth.le, back,
      written]
    rw [beforeWidth]
    by_cases lastOne : line.counter = 1
    · rw [if_pos lastOne, if_pos (by omega)]
    · rw [if_neg lastOne, if_neg (by omega)]

/-- Every line with references has its block file. -/
def Stored (lines : List Line) (block : Int → Option Bytes) : Prop :=
  ∀ index line, lines[index]? = some line → 0 < line.counter →
    block (index + 1 : Nat) ≠ none

theorem Stored.release {lines : List Line} {block : Int → Option Bytes}
    (stored : Stored lines block) (ids : List Nat) :
    Stored (releaseLines ids lines) (releaseBlocks ids lines block) := by
  intro index line present positive
  rw [releaseLines_getElem?] at present
  rcases Option.map_eq_some_iff.mp present with ⟨old, oldPresent, rfl⟩
  rw [Line.releaseBy_counter] at positive
  rw [releaseBlocks_index _ _ _ oldPresent, if_neg (by omega)]
  exact stored index old oldPresent (by omega)

theorem Stored.sentinel {lines : List Line} {block : Int → Option Bytes}
    (stored : Stored lines block) : Stored (lines ++ [Line.sentinel]) block := by
  intro index line present positive
  rcases Nat.lt_or_ge index lines.length with inside | beyond
  · rw [List.getElem?_append_left inside] at present
    exact stored index line present positive
  · rw [List.getElem?_append_right beyond] at present
    rw [List.mem_singleton.mp (List.mem_of_getElem? present)] at positive
    exact absurd positive (lt_irrefl 0)

theorem removeBlocksLoop_releases (ids : List Nat) : ∀ (done : List Nat) (counterChar : Bytes)
    (storage : Storage) (lines : List Line),
    storage.hashFile.data = renderFrom 1 lines → lines.length < 1000 →
    (∀ id ∈ ids, 0 < id ∧ id ≤ lines.length) → (∀ id ∈ done, id < 1000) →
    Stored lines storage.block → counterChar.length ≤ 2 →
    ∃ storage', removeBlocksLoop (idText (done ++ ids)) ids.length done.length counterChar
        storage = (0, storage') ∧
      storage'.hashFile.data = renderFrom 1 (releaseLines ids lines) ∧
      storage'.block = releaseBlocks ids lines storage.block := by
  induction ids with
  | nil =>
      intro done counterChar storage lines text _ _ _ _ _
      exact ⟨storage, rfl, by rw [releaseLines_nil, text], (releaseBlocks_nil _ _).symm⟩
  | cons id ids induction =>
      intro done counterChar storage lines text small present doneSmall stored counterRoom
      rcases present id List.mem_cons_self with ⟨positive, bound⟩
      have atLine : lines[id - 1]? = some lines[id - 1] :=
        List.getElem?_eq_getElem (by omega)
      rcases renderFrom_split atLine with ⟨before, after, split, width⟩
      generalize lines[id - 1] = line at atLine split
      obtain rfl : id = before.length + 1 := by omega
      have lineText : storage.hashFile.data = renderFrom 1 before ++
          (line.render (before.length + 1) ++ renderFrom (before.length + 2) after) := by
        rw [text, split, renderFrom_append, renderFrom, Nat.add_comm 1]
      have entry : slice (idText (done ++ (before.length + 1) :: ids)) (done.length * 4) 3 =
          zeroPadded 3 (before.length + 1) := slice_idText done _ ids doneSmall (by omega)
      have releasedText : renderFrom 1 before ++ ((line.releaseBy 1).render (before.length + 1) ++
          renderFrom (before.length + 2) after) =
          renderFrom 1 (releaseLines [before.length + 1] lines) := by
        rw [split, releaseLines_single, renderFrom_append, renderFrom, Nat.add_comm 1]
      have releasedBlock := releaseBlocks_single lines storage.block atLine
      have rest := fun storage' text' block' => induction (done ++ [before.length + 1])
        (zeroPadded 2 (line.counter - 1)) storage' (releaseLines [before.length + 1] lines) text'
        (by simpa using small)
        (fun other member => by simpa using present other (List.mem_cons_of_mem _ member))
        (by
          intro other member
          rcases List.mem_append.mp member with member | member
          · exact doneSmall other member
          · rw [List.mem_singleton.mp member]
            omega)
        block'
        (zeroPadded_length (show line.counter - 1 < 10 ^ 2 by
          have bound := line.counter_lt
          omega)).le
      rw [List.append_assoc] at rest
      simp only [Nat.add_sub_cancel] at releasedBlock
      rw [List.length_cons, removeBlocksLoop_entry _ _ _ _ _ _ _ _ lineText (by omega) entry
        counterRoom, releaseLines_cons, releaseBlocks_cons, releasedBlock]
      have storedNext := stored.release [before.length + 1]
      rw [releasedBlock] at storedNext
      by_cases lastOne : line.counter = 1
      · have held := stored _ _ atLine (by omega)
        simp only [if_pos lastOne, Nat.add_sub_cancel] at storedNext held ⊢
        have final := rest ⟨⟨_, 30 * before.length + 29⟩,
          Function.update storage.block (before.length + 1 : Nat) none⟩ releasedText storedNext
        rw [List.length_append] at final
        rw [if_neg held]
        exact final
      · simp only [if_neg lastOne] at storedNext ⊢
        have final := rest ⟨⟨_, 30 * before.length + 29⟩, storage.block⟩ releasedText storedNext
        rw [List.length_append] at final
        exact final

/-- `removeBlocks` on the IDs of lines: every counter drops by the number of times its
ID occurs, but not below zero, and the block files removed are those whose counter
gets to zero. -/
theorem removeBlocks_renderFrom (ids : List Nat) (storage : Storage) (lines : List Line)
    (text : storage.hashFile.data = renderFrom 1 lines) (small : lines.length < 1000)
    (present : ∀ id ∈ ids, 0 < id ∧ id ≤ lines.length)
    (stored : Stored lines storage.block) :
    ∃ storage', removeBlocks (idText ids) storage = (0, storage') ∧
      storage'.hashFile.data = renderFrom 1 (releaseLines ids lines) ∧
      storage'.block = releaseBlocks ids lines storage.block := by
  have fits : ∀ id ∈ ids, id < 1000 := fun id member => by
    have bounds := present id member
    omega
  have entries : strlen (idText ids) / 4 = ids.length := by
    rw [strlen_of_zero_free (idText_zero_free fits), idText_length fits,
      Nat.mul_div_cancel_left _ (by decide)]
  rw [removeBlocks, entries]
  exact removeBlocksLoop_releases ids [] [] storage lines text small present (by simp) stored
    (by simp)

theorem removeBlocks_releases (ids : List Nat) (storage : Storage) (lines : List Line)
    (text : storage.hashFile.data = ledgerText lines) (small : lines.length ≤ 998)
    (present : ∀ id ∈ ids, 0 < id ∧ id ≤ lines.length + 1)
    (stored : Stored lines storage.block) :
    ∃ storage', removeBlocks (idText ids) storage = (0, storage') ∧
      storage'.hashFile.data = ledgerText (releaseLines ids lines) ∧
      storage'.block = releaseBlocks ids lines storage.block := by
  have released := removeBlocks_renderFrom ids storage (lines ++ [Line.sentinel]) text
    (by simp; omega) (by simpa using present) stored.sentinel
  rwa [releaseLines_sentinel, releaseBlocks_sentinel] at released

/-! ## The specification of `removeBlocks` -/

/-- On a ledger of any lines, where exactly the lines with references have a block
file: the counters and block files afterwards, whatever the order of the entries. -/
theorem removeBlocks_specification (lines : List Line) (storage : Storage) (ids : List Nat)
    (text : storage.hashFile.data = renderFrom 1 lines) (small : lines.length < 1000)
    (held : ∀ id : Int, storage.block id ≠ none ↔
      ∃ index line, lines[index]? = some line ∧ 0 < line.counter ∧ id = (index + 1 : Nat))
    (present : ∀ id ∈ ids, 1 ≤ id ∧ id ≤ lines.length) :
    ∃ storage', removeBlocks (idText ids) storage = (0, storage') ∧
      storage'.hashFile.data = renderFrom 1 (releaseLines ids lines) ∧
      (∀ id, storage'.block id = none ∨ storage'.block id = storage.block id) ∧
      (∀ id, (storage.block id ≠ none ∧ storage'.block id = none) ↔
        ∃ index line, lines[index]? = some line ∧ id = (index + 1 : Nat) ∧
          0 < line.counter ∧ line.counter ≤ ids.count (index + 1)) ∧
      ∀ others, ids.Perm others →
        (removeBlocks (idText others) storage).1 = 0 ∧
          (removeBlocks (idText others) storage).2.hashFile.data = storage'.hashFile.data ∧
          (removeBlocks (idText others) storage).2.block = storage'.block := by
  have stored : Stored lines storage.block := fun index line there positive =>
    (held _).mpr ⟨index, line, there, positive, rfl⟩
  rcases removeBlocks_renderFrom ids storage lines text small present stored with
    ⟨storage', returned, text', blocks⟩
  refine ⟨storage', returned, text', ?_, ?_, ?_⟩
  · intro id
    rw [blocks, releaseBlocks]
    split
    · exact .inr rfl
    · split
      · exact .inl rfl
      · exact .inr rfl
  · intro id
    rw [blocks]
    constructor
    · rintro ⟨before, gone⟩
      rcases (held id).mp before with ⟨index, line, there, positive, rfl⟩
      rw [releaseBlocks_index _ _ _ there] at gone
      split at gone
      · next released => exact ⟨index, line, there, rfl, released⟩
      · exact absurd gone before
    · rintro ⟨index, line, there, rfl, positive, enough⟩
      refine ⟨stored index line there positive, ?_⟩
      rw [releaseBlocks_index _ _ _ there, if_pos ⟨positive, enough⟩]
  · intro others sameIds
    rcases removeBlocks_renderFrom others storage lines text small
      (fun id member => present id (sameIds.mem_iff.mpr member)) stored with
      ⟨final, finalReturned, finalText, finalBlocks⟩
    rw [finalReturned]
    refine ⟨rfl, ?_, ?_⟩
    · rw [finalText, text', releaseLines_perm sameIds]
    · rw [finalBlocks, blocks, releaseBlocks_perm sameIds]

/-- A ledger whose first line has two references, and the block of that line. -/
def twoReferences : Storage where
  hashFile := ⟨renderFrom 1 [⟨Hash.zero, 2, by decide⟩], 0⟩
  block := Function.update (fun _ => none) 1 (some [])

theorem removeBlocks_specification_twoReferences : ∃ storage',
    removeBlocks (idText [1, 1]) twoReferences = (0, storage') ∧
      storage'.hashFile.data = renderFrom 1 [⟨Hash.zero, 0, by decide⟩] := by
  rcases removeBlocks_specification [⟨Hash.zero, 2, by decide⟩] twoReferences [1, 1] rfl
    (by decide) (by
      intro id
      by_cases first : id = 1
      · subst first
        exact iff_of_true (by simp [twoReferences]) ⟨0, _, rfl, by decide, rfl⟩
      · refine iff_of_false (by simp [twoReferences, first]) ?_
        rintro ⟨index, line, there, _, rfl⟩
        have inside := (List.getElem?_eq_some_iff.mp there).1
        simp at inside
        omega)
    (by simp) with ⟨storage', returned, text, _⟩
  exact ⟨storage', returned, text⟩

end CE321.Dedup
