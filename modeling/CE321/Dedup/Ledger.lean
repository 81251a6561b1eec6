import CE321.Dedup.OurLib

/-! # Ledger lines

The ledger as a list of lines instead of bytes, and what `compareHash` and
`addHash` do to it. Line `i` carries ID `i`, counted from one, and the last line
is always the sentinel, so a ledger is described by the lines before it.
-/

namespace CE321.Dedup

open CString ByteFile

/-- The text of a hash: a C string of 20 characters. -/
@[ext] structure Hash where
  text : Bytes
  length_eq : text.length = 20
  zero_free : 0 ∉ text
  deriving DecidableEq

def Hash.zero : Hash where
  text := zeroHash
  length_eq := by decide
  zero_free := by decide

/-- A ledger line without its ID. The counter has two digits. -/
@[ext] structure Line where
  hash : Hash
  counter : Nat
  counter_lt : counter < 100

namespace Line

def sentinel : Line := ⟨Hash.zero, 0, by decide⟩

/-- The line of a block that was stored just now. -/
def stored (hash : Hash) : Line := ⟨hash, 1, by decide⟩

/-- One reference more: the number after 99 is cut to its first two digits. -/
def bump (line : Line) : Line :=
  ⟨line.hash, if line.counter = 99 then 10 else line.counter + 1, by
    have bound := line.counter_lt
    split <;> omega⟩

/-- `"III, HHHHHHHHHHHHHHHHHHHH, CC\n"`. -/
def render (id : Nat) (line : Line) : Bytes :=
  zeroPadded 3 id ++ ([44, 32] ++ (line.hash.text ++ ([44, 32] ++ (zeroPadded 2 line.counter ++ [10]))))

theorem render_length (line : Line) {id : Nat} (small : id < 1000) :
    (line.render id).length = 30 := by
  simp [render, zeroPadded_length (show id < 10 ^ 3 from small),
    zeroPadded_length (show line.counter < 10 ^ 2 from line.counter_lt), line.hash.length_eq]

theorem endLine_eq (id : Nat) : endLine id = sentinel.render id := rfl

end Line

/-- The text of consecutive lines, the first of them numbered `first`. -/
def renderFrom (first : Nat) : List Line → Bytes
  | [] => []
  | line :: lines => line.render first ++ renderFrom (first + 1) lines

theorem renderFrom_append (first : Nat) (before after : List Line) :
    renderFrom first (before ++ after) =
      renderFrom first before ++ renderFrom (first + before.length) after := by
  induction before generalizing first with
  | nil => rfl
  | cons line before induction =>
      simp only [List.cons_append, renderFrom, induction, List.append_assoc,
        List.length_cons]
      rw [Nat.add_assoc, Nat.add_comm 1]

theorem renderFrom_length {first : Nat} {lines : List Line}
    (small : first + lines.length ≤ 1000) :
    (renderFrom first lines).length = 30 * lines.length := by
  induction lines generalizing first with
  | nil => rfl
  | cons line lines induction =>
      simp only [List.length_cons] at small
      rw [renderFrom, List.length_append, line.render_length (by omega),
        induction (by omega), List.length_cons]
      omega

/-- The ledger file that holds the given lines and the sentinel. -/
def ledgerText (lines : List Line) : Bytes := renderFrom 1 (lines ++ [Line.sentinel])

/-! ## One round of each loop -/

theorem strcmpEq_iff {left right : Bytes} (leftFree : 0 ∉ left) (rightFree : 0 ∉ right) :
    strcmpEq left right = true ↔ left = right := by
  simp [strcmpEq, contents_of_zero_free leftFree, contents_of_zero_free rightFree]

theorem atoi_zeroPadded_self {width value : Nat} (positive : 0 < width)
    (fits : value < 10 ^ width) : atoi (zeroPadded width value) = value := by
  have ends : EndsNumber [] := by simp [EndsNumber]
  simpa using atoi_zeroPadded positive fits ends

section

variable (file : ByteFile) {before after : Bytes} {line : Line} {id : Nat}

/-- The search reads one whole line: it stops behind the line that carries the
hash and goes on behind any other. -/
theorem compareHashLoop_line (fileSize fuel : Nat) {inHash idChar checkHash : Bytes}
    (text : file.data = before ++ (line.render id ++ after))
    (position : file.pos = before.length) (notAtEnd : file.pos ≠ fileSize)
    (small : id < 1000) (hashFree : 0 ∉ inHash)
    (idRoom : idChar.length ≤ 3) (hashRoom : checkHash.length ≤ 20) :
    compareHashLoop fileSize inHash (fuel + 1) file idChar checkHash =
      if line.hash.text = inHash then some (some (id : Int), { file with pos := file.pos + 30 })
      else compareHashLoop fileSize inHash fuel { file with pos := file.pos + 30 }
        (zeroPadded 3 id) line.hash.text := by
  have idWidth : (zeroPadded 3 id).length = 3 := zeroPadded_length small
  have readId : file.fread 3 = (zeroPadded 3 id, { file with pos := file.pos + 3 }) := by
    refine fread_inside before _ ([44, 32] ++ (line.hash.text ++ ([44, 32] ++
      (zeroPadded 2 line.counter ++ [10] ++ after)))) ?_ position idWidth
    simp [text, Line.render]
  have readHash : ({ file with pos := file.pos + 3 + 2 } : ByteFile).fread 20 =
      (line.hash.text, { file with pos := file.pos + 3 + 2 + 20 }) := by
    refine fread_inside (before ++ (zeroPadded 3 id ++ [44, 32])) _
      ([44, 32] ++ (zeroPadded 2 line.counter ++ [10] ++ after)) ?_ ?_ line.hash.length_eq
    · simp [text, Line.render]
    · simp [position, idWidth]
  have compared : (strcmpEq line.hash.text inHash = true) = (line.hash.text = inHash) :=
    propext (strcmpEq_iff line.hash.zero_free hashFree)
  rw [compareHashLoop, if_neg (by simpa [ftell] using notAtEnd), readId]
  simp only [overlay_eq (idRoom.trans_eq idWidth.symm)]
  rw [show (2 : Int) = ((2 : Nat) : Int) from rfl, fseekCur_forward, readHash]
  simp only [overlay_eq (hashRoom.trans_eq line.hash.length_eq.symm)]
  rw [show (5 : Int) = ((5 : Nat) : Int) from rfl, fseekCur_forward]
  simp only [compared, atoi_zeroPadded_self (by decide) (show id < 10 ^ 3 from small)]

/-- The search for room looks at the last digit of a line's counter only. -/
theorem addHashLoop_line (fuel : Nat) {idChar counterChar : Bytes}
    (text : file.data = before ++ (line.render id ++ after))
    (position : file.pos = before.length) (small : id < 1000)
    (idRoom : idChar.length ≤ 3) (counterRoom : counterChar.length ≤ 2) :
    addHashLoop (fuel + 1) file idChar counterChar =
      if line.counter % 10 = 0 then
        some ((id : Int), file.pos + 30, { file with pos := file.pos + 30 })
      else addHashLoop fuel { file with pos := file.pos + 30 } (zeroPadded 3 id)
        (decimalDigits 1 line.counter ++ [10]) := by
  have idWidth : (zeroPadded 3 id).length = 3 := zeroPadded_length small
  have digits : zeroPadded 2 line.counter =
      decimalDigits 1 (line.counter / 10) ++ decimalDigits 1 line.counter := by
    rw [zeroPadded_of_lt (show line.counter < 10 ^ 2 from line.counter_lt)]
    rfl
  have readId : file.fread 3 = (zeroPadded 3 id, { file with pos := file.pos + 3 }) := by
    refine fread_inside before _ ([44, 32] ++ (line.hash.text ++ ([44, 32] ++
      (zeroPadded 2 line.counter ++ [10] ++ after)))) ?_ position idWidth
    simp [text, Line.render]
  have readCounter : ({ file with pos := file.pos + 3 + 25 } : ByteFile).fread 2 =
      (decimalDigits 1 line.counter ++ [10], { file with pos := file.pos + 3 + 25 + 2 }) := by
    refine fread_inside (before ++ (zeroPadded 3 id ++ ([44, 32] ++ (line.hash.text ++
      ([44, 32] ++ decimalDigits 1 (line.counter / 10)))))) _ after ?_ ?_ (by simp)
    · simp [text, Line.render, digits]
    · simp [position, idWidth, line.hash.length_eq]
  have counter : atoi (decimalDigits 1 line.counter ++ [10]) =
      ((line.counter % 10 : Nat) : Int) := by
    have newline : EndsNumber [10] := by simp [EndsNumber, isDigit]
    simpa using atoi_decimalDigits line.counter Nat.one_pos newline
  rw [addHashLoop, readId]
  simp only [overlay_eq (idRoom.trans_eq idWidth.symm)]
  rw [show (25 : Int) = ((25 : Nat) : Int) from rfl, fseekCur_forward, readCounter]
  simp only [overlay_eq (counterRoom.trans_eq
    (show 2 = (decimalDigits 1 line.counter ++ [10]).length by simp)), counter, ftell,
    atoi_zeroPadded_self (by decide) (show id < 10 ^ 3 from small)]
  by_cases free : line.counter % 10 = 0
  · simp [free]
  · rw [if_pos (by omega), if_neg free]

end

/-! ## Whole loops -/

theorem compareHashLoop_skip (fileSize fuel : Nat) {inHash : Bytes} (after : Bytes)
    (hashFree : 0 ∉ inHash) : ∀ (lines : List Line) (first : Nat) (file : ByteFile)
    (before idChar checkHash : Bytes),
    (∀ line ∈ lines, line.hash.text ≠ inHash) → first + lines.length ≤ 1000 →
    file.data = before ++ (renderFrom first lines ++ after) → file.pos = before.length →
    before.length + 30 * lines.length ≤ fileSize →
    idChar.length ≤ 3 → checkHash.length ≤ 20 →
    ∃ idChar' checkHash', idChar'.length ≤ 3 ∧ checkHash'.length ≤ 20 ∧
      compareHashLoop fileSize inHash (fuel + lines.length) file idChar checkHash =
        compareHashLoop fileSize inHash fuel
          { file with pos := file.pos + 30 * lines.length } idChar' checkHash' := by
  intro lines
  induction lines with
  | nil =>
      intro first file before idChar checkHash _ _ _ _ _ idRoom hashRoom
      exact ⟨idChar, checkHash, idRoom, hashRoom, rfl⟩
  | cons line lines induction =>
      intro first file before idChar checkHash absent small text position room idRoom hashRoom
      simp only [List.length_cons] at small room
      have width : (line.render first).length = 30 := line.render_length (by omega)
      have split : file.data = before ++ (line.render first ++
          (renderFrom (first + 1) lines ++ after)) := by
        rw [text, renderFrom, List.append_assoc]
      have different : line.hash.text ≠ inHash := absent line List.mem_cons_self
      obtain ⟨idChar', checkHash', idRoom', hashRoom', rest⟩ :=
        induction (first + 1) { file with pos := file.pos + 30 } (before ++ line.render first)
          (zeroPadded 3 first) line.hash.text
          (fun other member => absent other (List.mem_cons_of_mem _ member)) (by omega)
          (by simp [split]) (by simp [position, width]) (by simp [width]; omega)
          (zeroPadded_length (show first < 10 ^ 3 by omega)).le line.hash.length_eq.le
      refine ⟨idChar', checkHash', idRoom', hashRoom', ?_⟩
      rw [List.length_cons, ← Nat.add_assoc, compareHashLoop_line file _ _ split position (by omega)
        (by omega) hashFree idRoom hashRoom, if_neg different, rest,
        show file.pos + 30 * (lines.length + 1) = file.pos + 30 + 30 * lines.length by omega]

theorem addHashLoop_skip (fuel : Nat) (after : Bytes) : ∀ (lines : List Line) (first : Nat)
    (file : ByteFile) (before idChar counterChar : Bytes),
    (∀ line ∈ lines, line.counter % 10 ≠ 0) → first + lines.length ≤ 1000 →
    file.data = before ++ (renderFrom first lines ++ after) → file.pos = before.length →
    idChar.length ≤ 3 → counterChar.length ≤ 2 →
    ∃ idChar' counterChar', idChar'.length ≤ 3 ∧ counterChar'.length ≤ 2 ∧
      addHashLoop (fuel + lines.length) file idChar counterChar =
        addHashLoop fuel { file with pos := file.pos + 30 * lines.length }
          idChar' counterChar' := by
  intro lines
  induction lines with
  | nil =>
      intro first file before idChar counterChar _ _ _ _ idRoom counterRoom
      exact ⟨idChar, counterChar, idRoom, counterRoom, rfl⟩
  | cons line lines induction =>
      intro first file before idChar counterChar taken small text position idRoom counterRoom
      simp only [List.length_cons] at small
      have width : (line.render first).length = 30 := line.render_length (by omega)
      have split : file.data = before ++ (line.render first ++
          (renderFrom (first + 1) lines ++ after)) := by
        rw [text, renderFrom, List.append_assoc]
      have notFree : line.counter % 10 ≠ 0 := taken line List.mem_cons_self
      obtain ⟨idChar', counterChar', idRoom', counterRoom', rest⟩ :=
        induction (first + 1) { file with pos := file.pos + 30 } (before ++ line.render first)
          (zeroPadded 3 first) (decimalDigits 1 line.counter ++ [10])
          (fun other member => taken other (List.mem_cons_of_mem _ member)) (by omega)
          (by simp [split]) (by simp [position, width])
          (zeroPadded_length (show first < 10 ^ 3 by omega)).le (by simp)
      refine ⟨idChar', counterChar', idRoom', counterRoom', ?_⟩
      rw [List.length_cons, ← Nat.add_assoc, addHashLoop_line file _ split position (by omega)
        idRoom counterRoom, if_neg notFree, rest,
        show file.pos + 30 * (lines.length + 1) = file.pos + 30 + 30 * lines.length by omega]

theorem addHashLoop_stops (file : ByteFile) (fuel : Nat) {before : List Line} {line : Line}
    {after : Bytes}
    (text : file.data = renderFrom 1 before ++ (line.render (before.length + 1) ++ after))
    (start : file.pos = 0) (small : before.length + 1 < 1000)
    (taken : ∀ other ∈ before, other.counter % 10 ≠ 0) (free : line.counter % 10 = 0)
    (enough : before.length < fuel) :
    addHashLoop fuel file [] [] = some (((before.length + 1 : Nat) : Int),
      30 * (before.length + 1), { file with pos := 30 * (before.length + 1) }) := by
  obtain ⟨rest, rfl⟩ : ∃ rest, fuel = rest + 1 + before.length := ⟨fuel - 1 - before.length, by omega⟩
  have width : (renderFrom 1 before).length = 30 * before.length := renderFrom_length (by omega)
  rcases addHashLoop_skip (rest + 1) _ before 1 file [] [] [] taken (by omega) (by rw [text]; rfl)
      (by simpa using start) (by simp) (by simp) with
    ⟨idChar, counterChar, idRoom, counterRoom, skipped⟩
  have stopped := addHashLoop_line { file with pos := file.pos + 30 * before.length } rest
    text (by simp [start, width]) small idRoom counterRoom
  rw [skipped, stopped, if_pos free]
  simp [start, Nat.mul_add]

private theorem rewriteLine (text before after : Bytes) (line : Line) (id : Nat) (hash : Hash)
    (split : text = before ++ (line.render id ++ after)) (small : id < 1000) :
    (((ByteFile.mk text (before.length + 5)).fwrite hash.text).fseekCur 2).fwrite [48, 49] =
      ⟨before ++ ((Line.stored hash).render id ++ after), before.length + 29⟩ := by
  have idWidth : (zeroPadded 3 id).length = 3 := zeroPadded_length small
  have counterWidth : (zeroPadded 2 line.counter).length = 2 :=
    zeroPadded_length (show line.counter < 10 ^ 2 from line.counter_lt)
  have hashWritten : (ByteFile.mk text (before.length + 5)).fwrite hash.text =
      ⟨(before ++ (zeroPadded 3 id ++ [44, 32])) ++ (hash.text ++ ([44, 32] ++
        (zeroPadded 2 line.counter ++ ([10] ++ after)))), before.length + 5 + 20⟩ := by
    rw [fwrite_inside (before ++ (zeroPadded 3 id ++ [44, 32])) line.hash.text
      ([44, 32] ++ (zeroPadded 2 line.counter ++ ([10] ++ after))) (by simp [split, Line.render])
      (by simp [idWidth]) (line.hash.length_eq.trans hash.length_eq.symm), hash.length_eq]
  rw [hashWritten, show (2 : Int) = ((2 : Nat) : Int) from rfl, fseekCur_forward,
    fwrite_inside (before ++ (zeroPadded 3 id ++ ([44, 32] ++ (hash.text ++ [44, 32]))))
      (zeroPadded 2 line.counter) ([10] ++ after) (by simp)
      (by simp [idWidth, hash.length_eq]) (by simp [counterWidth])]
  simp [Line.render, Line.stored, zeroPadded, decimalDigits]

/-- `addHash` gives the first line whose counter ends in zero to the new hash, and
appends a new end line if that was the last one. -/
theorem addHash_stops (file : ByteFile) (before : List Line) (line : Line) (rest : Bytes)
    (hash : Hash) (fileSize : Nat)
    (text : file.data = renderFrom 1 before ++ (line.render (before.length + 1) ++ rest))
    (size : file.data.length = fileSize) (small : before.length + 1 < 1000)
    (taken : ∀ other ∈ before, other.counter % 10 ≠ 0) (free : line.counter % 10 = 0) :
    ∃ pos, addHash file fileSize hash.text = some (((before.length + 1 : Nat) : Int),
      ⟨renderFrom 1 before ++ ((Line.stored hash).render (before.length + 1) ++
        if rest = [] then (endLine (before.length + 2 : Nat)).take 30 else rest), pos⟩) := by
  have beforeWidth : (renderFrom 1 before).length = 30 * before.length :=
    renderFrom_length (by omega)
  have lineWidth : (line.render (before.length + 1)).length = 30 := line.render_length small
  have total : fileSize = 30 * (before.length + 1) + rest.length := by
    rw [← size, text]
    simp [beforeWidth, lineWidth]
    omega
  have stopped := addHashLoop_stops (file.fseekSet 0) (fileSize + 1) text rfl
    small taken free (by omega)
  have nextId : ((before.length + 1 : Nat) : Int) + 1 = (before.length + 2 : Nat) := by omega
  have position : 30 * (before.length + 1) - 25 = (renderFrom 1 before).length + 5 := by omega
  rw [addHash, stopped]
  simp only [Option.bind_eq_bind, Option.bind_some, fseekSet_data, nextId, position,
    List.take_of_length_le hash.length_eq.le, Option.pure_def]
  by_cases last : rest = []
  · subst last
    have atEnd : 30 * (before.length + 1) = file.data.length := by simpa [size] using total.symm
    have appended := fwrite_atEnd ⟨file.data, 30 * (before.length + 1)⟩ atEnd
      ((endLine (before.length + 2 : Nat)).take 30)
    rw [if_pos (by simpa using total.symm), if_pos rfl, appended]
    refine ⟨(renderFrom 1 before).length + 29, congrArg some (congrArg (Prod.mk _) ?_)⟩
    exact rewriteLine _ _ _ line _ hash (by simp [text]) small
  · have more : 30 * (before.length + 1) ≠ fileSize := by
      have := List.length_pos_of_ne_nil last
      omega
    rw [if_neg more, if_neg last]
    refine ⟨(renderFrom 1 before).length + 29, congrArg some (congrArg (Prod.mk _) ?_)⟩
    exact rewriteLine _ _ _ line _ hash (by simp [text]) small

theorem compareHashLoop_found (file : ByteFile) (fileSize : Nat) {before : List Line}
    {line : Line} {rest : Bytes}
    (text : file.data = renderFrom 1 before ++ (line.render (before.length + 1) ++ rest))
    (start : file.pos = 0) (size : file.data.length = fileSize)
    (small : before.length + 1 < 1000) (absent : ∀ other ∈ before, other.hash ≠ line.hash) :
    compareHashLoop fileSize line.hash.text (fileSize + 1) file [] zeroHash =
      some (some ((before.length + 1 : Nat) : Int),
        { file with pos := 30 * (before.length + 1) }) := by
  have beforeWidth : (renderFrom 1 before).length = 30 * before.length :=
    renderFrom_length (by omega)
  have total : fileSize = 30 * (before.length + 1) + rest.length := by
    rw [← size, text]
    simp [beforeWidth, line.render_length small]
    omega
  obtain ⟨fuel, enough⟩ : ∃ fuel, fileSize + 1 = fuel + 1 + before.length :=
    ⟨fileSize - before.length, by omega⟩
  obtain ⟨idChar, checkHash, idRoom, hashRoom, skipped⟩ :=
    compareHashLoop_skip fileSize (fuel + 1) _ line.hash.zero_free before 1 file []
      [] zeroHash (fun other member equal => absent other member (Hash.ext equal)) (by omega)
      (by rw [text]; rfl) (by simpa using start) (by simp; omega) (by simp) (by decide)
  have found := compareHashLoop_line { file with pos := file.pos + 30 * before.length }
    fileSize fuel text (by simp [start, beforeWidth]) (by simp [start]; omega)
    small line.hash.zero_free idRoom hashRoom
  rw [enough, skipped, found, if_pos rfl]
  simp [start, Nat.mul_add]

theorem compareHashLoop_absent (file : ByteFile) (hash : Hash) {lines : List Line}
    (text : file.data = renderFrom 1 lines) (start : file.pos = 0)
    (small : lines.length < 1000) (absent : ∀ other ∈ lines, other.hash ≠ hash) :
    compareHashLoop (30 * lines.length) hash.text (30 * lines.length + 1) file [] zeroHash =
      some (none, { file with pos := 30 * lines.length }) := by
  obtain ⟨fuel, enough⟩ : ∃ fuel, 30 * lines.length + 1 = fuel + 1 + lines.length :=
    ⟨29 * lines.length, by omega⟩
  obtain ⟨idChar, checkHash, _, _, skipped⟩ :=
    compareHashLoop_skip (30 * lines.length) (fuel + 1) [] hash.zero_free lines 1 file []
      [] zeroHash (fun other member equal => absent other member (Hash.ext equal)) (by omega)
      (by simpa using text) (by simpa using start) (by simp) (by simp) (by decide)
  rw [enough, skipped, compareHashLoop, if_pos (by simp [ftell, start])]
  simp [start]

theorem fread_counter (text before after : Bytes) (line : Line) (id : Nat)
    (split : text = before ++ (line.render id ++ after)) (small : id < 1000) :
    (ByteFile.mk text (before.length + 27)).fread 2 =
      (zeroPadded 2 line.counter, ByteFile.mk text (before.length + 29)) := by
  have idWidth : (zeroPadded 3 id).length = 3 := zeroPadded_length small
  have counterWidth : (zeroPadded 2 line.counter).length = 2 :=
    zeroPadded_length (show line.counter < 10 ^ 2 from line.counter_lt)
  exact fread_inside (before ++ (zeroPadded 3 id ++ ([44, 32] ++ (line.hash.text ++ [44, 32]))))
    _ ([10] ++ after) (by simp [split, Line.render]) (by simp [idWidth, line.hash.length_eq])
    counterWidth

theorem fwrite_counter (text before after : Bytes) (line next : Line) (id : Nat)
    (split : text = before ++ (line.render id ++ after)) (small : id < 1000)
    (sameHash : next.hash = line.hash) :
    (ByteFile.mk text (before.length + 27)).fwrite (zeroPadded 2 next.counter) =
      ⟨before ++ (next.render id ++ after), before.length + 29⟩ := by
  have idWidth : (zeroPadded 3 id).length = 3 := zeroPadded_length small
  have counterWidth : (zeroPadded 2 line.counter).length = 2 :=
    zeroPadded_length (show line.counter < 10 ^ 2 from line.counter_lt)
  have nextWidth : (zeroPadded 2 next.counter).length = 2 :=
    zeroPadded_length (show next.counter < 10 ^ 2 from next.counter_lt)
  rw [fwrite_inside (before ++ (zeroPadded 3 id ++ ([44, 32] ++ (line.hash.text ++ [44, 32]))))
    (zeroPadded 2 line.counter) ([10] ++ after) (by simp [split, Line.render])
    (by simp [idWidth, line.hash.length_eq]) (counterWidth.trans nextWidth.symm), nextWidth]
  simp [Line.render, sameHash]

private theorem bump_written (line : Line) :
    (sprintfDecimal 2 (line.counter + 1)).take 2 = zeroPadded 2 line.bump.counter := by
  by_cases full : line.counter = 99
  · simp only [Line.bump, full]
    decide
  · have fits : line.counter + 1 < 10 ^ 2 := by
      have bound := line.counter_lt
      omega
    have rendered : sprintfDecimal 2 (line.counter + 1) = zeroPadded 2 (line.counter + 1) := rfl
    rw [rendered, List.take_of_length_le (zeroPadded_length fits).le]
    simp [Line.bump, full]

/-! ## What a hash acquires -/

/-- What `compareHash` does to the lines before the sentinel: the index of the line
for the hash, whether its block is new, and the lines afterwards. -/
inductive Acquire (hash : Hash) : List Line → Nat → Bool → List Line → Prop
  | shared (before : List Line) (line : Line) (after : List Line) :
      (∀ other ∈ before, other.hash ≠ hash) → line.hash = hash →
      Acquire hash (before ++ line :: after) before.length (line.counter == 0)
        (before ++ line.bump :: after)
  | reused (before : List Line) (line : Line) (after : List Line) :
      (∀ other ∈ before ++ line :: after, other.hash ≠ hash) →
      (∀ other ∈ before, other.counter % 10 ≠ 0) → line.counter % 10 = 0 →
      Acquire hash (before ++ line :: after) before.length true
        (before ++ Line.stored hash :: after)
  | appended (lines : List Line) :
      (∀ other ∈ lines, other.hash ≠ hash) → (∀ other ∈ lines, other.counter % 10 ≠ 0) →
      Acquire hash lines lines.length true (lines ++ [Line.stored hash])

theorem ledgerText_split (before : List Line) (line : Line) (after : List Line) :
    ledgerText (before ++ line :: after) = renderFrom 1 before ++
      (line.render (before.length + 1) ++
        renderFrom (before.length + 2) (after ++ [Line.sentinel])) := by
  rw [ledgerText, List.append_assoc, renderFrom_append, List.cons_append, renderFrom,
    Nat.add_comm 1]

theorem ledgerText_sentinel (lines : List Line) :
    ledgerText lines = renderFrom 1 lines ++ (Line.sentinel.render (lines.length + 1) ++ []) := by
  rw [ledgerText, renderFrom_append, renderFrom, renderFrom, Nat.add_comm 1]

theorem ledgerText_length {lines : List Line} (small : lines.length ≤ 998) :
    (ledgerText lines).length = 30 * (lines.length + 1) := by
  rw [ledgerText, renderFrom_length (by simp; omega)]
  simp

/-- What a push leaves of the ledger file: the given lines and the end line, which is cut to
the width of a line where its ID has four digits. -/
def ledgerBytes (lines : List Line) : Bytes :=
  renderFrom 1 lines ++ (endLine (lines.length + 1 : Nat)).take 30

theorem ledgerBytes_prefix (lines : List Line) : renderFrom 1 lines <+: ledgerBytes lines :=
  ⟨_, rfl⟩

theorem ledgerBytes_eq {lines : List Line} (small : lines.length ≤ 998) :
    ledgerBytes lines = ledgerText lines := by
  have width : (endLine (lines.length + 1 : Nat)).length = 30 :=
    Line.sentinel.render_length (by omega)
  rw [ledgerBytes, List.take_of_length_le width.le, ledgerText_sentinel, Line.endLine_eq,
    List.append_nil]

theorem splitAtFirst {lines : List Line} (select : Line → Prop) [DecidablePred select]
    (present : ∃ line ∈ lines, select line) :
    ∃ before line after, lines = before ++ line :: after ∧ select line ∧
      ∀ other ∈ before, ¬select other := by
  rcases present with ⟨line, member, selected⟩
  obtain ⟨first, found⟩ : ∃ first, lines.find? (fun line => select line) = some first :=
    Option.isSome_iff_exists.mp (List.find?_isSome.mpr ⟨line, member, by simpa using selected⟩)
  rcases List.find?_eq_some_iff_append.mp found with ⟨holds, before, after, split, others⟩
  exact ⟨before, first, after, split, by simpa using holds, by simpa using others⟩

/-- `compareHash` on a ledger with the hash: the first line with it gets one reference more,
whatever follows. -/
theorem compareHash_found (file : ByteFile) (before : List Line) (line : Line) (rest : Bytes)
    (text : file.data = renderFrom 1 before ++ (line.render (before.length + 1) ++ rest))
    (room : before.length + 1 < 1000) (first : ∀ other ∈ before, other.hash ≠ line.hash) :
    ∃ file', compareHash file line.hash.text =
        some (((before.length + 1 : Nat) : Int), line.counter == 0, file') ∧
      file'.data = renderFrom 1 before ++ (line.bump.render (before.length + 1) ++ rest) := by
  have beforeWidth : (renderFrom 1 before).length = 30 * before.length :=
    renderFrom_length (by omega)
  have found := compareHashLoop_found (file.fseekSet 0) file.data.length text rfl rfl room first
  have readCounter := fread_counter file.data (renderFrom 1 before) _ line _ text room
  have written := fwrite_counter file.data (renderFrom 1 before) _ line line.bump _ text room rfl
  have back : (ByteFile.mk file.data (30 * (before.length + 1))).fseekCur (-3) =
      ⟨file.data, (renderFrom 1 before).length + 27⟩ := by
    have inside : 3 ≤ 30 * (before.length + 1) := by omega
    rw [show (-3 : Int) = -((3 : Nat) : Int) from rfl, fseekCur_backward _ inside]
    congr 1
    rw [beforeWidth]
    exact Nat.add_sub_assoc (by decide) _
  have back' : (ByteFile.mk file.data ((renderFrom 1 before).length + 29)).fseekCur (-2) =
      ⟨file.data, (renderFrom 1 before).length + 27⟩ := by
    rw [show (-2 : Int) = -((2 : Nat) : Int) from rfl, fseekCur_backward _ (by simp)]
    congr 1
  have counter : atoi (zeroPadded 2 line.counter) = line.counter :=
    atoi_zeroPadded_self (by decide) line.counter_lt
  refine ⟨⟨_, (renderFrom 1 before).length + 29⟩, ?_, rfl⟩
  rw [compareHash]
  simp only [ftell, fseekEnd_pos, found, Option.bind_eq_bind, Option.bind_some, fseekSet_data,
    back, readCounter, back', counter, bump_written, written, Option.pure_def]
  rw [show ((line.counter : Int) == 0) = (line.counter == 0) by
    rw [Bool.eq_iff_iff]; simp]

private theorem compareHash_stored (file : ByteFile) (before : List Line) (line : Line)
    (rest : Bytes) (lines : List Line) (hash : Hash)
    (text : file.data = renderFrom 1 before ++ (line.render (before.length + 1) ++ rest))
    (whole : file.data = renderFrom 1 lines) (small : lines.length < 1000)
    (inside : before.length + 1 ≤ lines.length) (absent : ∀ other ∈ lines, other.hash ≠ hash)
    (taken : ∀ other ∈ before, other.counter % 10 ≠ 0) (free : line.counter % 10 = 0) :
    ∃ pos, compareHash file hash.text = some (((before.length + 1 : Nat) : Int), true,
      ⟨renderFrom 1 before ++ ((Line.stored hash).render (before.length + 1) ++
        if rest = [] then (endLine (before.length + 2 : Nat)).take 30 else rest), pos⟩) := by
  have size : file.data.length = 30 * lines.length := by
    rw [whole, renderFrom_length (by omega)]
  have searched := compareHashLoop_absent (file.fseekSet 0) hash whole rfl small absent
  rcases addHash_stops ((file.fseekSet (30 * lines.length)).fseekSet 0) before
    line rest hash (30 * lines.length) text size (by omega) taken free with ⟨pos, added⟩
  have seekData : (⟨file.data, 30 * lines.length⟩ : ByteFile) =
    file.fseekSet (30 * lines.length) := rfl
  refine ⟨pos, ?_⟩
  rw [compareHash]
  simp only [ftell, fseekEnd_pos, size, searched, Option.bind_eq_bind, Option.bind_some,
    fseekSet_data, seekData, added, Option.pure_def]

/-- On a ledger in format `compareHash` returns, and does one of the three things
that `Acquire` lists. -/
theorem compareHash_acquires (file : ByteFile) (lines : List Line) (hash : Hash)
    (text : file.data = ledgerText lines) (small : lines.length ≤ 998)
    (nonzero : hash ≠ Hash.zero) :
    ∃ index isNew lines' file', compareHash file hash.text =
        some (((index + 1 : Nat) : Int), isNew, file') ∧
      Acquire hash lines index isNew lines' ∧ file'.data = ledgerBytes lines' := by
  by_cases present : ∃ line ∈ lines, line.hash = hash
  · rcases splitAtFirst (·.hash = hash) present with ⟨before, line, after, rfl, rfl, first⟩
    simp only [List.length_append, List.length_cons] at small
    rcases compareHash_found file before line _ (text.trans (ledgerText_split before line after))
      (by omega) first with ⟨file', returned, text'⟩
    refine ⟨_, _, _, file', returned, .shared before line after first rfl, ?_⟩
    rw [text', ← ledgerText_split, ledgerBytes_eq (by simp; omega)]
  · have absent : ∀ other ∈ lines, other.hash ≠ hash := fun other member equal =>
      present ⟨other, member, equal⟩
    have absentAll : ∀ other ∈ lines ++ [Line.sentinel], other.hash ≠ hash := by
      intro other member
      rcases List.mem_append.mp member with member | member
      · exact absent other member
      · rw [List.mem_singleton.mp member]
        exact nonzero.symm
    by_cases room : ∃ line ∈ lines, line.counter % 10 = 0
    · rcases splitAtFirst (·.counter % 10 = 0) room with ⟨before, line, after, rfl, free, taken⟩
      have split := text.trans (ledgerText_split before line after)
      rcases compareHash_stored file before line _ _ hash split text
        (by simp at small ⊢; omega) (by simp) absentAll taken free with ⟨pos, returned⟩
      refine ⟨_, _, _, _, returned, .reused before line after absent taken free, ?_⟩
      have notLast : renderFrom (before.length + 2) (after ++ [Line.sentinel]) ≠ [] := by
        intro empty
        have width := @renderFrom_length (before.length + 2) (after ++ [Line.sentinel])
          (by simp at small ⊢; omega)
        simp [empty] at width
      rw [ledgerBytes_eq (by simpa using small), ledgerText_split]
      exact congrArg (fun rest => renderFrom 1 before ++
        ((Line.stored hash).render (before.length + 1) ++ rest)) (if_neg notLast)
    · have taken : ∀ other ∈ lines, other.counter % 10 ≠ 0 := fun other member equal =>
        room ⟨other, member, equal⟩
      have split := text.trans (ledgerText_sentinel lines)
      rcases compareHash_stored file lines Line.sentinel [] _ hash split text
        (by simp; omega) (by simp) absentAll taken rfl with ⟨pos, returned⟩
      refine ⟨_, _, _, _, returned, .appended lines absent taken, ?_⟩
      rw [if_pos rfl, ledgerBytes, renderFrom_append, renderFrom, renderFrom, Nat.add_comm 1,
        List.append_nil, List.append_assoc, List.length_append, List.length_singleton]

end CE321.Dedup
