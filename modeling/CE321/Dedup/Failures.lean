import CE321.Dedup.Balance
import CE321.Dedup.Overwriting

/-! # Calls of the system that fail

`bb_write` and `bb_unlink` with one failure of an underlying call. What `removeBlocks`
and `pwrite` report is not looked at, and references are released before the file
that has them is touched.
-/

namespace CE321.Dedup

open CString ByteFile RefTable

/-- The underlying call that fails: a `remove` of a block file, counted from the start of the
call, the `pwrite` of the ID list or the `unlink` of its file. -/
inductive Failure where
  | remove (calls : Nat)
  | pwrite
  | unlink (errno : PNat)
  deriving DecidableEq

namespace Failing

variable (failure : Failure)

/-- The loop of `removeBlocks`, after some calls of `remove`. The number of calls it makes
in all is returned too. -/
def removeBlocksLoop (input : Bytes) :
    (count : Nat) → (j : Nat) → (counterChar : Bytes) → (calls : Nat) → Storage →
      Int × Nat × Storage
  | 0, _, _, calls, storage => (0, calls, storage)
  | count + 1, j, counterChar, calls, storage =>
      let idToRemove := atoi (slice input (j * 4) 3)
      let file := storage.hashFile.fseekSet 0
      let file := (fun file : ByteFile => file.fseekCur 30)^[(idToRemove - 1).toNat] file
      let file := file.fseekCur 27
      let (received, file) := file.fread 2
      let counterChar := overlay counterChar received
      let counter := atoi counterChar - 1
      let (counterChar, file) :=
        if counter ≥ 0 then
          let counterChar := sprintfDecimal 2 counter
          (counterChar, (file.fseekCur (-2)).fwrite (counterChar.take 2))
        else (counterChar, file)
      let storage := { storage with hashFile := file }
      if counter = 0 then
        if storage.block idToRemove = none ∨ failure = .remove calls then (1, calls + 1, storage)
        else removeBlocksLoop input count (j + 1) counterChar (calls + 1)
          { storage with block := Function.update storage.block idToRemove none }
      else removeBlocksLoop input count (j + 1) counterChar calls storage

def removeBlocks (input : Bytes) (storage : Storage) : Int × Nat × Storage :=
  removeBlocksLoop failure input (strlen input / 4) 0 [] 0 storage

variable {Path : Type} [DecidableEq Path]

def bbWrite (sha1 : Bytes → Fin 20 → UInt8) (state : BbState Path) (path : Path)
    (buf : Bytes) (size : Nat) (offset : Int) : Option (Int × BbState Path) :=
  if path ∈ state.names then do
    let idsToRemove ←
      getOverwrittenBlocks (state.idFile path) (toInt32 size) (toInt32 offset) base
    let (_, _, storage) := removeBlocks failure idsToRemove state.toStorage
    let (compressedBuf, storage) ← compressBuffer sha1 buf (toInt32 size) storage base
    let compressedOffset := getNewOffset (toInt32 offset) base
    let compressedSize := getSize compressedBuf
    let idFile := if compressedOffset < 0 ∨ failure = .pwrite then state.idFile path
      else patch (state.idFile path) compressedOffset.toNat (compressedBuf.take compressedSize)
    pure (toInt32 size, { state with toStorage := storage }.withIdFile path idFile)
  else none

/-- A failure of `unlink` is the result of the call. -/
def bbUnlink (state : BbState Path) (path : Path) : Option (Int × BbState Path) :=
  if path ∈ state.names then do
    let fileSize := toInt32 (state.idFile path).length
    let idsToRemove ←
      getOverwrittenBlocks (state.idFile path) (toInt32 (fileSize.tdiv 4 * base)) 0 base
    let (_, _, storage) := removeBlocks failure idsToRemove state.toStorage
    match failure with
    | .unlink errno => pure (-(errno : Nat), { state with toStorage := storage })
    | _ => pure (0, { state with toStorage := storage, names := state.names.erase path })
  else none

/-! ## Failures of calls that are not made -/

variable {failure} {sha1 : Bytes → Fin 20 → UInt8} {state : BbState Path} {path : Path}

theorem removeBlocksLoop_rounds (failure : Failure) (input : Bytes) (count j : Nat)
    (counterChar : Bytes) (calls : Nat) (storage : Storage) :
    ∃ (id counter : Int) (counterChar' : Bytes) (file : ByteFile),
      (Dedup.removeBlocksLoop input (count + 1) j counterChar storage =
        if counter = 0 then
          if storage.block id = none then (1, ⟨file, storage.block⟩)
          else Dedup.removeBlocksLoop input count (j + 1) counterChar'
            ⟨file, Function.update storage.block id none⟩
        else Dedup.removeBlocksLoop input count (j + 1) counterChar' ⟨file, storage.block⟩) ∧
      removeBlocksLoop failure input (count + 1) j counterChar calls storage =
        if counter = 0 then
          if storage.block id = none ∨ failure = .remove calls then
            (1, calls + 1, ⟨file, storage.block⟩)
          else removeBlocksLoop failure input count (j + 1) counterChar' (calls + 1)
            ⟨file, Function.update storage.block id none⟩
        else removeBlocksLoop failure input count (j + 1) counterChar' calls
          ⟨file, storage.block⟩ :=
  ⟨_, _, _, _, rfl, rfl⟩

theorem removeBlocksLoop_unaffected (input : Bytes) (count : Nat) :
    ∀ (j : Nat) (counterChar : Bytes) (calls : Nat) (storage : Storage),
    (∀ failing, failure = .remove failing →
      (removeBlocksLoop failure input count j counterChar calls storage).2.1 ≤ failing) →
    Dedup.removeBlocksLoop input count j counterChar storage =
      ((removeBlocksLoop failure input count j counterChar calls storage).1,
        (removeBlocksLoop failure input count j counterChar calls storage).2.2) := by
  induction count with
  | zero => intros; rfl
  | succ count induction =>
      intro j counterChar calls storage notMade
      rcases removeBlocksLoop_rounds failure input count j counterChar calls storage with
        ⟨id, counter, counterChar', file, plain, failing⟩
      rw [failing] at notMade
      rw [plain, failing]
      split_ifs at notMade ⊢ with last missing stops stops
      · rfl
      · exact absurd (.inl missing) stops
      · have same := stops.resolve_left missing
        exact absurd (notMade calls same) (Nat.not_succ_le_self calls)
      · exact induction _ _ _ _ notMade
      · exact induction _ _ _ _ notMade

theorem removeBlocks_unaffected {input : Bytes} {storage : Storage}
    (notMade : ∀ failing, failure = .remove failing →
      (removeBlocks failure input storage).2.1 ≤ failing) :
    Dedup.removeBlocks input storage =
      ((removeBlocks failure input storage).1, (removeBlocks failure input storage).2.2) :=
  removeBlocksLoop_unaffected input _ _ _ _ _ notMade

end Failing

/-! ## Which failures are reported -/

inductive FailingCall (Path : Type) where
  | write (path : Path) (buf : Bytes) (size : Nat) (offset : Int)
  | unlink (path : Path)

section

variable {Path : Type} [DecidableEq Path]

/-- Writes are of whole blocks. -/
def FailingCall.Aligned : FailingCall Path → Prop
  | .write _ _ size offset => 4096 ∣ size ∧ 4096 ∣ offset
  | .unlink _ => True

def FailingCall.run (sha1 : Bytes → Fin 20 → UInt8) (failure : Failure) (state : BbState Path) :
    FailingCall Path → Option (Int × BbState Path)
  | .write path buf size offset => Failing.bbWrite failure sha1 state path buf size offset
  | .unlink path => Failing.bbUnlink failure state path

/-- The string that the call hands to `removeBlocks`, if it gets there. -/
def FailingCall.idsToRemove (state : BbState Path) : FailingCall Path → Option Bytes
  | .write path _ size offset =>
      if path ∈ state.names then
        getOverwrittenBlocks (state.idFile path) (toInt32 size) (toInt32 offset) base
      else none
  | .unlink path =>
      if path ∈ state.names then
        getOverwrittenBlocks (state.idFile path)
          (toInt32 ((toInt32 (state.idFile path).length).tdiv 4 * base)) 0 base
      else none

/-- The failing call of the system is made. `pwrite` and `unlink` are the last ones. -/
def FailingCall.Makes (sha1 : Bytes → Fin 20 → UInt8) (state : BbState Path)
    (call : FailingCall Path) : Failure → Prop
  | .remove calls => ∃ idsToRemove, call.idsToRemove state = some idsToRemove ∧
      calls < (Failing.removeBlocks (.remove calls) idsToRemove state.toStorage).2.1
  | .pwrite => (∃ path buf size offset, call = .write path buf size offset) ∧
      call.run sha1 .pwrite state ≠ none
  | .unlink errno => (∃ path, call = .unlink path) ∧ call.run sha1 (.unlink errno) state ≠ none

/-- The call reports an error and leaves the counters equal to the references. -/
def FailingCall.Reported (sha1 : Bytes → Fin 20 → UInt8) (failure : Failure)
    (state : BbState Path) (call : FailingCall Path) : Prop :=
  ∃ result state', call.run sha1 failure state = some (result, state') ∧ result < 0 ∧
    Balanced state'.toStorage state'.names state'.idFile

variable {sha1 : Bytes → Fin 20 → UInt8} {state : BbState Path} {failure : Failure}

theorem FailingCall.run_unlink (path : Path) :
    (FailingCall.unlink path).run sha1 failure state =
      ((FailingCall.unlink path).idsToRemove state).map fun idsToRemove =>
        let storage := (Failing.removeBlocks failure idsToRemove state.toStorage).2.2
        match failure with
        | .unlink errno => (-(errno : Nat), { state with toStorage := storage })
        | _ => (0, { state with toStorage := storage, names := state.names.erase path }) := by
  rw [run, Failing.bbUnlink, idsToRemove]
  split
  · dsimp only
    generalize getOverwrittenBlocks (state.idFile path) _ 0 base = overwritten
    cases overwritten with
    | none => rfl
    | some idsToRemove => cases failure <;> rfl
  · rfl

theorem bbUnlink_eq (path : Path) :
    bbUnlink state path =
      ((FailingCall.unlink path).idsToRemove state).map fun idsToRemove =>
        (0, { state with
          toStorage := (removeBlocks idsToRemove state.toStorage).2
          names := state.names.erase path }) := by
  rw [bbUnlink, FailingCall.idsToRemove]
  split
  · dsimp only
    generalize getOverwrittenBlocks (state.idFile path) _ 0 base = overwritten
    cases overwritten with
    | none => rfl
    | some idsToRemove => rfl
  · rfl

/-- The list of a file after a write, unless its `pwrite` fails. -/
def written (fails : Prop) [Decidable fails] (idFile : Bytes) (offset : Int)
    (compressedBuf : Bytes) : Bytes :=
  if getNewOffset (toInt32 offset) base < 0 ∨ fails then idFile
  else patch idFile (getNewOffset (toInt32 offset) base).toNat
    (compressedBuf.take (getSize compressedBuf))

theorem FailingCall.run_write (path : Path) (buf : Bytes) (size : Nat) (offset : Int) :
    (FailingCall.write path buf size offset).run sha1 failure state =
      ((FailingCall.write path buf size offset).idsToRemove state).bind fun idsToRemove =>
        (compressBuffer sha1 buf (toInt32 size)
          (Failing.removeBlocks failure idsToRemove state.toStorage).2.2 base).map fun compressed =>
          (toInt32 size, { state with toStorage := compressed.2 }.withIdFile path
            (written (failure = Failure.pwrite) (state.idFile path) offset compressed.1)) := by
  rw [run, Failing.bbWrite, idsToRemove]
  split
  · generalize getOverwrittenBlocks (state.idFile path) _ _ base = overwritten
    cases overwritten with
    | none => rw [Option.bind_eq_bind, Option.bind_none, Option.bind_none]
    | some idsToRemove =>
        rw [Option.bind_eq_bind, Option.bind_some, Option.bind_some]
        simp only [written]
        generalize compressBuffer sha1 buf _ _ base = compressed
        cases compressed with
        | none => rw [Option.bind_eq_bind, Option.bind_none, Option.map_none]
        | some compressed =>
            rw [Option.bind_eq_bind, Option.bind_some, Option.map_some]
            rfl
  · rfl

theorem bbWrite_eq (path : Path) (buf : Bytes) (size : Nat) (offset : Int) :
    bbWrite sha1 state path buf size offset =
      ((FailingCall.write path buf size offset).idsToRemove state).bind fun idsToRemove =>
        (compressBuffer sha1 buf (toInt32 size)
          (removeBlocks idsToRemove state.toStorage).2 base).map fun compressed =>
          (toInt32 size, { state with toStorage := compressed.2 }.withIdFile path
            (written False (state.idFile path) offset compressed.1)) := by
  rw [bbWrite, FailingCall.idsToRemove]
  split
  · generalize getOverwrittenBlocks (state.idFile path) _ _ base = overwritten
    cases overwritten with
    | none => rw [Option.bind_eq_bind, Option.bind_none, Option.bind_none]
    | some idsToRemove =>
        rw [Option.bind_eq_bind, Option.bind_some, Option.bind_some]
        simp only [written, or_false]
        generalize compressBuffer sha1 buf _ _ base = compressed
        cases compressed with
        | none => rw [Option.bind_eq_bind, Option.bind_none, Option.map_none]
        | some compressed =>
            rw [Option.bind_eq_bind, Option.bind_some, Option.map_some]
            rfl
  · rfl

def FailingCall.undisturbed (sha1 : Bytes → Fin 20 → UInt8) (state : BbState Path) :
    FailingCall Path → Option (Int × BbState Path)
  | .write path buf size offset => bbWrite sha1 state path buf size offset
  | .unlink path => bbUnlink state path

theorem FailingCall.storage_of_not_made {call : FailingCall Path} {idsToRemove : Bytes}
    (notMade : ¬call.Makes sha1 state failure)
    (given : call.idsToRemove state = some idsToRemove) :
    (Failing.removeBlocks failure idsToRemove state.toStorage).2.2 =
      (removeBlocks idsToRemove state.toStorage).2 := by
  rw [Failing.removeBlocks_unaffected]
  rintro failing rfl
  by_contra more
  exact notMade ⟨idsToRemove, given, not_le.mp more⟩

theorem FailingCall.run_of_not_made {call : FailingCall Path}
    (notMade : ¬call.Makes sha1 state failure) :
    call.run sha1 failure state = call.undisturbed sha1 state := by
  have storage := fun idsToRemove => @storage_of_not_made _ _ _ _ _ call idsToRemove notMade
  cases call with
  | unlink path =>
      rw [undisturbed, bbUnlink_eq, run_unlink]
      apply Option.map_congr
      intro idsToRemove given
      cases failure with
      | unlink errno =>
          refine absurd ⟨⟨path, rfl⟩, ?_⟩ notMade
          rw [run_unlink, given, Option.map_some]
          exact Option.some_ne_none _
      | remove calls => simp only [storage idsToRemove given]
      | pwrite => simp only [storage idsToRemove given]
  | write path buf size offset =>
      rw [undisturbed, bbWrite_eq, run_write]
      cases given : (FailingCall.write path buf size offset).idsToRemove state with
      | none => rw [Option.bind_none, Option.bind_none]
      | some idsToRemove =>
          rw [Option.bind_some, Option.bind_some, storage idsToRemove given]
          apply Option.map_congr
          intro compressed stored
          have works : failure ≠ .pwrite := by
            rintro rfl
            refine notMade ⟨⟨path, buf, size, offset, rfl⟩, ?_⟩
            rw [run_write, given, Option.bind_some, storage idsToRemove given, stored]
            exact Option.some_ne_none _
          simp only [written, works]

/-- `bb_write` of whole blocks reports no error: for a size that is negative as an `int`, no
memory is got and the call does not return. -/
theorem bbWrite_result {path : Path} {buf : Bytes} {size : Nat} {offset result : Int}
    {state' : BbState Path} (aligned : 4096 ∣ size)
    (returned : (FailingCall.write path buf size offset).run sha1 failure state =
      some (result, state')) : 0 ≤ result := by
  rw [FailingCall.run_write] at returned
  rcases Option.bind_eq_some_iff.mp returned with ⟨idsToRemove, given, rest⟩
  rcases Option.map_eq_some_iff.mp rest with ⟨compressed, _, last⟩
  rcases Prod.mk.inj last with ⟨rfl, _⟩
  have congruent := toInt32_emod size
  have quotient := tdiv_cases (toInt32 size)
  have baseValue : ((base : Nat) : Int) = 4096 := rfl
  rw [FailingCall.idsToRemove] at given
  split at given
  · rw [getOverwrittenBlocks, baseValue] at given
    split at given
    · cases given
    · omega
  · cases given

section

variable {lines : List Line} {entries : Path → List (Option Nat)}
  (format : InFormat state.toStorage lines state.names entries state.idFile)
  (balanced : Balanced state.toStorage state.names state.idFile)
include format balanced

/-- `bb_unlink` reports the failure of `unlink`, when the references of the file are released
already. -/
theorem unlink_reported_iff {path : Path}
    (made : (FailingCall.unlink path).Makes sha1 state failure) :
    (FailingCall.unlink path).Reported sha1 failure state ↔
      ∃ errno, failure = .unlink errno ∧ leadingIds (handedOver (entries path)) = [] := by
  rw [FailingCall.Reported, FailingCall.run_unlink]
  cases failure with
  | pwrite =>
      rcases made with ⟨⟨_, _, _, _, different⟩, _⟩
      cases different
  | remove calls =>
      rcases made with ⟨idsToRemove, given, _⟩
      rw [given, Option.map_some]
      refine iff_of_false ?_ ?_
      · rintro ⟨result, state', returned, negative, _⟩
        rcases Prod.mk.inj (Option.some.inj returned) with ⟨rfl, _⟩
        exact lt_irrefl _ negative
      · rintro ⟨errno, different, _⟩
        cases different
  | unlink errno =>
      have returns := made.2
      rw [FailingCall.run_unlink] at returns
      rcases Option.ne_none_iff_exists'.mp returns with ⟨_, some⟩
      rcases Option.map_eq_some_iff.mp some with ⟨idsToRemove, given, _⟩
      have member : path ∈ state.names := by
        by_contra absent
        rw [FailingCall.idsToRemove, if_neg absent] at given
        cases given
      have handed := given
      rw [FailingCall.idsToRemove, if_pos member, format.handed member] at handed
      split at handed
      · cases handed
      obtain rfl := Option.some.inj handed
      rcases format.released balanced member with ⟨storage', removed, released⟩
      have format' := format.afterRelease released (Finset.Subset.refl state.names)
      have kept := (format'.keeps_iff released.counts released.blocks).trans
        ((eq_sub_iff (leading_le_references member)).trans (Multiset.coe_eq_zero _))
      have unaffected := @Failing.removeBlocks_unaffected (.unlink errno)
        (entriesText (handedOver (entries path))) state.toStorage fun _ different => by
          cases different
      have storage : (Failing.removeBlocks (.unlink errno) (entriesText (handedOver (entries path)))
          state.toStorage).2.2 = storage' := by
        rw [removed] at unaffected
        exact (congrArg Prod.snd unaffected).symm
      rw [given, Option.map_some, storage]
      constructor
      · rintro ⟨result, state', returned, _, after⟩
        rcases Prod.mk.inj (Option.some.inj returned) with ⟨_, rfl⟩
        exact ⟨errno, rfl, kept.mp after⟩
      · rintro ⟨_, _, none⟩
        refine ⟨_, _, rfl, ?_, kept.mpr none⟩
        have positive := errno.pos
        omega

end

/-- In every state in balance, for the failure of a call that is made: it is reported and leaves
the counters equal to the references if and only if it is the `unlink` in `bb_unlink` and what
the file hands over has no ID in front of its first hole. -/
theorem failure_reported_iff (state : BbState Path) (lines : List Line)
    (entries : Path → List (Option Nat))
    (format : InFormat state.toStorage lines state.names entries state.idFile)
    (balanced : Balanced state.toStorage state.names state.idFile) (call : FailingCall Path)
    (aligned : call.Aligned) (failure : Failure) (made : call.Makes sha1 state failure) :
    call.Reported sha1 failure state ↔
      ∃ path errno, call = .unlink path ∧ failure = .unlink errno ∧
        leadingIds (handedOver (entries path)) = [] := by
  cases call with
  | write path buf size offset =>
      refine iff_of_false ?_ ?_
      · rintro ⟨result, state', returned, negative, _⟩
        exact absurd (bbWrite_result aligned.1 returned) (not_le.mpr negative)
      · rintro ⟨other, errno, different, _⟩
        cases different
  | unlink path =>
      rw [unlink_reported_iff format balanced made]
      constructor
      · rintro ⟨errno, rfl, condition⟩
        exact ⟨path, errno, rfl, rfl, condition⟩
      · rintro ⟨other, errno, same, rfl, condition⟩
        obtain rfl := FailingCall.unlink.inj same
        exact ⟨errno, rfl, condition⟩

end

/-! ## A file of two blocks -/

def linesOfTwo : List Line :=
  [Line.stored (blockHash sha1OfLetters [97]), Line.stored (blockHash sha1OfLetters [98])]

/-- A file with the given entries, and two blocks with one reference each. -/
def fileOfTwo (entries : List (Option Nat)) : BbState Unit where
  hashFile := ⟨ledgerText linesOfTwo, 0⟩
  block := Function.update (Function.update (fun _ => none) 1 (some [97])) 2 (some [98])
  names := {()}
  idFile := fun _ => entriesText entries

theorem fileOfTwo_format {entries : List (Option Nat)} (ids : entries.reduceOption = [1, 2]) :
    InFormat (fileOfTwo entries).toStorage linesOfTwo (fileOfTwo entries).names
      (fun _ => entries) (fileOfTwo entries).idFile where
  text := rfl
  small := by decide
  lists := fun _ _ => rfl
  inside := by
    intro file _ id present
    have member := List.reduceOption_mem_iff.mpr present
    rw [ids] at member
    have cases : id = 1 ∨ id = 2 := by simpa using member
    have two : linesOfTwo.length = 2 := rfl
    omega

theorem fileOfTwo_balanced {entries : List (Option Nat)} (ids : entries.reduceOption = [1, 2]) :
    Balanced (fileOfTwo entries).toStorage (fileOfTwo entries).names
      (fileOfTwo entries).idFile := by
  apply (fileOfTwo_format ids).balanced_iff.mpr
  have two : references (fileOfTwo entries).names (fun _ => entries) = {1, 2} := by
    rw [references, show (fileOfTwo entries).names = {()} from rfl, Finset.sum_singleton, ids]
    rfl
  rw [two]
  refine ⟨⟨?_, ?_⟩, ?_⟩
  · intro index slot present
    have inside := (List.getElem?_eq_some_iff.mp present).1
    have cases : index = 0 ∨ index = 1 := by
      simp [tableOf, linesOfTwo] at inside
      omega
    rcases cases with rfl | rfl
    · obtain rfl := Option.some.inj present
      rfl
    · obtain rfl := Option.some.inj present
      rfl
  · intro id member
    have cases : id = 1 ∨ id = 2 := by simpa using member
    have width : (tableOf linesOfTwo).length = 2 := rfl
    omega
  · intro index line present
    have inside := (List.getElem?_eq_some_iff.mp present).1
    have cases : index = 0 ∨ index = 1 ∨ index = 2 := by
      simp [linesOfTwo] at inside
      omega
    rcases cases with rfl | rfl | rfl
    · obtain rfl := Option.some.inj present
      exact iff_of_true (by simp [fileOfTwo]) Nat.one_pos
    · obtain rfl := Option.some.inj present
      exact iff_of_true (by simp [fileOfTwo]) Nat.one_pos
    · obtain rfl := Option.some.inj present
      exact iff_of_false (by simp [fileOfTwo]) (by simp [Line.sentinel])

/-- Nothing is released before the `unlink` of a file fails that begins with a hole. -/
theorem failure_reported_iff_hole :
    (FailingCall.unlink ()).Reported sha1OfLetters (.unlink 13)
      (fileOfTwo [none, some 1, some 2]) := by
  have ids : [none, some 1, some 2].reduceOption = [1, 2] := by decide
  have returns : ((FailingCall.unlink ()).run sha1OfLetters (.unlink 13)
      (fileOfTwo [none, some 1, some 2])).isSome = true := by decide +kernel
  have made : (FailingCall.unlink ()).Makes sha1OfLetters (fileOfTwo [none, some 1, some 2])
      (.unlink 13) := ⟨⟨(), rfl⟩, Option.isSome_iff_ne_none.mp returns⟩
  exact (failure_reported_iff (fileOfTwo [none, some 1, some 2]) linesOfTwo _ (fileOfTwo_format ids)
    (fileOfTwo_balanced ids) (.unlink ()) trivial (.unlink 13) made).mpr
    ⟨(), 13, rfl, rfl, by decide⟩

/-- When the `remove` of the first block fails, the second one is not released; the file is
unlinked and the call reports success. -/
theorem unlink_hides_failure :
    InFormat (fileOfTwo [some 1, some 2]).toStorage linesOfTwo (fileOfTwo [some 1, some 2]).names
        (fun _ => [some 1, some 2]) (fileOfTwo [some 1, some 2]).idFile ∧
      Balanced (fileOfTwo [some 1, some 2]).toStorage (fileOfTwo [some 1, some 2]).names
        (fileOfTwo [some 1, some 2]).idFile ∧
      (FailingCall.unlink ()).Makes sha1OfLetters (fileOfTwo [some 1, some 2]) (.remove 0) ∧
      (Failing.bbUnlink (.remove 0) (fileOfTwo [some 1, some 2]) ()).map (fun returned =>
        (returned.1, returned.2.names, lineId returned.2.hashFile.data 1,
          lineCounter returned.2.hashFile.data 1)) = some (0, ∅, 2, 1) ∧
      ¬(FailingCall.unlink ()).Reported sha1OfLetters (.remove 0)
        (fileOfTwo [some 1, some 2]) := by
  have ids : [some 1, some 2].reduceOption = [1, 2] := by decide
  have made : (FailingCall.unlink ()).Makes sha1OfLetters (fileOfTwo [some 1, some 2])
      (.remove 0) := ⟨entriesText [some 1, some 2], by decide +kernel, by decide +kernel⟩
  refine ⟨fileOfTwo_format ids, fileOfTwo_balanced ids, made, by decide +kernel,
    fun reported => ?_⟩
  rcases (unlink_reported_iff (fileOfTwo_format ids) (fileOfTwo_balanced ids) made).mp reported with
    ⟨errno, different, _⟩
  cases different

end CE321.Dedup
