import CE321.Dedup.Counting
import CE321.Dedup.IdList

/-! # Releasing and storing the blocks of a write

The two passes of `bb_write` over the ledger, and the references that stay between
them: their block files do not change.
-/

namespace CE321.Dedup

open CString RefTable

section

variable {sha1 : Bytes → Fin 20 → UInt8} {storage : Storage} {lines : List Line}
  {references : Multiset Nat}

theorem counts_present (counts : Counts (tableOf lines) references) {id : Nat}
    (member : id ∈ references) :
    ∃ index line, id = index + 1 ∧ lines[index]? = some line ∧
      line.counter = references.count id := by
  rcases counts.inside id member with ⟨positive, bound⟩
  rw [tableOf_length] at bound
  have present := List.getElem?_eq_getElem (show id - 1 < lines.length by omega)
  refine ⟨id - 1, _, by omega, present, ?_⟩
  have counted := counts.count (id - 1) lines[id - 1].slot (by
    rw [tableOf, List.getElem?_map, present, Option.map_some])
  rwa [Nat.sub_add_cancel positive] at counted

theorem counts_small (holds : StoreInvariant sha1 storage lines)
    (counts : Counts (tableOf lines) references) {id : Nat} (member : id ∈ references) :
    id < 1000 := by
  have bound := (counts.inside id member).2
  rw [tableOf_length] at bound
  have small := holds.small
  omega

/-! ## Releasing -/

structure Released (sha1 : Bytes → Fin 20 → UInt8) (ids : List Nat) (storage : Storage)
    (lines : List Line) (references : Multiset Nat) (storage' : Storage) : Prop where
  holds : StoreInvariant sha1 storage' (releaseLines ids lines)
  counts : Counts (tableOf (releaseLines ids lines)) (references - (ids : Multiset Nat))
  kept : ∀ other ∈ references - (ids : Multiset Nat), storage'.block other = storage.block other
  origin : ∀ key bytes, storage'.block key = some bytes → storage.block key = some bytes

theorem StoreInvariant.released (holds : StoreInvariant sha1 storage lines)
    (counts : Counts (tableOf lines) references) {entries : List (Option Nat)}
    (small : Small entries) (held : ∀ id ∈ leadingIds entries, id ∈ references) :
    ∃ storage', removeBlocks (entriesText entries) storage = (0, storage') ∧
      Released sha1 (leadingIds entries) storage lines references storage' := by
  have present : ∀ id ∈ leadingIds entries, 0 < id ∧ id ≤ lines.length + 1 := by
    intro id member
    have bounds := counts.inside id (held id member)
    rw [tableOf_length] at bounds
    omega
  rcases holds.removeBlocks_returns present with ⟨storage', returned, holds', blocks⟩
  refine ⟨storage', by rw [removeBlocks_entriesText small, returned], holds', ?_, ?_, ?_⟩
  · rw [tableOf_release]
    exact counts.release _
  · intro other member
    rcases counts_present counts (Multiset.mem_of_le (Multiset.sub_le_self _ _) member) with
      ⟨index, line, rfl, there, counted⟩
    have remains := Multiset.count_pos.mpr member
    rw [Multiset.count_sub, Multiset.coe_count] at remains
    rw [blocks, releaseBlocks_index _ _ _ there, if_neg (by omega)]
  · intro key bytes found
    rw [blocks] at found
    unfold releaseBlocks at found
    split at found
    · exact found
    · split at found
      · cases found
      · exact found

/-! ## Storing -/

structure PushedAll (sha1 : Bytes → Fin 20 → UInt8) (blocks : List Bytes) (storage : Storage)
    (lines : List Line) (references : Multiset Nat) (ids : List Nat) (storage' : Storage)
    (lines' : List Line) : Prop where
  holds : StoreInvariant sha1 storage' lines'
  table : tableOf lines' = acquireAll (blocks.map (getHash sha1)) (tableOf lines)
  counts : Counts (tableOf lines') ((ids : Multiset Nat) + references)
  kept : ∀ other ∈ references, storage'.block other = storage.block other
  found : ids.map (fun id : Nat => (storage'.block id).map (getHash sha1)) =
    blocks.map fun block => some (getHash sha1 block)
  origin : ∀ key bytes, storage'.block key = some bytes →
    storage.block key = some bytes ∨ ∃ block ∈ blocks, bytes = contents block

theorem PushedAll.nil (holds : StoreInvariant sha1 storage lines)
    (counts : Counts (tableOf lines) references) :
    PushedAll sha1 [] storage lines references [] storage lines where
  holds := holds
  table := rfl
  counts := by simpa using counts
  kept := fun _ _ => rfl
  found := rfl
  origin := fun _ _ found => .inl found

theorem PushedAll.cons {block : Bytes} {blocks : List Bytes} {id : Nat} {ids : List Nat}
    {middle final : Storage} {lines₁ lines₂ : List Line}
    (first : Pushed sha1 block storage lines references id middle lines₁)
    (rest : PushedAll sha1 blocks middle lines₁ (id ::ₘ references) ids final lines₂) :
    PushedAll sha1 (block :: blocks) storage lines references (id :: ids) final lines₂ where
  holds := rest.holds
  table := by rw [rest.table, first.table, List.map_cons, acquireAll_cons]
  counts := by
    have counts := rest.counts
    rwa [Multiset.add_cons, ← Multiset.cons_add, Multiset.cons_coe] at counts
  kept := fun other member =>
    (rest.kept other (Multiset.mem_cons_of_mem member)).trans (first.kept other member)
  found := by
    rcases first.found with ⟨bytes, stored, same⟩
    rw [List.map_cons, List.map_cons, rest.found, rest.kept id (Multiset.mem_cons_self _ _),
      stored, Option.map_some, same]
  origin := by
    intro key bytes found
    rcases rest.origin key bytes found with old | ⟨other, member, equal⟩
    · rcases first.origin key bytes old with older | equal
      · exact .inl older
      · exact .inr ⟨block, List.mem_cons_self, equal⟩
    · exact .inr ⟨other, List.mem_cons_of_mem _ member, equal⟩

theorem compressBufferLoop_pushes (buf : Bytes) (size base : Int) (count : Nat) :
    ∀ (i : Nat) (output : Bytes) (storage : Storage) (lines : List Line)
      (references : Multiset Nat) (blocks : List Bytes),
    blocks = (List.range' i count).map (fun j => segment buf size base (j : Nat)) →
    StoreInvariant sha1 storage lines → Counts (tableOf lines) references →
    (∀ block ∈ blocks, noConversion (contents block)) →
    (∀ block ∈ blocks, getHash sha1 block ≠ zeroHash) →
    RoomForAll (blocks.map (getHash sha1)) (tableOf lines) →
    references.card + count ≤ 998 →
    ∃ ids storage' lines', compressBufferLoop sha1 buf size base count i output storage =
        some (output ++ idText ids, storage') ∧
      PushedAll sha1 blocks storage lines references ids storage' lines' := by
  induction count with
  | zero =>
      rintro i output storage lines references _ rfl holds counts _ _ _ _
      refine ⟨[], storage, lines, ?_, PushedAll.nil holds counts⟩
      rw [compressBufferLoop]
      simp [idText]
  | succ count induction =>
      intro i output storage lines references blocks split holds counts plain nonzero room few
      rw [List.range'_succ, List.map_cons] at split
      subst split
      rcases room with ⟨roomHere, roomRest⟩
      rcases holds.pushed counts (nonzero _ List.mem_cons_self) roomHere (by omega) with
        ⟨id, middle, lines₁, returned, first⟩
      rw [← first.table] at roomRest
      obtain ⟨ids, final, lines₂, rest, pushed⟩ := induction (i + 1)
        (output ++ (zeroPadded 3 id ++ [10])) middle lines₁ (id ::ₘ references) _ rfl first.holds
        first.counts (fun block member => plain block (List.mem_cons_of_mem _ member))
        (fun block member => nonzero block (List.mem_cons_of_mem _ member)) roomRest
        (by rw [Multiset.card_cons]; omega)
      have printed := (@fprintf_eq_some_iff _ ()).mpr (plain _ List.mem_cons_self)
      refine ⟨id :: ids, final, lines₂, ?_, .cons first pushed⟩
      rw [compressBufferLoop]
      simp only [printed, returned, Option.bind_eq_bind, Option.bind_some]
      rw [show sprintfDecimal 3 ((id : Nat) : Int) = zeroPadded 3 id from rfl, rest, idText_cons]
      simp

end

end CE321.Dedup
