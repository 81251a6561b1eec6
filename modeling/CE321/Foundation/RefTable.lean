import Mathlib

/-! # Reference-counted tables

A table of slots, each with a key and a number of references. References are held
elsewhere, as slot numbers counted from one. A slot without references is free for
another key.
-/

namespace CE321

@[ext] structure Slot (Key : Type*) where
  key : Key
  references : Nat
  deriving DecidableEq

namespace RefTable

variable {Key : Type*}

/-- The references a slot number has: none outside the table. -/
def referencesAt (table : List (Slot Key)) (index : Nat) : Nat :=
  (table[index]?.map Slot.references).getD 0

/-- One reference less for every occurrence of a slot's number. -/
def release (ids : List Nat) (table : List (Slot Key)) : List (Slot Key) :=
  table.mapIdx fun index slot => ⟨slot.key, slot.references - ids.count (index + 1)⟩

@[simp] theorem release_length (ids : List Nat) (table : List (Slot Key)) :
    (release ids table).length = table.length := by
  simp [release]

/-- The numbers in the slots count the references that are held. -/
structure Counts (table : List (Slot Key)) (references : Multiset Nat) : Prop where
  count : ∀ index slot, table[index]? = some slot →
    slot.references = references.count (index + 1)
  inside : ∀ id ∈ references, 0 < id ∧ id ≤ table.length

theorem Counts.nil : Counts ([] : List (Slot Key)) 0 where
  count := by simp
  inside := by simp

theorem Counts.referencesAt {table : List (Slot Key)} {references : Multiset Nat}
    (counts : Counts table references) (index : Nat) :
    referencesAt table index = references.count (index + 1) := by
  unfold RefTable.referencesAt
  cases present : table[index]? with
  | some slot => exact counts.count index slot present
  | none =>
      refine (Multiset.count_eq_zero.mpr fun member => ?_).symm
      have bound := (counts.inside _ member).2
      have outside := List.getElem?_eq_none_iff.mp present
      omega

theorem Counts.unique {table : List (Slot Key)} {references others : Multiset Nat}
    (counts : Counts table references) (otherCounts : Counts table others) :
    references = others := by
  ext id
  by_cases inside : 0 < id ∧ id ≤ table.length
  · have present := List.getElem?_eq_getElem (show id - 1 < table.length by omega)
    have left := counts.count (id - 1) _ present
    have right := otherCounts.count (id - 1) _ present
    rw [Nat.sub_add_cancel inside.1] at left right
    rw [← left, right]
  · rw [Multiset.count_eq_zero_of_notMem fun member => inside (counts.inside id member),
      Multiset.count_eq_zero_of_notMem fun member => inside (otherCounts.inside id member)]

theorem Counts.release {table : List (Slot Key)} {references : Multiset Nat}
    (counts : Counts table references) (ids : List Nat) :
    Counts (release ids table) (references - (ids : Multiset Nat)) where
  count := by
    intro index slot present
    simp only [RefTable.release, List.getElem?_mapIdx] at present
    rcases Option.map_eq_some_iff.mp present with ⟨old, oldPresent, rfl⟩
    rw [Multiset.count_sub, Multiset.coe_count, counts.count index old oldPresent]
  inside := by
    intro id member
    rw [release_length]
    exact counts.inside id (Multiset.mem_of_le (Multiset.sub_le_self _ _) member)

/-- A table in which every slot is referenced has at most as many slots as there are
references. -/
theorem Counts.length_le_card {table : List (Slot Key)} {references : Multiset Nat}
    (counts : Counts table references) (full : ∀ slot ∈ table, 0 < slot.references) :
    table.length ≤ references.card := by
  have distinct : ((Multiset.range table.length).map (· + 1)).Nodup :=
    (Multiset.nodup_range _).map (add_left_injective 1)
  have covered : (Multiset.range table.length).map (· + 1) ≤ references := by
    apply (Multiset.le_iff_subset distinct).mpr
    intro id member
    rcases Multiset.mem_map.mp member with ⟨index, inRange, rfl⟩
    have present := List.getElem?_eq_getElem (Multiset.mem_range.mp inRange)
    have positive := full _ (List.mem_of_getElem? present)
    rw [counts.count index _ present] at positive
    exact Multiset.count_pos.mp positive
  simpa using Multiset.card_le_card covered

section

variable [DecidableEq Key]

/-- Where a key goes: its own slot, or the first free one, or a new one. -/
def place (key : Key) (table : List (Slot Key)) : Nat :=
  if ∃ slot ∈ table, slot.key = key then table.findIdx (·.key = key)
  else table.findIdx (·.references = 0)

/-- One reference more for the key. -/
def acquire (key : Key) (table : List (Slot Key)) : List (Slot Key) :=
  let index := place key table
  table.take index ++ ⟨key, referencesAt table index + 1⟩ :: table.drop (index + 1)

theorem place_le_length (key : Key) (table : List (Slot Key)) :
    place key table ≤ table.length := by
  unfold place
  split <;> exact List.findIdx_le_length

theorem acquire_getElem? (key : Key) (table : List (Slot Key)) (index : Nat) :
    (acquire key table)[index]? = if index = place key table then
      some ⟨key, referencesAt table index + 1⟩ else table[index]? := by
  have width : (table.take (place key table)).length = place key table := by
    rw [List.length_take, min_eq_left (place_le_length key table)]
  rw [acquire]
  rcases Nat.lt_trichotomy index (place key table) with earlier | rfl | later
  · rw [if_neg earlier.ne, List.getElem?_append_left (by rwa [width]),
      List.getElem?_take_of_lt earlier]
  · rw [if_pos rfl, List.getElem?_append_right width.le, width, Nat.sub_self]
    rfl
  · rw [if_neg later.ne', List.getElem?_append_right (by omega), width,
      List.getElem?_cons, if_neg (by omega), List.getElem?_drop]
    congr 1
    omega

theorem acquire_length (key : Key) (table : List (Slot Key)) :
    (acquire key table).length = max table.length (place key table + 1) := by
  have bound := place_le_length key table
  simp only [acquire, List.length_append, List.length_take, List.length_cons, List.length_drop]
  omega

theorem Counts.acquire {table : List (Slot Key)} {references : Multiset Nat}
    (counts : Counts table references) (key : Key) :
    Counts (acquire key table) ((place key table + 1) ::ₘ references) where
  count := by
    intro index slot present
    rw [acquire_getElem?] at present
    split at present
    · next atPlace =>
        rw [← Option.some.inj present, atPlace, Multiset.count_cons_self,
          counts.referencesAt]
    · next elsewhere =>
        rw [Multiset.count_cons_of_ne (by omega), counts.count index slot present]
  inside := by
    intro id member
    rw [acquire_length]
    rcases Multiset.mem_cons.mp member with rfl | member
    · omega
    · have bounds := counts.inside id member
      omega

/-- One reference more for each key, in order. -/
def acquireAll (keys : List Key) (table : List (Slot Key)) : List (Slot Key) :=
  keys.foldl (fun table key => acquire key table) table

@[simp] theorem acquireAll_cons (key : Key) (keys : List Key) (table : List (Slot Key)) :
    acquireAll (key :: keys) table = acquireAll keys (acquire key table) := rfl

end

end RefTable

end CE321
