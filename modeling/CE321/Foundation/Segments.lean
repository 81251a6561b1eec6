import Mathlib

/-! # Segments of a row

Ranges of units in a row of fixed width, the ranges that tile it, and ordered lists
of ranges that do not touch: the free blocks of an allocator and what becomes of
them when one is cut or given back.
-/

namespace CE321

@[ext] structure Segment where
  start : Nat
  size : Nat
  deriving DecidableEq, Repr

namespace Segment

def stop (segment : Segment) : Nat := segment.start + segment.size

def Covers (segment : Segment) (unit : Nat) : Prop :=
  segment.start ≤ unit ∧ unit < segment.stop

instance (segment : Segment) (unit : Nat) : Decidable (segment.Covers unit) :=
  inferInstanceAs (Decidable (_ ∧ _))

/-- How many of the segments hold the unit. -/
def cover (segments : List Segment) (unit : Nat) : Nat :=
  segments.countP fun segment => segment.Covers unit

def totalSize (segments : List Segment) : Nat := (segments.map size).sum

@[simp] theorem cover_nil (unit : Nat) : cover [] unit = 0 := rfl

theorem cover_cons (segment : Segment) (segments : List Segment) (unit : Nat) :
    cover (segment :: segments) unit = cover [segment] unit + cover segments unit := by
  unfold cover
  rw [List.countP_cons, List.countP_cons, List.countP_nil]
  omega

@[simp] theorem cover_append (left right : List Segment) (unit : Nat) :
    cover (left ++ right) unit = cover left unit + cover right unit :=
  List.countP_append

theorem cover_perm {left right : List Segment} (same : left.Perm right) (unit : Nat) :
    cover left unit = cover right unit :=
  same.countP_eq _

theorem cover_single (segment : Segment) (unit : Nat) : cover [segment] unit =
    if segment.start ≤ unit ∧ unit < segment.start + segment.size then 1 else 0 := by
  unfold cover
  rw [List.countP_cons, List.countP_nil, Nat.zero_add]
  exact if_congr decide_eq_true_iff rfl rfl

theorem cover_split (start left right unit : Nat) :
    cover [⟨start, left + right⟩] unit =
      cover [⟨start, left⟩] unit + cover [⟨start + left, right⟩] unit := by
  simp only [cover_single]
  rcases Nat.lt_or_ge unit start with before | fromStart
  · rw [if_neg (by omega), if_neg (by omega), if_neg (by omega)]
  · rcases Nat.lt_or_ge unit (start + left) with inLeft | behindLeft
    · rw [if_pos (by omega), if_pos (by omega), if_neg (by omega)]
    · rcases Nat.lt_or_ge unit (start + left + right) with inRight | behind
      · rw [if_pos (by omega), if_neg (by omega), if_pos (by omega)]
      · rw [if_neg (by omega), if_neg (by omega), if_neg (by omega)]

@[simp] theorem totalSize_nil : totalSize [] = 0 := rfl

@[simp] theorem totalSize_cons (segment : Segment) (segments : List Segment) :
    totalSize (segment :: segments) = segment.size + totalSize segments := rfl

@[simp] theorem totalSize_append (left right : List Segment) :
    totalSize (left ++ right) = totalSize left + totalSize right := by
  simp [totalSize]

/-- Segments inside a row that hold every unit of it once. -/
structure Tiles (width : Nat) (segments : List Segment) : Prop where
  positive : ∀ segment ∈ segments, 0 < segment.size
  inside : ∀ segment ∈ segments, segment.stop ≤ width
  once : ∀ unit < width, cover segments unit = 1

theorem Tiles.perm {width : Nat} {left right : List Segment} (tiles : Tiles width left)
    (same : left.Perm right) : Tiles width right where
  positive := fun segment member => tiles.positive segment (same.mem_iff.mpr member)
  inside := fun segment member => tiles.inside segment (same.mem_iff.mpr member)
  once := fun unit bound => (cover_perm same unit).symm.trans (tiles.once unit bound)

theorem sum_cover {width : Nat} {segments : List Segment}
    (inside : ∀ segment ∈ segments, segment.stop ≤ width) :
    ∑ unit ∈ Finset.range width, cover segments unit = totalSize segments := by
  induction segments with
  | nil => simp
  | cons segment segments induction =>
      have rest := induction fun other member => inside other (List.mem_cons_of_mem _ member)
      have bound := inside segment List.mem_cons_self
      have own : ∑ unit ∈ Finset.range width, cover [segment] unit = segment.size := by
        have units : ((Finset.range width).filter fun unit =>
            segment.start ≤ unit ∧ unit < segment.start + segment.size) =
            Finset.Ico segment.start segment.stop := by
          ext unit
          simp only [Finset.mem_filter, Finset.mem_range, Finset.mem_Ico, stop] at *
          omega
        simp only [cover_single]
        rw [Finset.sum_boole, units, Nat.cast_id, Nat.card_Ico, stop]
        omega
      rw [totalSize_cons, ← rest, ← own, ← Finset.sum_add_distrib]
      exact Finset.sum_congr rfl fun unit _ => cover_cons segment segments unit

theorem Tiles.totalSize {width : Nat} {segments : List Segment} (tiles : Tiles width segments) :
    totalSize segments = width := by
  rw [← sum_cover tiles.inside,
    Finset.sum_congr rfl fun unit member => tiles.once unit (Finset.mem_range.mp member)]
  simp

theorem Tiles.disjoint {width : Nat} {first second : Segment} {segments : List Segment}
    (tiles : Tiles width (first :: second :: segments)) :
    first.stop ≤ second.start ∨ second.stop ≤ first.start := by
  by_contra overlap
  have firstPositive := tiles.positive first List.mem_cons_self
  have secondPositive := tiles.positive second (List.mem_cons_of_mem _ List.mem_cons_self)
  have bound := tiles.inside first List.mem_cons_self
  have once := tiles.once (max first.start second.start) (by unfold stop at *; omega)
  rw [cover_cons, cover_cons second, cover_single, cover_single, if_pos, if_pos] at once
  · omega
  · unfold Covers stop at *
    omega
  · unfold Covers stop at *
    omega

theorem Tiles.apart {width : Nat} {left right : List Segment}
    (tiles : Tiles width (left ++ right)) {first second : Segment} (firstMember : first ∈ left)
    (secondMember : second ∈ right) :
    first.stop ≤ second.start ∨ second.stop ≤ first.start := by
  rcases List.append_of_mem firstMember with ⟨before, after, rfl⟩
  rcases List.append_of_mem secondMember with ⟨before', after', rfl⟩
  apply @Tiles.disjoint width first second (before ++ (after ++ (before' ++ after')))
  apply tiles.perm
  have front : (before ++ first :: after ++ (before' ++ second :: after')).Perm
      (first :: (before ++ after ++ (before' ++ second :: after'))) := by
    rw [List.append_assoc, List.append_assoc, List.cons_append]
    exact List.perm_middle
  refine front.trans (List.Perm.cons first ?_)
  rw [← List.append_assoc (before ++ after)]
  refine List.perm_middle.trans ?_
  rw [List.append_assoc, List.append_assoc]

/-! ## Lists of segments that do not touch -/

/-- The segments are in order, with at least one unit between any two. -/
def Separated (segments : List Segment) : Prop :=
  segments.Pairwise fun left right => left.stop < right.start

theorem Separated.append {left right : List Segment} :
    Separated (left ++ right) ↔ Separated left ∧ Separated right ∧
      ∀ first ∈ left, ∀ second ∈ right, first.stop < second.start :=
  List.pairwise_append

theorem Separated.cons {segment : Segment} {segments : List Segment} :
    Separated (segment :: segments) ↔
      (∀ second ∈ segments, segment.stop < second.start) ∧ Separated segments :=
  List.pairwise_cons

theorem Separated.replace {before after pieces : List Segment} {segment : Segment}
    (separated : Separated (before ++ segment :: after)) (pieceSeparated : Separated pieces)
    (within : ∀ piece ∈ pieces, segment.start ≤ piece.start ∧ piece.stop ≤ segment.stop) :
    Separated (before ++ (pieces ++ after)) := by
  rcases Separated.append.mp separated with ⟨beforeSeparated, rest, across⟩
  rcases Separated.cons.mp rest with ⟨behind, afterSeparated⟩
  refine Separated.append.mpr ⟨beforeSeparated, Separated.append.mpr ⟨pieceSeparated,
    afterSeparated, ?_⟩, ?_⟩
  · intro piece member second secondMember
    exact lt_of_le_of_lt (within piece member).2 (behind second secondMember)
  · intro first firstMember second secondMember
    rcases List.mem_append.mp secondMember with piece | later
    · exact lt_of_lt_of_le (across first firstMember segment List.mem_cons_self)
        (within second piece).1
    · exact across first firstMember second (List.mem_cons_of_mem _ later)

theorem cover_pos {segments : List Segment} {unit : Nat} :
    0 < cover segments unit ↔ ∃ segment ∈ segments, segment.Covers unit := by
  unfold cover
  rw [List.countP_pos_iff]
  simp only [decide_eq_true_eq]

theorem Separated.cover_first {segment : Segment} {segments : List Segment}
    (separated : Separated (segment :: segments)) :
    (∀ unit < segment.start, cover (segment :: segments) unit = 0) ∧
      (∀ unit, segment.Covers unit → 0 < cover (segment :: segments) unit) ∧
      cover (segment :: segments) segment.stop = 0 := by
  have behind := (Separated.cons.mp separated).1
  refine ⟨fun unit before => ?_, fun unit covers => cover_pos.mpr ⟨segment, by simp, covers⟩, ?_⟩
  · by_contra some
    rcases cover_pos.mp (Nat.pos_of_ne_zero some) with ⟨other, member, covers⟩
    unfold Covers at covers
    rcases List.mem_cons.mp member with rfl | later
    · omega
    · have apart := behind other later
      unfold stop at apart
      omega
  · by_contra some
    rcases cover_pos.mp (Nat.pos_of_ne_zero some) with ⟨other, member, covers⟩
    unfold Covers at covers
    rcases List.mem_cons.mp member with rfl | later
    · omega
    · have apart := behind other later
      omega

/-- The first of separated segments starts and ends where the units that they hold do. -/
theorem Separated.first_unique {first second : Segment} {left right : List Segment}
    (sepLeft : Separated (first :: left)) (sepRight : Separated (second :: right))
    (firstPositive : 0 < first.size) (secondPositive : 0 < second.size)
    (same : ∀ unit, cover (first :: left) unit = cover (second :: right) unit) :
    first = second := by
  rcases sepLeft.cover_first with ⟨before, within, atStop⟩
  rcases sepRight.cover_first with ⟨before', within', atStop'⟩
  have start : first.start = second.start := by
    have inFirst := within first.start (by unfold Covers stop; omega)
    have inSecond := within' second.start (by unfold Covers stop; omega)
    rw [same] at inFirst
    rw [← same] at inSecond
    have notLess : ¬first.start < second.start := fun less => by
      rw [before' _ less] at inFirst
      omega
    have notMore : ¬second.start < first.start := fun less => by
      rw [before _ less] at inSecond
      omega
    omega
  have ends : first.stop = second.stop := by
    have notLess : ¬first.stop < second.stop := fun less => by
      have covered := within' first.stop (by unfold Covers; unfold stop at *; omega)
      rw [← same, atStop] at covered
      omega
    have notMore : ¬second.stop < first.stop := fun less => by
      have covered := within second.stop (by unfold Covers; unfold stop at *; omega)
      rw [same, atStop'] at covered
      omega
    omega
  unfold stop at ends
  exact Segment.ext start (by omega)

/-- Separated segments are a canonical form of the units that they hold. -/
theorem Separated.unique {left : List Segment} : ∀ {right : List Segment},
    Separated left → Separated right → (∀ segment ∈ left, 0 < segment.size) →
    (∀ segment ∈ right, 0 < segment.size) → (∀ unit, cover left unit = cover right unit) →
    left = right := by
  induction left with
  | nil =>
      intro right _ sepRight _ positive same
      cases right with
      | nil => rfl
      | cons second right =>
          have here := positive second List.mem_cons_self
          have covered := sepRight.cover_first.2.1 second.start (by unfold Covers stop; omega)
          rw [← same, cover_nil] at covered
          omega
  | cons first left induction =>
      intro right sepLeft sepRight positive positive' same
      have here := positive first List.mem_cons_self
      cases right with
      | nil =>
          have covered := sepLeft.cover_first.2.1 first.start (by unfold Covers stop; omega)
          rw [same, cover_nil] at covered
          omega
      | cons second right =>
          have equal := sepLeft.first_unique sepRight here (positive' second List.mem_cons_self) same
          subst equal
          congr 1
          apply induction (Separated.cons.mp sepLeft).2 (Separated.cons.mp sepRight).2
            (fun segment member => positive segment (List.mem_cons_of_mem _ member))
            (fun segment member => positive' segment (List.mem_cons_of_mem _ member))
          intro unit
          have whole := same unit
          rw [cover_cons first left, cover_cons first right] at whole
          omega

/-! ## Segments elsewhere -/

/-- The segment in a row that starts at `base`. -/
def shift (base : Nat) (segment : Segment) : Segment := ⟨base + segment.start, segment.size⟩

theorem cover_shift (base : Nat) (segments : List Segment) (unit : Nat) :
    cover (segments.map (shift base)) (base + unit) = cover segments unit := by
  unfold cover
  rw [List.countP_map]
  apply List.countP_congr
  intro segment _
  rw [Function.comp_apply, decide_eq_true_iff, decide_eq_true_iff]
  unfold Covers stop shift
  simp only
  omega

theorem cover_shift_before {base address : Nat} (segments : List Segment) (before : address < base) :
    cover (segments.map (shift base)) address = 0 := by
  unfold cover
  rw [List.countP_eq_zero]
  intro segment member
  rcases List.mem_map.mp member with ⟨original, -, rfl⟩
  rw [decide_eq_true_iff]
  unfold Covers shift
  simp only
  omega

theorem totalSize_shift (base : Nat) (segments : List Segment) :
    totalSize (segments.map (shift base)) = totalSize segments := by
  unfold totalSize
  rw [List.map_map]
  rfl

theorem Tiles.cover_behind {width : Nat} {segments : List Segment} (tiles : Tiles width segments)
    {unit : Nat} (behind : width ≤ unit) : cover segments unit = 0 := by
  unfold cover
  rw [List.countP_eq_zero]
  intro segment member
  have inside := tiles.inside segment member
  rw [decide_eq_true_iff]
  unfold Covers
  omega

/-! ## Cutting a segment -/

/-- What is left of a segment of which `units` are taken after a gap. -/
def leftover (segment : Segment) (gap units : Nat) : List Segment :=
  (if gap = 0 then [] else [⟨segment.start, gap⟩]) ++
    if gap + units = segment.size then []
    else [⟨segment.start + gap + units, segment.size - (gap + units)⟩]

theorem mem_leftover {segment piece : Segment} {gap units : Nat}
    (member : piece ∈ leftover segment gap units) (fits : gap + units ≤ segment.size) :
    0 < piece.size ∧ segment.start ≤ piece.start ∧ piece.stop ≤ segment.stop ∧
      (piece.stop ≤ segment.start + gap ∨ segment.start + gap + units ≤ piece.start) := by
  unfold leftover at member
  rcases List.mem_append.mp member with head | tail
  · split at head
    · exact absurd head List.not_mem_nil
    · rw [List.mem_singleton.mp head]
      simp only [stop]
      omega
  · split at tail
    · exact absurd tail List.not_mem_nil
    · rw [List.mem_singleton.mp tail]
      simp only [stop]
      omega

theorem separated_leftover {segment : Segment} {gap units : Nat} (positive : 0 < units) :
    Separated (leftover segment gap units) := by
  unfold leftover Separated
  split <;> split <;> simp [stop]
  omega

theorem cover_leftover {segment : Segment} {gap units : Nat} (fits : gap + units ≤ segment.size)
    (unit : Nat) : cover [segment] unit =
      cover (leftover segment gap units) unit + cover [⟨segment.start + gap, units⟩] unit := by
  rcases segment with ⟨start, size⟩
  rcases Nat.exists_eq_add_of_le fits with ⟨rest, rfl⟩
  have whole : cover [⟨start, gap + units + rest⟩] unit = cover [⟨start, gap⟩] unit +
      (cover [⟨start + gap, units⟩] unit + cover [⟨start + gap + units, rest⟩] unit) := by
    rw [Nat.add_assoc, cover_split, cover_split]
  have empty (start : Nat) : cover [⟨start, 0⟩] unit = 0 := by
    rw [cover_single]
    exact if_neg fun holds => by simp only at holds; omega
  have atEnd : gap + units = gap + units + rest ↔ rest = 0 := by omega
  simp only [leftover, whole, cover_append, Nat.add_sub_cancel_left, atEnd]
  split
  · next noGap =>
      rw [noGap, empty]
      split
      · next noRest =>
          rw [noRest, empty]
          simp
      · rw [cover_nil]
        omega
  · split
    · next noRest =>
        rw [noRest, empty]
        simp
    · omega

theorem leftover_gap {segment : Segment} {gap units : Nat} (fits : gap ≤ segment.size) :
    leftover segment gap units = (if gap = 0 then [] else [⟨segment.start, gap⟩]) ++
      leftover ⟨segment.start + gap, segment.size - gap⟩ 0 units := by
  have atEnd : gap + units = segment.size ↔ units = segment.size - gap := by omega
  simp only [leftover, atEnd, if_true, List.nil_append, Nat.zero_add, Nat.add_zero,
    Nat.sub_sub]

theorem Tiles.cut {width : Nat} {before after taken : List Segment} {segment : Segment}
    {gap units : Nat} (tiles : Tiles width (before ++ segment :: after ++ taken))
    (positive : 0 < units) (fits : gap + units ≤ segment.size) :
    Tiles width (before ++ (leftover segment gap units ++ after) ++
      ⟨segment.start + gap, units⟩ :: taken) := by
  have inside := tiles.inside segment (by simp)
  have origin : ∀ piece ∈ before ++ (leftover segment gap units ++ after) ++
      ⟨segment.start + gap, units⟩ :: taken, piece ∈ before ++ segment :: after ++ taken ∨
      piece ∈ leftover segment gap units ∨ piece = ⟨segment.start + gap, units⟩ := by
    intro piece member
    simp only [List.mem_append, List.mem_cons] at member ⊢
    tauto
  constructor
  · intro piece member
    rcases origin piece member with old | rest | rfl
    · exact tiles.positive piece old
    · exact (mem_leftover rest fits).1
    · exact positive
  · intro piece member
    rcases origin piece member with old | rest | rfl
    · exact tiles.inside piece old
    · exact (mem_leftover rest fits).2.2.1.trans inside
    · simp only [stop] at inside ⊢
      omega
  · intro unit bound
    have once := tiles.once unit bound
    have parts := cover_leftover fits unit
    rw [cover_append, cover_append, cover_cons segment] at once
    rw [cover_append, cover_append, cover_append, cover_cons ⟨segment.start + gap, units⟩]
    omega

/-! ## Giving a segment back -/

/-- A segment in front of others, joined to the first of them if they touch. -/
def joinRight (segment : Segment) : List Segment → List Segment
  | [] => [segment]
  | next :: rest =>
      if segment.stop = next.start then ⟨segment.start, segment.size + next.size⟩ :: rest
      else segment :: next :: rest

/-- Segments in front of others, the last of them joined if they touch. -/
def joinLeft (before : List Segment) (previous : Segment) : List Segment → List Segment
  | [] => before ++ [previous]
  | next :: rest =>
      if previous.stop = next.start then
        before ++ ⟨previous.start, previous.size + next.size⟩ :: rest
      else before ++ previous :: next :: rest

theorem cover_join {first next : Segment} (touches : first.stop = next.start)
    (rest : List Segment) (unit : Nat) :
    cover (⟨first.start, first.size + next.size⟩ :: rest) unit =
      cover (first :: next :: rest) unit := by
  have second : (⟨first.start + first.size, next.size⟩ : Segment) = next :=
    Segment.ext touches rfl
  rw [cover_cons ⟨first.start, first.size + next.size⟩ rest, cover_split, second,
    cover_cons first (next :: rest), cover_cons next rest, add_assoc]

theorem cover_joinRight (segment : Segment) (segments : List Segment) (unit : Nat) :
    cover (joinRight segment segments) unit = cover (segment :: segments) unit := by
  cases segments with
  | nil => rfl
  | cons next rest =>
      simp only [joinRight]
      split
      · next touches => exact cover_join touches rest unit
      · rfl

theorem cover_joinLeft (before : List Segment) (previous : Segment) (segments : List Segment)
    (unit : Nat) : cover (joinLeft before previous segments) unit =
      cover (before ++ previous :: segments) unit := by
  cases segments with
  | nil => rfl
  | cons next rest =>
      simp only [joinLeft]
      split
      · next touches => rw [cover_append, cover_append, cover_join touches]
      · rfl

theorem Separated.joinRight {segment : Segment} {segments : List Segment}
    (separated : Separated segments) (behind : ∀ next ∈ segments, segment.stop ≤ next.start)
    (positive : ∀ next ∈ segments, 0 < next.size) :
    Separated (joinRight segment segments) := by
  cases segments with
  | nil => exact List.pairwise_singleton _ _
  | cons next rest =>
      rcases Separated.cons.mp separated with ⟨nextBehind, restSeparated⟩
      have here := behind next List.mem_cons_self
      have size := positive next List.mem_cons_self
      simp only [Segment.joinRight]
      split
      · next touches =>
          refine Separated.cons.mpr ⟨fun second member => ?_, restSeparated⟩
          have apart := nextBehind second member
          unfold stop at *
          simp only
          omega
      · next gap =>
          refine Separated.cons.mpr ⟨fun second member => ?_, separated⟩
          rcases List.mem_cons.mp member with rfl | later
          · omega
          · have apart := nextBehind second later
            unfold stop at *
            omega

theorem joinRight_head (segment : Segment) (segments : List Segment) :
    ∃ size rest, Segment.joinRight segment segments = ⟨segment.start, size⟩ :: rest ∧
      segment.size ≤ size := by
  cases segments with
  | nil => exact ⟨segment.size, [], rfl, le_rfl⟩
  | cons next rest =>
      simp only [Segment.joinRight]
      split
      · exact ⟨segment.size + next.size, rest, rfl, Nat.le_add_right _ _⟩
      · exact ⟨segment.size, next :: rest, rfl, le_rfl⟩

theorem Separated.joinLeft {before segments : List Segment} {previous : Segment}
    (front : Separated (before ++ [previous])) (separated : Separated segments)
    (behind : ∀ first ∈ before, ∀ next ∈ segments, first.stop < next.start)
    (apart : ∀ next ∈ segments, previous.stop ≤ next.start)
    (positive : ∀ next ∈ segments, 0 < next.size) :
    Separated (joinLeft before previous segments) := by
  rcases Separated.append.mp front with ⟨beforeSeparated, -, across⟩
  cases segments with
  | nil => exact front
  | cons next rest =>
      rcases Separated.cons.mp separated with ⟨nextBehind, restSeparated⟩
      have here := apart next List.mem_cons_self
      have size := positive next List.mem_cons_self
      simp only [Segment.joinLeft]
      split
      · next touches =>
          refine Separated.append.mpr ⟨beforeSeparated, Separated.cons.mpr
            ⟨fun second member => ?_, restSeparated⟩, ?_⟩
          · have gap := nextBehind second member
            unfold stop at *
            simp only
            omega
          · intro first firstMember second secondMember
            rcases List.mem_cons.mp secondMember with rfl | later
            · exact across first firstMember previous (List.mem_singleton_self _)
            · exact behind first firstMember second (List.mem_cons_of_mem _ later)
      · next gap =>
          refine Separated.append.mpr ⟨beforeSeparated, Separated.cons.mpr
            ⟨fun second member => ?_, separated⟩, ?_⟩
          · rcases List.mem_cons.mp member with rfl | later
            · omega
            · have gap := nextBehind second later
              unfold stop at *
              omega
          · intro first firstMember second secondMember
            rcases List.mem_cons.mp secondMember with rfl | later
            · exact across first firstMember second (List.mem_singleton_self _)
            · exact behind first firstMember second later

end Segment

end CE321
