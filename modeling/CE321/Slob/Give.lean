import CE321.Slob.Layout

/-! # Giving an object back

What `slob_free` makes of the free list of a page that has one: the object's units
are put in at their place and joined with the blocks they touch.
-/

namespace CE321.Slob

open Segment

theorem OnPage.joinRight {segment : Segment} {segments : List Segment}
    (onPage : OnPage (segment :: segments)) : OnPage (joinRight segment segments) := by
  cases segments with
  | nil => exact onPage
  | cons next rest =>
      rcases OnPage.cons.mp onPage with ⟨⟨positive, inside⟩, others⟩
      rcases OnPage.cons.mp others with ⟨⟨nextPositive, nextInside⟩, onRest⟩
      simp only [Segment.joinRight]
      split
      · next touches =>
          refine OnPage.cons.mpr ⟨⟨by simp only; omega, ?_⟩, onRest⟩
          simp only [stop] at touches nextInside ⊢
          omega
      · exact onPage

theorem OnPage.joinLeft {before segments : List Segment} {previous : Segment}
    (onPage : OnPage (before ++ previous :: segments)) :
    OnPage (joinLeft before previous segments) := by
  cases segments with
  | nil => exact onPage
  | cons next rest =>
      rcases OnPage.append.mp onPage with ⟨onBefore, onRest⟩
      simp only [Segment.joinLeft]
      split
      · next touches =>
          have joined := OnPage.joinRight onRest
          simp only [Segment.joinRight, if_pos touches] at joined
          exact OnPage.append.mpr ⟨onBefore, joined⟩
      · exact onPage

/-- An object of a page lies in front of a free block or behind it. -/
def Apart (object : Segment) (blocks : List Segment) : Prop :=
  ∀ block ∈ blocks, block.stop ≤ object.start ∨ object.stop ≤ block.start

section

variable {mem : Nat → Int} {pfn : Nat} {object : Segment}

theorem insertionPoint_round {first : Segment} {rest : List Segment} (fuel : Nat)
    (encodes : Encodes mem (pageUnits * pfn) (first :: rest) pageUnits)
    (free : FreeList (first :: rest)) :
    insertionPoint mem (pageUnits * pfn + object.start) (fuel + 1) (pageUnits * pfn + first.start) =
      if firstStart rest pageUnits < object.start then
        insertionPoint mem (pageUnits * pfn + object.start) fuel
          (pageUnits * pfn + firstStart rest pageUnits)
      else some (pageUnits * pfn + first.start) := by
  rcases OnPage.cons.mp free.onPage with ⟨⟨positive, inside⟩, -⟩
  rcases free.firstStart_bounds with ⟨goesOn, -⟩
  have later : pageUnits * pfn + object.start > pageUnits * pfn + firstStart rest pageUnits ↔
      firstStart rest pageUnits < object.start := by omega
  simp only [insertionPoint, slobNext_node encodes.1 positive inside goesOn, later]

/-- The walk ends at the last free block in front of the object. -/
theorem insertionPoint_spec (positive : 0 < object.size) (inside : object.stop ≤ pageUnits)
    (rest : List Segment) : ∀ (fuel : Nat) (first : Segment), rest.length < fuel →
    Encodes mem (pageUnits * pfn) (first :: rest) pageUnits → FreeList (first :: rest) →
    Apart object (first :: rest) → first.start ≤ object.start →
    ∃ before prev after, first :: rest = before ++ prev :: after ∧
      insertionPoint mem (pageUnits * pfn + object.start) fuel (pageUnits * pfn + first.start) =
        some (pageUnits * pfn + prev.start) ∧
      prev.stop ≤ object.start ∧ ∀ next ∈ after, object.stop ≤ next.start := by
  induction rest with
  | nil =>
      intro fuel first enough encodes free apart order
      rcases Nat.exists_eq_add_one_of_ne_zero (Nat.ne_of_gt enough) with ⟨fuel, rfl⟩
      have here := apart first List.mem_cons_self
      refine ⟨[], first, [], rfl, ?_, ?_, by simp⟩
      · have last : firstStart [] pageUnits = pageUnits := rfl
        rw [insertionPoint_round fuel encodes free, last, if_neg]
        unfold stop at *
        omega
      · unfold stop at *
        omega
  | cons next rest induction =>
      intro fuel first enough encodes free apart order
      rcases Nat.exists_eq_add_one_of_ne_zero (Nat.ne_of_gt (Nat.zero_lt_of_lt enough)) with
        ⟨fuel, rfl⟩
      have here := apart first List.mem_cons_self
      have there := apart next (by simp)
      rw [insertionPoint_round fuel encodes free]
      split
      · next behind =>
          have onward : next.start < object.start := behind
          rcases induction fuel next (by simp only [List.length_cons] at enough; omega) encodes.2
            free.tail (fun block member => apart block (List.mem_cons_of_mem _ member)) onward.le
            with ⟨before, prev, after, split, found, order', behind'⟩
          exact ⟨first :: before, prev, after, by rw [List.cons_append, split], found, order',
            behind'⟩
      · next notBehind =>
          have ahead : object.start ≤ next.start := Nat.le_of_not_lt notBehind
          have nextPositive := free.onPage.positive next (by simp)
          have nextBehind : object.stop ≤ next.start := by
            unfold stop at *
            omega
          refine ⟨[], first, next :: rest, rfl, rfl, ?_, fun other member => ?_⟩
          · unfold stop at *
            omega
          · rcases List.mem_cons.mp member with rfl | later
            · exact nextBehind
            · have further := (Separated.cons.mp free.tail.separated).1 other later
              unfold stop at *
              omega

/-- Memory in which a page has these free blocks. What is in front of a unit of the
page, and all other pages, are as they were. -/
structure Writes (mem mem' : Nat → Int) (pfn start : Nat) (blocks : List Segment) : Prop where
  encodes : Encodes mem' (pageUnits * pfn) blocks pageUnits
  inFront : ∀ address, address < pageUnits * pfn + start → mem' address = mem address
  elsewhere : ∀ address, virtToPage address ≠ pfn → mem' address = mem address

theorem writes_block {before rest : List Segment} {piece : Segment}
    (beforeEncodes : Encodes mem (pageUnits * pfn) before piece.start)
    (restEncodes : Encodes mem (pageUnits * pfn) rest pageUnits)
    (free : FreeList (before ++ piece :: rest)) :
    Writes mem (setSlob mem (pageUnits * pfn + piece.start) piece.size
      (pageUnits * pfn + firstStart rest pageUnits)) pfn piece.start (before ++ piece :: rest) := by
  rcases OnPage.append.mp free.onPage with ⟨onBefore, onRest⟩
  rcases OnPage.cons.mp onRest with ⟨⟨positive, inside⟩, onAfter⟩
  rcases Separated.append.mp free.separated with ⟨-, separated, across⟩
  constructor
  · refine encodes_append.mpr ⟨?_, setSlob_node positive inside, ?_⟩
    · apply beforeEncodes.write_behind _ onBefore (by omega)
      intro first member
      have early := across first member piece List.mem_cons_self
      omega
    · apply restEncodes.write_front _ onAfter (by omega)
      intro second member
      have late := (Separated.cons.mp separated).1 second member
      unfold stop at late
      omega
  · intro address early
    exact setSlob_outside _ (.inl early) (by omega)
  · intro address away
    apply setSlob_outside _ _ (by omega)
    unfold stop virtToPage pageUnits at *
    omega

theorem tiles_give {blocks blocks' taken : List Segment}
    (tiles : Tiles pageUnits (blocks ++ object :: taken)) (onPage : OnPage blocks')
    (same : ∀ unit, cover blocks' unit = cover (blocks ++ [object]) unit) :
    Tiles pageUnits (blocks' ++ taken) ∧ totalSize blocks' = totalSize blocks + object.size := by
  have old : ∀ segment ∈ taken, segment ∈ blocks ++ object :: taken := fun segment member =>
    List.mem_append_right _ (List.mem_cons_of_mem _ member)
  have tiles' : Tiles pageUnits (blocks' ++ taken) := by
    constructor
    · intro segment member
      rcases List.mem_append.mp member with free | held
      · exact onPage.positive segment free
      · exact tiles.positive segment (old segment held)
    · intro segment member
      rcases List.mem_append.mp member with free | held
      · exact onPage.inside segment free
      · exact tiles.inside segment (old segment held)
    · intro unit bound
      rw [← tiles.once unit bound, cover_append, same, ← cover_append, List.append_assoc]
      rfl
  have whole := tiles.totalSize
  have whole' := tiles'.totalSize
  rw [totalSize_append] at whole whole'
  rw [totalSize_cons] at whole
  exact ⟨tiles', by omega⟩

theorem FreeList.joinRight {after : List Segment} (free : FreeList after)
    (positive : 0 < object.size) (inside : object.stop ≤ pageUnits)
    (behind : ∀ next ∈ after, object.stop ≤ next.start) : FreeList (joinRight object after) :=
  ⟨(OnPage.cons.mpr ⟨⟨positive, inside⟩, free.onPage⟩).joinRight,
    free.separated.joinRight behind free.onPage.positive⟩

theorem writes_joinRight {after : List Segment}
    (encodes : Encodes mem (pageUnits * pfn) after pageUnits) (free : FreeList after)
    (positive : 0 < object.size) (inside : object.stop ≤ pageUnits)
    (behind : ∀ next ∈ after, object.stop ≤ next.start) :
    Writes mem (if after ≠ [] ∧ object.stop = firstStart after pageUnits then
        setSlob mem (pageUnits * pfn + object.start)
          (object.size + slobUnits mem (pageUnits * pfn + firstStart after pageUnits))
          (slobNext mem (pageUnits * pfn + firstStart after pageUnits))
      else setSlob mem (pageUnits * pfn + object.start) object.size
        (pageUnits * pfn + firstStart after pageUnits)) pfn object.start
      (Segment.joinRight object after) := by
  have joined := free.joinRight positive inside behind
  cases after with
  | nil =>
      rw [if_neg (by simp)]
      exact @writes_block mem pfn [] [] object trivial trivial joined
  | cons next rest =>
      rcases OnPage.cons.mp free.onPage with ⟨⟨nextPositive, nextInside⟩, -⟩
      rcases free.firstStart_bounds with ⟨goesOn, -⟩
      simp only [Segment.joinRight, firstStart, ne_eq, reduceCtorEq, not_false_eq_true,
        true_and] at joined ⊢
      by_cases touches : object.stop = next.start
      · rw [if_pos touches] at joined
        rw [if_pos touches, if_pos touches, slobUnits_node encodes.1 nextPositive goesOn,
          slobNext_node encodes.1 nextPositive nextInside goesOn]
        have written := @writes_block mem pfn [] rest ⟨object.start, object.size + next.size⟩
          trivial encodes.2 joined
        simp only [Nat.cast_add, List.nil_append] at written
        exact written
      · rw [if_neg touches] at joined
        rw [if_neg touches, if_neg touches]
        exact @writes_block mem pfn [] (next :: rest) object trivial encodes joined

theorem FreeList.joinLeft {before after segments : List Segment} {prev : Segment}
    (free : FreeList (before ++ prev :: after)) (segmentsFree : FreeList segments)
    (behind : ∀ next ∈ segments, prev.stop ≤ next.start) :
    FreeList (joinLeft before prev segments) := by
  rcases OnPage.append.mp free.onPage with ⟨onBefore, onRest⟩
  rcases Separated.append.mp free.separated with ⟨beforeSeparated, -, across⟩
  have prevOnPage := (OnPage.cons.mp onRest).1
  have early : ∀ first ∈ before, first.stop < prev.start := fun first member =>
    across first member prev List.mem_cons_self
  constructor
  · apply OnPage.joinLeft
    exact OnPage.append.mpr ⟨onBefore, OnPage.cons.mpr ⟨prevOnPage, segmentsFree.onPage⟩⟩
  · apply Separated.joinLeft _ segmentsFree.separated _ behind segmentsFree.onPage.positive
    · refine Separated.append.mpr ⟨beforeSeparated, List.pairwise_singleton _ _, ?_⟩
      intro first member second single
      rw [List.mem_singleton.mp single]
      exact early first member
    · intro first member next later
      have apart := early first member
      have apart' := behind next later
      unfold stop at *
      omega

theorem encodes_upTo {mem' : Nat → Int} {before after : List Segment} {prev : Segment} {start : Nat}
    (encodes : Encodes mem (pageUnits * pfn) (before ++ prev :: after) pageUnits)
    (free : FreeList (before ++ prev :: after)) (order : prev.stop ≤ start)
    (inFront : ∀ address, address < pageUnits * pfn + start → mem' address = mem address) :
    Encodes mem' (pageUnits * pfn) (before ++ [prev]) (firstStart after pageUnits) := by
  rcases encodes_append.mp encodes with ⟨beforeEncodes, prevNode, -⟩
  have old : Encodes mem (pageUnits * pfn) (before ++ [prev]) (firstStart after pageUnits) :=
    encodes_append.mpr ⟨beforeEncodes, prevNode, trivial⟩
  have onFront : OnPage (before ++ [prev]) := by
    have onPage := free.onPage
    rw [List.append_cons] at onPage
    exact (OnPage.append.mp onPage).1
  apply old.frame onFront.positive
  intro segment member unit covers
  have early : segment.stop ≤ prev.stop := by
    rcases List.mem_append.mp member with earlier | here
    · have apart := (Separated.append.mp free.separated).2.2 segment earlier prev
        List.mem_cons_self
      unfold stop at *
      omega
    · rw [List.mem_singleton.mp here]
  apply inFront
  unfold Covers at covers
  omega

theorem writes_joinLeft {before rest : List Segment} {prev piece : Segment} {next : Nat}
    (prevEncodes : Encodes mem (pageUnits * pfn) (before ++ [prev]) next) (goesOn : 0 < next)
    (encodes : Encodes mem (pageUnits * pfn) (piece :: rest) pageUnits)
    (pieceFree : FreeList (piece :: rest)) (positive : 0 < prev.size)
    (free : FreeList (Segment.joinLeft before prev (piece :: rest))) :
    Writes mem (if prev.stop = piece.start then
        setSlob mem (pageUnits * pfn + prev.start)
          (slobUnits mem (pageUnits * pfn + piece.start) +
            slobUnits mem (pageUnits * pfn + prev.start))
          (slobNext mem (pageUnits * pfn + piece.start))
      else setSlob mem (pageUnits * pfn + prev.start)
        (slobUnits mem (pageUnits * pfn + prev.start)) (pageUnits * pfn + piece.start)) pfn prev.start
      (Segment.joinLeft before prev (piece :: rest)) := by
  rcases encodes_append.mp prevEncodes with ⟨beforeEncodes, prevNode⟩
  rcases OnPage.cons.mp pieceFree.onPage with ⟨⟨piecePositive, pieceInside⟩, -⟩
  rcases pieceFree.firstStart_bounds with ⟨restGoesOn, -⟩
  have prevUnits := slobUnits_node prevNode.1 positive goesOn
  simp only [Segment.joinLeft] at free ⊢
  by_cases touches : prev.stop = piece.start
  · rw [if_pos touches] at free
    rw [if_pos touches, if_pos touches, prevUnits,
      slobUnits_node encodes.1 piecePositive restGoesOn,
      slobNext_node encodes.1 piecePositive pieceInside restGoesOn]
    have written := @writes_block mem pfn before rest ⟨prev.start, prev.size + piece.size⟩
      beforeEncodes encodes.2 free
    rw [Nat.cast_add, add_comm (prev.size : Int)] at written
    exact written
  · rw [if_neg touches] at free
    rw [if_neg touches, if_neg touches, prevUnits]
    exact writes_block beforeEncodes encodes free

end

section

variable {heap : Heap} {pfn : Nat} {list : SizeClass} {blocks taken : List Segment}
  {object : Segment}

theorem PageLayout.given {mem : Nat → Int} {blocks' : List Segment}
    (layout : PageLayout heap pfn list blocks (object :: taken)) (hasFree : blocks ≠ [])
    (encodes : Encodes mem (pageUnits * pfn) blocks' pageUnits) (free : FreeList blocks')
    (same : ∀ unit, cover blocks' unit = cover (blocks ++ [object]) unit) :
    PageLayout (heap.rewrite pfn mem (pageUnits * pfn + firstStart blocks' pageUnits)
      ((heap.page pfn).units + object.size)) pfn list blocks' taken := by
  rcases tiles_give layout.tiles free.onPage same with ⟨tiles, total⟩
  have positive : 0 < object.size := layout.tiles.positive object (by simp)
  have hasFree' : blocks' ≠ [] := by
    intro empty
    rw [empty, totalSize_nil] at total
    omega
  constructor
  · exact encodes
  · exact free
  · simp [Heap.rewrite]
  · simp only [Heap.rewrite, Function.update_self, layout.units, total]
    omega
  · exact tiles
  · simp [Heap.rewrite, layout.slobFree, hasFree, hasFree']
  · intro other
    have listed := layout.listed other
    simpa [Heap.rewrite, hasFree, hasFree'] using listed

theorem firstStart_joinRight (segments : List Segment) (stop : Nat) :
    firstStart (joinRight object segments) stop = object.start := by
  rcases joinRight_head object segments with ⟨size, rest, joined, -⟩
  rw [joined]
  rfl

theorem firstStart_joinLeft (before after segments : List Segment) (prev : Segment) (stop : Nat) :
    firstStart (joinLeft before prev segments) stop =
      firstStart (before ++ prev :: after) stop := by
  cases segments with
  | nil => cases before <;> rfl
  | cons next rest =>
      simp only [joinLeft]
      split <;> cases before <;> rfl

theorem PageLayout.reinsert_front {first : Segment} {rest : List Segment}
    (layout : PageLayout heap pfn list (first :: rest) (object :: taken))
    (order : object.start < first.start) :
    ∃ mem blocks', Slob.reinsert heap pfn (pageUnits * pfn + object.start) object.size =
        some (heap.rewrite pfn mem (pageUnits * pfn + firstStart blocks' pageUnits)
          ((heap.page pfn).units + object.size)) ∧
      PageLayout (heap.rewrite pfn mem (pageUnits * pfn + firstStart blocks' pageUnits)
        ((heap.page pfn).units + object.size)) pfn list blocks' taken ∧
      ∀ address, virtToPage address ≠ pfn → mem address = heap.mem address := by
  have positive : 0 < object.size := layout.tiles.positive object (by simp)
  have inside : object.stop ≤ pageUnits := layout.tiles.inside object (by simp)
  have head : (heap.page pfn).freelist = pageUnits * pfn + first.start := layout.head
  have firstPositive := layout.free.onPage.positive first List.mem_cons_self
  have firstBehind : object.stop ≤ first.start := by
    rcases @Tiles.apart _ _ _ layout.tiles first object (by simp) (by simp) with before | behind
    · unfold stop at before
      omega
    · exact behind
  have behind : ∀ next ∈ first :: rest, object.stop ≤ next.start := by
    intro next member
    rcases List.mem_cons.mp member with rfl | later
    · exact firstBehind
    · have further := (Separated.cons.mp layout.free.separated).1 next later
      unfold stop at *
      omega
  have touches : pageUnits * pfn + object.start + object.size = pageUnits * pfn + first.start ↔
      object.stop = first.start := by
    unfold stop
    omega
  have written := writes_joinRight layout.encodes layout.free positive inside behind
  simp only [firstStart, ne_eq, reduceCtorEq, not_false_eq_true, true_and] at written
  refine ⟨_, joinRight object (first :: rest), ?_, layout.given (by simp) written.encodes
    (layout.free.joinRight positive inside behind) fun unit => ?_, written.elsewhere⟩
  · have front : pageUnits * pfn + object.start < pageUnits * pfn + first.start := by omega
    unfold Slob.reinsert
    simp only [head, front, if_true, firstStart_joinRight, touches]
    by_cases joins : object.stop = first.start
    · simp [joins, Heap.rewrite, Heap.setPage]
    · simp [joins, Heap.rewrite, Heap.setPage]
  · rw [cover_joinRight, cover_cons, cover_append, add_comm]

theorem PageLayout.reinsert_behind {before after : List Segment} {prev : Segment}
    (layout : PageLayout heap pfn list (before ++ prev :: after) (object :: taken))
    (order : prev.stop ≤ object.start) (behind : ∀ next ∈ after, object.stop ≤ next.start)
    (notFront : ¬pageUnits * pfn + object.start < (heap.page pfn).freelist)
    (found : insertionPoint heap.mem (pageUnits * pfn + object.start) pageUnits
      (heap.page pfn).freelist = some (pageUnits * pfn + prev.start)) :
    ∃ mem blocks', Slob.reinsert heap pfn (pageUnits * pfn + object.start) object.size =
        some (heap.rewrite pfn mem (pageUnits * pfn + firstStart blocks' pageUnits)
          ((heap.page pfn).units + object.size)) ∧
      PageLayout (heap.rewrite pfn mem (pageUnits * pfn + firstStart blocks' pageUnits)
        ((heap.page pfn).units + object.size)) pfn list blocks' taken ∧
      ∀ address, virtToPage address ≠ pfn → mem address = heap.mem address := by
  have positive : 0 < object.size := layout.tiles.positive object (by simp)
  have inside : object.stop ≤ pageUnits := layout.tiles.inside object (by simp)
  rcases encodes_append.mp layout.encodes with ⟨-, prevNode, afterEncodes⟩
  rcases Separated.append.mp layout.free.separated with ⟨-, separated, -⟩
  rcases OnPage.append.mp layout.free.onPage with ⟨-, onRest⟩
  have restFree : FreeList (prev :: after) := ⟨onRest, separated⟩
  rcases OnPage.cons.mp onRest with ⟨⟨prevPositive, prevInside⟩, -⟩
  rcases restFree.firstStart_bounds with ⟨goesOn, -, bounded, atEnd⟩
  have written := writes_joinRight afterEncodes restFree.tail positive inside behind
  have joinedFree := restFree.tail.joinRight positive inside behind
  rcases joinRight_head object after with ⟨size, rest, joined, -⟩
  have leftFree := layout.free.joinLeft joinedFree fun next member => by
    rw [joined] at member joinedFree
    rcases List.mem_cons.mp member with rfl | later
    · exact order
    · have further := (Separated.cons.mp joinedFree.separated).1 next later
      simp only [stop] at *
      omega
  -- the memory once the object's units are a free block
  generalize second : (if after ≠ [] ∧ object.stop = firstStart after pageUnits then
      setSlob heap.mem (pageUnits * pfn + object.start)
        (object.size + slobUnits heap.mem (pageUnits * pfn + firstStart after pageUnits))
        (slobNext heap.mem (pageUnits * pfn + firstStart after pageUnits))
    else setSlob heap.mem (pageUnits * pfn + object.start) object.size
      (pageUnits * pfn + firstStart after pageUnits)) = mem at written
  have prevEncodes := encodes_upTo layout.encodes layout.free order written.inFront
  have covers (unit : Nat) : cover (joinLeft before prev (joinRight object after)) unit =
      cover (before ++ prev :: after ++ [object]) unit := by
    rw [cover_joinLeft, cover_append, cover_cons, cover_joinRight, cover_cons object, cover_append,
      cover_append, cover_cons prev after]
    omega
  rw [joined] at written joinedFree leftFree covers
  have linked := writes_joinLeft prevEncodes goesOn written.encodes joinedFree prevPositive leftFree
  refine ⟨_, _, ?_, layout.given (by simp) linked.encodes leftFree covers, fun address away =>
    (linked.elsewhere address away).trans (written.elsewhere address away)⟩
  have next := slobNext_node prevNode prevPositive prevInside goesOn
  have last := slobLast_node prevNode prevPositive prevInside goesOn bounded
  have touches : (!slobLast heap.mem (pageUnits * pfn + prev.start) &&
      pageUnits * pfn + object.start + object.size == pageUnits * pfn + firstStart after pageUnits) =
      decide (after ≠ [] ∧ object.stop = firstStart after pageUnits) := by
    rw [last, Bool.eq_iff_iff, Bool.and_eq_true_iff, Bool.not_eq_true', beq_eq_false_iff_ne,
      beq_iff_eq, decide_eq_true_iff, ne_eq, ne_eq, atEnd]
    unfold stop
    exact and_congr_right fun _ => by omega
  have prevTouches : ((pageUnits * pfn + prev.start : Nat) : Int) +
      slobUnits mem (pageUnits * pfn + prev.start) = (pageUnits * pfn + object.start : Nat) ↔
      prev.stop = object.start := by
    rw [slobUnits_node (encodes_append.mp prevEncodes).2.1 prevPositive goesOn]
    unfold stop
    omega
  unfold Slob.reinsert
  have start := firstStart_joinLeft before after (⟨object.start, size⟩ :: rest) prev pageUnits
  simp only [notFront, if_false, Heap.setPage, found, Option.bind_eq_bind, Option.bind_some, touches,
    next, decide_eq_true_eq]
  rw [second]
  simp only [prevTouches, start, ← layout.head]
  rfl

theorem PageLayout.reinsert
    (layout : PageLayout heap pfn list blocks (object :: taken)) (hasFree : blocks ≠ []) :
    ∃ mem blocks', Slob.reinsert heap pfn (pageUnits * pfn + object.start) object.size =
        some (heap.rewrite pfn mem (pageUnits * pfn + firstStart blocks' pageUnits)
          ((heap.page pfn).units + object.size)) ∧
      PageLayout (heap.rewrite pfn mem (pageUnits * pfn + firstStart blocks' pageUnits)
        ((heap.page pfn).units + object.size)) pfn list blocks' taken ∧
      ∀ address, virtToPage address ≠ pfn → mem address = heap.mem address := by
  have enough := layout.length_le
  cases blocks with
  | nil => exact absurd rfl hasFree
  | cons first rest =>
      have head : (heap.page pfn).freelist = pageUnits * pfn + first.start := layout.head
      rcases Nat.lt_or_ge object.start first.start with front | notFront
      · exact layout.reinsert_front front
      · have apart : Apart object (first :: rest) := fun block member =>
          layout.tiles.apart member List.mem_cons_self
        rcases insertionPoint_spec (layout.tiles.positive object (by simp))
          (layout.tiles.inside object (by simp)) rest pageUnits first
          (by simp only [List.length_cons] at enough; omega) layout.encodes layout.free apart
          notFront with ⟨before, prev, after, split, found, order, behind⟩
        rw [split] at layout
        rw [← head] at found
        exact layout.reinsert_behind order behind (by omega) found

end

end CE321.Slob
