import CE321.Slob.Search

/-! # Cutting an object from a free block

What `slob_page_alloc` makes of the free list: the block that the search picked is
replaced by what the object leaves of it, in front of it and behind it.
-/

namespace CE321.Slob

open Segment

/-- The heap with another memory, and another head and count of free units on a page. -/
def Heap.rewrite (heap : Heap) (pfn : Nat) (mem : Nat → Int) (freelist : Nat) (units : Int) :
    Heap :=
  { heap with
    mem := mem
    page := Function.update heap.page pfn
      { heap.page pfn with freelist := freelist, units := units } }

theorem FreeList.cut {before after : List Segment} {segment : Segment} {gap units : Nat}
    (free : FreeList (before ++ segment :: after)) (positive : 0 < units)
    (fits : gap + units ≤ segment.size) :
    FreeList (before ++ (leftover segment gap units ++ after)) := by
  rcases OnPage.append.mp free.onPage with ⟨onBefore, rest⟩
  rcases OnPage.cons.mp rest with ⟨⟨-, inside⟩, onAfter⟩
  constructor
  · apply OnPage.append.mpr ⟨onBefore, OnPage.append.mpr ⟨?_, onAfter⟩⟩
    constructor
    · exact fun piece member => (mem_leftover member fits).1
    · exact fun piece member => (mem_leftover member fits).2.2.1.trans inside
  · apply free.separated.replace (separated_leftover positive)
    exact fun piece member =>
      ⟨(mem_leftover member fits).2.1, (mem_leftover member fits).2.2.1⟩

section

variable {heap : Heap} {pfn : Nat}

/-- Units of a page that none of the segments holds. -/
def Outside (pfn : Nat) (segments : List Segment) (address : Nat) : Prop :=
  ∀ segment ∈ segments, address < pageUnits * pfn + segment.start ∨
    pageUnits * pfn + segment.stop ≤ address

theorem relink_spec {before : List Segment} {stop : Nat} (next : Nat)
    (encodes : Encodes heap.mem (pageUnits * pfn) before stop) (free : FreeList before)
    (goesOn : ∀ first ∈ before, first.stop ≤ stop) :
    ∃ mem, relink heap pfn (previousBlock pfn before none) (pageUnits * pfn + next) =
        heap.rewrite pfn mem
          (if before = [] then pageUnits * pfn + next else (heap.page pfn).freelist)
          (heap.page pfn).units ∧
      Encodes mem (pageUnits * pfn) before next ∧
      ∀ address, Outside pfn before address → mem address = heap.mem address := by
  rcases List.eq_nil_or_concat before with rfl | ⟨front, last, rfl⟩
  · exact ⟨heap.mem, rfl, trivial, fun _ _ => rfl⟩
  · rw [List.concat_eq_append] at *
    rcases encodes_append.mp encodes with ⟨frontEncodes, lastEncodes⟩
    rcases OnPage.append.mp free.onPage with ⟨onFront, onLast⟩
    rcases OnPage.cons.mp onLast with ⟨⟨positive, inside⟩, -⟩
    have stopPositive : 0 < stop := by
      have bound := goesOn last (List.mem_append_right _ (List.mem_singleton_self _))
      unfold Segment.stop at bound
      omega
    have size := slobUnits_node lastEncodes.1 positive stopPositive
    have prev : previousBlock pfn (front ++ [last]) none = some (pageUnits * pfn + last.start) := by
      simp [previousBlock]
    refine ⟨setSlob heap.mem (pageUnits * pfn + last.start) last.size (pageUnits * pfn + next),
      ?_, ?_, ?_⟩
    · rw [prev]
      simp only [relink, size, Heap.rewrite, List.append_eq_nil_iff, List.cons_ne_self, and_false,
        if_false, Function.update_eq_self]
    · have lastEncoded : Encodes (setSlob heap.mem (pageUnits * pfn + last.start) last.size
          (pageUnits * pfn + next)) (pageUnits * pfn) [last] next :=
        ⟨setSlob_node positive inside, trivial⟩
      apply encodes_append.mpr ⟨?_, lastEncoded⟩
      apply frontEncodes.write_behind _ onFront (by omega)
      intro segment member
      have apart := (Separated.append.mp free.separated).2.2 segment member last
        (List.mem_singleton_self _)
      omega
    · intro address outside
      apply setSlob_outside _ _ (by omega)
      rcases outside last (by simp) with early | late
      · exact .inl early
      · unfold Segment.stop at late
        right
        omega

theorem outside_before {before : List Segment} {start : Nat}
    (behind : ∀ first ∈ before, first.stop ≤ start) {unit : Nat} (late : start ≤ unit) :
    Outside pfn before (pageUnits * pfn + unit) := by
  intro first member
  have early := behind first member
  omega

/-- The blocks behind another one stay as they are if those in front are linked to them. -/
theorem encodes_behind {before after : List Segment} {segment : Segment} {mem : Nat → Int}
    (encodes : Encodes heap.mem (pageUnits * pfn) after pageUnits)
    (free : FreeList (segment :: after)) (behind : ∀ first ∈ before, first.stop ≤ segment.start)
    (same : ∀ address, Outside pfn before address → mem address = heap.mem address) :
    Encodes mem (pageUnits * pfn) after pageUnits := by
  apply encodes.frame (OnPage.cons.mp free.onPage).2.positive
  intro second member unit covers
  have late := (Separated.cons.mp free.separated).1 second member
  unfold Covers stop at *
  exact same _ (outside_before behind (by omega))

/-- What taking the front of a free block does to the list and to the memory, and the word that
stays at the front. -/
def FrontTaken (heap : Heap) (pfn : Nat) (before after : List Segment) (segment : Segment)
    (units : Nat) : Prop :=
  ∃ mem, takeFront heap pfn units (previousBlock pfn before none)
      (pageUnits * pfn + segment.start) =
        heap.rewrite pfn mem
          (if before = [] then pageUnits * pfn + firstStart (leftover segment 0 units ++ after)
            pageUnits else (heap.page pfn).freelist)
          (heap.page pfn).units ∧
    Encodes mem (pageUnits * pfn) (before ++ (leftover segment 0 units ++ after)) pageUnits ∧
    (∀ address, Outside pfn (before ++ [segment]) address → mem address = heap.mem address) ∧
    slobUnits mem (pageUnits * pfn + segment.start) = segment.size

theorem takeFront_whole {before after : List Segment} {segment : Segment} {units : Nat}
    (encodes : Encodes heap.mem (pageUnits * pfn) (before ++ segment :: after) pageUnits)
    (freeBefore : FreeList before) (free : FreeList (segment :: after))
    (behind : ∀ first ∈ before, first.stop ≤ segment.start) (exact : segment.size = units) :
    FrontTaken heap pfn before after segment units := by
  rcases encodes_append.mp encodes with ⟨beforeEncodes, here, afterEncodes⟩
  rcases OnPage.cons.mp free.onPage with ⟨⟨sizePositive, inside⟩, -⟩
  rcases free.firstStart_bounds with ⟨goesOn, -, -, -⟩
  have size := slobUnits_node here sizePositive goesOn
  have follow := slobNext_node here sizePositive inside goesOn
  rcases @relink_spec heap pfn before _ (firstStart after pageUnits) beforeEncodes freeBefore
    behind with ⟨mem, linked, encoded, same⟩
  have nothing : leftover segment 0 units = [] := by simp [leftover, exact]
  refine ⟨mem, ?_, ?_, ?_, ?_⟩
  · unfold takeFront
    simp only [size, follow]
    rw [if_pos (by omega), linked, nothing, List.nil_append]
  · rw [nothing, List.nil_append]
    exact encodes_append.mpr ⟨encoded, encodes_behind afterEncodes free behind same⟩
  · intro address away
    exact same address fun first member => away first (List.mem_append_left _ member)
  · rw [slobUnits, same _ (outside_before behind le_rfl)]
    exact size

theorem takeFront_part {before after : List Segment} {segment : Segment} {units : Nat}
    (encodes : Encodes heap.mem (pageUnits * pfn) (before ++ segment :: after) pageUnits)
    (freeBefore : FreeList before) (free : FreeList (segment :: after))
    (behind : ∀ first ∈ before, first.stop ≤ segment.start) (positive : 0 < units)
    (fits : units < segment.size) : FrontTaken heap pfn before after segment units := by
  rcases encodes_append.mp encodes with ⟨beforeEncodes, here, afterEncodes⟩
  rcases OnPage.cons.mp free.onPage with ⟨⟨sizePositive, inside⟩, onAfter⟩
  rcases free.firstStart_bounds with ⟨goesOn, -, -, -⟩
  have size := slobUnits_node here sizePositive goesOn
  have follow := slobNext_node here sizePositive inside goesOn
  rcases @relink_spec heap pfn before _ (segment.start + units) beforeEncodes freeBefore
    behind with ⟨mem, linked, encoded, same⟩
  have rest : leftover segment 0 units = [⟨segment.start + units, segment.size - units⟩] := by
    simp [leftover, fits.ne]
  have target : ((segment.size : Int) - units) = (segment.size - units : Nat) := by omega
  have tailNode : Node (setSlob mem (pageUnits * pfn + (segment.start + units))
      ((segment.size - units : Nat) : Int) (pageUnits * pfn + firstStart after pageUnits))
      (pageUnits * pfn) ⟨segment.start + units, segment.size - units⟩
      (firstStart after pageUnits) := by
    apply setSlob_node
    · simp only
      omega
    · simp only [stop] at inside ⊢
      omega
  refine ⟨setSlob mem (pageUnits * pfn + (segment.start + units)) (segment.size - units : Nat)
    (pageUnits * pfn + firstStart after pageUnits), ?_, ?_, ?_, ?_⟩
  · unfold takeFront
    simp only [size, follow]
    rw [if_neg (by omega), Nat.add_assoc, linked, rest, target]
    rfl
  · rw [rest]
    refine encodes_append.mpr ⟨?_, tailNode, ?_⟩
    · apply encoded.write_behind _ freeBefore.onPage (by omega)
      intro first member
      have early := behind first member
      omega
    · apply (encodes_behind afterEncodes free behind same).write_front _ onAfter (by omega)
      intro second member
      have late := (Separated.cons.mp free.separated).1 second member
      unfold stop at late
      omega
  · intro address away
    rw [setSlob_outside]
    · exact same address fun first member => away first (List.mem_append_left _ member)
    · have apart := away segment (List.mem_append_right _ (List.mem_singleton_self _))
      unfold stop at apart
      omega
    · omega
  · have kept : setSlob mem (pageUnits * pfn + (segment.start + units))
        ((segment.size - units : Nat) : Int) (pageUnits * pfn + firstStart after pageUnits)
        (pageUnits * pfn + segment.start) = heap.mem (pageUnits * pfn + segment.start) := by
      rw [setSlob_outside _ (by omega) (by omega)]
      exact same _ (outside_before behind le_rfl)
    rw [slobUnits, kept]
    exact size

theorem takeFront_spec {before after : List Segment} {segment : Segment} {units : Nat}
    (encodes : Encodes heap.mem (pageUnits * pfn) (before ++ segment :: after) pageUnits)
    (freeBefore : FreeList before) (free : FreeList (segment :: after))
    (behind : ∀ first ∈ before, first.stop ≤ segment.start)
    (positive : 0 < units) (fits : units ≤ segment.size) :
    FrontTaken heap pfn before after segment units := by
  rcases Nat.lt_or_eq_of_le fits with less | exact
  · exact takeFront_part encodes freeBefore free behind positive less
  · exact takeFront_whole encodes freeBefore free behind exact.symm

theorem fragmentHead_spec {mem : Nat → Int} {before after : List Segment} {segment : Segment}
    {gap : Nat}
    (encodes : Encodes mem (pageUnits * pfn) (before ++ segment :: after) pageUnits)
    (free : FreeList (before ++ segment :: after)) (gapPositive : 0 < gap)
    (fits : gap < segment.size) :
    Encodes (fragmentHead mem (pageUnits * pfn + segment.start) gap) (pageUnits * pfn)
      (before ++ ⟨segment.start, gap⟩ :: ⟨segment.start + gap, segment.size - gap⟩ :: after)
      pageUnits ∧
    ∀ address, Outside pfn [segment] address →
      fragmentHead mem (pageUnits * pfn + segment.start) gap address = mem address := by
  rcases encodes_append.mp encodes with ⟨beforeEncodes, here, afterEncodes⟩
  rcases Separated.append.mp free.separated with ⟨-, separated, across⟩
  rcases OnPage.append.mp free.onPage with ⟨onBefore, onRest⟩
  have restFree : FreeList (segment :: after) := ⟨onRest, separated⟩
  rcases OnPage.cons.mp onRest with ⟨⟨positive, inside⟩, onAfter⟩
  rcases restFree.firstStart_bounds with ⟨goesOn, -, -, -⟩
  have afterBehind := (Separated.cons.mp separated).1
  have room : ((segment.size : Int) - gap) = (segment.size - gap : Nat) := by omega
  unfold fragmentHead
  simp only [slobUnits_node here positive goesOn, slobNext_node here positive inside goesOn, room,
    Nat.add_assoc]
  generalize written : setSlob mem (pageUnits * pfn + (segment.start + gap))
    ((segment.size - gap : Nat) : Int) (pageUnits * pfn + firstStart after pageUnits) = mem'
  have tailNode : Node mem' (pageUnits * pfn) ⟨segment.start + gap, segment.size - gap⟩
      (firstStart after pageUnits) := by
    rw [← written]
    apply setSlob_node
    · simp only
      omega
    · simp only [stop] at inside ⊢
      omega
  have same : ∀ address, Outside pfn [segment] address → mem' address = mem address := by
    intro address away
    have apart := away segment (List.mem_singleton_self _)
    unfold stop at apart
    rw [← written, setSlob_outside _ (by omega) (by omega)]
  have same' : ∀ address, Outside pfn [segment] address →
      setSlob mem' (pageUnits * pfn + segment.start) gap
        (pageUnits * pfn + (segment.start + gap)) address = mem address := by
    intro address away
    have apart := away segment (List.mem_singleton_self _)
    unfold stop at apart
    rw [setSlob_outside _ (by omega) (by omega), same address away]
  refine ⟨encodes_append.mpr ⟨?_, ?_, ?_, ?_⟩, same'⟩
  · apply beforeEncodes.frame onBefore.positive
    intro first member unit covers
    apply same'
    intro second single
    have early := across first member segment List.mem_cons_self
    rw [List.mem_singleton.mp single]
    unfold Covers at covers
    omega
  · apply setSlob_node gapPositive
    simp only [stop] at inside ⊢
    omega
  · apply tailNode.frame (by simp only; omega)
    intro unit covers
    rw [setSlob_outside _ (by unfold Covers at covers; simp only at covers; omega) (by omega)]
  · apply afterEncodes.frame onAfter.positive
    intro second member unit covers
    apply same'
    intro other single
    have late := afterBehind second member
    rw [List.mem_singleton.mp single]
    unfold Covers at covers
    omega

theorem firstStart_before (before left right : List Segment) (stop : Nat) :
    (if before = [] then firstStart left stop else firstStart (before ++ right) stop) =
      firstStart (before ++ left) stop := by
  cases before <;> rfl

theorem rewrite_setPage (mem : Nat → Int) (freelist : Nat) (units units' : Int) :
    (heap.rewrite pfn mem freelist units).setPage pfn
      { (heap.rewrite pfn mem freelist units).page pfn with units := units' } =
      heap.rewrite pfn mem freelist units' := by
  simp [Heap.rewrite, Heap.setPage]

theorem FreeList.fragment {before after : List Segment} {segment : Segment} {gap : Nat}
    (free : FreeList (before ++ segment :: after)) (gapPositive : 0 < gap)
    (fits : gap < segment.size) :
    FreeList (before ++ [⟨segment.start, gap⟩]) ∧
      FreeList (⟨segment.start + gap, segment.size - gap⟩ :: after) ∧
      ∀ first ∈ before ++ [⟨segment.start, gap⟩], first.stop ≤ segment.start + gap := by
  rcases Separated.append.mp free.separated with ⟨beforeSeparated, separated, across⟩
  rcases OnPage.append.mp free.onPage with ⟨onBefore, onRest⟩
  rcases OnPage.cons.mp onRest with ⟨⟨-, inside⟩, onAfter⟩
  rcases Separated.cons.mp separated with ⟨afterBehind, afterSeparated⟩
  refine ⟨⟨OnPage.append.mpr ⟨onBefore, OnPage.cons.mpr ⟨⟨gapPositive, ?_⟩, OnPage.nil⟩⟩,
    Separated.append.mpr ⟨beforeSeparated, List.pairwise_singleton _ _, ?_⟩⟩,
    ⟨OnPage.cons.mpr ⟨⟨by simp only; omega, ?_⟩, onAfter⟩,
      Separated.cons.mpr ⟨fun second member => ?_, afterSeparated⟩⟩, ?_⟩
  · simp only [stop] at inside ⊢
    omega
  · intro first early second single
    rw [List.mem_singleton.mp single]
    exact across first early segment List.mem_cons_self
  · simp only [stop] at inside ⊢
    omega
  · have late := afterBehind second member
    simp only [stop] at late ⊢
    omega
  · intro first member
    rcases List.mem_append.mp member with early | single
    · have apart := across first early segment List.mem_cons_self
      omega
    · rw [List.mem_singleton.mp single, stop]

/-- What taking the object makes of the list and of the memory, and the word that
stays at the object. -/
theorem takeAligned_spec {before after : List Segment} {segment : Segment}
    {units align gap : Nat} {found : Candidate}
    (encodes : Encodes heap.mem (pageUnits * pfn) (before ++ segment :: after) pageUnits)
    (free : FreeList (before ++ segment :: after))
    (head : (heap.page pfn).freelist =
      pageUnits * pfn + firstStart (before ++ segment :: after) pageUnits)
    (positive : 0 < units) (picked : Picked pfn units align none before segment found)
    (fits : gap + units ≤ segment.size) :
    ∃ mem, takeAligned heap pfn units gap found = heap.rewrite pfn mem (pageUnits * pfn +
        firstStart (before ++ (leftover segment gap units ++ after)) pageUnits)
        (heap.page pfn).units ∧
      Encodes mem (pageUnits * pfn) (before ++ (leftover segment gap units ++ after)) pageUnits ∧
      (∀ address, Outside pfn (before ++ segment :: after) address →
        mem address = heap.mem address) ∧
      slobUnits mem (pageUnits * pfn + (segment.start + gap)) = segment.size - gap := by
  rcases Separated.append.mp free.separated with ⟨beforeSeparated, separated, across⟩
  rcases OnPage.append.mp free.onPage with ⟨onBefore, onRest⟩
  have fromWhole : ∀ address, Outside pfn (before ++ segment :: after) address →
      Outside pfn (before ++ [segment]) address := by
    intro address away other member
    apply away
    rcases List.mem_append.mp member with early | here
    · exact List.mem_append_left _ early
    · exact List.mem_append_right _ (List.mem_singleton.mp here ▸ List.mem_cons_self)
  unfold takeAligned
  by_cases noGap : gap = 0
  · rcases takeFront_spec encodes ⟨onBefore, beforeSeparated⟩ ⟨onRest, separated⟩
      (fun first member => (across first member segment List.mem_cons_self).le) positive
      (by omega) with ⟨mem, taken, encoded, same, stale⟩
    subst noGap
    refine ⟨mem, ?_, encoded, fun address away => same address (fromWhole address away), ?_⟩
    · rw [if_neg (by simp), picked.prev, picked.block, Nat.add_zero, taken,
        ← firstStart_before before _ (segment :: after), head]
      split <;> rfl
    · rw [Nat.add_zero, stale]
      omega
  · rcases fragmentHead_spec encodes free (Nat.pos_of_ne_zero noGap) (by omega) with
      ⟨encoded, same⟩
    rw [List.append_cons] at encoded
    rcases free.fragment (Nat.pos_of_ne_zero noGap) (by omega) with ⟨headFree, restFree, touching⟩
    have encodedHere : Encodes { heap with
        mem := fragmentHead heap.mem (pageUnits * pfn + segment.start) gap }.mem (pageUnits * pfn)
        (before ++ [⟨segment.start, gap⟩] ++ ⟨segment.start + gap, segment.size - gap⟩ :: after)
        pageUnits := encoded
    rcases takeFront_spec encodedHere headFree restFree touching positive (by simp only; omega) with
      ⟨mem, taken, encoded', same', stale⟩
    refine ⟨mem, ?_, ?_, ?_, ?_⟩
    · have prev : previousBlock pfn (before ++ [⟨segment.start, gap⟩]) none =
          some (pageUnits * pfn + segment.start) := by simp [previousBlock]
      rw [prev, if_neg (by simp)] at taken
      have start : firstStart (before ++ segment :: after) pageUnits = firstStart (before ++
          ([⟨segment.start, gap⟩] ++ leftover ⟨segment.start + gap, segment.size - gap⟩ 0 units ++
            after)) pageUnits := by
        rw [firstStart_append, firstStart_append before]
        rfl
      rw [if_pos noGap, picked.block, Nat.add_assoc, taken, leftover_gap (by omega), if_neg noGap,
        ← start, ← head]
      rfl
    · rw [leftover_gap (by omega), if_neg noGap, List.append_assoc, ← List.append_assoc]
      exact encoded'
    · intro address away
      have apart := away segment (by simp)
      refine (same' address fun other member => ?_).trans (same address fun other member => ?_)
      · rcases List.mem_append.mp member with early | rest
        · rcases List.mem_append.mp early with earlier | gapBlock
          · exact away other (List.mem_append_left _ earlier)
          · rw [List.mem_singleton.mp gapBlock]
            simp only [stop] at apart ⊢
            omega
        · rw [List.mem_singleton.mp rest]
          simp only [stop] at apart ⊢
          omega
      · rw [List.mem_singleton.mp member]
        exact apart
    · rw [stale]
      simp only
      omega

theorem cutBlock_spec {before after : List Segment} {segment : Segment} {units align : Nat}
    {found : Candidate}
    (encodes : Encodes heap.mem (pageUnits * pfn) (before ++ segment :: after) pageUnits)
    (free : FreeList (before ++ segment :: after))
    (head : (heap.page pfn).freelist =
      pageUnits * pfn + firstStart (before ++ segment :: after) pageUnits)
    (positive : 0 < units) (picked : Picked pfn units align none before segment found)
    {gap : Nat} (isGap : gap = alignDelta align found.block) :
    ∃ mem, cutBlock heap pfn units align found = (pageUnits * pfn + (segment.start + gap),
        let cut := heap.rewrite pfn mem (pageUnits * pfn +
            firstStart (before ++ (leftover segment gap units ++ after)) pageUnits)
          ((heap.page pfn).units - units)
        if (heap.page pfn).units - units = 0 then clearSlobPageFree cut pfn else cut) ∧
      Encodes mem (pageUnits * pfn) (before ++ (leftover segment gap units ++ after)) pageUnits ∧
      (∀ address, Outside pfn (before ++ segment :: after) address →
        mem address = heap.mem address) ∧
      slobUnits mem (pageUnits * pfn + (segment.start + gap)) = segment.size - gap := by
  have fits := picked.fits
  unfold Fits at fits
  rw [← picked.block, ← isGap] at fits
  have room : gap + units ≤ segment.size := by omega
  rcases takeAligned_spec encodes free head positive picked room with
    ⟨mem, taken, encoded, same, stale⟩
  refine ⟨mem, ?_, encoded, same, stale⟩
  unfold cutBlock
  simp only [← isGap, taken, rewrite_setPage]
  simp only [Heap.rewrite, Function.update_self, picked.block, Nat.add_assoc]

end

end CE321.Slob
