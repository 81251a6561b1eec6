import CE321.Foundation.Segments
import CE321.Slob.Slob

/-! # Free lists in memory

A page's free list as a list of segments, and what the encoding functions and the
walks over the list do in these terms.
-/

namespace CE321.Slob

open Segment

/-- Where a list of segments goes on: at its first, or at `stop` when there is none. -/
def firstStart : List Segment → (stop : Nat) → Nat
  | [], stop => stop
  | segment :: _, _ => segment.start

/-- The words of a free block that is followed by the one at `next`. -/
def Node (mem : Nat → Int) (base : Nat) (segment : Segment) (next : Nat) : Prop :=
  if 1 < segment.size then
    mem (base + segment.start) = segment.size ∧ mem (base + segment.start + 1) = next
  else mem (base + segment.start) = -(next : Int)

/-- The words of a list of free blocks that goes on at `stop`. -/
def Encodes (mem : Nat → Int) (base : Nat) : List Segment → (stop : Nat) → Prop
  | [], _ => True
  | segment :: segments, stop =>
      Node mem base segment (firstStart segments stop) ∧ Encodes mem base segments stop

/-- Segments of the page whose list goes on at `stop`. -/
structure OnPage (segments : List Segment) : Prop where
  positive : ∀ segment ∈ segments, 0 < segment.size
  inside : ∀ segment ∈ segments, segment.stop ≤ pageUnits

theorem firstStart_append (left right : List Segment) (stop : Nat) :
    firstStart (left ++ right) stop = firstStart left (firstStart right stop) := by
  cases left <;> rfl

theorem OnPage.append {left right : List Segment} :
    OnPage (left ++ right) ↔ OnPage left ∧ OnPage right := by
  constructor
  · intro onPage
    exact ⟨⟨fun segment member => onPage.positive segment (List.mem_append_left _ member),
        fun segment member => onPage.inside segment (List.mem_append_left _ member)⟩,
      ⟨fun segment member => onPage.positive segment (List.mem_append_right _ member),
        fun segment member => onPage.inside segment (List.mem_append_right _ member)⟩⟩
  · rintro ⟨onLeft, onRight⟩
    constructor
    · intro segment member
      rcases List.mem_append.mp member with early | late
      · exact onLeft.positive segment early
      · exact onRight.positive segment late
    · intro segment member
      rcases List.mem_append.mp member with early | late
      · exact onLeft.inside segment early
      · exact onRight.inside segment late

theorem OnPage.cons {segment : Segment} {segments : List Segment} :
    OnPage (segment :: segments) ↔
      (0 < segment.size ∧ segment.stop ≤ pageUnits) ∧ OnPage segments := by
  constructor
  · intro onPage
    exact ⟨⟨onPage.positive segment List.mem_cons_self, onPage.inside segment List.mem_cons_self⟩,
      ⟨fun other member => onPage.positive other (List.mem_cons_of_mem _ member),
        fun other member => onPage.inside other (List.mem_cons_of_mem _ member)⟩⟩
  · rintro ⟨⟨positive, inside⟩, rest⟩
    constructor
    · intro other member
      rcases List.mem_cons.mp member with rfl | later
      · exact positive
      · exact rest.positive other later
    · intro other member
      rcases List.mem_cons.mp member with rfl | later
      · exact inside
      · exact rest.inside other later

theorem OnPage.nil : OnPage [] := ⟨by simp, by simp⟩

theorem encodes_append {mem : Nat → Int} {base : Nat} {left right : List Segment} {stop : Nat} :
    Encodes mem base (left ++ right) stop ↔
      Encodes mem base left (firstStart right stop) ∧ Encodes mem base right stop := by
  induction left with
  | nil => simp [Encodes]
  | cons segment left induction =>
      simp only [List.cons_append, Encodes, induction, firstStart_append, and_assoc]

/-- Blocks of a page in address order that do not touch. -/
structure FreeList (segments : List Segment) : Prop where
  onPage : OnPage segments
  separated : Separated segments

theorem FreeList.tail {segment : Segment} {segments : List Segment}
    (free : FreeList (segment :: segments)) : FreeList segments :=
  ⟨(OnPage.cons.mp free.onPage).2, (Separated.cons.mp free.separated).2⟩

theorem FreeList.firstStart_bounds {segment : Segment} {segments : List Segment}
    (free : FreeList (segment :: segments)) :
    0 < firstStart segments pageUnits ∧ segment.stop ≤ firstStart segments pageUnits ∧
      firstStart segments pageUnits ≤ pageUnits ∧
      (firstStart segments pageUnits = pageUnits ↔ segments = []) := by
  rcases OnPage.cons.mp free.onPage with ⟨⟨positive, inside⟩, onPage⟩
  have behind := (Separated.cons.mp free.separated).1
  have stopPositive : 0 < segment.stop := by
    unfold stop
    omega
  cases segments with
  | nil => exact ⟨by decide, inside, le_rfl, by simp [firstStart]⟩
  | cons next segments =>
      have apart := behind next List.mem_cons_self
      have nextPositive := onPage.positive next List.mem_cons_self
      have nextInside := onPage.inside next List.mem_cons_self
      have start : firstStart (next :: segments) pageUnits = next.start := rfl
      have nextStop : next.stop = next.start + next.size := rfl
      rw [start]
      refine ⟨by omega, by omega, by omega, ?_⟩
      simp only [reduceCtorEq, iff_false]
      omega

/-! ## Addresses of a page -/

section

variable {pfn offset : Nat}

theorem pageBase_add (inside : offset < pageUnits) :
    pageBase (pageUnits * pfn + offset) = pageUnits * pfn := by
  unfold pageBase pageUnits at *
  omega

theorem virtToPage_add (inside : offset < pageUnits) :
    virtToPage (pageUnits * pfn + offset) = pfn := by
  unfold virtToPage pageUnits at *
  omega

end

section

variable {mem mem' : Nat → Int} {pfn next stop : Nat} {segment : Segment} {segments : List Segment}

/-! ## Reading a free block -/

theorem slobUnits_node (node : Node mem (pageUnits * pfn) segment next)
    (positive : 0 < segment.size) (goesOn : 0 < next) :
    slobUnits mem (pageUnits * pfn + segment.start) = segment.size := by
  unfold Node at node
  unfold slobUnits
  split at node
  · rw [node.1, if_pos (by omega)]
  · rw [node, if_neg (by omega)]
    omega

theorem slobNext_node (node : Node mem (pageUnits * pfn) segment next)
    (positive : 0 < segment.size) (inside : segment.stop ≤ pageUnits) (goesOn : 0 < next) :
    slobNext mem (pageUnits * pfn + segment.start) = pageUnits * pfn + next := by
  have onPage : segment.start < pageUnits := by
    unfold stop at inside
    omega
  unfold Node at node
  unfold slobNext
  rw [pageBase_add onPage]
  split at node
  · rw [node.1, node.2]
    simp only
    rw [if_neg (by omega)]
    omega
  · rw [node]
    simp only
    rw [if_pos (by omega)]
    omega

theorem slobLast_node (node : Node mem (pageUnits * pfn) segment next)
    (positive : 0 < segment.size) (inside : segment.stop ≤ pageUnits) (goesOn : 0 < next)
    (bounded : next ≤ pageUnits) :
    slobLast mem (pageUnits * pfn + segment.start) = (next == pageUnits) := by
  rw [slobLast, slobNext_node node positive inside goesOn, Bool.eq_iff_iff, beq_iff_eq, beq_iff_eq,
    Nat.mul_add_mod]
  unfold pageUnits at *
  omega

/-! ## Writing a free block -/

theorem setSlob_outside {s address : Nat} {size : Int} (target : Nat)
    (outside : address < s ∨ s + size ≤ address) (positive : 0 < size) :
    setSlob mem s size target address = mem address := by
  unfold setSlob
  split
  · rw [Function.update_of_ne (by omega), Function.update_of_ne (by omega)]
  · rw [Function.update_of_ne (by omega)]

theorem setSlob_node (positive : 0 < segment.size) (inside : segment.stop ≤ pageUnits) :
    Node (setSlob mem (pageUnits * pfn + segment.start) segment.size (pageUnits * pfn + next))
      (pageUnits * pfn) segment next := by
  have onPage : segment.start < pageUnits := by
    unfold stop at inside
    omega
  have offset : ((pageUnits * pfn + next : Nat) : Int) - (pageUnits * pfn : Nat) = next := by omega
  unfold Node setSlob
  rw [pageBase_add onPage]
  simp only [offset]
  by_cases large : 1 < segment.size
  · rw [if_pos large, if_pos (by omega), Function.update_of_ne (by omega), Function.update_self,
      Function.update_self]
    exact ⟨rfl, rfl⟩
  · rw [if_neg large, if_neg (by omega), Function.update_self]

/-! ## What memory matters to a list -/

/-- The two memories agree on the units of the segments. -/
def Agree (mem mem' : Nat → Int) (base : Nat) (segments : List Segment) : Prop :=
  ∀ segment ∈ segments, ∀ unit, segment.Covers unit → mem' (base + unit) = mem (base + unit)

theorem Node.frame {base : Nat} (node : Node mem base segment next) (positive : 0 < segment.size)
    (same : ∀ unit, segment.Covers unit → mem' (base + unit) = mem (base + unit)) :
    Node mem' base segment next := by
  have first := same segment.start (by unfold Covers Segment.stop; omega)
  unfold Node at *
  split
  · next large =>
      have second := same (segment.start + 1) (by unfold Covers Segment.stop; omega)
      rw [if_pos large] at node
      rw [first, Nat.add_assoc, second, ← Nat.add_assoc]
      exact node
  · next small =>
      rw [if_neg small] at node
      rw [first]
      exact node

theorem Encodes.frame {base : Nat} (encodes : Encodes mem base segments stop)
    (positive : ∀ segment ∈ segments, 0 < segment.size)
    (same : Agree mem mem' base segments) : Encodes mem' base segments stop := by
  induction segments with
  | nil => trivial
  | cons segment segments induction =>
      exact ⟨encodes.1.frame (positive segment List.mem_cons_self)
          (same segment List.mem_cons_self),
        induction encodes.2 (fun other member => positive other (List.mem_cons_of_mem _ member))
          fun other member => same other (List.mem_cons_of_mem _ member)⟩

theorem agree_setSlob {base s : Nat} {size : Int} (target : Nat) (positive : 0 < size)
    (apart : ∀ segment ∈ segments, base + segment.stop ≤ s ∨ s + size ≤ base + segment.start) :
    Agree mem (setSlob mem s size target) base segments := by
  intro segment member unit covers
  apply setSlob_outside target _ positive
  rcases apart segment member with before | behind
  · left
    unfold Covers at covers
    omega
  · right
    unfold Covers at covers
    omega

theorem Encodes.write_behind {base s : Nat} {size : Int} (target : Nat)
    (encodes : Encodes mem base segments stop) (onPage : OnPage segments) (positive : 0 < size)
    (early : ∀ segment ∈ segments, base + segment.stop ≤ s) :
    Encodes (setSlob mem s size target) base segments stop :=
  encodes.frame onPage.positive
    (agree_setSlob target positive fun segment member => .inl (early segment member))

theorem Encodes.write_front {base s : Nat} {size : Int} (target : Nat)
    (encodes : Encodes mem base segments stop) (onPage : OnPage segments) (positive : 0 < size)
    (late : ∀ segment ∈ segments, s + size ≤ base + segment.start) :
    Encodes (setSlob mem s size target) base segments stop :=
  encodes.frame onPage.positive
    (agree_setSlob target positive fun segment member => .inr (late segment member))

end

end CE321.Slob
