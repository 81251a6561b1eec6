import Mathlib

/-! # The SLOB allocator, `slob.c`

The allocator proper, with the best-fit search, on pages of 4096 bytes and units of
two bytes. An address counts units, so page frame `pfn` is the units from
`2048 * pfn` on, and memory holds one 16-bit word for every unit. The page allocator
is the environment: a call that may ask it for a page is given its answer.

A result `none` stands for a call that does not return: a list without end, a null
page or a `BUG_ON`. Diagnostic output is left out.
-/

namespace CE321.Slob

def pageSize : Nat := 4096

/-- `SLOB_UNITS(PAGE_SIZE)`. -/
def pageUnits : Nat := 2048

/-- `SLOB_UNITS(size)`. -/
def unitsOf (size : Nat) : Nat := (size + 1) / 2

/-- The fields of `struct page` that the allocator uses. -/
structure Page where
  units : Int
  freelist : Nat
  slab : Bool
  slobFree : Bool
  deriving DecidableEq

/-- `free_slob_small`, `free_slob_medium` and `free_slob_large`. -/
inductive SizeClass where
  | small
  | medium
  | large
  deriving DecidableEq

/-- The list for a request, by `SLOB_BREAK1` and `SLOB_BREAK2`. -/
def sizeClass (size : Nat) : SizeClass :=
  if size < 256 then .small else if size < 1024 then .medium else .large

/-- Memory, the pages, the three lists of partially free pages and the two counters. `wide` says
whether pointers have 8 bytes and not 4. `runs` is the page allocator's record: the first page
frame and the order of every page run that it has given out and not got back. -/
structure Heap where
  wide : Bool
  mem : Nat → Int
  page : Nat → Page
  free : SizeClass → List Nat
  memoryAlloc : Int
  memoryFree : Int
  runs : List (Nat × Nat)

def virtToPage (address : Nat) : Nat := address / pageUnits

/-- `(unsigned long)s & PAGE_MASK`. -/
def pageBase (address : Nat) : Nat := address / pageUnits * pageUnits

/-! ## Free blocks in memory -/

/-- Encode the size and the next block into a free block. -/
def setSlob (mem : Nat → Int) (s : Nat) (size : Int) (next : Nat) : Nat → Int :=
  let offset : Int := (next : Int) - pageBase s
  if size > 1 then Function.update (Function.update mem s size) (s + 1) offset
  else Function.update mem s (-offset)

def slobUnits (mem : Nat → Int) (s : Nat) : Int := if mem s > 0 then mem s else 1

def slobNext (mem : Nat → Int) (s : Nat) : Nat :=
  let next := if mem s < 0 then -mem s else mem (s + 1)
  (pageBase s + next).toNat

def slobLast (mem : Nat → Int) (s : Nat) : Bool := slobNext mem s % pageUnits == 0

/-! ## The lists -/

def Heap.setPage (heap : Heap) (pfn : Nat) (page : Page) : Heap :=
  { heap with page := Function.update heap.page pfn page }

/-- `list_add` and `__SetPageSlobFree`. -/
def setSlobPageFree (heap : Heap) (pfn : Nat) (list : SizeClass) : Heap :=
  { heap.setPage pfn { heap.page pfn with slobFree := true } with
    free := Function.update heap.free list (pfn :: heap.free list) }

/-- `list_del`, from whatever list the page is on, and `__ClearPageSlobFree`. -/
def clearSlobPageFree (heap : Heap) (pfn : Nat) : Heap :=
  { heap.setPage pfn { heap.page pfn with slobFree := false } with
    free := fun list => (heap.free list).erase pfn }

/-! ## Pages -/

/-- The size of a pointer. -/
def Heap.pointerSize (heap : Heap) : Int := if heap.wide then 8 else 4

theorem Heap.pointerSize_bounds (heap : Heap) : 4 ≤ heap.pointerSize ∧ heap.pointerSize ≤ 8 := by
  unfold pointerSize
  split <;> decide

/-- The page run starts at the given frame if `alloc_pages` succeeds. The counter
grows by the size of the variable `page`, a pointer. -/
def slobNewPages (heap : Heap) (order : Nat) (answer : Option Nat) : Option Nat × Heap :=
  match answer with
  | none => (none, heap)
  | some pfn => (some (pageUnits * pfn), { heap with
      memoryAlloc := heap.memoryAlloc + heap.pointerSize
      runs := (pfn, order) :: heap.runs })

/-- The counter shrinks by the size of the variable `b`, a pointer too. -/
def slobFreePages (heap : Heap) (b : Nat) (order : Nat) : Heap :=
  { heap with
    memoryAlloc := heap.memoryAlloc - heap.pointerSize
    runs := heap.runs.erase (virtToPage b, order) }

/-! ## Best fit -/

/-- `ALIGN(x, a)`, for `a` a power of two. -/
def alignUp (x a : Nat) : Nat := (x + a - 1) / a * a

/-- The gap in front of an aligned object: `aligned - cur`. -/
def alignDelta (align cur : Nat) : Nat :=
  if align = 0 then 0 else alignUp (2 * cur) align / 2 - cur

/-- A free block the search has seen: its address, the one before it, and the space
it leaves as the search computes it. -/
structure Candidate where
  block : Nat
  prev : Option Nat
  space : Int

/-- Whether a block is the best one so far. Here the gap counts against the block, in
the space kept for the best block it counts for it. -/
def isBetter (avail units delta : Int) (best : Option Candidate) : Bool :=
  avail ≥ units + delta && match best with
    | none => true
    | some best => avail - (units + delta) < best.space

/-- The search over one page's free list that `slob_page_alloc` makes. A list has at
most one block for each unit of the page; `fuel` bounds the rounds by that. -/
def minBlockLoop (mem : Nat → Int) (units align : Nat) :
    (fuel : Nat) → (prev : Option Nat) → (cur : Nat) → Option Candidate → Option (Option Candidate)
  | 0, _, _, _ => none
  | fuel + 1, prev, cur, best =>
      let avail := slobUnits mem cur
      let delta : Int := alignDelta align cur
      let better := isBetter avail units delta best
      let best := if better then some ⟨cur, prev, avail - units + delta⟩ else best
      if better && avail - units + delta == 0 then some best
      else if slobLast mem cur then some best
      else minBlockLoop mem units align fuel (some cur) (slobNext mem cur) best

/-- The search on a page from the head of its list. -/
def minBlock (heap : Heap) (pfn size align : Nat) : Option (Option Candidate) :=
  minBlockLoop heap.mem (unitsOf size) align pageUnits none (heap.page pfn).freelist none

/-- The search that `find_min_block` makes: what it returns, and its `min_block`. -/
def findMinBlockLoop (mem : Nat → Int) (units align : Nat) :
    (fuel : Nat) → (cur : Nat) → (minSpace : Int) → (minBlock : Option Nat) →
      Option (Int × Option Nat)
  | 0, _, _, _ => none
  | fuel + 1, cur, minSpace, minBlock =>
      let avail := slobUnits mem cur
      let delta : Int := alignDelta align cur
      let better := avail ≥ units + delta && (avail - (units + delta) < minSpace || minBlock.isNone)
      let minSpace := if better then avail - units + delta else minSpace
      let minBlock := if better then some cur else minBlock
      if better && minSpace == 0 then some (minSpace, minBlock)
      else if slobLast mem cur then
        if minBlock.isNone then some (-1, none) else some (minSpace, minBlock)
      else findMinBlockLoop mem units align fuel (slobNext mem cur) minSpace minBlock

/-- The search of `find_min_block` on a page from the head of its list. -/
def minBlockSpace (heap : Heap) (pfn size align : Nat) : Option (Int × Option Nat) :=
  findMinBlockLoop heap.mem (unitsOf size) align pageUnits (heap.page pfn).freelist 0 none

/-- The space that the best block of the page leaves, or -1. -/
def findMinBlock (heap : Heap) (pfn size align : Nat) : Option Int :=
  (minBlockSpace heap pfn size align).map Prod.fst

/-- Points the block before a free block, or the page, to another free block. -/
def relink (heap : Heap) (pfn : Nat) (prev : Option Nat) (next : Nat) : Heap :=
  match prev with
  | some prev => { heap with mem := setSlob heap.mem prev (slobUnits heap.mem prev) next }
  | none => heap.setPage pfn { heap.page pfn with freelist := next }

/-- Fragments a free block at the place where an aligned object starts. -/
def fragmentHead (mem : Nat → Int) (block delta : Nat) : Nat → Int :=
  let avail := slobUnits mem block
  let next := slobNext mem block
  let mem := setSlob mem (block + delta) (avail - delta) next
  setSlob mem block delta (block + delta)

/-- Takes units from the front of a free block: all of it, or a fragment. -/
def takeFront (heap : Heap) (pfn units : Nat) (prev : Option Nat) (block : Nat) : Heap :=
  let avail := slobUnits heap.mem block
  let next := slobNext heap.mem block
  if avail = units then relink heap pfn prev next
  else
    let heap := relink heap pfn prev (block + units)
    { heap with mem := setSlob heap.mem (block + units) (avail - units) next }

/-- Takes the object behind the gap from the block that the search found. -/
def takeAligned (heap : Heap) (pfn units delta : Nat) (found : Candidate) : Heap :=
  if delta ≠ 0 then
    takeFront { heap with mem := fragmentHead heap.mem found.block delta } pfn units
      (some found.block) (found.block + delta)
  else takeFront heap pfn units found.prev (found.block + delta)

/-- Cuts the object from the block that the search found. -/
def cutBlock (heap : Heap) (pfn units align : Nat) (found : Candidate) : Nat × Heap :=
  let delta := alignDelta align found.block
  let heap := takeAligned heap pfn units delta found
  let page := heap.page pfn
  let heap := heap.setPage pfn { page with units := page.units - units }
  (found.block + delta, if page.units - units = 0 then clearSlobPageFree heap pfn else heap)

def slobPageAlloc (heap : Heap) (pfn size align : Nat) : Option (Option Nat × Heap) := do
  let best ← minBlock heap pfn size align
  match best with
  | none => pure (none, heap)
  | some found =>
      let (b, heap) := cutBlock heap pfn (unitsOf size) align found
      pure (some b, heap)

/-! ## Allocating and freeing -/

/-- The bytes that the pages of the three lists have free. -/
def listedBytes (heap : Heap) : Int :=
  ([SizeClass.small, .medium, .large].map fun list =>
    ((heap.free list).map fun pfn => (heap.page pfn).units * 2).sum).sum

/-- `memory_free` is counted over the lists at the start of a request. -/
def countFree (heap : Heap) : Heap := { heap with memoryFree := listedBytes heap }

/-- The loop over the pages of a list: `min_units` and `best_pg`. -/
def bestPageLoop (heap : Heap) (size align : Nat) :
    List Nat → (minUnits : Int) → (best : Option Nat) → Option (Int × Option Nat)
  | [], minUnits, best => some (minUnits, best)
  | sp :: rest, minUnits, best =>
      let units := (heap.page sp).units
      if units < unitsOf size then bestPageLoop heap size align rest minUnits best
      else do
        let curSpace ← findMinBlock heap sp size align
        if curSpace > 0 then
          if units < minUnits ∨ minUnits = -1 then
            bestPageLoop heap size align rest units (some sp)
          else bestPageLoop heap size align rest minUnits best
        else if curSpace = 0 then some (units, some sp)
        else bestPageLoop heap size align rest minUnits best

/-- The search for room on the pages of the request's list. -/
def allocListed (heap : Heap) (size align : Nat) : Option (Option Nat × Heap) := do
  let (minUnits, best) ← bestPageLoop heap size align (heap.free (sizeClass size)) (-1) none
  if minUnits ≥ 0 then
    let sp ← best
    slobPageAlloc heap sp size align
  else pure (none, heap)

/-- The page the page allocator gave, as one free block on the request's list. -/
def newSlobPage (heap : Heap) (b : Nat) (list : SizeClass) : Heap :=
  let pfn := virtToPage b
  let heap := heap.setPage pfn { heap.page pfn with
    slab := true, units := pageUnits, freelist := b }
  setSlobPageFree { heap with mem := setSlob heap.mem b pageUnits (b + pageUnits) } pfn list

/-- `memset(b, 0, size)`: an odd last byte is the low half of its unit. -/
def memsetZero (mem : Nat → Int) (b size : Nat) : Nat → Int := fun address =>
  if b ≤ address ∧ address < b + size / 2 then 0
  else if address = b + size / 2 ∧ size % 2 = 1 then mem address - mem address % 256
  else mem address

/-- What the flag `__GFP_ZERO` of a request asks for. -/
def zeroObject (heap : Heap) (zero : Bool) (b size : Nat) : Heap :=
  if zero then { heap with mem := memsetZero heap.mem b size } else heap


def slobAlloc (heap : Heap) (size align : Nat) (zero : Bool) (answer : Option Nat) :
    Option (Option Nat × Heap) := do
  let heap := countFree heap
  let (b, heap) ← allocListed heap size align
  let (b, heap) ←
    match b with
    | some b => pure (some b, { heap with
        memoryFree := heap.memoryFree - slobUnits heap.mem b * 2 })
    | none =>
        match slobNewPages heap 0 answer with
        | (none, heap) => pure (none, heap)
        | (some b, heap) =>
            let heap := newSlobPage heap b (sizeClass size)
            match ← slobPageAlloc heap (virtToPage b) size align with
            | (none, _) => none
            | (some b, heap) => pure (some b, heap)
  match b with
  | some b => pure (some b, zeroObject heap zero b size)
  | none => pure (none, heap)

/-- The walk of `slob_free` to the last free block before the address. -/
def insertionPoint (mem : Nat → Int) (b : Nat) : (fuel : Nat) → (prev : Nat) → Option Nat
  | 0, _ => none
  | fuel + 1, prev =>
      if b > slobNext mem prev then insertionPoint mem b fuel (slobNext mem prev)
      else some prev

/-- Puts a block into the free list of a page that has one. -/
def reinsert (heap : Heap) (pfn b units : Nat) : Option Heap :=
  let page := heap.page pfn
  let heap := heap.setPage pfn { page with units := page.units + units }
  if b < page.freelist then
    let (units, freelist) : Int × Nat :=
      if b + units = page.freelist then
        (units + slobUnits heap.mem page.freelist, slobNext heap.mem page.freelist)
      else (units, page.freelist)
    let heap := { heap with mem := setSlob heap.mem b units freelist }
    some (heap.setPage pfn { heap.page pfn with freelist := b })
  else do
    let prev ← insertionPoint heap.mem b pageUnits page.freelist
    let next := slobNext heap.mem prev
    let mem :=
      if !slobLast heap.mem prev && b + units == next then
        setSlob heap.mem b (units + slobUnits heap.mem next) (slobNext heap.mem next)
      else setSlob heap.mem b units next
    let mem :=
      if prev + slobUnits mem prev = b then
        setSlob mem prev (slobUnits mem b + slobUnits mem prev) (slobNext mem b)
      else setSlob mem prev (slobUnits mem prev) b
    pure { heap with mem := mem }

/-- An address up to that of `ZERO_SIZE_PTR` is not a block. -/
def zeroOrNullPtr (block : Nat) : Bool := 2 * block ≤ 16

/-- Gives a page back to the page allocator. -/
def returnPage (heap : Heap) (pfn b : Nat) : Heap :=
  let heap := if (heap.page pfn).slobFree then clearSlobPageFree heap pfn else heap
  let heap := heap.setPage pfn { heap.page pfn with slab := false }
  slobFreePages heap b 0

/-- A page without free units becomes partially free. -/
def firstFree (heap : Heap) (pfn b size : Nat) : Heap :=
  let units := unitsOf size
  let heap := heap.setPage pfn { heap.page pfn with units := units, freelist := b }
  let heap := { heap with mem := setSlob heap.mem b units (pageBase (b + pageUnits)) }
  setSlobPageFree heap pfn (sizeClass size)

def slobFree (heap : Heap) (b size : Nat) : Option Heap :=
  if zeroOrNullPtr b then some heap
  else if size = 0 then none
  else
    let pfn := virtToPage b
    let units := unitsOf size
    if (heap.page pfn).units + units = pageUnits then some (returnPage heap pfn b)
    else if !(heap.page pfn).slobFree then some (firstFree heap pfn b size)
    else reinsert heap pfn b units

end CE321.Slob
