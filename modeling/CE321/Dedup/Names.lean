import CE321.Dedup.Balance
import CE321.Dedup.PushBlock

/-! # Names of the root directory

The root directory with hard links and symbolic links, and the calls of `bbfs.c` that
work on its names or cut its files. Of these only `bb_unlink` knows the ledger, and
what it releases is what stands in the file its path leads to.
-/

namespace CE321.Dedup

open CString ByteFile RefTable

inductive Content (Path : Type) where
  | list (data : Bytes)
  | symlink (target : Path)

def Content.isList {Path : Type} : Content Path → Bool
  | .list _ => true
  | .symlink _ => false

def Content.data {Path : Type} : Content Path → Bytes
  | .list data => data
  | .symlink _ => []

/-- The storage and the root directory. A target of a symbolic link is a path of the root
directory. -/
structure Root (Path Inode : Type) extends Storage where
  names : Finset Path
  inode : Path → Inode
  content : Inode → Content Path

namespace Root

variable {Path Inode : Type} [DecidableEq Path] [DecidableEq Inode]

def files (root : Root Path Inode) : Finset Inode :=
  (root.names.image root.inode).filter fun inode => (root.content inode).isList

def list (root : Root Path Inode) (inode : Inode) : Bytes := (root.content inode).data

/-- The file that `open` gets to, with at most 40 symbolic links on the way. -/
def follow (root : Root Path Inode) : (links : Nat) → Path → Option Inode
  | 0, _ => none
  | links + 1, path =>
      if path ∈ root.names then
        match root.content (root.inode path) with
        | .list _ => some (root.inode path)
        | .symlink target => follow root links target
      else none

def opened (root : Root Path Inode) (path : Path) : Option Inode := root.follow 41 path

/-- `rename` of a name to itself or to another name of the same file does nothing. -/
def bbRename (root : Root Path Inode) (path newpath : Path) : Int × Root Path Inode :=
  if path ∈ root.names then
    if newpath ∈ root.names ∧ root.inode newpath = root.inode path then (0, root)
    else (0, { root with
      names := insert newpath (root.names.erase path)
      inode := Function.update root.inode newpath (root.inode path) })
  else (-2, root)

def bbLink (root : Root Path Inode) (path newpath : Path) : Int × Root Path Inode :=
  if path ∈ root.names then
    if newpath ∈ root.names then (-17, root)
    else (0, { root with
      names := insert newpath root.names
      inode := Function.update root.inode newpath (root.inode path) })
  else (-2, root)

/-- The file system chooses the inode. -/
def bbSymlink (root : Root Path Inode) (path link : Path) (allotted : Inode) :
    Int × Root Path Inode :=
  if link ∈ root.names then (-17, root)
  else (0, { root with
    names := insert link root.names
    inode := Function.update root.inode link allotted
    content := Function.update root.content allotted (.symlink path) })

/-- The call of `truncate` is commented out. -/
def bbTruncate (root : Root Path Inode) (_path : Path) (_newsize : Int) : Int × Root Path Inode :=
  (0, root)

/-- The handle is open on the file `handle`. -/
def bbFtruncate (root : Root Path Inode) (handle : Inode) (offset : Int) :
    Int × Root Path Inode :=
  if offset < 0 then (-22, root)
  else
    match root.content handle with
    | .list data => (0, { root with
        content := Function.update root.content handle (.list (resize data offset.toNat)) })
    | .symlink _ => (-22, root)

/-- `fopen` follows symbolic links, and `unlink` does not. A path that cannot be opened gives a
null pointer, and the `fseek` on it does not return. -/
def bbUnlink (root : Root Path Inode) (path : Path) : Option (Int × Root Path Inode) := do
  let inode ← root.opened path
  let fileSize := toInt32 (root.list inode).length
  let idsToRemove ←
    getOverwrittenBlocks (root.list inode) (toInt32 (fileSize.tdiv 4 * base)) 0 base
  let (_, storage) := removeBlocks idsToRemove root.toStorage
  pure (0, { root with toStorage := storage, names := root.names.erase path })

end Root

/-- A call that works on names or cuts a file. -/
inductive NameOp (Path Inode : Type) where
  | rename (path newpath : Path)
  | link (path newpath : Path)
  | symlink (path link : Path) (allotted : Inode)
  | truncate (path : Path) (newsize : Int)
  | ftruncate (handle : Inode) (offset : Int)
  | unlink (path : Path)

section

variable {Path Inode : Type} [DecidableEq Path] [DecidableEq Inode]

def Root.step (root : Root Path Inode) : NameOp Path Inode → Option (Int × Root Path Inode)
  | .rename path newpath => some (root.bbRename path newpath)
  | .link path newpath => some (root.bbLink path newpath)
  | .symlink path link allotted => some (root.bbSymlink path link allotted)
  | .truncate path newsize => some (root.bbTruncate path newsize)
  | .ftruncate handle offset => some (root.bbFtruncate handle offset)
  | .unlink path => root.bbUnlink path

/-- A new symbolic link gets an inode that no name has, and files are cut at blocks. -/
def NameOp.Legal (root : Root Path Inode) : NameOp Path Inode → Prop
  | .symlink _ _ allotted => ∀ path ∈ root.names, root.inode path ≠ allotted
  | .ftruncate _ offset => 4096 ∣ offset
  | _ => True

/-- The path is a name of the inode, and the only one. -/
def Root.OnlyName (root : Root Path Inode) (path : Path) (inode : Inode) : Prop :=
  path ∈ root.names ∧ root.inode path = inode ∧
    ∀ other ∈ root.names, root.inode other = inode → other = path

/-- The calls that lose and release the same references. -/
def NameOp.Harmless (root : Root Path Inode) (entries : Inode → List (Option Nat)) :
    NameOp Path Inode → Prop
  -- The file that is replaced has another name, or no ID.
  | .rename path newpath => path ∈ root.names → root.inode newpath ≠ root.inode path →
      root.OnlyName newpath (root.inode newpath) → root.inode newpath ∈ root.files →
      (entries (root.inode newpath)).reduceOption = []
  -- No ID is cut off.
  | .ftruncate handle offset => 0 ≤ offset → handle ∈ root.files →
      ((entries handle).drop (offset / 4).toNat).reduceOption = []
  -- There is memory for what is asked for. The last name of a file takes all its IDs with
  -- it, and another name or a symbolic link none.
  | .unlink path => ∃ inode, root.opened path = some inode ∧
      0 ≤ entriesAsked (entries inode).length ∧
      (root.OnlyName path inode →
        (entries inode).reduceOption = leadingIds (handedOver (entries inode))) ∧
      (¬root.OnlyName path inode → leadingIds (handedOver (entries inode)) = [])
  | _ => True

instance (root : Root Path Inode) (path : Path) (inode : Inode) :
    Decidable (root.OnlyName path inode) :=
  inferInstanceAs (Decidable (_ ∧ _ ∧ _))

/-! ## Files that keep a name -/

namespace Root

variable {root root' : Root Path Inode} {path : Path} {inode : Inode}

omit [DecidableEq Path] in
theorem mem_files : inode ∈ root.files ↔
    (∃ path ∈ root.names, root.inode path = inode) ∧ (root.content inode).isList = true := by
  rw [files, Finset.mem_filter, Finset.mem_image]

theorem follow_file (links : Nat) : ∀ {path : Path}, root.follow links path = some inode →
    inode ∈ root.files ∧ (root.inode path ∈ root.files → root.inode path = inode) := by
  induction links with
  | zero => intro path opened; cases opened
  | succ links induction =>
      intro path opened
      rw [follow] at opened
      split at opened
      · next member =>
          split at opened
          · next data present =>
              obtain rfl := Option.some.inj opened
              exact ⟨mem_files.mpr ⟨⟨path, member, rfl⟩, by rw [present]; rfl⟩, fun _ => rfl⟩
          · next target present =>
              refine ⟨(induction opened).1, fun file => ?_⟩
              have isList := (mem_files.mp file).2
              rw [present] at isList
              cases isList
      · cases opened

omit [DecidableEq Inode] in
theorem named_insert {newpath : Path} (free : newpath ∉ root.names) {new inode : Inode} :
    (∃ other ∈ insert newpath root.names, Function.update root.inode newpath new other = inode) ↔
      new = inode ∨ ∃ other ∈ root.names, root.inode other = inode := by
  constructor
  · rintro ⟨other, member, equal⟩
    by_cases here : other = newpath
    · rw [here, Function.update_self] at equal
      exact .inl equal
    · rw [Function.update_of_ne here] at equal
      exact .inr ⟨other, Finset.mem_of_mem_insert_of_ne member here, equal⟩
  · rintro (equal | ⟨other, member, equal⟩)
    · exact ⟨newpath, Finset.mem_insert_self _ _, by rw [Function.update_self, equal]⟩
    · have old : other ≠ newpath := fun same => free (same ▸ member)
      exact ⟨other, Finset.mem_insert_of_mem member, by rw [Function.update_of_ne old, equal]⟩

/-- The references that are gone when a name is. -/
def lost (root : Root Path Inode) (entries : Inode → List (Option Nat)) (path : Path) :
    Multiset Nat :=
  if root.OnlyName path (root.inode path) ∧ root.inode path ∈ root.files then
    (entries (root.inode path)).reduceOption
  else 0

theorem references_lost (sameContent : root'.content = root.content)
    (kept : ∀ inode, (∃ path ∈ root'.names, root'.inode path = inode) ↔
      (∃ path ∈ root.names, root.inode path = inode) ∧ ¬root.OnlyName path inode)
    (entries : Inode → List (Option Nat)) :
    root'.files ⊆ root.files ∧
      references root.files entries = root.lost entries path + references root'.files entries := by
  have files : ∀ inode, inode ∈ root'.files ↔ inode ∈ root.files ∧ ¬root.OnlyName path inode := by
    intro inode
    rw [mem_files, mem_files, kept, sameContent]
    tauto
  refine ⟨fun inode member => ((files inode).mp member).1, ?_⟩
  rw [lost]
  split
  · next gone =>
      have rest : root'.files = root.files.erase (root.inode path) := by
        ext inode
        rw [files, Finset.mem_erase]
        constructor
        · rintro ⟨member, stays⟩
          exact ⟨fun equal => stays (equal ▸ gone.1), member⟩
        · rintro ⟨different, member⟩
          exact ⟨member, fun only => different only.2.1.symm⟩
      rw [rest, references_split gone.2]
  · next stays =>
      have same : root'.files = root.files := by
        ext inode
        rw [files]
        refine ⟨And.left, fun member => ⟨member, fun only => stays ?_⟩⟩
        obtain rfl := only.2.1
        exact ⟨only, member⟩
      rw [same, zero_add]

theorem kept_erase (root : Root Path Inode) (path : Path) (inode : Inode) :
    (∃ other ∈ root.names.erase path, root.inode other = inode) ↔
      (∃ other ∈ root.names, root.inode other = inode) ∧ ¬root.OnlyName path inode := by
  constructor
  · rintro ⟨other, member, equal⟩
    rcases Finset.mem_erase.mp member with ⟨different, member⟩
    exact ⟨⟨other, member, equal⟩, fun only => different (only.2.2 other member equal)⟩
  · rintro ⟨⟨other, member, equal⟩, notOnly⟩
    by_cases same : other = path
    · subst same
      by_contra none
      apply notOnly
      refine ⟨member, equal, fun another anotherMember anotherEqual => ?_⟩
      by_contra different
      exact none ⟨another, Finset.mem_erase.mpr ⟨different, anotherMember⟩, anotherEqual⟩
    · exact ⟨other, Finset.mem_erase.mpr ⟨same, member⟩, equal⟩

theorem kept_rename (root : Root Path Inode) {path newpath : Path} (member : path ∈ root.names)
    (apart : ¬(newpath ∈ root.names ∧ root.inode newpath = root.inode path)) (inode : Inode) :
    (∃ other ∈ insert newpath (root.names.erase path),
        Function.update root.inode newpath (root.inode path) other = inode) ↔
      (∃ other ∈ root.names, root.inode other = inode) ∧ ¬root.OnlyName newpath inode := by
  constructor
  · rintro ⟨other, otherMember, equal⟩
    by_cases new : other = newpath
    · rw [new, Function.update_self] at equal
      exact ⟨⟨path, member, equal⟩, fun only => apart ⟨only.1, only.2.1.trans equal.symm⟩⟩
    · rw [Function.update_of_ne new] at equal
      have old := Finset.mem_of_mem_erase (Finset.mem_of_mem_insert_of_ne otherMember new)
      exact ⟨⟨other, old, equal⟩, fun only => new (only.2.2 other old equal)⟩
  · rintro ⟨⟨other, otherMember, equal⟩, notOnly⟩
    by_cases moved : root.inode path = inode
    · exact ⟨newpath, Finset.mem_insert_self _ _, by rw [Function.update_self, moved]⟩
    · have stays : ∃ another ∈ root.names, root.inode another = inode ∧ another ≠ newpath := by
        by_cases new : other = newpath
        · subst new
          by_contra none
          apply notOnly
          refine ⟨otherMember, equal, fun another anotherMember anotherEqual => ?_⟩
          by_contra different
          exact none ⟨another, anotherMember, anotherEqual, different⟩
        · exact ⟨other, otherMember, equal, new⟩
      rcases stays with ⟨another, anotherMember, anotherEqual, different⟩
      have notMoved : another ≠ path := fun same => moved (same ▸ anotherEqual)
      exact ⟨another, Finset.mem_insert_of_mem (Finset.mem_erase.mpr ⟨notMoved, anotherMember⟩),
        by rw [Function.update_of_ne different, anotherEqual]⟩

end Root

/-! ## The calls one by one -/

omit [DecidableEq Path] [DecidableEq Inode] in
theorem Balanced.congr {storage : Storage} {files : Finset Inode} {list list' : Inode → Bytes}
    (balanced : Balanced storage files list) (same : ∀ file ∈ files, list' file = list file) :
    Balanced storage files list' := by
  have sums : ∀ id, ∑ file ∈ files, occurrences (list' file) id =
      ∑ file ∈ files, occurrences (list file) id := fun id =>
    Finset.sum_congr rfl fun file member => by rw [same file member]
  intro index inside id named
  rw [sums]
  exact balanced index inside id named

theorem resize_entriesText {entries : List (Option Nat)} (small : Small entries) (count : Nat) :
    resize (entriesText entries) (4 * count) =
      entriesText (entries.take count ++ List.replicate (count - entries.length) none) := by
  have front := slice_entriesText small 0 count
  have holes : entriesText (List.replicate (count - entries.length) none) =
      List.replicate (4 * (count - entries.length)) 0 := by
    rw [entriesText, List.map_replicate]
    exact (List.flatten_replicate_replicate (n := count - entries.length) (m := 4)
      (a := (0 : UInt8))).trans (by rw [Nat.mul_comm])
  rw [slice, Nat.mul_zero, List.drop_zero, List.drop_zero] at front
  rw [resize, front, entriesText_length small, ← Nat.mul_sub, entriesText_append, holes]

theorem references_cut {files : Finset Inode} {entries : Inode → List (Option Nat)}
    {handle : Inode} (member : handle ∈ files) (count : Nat) :
    references files (Function.update entries handle ((entries handle).take count ++
        List.replicate (count - (entries handle).length) none)) = references files entries ↔
      ((entries handle).drop count).reduceOption = [] := by
  have whole : (entries handle).reduceOption =
      ((entries handle).take count).reduceOption ++ ((entries handle).drop count).reduceOption := by
    rw [← List.reduceOption_append, List.take_append_drop]
  rw [references_update member, references_split member, List.reduceOption_append,
    List.reduceOption_replicate_none, List.append_nil, whole, ← Multiset.coe_add]
  constructor
  · intro equal
    have dropped := add_right_cancel equal
    exact (Multiset.coe_eq_zero _).mp (left_eq_add.mp dropped)
  · intro none
    rw [none, Multiset.coe_nil, add_zero]

theorem InFormat.cut {storage : Storage} {lines : List Line} {files : Finset Inode}
    {entries : Inode → List (Option Nat)} {list list' : Inode → Bytes}
    (format : InFormat storage lines files entries list) {handle : Inode}
    (member : handle ∈ files) (count : Nat)
    (here : list' handle = resize (list handle) (4 * count))
    (others : ∀ file, file ≠ handle → list' file = list file) :
    InFormat storage lines files (Function.update entries handle ((entries handle).take count ++
      List.replicate (count - (entries handle).length) none)) list' where
  text := format.text
  small := format.small
  lists := by
    intro file fileMember
    by_cases same : file = handle
    · subst same
      rw [here, format.lists file member, resize_entriesText (format.entriesSmall member),
        Function.update_self]
    · rw [others file same, Function.update_of_ne same, format.lists file fileMember]
  inside := by
    intro file fileMember id present
    by_cases same : file = handle
    · subst same
      rw [Function.update_self] at present
      rcases List.mem_append.mp present with front | hole
      · exact format.inside file member id (List.mem_of_mem_take front)
      · cases List.eq_of_mem_replicate hole
    · rw [Function.update_of_ne same] at present
      exact format.inside file fileMember id present

namespace Root

variable {root root' : Root Path Inode} {lines : List Line}
  {entries : Inode → List (Option Nat)}

omit [DecidableEq Path] in
theorem returns_iff (returned : Int × Root Path Inode) :
    (∃ result root', some returned = some (result, root') ∧
        Balanced root'.toStorage root'.files root'.list) ↔
      Balanced returned.2.toStorage returned.2.files returned.2.list := by
  constructor
  · rintro ⟨result, root', same, kept⟩
    obtain rfl := Option.some.inj same
    exact kept
  · exact fun kept => ⟨_, _, rfl, kept⟩

theorem lost_eq_zero (root : Root Path Inode) (entries : Inode → List (Option Nat)) (path : Path) :
    root.lost entries path = 0 ↔ (root.OnlyName path (root.inode path) →
      root.inode path ∈ root.files → (entries (root.inode path)).reduceOption = []) := by
  rw [lost]
  split
  · next gone =>
      rw [Multiset.coe_eq_zero]
      exact ⟨fun none _ _ => none, fun none => none gone.1 gone.2⟩
  · next stays =>
      refine iff_of_true rfl fun only member => absurd ⟨only, member⟩ stays

variable (format : InFormat root.toStorage lines root.files entries root.list)
  (balanced : Balanced root.toStorage root.files root.list)
include format balanced

/-- A call that leaves the ledger and the lists alone keeps the balance if and only if it loses
no reference. -/
theorem balanced_lost {path : Path} (storage : root'.toStorage = root.toStorage)
    (sameContent : root'.content = root.content)
    (kept : ∀ inode, (∃ path ∈ root'.names, root'.inode path = inode) ↔
      (∃ path ∈ root.names, root.inode path = inode) ∧ ¬root.OnlyName path inode) :
    Balanced root'.toStorage root'.files root'.list ↔ root.lost entries path = 0 := by
  rcases references_lost sameContent kept entries with ⟨fewer, split⟩
  rcases format.balanced_iff.mp balanced with ⟨counts, blocks⟩
  have sameList : root'.list = root.list := by
    funext inode
    rw [list, list, sameContent]
  have format' : InFormat root.toStorage lines root'.files entries root.list :=
    ⟨format.text, format.small, fun file member => format.lists file (fewer member),
      fun file member => format.inside file (fewer member)⟩
  rw [storage, sameList, format'.keeps_iff counts blocks, split]
  constructor
  · intro equal
    exact add_eq_right.mp equal.symm
  · intro none
    rw [none, zero_add]

theorem rename_balanced (path newpath : Path) :
    Balanced (root.bbRename path newpath).2.toStorage (root.bbRename path newpath).2.files
        (root.bbRename path newpath).2.list ↔
      NameOp.Harmless root entries (.rename path newpath) := by
  rw [NameOp.Harmless, bbRename]
  split
  · next member =>
      split
      · next same => exact iff_of_true balanced fun _ apart => absurd same.2 apart
      · next apart =>
          have result := @balanced_lost _ _ _ _ root { root with
            names := insert newpath (root.names.erase path)
            inode := Function.update root.inode newpath (root.inode path) } lines entries format
            balanced newpath rfl rfl (kept_rename root member apart)
          refine result.trans ((lost_eq_zero root entries newpath).trans ?_)
          constructor
          · exact fun none _ _ => none
          · exact fun none only => none member (fun same => apart ⟨only.1, same⟩) only
  · next absent => exact iff_of_true balanced fun member => absurd member absent

omit format in
theorem link_balanced (path newpath : Path) :
    Balanced (root.bbLink path newpath).2.toStorage (root.bbLink path newpath).2.files
      (root.bbLink path newpath).2.list := by
  rw [bbLink]
  split
  · next member =>
      split
      · exact balanced
      · next free =>
          have sameFiles : ({ root with
              names := insert newpath root.names
              inode := Function.update root.inode newpath (root.inode path) } :
                Root Path Inode).files = root.files := by
            ext inode
            rw [mem_files, mem_files, named_insert free]
            apply and_congr_left
            intro _
            exact or_iff_right_of_imp fun equal => ⟨path, member, equal⟩
          rw [sameFiles]
          exact balanced
  · exact balanced

omit format in
theorem symlink_balanced (path link : Path) {allotted : Inode}
    (unused : ∀ path ∈ root.names, root.inode path ≠ allotted) :
    Balanced (root.bbSymlink path link allotted).2.toStorage
      (root.bbSymlink path link allotted).2.files
      (root.bbSymlink path link allotted).2.list := by
  rw [bbSymlink]
  split
  · exact balanced
  · next free =>
      have notFile : ¬∃ other ∈ root.names, root.inode other = allotted := by
        rintro ⟨other, otherMember, equal⟩
        exact unused other otherMember equal
      have sameFiles : ({ root with
          names := insert link root.names
          inode := Function.update root.inode link allotted
          content := Function.update root.content allotted (.symlink path) } :
            Root Path Inode).files = root.files := by
        ext inode
        rw [mem_files, mem_files, named_insert free]
        simp only
        by_cases new : inode = allotted
        · rw [new, Function.update_self]
          exact iff_of_false (fun both => Bool.false_ne_true both.2) fun both => notFile both.1
        · rw [Function.update_of_ne new, or_iff_right (Ne.symm new)]
      rw [sameFiles]
      apply balanced.congr
      intro file member
      have old : file ≠ allotted := fun same => notFile (same ▸ (mem_files.mp member).1)
      exact congrArg Content.data (Function.update_of_ne old _ _)

theorem ftruncate_balanced (handle : Inode) {offset : Int} (aligned : 4096 ∣ offset) :
    Balanced (root.bbFtruncate handle offset).2.toStorage (root.bbFtruncate handle offset).2.files
        (root.bbFtruncate handle offset).2.list ↔
      NameOp.Harmless root entries (.ftruncate handle offset) := by
  rw [NameOp.Harmless, bbFtruncate]
  split
  · exact iff_of_true balanced fun nonnegative => by omega
  · next nonnegative =>
      split
      · next data present =>
          have sameKind : ∀ inode, (Function.update root.content handle
              (.list (resize data offset.toNat)) inode).isList = (root.content inode).isList := by
            intro inode
            by_cases same : inode = handle
            · rw [same, Function.update_self, present]
              rfl
            · rw [Function.update_of_ne same]
          have sameFiles : ({ root with
              content := Function.update root.content handle
                (.list (resize data offset.toNat)) } : Root Path Inode).files = root.files := by
            ext inode
            rw [mem_files, mem_files]
            simp only [sameKind]
          rw [sameFiles]
          by_cases member : handle ∈ root.files
          · rcases format.balanced_iff.mp balanced with ⟨counts, blocks⟩
            have size : offset.toNat = 4 * (offset / 4).toNat := by omega
            have cut : (Function.update root.content handle
                (.list (resize data offset.toNat)) handle).data =
                resize (root.list handle) (4 * (offset / 4).toNat) := by
              rw [Function.update_self, list, present, ← size]
              rfl
            have format' := @InFormat.cut _ _ _ _ _ _ _ (Root.list { root with
                content := Function.update root.content handle
                  (.list (resize data offset.toNat)) }) format _ member (offset / 4).toNat cut
              fun file other => congrArg Content.data (Function.update_of_ne other _ _)
            rw [format'.keeps_iff counts blocks, references_cut member]
            exact ⟨fun none _ _ => none, fun none => none (by omega) member⟩
          · refine iff_of_true (balanced.congr fun file fileMember => ?_) fun _ handleMember =>
              absurd handleMember member
            have other : file ≠ handle := fun same => member (same ▸ fileMember)
            exact congrArg Content.data (Function.update_of_ne other _ _)
      · next target present =>
          refine iff_of_true balanced fun _ member => ?_
          have isList := (mem_files.mp member).2
          rw [present] at isList
          cases isList

omit balanced in
theorem bbUnlink_opened {path : Path} {inode : Inode} {storage' : Storage}
    (opened : root.opened path = some inode) (member : inode ∈ root.files)
    (removed : removeBlocks (entriesText (handedOver (entries inode))) root.toStorage =
      (0, storage')) :
    root.bbUnlink path =
      if entriesAsked (entries inode).length < 0 then none
      else some (0, { root with toStorage := storage', names := root.names.erase path }) := by
  have handed := format.handed member
  rw [bbUnlink, opened, Option.bind_eq_bind, Option.bind_some]
  simp only [handed, Option.bind_eq_bind]
  split
  · rfl
  · rw [Option.bind_some, removed]
    rfl

theorem unlink_balanced (path : Path) :
    (∃ result root', root.bbUnlink path = some (result, root') ∧
        Balanced root'.toStorage root'.files root'.list) ↔
      NameOp.Harmless root entries (.unlink path) := by
  rw [NameOp.Harmless]
  cases opened : root.opened path with
  | none =>
      refine iff_of_false ?_ ?_
      · rintro ⟨result, root', returned, _⟩
        rw [bbUnlink, opened] at returned
        cases returned
      · rintro ⟨inode, equal, _⟩
        cases equal
  | some inode =>
      rcases follow_file 41 opened with ⟨member, plain⟩
      rcases format.released balanced member with ⟨storage', removed, released⟩
      rcases @references_lost _ _ _ _ root { root with
          toStorage := storage', names := root.names.erase path } path rfl
        (kept_erase root path) entries with ⟨fewer, split⟩
      have format' := format.afterRelease released fewer
      have returned := root.bbUnlink_opened format opened member removed
      by_cases memory : entriesAsked (entries inode).length < 0
      · rw [if_pos memory] at returned
        refine iff_of_false ?_ ?_
        · rintro ⟨result, root', other, _⟩
          rw [returned] at other
          cases other
        · rintro ⟨other, same, asked, _⟩
          obtain rfl := Option.some.inj same
          exact absurd asked (not_le.mpr memory)
      rw [if_neg memory] at returned
      have asked : 0 ≤ entriesAsked (entries inode).length := not_lt.mp memory
      rcases reduceOption_handedOver (entries inode) with ⟨behind, ids⟩
      rw [returned, returns_iff]
      refine (format'.keeps_iff released.counts released.blocks).trans ?_
      rw [split]
      by_cases only : root.OnlyName path inode
      · have gone : root.lost entries path = (entries inode).reduceOption := by
          rw [lost, only.2.1, if_pos ⟨only, member⟩]
        rw [gone, ids, ← Multiset.coe_add, add_assoc, add_tsub_cancel_left, right_eq_add,
          Multiset.coe_eq_zero]
        constructor
        · rintro rfl
          exact ⟨inode, rfl, asked, fun _ => by rw [ids, List.append_nil], fun notOnly =>
            absurd only notOnly⟩
        · rintro ⟨other, same, _, all, _⟩
          obtain rfl := Option.some.inj same
          exact List.append_right_eq_self.mp (ids.symm.trans (all only))
      · have stays : root.lost entries path = 0 := by
          rw [lost, if_neg]
          rintro ⟨onlyName, file⟩
          exact only (plain file ▸ onlyName)
        have held : ((leadingIds (handedOver (entries inode)) : List Nat) : Multiset Nat) ≤
            references root.files entries := leading_le_references member
        rw [stays, zero_add] at split
        rw [stays, zero_add, ← split, eq_sub_iff held, Multiset.coe_eq_zero]
        constructor
        · exact fun none => ⟨inode, rfl, asked, fun onlyName => absurd onlyName only,
            fun _ => none⟩
        · rintro ⟨other, same, _, _, none⟩
          obtain rfl := Option.some.inj same
          exact none only

end Root

/-- In every state in balance: a call on names, or one that cuts a file, keeps the balance if and
only if it releases the references that it loses. -/
theorem names_balanced_iff (root : Root Path Inode) (lines : List Line)
    (entries : Inode → List (Option Nat))
    (format : InFormat root.toStorage lines root.files entries root.list)
    (balanced : Balanced root.toStorage root.files root.list) (op : NameOp Path Inode)
    (legal : op.Legal root) :
    (∃ result root', root.step op = some (result, root') ∧
        Balanced root'.toStorage root'.files root'.list) ↔
      op.Harmless root entries := by
  cases op with
  | rename path newpath =>
      exact (Root.returns_iff _).trans (root.rename_balanced format balanced path newpath)
  | link path newpath =>
      exact (Root.returns_iff _).trans (iff_of_true (root.link_balanced balanced path newpath) trivial)
  | symlink path link allotted =>
      exact (Root.returns_iff _).trans (iff_of_true (root.symlink_balanced balanced path link legal) trivial)
  | truncate path newsize => exact (Root.returns_iff _).trans (iff_of_true balanced trivial)
  | ftruncate handle offset =>
      exact (Root.returns_iff _).trans (root.ftruncate_balanced format balanced handle legal)
  | unlink path => exact root.unlink_balanced format balanced path

end

/-! ## A file with two names -/

/-- One file of one block, with the given names. -/
def rootOfA (names : Finset Bool) : Root Bool Unit where
  toStorage := storageOfA 1 one_small
  names := names
  inode := fun _ => ()
  content := fun _ => .list (idText [1])

def entriesOfA : Unit → List (Option Nat) := fun _ => [some 1]

theorem rootOfA_files {names : Finset Bool} (notEmpty : names.Nonempty) :
    (rootOfA names).files = {()} := by
  apply Finset.eq_singleton_iff_unique_mem.mpr
  refine ⟨?_, fun _ _ => rfl⟩
  rcases notEmpty with ⟨name, member⟩
  exact Root.mem_files.mpr ⟨⟨name, member, rfl⟩, rfl⟩

theorem rootOfA_format (names : Finset Bool) :
    InFormat (rootOfA names).toStorage (linesOfA 1 (by decide)) (rootOfA names).files entriesOfA
      (rootOfA names).list where
  text := rfl
  small := by simp [linesOfA]
  lists := fun _ _ => (entriesText_ids [1]).symm
  inside := by
    intro file _ id present
    rw [entriesOfA, List.mem_singleton] at present
    rw [Option.some.inj present]
    simp [linesOfA]

theorem rootOfA_balanced {names : Finset Bool} (notEmpty : names.Nonempty) :
    Balanced (rootOfA names).toStorage (rootOfA names).files (rootOfA names).list := by
  apply (rootOfA_format names).balanced_iff.mpr
  have one : references {()} entriesOfA = {1} := rfl
  rw [rootOfA_files notEmpty, one]
  refine ⟨⟨?_, ?_⟩, ?_⟩
  · intro index slot present
    have inside := (List.getElem?_eq_some_iff.mp present).1
    obtain rfl : index = 0 := by simpa [tableOf, linesOfA] using inside
    obtain rfl := Option.some.inj present
    rfl
  · intro id member
    rw [Multiset.mem_singleton.mp member]
    simp [tableOf, linesOfA]
  · intro index line present
    have inside := (List.getElem?_eq_some_iff.mp present).1
    have cases : index = 0 ∨ index = 1 := by
      simp [linesOfA] at inside
      omega
    rcases cases with rfl | rfl
    · obtain rfl := Option.some.inj present
      exact iff_of_true (by simp [rootOfA, storageOfA]) Nat.one_pos
    · obtain rfl := Option.some.inj present
      exact iff_of_false (by simp [rootOfA, storageOfA]) (by simp [Line.sentinel])

/-- The last name of the file can be unlinked. -/
theorem names_balanced_iff_oneName : ∃ result root',
    (rootOfA {true}).step (.unlink true) = some (result, root') ∧
      Balanced root'.toStorage root'.files root'.list := by
  have only : (rootOfA {true}).OnlyName true () := by decide
  exact (names_balanced_iff (rootOfA {true}) (linesOfA 1 (by decide)) entriesOfA
    (rootOfA_format _) (rootOfA_balanced (by simp)) (.unlink true) trivial).mpr
    ⟨(), rfl, by decide, fun _ => rfl, fun notOnly => absurd only notOnly⟩

/-- With two names, unlinking one releases the reference that the other still has. -/
theorem unlink_releases_linked :
    InFormat (rootOfA {true, false}).toStorage (linesOfA 1 (by decide))
        (rootOfA {true, false}).files entriesOfA (rootOfA {true, false}).list ∧
      Balanced (rootOfA {true, false}).toStorage (rootOfA {true, false}).files
        (rootOfA {true, false}).list ∧
      ¬∃ result root', (rootOfA {true, false}).step (.unlink true) = some (result, root') ∧
        Balanced root'.toStorage root'.files root'.list := by
  have format := rootOfA_format {true, false}
  have balanced := rootOfA_balanced (show ({true, false} : Finset Bool).Nonempty by simp)
  refine ⟨format, balanced, fun kept => ?_⟩
  rcases (Root.unlink_balanced format balanced true).mp kept with ⟨_, _, _, _, none⟩
  have notOnly : ¬(rootOfA {true, false}).OnlyName true () := by decide
  exact List.cons_ne_nil _ _ (none notOnly)

end CE321.Dedup
