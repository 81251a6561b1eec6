import Mathlib

/-! # C strings and decimal fields

Bytes, C strings held in buffers, and the two conversions that fixed-width text
records rely on: `atoi` for reading a decimal field and `%0wd` for writing one.
-/

namespace CE321

abbrev Bytes := List UInt8

namespace CString

/-- The C string that starts at the first byte of a buffer. -/
def contents (buffer : Bytes) : Bytes := buffer.takeWhile (· ≠ 0)

def strlen (buffer : Bytes) : Nat := (contents buffer).length

def strcmpEq (left right : Bytes) : Bool := contents left == contents right

/-- What a buffer holds after `received` has been copied to its start. -/
def overlay (buffer received : Bytes) : Bytes :=
  received ++ buffer.drop received.length

def isDigit (byte : UInt8) : Bool := 48 ≤ byte && byte ≤ 57

def isSpace (byte : UInt8) : Bool := byte == 32 || (9 ≤ byte && byte ≤ 13)

def digitsValue (bytes : Bytes) : Nat :=
  (bytes.takeWhile isDigit).foldl (fun value byte => 10 * value + (byte.toNat - 48)) 0

/-- `atoi`: leading white space and one sign are skipped, and the number ends at
the first byte that is no digit. The end of the list stands for that byte too. -/
def atoi (buffer : Bytes) : Int :=
  let number := buffer.dropWhile isSpace
  if number.head? = some 45 then -(digitsValue number.tail : Int)
  else if number.head? = some 43 then digitsValue number.tail
  else digitsValue number

/-- The last `count` decimal digits of `value`, most significant first. -/
def decimalDigits : (count : Nat) → (value : Nat) → Bytes
  | 0, _ => []
  | count + 1, value =>
      decimalDigits count (value / 10) ++ [UInt8.ofNat (48 + value % 10)]

/-- `sprintf("%0wd")` of a nonnegative value: longer numbers are not cut. -/
def zeroPadded (width value : Nat) : Bytes :=
  decimalDigits (if value < 10 ^ width then width else Nat.log 10 value + 1) value

/-- `sprintf("%0wd")`: a minus sign takes one column of the field. -/
def sprintfDecimal (width : Nat) : Int → Bytes
  | .ofNat value => zeroPadded width value
  | .negSucc value => 45 :: zeroPadded (width - 1) (value + 1)

example : sprintfDecimal 3 7 = [48, 48, 55] := by decide

example : atoi [48, 52, 50, 10, 57] = 42 := by decide

/-! ## Buffers -/

theorem contents_of_zero_free {buffer : Bytes} (zeroFree : 0 ∉ buffer) :
    contents buffer = buffer := by
  apply List.takeWhile_eq_self_iff.mpr
  intro byte member
  have different : byte ≠ 0 := fun equal => zeroFree (equal ▸ member)
  simpa using different

theorem strlen_of_zero_free {buffer : Bytes} (zeroFree : 0 ∉ buffer) :
    strlen buffer = buffer.length := by
  rw [strlen, contents_of_zero_free zeroFree]

theorem contents_zero_free (buffer : Bytes) : 0 ∉ contents buffer := by
  intro member
  simpa using List.mem_takeWhile_imp member

@[simp] theorem contents_contents (buffer : Bytes) :
    contents (contents buffer) = contents buffer :=
  contents_of_zero_free (contents_zero_free buffer)

theorem overlay_eq {buffer received : Bytes}
    (covers : buffer.length ≤ received.length) : overlay buffer received = received := by
  simp [overlay, List.drop_eq_nil_of_le covers]

/-! ## Decimal fields -/

@[simp] theorem decimalDigits_length (count value : Nat) :
    (decimalDigits count value).length = count := by
  induction count generalizing value with
  | zero => rfl
  | succ count induction => simp [decimalDigits, induction]

private theorem digit_toNat (value : Nat) :
    (UInt8.ofNat (48 + value % 10)).toNat = 48 + value % 10 := by
  rw [UInt8.toNat_ofNat']
  omega

theorem isDigit_iff (byte : UInt8) :
    isDigit byte = true ↔ 48 ≤ byte.toNat ∧ byte.toNat ≤ 57 := by
  simp [isDigit, UInt8.le_iff_toNat_le]

theorem isDigit_of_mem_decimalDigits {count value : Nat} {byte : UInt8}
    (member : byte ∈ decimalDigits count value) : isDigit byte = true := by
  induction count generalizing value with
  | zero => cases member
  | succ count induction =>
      rcases List.mem_append.mp member with member | member
      · exact induction member
      · rw [List.mem_singleton.mp member, isDigit_iff, digit_toNat]
        omega

theorem not_zero_of_isDigit {byte : UInt8} (digit : isDigit byte = true) :
    byte ≠ 0 := by
  rintro rfl
  revert digit
  decide

theorem decimalDigits_zero_free (count value : Nat) :
    0 ∉ decimalDigits count value := fun member =>
  not_zero_of_isDigit (isDigit_of_mem_decimalDigits member) rfl

theorem decimalDigits_fold (count value : Nat) :
    (decimalDigits count value).foldl
      (fun value byte => 10 * value + (byte.toNat - 48)) 0 = value % 10 ^ count := by
  induction count generalizing value with
  | zero => simp [decimalDigits, Nat.mod_one]
  | succ count induction =>
      rw [decimalDigits, List.foldl_append, induction]
      simp only [List.foldl_cons, List.foldl_nil, digit_toNat]
      rw [Nat.pow_succ', Nat.mod_mul]
      omega

/-- A number field is followed by a byte that ends it, or by nothing. -/
def EndsNumber (rest : Bytes) : Prop := ∀ byte, rest.head? = some byte → isDigit byte = false

theorem digitsValue_append {field rest : Bytes}
    (digits : ∀ byte ∈ field, isDigit byte = true) (ends : EndsNumber rest) :
    digitsValue (field ++ rest) =
      field.foldl (fun value byte => 10 * value + (byte.toNat - 48)) 0 := by
  have stops : rest.takeWhile isDigit = [] := by
    cases rest with
    | nil => rfl
    | cons byte rest => simp [ends byte rfl]
  rw [digitsValue, List.takeWhile_append_of_pos digits, stops, List.append_nil]

theorem atoi_decimalDigits {count : Nat} (value : Nat) {rest : Bytes}
    (positive : 0 < count) (ends : EndsNumber rest) :
    atoi (decimalDigits count value ++ rest) = ((value % 10 ^ count : Nat) : Int) := by
  obtain ⟨first, tail, split⟩ : ∃ first tail, decimalDigits count value = first :: tail :=
    List.exists_cons_of_length_pos (by simpa using positive)
  have digit : isDigit first = true :=
    isDigit_of_mem_decimalDigits (split ▸ List.mem_cons_self)
  have notSpace : isSpace first = false := by
    have bounds := (isDigit_iff first).mp digit
    simp only [isSpace, Bool.or_eq_false_iff, Bool.and_eq_false_iff, beq_eq_false_iff_ne,
      decide_eq_false_iff_not, UInt8.le_iff_toNat_le, ne_eq, ← UInt8.toNat_inj]
    simp only [UInt8.reduceToNat]
    omega
  have bounds := (isDigit_iff first).mp digit
  have notMinus : first ≠ 45 := by
    rintro rfl
    simp at bounds
  have notPlus : first ≠ 43 := by
    rintro rfl
    simp at bounds
  have value_eq := digitsValue_append
    (fun _ member => @isDigit_of_mem_decimalDigits count value _ member) ends
  rw [decimalDigits_fold] at value_eq
  have kept : (decimalDigits count value ++ rest).dropWhile isSpace =
      decimalDigits count value ++ rest := by
    rw [split, List.cons_append, List.dropWhile_cons_of_neg (by simp [notSpace])]
  rw [atoi, kept]
  simp only [value_eq]
  rw [split]
  simp [notMinus, notPlus]

theorem zeroPadded_of_lt {width value : Nat} (fits : value < 10 ^ width) :
    zeroPadded width value = decimalDigits width value := by
  simp [zeroPadded, fits]

theorem atoi_zeroPadded {width value : Nat} {rest : Bytes} (positive : 0 < width)
    (fits : value < 10 ^ width) (ends : EndsNumber rest) :
    atoi (zeroPadded width value ++ rest) = (value : Int) := by
  rw [zeroPadded_of_lt fits, atoi_decimalDigits value positive ends,
    Nat.mod_eq_of_lt fits]

theorem zeroPadded_length {width value : Nat} (fits : value < 10 ^ width) :
    (zeroPadded width value).length = width := by
  rw [zeroPadded_of_lt fits, decimalDigits_length]

/-! ## Short numbers -/

theorem digitsValue_lt (bytes : Bytes) : digitsValue bytes < 10 ^ bytes.length := by
  have fold : ∀ (digits : Bytes) (start : Nat), (∀ byte ∈ digits, isDigit byte = true) →
      digits.foldl (fun value byte => 10 * value + (byte.toNat - 48)) start <
        (start + 1) * 10 ^ digits.length := by
    intro digits
    induction digits with
    | nil => simp
    | cons byte digits induction =>
        intro start all
        have range := (isDigit_iff byte).mp (all byte List.mem_cons_self)
        calc (byte :: digits).foldl (fun value byte => 10 * value + (byte.toNat - 48)) start
            < (10 * start + (byte.toNat - 48) + 1) * 10 ^ digits.length :=
              induction _ fun other member => all other (List.mem_cons_of_mem _ member)
          _ ≤ (10 * (start + 1)) * 10 ^ digits.length :=
              Nat.mul_le_mul_right _ (by omega)
          _ = (start + 1) * 10 ^ (byte :: digits).length := by
              rw [List.length_cons, Nat.pow_succ']
              ring
  have bound := fold (bytes.takeWhile isDigit) 0 fun byte member => List.mem_takeWhile_imp member
  rw [Nat.zero_add, Nat.one_mul] at bound
  have shorter : (bytes.takeWhile isDigit).length ≤ bytes.length :=
    (List.takeWhile_prefix _).length_le
  exact bound.trans_le (Nat.pow_le_pow_right (by decide) shorter)

/-- What `%03d` prints in three columns. -/
def ThreeColumns (value : Int) : Prop := -99 ≤ value ∧ value ≤ 999

/-- Of three characters, one may be a sign. -/
theorem atoi_threeColumns {buffer : Bytes} (short : buffer.length ≤ 3) :
    ThreeColumns (atoi buffer) := by
  have width : (buffer.dropWhile isSpace).length ≤ 3 :=
    (List.dropWhile_suffix _).length_le.trans short
  rw [atoi]
  generalize buffer.dropWhile isSpace = number at width
  have whole := (digitsValue_lt number).trans_le (Nat.pow_le_pow_right (by decide) width)
  have tail : number ≠ [] → digitsValue number.tail < 10 ^ 2 := by
    intro notEmpty
    have positive := List.length_pos_of_ne_nil notEmpty
    apply (digitsValue_lt number.tail).trans_le
    apply Nat.pow_le_pow_right (by decide)
    rw [List.length_tail]
    omega
  have notEmpty : ∀ byte : UInt8, number.head? = some byte → number ≠ [] := by
    rintro byte first rfl
    cases first
  unfold ThreeColumns
  split
  · next minus =>
      have bound := tail (notEmpty _ minus)
      omega
  · split
    · next plus =>
        have bound := tail (notEmpty _ plus)
        omega
    · omega

theorem sprintfDecimal_threeColumns {value : Int} (fits : ThreeColumns value) :
    (sprintfDecimal 3 value).length = 3 ∧ 0 ∉ sprintfDecimal 3 value := by
  rcases fits with ⟨lower, upper⟩
  cases value with
  | ofNat value =>
      have small : value < 10 ^ 3 := by
        rw [Int.ofNat_eq_natCast] at upper
        omega
      rw [sprintfDecimal, zeroPadded_of_lt small]
      exact ⟨decimalDigits_length 3 value, decimalDigits_zero_free 3 value⟩
  | negSucc value =>
      have small : value + 1 < 10 ^ 2 := by omega
      rw [sprintfDecimal, zeroPadded_of_lt small]
      refine ⟨by simp, ?_⟩
      intro member
      rcases List.mem_cons.mp member with minus | digit
      · cases minus
      · exact decimalDigits_zero_free 2 _ digit

/-! ## Format strings -/

/-- Every `%` of the string is one of a pair `%%`, which asks for no argument. -/
def noConversion : Bytes → Bool
  | [] => true
  | 37 :: 37 :: rest => noConversion rest
  | byte :: rest => byte != 37 && noConversion rest

/-- `fprintf` of a format string with no arguments behind it. C defines it where the
string asks for none. -/
def fprintf (format : Bytes) : Option Unit :=
  if noConversion (contents format) then some () else none

theorem fprintf_eq_some_iff {format : Bytes} {result : Unit} :
    fprintf format = some result ↔ noConversion (contents format) = true := by
  rw [fprintf]
  split
  · next plain => exact iff_of_true rfl plain
  · next directs => exact iff_of_false (by simp) directs

theorem noConversion_of_percent_free {format : Bytes} (percentFree : 37 ∉ format) :
    noConversion format = true := by
  induction format using noConversion.induct with
  | case1 => rfl
  | case2 rest => simp at percentFree
  | case3 byte rest notPair induction =>
      rcases not_or.mp (List.mem_cons.not.mp percentFree) with ⟨different, restFree⟩
      rw [noConversion, induction restFree, Bool.and_true, bne_iff_ne]
      · exact Ne.symm different
      · exact notPair

example : noConversion [49, 48, 48, 37] = false := by decide

end CString

end CE321
