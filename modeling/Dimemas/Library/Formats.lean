import Mathlib.Data.Rat.Lemmas
import Mathlib.Data.List.TakeWhile
import Mathlib.Tactic.Ring
/-!
# Formatted text

The conversions of `printf` and `scanf` for integers, numbers with a fixed number of decimal
places, characters and lines. A number that is printed in front of something else than a digit is
read again.
-/

namespace Dimemas.Library.Formats

/-- The integer types of the conversions. -/
inductive IntType
  | int
  | long
  | longLong
  | unsignedLongLong
deriving DecidableEq, Repr

/-- The value of a `long long` next to a number. -/
def saturate (i : Int) : Int := max (-9223372036854775808) (min 9223372036854775807 i)

/-- What a variable gets for a number in the text. For an `int` a `long` is read, and its low bits
are kept. -/
def IntType.store : IntType → Int → Int
  | .int, i => (saturate i).bmod 4294967296
  | .long, i => saturate i
  | .longLong, i => saturate i
  | .unsignedLongLong, i =>
      if 18446744073709551616 ≤ i.natAbs then 18446744073709551615 else i % 18446744073709551616

/-- The parts of a format: an ordinary character, or a conversion. -/
inductive Directive
  | ordinary (c : Char)
  | integer (type : IntType)
  | fixed (places : Nat)
  | real
  | char
  | line
deriving DecidableEq, Repr

inductive Value
  | integer (i : Int)
  | real (q : ℚ)
  | char (c : Char)
  | text (s : List Char)
deriving DecidableEq, Repr

def newline : Char := Char.ofNat 10

/-- The characters for which `isspace` holds. -/
def isSpace (c : Char) : Bool := c.toNat = 32 || (9 ≤ c.toNat && c.toNat ≤ 13)

/-- The directives of a format. `none` is a conversion that is not modelled. -/
def directives : List Char → Option (List Directive)
  | [] => some []
  | '%' :: 'd' :: cs => (directives cs).map (.integer .int :: ·)
  | '%' :: 'l' :: 'd' :: cs => (directives cs).map (.integer .long :: ·)
  | '%' :: 'l' :: 'l' :: 'd' :: cs => (directives cs).map (.integer .longLong :: ·)
  | '%' :: 'l' :: 'l' :: 'u' :: cs => (directives cs).map (.integer .unsignedLongLong :: ·)
  | '%' :: 'l' :: 'f' :: cs => (directives cs).map (.real :: ·)
  | '%' :: '.' :: '9' :: 'f' :: cs => (directives cs).map (.fixed 9 :: ·)
  | '%' :: 'c' :: cs => (directives cs).map (.char :: ·)
  | '%' :: '[' :: '^' :: c :: ']' :: cs =>
      if c = newline then (directives cs).map (.line :: ·) else none
  | '%' :: _ => none
  | c :: cs => (directives cs).map (.ordinary c :: ·)

/-! ## Output -/

def decimal : Int → List Char
  | .ofNat n => Nat.toDigits 10 n
  | .negSucc n => '-' :: Nat.toDigits 10 (n + 1)

def tenTo : Nat → Nat
  | 0 => 1
  | k + 1 => 10 * tenTo k

def lastDigits : Nat → Nat → List Char
  | 0, _ => []
  | k + 1, m => lastDigits k (m / 10) ++ [Nat.digitChar (m % 10)]

/-- The absolute value of a number in units of the last place. Halves are rounded to even. -/
def inUnits (places : Nat) (q : ℚ) : Nat :=
  let scaled := q.num.natAbs * tenTo places
  let units := scaled / q.den
  let rest := scaled % q.den
  if 2 * rest < q.den ∨ 2 * rest = q.den ∧ units % 2 = 0 then units else units + 1

def fixedPoint (places : Nat) (q : ℚ) : List Char :=
  (if q < 0 then ['-'] else []) ++ Nat.toDigits 10 (inUnits places q / tenTo places) ++
    '.' :: lastDigits places (inUnits places q % tenTo places)

def Directive.print : Directive → Value → List Char
  | .integer _, .integer i => decimal i
  | .fixed places, .real q => fixedPoint places q
  | .char, .char c => [c]
  | _, _ => []

def printf : List Directive → List Value → List Char
  | [], _ => []
  | .ordinary c :: fs, vs => c :: printf fs vs
  | f :: fs, v :: vs => f.print v ++ printf fs vs
  | _ :: fs, [] => printf fs []

/-! ## Input -/

def readNatural (text : List Char) : Option (Nat × List Char) :=
  if text.takeWhile Char.isDigit = [] then none
  else some (Nat.ofDigitChars 10 (text.takeWhile Char.isDigit) 0, text.dropWhile Char.isDigit)

def readInteger : List Char → Option (Int × List Char)
  | '-' :: text => (readNatural text).map fun (n, rest) => (-(n : Int), rest)
  | '+' :: text => (readNatural text).map fun (n, rest) => ((n : Int), rest)
  | text => (readNatural text).map fun (n, rest) => ((n : Int), rest)

def readUnsignedReal (text : List Char) : Option (ℚ × List Char) :=
  let whole := text.takeWhile Char.isDigit
  match text.dropWhile Char.isDigit with
  | '.' :: rest =>
      let places := rest.takeWhile Char.isDigit
      if whole ++ places = [] then none
      else some (mkRat (Nat.ofDigitChars 10 (whole ++ places) 0) (tenTo places.length),
        rest.dropWhile Char.isDigit)
  | rest => if whole = [] then none else some (mkRat (Nat.ofDigitChars 10 whole 0) 1, rest)

def readReal : List Char → Option (ℚ × List Char)
  | '-' :: text => (readUnsignedReal text).map fun (q, rest) => (-q, rest)
  | '+' :: text => readUnsignedReal text
  | text => readUnsignedReal text

/-- `sscanf`: the values that are assigned before the text does not match. -/
def scanf : List Directive → List Char → List Value
  | [], _ => []
  | .ordinary c :: fs, text =>
      if isSpace c then scanf fs (text.dropWhile isSpace)
      else
        match text with
        | d :: text => if d = c then scanf fs text else []
        | [] => []
  | .integer type :: fs, text =>
      match readInteger (text.dropWhile isSpace) with
      | some (i, rest) => .integer (type.store i) :: scanf fs rest
      | none => []
  | .real :: fs, text =>
      match readReal (text.dropWhile isSpace) with
      | some (q, rest) => .real q :: scanf fs rest
      | none => []
  | .char :: fs, text =>
      match text with
      | c :: text => .char c :: scanf fs text
      | [] => []
  | .line :: fs, text =>
      if text.takeWhile (· ≠ newline) = [] then []
      else .text (text.takeWhile (· ≠ newline)) :: scanf fs (text.dropWhile (· ≠ newline))
  | .fixed _ :: _, _ => []

section

variable {fs : List Directive} {vs : List Value} {i : Int} {n k : Nat} {q : ℚ} {c : Char}
  {type : IntType} {s rest : List Char}

/-! ## What is stored -/

theorem saturate_eq (hmin : -9223372036854775808 ≤ i) (hmax : i < 9223372036854775808) :
    saturate i = i := by
  unfold saturate
  omega

theorem store_int (hmin : -2147483648 ≤ i) (hmax : i < 2147483648) :
    IntType.int.store i = i := by
  show (saturate i).bmod 4294967296 = i
  rw [saturate_eq (by omega) (by omega)]
  apply Int.bmod_eq_of_le
  · omega
  · omega

theorem store_longLong (hmin : -9223372036854775808 ≤ i) (hmax : i < 9223372036854775808) :
    IntType.longLong.store i = i :=
  saturate_eq hmin hmax

theorem store_long (hmin : -9223372036854775808 ≤ i) (hmax : i < 9223372036854775808) :
    IntType.long.store i = i :=
  saturate_eq hmin hmax

theorem store_int_bounds (i : Int) :
    -2147483648 ≤ IntType.int.store i ∧ IntType.int.store i < 2147483648 := by
  show -2147483648 ≤ (saturate i).bmod 4294967296 ∧ (saturate i).bmod 4294967296 < 2147483648
  have hle := @Int.le_bmod (saturate i) 4294967296 (by decide)
  have hlt := @Int.bmod_lt (saturate i) 4294967296 (by decide)
  omega

theorem store_unsigned_of_nonneg (hmin : 0 ≤ i) (hmax : i < 18446744073709551616) :
    IntType.unsignedLongLong.store i = i := by
  show (if 18446744073709551616 ≤ i.natAbs then 18446744073709551615
    else i % 18446744073709551616) = i
  rw [if_neg (by omega), Int.emod_eq_of_lt hmin hmax]

theorem store_unsigned_nonneg (i : Int) : 0 ≤ IntType.unsignedLongLong.store i := by
  show 0 ≤ if 18446744073709551616 ≤ i.natAbs then 18446744073709551615
    else i % 18446744073709551616
  split
  · decide
  · exact Int.emod_nonneg i (by decide)

/-! ## Digits -/

theorem takeWhile_append (h : ∀ c ∈ s, c.isDigit) (hrest : ∀ c ∈ rest.head?, ¬ c.isDigit) :
    (s ++ rest).takeWhile Char.isDigit = s ∧ (s ++ rest).dropWhile Char.isDigit = rest := by
  have hnone : rest.takeWhile Char.isDigit = [] ∧ rest.dropWhile Char.isDigit = rest := by
    cases rest with
    | nil => exact ⟨rfl, rfl⟩
    | cons c cs =>
        have hc := hrest c rfl
        exact ⟨List.takeWhile_cons_of_neg hc, List.dropWhile_cons_of_neg hc⟩
  rw [List.takeWhile_append_of_pos h, List.dropWhile_append_of_pos h, hnone.1, hnone.2]
  exact ⟨List.append_nil s, rfl⟩

theorem isDigit_of_mem_digits (h : c ∈ Nat.toDigits 10 n) : c.isDigit :=
  Nat.isDigit_of_mem_toDigits (by decide) (by decide) h

theorem readNatural_digits (n : Nat) (hrest : ∀ c ∈ rest.head?, ¬ c.isDigit) :
    readNatural (Nat.toDigits 10 n ++ rest) = some (n, rest) := by
  obtain ⟨htake, hdrop⟩ := takeWhile_append (fun c hc => isDigit_of_mem_digits hc) hrest
  unfold readNatural
  rw [htake, hdrop, if_neg Nat.toDigits_ne_nil, Nat.ofDigitChars_ten_toDigits]

theorem head_digits (n : Nat) : ∃ c cs, Nat.toDigits 10 n = c :: cs ∧ c.isDigit := by
  cases hdigits : Nat.toDigits 10 n with
  | nil => exact absurd hdigits Nat.toDigits_ne_nil
  | cons c cs =>
      refine ⟨c, cs, rfl, isDigit_of_mem_digits (n := n) ?_⟩
      rw [hdigits]
      exact List.mem_cons_self

theorem not_space_of_isDigit (h : c.isDigit) : isSpace c = false := by
  simp only [Char.isDigit, Bool.and_eq_true, decide_eq_true_eq] at h
  have hlow : 48 ≤ c.toNat := h.1
  simp [isSpace]
  omega

theorem readInteger_decimal (i : Int) (hrest : ∀ c ∈ rest.head?, ¬ c.isDigit) :
    readInteger ((decimal i ++ rest).dropWhile isSpace) = some (i, rest) := by
  cases i with
  | ofNat n =>
      obtain ⟨c, cs, hdigits, hc⟩ := head_digits n
      have hread := readNatural_digits n hrest
      have hminus : c ≠ '-' := by rintro rfl; cases hc
      have hplus : c ≠ '+' := by rintro rfl; cases hc
      rw [decimal, hdigits, List.cons_append,
        List.dropWhile_cons_of_neg (by simp [not_space_of_isDigit hc])]
      rw [hdigits, List.cons_append] at hread
      unfold readInteger
      split
      · next heq => exact absurd (List.cons.inj heq).1 hminus
      · next heq => exact absurd (List.cons.inj heq).1 hplus
      · rw [hread]
        rfl
  | negSucc n =>
      have hread := readNatural_digits (n + 1) hrest
      rw [decimal, List.cons_append, List.dropWhile_cons_of_neg (by decide)]
      simp only [readInteger, hread, Option.map_some]
      rfl

theorem not_space_of_mem_decimal {c : Char} (i : Int) (h : c ∈ decimal i) : isSpace c = false := by
  cases i with
  | ofNat n => exact not_space_of_isDigit (isDigit_of_mem_digits h)
  | negSucc n =>
      rcases List.mem_cons.mp h with rfl | h
      · rfl
      · exact not_space_of_isDigit (isDigit_of_mem_digits h)

theorem notMem_decimal {c : Char} (n : Nat) (h : ¬ c.isDigit) : c ∉ decimal n :=
  fun hc => h (isDigit_of_mem_digits hc)

theorem decimal_ne_nil (i : Int) : decimal i ≠ [] := by
  cases i with
  | ofNat n => exact Nat.toDigits_ne_nil
  | negSucc n => exact List.cons_ne_nil _ _

/-! ## Numbers with decimal places -/

theorem tenTo_pos (k : Nat) : 0 < tenTo k := by
  induction k with
  | zero => decide
  | succ k ih =>
      rw [tenTo]
      omega

theorem ofDigitChars_lastDigits (k m init : Nat) :
    Nat.ofDigitChars 10 (lastDigits k m) init = tenTo k * init + m % tenTo k := by
  induction k generalizing m with
  | zero => simp [lastDigits, tenTo, Nat.mod_one]
  | succ k ih =>
      have hlt : m % 10 < 10 := Nat.mod_lt _ (by decide)
      have hlast : ∀ v, Nat.ofDigitChars 10 [Nat.digitChar (m % 10)] v = 10 * v + m % 10 := by
        intro v
        rw [Nat.ofDigitChars_cons_digitChar_of_lt_ten hlt, Nat.ofDigitChars_nil]
      have hmod : m % tenTo (k + 1) = 10 * (m / 10 % tenTo k) + m % 10 := by
        rw [tenTo, Nat.mod_mul]
        omega
      rw [lastDigits, Nat.ofDigitChars_append, ih, hlast, hmod, tenTo]
      ring

theorem isDigit_of_mem_lastDigits {m : Nat} (h : c ∈ lastDigits k m) : c.isDigit := by
  induction k generalizing m with
  | zero => cases h
  | succ k ih =>
      rcases List.mem_append.mp h with h | h
      · exact ih h
      · rw [List.mem_singleton.mp h, Nat.isDigit_digitChar]
        exact decide_eq_true (Nat.mod_lt m (by decide))

theorem length_lastDigits (k m : Nat) : (lastDigits k m).length = k := by
  induction k generalizing m with
  | zero => rfl
  | succ k ih => rw [lastDigits, List.length_append, ih, List.length_singleton]

def rounded (places : Nat) (q : ℚ) : ℚ :=
  let magnitude := mkRat (inUnits places q) (tenTo places)
  if q < 0 then -magnitude else magnitude

theorem readUnsignedReal_digits (units : Nat) (places : Nat) :
    readUnsignedReal (Nat.toDigits 10 (units / tenTo places) ++
        '.' :: lastDigits places (units % tenTo places)) =
      some (mkRat units (tenTo places), []) := by
  have hdot : ∀ c ∈ ('.' :: lastDigits places (units % tenTo places)).head?,
      ¬ c.isDigit := by
    intro c hc
    rw [← Option.some.inj hc]
    decide
  have hwhole : ∀ c ∈ Nat.toDigits 10 (units / tenTo places), c.isDigit :=
    fun c hc => isDigit_of_mem_digits hc
  have hdigits : ∀ c ∈ lastDigits places (units % tenTo places), c.isDigit :=
    fun c hc => isDigit_of_mem_lastDigits hc
  have hnothing : ∀ c ∈ ([] : List Char).head?, ¬ c.isDigit := by simp
  obtain ⟨htake, hdrop⟩ := takeWhile_append hwhole hdot
  obtain ⟨hplaces, hnone⟩ := takeWhile_append hdigits hnothing
  rw [List.append_nil] at hplaces hnone
  have hvalue : Nat.ofDigitChars 10 (Nat.toDigits 10 (units / tenTo places) ++
      lastDigits places (units % tenTo places)) 0 = units := by
    rw [Nat.ofDigitChars_append, Nat.ofDigitChars_ten_toDigits, ofDigitChars_lastDigits,
      Nat.mod_mod]
    exact Nat.div_add_mod units _
  unfold readUnsignedReal
  simp only [htake, hdrop, hplaces, hnone, hvalue, length_lastDigits]
  rw [if_neg]
  simp [Nat.toDigits_ne_nil]

theorem readReal_fixedPoint (places : Nat) (q : ℚ) :
    readReal ((fixedPoint places q).dropWhile isSpace) = some (rounded places q, []) := by
  have hread := readUnsignedReal_digits (inUnits places q) places
  unfold fixedPoint rounded
  by_cases hq : q < 0
  · simp only [if_pos hq, List.cons_append, List.nil_append]
    rw [List.dropWhile_cons_of_neg (by decide)]
    simp [readReal, hread]
  · obtain ⟨c, cs, hdigits, hc⟩ := head_digits (inUnits places q / tenTo places)
    have hminus : c ≠ '-' := by rintro rfl; cases hc
    have hplus : c ≠ '+' := by rintro rfl; cases hc
    rw [hdigits, List.cons_append] at hread
    simp only [if_neg hq, List.nil_append]
    rw [hdigits, List.cons_append,
      List.dropWhile_cons_of_neg (by simp [not_space_of_isDigit hc])]
    unfold readReal
    split
    · next heq => exact absurd (List.cons.inj heq).1 hminus
    · next heq => exact absurd (List.cons.inj heq).1 hplus
    · exact hread

/-- A number whose denominator divides that of the places is not rounded. -/
theorem rounded_eq {places : Nat} (h : q.den ∣ tenTo places) : rounded places q = q := by
  obtain ⟨c, hc⟩ := h
  have hden : 0 < q.den := q.den_pos
  have hpow := tenTo_pos places
  have hcpos : c ≠ 0 := by
    rintro rfl
    omega
  have hscaled : q.num.natAbs * tenTo places = q.den * (q.num.natAbs * c) := by
    rw [hc]
    ring
  have hunits : inUnits places q = q.num.natAbs * c := by
    unfold inUnits
    simp only [hscaled, Nat.mul_mod_right, Nat.mul_div_cancel_left _ hden]
    rw [if_pos (by omega)]
  have hmagnitude : mkRat (inUnits places q) (tenTo places) = mkRat q.num.natAbs q.den := by
    rw [hunits, hc]
    push_cast
    exact Rat.mkRat_mul_right hcpos
  unfold rounded
  simp only [hmagnitude]
  split
  · next hneg =>
      have hnum : (q.num.natAbs : Int) = -q.num := by
        have := Rat.num_neg.mpr hneg
        omega
      rw [hnum, Rat.neg_mkRat, neg_neg, Rat.mkRat_self]
  · next hnonneg =>
      have hnum : (q.num.natAbs : Int) = q.num := by
        have := Rat.num_nonneg.mpr (not_lt.mp hnonneg)
        omega
      rw [hnum, Rat.mkRat_self]

/-! ## Formats that read what was printed -/

theorem scanf_integer (hrest : ∀ c ∈ rest.head?, ¬ c.isDigit) :
    scanf (.integer type :: fs) (decimal i ++ rest) =
      .integer (type.store i) :: scanf fs rest := by
  rw [scanf, readInteger_decimal i hrest]

theorem scanf_integer_ordinary (hdigit : ¬ c.isDigit) (hspace : isSpace c = false) :
    scanf (.integer type :: .ordinary c :: fs) (decimal i ++ c :: rest) =
      .integer (type.store i) :: scanf fs rest := by
  have hrest : ∀ d ∈ (c :: rest).head?, ¬ d.isDigit := by
    intro d hd
    rwa [← Option.some.inj hd]
  rw [scanf_integer hrest, scanf]
  simp [hspace]

theorem scanf_integer_end : scanf [.integer type] (decimal i) = [.integer (type.store i)] := by
  have hnothing : ∀ c ∈ ([] : List Char).head?, ¬ c.isDigit := by simp
  have hread := @scanf_integer [] i type [] hnothing
  rwa [List.append_nil] at hread

theorem scanf_real_end {places : Nat} :
    scanf [.real] (fixedPoint places q) = [.real (rounded places q)] := by
  simp only [scanf, readReal_fixedPoint]

theorem scanf_char (s : List Char) : scanf [.char] (c :: s) = [.char c] := rfl

theorem scanf_line (hs : s ≠ []) (hnewline : newline ∉ s) :
    scanf [.line, .ordinary newline] (s ++ [newline]) = [.text s] := by
  have hall : ∀ c ∈ s, decide (c ≠ newline) = true := by
    intro c hc
    apply decide_eq_true
    rintro rfl
    exact hnewline hc
  have htake : (s ++ [newline]).takeWhile (· ≠ newline) = s := by
    rw [List.takeWhile_append_of_pos hall]
    simp
  have hdrop : (s ++ [newline]).dropWhile (· ≠ newline) = [newline] := by
    rw [List.dropWhile_append_of_pos hall]
    simp
  rw [scanf, htake, hdrop, if_neg hs]
  rfl

theorem newline_notMem_decimal (i : Int) : newline ∉ decimal i := by
  have hdigits : ∀ n, newline ∉ Nat.toDigits 10 n := by
    intro n h
    have hdigit := isDigit_of_mem_digits h
    revert hdigit
    decide
  cases i with
  | ofNat n => exact hdigits n
  | negSucc n =>
      intro h
      rcases List.mem_cons.mp h with h | h
      · revert h
        decide
      · exact hdigits (n + 1) h

theorem newline_notMem_fixedPoint (places : Nat) (q : ℚ) : newline ∉ fixedPoint places q := by
  intro h
  unfold fixedPoint at h
  have hfalse : ¬ newline.isDigit := by decide
  rcases List.mem_append.mp h with h | h
  · rcases List.mem_append.mp h with h | h
    · split at h
      · revert h
        decide
      · cases h
    · exact hfalse (isDigit_of_mem_digits h)
  · rcases List.mem_cons.mp h with h | h
    · revert h
      decide
    · exact hfalse (isDigit_of_mem_lastDigits h)

end

end Dimemas.Library.Formats
