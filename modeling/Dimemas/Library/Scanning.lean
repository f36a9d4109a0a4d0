import Dimemas.Library.Formats
/-!
# Scanned text

Conversions of `sscanf` for texts and words, with values that are not assigned, and the functions
that take a list of tokens apart.
-/

namespace Dimemas.Library.Scanning

open Dimemas.Library.Formats

/-- The parts of a format. A value that is not assigned has a star. -/
inductive Conversion
  | literal (c : Char)
  | integer (type : IntType) (assigned : Bool)
  | upTo (stop : Char) (assigned : Bool)
  | word

def scan : List Conversion → List Char → List Value
  | [], _ => []
  | .literal _ :: _, [] => []
  | .literal c :: fs, d :: text => if d = c then scan fs text else []
  | .integer type assigned :: fs, text =>
      match readInteger (text.dropWhile isSpace) with
      | some (i, rest) => (if assigned then [.integer (type.store i)] else []) ++ scan fs rest
      | none => []
  | .upTo stop assigned :: fs, text =>
      let read := text.takeWhile (· ≠ stop)
      if read = [] then []
      else (if assigned then [.text read] else []) ++ scan fs (text.dropWhile (· ≠ stop))
  | .word :: fs, text =>
      let text := text.dropWhile isSpace
      let read := text.takeWhile (!isSpace ·)
      if read = [] then [] else .text read :: scan fs (text.dropWhile (!isSpace ·))

def literals (s : List Char) : List Conversion := s.map .literal

def separated (separator : Char) (types : List IntType) : List Conversion :=
  types.flatMap fun type => [.literal separator, .integer type true]

def atoi (text : List Char) : Int :=
  match readInteger (text.dropWhile isSpace) with
  | some (i, _) => IntType.int.store i
  | none => 0

def atoll (text : List Char) : Int :=
  match readInteger (text.dropWhile isSpace) with
  | some (i, _) => IntType.longLong.store i
  | none => 0

/-- `strtoul` for a number without sign, whose base is seen from its first digits. -/
def strtoul (text : List Char) : Nat :=
  match text.dropWhile isSpace with
  | '0' :: rest => Nat.ofDigitChars 8 (rest.takeWhile fun c => c.isDigit && c ≠ '8' && c ≠ '9') 0
  | rest => Nat.ofDigitChars 10 (rest.takeWhile Char.isDigit) 0

def tokens (separator : Char) (text : List Char) : List (List Char) :=
  (text.splitOn separator).filter (· ≠ [])

def integerTokens (rest : List Char) : Int → List Int → List (List Char)
  | i, [] => [decimal i ++ rest]
  | i, j :: is => decimal i :: integerTokens rest j is

section

variable {fs : List Conversion} {type : IntType} {i : Int} {c stop : Char} {s rest : List Char}
variable {ls : List (List Char)}

theorem scan_literals (s : List Char) : scan (literals s ++ fs) (s ++ rest) = scan fs rest := by
  induction s with
  | nil => rfl
  | cons c s ih =>
      calc scan (literals (c :: s) ++ fs) (c :: (s ++ rest))
        _ = scan (literals s ++ fs) (s ++ rest) := if_pos rfl
        _ = scan fs rest := ih

theorem scan_literal : scan (.literal c :: fs) (c :: rest) = scan fs rest := if_pos rfl

theorem scan_literal_of_ne {d : Char} (h : d ≠ c) : scan (.literal c :: fs) (d :: rest) = [] :=
  if_neg h

theorem scan_integer (hrest : ∀ c ∈ rest.head?, ¬ c.isDigit) :
    scan (.integer type true :: fs) (decimal i ++ rest) =
      .integer (type.store i) :: scan fs rest := by
  rw [scan, readInteger_decimal i hrest]
  rfl

theorem scan_integer_skipped (hrest : ∀ c ∈ rest.head?, ¬ c.isDigit) :
    scan (.integer type false :: fs) (decimal i ++ rest) = scan fs rest := by
  rw [scan, readInteger_decimal i hrest]
  rfl

theorem takeWhile_ne_append (hs : stop ∉ s) (hrest : ∀ c ∈ rest.head?, c = stop) :
    (s ++ rest).takeWhile (· ≠ stop) = s ∧ (s ++ rest).dropWhile (· ≠ stop) = rest := by
  have hkeep : ∀ c ∈ s, decide (c ≠ stop) = true := by
    intro c hc
    exact decide_eq_true fun heq => hs (heq ▸ hc)
  have hnone : rest.takeWhile (· ≠ stop) = [] ∧ rest.dropWhile (· ≠ stop) = rest := by
    cases rest with
    | nil => exact ⟨rfl, rfl⟩
    | cons c cs =>
        have hc : ¬ decide (c ≠ stop) = true := by simpa using hrest c rfl
        exact ⟨List.takeWhile_cons_of_neg hc, List.dropWhile_cons_of_neg hc⟩
  rw [List.takeWhile_append_of_pos hkeep, List.dropWhile_append_of_pos hkeep, hnone.1, hnone.2]
  exact ⟨List.append_nil s, rfl⟩

theorem scan_upTo (hs : s ≠ []) (hstop : stop ∉ s) (hrest : ∀ c ∈ rest.head?, c = stop) :
    scan (.upTo stop true :: fs) (s ++ rest) = .text s :: scan fs rest := by
  obtain ⟨htake, hdrop⟩ := takeWhile_ne_append hstop hrest
  simp only [scan, htake, hdrop, if_neg hs, if_true, List.singleton_append]

theorem scan_upTo_skipped (hs : s ≠ []) (hstop : stop ∉ s) (hrest : ∀ c ∈ rest.head?, c = stop) :
    scan (.upTo stop false :: fs) (s ++ rest) = scan fs rest := by
  obtain ⟨htake, hdrop⟩ := takeWhile_ne_append hstop hrest
  simp only [scan, htake, hdrop, if_neg hs, Bool.false_eq_true, if_false, List.nil_append]

theorem scan_word (hs : s ≠ []) (hspace : ∀ c ∈ s, isSpace c = false)
    (hrest : ∀ c ∈ rest.head?, isSpace c = true) :
    scan (.word :: fs) (s ++ rest) = .text s :: scan fs rest := by
  have hkeep : ∀ c ∈ s, (!isSpace c) = true := by
    intro c hc
    rw [hspace c hc]
    rfl
  have hdropSpace : (s ++ rest).dropWhile isSpace = s ++ rest := by
    obtain ⟨c, cs, rfl⟩ := List.exists_cons_of_ne_nil hs
    rw [List.cons_append, List.dropWhile_cons_of_neg]
    rw [hspace c List.mem_cons_self]
    exact Bool.false_ne_true
  have hnone : rest.takeWhile (!isSpace ·) = [] ∧ rest.dropWhile (!isSpace ·) = rest := by
    cases rest with
    | nil => exact ⟨rfl, rfl⟩
    | cons c cs =>
        have hc : ¬ (!isSpace c) = true := by simpa using hrest c rfl
        exact ⟨List.takeWhile_cons_of_neg hc, List.dropWhile_cons_of_neg hc⟩
  have htake : (s ++ rest).takeWhile (!isSpace ·) = s := by
    rw [List.takeWhile_append_of_pos hkeep, hnone.1, List.append_nil]
  have hdrop : (s ++ rest).dropWhile (!isSpace ·) = rest := by
    rw [List.dropWhile_append_of_pos hkeep, hnone.2]
  simp only [scan, hdropSpace, htake, hdrop, if_neg hs]

theorem scan_separated {types : List IntType} {is : List Int} (hlength : types.length = is.length)
    (hc : ¬ c.isDigit) (hrest : ∀ d ∈ rest.head?, ¬ d.isDigit) :
    scan (separated c types ++ fs) ((is.flatMap fun i => c :: decimal i) ++ rest) =
      List.zipWith (fun type i => .integer (type.store i)) types is ++ scan fs rest := by
  induction types generalizing is with
  | nil =>
      have his : is = [] := List.length_eq_zero_iff.mp hlength.symm
      subst his
      rfl
  | cons type types ih =>
      cases is with
      | nil => cases hlength
      | cons i is =>
          have hnext : ∀ d ∈ ((is.flatMap fun i => c :: decimal i) ++ rest).head?,
              ¬ d.isDigit := by
            intro d hd
            cases is with
            | nil => exact hrest d hd
            | cons j is =>
                rw [← Option.some.inj hd]
                exact hc
          have hread := ih (Nat.succ.inj hlength)
          rw [List.flatMap_cons, List.cons_append, List.cons_append, List.append_assoc]
          calc scan (separated c (type :: types) ++ fs) _
            _ = scan (.literal c :: .integer type true :: (separated c types ++ fs)) _ := rfl
            _ = scan (.integer type true :: (separated c types ++ fs)) _ := scan_literal
            _ = .integer (type.store i) :: scan (separated c types ++ fs) _ := scan_integer hnext
            _ = _ := by rw [hread]; rfl

theorem scan_integers {types : List IntType} {is : List Int} (hlength : types.length = is.length)
    (hc : ¬ c.isDigit) (hrest : ∀ d ∈ rest.head?, ¬ d.isDigit) :
    scan (.integer type true :: (separated c types ++ fs))
        (decimal i ++ ((is.flatMap fun i => c :: decimal i) ++ rest)) =
      .integer (type.store i) ::
        (List.zipWith (fun type i => .integer (type.store i)) types is ++ scan fs rest) := by
  have hnext : ∀ d ∈ ((is.flatMap fun i => c :: decimal i) ++ rest).head?, ¬ d.isDigit := by
    intro d hd
    cases is with
    | nil => exact hrest d hd
    | cons j is =>
        rw [← Option.some.inj hd]
        exact hc
  rw [scan_integer hnext, scan_separated hlength hc hrest]

theorem atoi_append (hrest : ∀ c ∈ rest.head?, ¬ c.isDigit) :
    atoi (decimal i ++ rest) = IntType.int.store i := by
  rw [atoi, readInteger_decimal i hrest]

theorem atoll_append (hrest : ∀ c ∈ rest.head?, ¬ c.isDigit) :
    atoll (decimal i ++ rest) = IntType.longLong.store i := by
  rw [atoll, readInteger_decimal i hrest]

theorem atoi_decimal (hmin : -2147483648 ≤ i) (hmax : i < 2147483648) : atoi (decimal i) = i := by
  have hread := @readInteger_decimal [] i (by simp)
  rw [List.append_nil] at hread
  rw [atoi, hread]
  exact store_int hmin hmax

theorem head_digits_ne_zero {n : Nat} (h : 0 < n) (cs : List Char) :
    Nat.toDigits 10 n ≠ '0' :: cs := by
  induction n using Nat.strong_induction_on generalizing cs with
  | _ n ih =>
      by_cases hlt : n < 10
      · rw [Nat.toDigits_of_lt_base hlt]
        intro heq
        obtain ⟨hchar, -⟩ := List.cons.inj heq
        have hdigit : Nat.ofDigitChars 10 [Nat.digitChar n] 0 = 10 * 0 + n := by
          rw [Nat.ofDigitChars_cons_digitChar_of_lt_ten hlt, Nat.ofDigitChars_nil]
        rw [hchar] at hdigit
        have hzero : Nat.ofDigitChars 10 ['0'] 0 = 0 := rfl
        omega
      · rw [Nat.toDigits_of_base_le (by decide) (Nat.le_of_not_lt hlt)]
        intro heq
        obtain ⟨c, ds, hds⟩ := List.exists_cons_of_ne_nil (@Nat.toDigits_ne_nil (n / 10) 10)
        rw [hds, List.cons_append] at heq
        obtain ⟨rfl, -⟩ := List.cons.inj heq
        exact ih (n / 10) (by omega) (by omega) ds hds

theorem strtoul_decimal (n : Nat) : strtoul (decimal n) = n := by
  cases n with
  | zero => rfl
  | succ n =>
      have hspace : (decimal (n + 1 : Nat)).dropWhile isSpace = Nat.toDigits 10 (n + 1) := by
        obtain ⟨c, cs, hdigits, hc⟩ := head_digits (n + 1)
        show (Nat.toDigits 10 (n + 1)).dropWhile isSpace = _
        rw [hdigits, List.dropWhile_cons_of_neg (by simp [not_space_of_isDigit hc])]
      rw [strtoul, hspace]
      split
      · next rest heq => exact absurd heq (head_digits_ne_zero (Nat.succ_pos n) rest)
      · have htake := (@takeWhile_append (Nat.toDigits 10 (n + 1)) []
          (fun c hc => isDigit_of_mem_digits hc) (by simp)).1
        rw [List.append_nil] at htake
        rw [htake, Nat.ofDigitChars_ten_toDigits]

theorem tokens_intercalate (hls : ls ≠ []) (hne : ∀ l ∈ ls, l ≠ []) (hsep : ∀ l ∈ ls, c ∉ l) :
    tokens c ([c].intercalate ls) = ls := by
  rw [tokens, List.splitOn_intercalate c hsep hls]
  apply List.filter_eq_self.mpr
  intro l hl
  exact decide_eq_true (hne l hl)

theorem intercalate_integerTokens (c : Char) (rest : List Char) (i : Int) (is : List Int) :
    [c].intercalate (integerTokens rest i is) =
      decimal i ++ ((is.flatMap fun i => c :: decimal i) ++ rest) := by
  induction is generalizing i with
  | nil => exact List.intercalate_singleton ..
  | cons j is ih =>
      have hne : integerTokens rest j is ≠ [] := by
        cases is with
        | nil => exact List.cons_ne_nil _ _
        | cons k is => exact List.cons_ne_nil _ _
      rw [integerTokens, List.intercalate_cons_of_ne_nil hne, ih, List.flatMap_cons,
        List.cons_append, List.cons_append, List.append_assoc, List.append_assoc]
      rfl

theorem tokens_integers (hdigit : ¬ c.isDigit) (hminus : c ≠ '-') (hrest : c ∉ rest)
    (is : List Int) :
    tokens c (decimal i ++ ((is.flatMap fun i => c :: decimal i) ++ rest)) =
      integerTokens rest i is := by
  have hdecimal : ∀ j : Int, c ∉ decimal j := by
    intro j
    cases j with
    | ofNat n => exact notMem_decimal n hdigit
    | negSucc n =>
        intro h
        rcases List.mem_cons.mp h with h | h
        · exact hminus h
        · exact notMem_decimal (n + 1) hdigit h
  have hspec : ∀ (i : Int), ∀ l ∈ integerTokens rest i is, l ≠ [] ∧ c ∉ l := by
    induction is with
    | nil =>
        intro i l hl
        rw [List.mem_singleton.mp hl]
        refine ⟨List.append_ne_nil_of_left_ne_nil (decimal_ne_nil i) rest, ?_⟩
        intro h
        exact (List.mem_append.mp h).elim (hdecimal i) hrest
    | cons j is ih =>
        intro i l hl
        rcases List.mem_cons.mp hl with rfl | hl
        · exact ⟨decimal_ne_nil i, hdecimal i⟩
        · exact ih j l hl
  rw [← intercalate_integerTokens, tokens_intercalate _ (fun l hl => (hspec i l hl).1)
    (fun l hl => (hspec i l hl).2)]
  cases is with
  | nil => exact List.cons_ne_nil _ _
  | cons j is => exact List.cons_ne_nil _ _

omit c in
theorem intercalate_ne_nil {d : Char} {l : List Char} (h : l ≠ [] ∨ ls ≠ []) :
    [d].intercalate (l :: ls) ≠ [] := by
  by_cases hls : ls = []
  · subst hls
    rw [List.intercalate_singleton]
    exact h.resolve_right fun hne => hne rfl
  · rw [List.intercalate_cons_of_ne_nil hls]
    simp

omit c in
theorem mem_intercalate {c d : Char} (h : c ∈ [d].intercalate ls) : c = d ∨ ∃ l ∈ ls, c ∈ l := by
  induction ls with
  | nil => simp [List.intercalate] at h
  | cons l ls ih =>
      cases ls with
      | nil =>
          rw [List.intercalate_singleton] at h
          exact Or.inr ⟨l, List.mem_cons_self, h⟩
      | cons m ls =>
          rw [List.intercalate_cons_cons, List.mem_append, List.mem_append] at h
          rcases h with (h | h) | h
          · exact Or.inr ⟨l, List.mem_cons_self, h⟩
          · exact Or.inl (List.mem_singleton.mp h)
          · rcases ih h with hd | ⟨l', hl', hc⟩
            · exact Or.inl hd
            · exact Or.inr ⟨l', List.mem_cons_of_mem l hl', hc⟩

end

end Dimemas.Library.Scanning
