import Dimemas.Library.Lines
import Dimemas.Library.Scanning
import Dimemas.Library.Tables
/-!
# The extra statistics of a trace

The translator writes a line with the counters of each thread, and the deadlock analyser reads one
line for each rank.
-/

namespace Dimemas.Utils.ExtraStatistics

open Dimemas.Library.Formats
open Dimemas.Library.Lines
open Dimemas.Library.Scanning
open Dimemas.Library.Tables

/-! ## The translator -/

/-- The counters of a thread in `TaskTranslationInfo`. -/
structure Counters where
  sendCounter : UInt32
  isendCounter : UInt32
  recvCounter : UInt32
  irecvCounter : UInt32
  waitCounter : UInt32
  glopCounter : UInt32
  pendentISendCounter : UInt32
  pendentIRecvCounter : UInt32
deriving DecidableEq

/-- The least number of global operations of a thread. -/
def minGlops (threads : List Counters) : UInt32 :=
  threads.foldl (fun least c => if c.glopCounter < least then c.glopCounter else least) 4294967295

def Counters.fields (least : UInt32) (c : Counters) : List UInt32 :=
  [c.sendCounter, c.isendCounter, c.recvCounter, c.irecvCounter, c.waitCounter, c.glopCounter,
    c.pendentISendCounter, c.pendentIRecvCounter, c.glopCounter - least]

def unsigned (n : UInt32) : List Char := decimal n.toNat

def Counters.line (least : UInt32) (c : Counters) : List Char :=
  [','].intercalate ((c.fields least).map unsigned)

def commentLine : List Char := "// #send,#isend,#recv, #irecv, #wait, #glop".toList

/-- The file that `Translate` writes for the threads of the tasks. -/
def writeStatistics (translationInfo : List (List Counters)) : List Char :=
  (commentLine :: translationInfo.flatten.map (Counters.line (minGlops translationInfo.flatten)))
    |>.flatMap fun line => line ++ [newline]

/-! ## The deadlock analyser -/

/-- `struct t_estats`. -/
structure Estats where
  sendCounter : UInt32
  isendCounter : UInt32
  recvCounter : UInt32
  irecvCounter : UInt32
  waitCounter : UInt32
  glopCounter : UInt32
  pendentISend : UInt32
  pendentIRecv : UInt32
  pendentGlop : UInt32
  pendentWait : UInt32
deriving DecidableEq

/-- The entries of the ranks, the number of the next one, and the greatest numbers of operations. -/
structure Reading where
  estatsPerRank : List Estats
  cnt : Nat
  maxSends : UInt32
  maxRecvs : UInt32
  maxGlops : UInt32

/-- `strstr(line, "//") != NULL`. -/
def isComment : List Char → Bool
  | '/' :: '/' :: _ => true
  | _ :: line => isComment line
  | [] => false

/-- The tokens of `strtok` between separators. -/
def tokensOf (separator : Char → Bool) (text : List Char) : List (List Char) :=
  (text.splitOnP separator).filter (· ≠ [])

def lineTokens (line : List Char) : List (List Char) :=
  match line.dropWhile (· = ',') with
  | [] => []
  | text =>
      text.takeWhile (· ≠ ',') ::
        tokensOf (fun c => c = ' ' || c = ',') ((text.dropWhile (· ≠ ',')).drop 1)

/-- A number in an `unsigned int`. -/
def atou (token : List Char) : UInt32 := UInt32.ofInt (atoi token)

def storeField (e : Estats) (s : Reading) (value : UInt32) : Nat → Option (Estats × Reading)
  | 0 => some ({ e with sendCounter := value }, s)
  | 1 =>
      some ({ e with isendCounter := value }, if s.maxSends < e.sendCounter + value then
        { s with maxSends := e.sendCounter + value } else s)
  | 2 => some ({ e with recvCounter := value }, s)
  | 3 => some ({ e with irecvCounter := value }, s)
  | 4 =>
      some ({ e with waitCounter := value }, if s.maxRecvs < e.recvCounter + e.irecvCounter then
        { s with maxRecvs := e.recvCounter + e.irecvCounter } else s)
  | 5 =>
      some ({ e with glopCounter := value }, if s.maxGlops < value then
        { s with maxGlops := value } else s)
  | 6 => some ({ e with pendentISend := value }, s)
  | 7 => some ({ e with pendentIRecv := value }, s)
  | 8 => some ({ e with pendentGlop := value }, s)
  | 9 => some ({ e with pendentWait := value }, s)
  | _ => none

def storeFields : Nat → List (List Char) → Estats × Reading → Option (Estats × Reading)
  | _, [], x => some x
  | pos, token :: tokens, (e, s) =>
      (storeField e s (atou token) pos).bind (storeFields (pos + 1) tokens)

/-- A line is read in the entry of the next rank, which the array must have. -/
def parseLine (s : Reading) (line : List Char) : Option Reading :=
  if isComment line then some s
  else
    match lineTokens line with
    | [] => some { s with cnt := s.cnt + 1 }
    | tokens =>
        (s.estatsPerRank[s.cnt]?).bind fun e =>
          (storeFields 0 tokens (e, s)).map fun (e, s) =>
            { s with estatsPerRank := s.estatsPerRank.set s.cnt e, cnt := s.cnt + 1 }

def parseLines : Reading → List (List Char) → Option Reading
  | s, [] => some s
  | s, line :: lines => (parseLine s line).bind (parseLines · lines)

/-- `parse_estats`, with the array of `total_ranks` entries. -/
def parseEstats (epr : List Estats) (text : List Char) : Option Reading :=
  parseLines ⟨epr, 0, 0, 0, 0⟩ (splitLines newline text)

/-- The entry of a rank with the counters of a thread. The number of pending waits is not in the
file. -/
def Counters.entry (least : UInt32) (pendentWait : UInt32) (c : Counters) : Estats where
  sendCounter := c.sendCounter
  isendCounter := c.isendCounter
  recvCounter := c.recvCounter
  irecvCounter := c.irecvCounter
  waitCounter := c.waitCounter
  glopCounter := c.glopCounter
  pendentISend := c.pendentISendCounter
  pendentIRecv := c.pendentIRecvCounter
  pendentGlop := c.glopCounter - least
  pendentWait := pendentWait

/-- Whatever the array of the ranks had, the entry of each rank gets the counters of the first thread
of its task, and no other entry is written. -/
def StatisticsAgree (translationInfo : List (List Counters)) : Prop :=
  ∀ epr : List Estats, epr.length = translationInfo.length →
    ∃ s, parseEstats epr (writeStatistics translationInfo) = some s ∧
      ∀ (rank : Nat) (task : List Counters), translationInfo[rank]? = some task →
        ∃ c pendentWait, task.head? = some c ∧
          s.estatsPerRank[rank]? = some (c.entry (minGlops translationInfo.flatten) pendentWait)

section

variable {least : UInt32} {c : Counters} {s s' : Reading} {line : List Char}

/-! ## The tokens of a line -/

theorem tokensOf_intercalate {separator : Char → Bool} {ts : List (List Char)} (hts : ts ≠ [])
    (hcomma : separator ',' = true) (hne : ∀ t ∈ ts, t ≠ [])
    (hsep : ∀ t ∈ ts, ∀ c ∈ t, separator c = false) :
    tokensOf separator ([','].intercalate ts) = ts := by
  unfold tokensOf
  induction ts with
  | nil => exact absurd rfl hts
  | cons t ts ih =>
      obtain ⟨ht, htsne⟩ := List.forall_mem_cons.mp hne
      obtain ⟨hchars, htsep⟩ := List.forall_mem_cons.mp hsep
      cases ts with
      | nil =>
          rw [List.intercalate_singleton, List.splitOnP_eq_singleton hchars]
          simp [ht]
      | cons t' ts =>
          rw [List.intercalate_cons_cons, List.append_assoc, List.singleton_append,
            List.splitOnP_append_cons_of_forall_mem hchars ',' hcomma,
            List.filter_cons_of_pos (by simp [ht]), ih (List.cons_ne_nil _ _) htsne htsep]

theorem lineTokens_intercalate {t t' : List Char} {ts : List (List Char)}
    (hne : ∀ x ∈ t :: t' :: ts, x ≠ []) (hsep : ∀ x ∈ t :: t' :: ts, ∀ c ∈ x, c ≠ ',' ∧ c ≠ ' ') :
    lineTokens ([','].intercalate (t :: t' :: ts)) = t :: t' :: ts := by
  obtain ⟨ht, htsne⟩ := List.forall_mem_cons.mp hne
  obtain ⟨hchars, htsep⟩ := List.forall_mem_cons.mp hsep
  obtain ⟨c, cs, rfl⟩ := List.exists_cons_of_ne_nil ht
  have hcomma : ',' ∉ c :: cs := fun hmem => (hchars ',' hmem).1 rfl
  obtain ⟨htake, hdrop⟩ :=
    @takeWhile_ne_append ',' (c :: cs) (',' :: [','].intercalate (t' :: ts)) hcomma (by simp)
  have hrest : tokensOf (fun c => c = ' ' || c = ',') ([','].intercalate (t' :: ts)) = t' :: ts := by
    apply tokensOf_intercalate (List.cons_ne_nil _ _) (by decide) htsne
    intro x hx d hd
    obtain ⟨hd, hd'⟩ := htsep x hx d hd
    simp [hd, hd']
  have htext : ([','].intercalate ((c :: cs) :: t' :: ts)).dropWhile (· = ',') =
      c :: cs ++ ',' :: [','].intercalate (t' :: ts) := by
    rw [List.intercalate_cons_cons, List.append_assoc, List.singleton_append, List.cons_append,
      List.dropWhile_cons_of_neg (by simpa using (hchars c List.mem_cons_self).1)]
  unfold lineTokens
  rw [htext]
  show (c :: cs ++ ',' :: [','].intercalate (t' :: ts)).takeWhile (· ≠ ',') ::
    tokensOf (fun c => c = ' ' || c = ',')
      (((c :: cs ++ ',' :: [','].intercalate (t' :: ts)).dropWhile (· ≠ ',')).drop 1) = _
  rw [htake, hdrop, List.drop_succ_cons, List.drop_zero, hrest]

theorem mem_unsigned {n : UInt32} {d : Char} (h : d ∈ unsigned n) :
    d ≠ ',' ∧ d ≠ ' ' ∧ d ≠ '/' ∧ d ≠ newline := by
  refine ⟨?_, ?_, ?_, ?_⟩
  all_goals
    rintro rfl
    exact notMem_decimal _ (by decide) h

theorem atou_unsigned (n : UInt32) {rest : List Char} (hrest : ∀ d ∈ rest.head?, ¬ d.isDigit) :
    atou (unsigned n ++ rest) = n := by
  unfold atou atoi unsigned
  rw [readInteger_decimal _ hrest]
  have hlt := n.toNat_lt
  show UInt32.ofNat (((saturate n.toNat).bmod 4294967296 % 4294967296).toNat) = n
  have hmod : (n.toNat : Int).bmod 4294967296 % 4294967296 = (n.toNat : Int) % 4294967296 :=
    @Int.bmod_emod n.toNat 4294967296
  rw [saturate_eq (by omega) (by omega), hmod, Int.emod_eq_of_lt (by omega) (by omega)]
  exact UInt32.ofNat_toNat

/-! ## The lines that are read -/

def Counters.tokens (least : UInt32) (c : Counters) : List (List Char) :=
  [unsigned c.sendCounter, unsigned c.isendCounter, unsigned c.recvCounter,
    unsigned c.irecvCounter, unsigned c.waitCounter, unsigned c.glopCounter,
    unsigned c.pendentISendCounter, unsigned c.pendentIRecvCounter,
    unsigned (c.glopCounter - least) ++ [newline]]

theorem mem_tokens {t : List Char} (h : t ∈ c.tokens least) :
    ∃ (n : UInt32) (rest : List Char), t = unsigned n ++ rest ∧ (rest = [] ∨ rest = [newline]) := by
  simp only [Counters.tokens, List.mem_cons, List.not_mem_nil, or_false] at h
  rcases h with rfl | rfl | rfl | rfl | rfl | rfl | rfl | rfl | rfl
  all_goals first
    | exact ⟨_, [], (List.append_nil _).symm, .inl rfl⟩
    | exact ⟨_, [newline], rfl, .inr rfl⟩

theorem line_eq : c.line least ++ [newline] = [','].intercalate (c.tokens least) := by
  simp [Counters.line, Counters.fields, Counters.tokens, List.intercalate_cons_cons]

theorem lineTokens_line : lineTokens (c.line least ++ [newline]) = c.tokens least := by
  rw [line_eq]
  apply lineTokens_intercalate
  · intro t ht
    obtain ⟨n, rest, rfl, -⟩ := mem_tokens ht
    exact List.append_ne_nil_of_left_ne_nil (decimal_ne_nil _) _
  · intro t ht d hd
    obtain ⟨n, rest, rfl, hrest⟩ := mem_tokens ht
    rcases List.mem_append.mp hd with hd | hd
    · exact ⟨(mem_unsigned hd).1, (mem_unsigned hd).2.1⟩
    · rcases hrest with rfl | rfl
      · cases hd
      · rw [List.mem_singleton.mp hd]
        decide

theorem isComment_of_notMem (h : '/' ∉ line) : isComment line = false := by
  induction line with
  | nil => rfl
  | cons d line ih =>
      have hd : d ≠ '/' := fun heq => h (heq ▸ List.mem_cons_self)
      have hline := ih fun hmem => h (List.mem_cons_of_mem d hmem)
      unfold isComment
      split
      · next heq => exact absurd (List.cons.inj heq).1 hd
      · next heq =>
          rw [← (List.cons.inj heq).2]
          exact hline
      · rfl

theorem notMem_line {d : Char} (hd : d = '/' ∨ d = newline) : d ∉ c.line least := by
  intro hmem
  rcases mem_intercalate hmem with heq | ⟨t, ht, hmem⟩
  · rcases hd with rfl | rfl <;> revert heq <;> decide
  · obtain ⟨n, -, rfl⟩ := List.mem_map.mp ht
    obtain ⟨-, -, hslash, hnewline⟩ := mem_unsigned hmem
    rcases hd with rfl | rfl
    · exact hslash rfl
    · exact hnewline rfl

theorem storeField_keeps {e e' : Estats} {value : UInt32} {pos : Nat}
    (h : storeField e s value pos = some (e', s')) :
    s'.estatsPerRank = s.estatsPerRank ∧ s'.cnt = s.cnt := by
  unfold storeField at h
  split at h
  all_goals first
    | cases h <;> exact ⟨rfl, rfl⟩
    | (cases h; split <;> exact ⟨rfl, rfl⟩)

theorem storeFields_keeps {e e' : Estats} {pos : Nat} {ts : List (List Char)}
    (h : storeFields pos ts (e, s) = some (e', s')) :
    s'.estatsPerRank = s.estatsPerRank ∧ s'.cnt = s.cnt := by
  induction ts generalizing pos e s with
  | nil =>
      cases h
      exact ⟨rfl, rfl⟩
  | cons t ts ih =>
      obtain ⟨⟨e₁, s₁⟩, hfield, hrest⟩ := Option.bind_eq_some_iff.mp h
      obtain ⟨hranks, hcnt⟩ := storeField_keeps hfield
      obtain ⟨hranks', hcnt'⟩ := ih hrest
      exact ⟨hranks'.trans hranks, hcnt'.trans hcnt⟩

theorem storeFields_tokens (e : Estats) (s : Reading) :
    ∃ s', storeFields 0 (c.tokens least) (e, s) = some (c.entry least e.pendentWait, s') := by
  have hstore : ∃ s', storeFields 0 (c.tokens least) (e, s) = some
      (⟨atou (unsigned c.sendCounter), atou (unsigned c.isendCounter),
        atou (unsigned c.recvCounter), atou (unsigned c.irecvCounter),
        atou (unsigned c.waitCounter), atou (unsigned c.glopCounter),
        atou (unsigned c.pendentISendCounter), atou (unsigned c.pendentIRecvCounter),
        atou (unsigned (c.glopCounter - least) ++ [newline]), e.pendentWait⟩, s') := ⟨_, rfl⟩
  have hplain : ∀ n, atou (unsigned n) = n := by
    intro n
    have hn := @atou_unsigned n [] (by simp)
    rwa [List.append_nil] at hn
  have hlast : ∀ n, atou (unsigned n ++ [newline]) = n := fun n => atou_unsigned n (by simp; decide)
  simp only [hplain, hlast] at hstore
  exact hstore

/-- The line of a thread is read in the entry of the next rank. -/
theorem parseLine_line (s : Reading) :
    (s.estatsPerRank.length ≤ s.cnt ∧ parseLine s (c.line least ++ [newline]) = none) ∨
      ∃ e s', s.estatsPerRank[s.cnt]? = some e ∧
        parseLine s (c.line least ++ [newline]) = some s' ∧ s'.cnt = s.cnt + 1 ∧
        s'.estatsPerRank = s.estatsPerRank.set s.cnt (c.entry least e.pendentWait) := by
  have hcomment : isComment (c.line least ++ [newline]) = false := by
    apply isComment_of_notMem
    rw [List.mem_append, not_or]
    exact ⟨notMem_line (.inl rfl), by decide⟩
  have hparse : parseLine s (c.line least ++ [newline]) = (s.estatsPerRank[s.cnt]?).bind fun e =>
      (storeFields 0 (c.tokens least) (e, s)).map fun (e, s) =>
        { s with estatsPerRank := s.estatsPerRank.set s.cnt e, cnt := s.cnt + 1 } := by
    unfold parseLine
    rw [hcomment, lineTokens_line]
    rfl
  rw [hparse]
  cases hentry : s.estatsPerRank[s.cnt]? with
  | none => exact .inl ⟨List.getElem?_eq_none_iff.mp hentry, rfl⟩
  | some e =>
      obtain ⟨s', hstore⟩ := @storeFields_tokens least c e s
      obtain ⟨hranks, hcnt⟩ := storeFields_keeps hstore
      right
      refine ⟨e, { s' with
        estatsPerRank := s'.estatsPerRank.set s'.cnt (c.entry least e.pendentWait)
        cnt := s'.cnt + 1 }, rfl, ?_, ?_, ?_⟩
      · simp only [Option.bind_some, hstore, Option.map_some]
      · rw [hcnt]
      · rw [hranks, hcnt]

/-- The lines of some threads: the array has an entry for each of them, which gets its counters. -/
theorem parseLines_lines (threads : List Counters) (s : Reading) :
    (s.estatsPerRank.length < s.cnt + threads.length ∧
      parseLines s (threads.map fun c => c.line least ++ [newline]) = none) ∨
      ∃ s', parseLines s (threads.map fun c => c.line least ++ [newline]) = some s' ∧
        s'.estatsPerRank.length = s.estatsPerRank.length ∧
        (∀ i < s.cnt, s'.estatsPerRank[i]? = s.estatsPerRank[i]?) ∧
        ∀ i c, threads[i]? = some c →
          ∃ pendentWait, s'.estatsPerRank[s.cnt + i]? = some (c.entry least pendentWait) := by
  induction threads generalizing s with
  | nil => exact .inr ⟨s, rfl, rfl, fun _ _ => rfl, by simp⟩
  | cons c threads ih =>
      rw [List.map_cons, parseLines]
      rcases @parseLine_line least c s with ⟨hfull, hnone⟩ | ⟨e, s₁, hentry, hline, hcnt, hranks⟩
      · rw [hnone, List.length_cons]
        exact .inl ⟨by omega, rfl⟩
      · obtain ⟨hlt, -⟩ := List.getElem?_eq_some_iff.mp hentry
        rw [hline, Option.bind_some]
        rcases ih s₁ with ⟨hfull, hnone⟩ | ⟨s', hlines, hlength, hkept, hentries⟩
        · rw [hranks, List.length_set, hcnt] at hfull
          rw [List.length_cons]
          exact .inl ⟨by omega, hnone⟩
        · refine .inr ⟨s', hlines, ?_, ?_, ?_⟩
          · rw [hlength, hranks, List.length_set]
          · intro i hi
            rw [hkept i (by omega), hranks, List.getElem?_set_ne (by omega)]
          · intro i c' hc'
            cases i with
            | zero =>
                obtain rfl := Option.some.inj hc'
                refine ⟨e.pendentWait, ?_⟩
                rw [Nat.add_zero, hkept s.cnt (by omega), hranks, List.getElem?_set_self hlt]
            | succ i =>
                obtain ⟨pendentWait, hpendent⟩ := hentries i c' hc'
                rw [hcnt, Nat.add_assoc, Nat.add_comm 1 i] at hpendent
                exact ⟨pendentWait, hpendent⟩


/-! ## The tasks and their ranks -/

variable {translationInfo : List (List Counters)}

theorem parseEstats_writeStatistics (epr : List Estats) :
    parseEstats epr (writeStatistics translationInfo) =
      parseLines ⟨epr, 0, 0, 0, 0⟩
        (translationInfo.flatten.map fun c =>
          c.line (minGlops translationInfo.flatten) ++ [newline]) := by
  have hcomment : isComment (commentLine ++ [newline]) = true := rfl
  have hlines := @splitLines_flatMap_newline _ _ newline
    (commentLine :: translationInfo.flatten.map (Counters.line (minGlops translationInfo.flatten)))
    (by
      rw [List.forall_mem_cons]
      refine ⟨by decide, ?_⟩
      intro line hline
      obtain ⟨c, -, rfl⟩ := List.mem_map.mp hline
      exact notMem_line (.inr rfl)) []
  rw [List.append_nil, List.map_cons, List.map_map] at hlines
  unfold parseEstats writeStatistics
  rw [hlines, List.cons_append, parseLines, parseLine, if_pos hcomment, Option.bind_some]
  congr 1
  exact List.append_nil _

theorem statisticsAgree_of_single (h : ∀ task ∈ translationInfo, task.length = 1) :
    StatisticsAgree translationInfo := by
  obtain ⟨threads, hthreads, hflatten⟩ := exists_elements h
  intro epr hlength
  rw [parseEstats_writeStatistics, hflatten]
  rcases @parseLines_lines (minGlops threads) threads ⟨epr, 0, 0, 0, 0⟩ with
    ⟨hfull, -⟩ | ⟨s', hlines, -, -, hentries⟩
  · rw [hthreads, List.length_map] at hlength
    simp only [hlength] at hfull
    omega
  · refine ⟨s', hlines, ?_⟩
    intro rank task htask
    rw [hthreads, List.getElem?_map] at htask
    obtain ⟨c, hc, rfl⟩ := Option.map_eq_some_iff.mp htask
    obtain ⟨pendentWait, hentry⟩ := hentries rank c hc
    rw [Nat.zero_add] at hentry
    exact ⟨c, pendentWait, rfl, hentry⟩

/-- An array with an entry for each task has room for the lines of all threads. -/
theorem length_flatten_le (h : StatisticsAgree translationInfo) :
    translationInfo.flatten.length ≤ translationInfo.length := by
  obtain ⟨s, hparse, -⟩ := h (List.replicate translationInfo.length ⟨0, 0, 0, 0, 0, 0, 0, 0, 0, 0⟩)
    List.length_replicate
  rw [parseEstats_writeStatistics] at hparse
  by_contra hlt
  rcases @parseLines_lines (minGlops translationInfo.flatten) translationInfo.flatten
    ⟨List.replicate translationInfo.length ⟨0, 0, 0, 0, 0, 0, 0, 0, 0, 0⟩, 0, 0, 0, 0⟩ with
    ⟨-, hnone⟩ | ⟨s', -, hlength, -, hentries⟩
  · rw [hnone] at hparse
    cases hparse
  · obtain ⟨c, hc⟩ : ∃ c, translationInfo.flatten[translationInfo.length]? = some c :=
      ⟨_, List.getElem?_eq_getElem (by omega)⟩
    obtain ⟨pendentWait, hentry⟩ := hentries translationInfo.length c hc
    rw [Nat.zero_add] at hentry
    obtain ⟨hbound, -⟩ := List.getElem?_eq_some_iff.mp hentry
    rw [hlength, List.length_replicate] at hbound
    omega

end

/-- Each rank gets the counters of its task, and no entry is written out of the array, exactly when
every task has one thread. -/
theorem statisticsAgree_iff (translationInfo : List (List Counters)) :
    StatisticsAgree translationInfo ↔ ∀ task ∈ translationInfo, task.length = 1 := by
  constructor
  · intro h
    apply length_eq_one_of_length_flatten_le _ (length_flatten_le h)
    rintro task htask rfl
    obtain ⟨rank, hrank⟩ := List.mem_iff_getElem?.mp htask
    obtain ⟨s, -, hranks⟩ := h
      (List.replicate translationInfo.length ⟨0, 0, 0, 0, 0, 0, 0, 0, 0, 0⟩) List.length_replicate
    obtain ⟨c, pendentWait, hhead, -⟩ := hranks rank [] hrank
    cases hhead
  · exact statisticsAgree_of_single

/-- A task with an accelerator thread. The line of this thread has no entry. -/
theorem not_statisticsAgree : ¬ ∀ translationInfo : List (List Counters),
    (∀ task ∈ translationInfo, task ≠ []) → StatisticsAgree translationInfo := by
  intro h
  have hle := length_flatten_le
    (h [[⟨1, 0, 0, 0, 0, 0, 0, 0⟩, ⟨0, 0, 0, 0, 0, 0, 0, 0⟩]] (by simp))
  revert hle
  decide

end Dimemas.Utils.ExtraStatistics
