import Mathlib.Data.List.Chain
import Mathlib.Data.List.Sort
import Mathlib.Order.Basic
/-!
# Merging files through buffers

Two files are merged through buffers of a fixed size. A buffer is filled again when all its records
are taken, and the loops go on while a file may have more data. The result is the merge of the two
lists of records. A sort merges runs two at a time until two are left.
-/

namespace Dimemas.Library.Merging

universe u

variable {L R : Type u}

/-! ## The loops -/

/-- A file that is read through a buffer. `index` is the first record that is not taken. -/
structure Input (L R : Type u) where
  file : List L
  buffer : List R
  index : Nat
  moreData : Bool

/-- Reads records until there are enough of them or the file ends. -/
def fill (load : L → Option R) : Nat → List L → Option (List R × List L × Bool)
  | 0, file => some ([], file, true)
  | _ + 1, [] => some ([], [], false)
  | k + 1, l :: file =>
      (load l).bind fun r =>
        (fill load k file).map fun (buffer, rest, more) => (r :: buffer, rest, more)

def Input.fillBuffer (size : Nat) (load : L → Option R) (input : Input L R) :
    Option (Input L R) :=
  if input.moreData then
    (fill load size input.file).map fun (buffer, file, more) =>
      { input with file := file, buffer := buffer, moreData := more }
  else some { input with buffer := [] }

def Input.haveData (input : Input L R) : Bool :=
  input.moreData || decide (input.index < input.buffer.length)

/-- Fills the buffer again if it is used up. The file has no more records if it stays empty. -/
def Input.refill (size : Nat) (load : L → Option R) (input : Input L R) :
    Option (Input L R × Bool) :=
  if input.index = input.buffer.length then
    (input.fillBuffer size load).map fun input =>
      if input.buffer.length = 0 then (input, false) else ({ input with index := 0 }, true)
  else some (input, true)

def Input.advance (input : Input L R) : Input L R := { input with index := input.index + 1 }

/-- A file that is written through a buffer. -/
structure Output (R : Type u) where
  file : List R
  buffer : List R

def Output.copy (size : Nat) (output : Output R) (r : R) : Output R :=
  if output.buffer.length = size then ⟨output.file ++ output.buffer, [r]⟩
  else ⟨output.file, output.buffer ++ [r]⟩

def Output.all (output : Output R) : List R := output.file ++ output.buffer

section

variable (size : Nat) (load : L → Option R) (less : R → R → Bool)

def mergeBoth : Nat → Input L R → Input L R → Output R →
    Option (Input L R × Input L R × Output R)
  | 0, _, _, _ => none
  | fuel + 1, input₁, input₂, output =>
      if input₁.haveData && input₂.haveData then
        (input₁.refill size load).bind fun (input₁, ok₁) =>
          if ok₁ then
            (input₂.refill size load).bind fun (input₂, ok₂) =>
              if ok₂ then
                input₁.buffer[input₁.index]?.bind fun r₁ =>
                  input₂.buffer[input₂.index]?.bind fun r₂ =>
                    if less r₁ r₂ then
                      mergeBoth fuel input₁.advance input₂ (output.copy size r₁)
                    else mergeBoth fuel input₁ input₂.advance (output.copy size r₂)
              else some (input₁, input₂, output)
          else some (input₁, input₂, output)
      else some (input₁, input₂, output)

def copyRest : Nat → Input L R → Output R → Option (Output R)
  | 0, _, _ => none
  | fuel + 1, input, output =>
      if input.haveData then
        (input.refill size load).bind fun (input, ok) =>
          if ok then
            input.buffer[input.index]?.bind fun r =>
              copyRest fuel input.advance (output.copy size r)
          else some output
      else some output

/-- The merge of two files. Each turn of a loop but the last one takes a record. -/
def mergeFiles (file₁ file₂ : List L) : Option (List R) := do
  let fuel := file₁.length + file₂.length + 1
  let input₁ ← (Input.mk file₁ [] 0 true).fillBuffer size load
  let input₂ ← (Input.mk file₂ [] 0 true).fillBuffer size load
  let (input₁, input₂, output) ← mergeBoth size load less fuel input₁ input₂ ⟨[], []⟩
  let output ← copyRest size load fuel input₁ output
  let output ← copyRest size load fuel input₂ output
  pure output.all

end

section

variable {size : Nat} {load : L → Option R} {save : R → L} {less : R → R → Bool}
variable {input input₁ input₂ : Input L R} {output : Output R} {rs rs₁ rs₂ : List R}

@[simp] theorem Output.all_copy (output : Output R) (r : R) :
    (output.copy size r).all = output.all ++ [r] := by
  unfold Output.copy Output.all
  split
  · rfl
  · rw [List.append_assoc]

theorem fill_map (hload : ∀ r, load (save r) = some r) (k : Nat) (rs : List R) :
    fill load k (rs.map save) = some (rs.take k, (rs.drop k).map save, decide (k ≤ rs.length)) := by
  induction k generalizing rs with
  | zero => simp [fill]
  | succ k ih =>
      cases rs with
      | nil => simp [fill]
      | cons r rs => simp [fill, hload, ih]

/-- What an input has to be merged: the rest of its buffer and its file. -/
structure Input.Holds (save : R → L) (input : Input L R) (rs : List R) : Prop where
  rest : ∃ file, input.file = file.map save ∧ rs = input.buffer.drop input.index ++ file ∧
    (input.moreData = false → file = [])
  index : input.index ≤ input.buffer.length ∨ input.haveData = false

theorem Input.Holds.eq_nil (h : input.Holds save rs) (hdata : input.haveData = false) :
    rs = [] := by
  obtain ⟨file, _, hrs, hmore⟩ := h.rest
  rw [Input.haveData, Bool.or_eq_false_iff, decide_eq_false_iff_not, not_lt] at hdata
  rw [hrs, hmore hdata.1, List.drop_eq_nil_of_le hdata.2, List.append_nil]

theorem Input.holds_fillBuffer (hload : ∀ r, load (save r) = some r) (hsize : 0 < size)
    (h : input.Holds save rs) (hused : input.buffer.length ≤ input.index) :
    ∃ input', input.fillBuffer size load = some input' ∧
      (rs = [] ∧ input'.buffer = [] ∧ input'.haveData = false ∧ input'.Holds save rs ∨
        rs ≠ [] ∧ input'.buffer ≠ [] ∧ { input' with index := 0 }.Holds save rs) := by
  obtain ⟨file, hfile, hrs, hmore⟩ := h.rest
  rw [List.drop_eq_nil_of_le hused, List.nil_append] at hrs
  subst hrs
  by_cases hdata : input.moreData
  · refine ⟨{ input with
        file := (rs.drop size).map save
        buffer := rs.take size
        moreData := decide (size ≤ rs.length) }, ?_, ?_⟩
    · rw [fillBuffer, if_pos hdata, hfile, fill_map hload]
      rfl
    · have hrest : ∀ index, index = 0 → (Input.mk ((rs.drop size).map save) (rs.take size) index
          (decide (size ≤ rs.length))).Holds save rs := by
        intro index hindex
        subst hindex
        refine ⟨⟨rs.drop size, rfl, ?_, ?_⟩, .inl (Nat.zero_le _)⟩
        · simp
        · intro hfew
          rw [decide_eq_false_iff_not, not_le] at hfew
          exact List.drop_eq_nil_of_le hfew.le
      by_cases hnil : rs = []
      · left
        subst hnil
        have hhave : ({ input with
            file := (([] : List R).drop size).map save
            buffer := ([] : List R).take size
            moreData := decide (size ≤ ([] : List R).length) } : Input L R).haveData = false := by
          simp only [haveData, List.take_nil, List.length_nil, Bool.or_eq_false_iff,
            decide_eq_false_iff_not]
          omega
        exact ⟨rfl, List.take_nil, hhave, ⟨⟨[], by simp, by simp, fun _ => rfl⟩, .inr hhave⟩⟩
      · right
        refine ⟨hnil, ?_, hrest 0 rfl⟩
        simp only [ne_eq, List.take_eq_nil_iff, not_or]
        exact ⟨by omega, hnil⟩
  · have hnil := hmore (by simpa using hdata)
    subst hnil
    have hhave : ({ input with buffer := [] } : Input L R).haveData = false := by
      simp [haveData, hdata]
    refine ⟨{ input with buffer := [] }, ?_, .inl ⟨rfl, rfl, hhave, ?_⟩⟩
    · rw [fillBuffer, if_neg hdata]
    · exact ⟨⟨[], hfile, by simp, fun _ => rfl⟩, .inr hhave⟩

theorem Input.refill_spec (hload : ∀ r, load (save r) = some r) (hsize : 0 < size)
    (h : input.Holds save rs) (hdata : input.haveData) :
    ∃ input' ok, input.refill size load = some (input', ok) ∧ input'.Holds save rs ∧
      (ok = false ∧ rs = [] ∧ input'.haveData = false ∨
        ok = true ∧ ∃ r rest, rs = r :: rest ∧ input'.buffer[input'.index]? = some r ∧
          input'.advance.Holds save rest) := by
  have hindex : input.index ≤ input.buffer.length := by
    rcases h.index with hle | hnone
    · exact hle
    · rw [hdata] at hnone
      cases hnone
  have htake : ∀ input' : Input L R, input'.Holds save rs →
      input'.index < input'.buffer.length → ∃ r rest, rs = r :: rest ∧
        input'.buffer[input'.index]? = some r ∧ input'.advance.Holds save rest := by
    intro input' hholds hlt
    obtain ⟨file, hfile, hrs, hmore⟩ := hholds.rest
    refine ⟨input'.buffer[input'.index], input'.buffer.drop (input'.index + 1) ++ file, ?_, ?_, ?_⟩
    · rw [hrs, List.drop_eq_getElem_cons hlt, List.cons_append]
    · exact List.getElem?_eq_getElem hlt
    · exact ⟨⟨file, hfile, rfl, hmore⟩, .inl hlt⟩
  by_cases hused : input.index = input.buffer.length
  · obtain ⟨input', hfill, hcases⟩ := holds_fillBuffer hload hsize h hused.ge
    rcases hcases with ⟨hnil, hempty, hhave, hholds⟩ | ⟨hne, hbuffer, hholds⟩
    · refine ⟨input', false, ?_, hholds, .inl ⟨rfl, hnil, hhave⟩⟩
      rw [refill, if_pos hused, hfill, Option.map_some]
      simp only [hempty, List.length_nil, if_true]
    · have hpos : 0 < input'.buffer.length := List.length_pos_of_ne_nil hbuffer
      refine ⟨{ input' with index := 0 }, true, ?_, hholds, .inr ⟨rfl, htake _ hholds hpos⟩⟩
      rw [refill, if_pos hused, hfill, Option.map_some]
      simp only [if_neg hpos.ne']
  · refine ⟨input, true, ?_, h, .inr ⟨rfl, htake input h (lt_of_le_of_ne hindex hused)⟩⟩
    rw [refill, if_neg hused]

/-- The first loop ends with one of the inputs used up. -/
theorem mergeBoth_spec (hload : ∀ r, load (save r) = some r) (hsize : 0 < size) (fuel : Nat)
    (h₁ : input₁.Holds save rs₁) (h₂ : input₂.Holds save rs₂)
    (hfuel : rs₁.length + rs₂.length < fuel) :
    ∃ input₁' input₂' output' rs₁' rs₂',
      mergeBoth size load less fuel input₁ input₂ output = some (input₁', input₂', output') ∧
      input₁'.Holds save rs₁' ∧ input₂'.Holds save rs₂' ∧ (rs₁' = [] ∨ rs₂' = []) ∧
      rs₁'.length + rs₂'.length ≤ rs₁.length + rs₂.length ∧
      output'.all ++ List.merge rs₁' rs₂' less = output.all ++ List.merge rs₁ rs₂ less := by
  induction fuel generalizing input₁ input₂ output rs₁ rs₂ with
  | zero => exact absurd hfuel (Nat.not_lt_zero _)
  | succ fuel ih =>
      rw [mergeBoth]
      by_cases hdata₁ : input₁.haveData
      · by_cases hdata₂ : input₂.haveData
        · simp only [hdata₁, hdata₂, Bool.and_true, if_true]
          obtain ⟨input₁', ok₁, hrefill₁, hholds₁, hcases₁⟩ :=
            Input.refill_spec hload hsize h₁ hdata₁
          obtain ⟨input₂', ok₂, hrefill₂, hholds₂, hcases₂⟩ :=
            Input.refill_spec hload hsize h₂ hdata₂
          rcases hcases₁ with ⟨hok₁, hnil₁, _⟩ | ⟨hok₁, r₁, rest₁, hrs₁, hget₁, hrest₁⟩
          · refine ⟨input₁', input₂, output, rs₁, rs₂, ?_, hholds₁, h₂, .inl hnil₁, le_refl _, rfl⟩
            simp [hrefill₁, hok₁]
          · rcases hcases₂ with ⟨hok₂, hnil₂, _⟩ | ⟨hok₂, r₂, rest₂, hrs₂, hget₂, hrest₂⟩
            · refine ⟨input₁', input₂', output, rs₁, rs₂, ?_, hholds₁, hholds₂, .inr hnil₂,
                le_refl _, rfl⟩
              simp [hrefill₁, hok₁, hrefill₂, hok₂]
            · subst hrs₁ hrs₂
              simp only [hrefill₁, hok₁, hrefill₂, hok₂, Option.bind_some, if_true, hget₁, hget₂]
              simp only [List.length_cons] at hfuel
              by_cases hless : less r₁ r₂
              · obtain ⟨i₁, i₂, out, rs₁', rs₂', hloop, hi₁, hi₂, hnil, hle, heq⟩ :=
                  @ih input₁'.advance input₂' (output.copy size r₁) rest₁ (r₂ :: rest₂) hrest₁
                    hholds₂ (by simp only [List.length_cons]; omega)
                rw [if_pos hless]
                refine ⟨i₁, i₂, out, rs₁', rs₂', hloop, hi₁, hi₂, hnil, ?_, ?_⟩
                · simp only [List.length_cons] at hle ⊢
                  omega
                · rw [heq, Output.all_copy, List.cons_merge_cons_pos less _ _ hless,
                    List.append_assoc, List.singleton_append]
              · obtain ⟨i₁, i₂, out, rs₁', rs₂', hloop, hi₁, hi₂, hnil, hle, heq⟩ :=
                  @ih input₁' input₂'.advance (output.copy size r₂) (r₁ :: rest₁) rest₂ hholds₁
                    hrest₂ (by simp only [List.length_cons]; omega)
                rw [if_neg hless]
                refine ⟨i₁, i₂, out, rs₁', rs₂', hloop, hi₁, hi₂, hnil, ?_, ?_⟩
                · simp only [List.length_cons] at hle ⊢
                  omega
                · rw [heq, Output.all_copy, List.cons_merge_cons_neg less _ _ hless,
                    List.append_assoc, List.singleton_append]
        · refine ⟨input₁, input₂, output, rs₁, rs₂, ?_, h₁, h₂, .inr ?_, le_refl _, rfl⟩
          · simp [hdata₂]
          · exact h₂.eq_nil (by simpa using hdata₂)
      · refine ⟨input₁, input₂, output, rs₁, rs₂, ?_, h₁, h₂, .inl ?_, le_refl _, rfl⟩
        · simp [hdata₁]
        · exact h₁.eq_nil (by simpa using hdata₁)

theorem copyRest_spec (hload : ∀ r, load (save r) = some r) (hsize : 0 < size) (fuel : Nat)
    (h : input.Holds save rs) (hfuel : rs.length < fuel) :
    ∃ output', copyRest size load fuel input output = some output' ∧
      output'.all = output.all ++ rs := by
  induction fuel generalizing input output rs with
  | zero => exact absurd hfuel (Nat.not_lt_zero _)
  | succ fuel ih =>
      rw [copyRest]
      by_cases hdata : input.haveData
      · obtain ⟨input', ok, hrefill, hholds, hcases⟩ := Input.refill_spec hload hsize h hdata
        rcases hcases with ⟨hok, hnil, _⟩ | ⟨hok, r, rest, hrs, hget, hrest⟩
        · refine ⟨output, ?_, ?_⟩
          · simp [hdata, hrefill, hok]
          · rw [hnil, List.append_nil]
        · subst hrs
          obtain ⟨output', hloop, hall⟩ := @ih input'.advance (output.copy size r) rest hrest
            (by simpa using hfuel)
          refine ⟨output', ?_, ?_⟩
          · simp [hdata, hrefill, hok, hget, hloop]
          · rw [hall, Output.all_copy, List.append_assoc, List.singleton_append]
      · refine ⟨output, ?_, ?_⟩
        · simp [hdata]
        · rw [h.eq_nil (by simpa using hdata), List.append_nil]

theorem Input.exists_fillBuffer (hload : ∀ r, load (save r) = some r) (hsize : 0 < size)
    (rs : List R) : ∃ input, (Input.mk (rs.map save) [] 0 true).fillBuffer size load = some input ∧
      input.Holds save rs := by
  have hholds : (Input.mk (rs.map save) ([] : List R) 0 true).Holds save rs :=
    ⟨⟨rs, rfl, rfl, fun h => by cases h⟩, .inl (Nat.le_refl _)⟩
  obtain ⟨input, hfill, hcases⟩ := holds_fillBuffer hload hsize hholds (Nat.le_refl _)
  refine ⟨input, hfill, ?_⟩
  rcases hcases with ⟨_, _, _, hnil⟩ | ⟨_, _, hindex⟩
  · exact hnil
  · have hzero : input.index = 0 := by
      rw [fillBuffer, if_pos rfl, fill_map hload, Option.map_some, Option.some.injEq] at hfill
      rw [← hfill]
    rw [← hzero] at hindex
    exact hindex

theorem mergeFiles_eq (hload : ∀ r, load (save r) = some r) (hsize : 0 < size) (rs₁ rs₂ : List R) :
    mergeFiles size load less (rs₁.map save) (rs₂.map save) =
      some (List.merge rs₁ rs₂ less) := by
  obtain ⟨input₁, hfill₁, hholds₁⟩ := Input.exists_fillBuffer hload hsize rs₁
  obtain ⟨input₂, hfill₂, hholds₂⟩ := Input.exists_fillBuffer hload hsize rs₂
  obtain ⟨input₁', input₂', output, rs₁', rs₂', hloop, h₁, h₂, hnil, hle, heq⟩ :=
    @mergeBoth_spec L R size load save less input₁ input₂ ⟨[], []⟩ rs₁ rs₂ hload hsize
      (rs₁.length + rs₂.length + 1) hholds₁ hholds₂ (Nat.lt_succ_self _)
  obtain ⟨output', hrest₁, hall₁⟩ := @copyRest_spec L R size load save input₁' output rs₁' hload
    hsize (rs₁.length + rs₂.length + 1) h₁ (by omega)
  obtain ⟨output'', hrest₂, hall₂⟩ := @copyRest_spec L R size load save input₂' output' rs₂' hload
    hsize (rs₁.length + rs₂.length + 1) h₂ (by omega)
  have hmerge : List.merge rs₁' rs₂' less = rs₁' ++ rs₂' := by
    rcases hnil with hnil | hnil
    · rw [hnil, List.nil_merge, List.nil_append]
    · rw [hnil, List.merge_right, List.append_nil]
  rw [hmerge] at heq
  simp only [mergeFiles, List.length_map, Option.bind_eq_bind, hfill₁, hfill₂, Option.bind_some,
    hloop, hrest₁, hrest₂, Option.pure_def]
  rw [hall₂, hall₁, List.append_assoc, heq]
  rfl

end

/-! ## Merging sorted runs -/

section

variable {α : Type*} [LinearOrder α] (less : R → R → Bool) (key : R → α)

/-- `less` agrees with the order of the keys; it may say anything of equal keys. -/
def Respects : Prop := ∀ a b, (less a b → key a ≤ key b) ∧ (¬ less a b → key b ≤ key a)

/-- The records are in the order of their keys. -/
def Ordered (rs : List R) : Prop := rs.Pairwise fun a b => key a ≤ key b

variable {less key}

theorem ordered_merge (hless : Respects less key) {rs₁ rs₂ : List R} (h₁ : Ordered key rs₁)
    (h₂ : Ordered key rs₂) : Ordered key (List.merge rs₁ rs₂ less) := by
  induction rs₁ generalizing rs₂ with
  | nil =>
      rw [List.nil_merge]
      exact h₂
  | cons a rs₁ ih₁ =>
      induction rs₂ with
      | nil =>
          rw [List.merge_right]
          exact h₁
      | cons b rs₂ ih₂ =>
          obtain ⟨ha, htail₁⟩ := List.pairwise_cons.mp h₁
          obtain ⟨hb, htail₂⟩ := List.pairwise_cons.mp h₂
          by_cases hab : less a b
          · have hle := (hless a b).1 hab
            rw [List.cons_merge_cons_pos less _ _ hab]
            apply List.Pairwise.cons _ (ih₁ htail₁ h₂)
            intro c hc
            rcases List.mem_merge.mp hc with hc | hc
            · exact ha c hc
            · rcases List.mem_cons.mp hc with heq | hc
              · rw [heq]
                exact hle
              · exact hle.trans (hb c hc)
          · have hle := (hless a b).2 hab
            rw [List.cons_merge_cons_neg less _ _ hab]
            apply List.Pairwise.cons _ (ih₂ htail₂)
            intro c hc
            rcases List.mem_merge.mp hc with hc | hc
            · rcases List.mem_cons.mp hc with heq | hc
              · rw [heq]
                exact hle
              · exact hle.trans (ha c hc)
            · exact hb c hc

/-- A relation that goes from a comparison to all later records holds in the merged list. -/
theorem pairwise_merge {Before : R → R → Prop} {rs₁ rs₂ : List R} (h₁ : rs₁.Pairwise Before)
    (h₂ : rs₂.Pairwise Before) (hordered₁ : Ordered key rs₁) (hordered₂ : Ordered key rs₂)
    (hfirst : ∀ a ∈ rs₁, ∀ b ∈ rs₂, ∀ b' ∈ rs₂, less a b → key b ≤ key b' → Before a b')
    (hsecond : ∀ a ∈ rs₁, ∀ b ∈ rs₂, ∀ a' ∈ rs₁, ¬ less a b → key a ≤ key a' → Before b a') :
    (List.merge rs₁ rs₂ less).Pairwise Before := by
  induction rs₁ generalizing rs₂ with
  | nil =>
      rw [List.nil_merge]
      exact h₂
  | cons a rs₁ ih₁ =>
      induction rs₂ with
      | nil =>
          rw [List.merge_right]
          exact h₁
      | cons b rs₂ ih₂ =>
          obtain ⟨ha, htail₁⟩ := List.pairwise_cons.mp h₁
          obtain ⟨hb, htail₂⟩ := List.pairwise_cons.mp h₂
          obtain ⟨hkeyA, hkeys₁⟩ := List.pairwise_cons.mp hordered₁
          obtain ⟨hkeyB, hkeys₂⟩ := List.pairwise_cons.mp hordered₂
          have hleA : ∀ a' ∈ a :: rs₁, key a ≤ key a' := List.forall_mem_cons.mpr ⟨le_rfl, hkeyA⟩
          have hleB : ∀ b' ∈ b :: rs₂, key b ≤ key b' := List.forall_mem_cons.mpr ⟨le_rfl, hkeyB⟩
          by_cases hab : less a b
          · rw [List.cons_merge_cons_pos less _ _ hab]
            refine List.Pairwise.cons ?_ (ih₁ htail₁ h₂ hkeys₁ hordered₂
              (fun a ha => hfirst a (List.mem_cons_of_mem _ ha))
              fun a ha b hb a' ha' => hsecond a (List.mem_cons_of_mem _ ha) b hb a'
                (List.mem_cons_of_mem _ ha'))
            intro c hc
            rcases List.mem_merge.mp hc with hc | hc
            · exact ha c hc
            · exact hfirst a List.mem_cons_self b List.mem_cons_self c hc hab (hleB c hc)
          · rw [List.cons_merge_cons_neg less _ _ hab]
            refine List.Pairwise.cons ?_ (ih₂ htail₂ hkeys₂
              (fun a ha b hb b' hb' => hfirst a ha b (List.mem_cons_of_mem _ hb) b'
                (List.mem_cons_of_mem _ hb'))
              fun a ha b hb => hsecond a ha b (List.mem_cons_of_mem _ hb))
            intro c hc
            rcases List.mem_merge.mp hc with hc | hc
            · exact hsecond a List.mem_cons_self b List.mem_cons_self c hc hab (hleA c hc)
            · exact hb c hc

theorem filter_merge {isFirst : R → Bool} {rs₁ rs₂ : List R} (h₁ : ∀ a ∈ rs₁, isFirst a = true)
    (h₂ : ∀ b ∈ rs₂, isFirst b = false) :
    (List.merge rs₁ rs₂ less).filter isFirst = rs₁ ∧
      (List.merge rs₁ rs₂ less).filter (fun a => !isFirst a) = rs₂ := by
  induction rs₁ generalizing rs₂ with
  | nil =>
      rw [List.nil_merge]
      refine ⟨List.filter_eq_nil_iff.mpr fun b hb => ?_, List.filter_eq_self.mpr fun b hb => ?_⟩
      · rw [h₂ b hb]
        exact Bool.false_ne_true
      · rw [h₂ b hb]
        rfl
  | cons a rs₁ ih₁ =>
      have ha := h₁ a List.mem_cons_self
      induction rs₂ with
      | nil =>
          rw [List.merge_right]
          refine ⟨List.filter_eq_self.mpr h₁, List.filter_eq_nil_iff.mpr fun b hb => ?_⟩
          rw [h₁ b hb]
          exact Bool.false_ne_true
      | cons b rs₂ ih₂ =>
          have hb := h₂ b List.mem_cons_self
          by_cases hab : less a b
          · obtain ⟨hfirst, hsecond⟩ := ih₁ (fun a ha => h₁ a (List.mem_cons_of_mem _ ha)) h₂
            rw [List.cons_merge_cons_pos less _ _ hab]
            simp only [List.filter_cons, ha, hfirst, hsecond, Bool.not_true, Bool.false_eq_true,
              if_true, if_false, and_self]
          · obtain ⟨hfirst, hsecond⟩ := ih₂ fun b hb => h₂ b (List.mem_cons_of_mem _ hb)
            rw [List.cons_merge_cons_neg less _ _ hab]
            simp only [List.filter_cons, hb, hfirst, hsecond, Bool.not_false, Bool.false_eq_true,
              if_true, if_false, and_self]

theorem head?_merge {rs₁ rs₂ : List R} {c : R} (h : c ∈ (List.merge rs₁ rs₂ less).head?) :
    c ∈ rs₁.head? ∨ c ∈ rs₂.head? := by
  cases rs₁ with
  | nil =>
      rw [List.nil_merge] at h
      exact Or.inr h
  | cons a rs₁ =>
      cases rs₂ with
      | nil =>
          rw [List.merge_right] at h
          exact Or.inl h
      | cons b rs₂ =>
          by_cases hab : less a b
          · rw [List.cons_merge_cons_pos less _ _ hab] at h
            exact Or.inl h
          · rw [List.cons_merge_cons_neg less _ _ hab] at h
            exact Or.inr h

/-- Neighbours that come from different lists are compared with each other. -/
theorem isChain_merge {Next : R → R → Prop} {rs₁ rs₂ : List R} (h₁ : rs₁.IsChain Next)
    (h₂ : rs₂.IsChain Next) (hnext : ∀ a ∈ rs₁, ∀ b ∈ rs₂, if less a b then Next a b else Next b a) :
    (List.merge rs₁ rs₂ less).IsChain Next := by
  induction rs₁ generalizing rs₂ with
  | nil =>
      rw [List.nil_merge]
      exact h₂
  | cons a rs₁ ih₁ =>
      induction rs₂ with
      | nil =>
          rw [List.merge_right]
          exact h₁
      | cons b rs₂ ih₂ =>
          obtain ⟨ha, htail₁⟩ := List.isChain_cons.mp h₁
          obtain ⟨hb, htail₂⟩ := List.isChain_cons.mp h₂
          have hheads := hnext a List.mem_cons_self b List.mem_cons_self
          by_cases hab : less a b
          · rw [if_pos hab] at hheads
            rw [List.cons_merge_cons_pos less _ _ hab]
            apply List.isChain_cons.mpr
            refine ⟨?_, ih₁ htail₁ h₂ fun a ha => hnext a (List.mem_cons_of_mem _ ha)⟩
            intro c hc
            rcases head?_merge hc with hc | hc
            · exact ha c hc
            · rw [← Option.some.inj hc]
              exact hheads
          · rw [if_neg hab] at hheads
            rw [List.cons_merge_cons_neg less _ _ hab]
            apply List.isChain_cons.mpr
            refine ⟨?_, ih₂ htail₂ fun a ha b hb => hnext a ha b (List.mem_cons_of_mem _ hb)⟩
            intro c hc
            rcases head?_merge hc with hc | hc
            · rw [← Option.some.inj hc]
              exact hheads
            · exact hb c hc

variable (less)

/-- One pass: the runs are merged two at a time, and the last one is kept if their number is
odd. -/
def pairUp : List (List R) → List (List R)
  | [] => []
  | [run] => [run]
  | run₁ :: run₂ :: runs => List.merge run₁ run₂ less :: pairUp runs

variable {less}

theorem length_pairUp (runs : List (List R)) :
    (pairUp less runs).length = runs.length / 2 + runs.length % 2 := by
  induction runs using pairUp.induct with
  | case1 => simp [pairUp]
  | case2 run => simp [pairUp]
  | case3 run₁ run₂ runs ih =>
      rw [pairUp, List.length_cons, List.length_cons, List.length_cons, ih]
      omega

theorem pairUp_perm (runs : List (List R)) : (pairUp less runs).flatten.Perm runs.flatten := by
  induction runs using pairUp.induct with
  | case1 => exact List.Perm.refl _
  | case2 run => exact List.Perm.refl _
  | case3 run₁ run₂ runs ih =>
      rw [pairUp, List.flatten_cons, List.flatten_cons, List.flatten_cons, ← List.append_assoc]
      exact (List.merge_perm_append less).append ih

theorem pairUp_ordered (hless : Respects less key) (runs : List (List R))
    (h : ∀ run ∈ runs, Ordered key run) : ∀ run ∈ pairUp less runs, Ordered key run := by
  induction runs using pairUp.induct with
  | case1 => exact h
  | case2 run => exact h
  | case3 run₁ run₂ runs ih =>
      intro run hrun
      rw [pairUp] at hrun
      rcases List.mem_cons.mp hrun with heq | hmem
      · rw [heq]
        exact ordered_merge hless (h run₁ (by simp)) (h run₂ (by simp))
      · exact ih (fun run hrun => h run (by simp [hrun])) run hmem

theorem getElem?_pairUp (runs : List (List R)) (k : Nat) :
    (2 * k + 1 < runs.length → ∃ run₁ run₂, runs[2 * k]? = some run₁ ∧
      runs[2 * k + 1]? = some run₂ ∧ (pairUp less runs)[k]? = some (List.merge run₁ run₂ less)) ∧
      (2 * k + 1 = runs.length → (pairUp less runs)[k]? = runs[2 * k]?) := by
  induction runs using pairUp.induct generalizing k with
  | case1 => simp
  | case2 run =>
      constructor
      · intro hlt
        rw [List.length_singleton] at hlt
        omega
      · intro heq
        rw [List.length_singleton] at heq
        have hk : k = 0 := by omega
        subst hk
        rw [pairUp]
  | case3 run₁ run₂ runs ih =>
      rw [pairUp]
      cases k with
      | zero =>
          constructor
          · intro _
            exact ⟨run₁, run₂, rfl, rfl, rfl⟩
          · intro heq
            simp only [List.length_cons] at heq
            omega
      | succ k =>
          have hindex : 2 * (k + 1) = 2 * k + 1 + 1 := by omega
          simp only [hindex, List.getElem?_cons_succ, List.length_cons]
          constructor
          · intro hlt
            exact (ih k).1 (by omega)
          · intro heq
            exact (ih k).2 (by omega)

end

end Dimemas.Library.Merging
