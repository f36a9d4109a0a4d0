import Mathlib.Data.List.Basic
/-!
# Lines of a text

A text is cut behind every end of line. What is left behind the first lines of a text has the other
lines.
-/

namespace Dimemas.Library.Lines

variable {β : Type*}

def located (place : Nat) : List (List β) → List (Nat × List β)
  | [] => []
  | line :: lines => (place, line) :: located (place + line.length) lines

variable {line : List β} {lines before rest : List (List β)}

theorem located_append (place : Nat) :
    located place (before ++ rest) =
      located place before ++ located (place + before.flatten.length) rest := by
  induction before generalizing place with
  | nil => rfl
  | cons line before ih =>
      rw [List.cons_append, located, ih, located, List.flatten_cons, List.length_append,
        Nat.add_assoc]
      rfl

theorem le_of_mem_located {place : Nat} {x : Nat × List β} (h : x ∈ located place lines) :
    place ≤ x.1 := by
  induction lines generalizing place with
  | nil => cases h
  | cons line lines ih =>
      rcases List.mem_cons.mp h with rfl | h
      · exact Nat.le_refl _
      · have hle := ih h
        omega

theorem located_end_le {place : Nat} {x : Nat × List β} (h : x ∈ located place lines) :
    x.2 ∈ lines ∧ x.1 + x.2.length ≤ place + lines.flatten.length := by
  induction lines generalizing place with
  | nil => cases h
  | cons line lines ih =>
      rw [List.flatten_cons, List.length_append]
      rcases List.mem_cons.mp h with rfl | h
      · exact ⟨List.mem_cons_self, by simp⟩
      · obtain ⟨hmem, hle⟩ := ih h
        exact ⟨List.mem_cons_of_mem _ hmem, by omega⟩

theorem length_flatten_le {first lines : List (List β)} (h : first <+: lines) :
    first.flatten.length ≤ lines.flatten.length := by
  obtain ⟨rest, rfl⟩ := h
  rw [List.flatten_append, List.length_append]
  exact Nat.le_add_right _ _

theorem prefix_or_reaches {first : List (List β)} (h : first <+: before ++ line :: rest) :
    first <+: before ∨ before ++ [line] <+: first := by
  rcases List.prefix_or_prefix_of_prefix h (List.prefix_append before (line :: rest)) with
    hfirst | ⟨others, rfl⟩
  · exact Or.inl hfirst
  · cases others with
    | nil =>
        rw [List.append_nil]
        exact Or.inl List.prefix_rfl
    | cons other others =>
        obtain ⟨lines, hlines⟩ := h
        rw [List.append_assoc] at hlines
        obtain ⟨hother, -⟩ := List.cons.inj (List.append_cancel_left hlines)
        rw [hother]
        exact Or.inr ⟨others, List.append_assoc ..⟩

theorem prefix_of_lt {first : List (List β)} (h : first <+: before ++ line :: rest)
    (hlt : before.flatten.length < first.flatten.length) : before ++ [line] <+: first := by
  apply (prefix_or_reaches h).resolve_left
  intro hfirst
  exact absurd (length_flatten_le hfirst) (Nat.not_le_of_lt hlt)

/-- First lines that end in front of a place are in front of its line. -/
theorem prefix_of_le {first : List (List β)} {place : Nat} (h : first <+: before ++ line :: rest)
    (hle : first.flatten.length ≤ place) (hlt : place < (before ++ [line]).flatten.length) :
    first <+: before := by
  apply (prefix_or_reaches h).resolve_right
  intro hfirst
  have hlength := length_flatten_le hfirst
  omega

/-- Of first lines without an empty one, the shorter ones are in front. -/
theorem prefix_of_length_le {first second : List (List β)} (hpos : ∀ line ∈ lines, 0 < line.length)
    (h : first <+: lines) (h' : second <+: lines)
    (hle : first.flatten.length ≤ second.flatten.length) : first <+: second := by
  rcases List.prefix_or_prefix_of_prefix h h' with hfirst | ⟨others, rfl⟩
  · exact hfirst
  · cases others with
    | nil => exact (List.append_nil second).symm ▸ List.prefix_rfl
    | cons other others =>
        have hother := hpos other (h.subset (List.mem_append_right _ List.mem_cons_self))
        rw [List.flatten_append, List.length_append, List.flatten_cons, List.length_append] at hle
        omega

variable [DecidableEq β] {newline : β} {text : List β}

def splitLines (newline : β) : List β → List (List β)
  | [] => []
  | c :: text =>
      if c = newline then [c] :: splitLines newline text
      else
        match splitLines newline text with
        | [] => [[c]]
        | line :: lines => (c :: line) :: lines

theorem flatten_splitLines (newline : β) (text : List β) :
    (splitLines newline text).flatten = text := by
  induction text with
  | nil => rfl
  | cons c text ih =>
      rw [splitLines]
      split
      · rw [List.flatten_cons, ih]
        rfl
      · cases h : splitLines newline text with
        | nil =>
            rw [h] at ih
            simp only [List.flatten_cons, List.flatten_nil] at ih ⊢
            rw [← ih]
            rfl
        | cons line lines =>
            rw [h] at ih
            simp only [List.flatten_cons, List.cons_append] at ih ⊢
            rw [ih]

theorem splitLines_drop_cons (h : splitLines newline text = line :: lines) :
    splitLines newline (text.drop line.length) = lines := by
  induction text generalizing line lines with
  | nil => cases h
  | cons c text ih =>
      rw [splitLines] at h
      split at h
      · obtain ⟨rfl, rfl⟩ := List.cons.inj h
        rfl
      · cases hrest : splitLines newline text with
        | nil =>
            rw [hrest] at h
            obtain ⟨rfl, rfl⟩ := List.cons.inj h
            exact hrest
        | cons first others =>
            rw [hrest] at h
            obtain ⟨rfl, rfl⟩ := List.cons.inj h
            rw [List.length_cons, List.drop_succ_cons]
            exact ih hrest

theorem splitLines_drop (h : splitLines newline text = before ++ rest) :
    splitLines newline (text.drop before.flatten.length) = rest := by
  induction before generalizing text with
  | nil => exact h
  | cons line before ih =>
      have hdrop := ih (splitLines_drop_cons h)
      rw [List.flatten_cons, List.length_append, ← List.drop_drop]
      exact hdrop

theorem splitLines_append_newline {line : List β} (h : newline ∉ line) (text : List β) :
    splitLines newline (line ++ newline :: text) =
      (line ++ [newline]) :: splitLines newline text := by
  induction line with
  | nil => exact if_pos rfl
  | cons c line ih =>
      have hc : c ≠ newline := fun heq => h (heq ▸ List.mem_cons_self)
      have hline := ih fun hmem => h (List.mem_cons_of_mem c hmem)
      rw [List.cons_append, splitLines, if_neg hc, hline]
      rfl

theorem splitLines_flatMap_newline {lines : List (List β)} (h : ∀ line ∈ lines, newline ∉ line)
    (text : List β) :
    splitLines newline ((lines.flatMap fun line => line ++ [newline]) ++ text) =
      lines.map (fun line => line ++ [newline]) ++ splitLines newline text := by
  induction lines with
  | nil => rfl
  | cons line lines ih =>
      rw [List.flatMap_cons, List.append_assoc, List.append_assoc, List.singleton_append,
        splitLines_append_newline (h line List.mem_cons_self),
        ih fun line' hline' => h line' (List.mem_cons_of_mem line hline')]
      rfl

theorem length_pos_of_mem_splitLines (h : line ∈ splitLines newline text) : 0 < line.length := by
  induction text generalizing line with
  | nil => cases h
  | cons c text ih =>
      rw [splitLines] at h
      split at h
      · rcases List.mem_cons.mp h with rfl | h
        · simp
        · exact ih h
      · cases hrest : splitLines newline text with
        | nil =>
            rw [hrest] at h
            rw [List.mem_singleton.mp h]
            simp
        | cons first others =>
            rw [hrest] at h
            rcases List.mem_cons.mp h with rfl | h
            · simp
            · exact ih (by rw [hrest]; exact List.mem_cons_of_mem _ h)

/-- A place inside a text is in one of its lines, and the text from there on has the rest of that
line and the lines behind it. -/
theorem splitLines_drop_inside (newline : β) {place : Nat} (h : place < text.length) :
    ∃ before line rest, splitLines newline text = before ++ line :: rest ∧
      before.flatten.length ≤ place ∧ place < (before ++ [line]).flatten.length ∧
      splitLines newline (text.drop place) =
        line.drop (place - before.flatten.length) :: rest := by
  induction text generalizing place with
  | nil => exact absurd h (Nat.not_lt_zero place)
  | cons c text ih =>
      cases place with
      | zero =>
          obtain ⟨line, rest, hlines⟩ : ∃ line rest,
              splitLines newline (c :: text) = line :: rest := by
            apply List.exists_cons_of_ne_nil
            intro hnil
            have hflat := flatten_splitLines newline (c :: text)
            rw [hnil] at hflat
            cases hflat
          have hmem : line ∈ splitLines newline (c :: text) := by
            rw [hlines]
            exact List.mem_cons_self
          have hpos := length_pos_of_mem_splitLines hmem
          refine ⟨[], line, rest, hlines, Nat.le_refl 0, ?_, hlines⟩
          rw [List.nil_append, List.flatten_singleton]
          exact hpos
      | succ place =>
          obtain ⟨before, line, rest, hlines, hle, hlt, hdrop⟩ :=
            ih (Nat.lt_of_succ_lt_succ h)
          rw [List.drop_succ_cons, hdrop, splitLines]
          by_cases hc : c = newline
          · refine ⟨[c] :: before, line, rest, ?_, ?_, ?_, ?_⟩
            · rw [if_pos hc, hlines]
              rfl
            · rw [List.flatten_cons, List.length_append, List.length_singleton]
              omega
            · rw [List.cons_append, List.flatten_cons, List.length_append, List.length_singleton]
              omega
            · rw [List.flatten_cons, List.length_append, List.length_singleton,
                Nat.add_comm place 1, Nat.add_sub_add_left]
          · rw [if_neg hc, hlines]
            cases before with
            | nil =>
                refine ⟨[], c :: line, rest, rfl, Nat.zero_le _, ?_, rfl⟩
                rw [List.nil_append, List.flatten_singleton] at hlt ⊢
                exact Nat.succ_lt_succ hlt
            | cons first before =>
                refine ⟨(c :: first) :: before, line, rest, rfl, ?_, ?_, ?_⟩
                · rw [List.flatten_cons, List.length_append] at hle ⊢
                  rw [List.length_cons]
                  omega
                · rw [List.cons_append, List.flatten_cons, List.length_append] at hlt ⊢
                  rw [List.length_cons]
                  omega
                · rw [List.flatten_cons, List.length_append, List.flatten_cons,
                    List.length_append, List.length_cons, Nat.add_right_comm,
                    Nat.add_sub_add_right]

end Dimemas.Library.Lines
