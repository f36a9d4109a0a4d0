import Dimemas.Library.Transitions
import Mathlib.Data.NNRat.Lemmas
import Mathlib.Data.List.Induction
/-!
# The modules of a thread

The durations of the bursts inside the modules that a configuration defines. A thread has a queue
of the defined modules that are open. An entrance is inserted as the first of the queue, and an
exit takes the last.
-/

namespace Dimemas.Model.Modules

open Dimemas.Library.Transitions

/-- The fields of `struct t_module` that the simulation reads. A ratio of −1 stands for a constant
duration. -/
structure Module where
  type : Nat
  value : Nat
  ratio : ℚ
  constBurstDuration : ℚ
deriving DecidableEq

abbrev ModulesMap := Nat × Nat → Option Module

/-- `TASK_module_new_general`. A module that exists gets another ratio. -/
def moduleNewGeneral (modules : ModulesMap) (moduleType moduleValue : Nat)
    (ratio constBurstDuration : ℚ) : ModulesMap :=
  if moduleValue = 0 then modules
  else
    Function.update modules (moduleType, moduleValue) (some
      (match modules (moduleType, moduleValue) with
      | none => ⟨moduleType, moduleValue, ratio, constBurstDuration * 1000000000⟩
      | some mod => { mod with ratio }))

def moduleNewRatio (modules : ModulesMap) (moduleType moduleValue : Nat) (ratio : ℚ) :
    ModulesMap :=
  moduleNewGeneral modules moduleType moduleValue ratio (-1)

def moduleNewDuration (modules : ModulesMap) (moduleType moduleValue : Nat)
    (constBurstDuration : ℚ) : ModulesMap :=
  moduleNewGeneral modules moduleType moduleValue (-1) constBurstDuration

/-- What a configuration gives for the bursts of a module. -/
inductive Definition
  | ratio (r : ℚ≥0)
  | duration (seconds : ℚ≥0)
deriving DecidableEq

structure Line where
  type : Nat
  value : Nat
  definition : Definition

def Line.key (l : Line) : Nat × Nat := (l.type, l.value)

def define (modules : ModulesMap) (l : Line) : ModulesMap :=
  match l.definition with
  | .ratio r => moduleNewRatio modules l.type l.value r
  | .duration seconds => moduleNewDuration modules l.type l.value seconds

def definedModules (lines : List Line) : ModulesMap := lines.foldl define fun _ => none

def idleEventType : Nat := 0

/-- The queue of the modules, whose first is the one that was entered last, and whether the thread
is in an idle block. -/
structure Thread where
  modules : List Module
  idleBlock : Bool
deriving DecidableEq

def moduleEntrance (table : ModulesMap) (thread : Thread) (moduleType moduleValue : Nat) :
    Thread where
  modules :=
    match table (moduleType, moduleValue) with
    | some mod => mod :: thread.modules
    | none => thread.modules
  idleBlock := thread.idleBlock || moduleType = idleEventType

/-- `module_exit`. A module of another type is inserted again. -/
def moduleExit (thread : Thread) (moduleType : Nat) : Thread where
  modules :=
    match thread.modules.getLast? with
    | some mod =>
        if mod.type = moduleType then thread.modules.dropLast
        else mod :: thread.modules.dropLast
    | none => thread.modules
  idleBlock := thread.idleBlock && moduleType ≠ idleEventType

def recomputeWorkUponModules (thread : Thread) (cpuTime : ℚ) : ℚ :=
  match thread.modules.head? with
  | some mod =>
      if mod.ratio = -1 then mod.constBurstDuration
      else if mod.ratio = 0 then 0
      else cpuTime / mod.ratio
  | none => cpuTime

/-! ## The bursts that a configuration describes -/

def Definition.burst : Definition → ℚ → ℚ
  | .ratio r, cpuTime => if r = 0 then 0 else cpuTime / r
  | .duration seconds, _ => seconds * 1000000000

def firstDefinition (lines : List Line) (key : Nat × Nat) : Option Definition :=
  (lines.find? (·.key = key)).map Line.definition

def lastDefinition (lines : List Line) (key : Nat × Nat) : Option Definition :=
  (lines.reverse.find? (·.key = key)).map Line.definition

def burstInside (lines : List Line) (opened : List (Nat × Nat)) (cpuTime : ℚ) : ℚ :=
  match (opened.filterMap (lastDefinition lines)).head? with
  | some d => d.burst cpuTime
  | none => cpuTime

/-- A thread, and the blocks that are open, the innermost of which is the first. -/
structure State where
  thread : Thread
  opened : List (Nat × Nat)

def State.initial : State := ⟨⟨[], false⟩, []⟩

inductive Action
  | even (type value : Nat)
  | work (cpuTime : ℚ)

/-- An action of a thread whose blocks are well nested: an event with a value opens a block, and
one without closes the innermost. -/
def act (lines : List Line) (s : State) : Action → Option State
  | .even type value =>
      if value ≠ 0 then
        some ⟨moduleEntrance (definedModules lines) s.thread type value, (type, value) :: s.opened⟩
      else
        match s.opened with
        | (t, _) :: opened => if t = type then some ⟨moduleExit s.thread type, opened⟩ else none
        | [] => none
  | .work _ => some s

/-- The defined modules that are open are the same one. -/
def OneModule (lines : List Line) (s : State) : Prop :=
  ∀ k₁ ∈ s.opened, ∀ k₂ ∈ s.opened, (lastDefinition lines k₁).isSome →
    (lastDefinition lines k₂).isSome → k₁ = k₂

/-- A module whose last definition is a constant duration was first defined with the same one. A
block is closed while no different defined modules are open, and if its own is not defined then
none of its type is. -/
def Orderly (lines : List Line) (s : State) : Action → Prop
  | .even type value =>
      if value ≠ 0 then
        ∀ seconds, lastDefinition lines (type, value) = some (.duration seconds) →
          firstDefinition lines (type, value) = some (.duration seconds)
      else
        OneModule lines s ∧
          (s.opened.head?.bind (lastDefinition lines) = none →
            ∀ k ∈ s.opened, (lastDefinition lines k).isSome → k.1 ≠ type)
  | .work _ => True

/-- The queue has the open modules that are defined, each with its last definition. -/
structure Faithful (lines : List Line) (s : State) : Prop where
  modules : s.thread.modules = s.opened.filterMap (definedModules lines)
  valued : ∀ k ∈ s.opened, k.2 ≠ 0
  orderly : ∀ k ∈ s.opened, ∀ seconds, lastDefinition lines k = some (.duration seconds) →
    firstDefinition lines k = some (.duration seconds)

/-! ## The modules of a configuration -/

section

variable {lines : List Line} {l : Line} {key : Nat × Nat} {mod : Module}

/-- What is given to `TASK_module_new_general` for the ratio. -/
def Definition.newRatio : Definition → ℚ
  | .ratio r => r
  | .duration _ => -1

/-- What is given to `TASK_module_new_general` for the duration. -/
def Definition.newDuration : Definition → ℚ
  | .ratio _ => -1
  | .duration seconds => seconds

theorem define_eq (modules : ModulesMap) (l : Line) :
    define modules l =
      moduleNewGeneral modules l.type l.value l.definition.newRatio l.definition.newDuration := by
  unfold define
  cases l.definition <;> rfl

theorem firstDefinition_append (key : Nat × Nat) :
    firstDefinition (lines ++ [l]) key =
      (firstDefinition lines key).or (if l.key = key then some l.definition else none) := by
  unfold firstDefinition
  rw [List.find?_append, Option.map_or]
  congr 1
  by_cases hkey : l.key = key
  · simp [hkey]
  · simp [hkey]

theorem lastDefinition_append (key : Nat × Nat) :
    lastDefinition (lines ++ [l]) key =
      if l.key = key then some l.definition else lastDefinition lines key := by
  unfold lastDefinition
  rw [List.reverse_append, List.reverse_singleton, List.singleton_append, List.find?_cons]
  by_cases hkey : l.key = key
  · simp [hkey]
  · simp [hkey]

theorem firstDefinition_eq_none_iff (key : Nat × Nat) :
    firstDefinition lines key = none ↔ lastDefinition lines key = none := by
  simp [firstDefinition, lastDefinition]

/-- A module has the ratio of its last definition and the duration of its first. -/
theorem definedModules_eq (lines : List Line) (hvalue : key.2 ≠ 0) :
    definedModules lines key =
      (lastDefinition lines key).bind fun last =>
        (firstDefinition lines key).map fun first =>
          ⟨key.1, key.2, last.newRatio, first.newDuration * 1000000000⟩ := by
  induction lines using List.reverseRecOn with
  | nil => rfl
  | append_singleton lines l ih =>
      rw [definedModules, List.foldl_append, List.foldl_cons, List.foldl_nil, ← definedModules,
        define_eq, firstDefinition_append, lastDefinition_append]
      unfold moduleNewGeneral
      by_cases hkey : l.key = key
      · subst hkey
        have hl : l.value ≠ 0 := hvalue
        have hpair : (l.type, l.value) = l.key := rfl
        rw [if_neg hl, if_pos rfl, if_pos rfl, hpair, Function.update_self]
        cases hfirst : firstDefinition lines l.key with
        | none =>
            rw [hfirst] at ih
            have hlast := (firstDefinition_eq_none_iff l.key).mp hfirst
            rw [hlast] at ih
            rw [ih]
            rfl
        | some first =>
            cases hlast : lastDefinition lines l.key with
            | none =>
                rw [(firstDefinition_eq_none_iff l.key).mpr hlast] at hfirst
                cases hfirst
            | some last =>
                rw [hfirst, hlast] at ih
                rw [ih]
                rfl
      · rw [if_neg hkey, if_neg hkey, Option.or_none, ← ih]
        split
        · rfl
        · exact Function.update_of_ne (Ne.symm hkey) ..

theorem definedModules_isSome (hvalue : key.2 ≠ 0) :
    (definedModules lines key).isSome = (lastDefinition lines key).isSome := by
  rw [definedModules_eq lines hvalue]
  cases hfirst : firstDefinition lines key with
  | none => simp [(firstDefinition_eq_none_iff key).mp hfirst]
  | some first => cases lastDefinition lines key <;> rfl

theorem key_of_definedModules (hvalue : key.2 ≠ 0) (h : definedModules lines key = some mod) :
    (mod.type, mod.value) = key := by
  rw [definedModules_eq lines hvalue] at h
  obtain ⟨last, -, h⟩ := Option.bind_eq_some_iff.mp h
  obtain ⟨first, -, rfl⟩ := Option.map_eq_some_iff.mp h
  rfl

/-- The burst inside a module whose duration is that of its last definition. -/
theorem recomputeWorkUponModules_cons {first last : Definition} {modules : List Module}
    {idleBlock : Bool} (horderly : ∀ seconds, last = .duration seconds → first = .duration seconds)
    (cpuTime : ℚ) :
    recomputeWorkUponModules
      ⟨⟨key.1, key.2, last.newRatio, first.newDuration * 1000000000⟩ :: modules, idleBlock⟩ cpuTime =
      last.burst cpuTime := by
  unfold recomputeWorkUponModules
  rw [List.head?_cons]
  cases last with
  | ratio r =>
      have hr : (r : ℚ) ≠ -1 := by
        have hnonneg : 0 ≤ (r : ℚ) := r.coe_nonneg
        intro heq
        rw [heq] at hnonneg
        exact absurd hnonneg (by decide)
      simp only [Definition.newRatio, Definition.burst, if_neg hr, NNRat.coe_eq_zero]
  | duration seconds =>
      rw [horderly seconds rfl]
      rfl

theorem burst_nonneg (d : Definition) {cpuTime : ℚ} (h : 0 ≤ cpuTime) : 0 ≤ d.burst cpuTime := by
  cases d with
  | ratio r =>
      show 0 ≤ (if r = 0 then 0 else cpuTime / r)
      split
      · exact le_refl 0
      · exact div_nonneg h r.coe_nonneg
  | duration seconds => exact mul_nonneg seconds.coe_nonneg (by decide)

end

/-! ## The queue of a thread -/

section

variable {α : Type*}

theorem eq_of_dropLast_cons {x : α} {xs : List α} (h : (x :: xs).dropLast = xs) :
    ∀ y ∈ xs, y = x := by
  induction xs generalizing x with
  | nil => simp
  | cons y ys ih =>
      rw [List.dropLast_cons_cons] at h
      obtain ⟨rfl, hrest⟩ := List.cons.inj h
      intro z hz
      rcases List.mem_cons.mp hz with rfl | hz
      · rfl
      · exact ih hrest z hz

theorem eq_of_cons_eq_append {x : α} {xs : List α} (h : x :: xs = xs ++ [x]) :
    ∀ y ∈ xs, y = x := by
  induction xs generalizing x with
  | nil => simp
  | cons y ys ih =>
      rw [List.cons_append] at h
      obtain ⟨rfl, hrest⟩ := List.cons.inj h
      intro z hz
      rcases List.mem_cons.mp hz with rfl | hz
      · rfl
      · exact ih hrest z hz

variable {thread : Thread} {moduleType : Nat} {mod : Module} {rest : List Module}

theorem moduleExit_eq_tail_iff (hfirst : thread.modules = mod :: rest)
    (htype : mod.type = moduleType) :
    (moduleExit thread moduleType).modules = rest ↔ ∀ x ∈ thread.modules, x = mod := by
  unfold moduleExit
  simp only [hfirst]
  cases hlast : (mod :: rest).getLast? with
  | none => simp at hlast
  | some last =>
      simp only
      constructor
      · intro h
        split at h
        · intro x hx
          rcases List.mem_cons.mp hx with rfl | hx
          · rfl
          · exact eq_of_dropLast_cons h x hx
        · have hlength := congrArg List.length h
          simp at hlength
      · intro hall
        have hmem := hall last (List.mem_of_getLast? hlast)
        rw [if_pos (by rw [hmem]; exact htype)]
        rw [List.eq_replicate_of_mem hall, List.dropLast_replicate]
        rw [List.eq_replicate_of_mem fun x hx => hall x (List.mem_cons_of_mem _ hx)]
        simp

theorem moduleExit_eq_self_iff :
    (moduleExit thread moduleType).modules = thread.modules ↔
      (∀ x ∈ thread.modules, x.type ≠ moduleType) ∧
        ∀ x ∈ thread.modules, ∀ y ∈ thread.modules, x = y := by
  unfold moduleExit
  cases hlast : thread.modules.getLast? with
  | none => simp [List.getLast?_eq_none_iff.mp hlast]
  | some last =>
      obtain ⟨front, hfront⟩ := List.getLast?_eq_some_iff.mp hlast
      simp only [hfront, List.dropLast_concat]
      constructor
      · intro h
        split at h
        · have hlength := congrArg List.length h
          simp at hlength
        · next htype =>
            have hall : ∀ x ∈ front ++ [last], x = last := by
              intro x hx
              rcases List.mem_append.mp hx with hx | hx
              · exact eq_of_cons_eq_append h x hx
              · exact List.mem_singleton.mp hx
            constructor
            · intro x hx
              rw [hall x hx]
              exact htype
            · intro x hx y hy
              rw [hall x hx, hall y hy]
      · intro ⟨htypes, hsame⟩
        have hmem : last ∈ front ++ [last] := by simp
        rw [if_neg (htypes last hmem)]
        have hall : ∀ x ∈ front, x = last := fun x hx => hsame x (by simp [hx]) last hmem
        rw [List.eq_replicate_of_mem hall, ← List.replicate_succ, ← List.replicate_succ']

end

/-! ## Runs -/

section

variable {lines : List Line} {s s' : State} {a : Action} {tr : List (Transition State Action)}

theorem faithful_initial : Faithful lines .initial where
  modules := rfl
  valued k hk := by cases hk
  orderly k hk := by cases hk

theorem Faithful.burst_eq (h : Faithful lines s) (cpuTime : ℚ) :
    recomputeWorkUponModules s.thread cpuTime = burstInside lines s.opened cpuTime := by
  obtain ⟨⟨modules, idleBlock⟩, opened⟩ := s
  obtain ⟨hmodules, hvalued, horderly⟩ := h
  simp only at hmodules hvalued horderly
  subst hmodules
  induction opened with
  | nil => rfl
  | cons k opened ih =>
      have hk := hvalued k (by simp)
      have hrest := ih (fun k hk => hvalued k (by simp [hk])) fun k hk => horderly k (by simp [hk])
      have heq := definedModules_eq lines hk
      cases hlast : lastDefinition lines k with
      | none =>
          rw [hlast] at heq
          unfold burstInside
          rw [List.filterMap_cons_none heq, List.filterMap_cons_none hlast]
          exact hrest
      | some last =>
          cases hfirst : firstDefinition lines k with
          | none =>
              rw [(firstDefinition_eq_none_iff k).mp hfirst] at hlast
              cases hlast
          | some first =>
              rw [hlast, hfirst] at heq
              unfold burstInside
              rw [List.filterMap_cons_some heq, List.filterMap_cons_some hlast]
              apply recomputeWorkUponModules_cons
              intro seconds hseconds
              rw [hseconds] at hlast
              rw [horderly k (by simp) seconds hlast] at hfirst
              exact (Option.some.inj hfirst).symm

theorem burstInside_nonneg (lines : List Line) (opened : List (Nat × Nat)) {cpuTime : ℚ}
    (h : 0 ≤ cpuTime) : 0 ≤ burstInside lines opened cpuTime := by
  unfold burstInside
  split
  · next d _ => exact burst_nonneg d h
  · exact h

theorem Faithful.mem_modules (h : Faithful lines s) {mod : Module} :
    mod ∈ s.thread.modules ↔ ∃ k ∈ s.opened, definedModules lines k = some mod := by
  rw [h.modules, List.mem_filterMap]

theorem Faithful.oneModule_iff (h : Faithful lines s) :
    OneModule lines s ↔ ∀ x ∈ s.thread.modules, ∀ y ∈ s.thread.modules, x = y := by
  constructor
  · intro hone x hx y hy
    obtain ⟨k₁, hk₁, hx⟩ := h.mem_modules.mp hx
    obtain ⟨k₂, hk₂, hy⟩ := h.mem_modules.mp hy
    have hkey : k₁ = k₂ := by
      apply hone k₁ hk₁ k₂ hk₂
      · rw [← definedModules_isSome (h.valued k₁ hk₁), hx]
        rfl
      · rw [← definedModules_isSome (h.valued k₂ hk₂), hy]
        rfl
    rw [hkey, hy] at hx
    exact (Option.some.inj hx).symm
  · intro hsame k₁ hk₁ k₂ hk₂ h₁ h₂
    rw [← definedModules_isSome (h.valued k₁ hk₁)] at h₁
    rw [← definedModules_isSome (h.valued k₂ hk₂)] at h₂
    obtain ⟨x, hx⟩ := Option.isSome_iff_exists.mp h₁
    obtain ⟨y, hy⟩ := Option.isSome_iff_exists.mp h₂
    have hxy := hsame x (h.mem_modules.mpr ⟨k₁, hk₁, hx⟩) y (h.mem_modules.mpr ⟨k₂, hk₂, hy⟩)
    rw [← key_of_definedModules (h.valued k₁ hk₁) hx, hxy,
      key_of_definedModules (h.valued k₂ hk₂) hy]

theorem Faithful.types_iff (h : Faithful lines s) (type : Nat) :
    (∀ k ∈ s.opened, (lastDefinition lines k).isSome → k.1 ≠ type) ↔
      ∀ x ∈ s.thread.modules, x.type ≠ type := by
  constructor
  · intro htypes x hx
    obtain ⟨k, hk, hx⟩ := h.mem_modules.mp hx
    have hkey := key_of_definedModules (h.valued k hk) hx
    have hne := htypes k hk (by rw [← definedModules_isSome (h.valued k hk), hx]; rfl)
    rwa [← hkey] at hne
  · intro htypes k hk hsome
    rw [← definedModules_isSome (h.valued k hk)] at hsome
    obtain ⟨x, hx⟩ := Option.isSome_iff_exists.mp hsome
    have hne := htypes x (h.mem_modules.mpr ⟨k, hk, hx⟩)
    rw [← key_of_definedModules (h.valued k hk) hx]
    exact hne

/-- The exit of a block leaves the modules of the others if and only if the event is orderly. -/
theorem Faithful.exit_iff (h : Faithful lines s) {k : Nat × Nat} {opened : List (Nat × Nat)}
    (hopened : s.opened = k :: opened) :
    (moduleExit s.thread k.1).modules = opened.filterMap (definedModules lines) ↔
      Orderly lines s (.even k.1 0) := by
  have hk := h.valued k (by simp [hopened])
  have hmodules := h.modules
  have hsome : (definedModules lines k).isSome = (lastDefinition lines k).isSome :=
    definedModules_isSome hk
  simp only [Orderly, ne_eq, not_true_eq_false, if_false, hopened, List.head?_cons,
    Option.bind_some]
  rw [hopened] at hmodules
  rw [← hopened, h.oneModule_iff, h.types_iff]
  cases hlast : lastDefinition lines k with
  | none =>
      rw [hlast, Option.isSome_none, Option.isSome_eq_false_iff, Option.isNone_iff_eq_none] at hsome
      rw [List.filterMap_cons_none hsome] at hmodules
      rw [← hmodules, moduleExit_eq_self_iff]
      simp only [forall_const]
      exact and_comm
  | some last =>
      rw [hlast] at hsome
      obtain ⟨mod, hmod⟩ := Option.isSome_iff_exists.mp hsome
      rw [List.filterMap_cons_some hmod] at hmodules
      have htype : mod.type = k.1 := by rw [← key_of_definedModules hk hmod]
      rw [moduleExit_eq_tail_iff hmodules htype]
      simp only [reduceCtorEq, false_implies, and_true]
      constructor
      · intro hall x hx y hy
        rw [hall x hx, hall y hy]
      · intro hsame x hx
        exact hsame x hx mod (by simp [hmodules])

theorem Faithful.step_iff (h : Faithful lines s) (hstep : ofPartial (act lines) s a s') :
    Faithful lines s' ↔ Orderly lines s a := by
  cases a with
  | work cpuTime =>
      obtain rfl := Option.some.inj hstep
      exact iff_of_true h trivial
  | even type value =>
      simp only [ofPartial, act] at hstep
      split at hstep
      · next hvalue =>
          obtain rfl := Option.some.inj hstep
          simp only [Orderly, if_pos hvalue]
          constructor
          · intro hpost
            exact hpost.orderly (type, value) (by simp)
          · intro horderly
            constructor
            · simp only [moduleEntrance, List.filterMap_cons, h.modules]
              cases definedModules lines (type, value) <;> rfl
            · intro k hk
              rcases List.mem_cons.mp hk with rfl | hk
              · exact hvalue
              · exact h.valued k hk
            · intro k hk
              rcases List.mem_cons.mp hk with rfl | hk
              · exact horderly
              · exact h.orderly k hk
      · next hvalue =>
          cases hopened : s.opened with
          | nil =>
              simp only [hopened] at hstep
              cases hstep
          | cons k opened =>
              obtain ⟨t, v⟩ := k
              simp only [hopened, Option.ite_none_right_eq_some] at hstep
              obtain ⟨rfl, hs'⟩ := hstep
              obtain rfl := Option.some.inj hs'
              obtain rfl := not_not.mp hvalue
              rw [← h.exit_iff hopened]
              constructor
              · exact fun hpost => hpost.modules
              · intro hmodules
                constructor
                · exact hmodules
                · exact fun k hk => h.valued k (by simp [hopened, hk])
                · exact fun k hk => h.orderly k (by simp [hopened, hk])

theorem faithful_iff (hrun : Run (ofPartial (act lines)) .initial tr s) :
    (∀ t ∈ tr, Faithful lines t.post) ↔ ∀ t ∈ tr, Orderly lines t.pre t.label :=
  hrun.forall_post_iff_of_guard faithful_initial (fun _ h => h)
    (fun _ _ _ h horderly hstep => (h.step_iff hstep).mpr horderly)
    (fun _ _ _ h hstep hpost => (h.step_iff hstep).mp hpost)

/-- Behind orderly actions the duration of a burst is that of the last definition of the innermost
open module that is defined, and it is not negative. -/
theorem burst_durations (hrun : Run (ofPartial (act lines)) .initial tr s)
    (horderly : ∀ t ∈ tr, Orderly lines t.pre t.label) (cpuTime : ℚ) :
    recomputeWorkUponModules s.thread cpuTime = burstInside lines s.opened cpuTime ∧
      (0 ≤ cpuTime → 0 ≤ recomputeWorkUponModules s.thread cpuTime) := by
  have hfaithful : Faithful lines s := hrun.invariant_of_guard faithful_initial
    (fun _ _ _ h horderly hstep => (h.step_iff hstep).mpr horderly) horderly
  have hburst := hfaithful.burst_eq cpuTime
  refine ⟨hburst, fun hnonneg => ?_⟩
  rw [hburst]
  exact burstInside_nonneg lines s.opened hnonneg

end

def twoModules : List Line := [⟨1, 1, .ratio 2⟩, ⟨2, 1, .duration 3⟩]

instance (last first : Option Definition) : Decidable (∀ seconds,
    last = some (.duration seconds) → first = some (.duration seconds)) :=
  match last with
  | some (.duration seconds) =>
      decidable_of_iff (first = some (.duration seconds))
        ⟨fun h _ hlast => by cases hlast; exact h, fun h => h seconds rfl⟩
  | some (.ratio _) => .isTrue fun _ hlast => by cases hlast
  | none => .isTrue fun _ hlast => by cases hlast

instance (lines : List Line) (s : State) : Decidable (OneModule lines s) :=
  inferInstanceAs (Decidable (∀ k₁ ∈ s.opened, ∀ k₂ ∈ s.opened, (lastDefinition lines k₁).isSome →
    (lastDefinition lines k₂).isSome → k₁ = k₂))

instance (lines : List Line) (s : State) : (a : Action) → Decidable (Orderly lines s a)
  | .even type _ =>
      inferInstanceAs (Decidable (ite _ _ (OneModule lines s ∧
        (s.opened.head?.bind (lastDefinition lines) = none →
          ∀ k ∈ s.opened, (lastDefinition lines k).isSome → k.1 ≠ type))))
  | .work _ => .isTrue trivial

/-- A block without a definition and one of the same module are opened inside the first module and
closed again, before the second one is opened. -/
def nestedBlocks : List Action :=
  [.even 1 1, .even 7 4, .work 6, .even 7 0, .even 1 1, .work 6, .even 1 0, .work 6, .even 1 0,
    .even 7 4, .even 2 1]

/-- A burst inside the second module. -/
theorem burst_durations_nested :
    let s := ((exec (act twoModules) .initial nestedBlocks).get (by rfl)).2
    s.opened = [(2, 1), (7, 4)] ∧ recomputeWorkUponModules s.thread 8 = 3000000000 ∧
      recomputeWorkUponModules s.thread 8 = burstInside twoModules s.opened 8 ∧
      (0 ≤ (8 : ℚ) → 0 ≤ recomputeWorkUponModules s.thread 8) := by
  refine ⟨rfl, by decide +kernel, ?_⟩
  apply burst_durations (run_exec_get (by rfl))
  decide +kernel

/-- Two modules of different types are opened and closed again. The exit of the second takes the
first, and the burst behind them is one inside the second. -/
theorem not_burst_durations :
    ¬ ∀ (lines : List Line) (tr : List (Transition State Action)) (s : State),
      Run (ofPartial (act lines)) .initial tr s →
      ∀ cpuTime, recomputeWorkUponModules s.thread cpuTime = burstInside lines s.opened cpuTime := by
  intro h
  have hexec : (exec (act twoModules) .initial
    [.even 1 1, .even 2 1, .even 2 0, .even 1 0]).isSome := by rfl
  have hburst := h twoModules _ _ (run_exec_get hexec) 8
  revert hexec hburst
  decide +kernel

end Dimemas.Model.Modules
