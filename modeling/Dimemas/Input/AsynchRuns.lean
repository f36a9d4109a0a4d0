import Dimemas.Input.AsynchRead
import Mathlib.Data.Fintype.Card
/-!
# Runs of asynchronous reading

The steps of the reader and of the simulator in any order. The threads get their actions as without
buffers, as long as no burst is read before the modules around it are entered and left.
-/

namespace Dimemas.Input.AsynchRuns

open Dimemas.Library.RingBuffer
open Dimemas.Library.Transitions
open Dimemas.Model.Modules (definedModules twoModules)
open Dimemas.Input.AsynchRead

variable {n : Nat} {α : Type*}

/-- The buffers have two slots or more, no thread is without records, and a task whose bursts are
preempted has one thread. -/
structure Regular (app : App n α) : Prop where
  size : 2 ≤ app.bsizePerThread
  records : ∀ i, app.records i ≠ []
  preemp : app.preemp.isSome → Function.Injective app.taskOf

def reading : ReaderAt n α → Option (Fin n)
  | .read i _ => some i
  | _ => none

/-- The thread whose buffer was found empty. -/
def ending : SimulatorAt n → Option (Fin n)
  | .foundEmpty i => some i
  | _ => none

/-- A record is read when the actions ahead of it do not change its burst. A thread does not end
behind an empty buffer that has been filled since. -/
def Undisturbed (app : App n α) (s : State n α) : Label n → Prop
  | .reader => ∀ i ∈ reading s.reader, (s.view app i).Timely app i
  | .loop => ∀ i ∈ ending s.simulator, s.eofReached i → (s.ring i).head = (s.ring i).tail
  | _ => True

instance (app : App n α) (s : State n α) (l : Label n) : Decidable (Undisturbed app s l) :=
  match l with
  | .reader => inferInstanceAs (Decidable (∀ i ∈ reading s.reader, _))
  | .loop => inferInstanceAs (Decidable (∀ i ∈ ending s.simulator, _))
  | .getNext _ => inferInstanceAs (Decidable True)
  | .execute _ => inferInstanceAs (Decidable True)

def ReaderInv (app : App n α) (s : State n α) : ReaderAt n α → Prop
  | .init j => (∀ i, s.eofReached i = false) ∧
      ∀ i : Fin n, j ≤ i → (s.ring i).head = 0 ∧ (s.ring i).tail = 0 ∧ s.readActions i = []
  | .check i _ => s.eofReached i = false
  | .read i _ => s.eofReached i = false ∧ ¬ (s.ring i).Full app.bsizePerThread
  | .publish i _ _ => s.eofReached i = false ∧ ¬ (s.ring i).Full app.bsizePerThread
  | .ended => ∀ i, s.eofReached i
  | _ => True

/-- A thread for which the simulator looks at a buffer has no action. -/
def SimulatorInv (s : State n α) : Prop :=
  match s.simulator with
  | .looks i => s.action i = none
  | .foundEmpty i => s.action i = none
  | .executes => True

structure Inv (app : App n α) (s : State n α) : Prop where
  sound : ∀ i, (s.view app i).Sound app i
  ended : s.nthreadsEnded = (Finset.univ.filter fun i => s.eofReached i).card
  reader : ReaderInv app s s.reader
  simulator : SimulatorInv s
  init : s.reader.started = false → s.simulator = .executes ∧ ∀ i, s.action i = none

section

variable {app : App n α} {s s' : State n α} {l : Label n}

theorem inv_initial (hregular : Regular app) : Inv app (.initial app) := by
  have hsize := hregular.size
  constructor
  · intro i
    constructor
    · constructor <;> simp [State.view, State.initial] <;> omega
    · simp [State.view, State.initial, Buffer.contents, Buffer.count]
    · simp [State.view, State.initial, View.waiting, Buffer.contents, Buffer.count,
        ReaderAt.publishing]
    · simp [State.view, State.initial, View.ahead, View.waiting, Buffer.contents, Buffer.count,
        ReaderAt.publishing, App.executeAll, App.synch]
    · simp [State.view, State.initial]
    · simp [State.view, State.initial]
    · exact ⟨0, by simp [State.view, State.initial], fun hne => absurd rfl hne⟩
  · simp [State.initial]
  · simp [ReaderInv, State.initial]
  · simp [SimulatorInv, State.initial]
  · simp [State.initial]

theorem getNextAction_cons {i : Fin n} {r : Action α} {rest : List (Action α)}
    (hregular : Regular app) (hleft : s.left i = r :: rest) :
    ∃ table action, action = app.treat i (s.modules i) (s.view app i).count r ∧
      getNextAction app s i =
        ({ s with
            left := Function.update s.left i rest
            preempTable := table
            readActions := Function.update s.readActions i (s.readActions i ++ [action]) },
          some action) ∧
      (∀ j, j ≠ i → app.preemp.isSome →
        table (app.taskOf j) = s.preempTable (app.taskOf j)) ∧
      (app.preemp.isSome → table (app.taskOf i) = (s.view app i).nextCount r) := by
  have htreat : app.treat i (s.modules i) (s.preempTable (app.taskOf i)) r =
      app.treat i (s.modules i) (s.view app i).count r := by
    cases hpreemp : app.preemp with
    | none => exact treat_of_none hpreemp ..
    | some p => simp [State.view, hpreemp]
  refine ⟨if app.preemp.isSome && r.isBurst then
      Function.update s.preempTable (app.taskOf i) (s.preempTable (app.taskOf i) + 1)
    else s.preempTable, _, htreat, ?_, ?_, ?_⟩
  · simp only [getNextAction, hleft]
  · intro j hj hpreemp
    have hne : app.taskOf j ≠ app.taskOf i := fun heq => hj (hregular.preemp hpreemp heq)
    split
    · exact Function.update_of_ne hne ..
    · rfl
  · intro hpreemp
    by_cases hburst : r.isBurst
    · simp [View.nextCount, State.view, hpreemp, hburst]
    · simp [View.nextCount, State.view, hpreemp, hburst]

theorem getNextAction_nil {i : Fin n} (hleft : s.left i = []) :
    getNextAction app s i =
      ({ s with eofReached := Function.update s.eofReached i true }, none) := by
  simp only [getNextAction, hleft]

theorem sound_of_view {i : Fin n} (h : ∀ j, (s.view app j).Sound app j)
    (hself : (s'.view app i).Sound app i)
    (hother : ∀ j, j ≠ i → s'.view app j = s.view app j) :
    ∀ j, (s'.view app j).Sound app j := by
  intro j
  by_cases hj : j = i
  · rwa [hj]
  · rw [hother j hj]
    exact h j

theorem view_congr {j : Fin n} (hleft : s'.left j = s.left j)
    (hmodules : s'.modules j = s.modules j)
    (hcount : app.preemp.isSome →
      s'.preempTable (app.taskOf j) = s.preempTable (app.taskOf j))
    (hring : s'.ring j = s.ring j) (heof : s'.eofReached j = s.eofReached j)
    (haction : s'.action j = s.action j)
    (hpublishing : s'.reader.publishing j = s.reader.publishing j)
    (hread : s'.readActions j = s.readActions j) (hobtained : s'.obtained j = s.obtained j) :
    s'.view app j = s.view app j := by
  unfold State.view
  rw [hleft, hmodules, hring, heof, haction, hpublishing, hread, hobtained]
  congr 1
  split
  · next hpreemp => exact hcount hpreemp
  · rfl

/-- The first action of a thread is read and put in its buffer. -/
theorem inv_init (h : Inv app s) (hregular : Regular app) {i : Nat} (hi : i < n)
    (hreader : s.reader = .init i) :
    Inv app { initThread app s ⟨i, hi⟩ with reader := .init (i + 1) } := by
  have hinv := h.reader
  rw [hreader] at hinv
  obtain ⟨heof, huntouched⟩ := hinv
  obtain ⟨hsimulator, hactions⟩ := h.init (by rw [hreader]; rfl)
  have hsize := hregular.size
  set i' : Fin n := ⟨i, hi⟩ with hi'
  obtain ⟨hhead, htail, hread⟩ := huntouched i' (Nat.le_refl i)
  have hsound := h.sound i'
  have hpublishing : s.reader.publishing i' = [] := by rw [hreader]; rfl
  cases hleft : s.left i' with
  | nil =>
      -- the thread would be without records
      have hsynch := hsound.synch
      have hview : (s.view app i').left = [] := hleft
      have hnone : (s.view app i').readActions = [] := hread
      rw [hview, hnone, App.synchActions, List.append_nil] at hsynch
      cases hrecords : app.records i' with
      | nil => exact absurd hrecords (hregular.records i')
      | cons r rest =>
          rw [App.synch, hrecords, App.synchActions] at hsynch
          cases hsynch
  | cons r rest =>
      obtain ⟨table, action, haction, hget, hother, htable⟩ := getNextAction_cons hregular hleft
      have htimely : (s.view app i').Timely app i' := by
        intro r _
        have hnil : (s.view app i').ahead app = [] := by
          have haction : (s.view app i').action = none := hactions i'
          have hring : (s.view app i').ring.contents app.bsizePerThread = [] :=
            (contents_eq_nil_iff hsound.inside).mpr (hhead.trans htail.symm)
          have hpub : (s.view app i').publishing = [] := hpublishing
          simp [View.ahead, View.waiting, haction, hring, hpub]
        rw [hnil]
        rfl
      have hread := hsound.reads hleft hpublishing htimely haction
        (if app.preemp.isSome then table (app.taskOf i') else 0)
        (by
          intro hpreemp
          rw [if_pos hpreemp]
          exact htable hpreemp) (heof i')
      have hnew := hread.publishes rfl (by
        show ¬ (s.ring i').Full app.bsizePerThread
        rw [Buffer.Full, hhead, htail, Nat.mod_eq_of_lt (by omega)]
        omega)
      have hpush : (s.ring i').push app.bsizePerThread (some action) =
          ⟨Function.update (s.ring i').slots (s.ring i').tail (some action), (s.ring i').head,
            (s.ring i').tail + 1⟩ := by
        rw [Buffer.push, htail, Nat.mod_eq_of_lt (by omega)]
      constructor
      · apply sound_of_view (i := i') h.sound
        · convert hnew using 1
          simp [initThread, hget, State.view, View.reads, View.publishes, hpush,
            ReaderAt.publishing]
        · intro j hj
          simp only [initThread, hget]
          apply view_congr
          · exact Function.update_of_ne hj ..
          · rfl
          · exact hother j hj
          · exact Function.update_of_ne hj ..
          · rfl
          · rfl
          · rw [hreader]
            rfl
          · exact Function.update_of_ne hj ..
          · rfl
      · simp only [initThread, hget]
        exact h.ended
      · simp only [initThread, hget]
        refine ⟨heof, fun j hj => ?_⟩
        have hne : j ≠ i' := by
          rintro rfl
          exact absurd hj (by simp [hi'])
        simp only [Function.update_of_ne hne]
        exact huntouched j (by omega)
      · simp only [initThread, hget, SimulatorInv, hsimulator]
      · intro _
        simp only [initThread, hget]
        exact ⟨hsimulator, hactions⟩

theorem inv_move (h : Inv app s) (reader : ReaderAt n α) (hreader : ReaderInv app s reader)
    (hpublishing : ∀ i, reader.publishing i = s.reader.publishing i) (hstarted : reader.started) :
    Inv app { s with reader } where
  sound i := by
    have hview : ({ s with reader } : State n α).view app i = s.view app i := by
      unfold State.view
      rw [hpublishing i]
    rw [hview]
    exact h.sound i
  ended := h.ended
  reader := by cases reader <;> exact hreader
  simulator := h.simulator
  init hinit := by
    have hinit' : reader.started = false := hinit
    rw [hstarted] at hinit'
    cases hinit'

theorem eofReached_of_card (h : Inv app s) (hended : ¬ n > s.nthreadsEnded) (i : Fin n) :
    s.eofReached i = true := by
  have hcard : Fintype.card (Fin n) ≤ (Finset.univ.filter fun i => s.eofReached i = true).card := by
    rw [Fintype.card_fin, ← h.ended]
    exact Nat.le_of_not_lt hended
  have hall : (Finset.univ.filter fun i => s.eofReached i = true) = Finset.univ :=
    Finset.eq_univ_of_card _ (Nat.le_antisymm (Finset.card_le_univ _) hcard)
  have hi : i ∈ Finset.univ.filter fun i => s.eofReached i = true := by
    rw [hall]
    exact Finset.mem_univ i
  exact (Finset.mem_filter.mp hi).2

theorem inv_read (h : Inv app s) (hregular : Regular app) {i : Fin n} {k : Nat}
    (hreader : s.reader = .read i k) (htimely : (s.view app i).Timely app i)
    (hstep : readerNext app s = some s') : Inv app s' := by
  have hinv := h.reader
  rw [hreader] at hinv
  obtain ⟨heof, hfull⟩ := hinv
  have hsound := h.sound i
  have hpublishing : ∀ j, s.reader.publishing j = [] := by
    rw [hreader]
    exact fun j => rfl
  cases hleft : s.left i with
  | nil =>
      simp only [readerNext, hreader, getNextAction_nil hleft] at hstep
      obtain rfl := Option.some.inj hstep
      constructor
      · apply sound_of_view (i := i) h.sound
        · convert hsound.endOfFile hleft using 1
          simp [State.view, hreader, ReaderAt.publishing]
        · intro j hj
          apply view_congr <;> try rfl
          · exact fun _ => rfl
          · exact Function.update_of_ne hj ..
          · rw [hpublishing j]
            rfl
      · have hinsert : (Finset.univ.filter fun j => Function.update s.eofReached i true j = true) =
            insert i (Finset.univ.filter fun j => s.eofReached j = true) := by
          ext j
          by_cases hj : j = i
          · simp [hj]
          · simp [hj]
        simp only
        rw [hinsert, Finset.card_insert_of_notMem (by simp [heof]), ← h.ended]
      · trivial
      · exact h.simulator
      · intro hinit
        cases hinit
  | cons r rest =>
      obtain ⟨table, action, haction, hget, hother, htable⟩ := getNextAction_cons hregular hleft
      simp only [readerNext, hreader, hget] at hstep
      obtain rfl := Option.some.inj hstep
      have hnew := hsound.reads hleft (hpublishing i) htimely haction
        (if app.preemp.isSome then table (app.taskOf i) else 0)
        (by
          intro hpreemp
          rw [if_pos hpreemp]
          exact htable hpreemp) heof
      constructor
      · apply sound_of_view (i := i) h.sound
        · convert hnew using 1
          simp [State.view, View.reads, ReaderAt.publishing]
        · intro j hj
          apply view_congr
          · exact Function.update_of_ne hj ..
          · rfl
          · exact hother j hj
          · rfl
          · rfl
          · rfl
          · rw [hpublishing j]
            exact if_neg (Ne.symm hj)
          · exact Function.update_of_ne hj ..
          · rfl
      · exact h.ended
      · exact ⟨heof, hfull⟩
      · exact h.simulator
      · intro hinit
        cases hinit

theorem inv_publish (h : Inv app s) {i : Fin n} {k : Nat} {action : Action α}
    (hreader : s.reader = .publish i k action) (hstep : readerNext app s = some s') :
    Inv app s' := by
  have hinv := h.reader
  rw [hreader] at hinv
  obtain ⟨heof, hfull⟩ := hinv
  simp only [readerNext, hreader] at hstep
  obtain rfl := Option.some.inj hstep
  have hpublishing : (s.view app i).publishing = [action] := by
    simp [State.view, hreader, ReaderAt.publishing]
  have hnew := (h.sound i).publishes hpublishing hfull
  constructor
  · apply sound_of_view (i := i) h.sound
    · convert hnew using 1
      simp [State.view, View.publishes, ReaderAt.publishing]
    · intro j hj
      apply view_congr
      · rfl
      · rfl
      · exact fun _ => rfl
      · exact Function.update_of_ne hj ..
      · rfl
      · rfl
      · rw [hreader]
        exact (if_neg (Ne.symm hj)).symm
      · rfl
      · rfl
  · exact h.ended
  · exact heof
  · exact h.simulator
  · intro hinit
    cases hinit

theorem inv_readerNext (h : Inv app s) (hregular : Regular app)
    (hcond : Undisturbed app s .reader) (hstep : readerNext app s = some s') : Inv app s' := by
  cases hreader : s.reader with
  | init i =>
      simp only [readerNext, hreader] at hstep
      split at hstep
      · next hi =>
          obtain rfl := Option.some.inj hstep
          exact inv_init h hregular hi hreader
      · obtain rfl := Option.some.inj hstep
        apply inv_move h .outer trivial _ rfl
        rw [hreader]
        exact fun _ => rfl
  | outer =>
      simp only [readerNext, hreader] at hstep
      obtain rfl := Option.some.inj hstep
      by_cases hended : n > s.nthreadsEnded
      · rw [if_pos hended]
        apply inv_move h (.thread 0) trivial _ rfl
        rw [hreader]
        exact fun _ => rfl
      · rw [if_neg hended]
        apply inv_move h .ended (eofReached_of_card h hended) _ rfl
        rw [hreader]
        exact fun _ => rfl
  | thread i =>
      simp only [readerNext, hreader] at hstep
      split at hstep
      · next hi =>
          obtain rfl := Option.some.inj hstep
          cases heof : s.eofReached ⟨i, hi⟩ with
          | true =>
              apply inv_move h (.thread (i + 1)) trivial _ rfl
              rw [hreader]
              exact fun _ => rfl
          | false =>
              apply inv_move h (.check ⟨i, hi⟩ 0) heof _ rfl
              rw [hreader]
              exact fun _ => rfl
      · obtain rfl := Option.some.inj hstep
        apply inv_move h .outer trivial _ rfl
        rw [hreader]
        exact fun _ => rfl
  | check i k =>
      have hinv := h.reader
      rw [hreader] at hinv
      simp only [readerNext, hreader] at hstep
      obtain rfl := Option.some.inj hstep
      by_cases hfull : k < 10 ∧ ¬ (s.ring i).Full app.bsizePerThread
      · rw [if_pos hfull]
        apply inv_move h (.read i k) ⟨hinv, hfull.2⟩ _ rfl
        rw [hreader]
        exact fun _ => rfl
      · rw [if_neg hfull]
        apply inv_move h (.thread (i + 1)) trivial _ rfl
        rw [hreader]
        exact fun _ => rfl
  | read i k =>
      simp only [Undisturbed, hreader] at hcond
      exact inv_read h hregular hreader (hcond i rfl) hstep
  | publish i k action => exact inv_publish h hreader hstep
  | ended =>
      simp only [readerNext, hreader] at hstep
      cases hstep

theorem Inv.of_simulator (h : Inv app s) (hsound : ∀ i, (s'.view app i).Sound app i)
    (hreader : s'.reader = s.reader) (heof : s'.eofReached = s.eofReached)
    (hended : s'.nthreadsEnded = s.nthreadsEnded) (hstarted : s.reader.started = true)
    (hfull : ∀ i, ¬ (s.ring i).Full app.bsizePerThread →
      ¬ (s'.ring i).Full app.bsizePerThread)
    (hsimulator : SimulatorInv s') : Inv app s' where
  sound := hsound
  ended := by rw [hended, heof, h.ended]
  reader := by
    have hinv := h.reader
    rw [hreader]
    cases hr : s.reader with
    | init j =>
        rw [hr] at hstarted
        cases hstarted
    | outer => trivial
    | thread i => trivial
    | check i k =>
        rw [hr] at hinv
        simp only [ReaderInv, heof]
        exact hinv
    | read i k =>
        rw [hr] at hinv
        simp only [ReaderInv, heof]
        exact ⟨hinv.1, hfull i hinv.2⟩
    | publish i k action =>
        rw [hr] at hinv
        simp only [ReaderInv, heof]
        exact ⟨hinv.1, hfull i hinv.2⟩
    | ended =>
        rw [hr] at hinv
        simp only [ReaderInv, heof]
        exact hinv
  simulator := hsimulator
  init hinit := by
    rw [hreader, hstarted] at hinit
    cases hinit

theorem not_full_pop {size : Nat} {ring : Buffer (Option (Action α))} (h : ring.Inside size)
    (hne : ring.head ≠ ring.tail) : ¬ (ring.pop size).Full size := by
  obtain ⟨hhead, htail⟩ := h
  unfold Buffer.Full Buffer.pop
  rw [succ_mod_eq hhead, succ_mod_eq htail]
  simp only
  split <;> split <;> omega

theorem started_of_simulator (h : Inv app s) (hsimulator : s.simulator ≠ .executes) :
    s.reader.started = true := by
  by_contra hnot
  exact hsimulator (h.init (by simpa using hnot)).1

theorem publishing_of_eof (h : Inv app s) {i : Fin n} (heof : s.eofReached i = true) :
    s.reader.publishing i = [] := by
  have hinv := h.reader
  cases hr : s.reader with
  | publish j k action =>
      rw [hr] at hinv
      apply if_neg
      rintro rfl
      rw [hinv.1] at heof
      cases heof
  | _ => rfl

/-- The loop of `READ_get_next_action`. -/
theorem inv_loop (h : Inv app s) (hcond : Undisturbed app s .loop)
    (hstep : next app s .loop = some s') : Inv app s' := by
  have hsim := h.simulator
  cases hsimulator : s.simulator with
  | executes =>
      simp only [next, hsimulator] at hstep
      cases hstep
  | looks i =>
      have hstarted := started_of_simulator h (by simp [hsimulator])
      simp only [SimulatorInv, hsimulator] at hsim
      simp only [next, hsimulator] at hstep
      split at hstep
      · obtain rfl := Option.some.inj hstep
        exact h.of_simulator h.sound rfl rfl rfl hstarted (fun _ hfull => hfull) hsim
      · next hne =>
          obtain rfl := Option.some.inj hstep
          have hnew := (h.sound i).takes hne hsim
          refine h.of_simulator ?_ rfl rfl rfl hstarted ?_ trivial
          · apply sound_of_view (i := i) h.sound
            · convert hnew using 1
              simp [State.view, View.takes, State.obtain]
            · intro j hj
              apply view_congr
              · rfl
              · rfl
              · exact fun _ => rfl
              · exact Function.update_of_ne hj ..
              · rfl
              · exact Function.update_of_ne hj ..
              · rfl
              · rfl
              · exact Function.update_of_ne hj ..
          · intro j hfull
            by_cases hj : j = i
            · subst hj
              simp only [Function.update_self]
              exact not_full_pop (h.sound j).inside hne
            · simp only [Function.update_of_ne hj]
              exact hfull
  | foundEmpty i =>
      have hstarted := started_of_simulator h (by simp [hsimulator])
      simp only [SimulatorInv, hsimulator] at hsim
      simp only [Undisturbed, hsimulator] at hcond
      simp only [next, hsimulator] at hstep
      split at hstep
      · next heof =>
          obtain rfl := Option.some.inj hstep
          have hnew := (h.sound i).obtainNil (hcond i rfl heof) heof (publishing_of_eof h heof) hsim
          refine h.of_simulator ?_ rfl rfl rfl hstarted (fun _ hfull => hfull) trivial
          apply sound_of_view (i := i) h.sound
          · convert hnew using 1
            simp [State.view, State.obtain]
          · intro j hj
            apply view_congr
            · rfl
            · rfl
            · exact fun _ => rfl
            · rfl
            · rfl
            · exact Function.update_of_ne hj ..
            · rfl
            · rfl
            · exact Function.update_of_ne hj ..
      · obtain rfl := Option.some.inj hstep
        exact h.of_simulator h.sound rfl rfl rfl hstarted (fun _ hfull => hfull) hsim

theorem inv_next (h : Inv app s) (hregular : Regular app) (hcond : Undisturbed app s l)
    (hstep : ofPartial (next app) s l s') : Inv app s' := by
  cases l with
  | reader => exact inv_readerNext h hregular hcond hstep
  | loop => exact inv_loop h hcond hstep
  | getNext i =>
      simp only [ofPartial, next] at hstep
      split at hstep
      · next haction =>
          split at hstep
          · next hstarted =>
              obtain rfl := Option.some.inj hstep
              exact h.of_simulator h.sound rfl rfl rfl hstarted (fun _ hfull => hfull) haction
          · cases hstep
      · cases hstep
  | execute i =>
      simp only [ofPartial, next] at hstep
      split at hstep
      · next hsimulator haction =>
          obtain rfl := Option.some.inj hstep
          have hstarted : s.reader.started = true := by
            by_contra hnot
            rw [(h.init (by simpa using hnot)).2 i] at haction
            cases haction
          have hnew := (h.sound i).execute haction
          refine h.of_simulator ?_ rfl rfl rfl hstarted (fun _ hfull => hfull)
            (by simp only [SimulatorInv, hsimulator])
          · apply sound_of_view (i := i) h.sound
            · convert hnew using 1
              simp [State.view]
            · intro j hj
              apply view_congr
              · rfl
              · exact Function.update_of_ne hj ..
              · exact fun _ => rfl
              · rfl
              · rfl
              · exact Function.update_of_ne hj ..
              · rfl
              · rfl
              · rfl
      · cases hstep

/-- After some steps of its own the reader has left its loop. -/
def Ends (app : App n α) (s : State n α) : Prop :=
  ∃ m tr last, exec (next app) s (List.replicate m .reader) = some (tr, last) ∧
    last.reader = .ended

theorem ends_of_step (hstep : next app s .reader = some s') (h : Ends app s') : Ends app s := by
  obtain ⟨m, tr, last, hexec, hlast⟩ := h
  refine ⟨m + 1, ⟨s, .reader, s'⟩ :: tr, last, ?_, hlast⟩
  rw [List.replicate_succ, exec, hstep, Option.bind_some, hexec]
  rfl

theorem ends_of_ended (h : s.reader = .ended) : Ends app s := ⟨0, [], s, rfl, h⟩

theorem ends_of_outer (hreader : s.reader = .outer) (hended : s.nthreadsEnded = n) :
    Ends app s := by
  have hstep : next app s .reader = some { s with reader := .ended } := by
    simp [next, readerNext, hreader, hended]
  exact ends_of_step hstep (ends_of_ended rfl)

/-- A reader that finds all threads at their end goes through the rest of them. -/
theorem ends_of_thread {i : Nat} (hreader : s.reader = .thread i)
    (heof : ∀ i, s.eofReached i = true) (hended : s.nthreadsEnded = n) : Ends app s := by
  induction hd : n - i generalizing s i with
  | zero =>
      have hi : ¬ i < n := by omega
      have hstep : next app s .reader = some { s with reader := .outer } := by
        simp [next, readerNext, hreader, hi]
      exact ends_of_step hstep (ends_of_outer rfl hended)
  | succ d ih =>
      have hi : i < n := by omega
      have hstep : next app s .reader = some { s with reader := .thread (i + 1) } := by
        simp [next, readerNext, hreader, hi, heof]
      exact ends_of_step hstep (ih rfl heof hended (by omega))

theorem ends_of_eof (h : Inv app s) (heof : ∀ i, s.eofReached i = true) : Ends app s := by
  have hinv := h.reader
  have hended : s.nthreadsEnded = n := by
    rw [h.ended, Finset.filter_true_of_mem fun i _ => heof i, Finset.card_univ, Fintype.card_fin]
  cases hreader : s.reader with
  | init j =>
      rw [hreader] at hinv
      have hj : ¬ j < n := by
        intro hj
        have hfalse := hinv.1 ⟨j, hj⟩
        rw [heof] at hfalse
        cases hfalse
      have hstep : next app s .reader = some { s with reader := .outer } := by
        simp [next, readerNext, hreader, hj]
      exact ends_of_step hstep (ends_of_outer rfl hended)
  | outer => exact ends_of_outer hreader hended
  | thread i => exact ends_of_thread hreader heof hended
  | check i k =>
      rw [hreader] at hinv
      exact absurd (heof i) (by simp [show s.eofReached i = false from hinv])
  | read i k =>
      rw [hreader] at hinv
      exact absurd (heof i) (by simp [hinv.1])
  | publish i k action =>
      rw [hreader] at hinv
      exact absurd (heof i) (by simp [hinv.1])
  | ended => exact ends_of_ended hreader

/-- The threads get their actions as without buffers. Those that were read are obtained in their
order, or they are in the buffer. The reader ends with the last thread. -/
structure SameAsSynch (app : App n α) (s : State n α) : Prop where
  actions : ∀ (i : Fin n) (j : Nat) (result : Option (Action α)),
    (s.obtained i)[j]? = some result → result = (app.synch i)[j]?
  buffers : ∀ i, (s.obtained i).filterMap id ++ (s.view app i).waiting app = s.readActions i
  ends : (∀ i, s.eofReached i = true) → Ends app s
  reader : s.reader = .ended → ∀ i, s.eofReached i = true

/-- Behind steps that are not disturbed asynchronous reading is the same as without it. -/
theorem asynch_same_as_synch (hregular : Regular app)
    {tr : List (Transition (State n α) (Label n))}
    (hrun : Run (ofPartial (next app)) (.initial app) tr s)
    (hcond : ∀ t ∈ tr, Undisturbed app t.pre t.label) : SameAsSynch app s := by
  have hinv : Inv app s := hrun.invariant_of_guard (inv_initial hregular)
    (fun _ _ _ h hl hstep => inv_next h hregular hl hstep) hcond
  constructor
  · exact fun i j result hj => (hinv.sound i).obtained hj
  · exact fun i => (hinv.sound i).flow
  · exact ends_of_eof hinv
  · intro hreader
    have hended := hinv.reader
    rw [hreader] at hended
    exact hended

end

/-- A thread whose burst is inside a module with ratio 2. -/
def oneModule : App 1 Unit where
  records _ := [.even 1 1, .work 8]
  table := definedModules twoModules
  relative _ := 2
  accRelative _ := 2
  taskOf _ := 0
  preemp := none
  bsizePerThread := 4

/-- The event is executed before the burst is read. The thread gets both and its end, and the
reader ends. -/
def wholeRun : List (Label 1) :=
  [.reader, .reader, .getNext 0, .loop, .execute 0, .reader, .reader, .reader, .reader, .reader,
    .reader, .reader, .getNext 0, .loop, .execute 0, .getNext 0, .loop, .loop, .reader, .reader]

theorem asynch_same_as_synch_whole :
    SameAsSynch oneModule ((exec (next oneModule) (.initial oneModule) wholeRun).get (by rfl)).2 := by
  refine asynch_same_as_synch ?_ (run_exec_get (by rfl)) (by decide +kernel)
  constructor
  · decide
  · exact fun i => List.cons_ne_nil _ _
  · intro hpreemp
    cases hpreemp

/-- The burst is read before the entrance of its module is executed. -/
theorem not_asynch_same_as_synch :
    ¬ ∀ (app : App 1 Unit) (tr : List (Transition (State 1 Unit) (Label 1)))
      (s : State 1 Unit), Run (ofPartial (next app)) (.initial app) tr s → SameAsSynch app s := by
  intro h
  have hexec : (exec (next oneModule) (.initial oneModule)
    [.reader, .reader, .reader, .reader, .reader, .reader, .reader, .getNext 0, .loop,
      .execute 0, .getNext 0, .loop]).isSome := by rfl
  have hburst := (h oneModule _ _ (run_exec_get hexec)).actions 0 1 (some (.work 4000000000))
  revert hexec hburst
  decide +kernel

end Dimemas.Input.AsynchRuns
