import Dimemas.Utils.DeadlockAnalysis
/-!
# Eager messages in the deadlock analysis

Programs of eager SENDs, RECVs, IRECVs and WAITs. An eager SEND and an IRECV that was matched both
leave a resolved dependency, and the graph does not tell which of them left it. Here every
dependency is marked with the operation that it belongs to.
-/

namespace Dimemas.Utils.EagerMessages

open Dimemas.Library.Transitions
open Dimemas.Utils.Graph
open Dimemas.Utils.DeadlockAnalysis

variable {n : Nat}

/-- The operation of a dependency: a RECV, IRECV or WAIT, an eager SEND that no receive has
found, or one that a RECV has found. -/
inductive Mark
  | receive
  | fresh
  | found
deriving DecidableEq, Repr

def Mark.find : Mark → Mark
  | .fresh => .found
  | m => m

/-- A message goes from one rank to another one, with a tag and a communicator. -/
structure Channel (n : Nat) where
  source : Fin n
  dest : Fin n
  name : Int × Nat
deriving DecidableEq, Repr

abbrev Records (n : Nat) := Fin n → List (Mark × Dependency n)

def Records.graph (r : Records n) : GraphMap n := fun i => (r i).map Prod.snd

def asks (q : Query n) (x : Mark × Dependency n) : Bool := q.asksFor x.2

def Records.first (r : Records n) (i : Fin n) (q : Query n) : Option (Mark × Dependency n) :=
  (r i).find? (asks q)

def changeRecord (q : Query n) : List (Mark × Dependency n) → List (Mark × Dependency n)
  | [] => []
  | x :: xs =>
      if asks q x then (x.1.find, { x.2 with action := .resolved }) :: xs
      else x :: changeRecord q xs

/-- A change of the graph. A dependency is only changed to a resolved one. -/
inductive Edit (n : Nat)
  | add (fromTask : Fin n) (mark : Mark) (d : Dependency n)
  | remove (fromTask : Fin n) (q : Query n)
  | resolve (fromTask : Fin n) (q : Query n)

def Edit.apply (g : GraphMap n) : Edit n → GraphMap n
  | .add i _ d => addDependency g i d
  | .remove i q => removeDependency g i q
  | .resolve i q => changeAction g i q .resolved

def Edit.record (r : Records n) : Edit n → Records n
  | .add i m d => Function.update r i
      ((r i).takeWhile (fun x => x.2.toTask < d.toTask) ++ (m, d) ::
        (r i).dropWhile (fun x => x.2.toTask < d.toTask))
  | .remove i q => Function.update r i ((r i).eraseP (asks q))
  | .resolve i q => Function.update r i (changeRecord q (r i))

/-- What an event does: the changes of the graph, and the channel if a RECV or an IRECV is let
pass on account of an eager SEND. -/
structure Effect (n : Nat) where
  edits : List (Edit n)
  passes : Option (Channel n)

def sendQuery (task : Fin n) (channel : Int × Nat) : Query n :=
  messageQuery task .strg DepAction.send.code channel

def resolvedQuery (task : Fin n) (channel : Int × Nat) : Query n :=
  messageQuery task .soft DepAction.resolved.code channel

def sendEffect (g : GraphMap n) (task dest : Fin n) (channel : Int × Nat) : Effect n :=
  let strong := messageQuery task .strg (DepAction.recv.code ||| DepAction.wait.code) channel
  let soft := messageQuery task .soft DepAction.irecv.code channel
  let passes := some ⟨task, dest, channel⟩
  match (getDependency g dest strong).map Dependency.action, getDependencies g dest soft with
  | some .recv, _ => ⟨[.remove dest strong], passes⟩
  | some .wait, _ :: _ => ⟨[.remove dest strong, .remove dest soft], passes⟩
  | some .wait, [] => ⟨[.add task .receive (messageDependency dest .strg .send channel)], none⟩
  | _, _ :: _ => ⟨[.resolve dest soft], passes⟩
  | _, [] => ⟨[.add task .fresh (messageDependency dest .soft .resolved channel)], none⟩

def recvEffect (g : GraphMap n) (task ori : Fin n) (channel : Int × Nat) : Effect n :=
  if (getDependency g ori (sendQuery task channel)).isSome then
    ⟨[.remove ori (sendQuery task channel)], none⟩
  else if (getDependency g ori (resolvedQuery task channel)).isSome then
    ⟨[.resolve ori (resolvedQuery task channel)], some ⟨ori, task, channel⟩⟩
  else ⟨[.add task .receive (messageDependency ori .strg .recv channel)], none⟩

def waitEffect (g : GraphMap n) (task ori : Fin n) (channel : Int × Nat) : Effect n :=
  if (getDependency g task (resolvedQuery ori channel)).isSome then
    ⟨[.remove task (resolvedQuery ori channel)], none⟩
  else if (getDependency g ori (resolvedQuery task channel)).isSome then
    ⟨[.remove ori (resolvedQuery task channel)], none⟩
  else ⟨[.add task .receive (messageDependency ori .strg .wait channel)], none⟩

def irecvEffect (g : GraphMap n) (task ori : Fin n) (channel : Int × Nat) : Effect n :=
  let resolved := .add task .receive (messageDependency ori .soft .resolved channel)
  if (getDependency g ori (sendQuery task channel)).isSome then
    ⟨[.remove ori (sendQuery task channel), resolved], none⟩
  else if (getDependency g ori (resolvedQuery task channel)).isSome then
    ⟨[.remove ori (resolvedQuery task channel), resolved], some ⟨ori, task, channel⟩⟩
  else ⟨[.add task .receive (messageDependency ori .soft .irecv channel)], none⟩

def effect (g : GraphMap n) (task : Fin n) : Operation n → Effect n
  | .send dest channel _ => sendEffect g task dest channel
  | .recv ori channel => recvEffect g task ori channel
  | .wait ori channel => waitEffect g task ori channel
  | .irecv ori channel => irecvEffect g task ori channel
  | .globalOp _ _ => ⟨[], none⟩

def isEager : Operation n → Bool
  | .send _ _ rendezVous => !rendezVous
  | .globalOp _ _ => false
  | _ => true

def sendOn (task : Fin n) : Operation n → Option (Channel n)
  | .send dest channel _ => some ⟨task, dest, channel⟩
  | _ => none

def one (o : Option (Channel n)) (c : Channel n) : Nat := if o = some c then 1 else 0

def count (f : Channel n → Nat) (o : Option (Channel n)) (c : Channel n) : Nat := f c + one o c

/-- `sends` are the eager SENDs that were issued, and `passes` the receives that were let pass on
account of them. -/
structure EagerState (n : Nat) where
  records : Records n
  sends : Channel n → Nat
  passes : Channel n → Nat
  logOpen : Bool
  withDeadlockAnalysis : Bool

def EagerState.init : EagerState n := ⟨fun _ => [], fun _ => 0, fun _ => 0, true, true⟩

def EagerState.analyzer (s : EagerState n) : Analyzer n :=
  ⟨s.records.graph, s.logOpen, s.withDeadlockAnalysis⟩

/-- What an event does as long as the analysis goes on, and nothing behind its end. -/
def stepEffect (endAnalysis : ℚ) (s : EagerState n) (e : Event n) : Effect n :=
  if s.withDeadlockAnalysis ∧ e.progression < endAnalysis then effect s.records.graph e.task e.op
  else ⟨[], none⟩

/-- An event of the program. All begins anew behind an event that returned TRUE. -/
def eagerNext (endAnalysis : ℚ) (s : EagerState n) (e : Event n) : Option (EagerState n) :=
  if isEager e.op then do
    let (a, res) ← communicEvent (fun _ => []) endAnalysis s.analyzer e
    if res then
      let a ← a.reset
      some { EagerState.init with
        logOpen := a.logOpen, withDeadlockAnalysis := a.withDeadlockAnalysis }
    else
      some
        { records := (stepEffect endAnalysis s e).edits.foldl Edit.record s.records
          sends := count s.sends (sendOn e.task e.op)
          passes := count s.passes (stepEffect endAnalysis s e).passes
          logOpen := a.logOpen
          withDeadlockAnalysis := a.withDeadlockAnalysis }
  else none

section

variable {r : Records n} {g g' : GraphMap n} {task i : Fin n} {op : Operation n} {o : Outcome}
  {q : Query n} {d : Dependency n} {channel : Int × Nat} {c : Channel n} {m : Mark}
  {x : Mark × Dependency n} {xs : List (Mark × Dependency n)}

theorem map_changeRecord :
    (changeRecord q xs).map Prod.snd = changeFirst q .resolved (xs.map Prod.snd) := by
  induction xs with
  | nil => rfl
  | cons x xs ih =>
      rw [changeRecord, List.map_cons, changeFirst, asks]
      split
      · rfl
      · rw [List.map_cons, ih]

theorem graph_update (r : Records n) (i : Fin n) (xs : List (Mark × Dependency n)) :
    Records.graph (Function.update r i xs) = Function.update r.graph i (xs.map Prod.snd) := by
  funext j
  by_cases hj : j = i
  · subst hj
    simp [Records.graph]
  · simp [Records.graph, Function.update_of_ne hj]

theorem graph_record (r : Records n) (e : Edit n) : (e.record r).graph = e.apply r.graph := by
  cases e with
  | add i m d =>
      rw [Edit.record, graph_update, Edit.apply, addDependency, Records.graph]
      simp only [List.map_append, List.map_cons, List.takeWhile_map, List.dropWhile_map]
      rfl
  | remove i q =>
      rw [Edit.record, graph_update, Edit.apply, removeDependency, Records.graph, List.eraseP_map]
      rfl
  | resolve i q =>
      rw [Edit.record, graph_update, Edit.apply, changeAction, map_changeRecord]
      rfl

theorem graph_foldl_record (es : List (Edit n)) (r : Records n) :
    (es.foldl Edit.record r).graph = es.foldl Edit.apply r.graph := by
  induction es generalizing r with
  | nil => rfl
  | cons e es ih => rw [List.foldl_cons, List.foldl_cons, ih, graph_record]

theorem newSend_effect {dest : Fin n} (h : newSend g task dest channel false = some (g', o)) :
    (sendEffect g task dest channel).edits.foldl Edit.apply g = g' := by
  unfold newSend at h
  unfold sendEffect
  simp only at h ⊢
  generalize (getDependency g dest _).map Dependency.action = strong at h ⊢
  generalize getDependencies g dest _ = deps at h ⊢
  have hgraph : ∀ g₁ o₁, some (g₁, o₁) = some (g', o) → g₁ = g' := by
    intro g₁ o₁ heq
    exact (Prod.mk.inj (Option.some.inj heq)).1
  cases deps with
  | nil =>
      cases strong with
      | none => exact hgraph _ _ h
      | some a => cases a <;> exact hgraph _ _ h
  | cons d ds =>
      cases strong with
      | none => exact hgraph _ _ h
      | some a =>
          cases a with
          | wait =>
              by_cases haction : d.action = .irecv
              · simp only [if_pos haction] at h
                exact hgraph _ _ h
              · simp only [if_neg haction] at h
                cases h
          | send => exact hgraph _ _ h
          | recv => exact hgraph _ _ h
          | globalOp => exact hgraph _ _ h
          | irecv => exact hgraph _ _ h
          | resolved => exact hgraph _ _ h

theorem newRecv_effect {ori : Fin n} :
    (recvEffect g task ori channel).edits.foldl Edit.apply g =
      (newRecv g task ori channel).1 := by
  unfold newRecv recvEffect sendQuery resolvedQuery
  simp only
  split
  · rfl
  · split <;> rfl

theorem newIrecv_effect {ori : Fin n} :
    (irecvEffect g task ori channel).edits.foldl Edit.apply g =
      (newIrecv g task ori channel).1 := by
  unfold newIrecv irecvEffect sendQuery resolvedQuery
  simp only
  split
  · rfl
  · split <;> rfl

theorem newWait_effect {ori : Fin n} :
    (waitEffect g task ori channel).edits.foldl Edit.apply g =
      (newWait g task ori channel).1 := by
  unfold newWait waitEffect resolvedQuery
  simp only
  split
  · rfl
  · split <;> rfl

theorem update_effect (heager : isEager op) (h : update (fun _ => []) g task op = some (g', o)) :
    (effect g task op).edits.foldl Edit.apply g = g' := by
  cases op with
  | send dest channel rendezVous =>
      cases rendezVous with
      | true => cases heager
      | false => exact newSend_effect h
  | recv ori channel =>
      rw [effect, newRecv_effect]
      exact congrArg Prod.fst (Option.some.inj h)
  | irecv ori channel =>
      rw [effect, newIrecv_effect]
      exact congrArg Prod.fst (Option.some.inj h)
  | wait ori channel =>
      rw [effect, newWait_effect]
      exact congrArg Prod.fst (Option.some.inj h)
  | globalOp glopId commId => cases heager

/-- A record is that of an eager SEND on a channel which no receive has found. -/
def isFreshOn (c : Channel n) (x : Mark × Dependency n) : Bool :=
  x.1 = .fresh ∧ x.2.toTask = c.dest ∧ x.2.channel = c.name

/-- The eager SENDs on a channel that no receive has found. -/
def freshOn (r : Records n) (c : Channel n) : Nat := (r c.source).countP (isFreshOn c)

theorem countP_eraseP_le (p : Mark × Dependency n → Bool) :
    (xs.eraseP (asks q)).countP p ≤ xs.countP p :=
  List.Sublist.countP_le List.eraseP_sublist

theorem countP_eraseP_lt {p : Mark × Dependency n → Bool}
    (hfirst : xs.find? (asks q) = some x) (hx : p x) :
    (xs.eraseP (asks q)).countP p < xs.countP p := by
  induction xs with
  | nil => cases hfirst
  | cons y ys ih =>
      cases hy : asks q y with
      | true =>
          rw [List.find?_cons_of_pos hy] at hfirst
          obtain rfl := Option.some.inj hfirst
          rw [List.eraseP_cons_of_pos hy, List.countP_cons_of_pos hx]
          omega
      | false =>
          have hno : ¬ asks q y = true := by simp [hy]
          rw [List.find?_cons_of_neg hno] at hfirst
          rw [List.eraseP_cons_of_neg hno, List.countP_cons, List.countP_cons]
          have hlt := ih hfirst
          omega

theorem isFreshOn_find : isFreshOn c (x.1.find, { x.2 with action := .resolved }) = false := by
  cases hm : x.1 <;> simp [isFreshOn, Mark.find]

theorem countP_changeRecord_le :
    (changeRecord q xs).countP (isFreshOn c) ≤ xs.countP (isFreshOn c) := by
  induction xs with
  | nil => exact le_refl _
  | cons y ys ih =>
      rw [changeRecord]
      split
      · rw [List.countP_cons_of_neg (by simp [isFreshOn_find]), List.countP_cons]
        omega
      · rw [List.countP_cons, List.countP_cons]
        omega

theorem countP_changeRecord_lt (hfirst : xs.find? (asks q) = some x)
    (hx : isFreshOn c x) : (changeRecord q xs).countP (isFreshOn c) < xs.countP (isFreshOn c) := by
  induction xs with
  | nil => cases hfirst
  | cons y ys ih =>
      cases hy : asks q y with
      | true =>
          rw [List.find?_cons_of_pos hy] at hfirst
          obtain rfl := Option.some.inj hfirst
          rw [changeRecord, if_pos hy, List.countP_cons_of_neg (by simp [isFreshOn_find]),
            List.countP_cons_of_pos hx]
          omega
      | false =>
          have hno : ¬ asks q y = true := by simp [hy]
          rw [List.find?_cons_of_neg hno] at hfirst
          rw [changeRecord, if_neg hno, List.countP_cons, List.countP_cons]
          have hlt := ih hfirst
          omega

theorem countP_add {ys : List (Mark × Dependency n)} (p : Mark × Dependency n → Bool)
    (b : Mark × Dependency n → Bool) :
    (ys.takeWhile b ++ x :: ys.dropWhile b).countP p = ys.countP p + if p x then 1 else 0 := by
  have hsplit := congrArg (List.countP p) (List.takeWhile_append_dropWhile (p := b) (l := ys))
  rw [List.countP_append] at hsplit
  rw [List.countP_append, List.countP_cons]
  omega

theorem freshOn_remove_le (r : Records n) (i : Fin n) (q : Query n) (c : Channel n) :
    freshOn ((Edit.remove i q).record r) c ≤ freshOn r c := by
  simp only [freshOn, Edit.record]
  by_cases hi : c.source = i
  · subst hi
    rw [Function.update_self]
    exact countP_eraseP_le _
  · rw [Function.update_of_ne hi]

theorem freshOn_resolve_le (r : Records n) (i : Fin n) (q : Query n) (c : Channel n) :
    freshOn ((Edit.resolve i q).record r) c ≤ freshOn r c := by
  simp only [freshOn, Edit.record]
  by_cases hi : c.source = i
  · subst hi
    rw [Function.update_self]
    exact countP_changeRecord_le
  · rw [Function.update_of_ne hi]

theorem freshOn_add_receive (r : Records n) (i : Fin n) (d : Dependency n) (c : Channel n) :
    freshOn ((Edit.add i .receive d).record r) c = freshOn r c := by
  simp only [freshOn, Edit.record]
  by_cases hi : c.source = i
  · subst hi
    rw [Function.update_self, countP_add]
    simp [isFreshOn]
  · rw [Function.update_of_ne hi]

theorem freshOn_add_fresh (r : Records n) (task dest : Fin n) (channel : Int × Nat)
    (c : Channel n) :
    freshOn ((Edit.add task .fresh (messageDependency dest .soft .resolved channel)).record r) c =
      freshOn r c + one (some ⟨task, dest, channel⟩) c := by
  simp only [freshOn, Edit.record]
  obtain ⟨source, target, name⟩ := c
  by_cases hi : source = task
  · subst hi
    rw [Function.update_self, countP_add]
    simp [isFreshOn, one, messageDependency]
  · have hone : one (some ⟨task, dest, channel⟩) ⟨source, target, name⟩ = 0 := by
      unfold one
      rw [if_neg]
      intro heq
      exact hi (Channel.mk.inj (Option.some.inj heq)).1.symm
    rw [Function.update_of_ne hi, hone, Nat.add_zero]

theorem first_of_getDependency (h : (getDependency r.graph i q).isSome) :
    ∃ x, r.first i q = some x := by
  obtain ⟨d, hd⟩ := Option.isSome_iff_exists.mp h
  obtain ⟨hmem, hasks⟩ := getFirst_eq_some hd
  obtain ⟨x, hx, rfl⟩ := List.mem_map.mp hmem
  apply Option.isSome_iff_exists.mp
  exact List.find?_isSome.mpr ⟨x, hx, hasks⟩

/-- A resolved dependency that a query finds is on the rank and the channel. -/
theorem resolved_of_first (h : r.first i (resolvedQuery task channel) = some x) :
    x.2.toTask = task ∧ x.2.type = .soft ∧ x.2.channel = channel := by
  have hasks : asks (resolvedQuery task channel) x = true := List.find?_some h
  unfold asks at hasks
  obtain ⟨hto, htype, -⟩ := selects_iff.mp (selects_of_asksFor hasks)
  have hsame : (resolvedQuery task channel).sameChannel x.2 = true := by
    unfold Query.asksFor at hasks
    exact (Bool.and_eq_true_iff.mp hasks).2
  have hchannel : decide (channel = x.2.channel) = true := hsame
  exact ⟨hto, htype, (of_decide_eq_true hchannel).symm⟩

/-- A receive that finds the dependency of an eager SEND uses it up. -/
theorem freshOn_use {e : Edit n} (he : e = .remove i (resolvedQuery task channel) ∨
      e = .resolve i (resolvedQuery task channel))
    (hfirst : r.first i (resolvedQuery task channel) = some x) (hfresh : x.1 = .fresh)
    (c : Channel n) : freshOn (e.record r) c + one (some ⟨i, task, channel⟩) c ≤ freshOn r c := by
  by_cases hc : c = ⟨i, task, channel⟩
  · obtain ⟨hto, -, hchannel⟩ := resolved_of_first hfirst
    have hx : isFreshOn c x = true := by
      rw [hc]
      simp [isFreshOn, hfresh, hto, hchannel]
    have hlt : freshOn (e.record r) c < freshOn r c := by
      rcases he with rfl | rfl
      · rw [hc] at hx ⊢
        simp only [freshOn, Edit.record]
        rw [Function.update_self]
        exact countP_eraseP_lt hfirst hx
      · rw [hc] at hx ⊢
        simp only [freshOn, Edit.record]
        rw [Function.update_self]
        exact countP_changeRecord_lt hfirst hx
    have hone : one (some ⟨i, task, channel⟩) c = 1 := if_pos (by rw [hc])
    omega
  · have hone : one (some ⟨i, task, channel⟩) c = 0 :=
      if_neg fun heq => hc (Option.some.inj heq).symm
    rw [hone, Nat.add_zero]
    rcases he with rfl | rfl
    · exact freshOn_remove_le r i _ c
    · exact freshOn_resolve_le r i _ c

/-- An eager SEND lets one receive pass, or is one that no receive has found. -/
theorem freshOn_sendEffect (r : Records n) (g : GraphMap n) (task dest : Fin n)
    (channel : Int × Nat) (c : Channel n) :
    freshOn ((sendEffect g task dest channel).edits.foldl Edit.record r) c +
        one (sendEffect g task dest channel).passes c ≤
      freshOn r c + one (some ⟨task, dest, channel⟩) c := by
  unfold sendEffect
  simp only
  generalize (getDependency g dest _).map Dependency.action = strong
  generalize getDependencies g dest _ = deps
  have hadd : ∀ d, freshOn ((Edit.add task .receive d).record r) c + one none c ≤
      freshOn r c + one (some ⟨task, dest, channel⟩) c := by
    intro d
    rw [freshOn_add_receive]
    exact Nat.add_le_add_left (Nat.zero_le _) _
  have hsend := le_of_eq (freshOn_add_fresh r task dest channel c)
  have hremove : ∀ q, freshOn ((Edit.remove dest q).record r) c +
      one (some ⟨task, dest, channel⟩) c ≤ freshOn r c + one (some ⟨task, dest, channel⟩) c :=
    fun q => Nat.add_le_add_right (freshOn_remove_le r dest q c) _
  have hresolve : ∀ q, freshOn ((Edit.resolve dest q).record r) c +
      one (some ⟨task, dest, channel⟩) c ≤ freshOn r c + one (some ⟨task, dest, channel⟩) c :=
    fun q => Nat.add_le_add_right (freshOn_resolve_le r dest q c) _
  have hboth : ∀ q q', freshOn ((Edit.remove dest q').record ((Edit.remove dest q).record r)) c +
      one (some ⟨task, dest, channel⟩) c ≤ freshOn r c + one (some ⟨task, dest, channel⟩) c := by
    intro q q'
    apply Nat.add_le_add_right
    exact le_trans (freshOn_remove_le _ dest q' c) (freshOn_remove_le r dest q c)
  cases deps with
  | nil =>
      cases strong with
      | none => exact hsend
      | some a =>
          cases a with
          | recv => exact hremove _
          | wait => exact hadd _
          | send => exact hsend
          | globalOp => exact hsend
          | irecv => exact hsend
          | resolved => exact hsend
  | cons d ds =>
      cases strong with
      | none => exact hresolve _
      | some a =>
          cases a with
          | recv => exact hremove _
          | wait => exact hboth _ _
          | send => exact hresolve _
          | globalOp => exact hresolve _
          | irecv => exact hresolve _
          | resolved => exact hresolve _

/-- A RECV or an IRECV finds no arc of its peer, and no dependency of an eager SEND that a RECV has
found or of an IRECV of its peer. A WAIT finds the dependency of an IRECV of its own rank, or none.
-/
def FindsFresh (s : EagerState n) (e : Event n) : Prop :=
  match e.op with
  | .recv ori channel | .irecv ori channel =>
      getDependency s.records.graph ori (sendQuery e.task channel) = none ∧
        ∀ x ∈ s.records.first ori (resolvedQuery e.task channel), x.1 = .fresh
  | .wait ori channel =>
      (∀ x ∈ s.records.first e.task (resolvedQuery ori channel), x.1 = .receive) ∧
        (getDependency s.records.graph e.task (resolvedQuery ori channel) = none →
          getDependency s.records.graph ori (resolvedQuery e.task channel) = none)
  | _ => True

instance (s : EagerState n) (e : Event n) : Decidable (FindsFresh s e) :=
  match e with
  | ⟨_, .recv _ _, _⟩ => inferInstanceAs (Decidable (_ ∧ _))
  | ⟨_, .irecv _ _, _⟩ => inferInstanceAs (Decidable (_ ∧ _))
  | ⟨_, .wait _ _, _⟩ => inferInstanceAs (Decidable (_ ∧ (_ → _)))
  | ⟨_, .send _ _ _, _⟩ => inferInstanceAs (Decidable True)
  | ⟨_, .globalOp _ _, _⟩ => inferInstanceAs (Decidable True)

/-- The analysis has not come to its end at the event, the rank has no strong dependency, and what
it finds is new. -/
structure Regular (endAnalysis : ℚ) (s : EagerState n) (e : Event n) : Prop where
  progression : e.progression < endAnalysis
  coordinated : strongDependencies s.records.graph e.task = []
  findsFresh : FindsFresh s e

instance (endAnalysis : ℚ) (s : EagerState n) (e : Event n) :
    Decidable (Regular endAnalysis s e) :=
  decidable_of_iff (e.progression < endAnalysis ∧
      strongDependencies s.records.graph e.task = [] ∧ FindsFresh s e)
    ⟨fun h => ⟨h.1, h.2.1, h.2.2⟩, fun h => ⟨h.1, h.2, h.3⟩⟩

theorem freshOn_recvEffect {ori : Fin n}
    (hfind : ∀ x ∈ r.first ori (resolvedQuery task channel), x.1 = .fresh) (c : Channel n) :
    freshOn ((recvEffect r.graph task ori channel).edits.foldl Edit.record r) c +
      one (recvEffect r.graph task ori channel).passes c ≤ freshOn r c := by
  unfold recvEffect
  split
  · exact freshOn_remove_le r ori _ c
  · split
    · next hsoft =>
        obtain ⟨x, hx⟩ := first_of_getDependency hsoft
        exact freshOn_use (.inr rfl) hx (hfind x hx) c
    · exact le_of_eq (freshOn_add_receive r task _ c)

theorem freshOn_irecvEffect {ori : Fin n}
    (hfind : ∀ x ∈ r.first ori (resolvedQuery task channel), x.1 = .fresh) (c : Channel n) :
    freshOn ((irecvEffect r.graph task ori channel).edits.foldl Edit.record r) c +
      one (irecvEffect r.graph task ori channel).passes c ≤ freshOn r c := by
  unfold irecvEffect
  simp only
  split
  · simp only [List.foldl_cons, List.foldl_nil]
    rw [freshOn_add_receive]
    exact freshOn_remove_le r ori _ c
  · split
    · next hsoft =>
        obtain ⟨x, hx⟩ := first_of_getDependency hsoft
        simp only [List.foldl_cons, List.foldl_nil]
        rw [freshOn_add_receive]
        exact freshOn_use (.inl rfl) hx (hfind x hx) c
    · exact le_of_eq (freshOn_add_receive r task _ c)

theorem freshOn_waitEffect {ori : Fin n} (c : Channel n) :
    freshOn ((waitEffect r.graph task ori channel).edits.foldl Edit.record r) c +
      one (waitEffect r.graph task ori channel).passes c ≤ freshOn r c := by
  unfold waitEffect
  split
  · exact freshOn_remove_le r task _ c
  · split
    · exact freshOn_remove_le r ori _ c
    · exact le_of_eq (freshOn_add_receive r task _ c)

end

section

variable {s s' : EagerState n} {e : Event n} {endAnalysis : ℚ}

/-- The receives that were let pass and the eager SENDs that none has found are not more than the
eager SENDs that were issued. -/
def Balanced (s : EagerState n) : Prop :=
  ∀ c, s.passes c + freshOn s.records c ≤ s.sends c

theorem freshOn_effect (heager : isEager e.op) (hfind : FindsFresh s e) (c : Channel n) :
    freshOn ((effect s.records.graph e.task e.op).edits.foldl Edit.record s.records) c +
        one (effect s.records.graph e.task e.op).passes c ≤
      freshOn s.records c + one (sendOn e.task e.op) c := by
  obtain ⟨task, op, progression⟩ := e
  cases op with
  | send dest channel rendezVous =>
      exact freshOn_sendEffect s.records s.records.graph task dest channel c
  | recv ori channel => exact freshOn_recvEffect hfind.2 c
  | irecv ori channel => exact freshOn_irecvEffect hfind.2 c
  | wait ori channel => exact freshOn_waitEffect c
  | globalOp glopId commId => cases heager

/-- The analysis is on, its log is open, and it does not fail. -/
structure Analyzed (s : EagerState n) : Prop where
  on : s.withDeadlockAnalysis = true
  logOpen : s.logOpen = true
  graph : DeadlockInv s.records.graph

theorem newCommunicEvent_of_regular (h : Analyzed s) (hreg : Regular endAnalysis s e) :
    newCommunicEvent (fun _ => []) endAnalysis s.analyzer e =
      (newState (fun _ => []) s.records.graph e.task e.op).map fun r =>
        ({ s.analyzer with graph := r.1 }, r.2) :=
  newCommunicEvent_of_coordinated _ h.logOpen hreg.progression hreg.coordinated

theorem eagerNext_cases (h : Analyzed s) (hreg : Regular endAnalysis s e)
    (hstep : eagerNext endAnalysis s e = some s') :
    isEager e.op = true ∧ ∃ g res, newState (fun _ => []) s.records.graph e.task e.op =
      some (g, res) ∧ s' = if res then .init else
        { records := (effect s.records.graph e.task e.op).edits.foldl Edit.record s.records
          sends := count s.sends (sendOn e.task e.op)
          passes := count s.passes (effect s.records.graph e.task e.op).passes
          logOpen := true
          withDeadlockAnalysis := true } := by
  have hlooks : stepEffect endAnalysis s e = effect s.records.graph e.task e.op :=
    if_pos ⟨h.on, hreg.progression⟩
  have hcall : communicEvent (fun _ => []) endAnalysis s.analyzer e =
      newCommunicEvent (fun _ => []) endAnalysis s.analyzer e := if_pos h.on
  simp only [eagerNext, hcall, newCommunicEvent_of_regular h hreg, hlooks,
    Option.bind_eq_bind] at hstep
  split at hstep
  · next heager =>
      obtain ⟨r, hr, hstep⟩ := Option.bind_eq_some_iff.mp hstep
      obtain ⟨⟨g, res⟩, hstate, rfl⟩ := Option.map_eq_some_iff.mp hr
      refine ⟨heager, g, res, hstate, ?_⟩
      cases res with
      | true =>
          obtain ⟨a, ha, hinit⟩ := Option.bind_eq_some_iff.mp hstep
          obtain rfl := Option.some.inj (ha.symm.trans (Analyzer.reset_of_logOpen h.logOpen))
          rw [← Option.some.inj hinit]
          simp [EagerState.init, EagerState.analyzer, h.on, h.logOpen]
      | false =>
          rw [← Option.some.inj hstep]
          simp [EagerState.analyzer, h.on, h.logOpen]
  · cases hstep

theorem balanced_init : Balanced (.init : EagerState n) := fun _ => le_refl 0

theorem balanced_step (h : Balanced s) (hinv : Analyzed s) (hreg : Regular endAnalysis s e)
    (hstep : ofPartial (eagerNext endAnalysis) s e s') : Balanced s' := by
  obtain ⟨heager, g, res, -, rfl⟩ := eagerNext_cases hinv hreg hstep
  cases res with
  | true => exact balanced_init
  | false =>
      intro c
      have hpre := h c
      have hnew := freshOn_effect heager hreg.findsFresh c
      simp only [Bool.false_eq_true, if_false, count]
      omega

theorem analyzed_init : Analyzed (.init : EagerState n) := ⟨rfl, rfl, deadlockInv_empty⟩

theorem analyzed_step (h : Analyzed s) (hreg : Regular endAnalysis s e)
    (hstep : ofPartial (eagerNext endAnalysis) s e s') : Analyzed s' := by
  obtain ⟨heager, g, res, hstate, rfl⟩ := eagerNext_cases h hreg hstep
  cases res with
  | true => exact analyzed_init
  | false =>
      obtain ⟨o, hupdate⟩ := update_of_newState hstate
      refine ⟨rfl, rfl, ?_⟩
      simp only [Bool.false_eq_true, if_false, graph_foldl_record, update_effect heager hupdate]
      exact deadlockInv_newState h.graph hstate

/-- One eager message satisfies one receive at a step: not more receives pass than eager SENDs were
issued, a WAIT only removes the dependency of an IRECV of its own rank on its channel, and a RECV
for which there is no message left goes into the graph. -/
structure OneEach (endAnalysis : ℚ) (t : Transition (EagerState n) (Event n)) : Prop where
  passes : ∀ c, t.post.passes c ≤ t.post.sends c
  waits : ∀ ori channel, t.label.op = .wait ori channel →
    ∀ i q, Edit.remove i q ∈ (stepEffect endAnalysis t.pre t.label).edits →
      ∃ x, t.pre.records.first i q = some x ∧ i = t.label.task ∧ x.1 = .receive ∧
        x.2.toTask = ori ∧ x.2.channel = channel
  second : ∀ ori channel, t.label.op = .recv ori channel →
    t.pre.passes ⟨ori, t.label.task, channel⟩ = t.pre.sends ⟨ori, t.label.task, channel⟩ →
      ∃ a res, newCommunicEvent (fun _ => []) endAnalysis t.pre.analyzer t.label = some (a, res) ∧
        ∃ d ∈ a.graph t.label.task, d.type = .strg ∧ d.toTask = ori ∧ d.channel = channel

theorem waits_of_findsFresh {task ori i : Fin n} {channel : Int × Nat} {q : Query n} {prog : ℚ}
    (hfind : FindsFresh s ⟨task, .wait ori channel, prog⟩)
    (hedit : Edit.remove i q ∈ (waitEffect s.records.graph task ori channel).edits) :
    ∃ x, s.records.first i q = some x ∧ i = task ∧ x.1 = .receive ∧ x.2.toTask = ori ∧
      x.2.channel = channel := by
  unfold waitEffect at hedit
  split at hedit
  · next hown =>
      obtain ⟨rfl, rfl⟩ := Edit.remove.inj (List.mem_singleton.mp hedit)
      obtain ⟨x, hx⟩ := first_of_getDependency hown
      obtain ⟨hto, -, hchannel⟩ := resolved_of_first hx
      exact ⟨x, hx, rfl, hfind.1 x hx, hto, hchannel⟩
  · next hown =>
      have hpartner := hfind.2 (Option.not_isSome_iff_eq_none.mp hown)
      rw [hpartner] at hedit
      cases List.mem_singleton.mp hedit

theorem second_of_regular {task ori : Fin n} {channel : Int × Nat} {prog : ℚ}
    (hbal : Balanced s) (hinv : Analyzed s)
    (hreg : Regular endAnalysis s ⟨task, .recv ori channel, prog⟩)
    (hall : s.passes ⟨ori, task, channel⟩ = s.sends ⟨ori, task, channel⟩) :
    ∃ a res, newCommunicEvent (fun _ => []) endAnalysis s.analyzer
        ⟨task, .recv ori channel, prog⟩ = some (a, res) ∧
      ∃ d ∈ a.graph task, d.type = .strg ∧ d.toTask = ori ∧ d.channel = channel := by
  obtain ⟨hstrong, hfind⟩ := hreg.findsFresh
  have hsoft : getDependency s.records.graph ori (resolvedQuery task channel) = none := by
    by_contra hne
    obtain ⟨x, hx⟩ := first_of_getDependency (Option.isSome_iff_ne_none.mpr hne)
    have huse := freshOn_use (.inr rfl) hx (hfind x hx) ⟨ori, task, channel⟩
    have hone : one (some ⟨ori, task, channel⟩) (⟨ori, task, channel⟩ : Channel n) = 1 := if_pos rfl
    have hpre := hbal ⟨ori, task, channel⟩
    omega
  obtain ⟨g, o, res, hupdate, -, hstate, -⟩ :=
    newState_spec (fun _ => []) hinv.graph.soft hinv.graph.acyclic task (.recv ori channel)
  refine ⟨{ s.analyzer with graph := g }, res, ?_,
    messageDependency ori .strg .recv channel, ?_, rfl, rfl, rfl⟩
  · rw [newCommunicEvent_of_regular hinv hreg, hstate]
    rfl
  · show _ ∈ g task
    rw [← update_effect rfl hupdate, effect, recvEffect, hstrong, hsoft]
    exact mem_addDependency.mpr (.inl ⟨rfl, rfl⟩)

/-- One eager message satisfies one receive in every run of regular events. -/
theorem eager_message_once {tr : List (Transition (EagerState n) (Event n))}
    (hrun : Run (ofPartial (eagerNext endAnalysis)) .init tr s)
    (hregular : ∀ t ∈ tr, Regular endAnalysis t.pre t.label) : ∀ t ∈ tr, OneEach endAnalysis t := by
  have hinv := hrun.transition_of_guard
    (I := fun s => Balanced s ∧ Analyzed s) ⟨balanced_init, analyzed_init⟩
    (fun _ _ _ h hreg hstep =>
      ⟨balanced_step h.1 h.2 hreg hstep, analyzed_step h.2 hreg hstep⟩) hregular
  intro t ht
  obtain ⟨hpre, hpost, -⟩ := hinv t ht
  have hreg := hregular t ht
  obtain ⟨s, ⟨task, op, prog⟩, s'⟩ := t
  constructor
  · intro c
    exact le_trans (Nat.le_add_right _ _) (hpost.1 c)
  · intro ori channel hop i q hedit
    obtain rfl : op = .wait ori channel := hop
    rw [stepEffect, if_pos ⟨hpre.2.on, hreg.progression⟩] at hedit
    exact waits_of_findsFresh hreg.findsFresh hedit
  · intro ori channel hop hall
    obtain rfl : op = .recv ori channel := hop
    exact second_of_regular hpre.1 hpre.2 hreg hall

/-- Two messages, one for a RECV and one for an IRECV with its WAIT, and a RECV for which there is
none. -/
def messages (i j : Fin 2) : List (Event 2) :=
  [⟨i, .send j (5, 1) false, 1 / 4⟩, ⟨j, .recv i (5, 1), 1 / 4⟩, ⟨j, .irecv i (6, 1), 1 / 3⟩,
    ⟨i, .send j (6, 1) false, 1 / 3⟩, ⟨j, .wait i (6, 1), 1 / 2⟩, ⟨j, .recv i (7, 1), 3 / 4⟩]

theorem eager_message_once_messages :
    let run := (exec (eagerNext 1) .init (messages 0 1)).get (by decide +kernel)
    run.1.length = 6 ∧ ∀ t ∈ run.1, OneEach 1 t := by
  refine ⟨by decide +kernel, ?_⟩
  apply eager_message_once (run_exec_get (by decide +kernel))
  decide +kernel

/-- A second RECV finds the message that the first one has found. -/
theorem not_eager_message_once :
    ¬ ∀ (n : Nat) (endAnalysis : ℚ) (tr : List (Transition (EagerState n) (Event n)))
      (s : EagerState n), Run (ofPartial (eagerNext endAnalysis)) .init tr s →
        ∀ t ∈ tr, OneEach endAnalysis t := by
  intro h
  let send : Event 2 := ⟨0, .send 1 (5, 1) false, 1 / 2⟩
  let recv : Event 2 := ⟨1, .recv 0 (5, 1), 1 / 2⟩
  let sent := (eagerNext 1 .init send).get (by decide +kernel)
  have hsend : ofPartial (eagerNext 1) .init send sent := (Option.some_get _).symm
  let once := (eagerNext 1 sent recv).get (by decide +kernel)
  have honce : ofPartial (eagerNext 1) sent recv once := (Option.some_get _).symm
  let twice := (eagerNext 1 once recv).get (by decide +kernel)
  have htwice : ofPartial (eagerNext 1) once recv twice := (Option.some_get _).symm
  have hrun := ((Run.nil.snoc hsend).snoc honce).snoc htwice
  have hpasses := (h 2 1 _ _ hrun ⟨once, recv, twice⟩ (by simp)).passes ⟨0, 1, (5, 1)⟩
  have hexceeds : ¬ twice.passes ⟨0, 1, (5, 1)⟩ ≤ twice.sends ⟨0, 1, (5, 1)⟩ := by decide +kernel
  exact hexceeds hpasses

end

end Dimemas.Utils.EagerMessages
