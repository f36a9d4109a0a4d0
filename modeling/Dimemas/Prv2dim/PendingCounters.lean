import Mathlib.Algebra.Order.BigOperators.Group.Finset
import Mathlib.Data.Fintype.Basic
import Mathlib.Data.List.Count
import Mathlib.Data.List.Induction
import Mathlib.Logic.Function.Basic
/-!
# The counters of pending operations

Each communication counts the operations that are pending, or takes one from the counter of its
partner. This counter is shared by all peers of the partner.
-/

namespace Dimemas.Prv2dim.PendingCounters

/-- The MPI blocks around a communication. It is not translated in the other ones. -/
inductive Block
  | recv | mrecv
  | rsend | send | ssend | probe | mprobe
  | bsend | isend | issend | irsend | iprobe
  | irecv | imrecv
  | wait | waitany | waitall | waitsome | test | testany | testall
  | sendrecv | sendrecvReplace
  | start | startall
  | other
deriving DecidableEq

inductive CommType
  | logicalSend | physicalSend | logicalRecv | physicalRecv
deriving DecidableEq

/-- A communication of the first thread of a task. -/
structure Communication (τ : Type*) where
  block : Block
  type : CommType
  task : τ
  partner : τ
deriving DecidableEq

inductive Operation (τ : Type*)
  | send (task partner : τ)
  | recv (task partner : τ)
deriving DecidableEq

def Block.sends : Block → Bool
  | .rsend | .send | .ssend | .probe | .mprobe => true
  | .bsend | .isend | .issend | .irsend | .iprobe => true
  | .sendrecv | .sendrecvReplace | .start | .startall => true
  | _ => false

def Block.receives : Block → Bool
  | .recv | .mrecv => true
  | .irecv | .imrecv => true
  | .sendrecv | .sendrecvReplace | .start | .startall => true
  | _ => false

variable {τ : Type*}

def Communication.operation (c : Communication τ) : Option (Operation τ) :=
  match c.type with
  | .logicalSend => if c.block.sends then some (.send c.task c.partner) else none
  | .logicalRecv => if c.block.receives then some (.recv c.task c.partner) else none
  | _ => none

/-- `pendent_i_Send_counter` and `pendent_i_Recv_counter` of the first threads of the tasks. -/
structure Counters (τ : Type*) where
  pendentISend : τ → Nat
  pendentIRecv : τ → Nat

def Counters.initial : Counters τ := ⟨fun _ => 0, fun _ => 0⟩

variable [DecidableEq τ]

/-- An `unsigned int` is incremented. -/
def increment (counter : τ → Nat) (task : τ) : τ → Nat :=
  Function.update counter task ((counter task + 1) % 4294967296)

def decrement (counter : τ → Nat) (task : τ) : τ → Nat :=
  Function.update counter task (counter task - 1)

def Counters.count (p : Counters τ) : Operation τ → Counters τ
  | .send task partner =>
      if p.pendentIRecv partner = 0 then { p with pendentISend := increment p.pendentISend task }
      else { p with pendentIRecv := decrement p.pendentIRecv partner }
  | .recv task partner =>
      if p.pendentISend partner = 0 then { p with pendentIRecv := increment p.pendentIRecv task }
      else { p with pendentISend := decrement p.pendentISend partner }

def Counters.toDimemas (p : Counters τ) (c : Communication τ) : Counters τ :=
  match c.operation with
  | some op => p.count op
  | none => p

def translate (cs : List (Communication τ)) : Counters τ := cs.foldl Counters.toDimemas .initial

def operations (cs : List (Communication τ)) : List (Operation τ) :=
  cs.filterMap Communication.operation

/-! ## Operations without a match -/

def unmatchedSends (ops : List (Operation τ)) (source destination : τ) : Nat :=
  ops.count (.send source destination) - ops.count (.recv destination source)

def unmatchedRecvs (ops : List (Operation τ)) (source destination : τ) : Nat :=
  ops.count (.recv destination source) - ops.count (.send source destination)

variable [Fintype τ]

def pendingSends (ops : List (Operation τ)) (task : τ) : Nat :=
  ∑ destination, unmatchedSends ops task destination

def pendingRecvs (ops : List (Operation τ)) (task : τ) : Nat :=
  ∑ source, unmatchedRecvs ops source task

/-- The counters count the operations without a match. -/
structure Counts (ops : List (Operation τ)) (p : Counters τ) : Prop where
  sends : ∀ task, p.pendentISend task = pendingSends ops task
  recvs : ∀ task, p.pendentIRecv task = pendingRecvs ops task

/-- An operation has a match among the operations before it, or no operation of its partner is
pending that it could be taken for. -/
def Orderly (before : List (Operation τ)) : Operation τ → Prop
  | .send task partner =>
      0 < unmatchedRecvs before task partner ∨
        pendingRecvs before partner = 0 ∧ pendingSends before task + 1 < 4294967296
  | .recv task partner =>
      0 < unmatchedSends before partner task ∨
        pendingSends before partner = 0 ∧ pendingRecvs before task + 1 < 4294967296

section

variable {ops : List (Operation τ)} {p : Counters τ}

/-! ## Sends and receives exchanged -/

def Operation.swap : Operation τ → Operation τ
  | .send task partner => .recv task partner
  | .recv task partner => .send task partner

def Counters.swap (p : Counters τ) : Counters τ := ⟨p.pendentIRecv, p.pendentISend⟩

omit [DecidableEq τ] [Fintype τ] in
theorem swap_injective : Function.Injective (@Operation.swap τ) := by
  rintro (⟨a, b⟩ | ⟨a, b⟩) (⟨c, d⟩ | ⟨c, d⟩) h <;> cases h <;> rfl

omit [Fintype τ] in
theorem count_swap (op : Operation τ) : (ops.map .swap).count op = ops.count op.swap := by
  have hswap : op.swap.swap = op := by cases op <;> rfl
  conv_lhs => rw [← hswap]
  exact List.count_map_of_injective ops _ swap_injective op.swap

theorem pendingSends_swap (task : τ) : pendingSends (ops.map .swap) task = pendingRecvs ops task := by
  unfold pendingSends pendingRecvs unmatchedSends unmatchedRecvs
  simp only [count_swap, Operation.swap]

theorem pendingRecvs_swap (task : τ) : pendingRecvs (ops.map .swap) task = pendingSends ops task := by
  unfold pendingSends pendingRecvs unmatchedSends unmatchedRecvs
  simp only [count_swap, Operation.swap]

theorem counts_swap : Counts (ops.map .swap) p.swap ↔ Counts ops p := by
  constructor
  · intro h
    constructor
    · intro task
      rw [← pendingRecvs_swap]
      exact h.recvs task
    · intro task
      rw [← pendingSends_swap]
      exact h.sends task
  · intro h
    constructor
    · intro task
      rw [pendingSends_swap]
      exact h.recvs task
    · intro task
      rw [pendingRecvs_swap]
      exact h.sends task

omit [Fintype τ] in
theorem count_swap_operation (op : Operation τ) : p.swap.count op.swap = (p.count op).swap := by
  cases op with
  | send task partner =>
      by_cases h : p.pendentIRecv partner = 0 <;>
        simp [Counters.count, Operation.swap, Counters.swap, h]
  | recv task partner =>
      by_cases h : p.pendentISend partner = 0 <;>
        simp [Counters.count, Operation.swap, Counters.swap, h]

theorem orderly_swap (op : Operation τ) : Orderly (ops.map .swap) op.swap ↔ Orderly ops op := by
  cases op <;> simp only [Orderly, Operation.swap, pendingSends_swap, pendingRecvs_swap,
    unmatchedSends, unmatchedRecvs, count_swap]

/-! ## One operation -/

theorem sum_of_eq_of_ne {f g : τ → Nat} {x : τ} (h : ∀ y, y ≠ x → g y = f y) :
    ∑ y, g y + f x = ∑ y, f y + g x := by
  have hg := Finset.add_sum_erase Finset.univ g (Finset.mem_univ x)
  have hf := Finset.add_sum_erase Finset.univ f (Finset.mem_univ x)
  have hrest : ∑ y ∈ Finset.univ.erase x, g y = ∑ y ∈ Finset.univ.erase x, f y :=
    Finset.sum_congr rfl fun y hy => h y (Finset.ne_of_mem_erase hy)
  omega

section

variable {task partner other : τ}

theorem pending_matched (h : 0 < unmatchedRecvs ops task partner) :
    (∀ other, pendingSends (ops ++ [.send task partner]) other = pendingSends ops other) ∧
      pendingRecvs (ops ++ [.send task partner]) partner + 1 = pendingRecvs ops partner ∧
      ∀ other, other ≠ partner →
        pendingRecvs (ops ++ [.send task partner]) other = pendingRecvs ops other := by
  have hlt : ops.count (.send task partner) < ops.count (.recv partner task) := by
    unfold unmatchedRecvs at h
    omega
  have hsends : ∀ a b, unmatchedSends (ops ++ [.send task partner]) a b = unmatchedSends ops a b := by
    intro a b
    simp only [unmatchedSends, List.count_append]
    by_cases hpair : a = task ∧ b = partner
    · obtain ⟨rfl, rfl⟩ := hpair
      simp
      omega
    · have hne : ¬ (Operation.send task partner = .send a b) := by
        rintro ⟨⟩
        exact hpair ⟨rfl, rfl⟩
      simp [hne]
  have hrecvs : ∀ a b, ¬ (a = task ∧ b = partner) →
      unmatchedRecvs (ops ++ [.send task partner]) a b = unmatchedRecvs ops a b := by
    intro a b hpair
    have hne : ¬ (Operation.send task partner = .send a b) := by
      rintro ⟨⟩
      exact hpair ⟨rfl, rfl⟩
    simp [unmatchedRecvs, List.count_append, hne]
  refine ⟨?_, ?_, ?_⟩
  · intro other
    exact Finset.sum_congr rfl fun b _ => hsends other b
  · have hsum := @sum_of_eq_of_ne τ _ _ (fun a => unmatchedRecvs ops a partner)
      (fun a => unmatchedRecvs (ops ++ [.send task partner]) a partner) task
      fun a hne => hrecvs a partner fun hpair => hne hpair.1
    have hone : unmatchedRecvs (ops ++ [.send task partner]) task partner + 1 =
        unmatchedRecvs ops task partner := by
      simp [unmatchedRecvs, List.count_append]
      omega
    unfold pendingRecvs
    omega
  · intro other hne
    exact Finset.sum_congr rfl fun a _ => hrecvs a other fun hpair => hne hpair.2

theorem pending_unmatched (h : unmatchedRecvs ops task partner = 0) :
    (∀ other, pendingRecvs (ops ++ [.send task partner]) other = pendingRecvs ops other) ∧
      pendingSends (ops ++ [.send task partner]) task = pendingSends ops task + 1 ∧
      ∀ other, other ≠ task →
        pendingSends (ops ++ [.send task partner]) other = pendingSends ops other := by
  have hle : ops.count (.recv partner task) ≤ ops.count (.send task partner) := by
    unfold unmatchedRecvs at h
    omega
  have hrecvs : ∀ a b, unmatchedRecvs (ops ++ [.send task partner]) a b = unmatchedRecvs ops a b := by
    intro a b
    simp only [unmatchedRecvs, List.count_append]
    by_cases hpair : a = task ∧ b = partner
    · obtain ⟨rfl, rfl⟩ := hpair
      simp
      omega
    · have hne : ¬ (Operation.send task partner = .send a b) := by
        rintro ⟨⟩
        exact hpair ⟨rfl, rfl⟩
      simp [hne]
  have hsends : ∀ a b, ¬ (a = task ∧ b = partner) →
      unmatchedSends (ops ++ [.send task partner]) a b = unmatchedSends ops a b := by
    intro a b hpair
    have hne : ¬ (Operation.send task partner = .send a b) := by
      rintro ⟨⟩
      exact hpair ⟨rfl, rfl⟩
    simp [unmatchedSends, List.count_append, hne]
  refine ⟨?_, ?_, ?_⟩
  · intro other
    exact Finset.sum_congr rfl fun a _ => hrecvs a other
  · have hsum := @sum_of_eq_of_ne τ _ _ (unmatchedSends ops task)
      (unmatchedSends (ops ++ [.send task partner]) task) partner
      fun b hne => hsends task b fun hpair => hne hpair.2
    have hone : unmatchedSends (ops ++ [.send task partner]) task partner =
        unmatchedSends ops task partner + 1 := by
      simp [unmatchedSends, List.count_append]
      omega
    unfold pendingSends
    omega
  · intro other hne
    exact Finset.sum_congr rfl fun b _ => hsends other b fun hpair => hne hpair.1

theorem counts_send (h : Counts ops p) :
    Counts (ops ++ [.send task partner]) (p.count (.send task partner)) ↔
      Orderly ops (.send task partner) := by
  have hrecvs := h.recvs partner
  simp only [Orderly]
  by_cases hmatched : 0 < unmatchedRecvs ops task partner
  · obtain ⟨hsends, hpartner, hothers⟩ := pending_matched hmatched
    have hpos : p.pendentIRecv partner ≠ 0 := by omega
    refine iff_of_true ?_ (.inl hmatched)
    rw [Counters.count, if_neg hpos]
    constructor
    · intro other
      rw [hsends]
      exact h.sends other
    · intro other
      by_cases hne : other = partner
      · subst hne
        show decrement p.pendentIRecv other other = _
        rw [decrement, Function.update_self]
        omega
      · show decrement p.pendentIRecv partner other = _
        rw [decrement, Function.update_of_ne hne, hothers other hne]
        exact h.recvs other
  · obtain ⟨hsame, htask, hothers⟩ := pending_unmatched (Nat.eq_zero_of_not_pos hmatched)
    have hsends := h.sends task
    rw [or_iff_right hmatched]
    constructor
    · intro hnext
      by_cases hzero : p.pendentIRecv partner = 0
      · refine ⟨by omega, ?_⟩
        have hself := hnext.sends task
        rw [Counters.count, if_pos hzero] at hself
        have hself : increment p.pendentISend task task = _ := hself
        rw [increment, Function.update_self, htask] at hself
        omega
      · have hself := hnext.recvs partner
        rw [Counters.count, if_neg hzero, hsame] at hself
        have hself : decrement p.pendentIRecv partner partner = _ := hself
        rw [decrement, Function.update_self] at hself
        omega
    · rintro ⟨hnone, hlt⟩
      rw [Counters.count, if_pos (by omega)]
      constructor
      · intro other
        by_cases hne : other = task
        · subst hne
          show increment p.pendentISend other other = _
          rw [increment, Function.update_self, htask]
          omega
        · show increment p.pendentISend task other = _
          rw [increment, Function.update_of_ne hne, hothers other hne]
          exact h.sends other
      · intro other
        rw [hsame]
        exact h.recvs other

/-- The counters stay right at an operation exactly when it is an orderly one. -/
theorem counts_count (h : Counts ops p) (op : Operation τ) :
    Counts (ops ++ [op]) (p.count op) ↔ Orderly ops op := by
  cases op with
  | send task partner => exact counts_send h
  | recv task partner =>
      calc Counts (ops ++ [.recv task partner]) (p.count (.recv task partner))
        _ ↔ Counts ((ops ++ [Operation.recv task partner]).map Operation.swap)
            (p.count (.recv task partner)).swap := counts_swap.symm
        _ ↔ Counts (ops.map Operation.swap ++ [.send task partner])
            (p.swap.count (.send task partner)) := by
          rw [List.map_append, ← count_swap_operation]
          rfl
        _ ↔ Orderly (ops.map Operation.swap) (.send task partner) := counts_send (counts_swap.mpr h)
        _ ↔ Orderly ops (.recv task partner) := orderly_swap (.recv task partner)

end

/-! ## The whole translation -/

variable {cs : List (Communication τ)} {c : Communication τ}

omit [DecidableEq τ] [Fintype τ] in
theorem operations_concat (cs : List (Communication τ)) (c : Communication τ) :
    operations (cs ++ [c]) = operations cs ++ c.operation.toList := by
  unfold operations
  rw [List.filterMap_append, List.filterMap_cons]
  cases c.operation <;> rfl

/-- The counters stay right at a communication exactly when its operation is an orderly one. -/
theorem counts_toDimemas (h : Counts (operations cs) (translate cs)) :
    Counts (operations (cs ++ [c])) (translate (cs ++ [c])) ↔
      ∀ op ∈ c.operation, Orderly (operations cs) op := by
  have htranslate : translate (cs ++ [c]) = (translate cs).toDimemas c := by simp [translate]
  rw [htranslate, operations_concat, Counters.toDimemas]
  cases c.operation with
  | none => simpa using h
  | some op =>
      rw [Option.toList_some, counts_count h op]
      simp

theorem counts_nil : Counts (operations ([] : List (Communication τ))) (translate []) := by
  constructor <;> intro task <;>
    simp [translate, Counters.initial, operations, pendingSends, pendingRecvs, unmatchedSends,
      unmatchedRecvs]

/-- If all operations are orderly and all have a match, nothing is pending in the end. -/
theorem translate_of_matched (h : Counts (operations cs) (translate cs))
    (hmatched : ∀ source destination, (operations cs).count (.send source destination) =
      (operations cs).count (.recv destination source)) (task : τ) :
    (translate cs).pendentISend task = 0 ∧ (translate cs).pendentIRecv task = 0 := by
  rw [h.sends, h.recvs]
  simp [pendingSends, pendingRecvs, unmatchedSends, unmatchedRecvs, hmatched]

end

/-- All along the translation the counters are the numbers of operations without a match, exactly
when all operations are orderly. -/
theorem counts_iff_orderly (cs : List (Communication τ)) :
    (∀ before, before <+: cs → Counts (operations before) (translate before)) ↔
      ∀ before c, before ++ [c] <+: cs → ∀ op ∈ c.operation, Orderly (operations before) op := by
  constructor
  · intro h before c hprefix
    have hbefore := h before ((List.prefix_append before [c]).trans hprefix)
    exact (counts_toDimemas hbefore).mp (h (before ++ [c]) hprefix)
  · intro h before
    induction before using List.reverseRecOn with
    | nil => exact fun _ => counts_nil
    | append_singleton before c ih =>
        intro hprefix
        have hbefore := ih ((List.prefix_append before [c]).trans hprefix)
        exact (counts_toDimemas hbefore).mpr (h before c hprefix)

/-- Two tasks send to a third one, whose receives come in the other order. Every send has its
receive. -/
def crossed : List (Communication (Fin 3)) :=
  let task (n : Nat) (h : n < 3) : Fin 3 := ⟨n, h⟩
  let first := task 0 (by decide)
  let second := task 1 (by decide)
  let third := task 2 (by decide)
  [⟨.recv, .logicalRecv, first, second⟩, ⟨.send, .logicalSend, third, first⟩,
    ⟨.send, .logicalSend, second, first⟩, ⟨.recv, .logicalRecv, first, third⟩]

/-- One send and one receive are counted as pending. -/
theorem not_counts : ¬ ∀ cs : List (Communication (Fin 3)),
    Counts (operations cs) (translate cs) := by
  intro h
  have hsend := (translate_of_matched (h crossed) (by decide) ⟨1, by decide⟩).1
  revert hsend
  decide

end Dimemas.Prv2dim.PendingCounters
