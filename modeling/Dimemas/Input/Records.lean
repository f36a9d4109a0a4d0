import Dimemas.Input.Streams
import Mathlib.Data.List.Perm.Subperm
/-!
# The records that the threads read

Every thread reads its records through a shared stream as from a file of its own. An operation that
is ignored is skipped with the read of the next one, so two of them must not follow each other.
-/

namespace Dimemas.Input.Records

open Dimemas.Library.Lines
open Dimemas.Library.Simulation
open Dimemas.Input.Streams

variable {α : Type*}

/-- How the reader is related to the ideal one. A stream is at the position of its last thread, or
no record is left to this thread. -/
structure Related (trace : Trace α) (r : Reader) (s : Ideal α) : Prop where
  tidy : ∀ id ∈ trace.threads, trace.Tidy id (r.currentThreadsOffsets id)
  rest : ∀ id ∈ trace.threads,
    trace.recordsFrom id (r.currentThreadsOffsets id) = s.remaining id
  stream : ∀ id ∈ trace.threads, ∀ position,
    r.streams (trace.streamsIdxs id) = ⟨some position, some id⟩ →
    trace.Tidy id position ∧ trace.recordsFrom id position = s.remaining id ∧
      (position = r.currentThreadsOffsets id ∨ s.remaining id = [])
  fresh : ∀ id ∈ trace.threads, (r.streams (trace.streamsIdxs id)).fp = none →
    r.currentThreadsOffsets id = trace.threadsOffsets id
  counter : ∀ id ∈ trace.threads, ∃ skipped : List Nat, skipped.Nodup ∧
    skipped ⊆ trace.ignored id ∧ (∀ o ∈ skipped, o < r.currentThreadsOffsets id) ∧
    skipped.length = r.counterOpsAlreadyIgnored id
  last : ∀ id ∈ trace.threads, ∀ o, s.lastRead id = some o → r.lastCurrentThreadsOffsets id = o

section

variable {trace : Trace α} {r r' : Reader} {s s' : Ideal α} {id : ThreadId} {position : Nat}

theorem related_initial (h : trace.WellFormed) (lastOffsets : ThreadId → Nat) :
    Related trace (.initial trace lastOffsets) (.initial trace) where
  tidy id hid := (h.tidy hid).1
  rest id hid := (h.tidy hid).2
  stream id hid position hstream := by cases hstream
  fresh id hid _ := rfl
  counter id hid := ⟨[], List.nodup_nil, List.nil_subset _, by simp, rfl⟩
  last id hid o ho := by cases ho

theorem Related.at_position (h : Related trace r s) (hid : id ∈ trace.threads) :
    trace.Tidy id (r.position trace id) ∧
      trace.recordsFrom id (r.position trace id) = s.remaining id ∧
      (r.position trace id = r.currentThreadsOffsets id ∨ s.remaining id = []) := by
  unfold Reader.position
  cases hfp : (r.streams (trace.streamsIdxs id)).fp with
  | none =>
      simp only [hfp]
      rw [← h.fresh id hid hfp]
      exact ⟨h.tidy id hid, h.rest id hid, .inl rfl⟩
  | some p =>
      simp only [hfp]
      split
      · next hlast =>
          apply h.stream id hid
          rw [← hfp, ← hlast]
      · exact ⟨h.tidy id hid, h.rest id hid, .inl rfl⟩

theorem Related.of_update (h : Related trace r s) (hid : id ∈ trace.threads)
    (hstreams : r'.streams =
      Function.update r.streams (trace.streamsIdxs id) ⟨some position, some id⟩)
    (hcurrent : ∀ i, i ≠ id → r'.currentThreadsOffsets i = r.currentThreadsOffsets i)
    (hlastOther : ∀ i, i ≠ id → r'.lastCurrentThreadsOffsets i = r.lastCurrentThreadsOffsets i)
    (hcounterOther : ∀ i, i ≠ id →
      r'.counterOpsAlreadyIgnored i = r.counterOpsAlreadyIgnored i)
    (hremaining : ∀ i, i ≠ id → s'.remaining i = s.remaining i)
    (hlastRead : ∀ i, i ≠ id → s'.lastRead i = s.lastRead i)
    (htidy : trace.Tidy id (r'.currentThreadsOffsets id))
    (hrest : trace.recordsFrom id (r'.currentThreadsOffsets id) = s'.remaining id)
    (hstream : trace.Tidy id position ∧ trace.recordsFrom id position = s'.remaining id ∧
      (position = r'.currentThreadsOffsets id ∨ s'.remaining id = []))
    (hcounter : ∃ skipped : List Nat, skipped.Nodup ∧ skipped ⊆ trace.ignored id ∧
      (∀ o ∈ skipped, o < r'.currentThreadsOffsets id) ∧
      skipped.length = r'.counterOpsAlreadyIgnored id)
    (hlast : ∀ o, s'.lastRead id = some o → r'.lastCurrentThreadsOffsets id = o) :
    Related trace r' s' := by
  constructor
  · intro i hi
    by_cases hne : i = id
    · rwa [hne]
    · rw [hcurrent i hne]
      exact h.tidy i hi
  · intro i hi
    by_cases hne : i = id
    · rwa [hne]
    · rw [hcurrent i hne, hremaining i hne]
      exact h.rest i hi
  · intro i hi p hp
    rw [hstreams] at hp
    by_cases hidx : trace.streamsIdxs i = trace.streamsIdxs id
    · rw [hidx, Function.update_self] at hp
      obtain ⟨hpos, hids⟩ := Stream.mk.inj hp
      obtain rfl := Option.some.inj hpos
      obtain rfl := Option.some.inj hids
      exact hstream
    · rw [Function.update_of_ne hidx] at hp
      have hne : i ≠ id := fun heq => hidx (heq ▸ rfl)
      rw [hcurrent i hne, hremaining i hne]
      exact h.stream i hi p hp
  · intro i hi hfp
    by_cases hne : trace.streamsIdxs i = trace.streamsIdxs id
    · rw [hstreams, hne, Function.update_self] at hfp
      cases hfp
    · rw [hstreams, Function.update_of_ne hne] at hfp
      rw [hcurrent i fun heq => hne (heq ▸ rfl)]
      exact h.fresh i hi hfp
  · intro i hi
    by_cases hne : i = id
    · rwa [hne]
    · rw [hcurrent i hne, hcounterOther i hne]
      exact h.counter i hi
  · intro i hi o ho
    by_cases hne : i = id
    · subst hne
      exact hlast o ho
    · rw [hlastOther i hne]
      rw [hlastRead i hne] at ho
      exact h.last i hi o ho

theorem related_getStream (h : Related trace r s) (hid : id ∈ trace.threads) :
    Related trace (getStream trace r id) s := by
  apply h.of_update hid rfl
  · exact fun _ _ => rfl
  · exact fun _ _ => rfl
  · exact fun _ _ => rfl
  · exact fun _ _ => rfl
  · exact fun _ _ => rfl
  · exact h.tidy id hid
  · exact h.rest id hid
  · exact h.at_position hid
  · exact h.counter id hid
  · exact h.last id hid

/-- The counter allows an operation at the position of a thread to be ignored. -/
theorem Related.counter_lt (h : Related trace r s) (hid : id ∈ trace.threads)
    (hposition : r.currentThreadsOffsets id ∈ trace.ignored id) :
    r.counterOpsAlreadyIgnored id < (trace.ignored id).length := by
  obtain ⟨skipped, hnodup, hsub, hlt, hlength⟩ := h.counter id hid
  have hnew : (r.currentThreadsOffsets id :: skipped).Nodup := by
    apply List.nodup_cons.mpr
    refine ⟨fun hmem => ?_, hnodup⟩
    exact absurd (hlt _ hmem) (Nat.lt_irrefl _)
  have hle := (List.subperm_of_subset hnew (List.cons_subset.mpr ⟨hposition, hsub⟩)).length_le
  rw [List.length_cons, hlength] at hle
  exact hle

theorem related_advance (h : Related trace r s) (hid : id ∈ trace.threads)
    (ahead : ThreadId → List Nat) (delivered : ThreadId → Option Nat) (lastRead : Option Nat)
    {bytesRead counter : Nat} {rest : List (Nat × α)} (hbytes : 0 < bytesRead)
    (htidy : trace.Tidy id (r.currentThreadsOffsets id + bytesRead))
    (hrest : trace.recordsFrom id (r.currentThreadsOffsets id + bytesRead) = rest)
    (hcounter : counter = r.counterOpsAlreadyIgnored id ∨
      counter = r.counterOpsAlreadyIgnored id + 1 ∧ r.currentThreadsOffsets id ∈ trace.ignored id)
    (hlast : ∀ o, lastRead = some o → r.currentThreadsOffsets id = o) :
    Related trace
      (Reader.place trace { r.advance id bytesRead with
        counterOpsAlreadyIgnored := Function.update r.counterOpsAlreadyIgnored id counter } id
        (r.currentThreadsOffsets id + bytesRead))
      ⟨Function.update s.remaining id rest, ahead, delivered,
        Function.update s.lastRead id lastRead⟩ := by
  apply h.of_update hid rfl
  · exact fun i hi => Function.update_of_ne hi ..
  · exact fun i hi => Function.update_of_ne hi ..
  · exact fun i hi => Function.update_of_ne hi ..
  · exact fun i hi => Function.update_of_ne hi ..
  · exact fun i hi => Function.update_of_ne hi ..
  · simpa [Reader.place, Reader.advance] using htidy
  · simpa [Reader.place, Reader.advance] using hrest
  · simpa [Reader.place, Reader.advance] using ⟨htidy, hrest⟩
  · obtain ⟨skipped, hnodup, hsub, hlt, hlength⟩ := h.counter id hid
    simp only [Reader.place, Reader.advance, Function.update_self]
    rcases hcounter with rfl | ⟨rfl, hignored⟩
    · exact ⟨skipped, hnodup, hsub, fun o ho => Nat.lt_add_right _ (hlt o ho), hlength⟩
    · refine ⟨r.currentThreadsOffsets id :: skipped, ?_, List.cons_subset.mpr ⟨hignored, hsub⟩, ?_,
        by rw [List.length_cons, hlength]⟩
      · apply List.nodup_cons.mpr
        exact ⟨fun hmem => absurd (hlt _ hmem) (Nat.lt_irrefl _), hnodup⟩
      · intro o ho
        rcases List.mem_cons.mp ho with rfl | ho
        · omega
        · exact Nat.lt_add_right _ (hlt o ho)
  · intro o ho
    simp only [Reader.place, Reader.advance, Function.update_self] at ho ⊢
    exact hlast o ho

theorem related_place (h : Related trace r s) (hid : id ∈ trace.threads)
    {ahead : ThreadId → List Nat} {delivered : ThreadId → Option Nat} (hnil : s.remaining id = [])
    (htidy : trace.Tidy id position) (hrecords : trace.recordsFrom id position = []) :
    Related trace (r.place trace id position)
      ⟨Function.update s.remaining id [], ahead, delivered, Function.update s.lastRead id none⟩ := by
  apply h.of_update hid rfl
  · exact fun _ _ => rfl
  · exact fun _ _ => rfl
  · exact fun _ _ => rfl
  · exact fun i hi => Function.update_of_ne hi ..
  · exact fun i hi => Function.update_of_ne hi ..
  · exact h.tidy id hid
  · simp only [Function.update_self, ← hnil]
    exact h.rest id hid
  · simp [htidy, hrecords]
  · exact h.counter id hid
  · intro o ho
    simp only [Function.update_self] at ho
    cases ho

theorem place_place (r : Reader) (id : ThreadId) (p q : Nat) :
    (r.place trace id p).place trace id q = r.place trace id q := by
  simp [Reader.place]

theorem readRecord_place (r : Reader) (id : ThreadId) (p q : Nat) :
    readRecord trace (r.place trace id p) id q =
      ((readRecord trace r id q).1.place trace id p, (readRecord trace r id q).2) := by
  unfold readRecord
  simp only
  split
  · rfl
  · split
    · split
      · split <;> rfl
      · rfl
    · rfl
    · rfl

theorem related_readRecord (h : Related trace r s) (hid : id ∈ trace.threads)
    (htidy : trace.Tidy id position)
    (hrecords : trace.recordsFrom id position = s.remaining id)
    (hposition : position = r.currentThreadsOffsets id ∨ s.remaining id = [])
    (hkept : ∀ x rest, s.remaining id = x :: rest → x.1 ∉ trace.ignored id) :
    Related trace ((readRecord trace r id position).1.place trace id
        (readRecord trace r id position).2.1) (s.readAction trace id).1 ∧
      (readRecord trace r id position).2.2 = (s.readAction trace id).2 := by
  unfold Ideal.readAction
  cases hremaining : s.remaining id with
  | nil =>
      rw [hremaining] at hrecords
      obtain ⟨next, hread, hnext, hnone⟩ := readRecord_of_nil r htidy hrecords
      rw [hread]
      exact ⟨related_place h hid hremaining hnext hnone, rfl⟩
  | cons x rest =>
      have hx := hkept x rest hremaining
      obtain ⟨o, a⟩ := x
      rw [hremaining] at hrecords
      obtain ⟨rfl, bytesRead, hbytes, hread, hnext, hrest⟩ :=
        readRecord_of_cons r htidy hrecords
      obtain rfl | hnil := hposition
      · have hdrop : ((r.currentThreadsOffsets id, a) :: rest).dropWhile
            (fun x => decide (x.1 ∈ trace.ignored id)) =
            (r.currentThreadsOffsets id, a) :: rest := by
          rw [List.dropWhile_cons, if_neg]
          simpa using hx
        rw [hread, hdrop]
        refine ⟨?_, rfl⟩
        have hadvance := related_advance h hid
          (Function.update s.ahead id (s.ahead id ++ [r.currentThreadsOffsets id])) s.delivered
          (some (r.currentThreadsOffsets id)) hbytes hnext hrest (.inl rfl)
          fun o ho => Option.some.inj ho
        rw [Function.update_eq_self] at hadvance
        exact hadvance
      · rw [hremaining] at hnil
        cases hnil

theorem ideal_readAction_of_ignored {x : Nat × α} {rest : List (Nat × α)}
    (hremaining : s.remaining id = x :: rest) (hx : x.1 ∈ trace.ignored id) :
    (⟨Function.update s.remaining id rest, s.ahead, s.delivered,
      Function.update s.lastRead id none⟩ : Ideal α).readAction trace id =
      s.readAction trace id := by
  unfold Ideal.readAction
  have hdrop : (x :: rest).dropWhile (fun x => decide (x.1 ∈ trace.ignored id)) =
      rest.dropWhile fun x => decide (x.1 ∈ trace.ignored id) := by
    rw [List.dropWhile_cons, if_pos]
    simpa using hx
  rw [hremaining, hdrop]
  simp only [Function.update_self, Function.update_idem]

/-- A read leaves the reader related to the ideal one, unless two records that follow each other
are ignored. -/
theorem related_readAction (h : Related trace r s) (hignores : trace.IgnoresRecords)
    (hid : id ∈ trace.threads)
    (hsingle : ((s.remaining id).take 2).length = 2 →
      ¬ ∀ x ∈ (s.remaining id).take 2, x.1 ∈ trace.ignored id) :
    Related trace (readAction trace r id).1 (s.readAction trace id).1 ∧
      (readAction trace r id).2 = (s.readAction trace id).2 := by
  obtain ⟨htidy, hrecords, hposition⟩ := h.at_position hid
  have hget := related_getStream h hid
  unfold readAction
  simp only
  set position := r.position trace id with hp
  by_cases hskip : position ∈ trace.ignored id
  · obtain ⟨x, hx, hoffset⟩ := List.mem_map.mp (hignores id hid position hskip)
    have hmem := htidy.mem_recordsFrom hx (Nat.le_of_eq hoffset.symm)
    rcases htidy.cases with ⟨-, hnil⟩ | ⟨line, lines, -, -, -, hnil, -⟩ |
      ⟨line, lines, a, hlines, -, -, hnext, hcons⟩
    · rw [hnil] at hmem
      cases hmem
    · rw [hnil] at hmem
      cases hmem
    · have hremaining := hrecords.symm.trans hcons
      have hcurrent : position = r.currentThreadsOffsets id := by
        rcases hposition with hposition | hnil
        · exact hposition
        · rw [hremaining] at hnil
          cases hnil
      have hlt := h.counter_lt hid (hcurrent ▸ hskip)
      set skipped := skipIgnored trace (getStream trace r id) id position with hskipped
      have hafter : skipped =
          ({ (getStream trace r id).advance id line.length with
              counterOpsAlreadyIgnored := Function.update r.counterOpsAlreadyIgnored id
                (r.counterOpsAlreadyIgnored id + 1) }, position + line.length) := by
        rw [hskipped, skipIgnored, if_pos ⟨hlt, hskip⟩, hlines]
        rfl
      have hplaced : skipped.1.place trace id skipped.2 =
          Reader.place trace { r.advance id line.length with
            counterOpsAlreadyIgnored := Function.update r.counterOpsAlreadyIgnored id
              (r.counterOpsAlreadyIgnored id + 1) } id
            (r.currentThreadsOffsets id + line.length) := by
        rw [hafter, hcurrent]
        simp [Reader.place, Reader.advance, getStream]
      rw [hcurrent] at hnext hcons hremaining
      have hrelated := related_advance h hid s.ahead s.delivered none
        (length_pos_of_mem_splitLines (show line ∈ trace.linesFrom position by simp [hlines]))
        hnext rfl (.inr ⟨rfl, hcurrent ▸ hskip⟩) (by simp)
      have hread := related_readRecord hrelated hid hnext (by simp)
        (by simp [Reader.place, Reader.advance])
        (by
          intro y rest hrest hy
          simp only [Function.update_self] at hrest
          rw [hrest] at hremaining
          apply hsingle
          · simp [hremaining]
          · simpa [hremaining] using ⟨hcurrent ▸ hskip, hy⟩)
      rw [← hplaced, readRecord_place, place_place,
        ideal_readAction_of_ignored hremaining (hcurrent ▸ hskip)] at hread
      rw [hafter, hcurrent]
      rw [hafter, hcurrent] at hread
      exact hread
  · have hno : skipIgnored trace (getStream trace r id) id position =
        (getStream trace r id, position) := by
      unfold skipIgnored
      rw [if_neg]
      exact fun hboth => hskip hboth.2
    rw [hno]
    apply related_readRecord hget hid htidy hrecords hposition
    intro x rest hremaining
    rw [hremaining] at hrecords
    have hx := (readRecord_of_cons r htidy hrecords).1
    rwa [hx]

theorem resetAppStreamFps_last (r : Reader) (hid : id ∈ trace.threads) :
    ((resetAppStreamFps trace r).streams (trace.streamsIdxs id)).last = none := by
  have hmem : trace.streamsIdxs id ∈ trace.threads.map trace.streamsIdxs := List.mem_map_of_mem hid
  simp only [resetAppStreamFps, if_pos hmem]

theorem resetAppStreamFps_fp (r : Reader) (idx : Nat) :
    ((resetAppStreamFps trace r).streams idx).fp = (r.streams idx).fp := by
  unfold resetAppStreamFps
  simp only
  split <;> rfl

theorem related_restartFps (h : Related trace r s) (hwell : trace.WellFormed)
    (hid : id ∈ trace.threads) :
    Related trace (restartFps trace r id)
      { s with
        remaining := Function.update s.remaining id (trace.records id)
        lastRead := Function.update s.lastRead id none } := by
  have hoffset : ∀ i, (restartFps trace r id).currentThreadsOffsets i =
      if i = id then trace.threadsOffsets id else r.currentThreadsOffsets i :=
    fun i => Function.update_apply ..
  constructor
  · intro i hi
    rw [hoffset i]
    split
    · next heq =>
        subst heq
        exact (hwell.tidy hi).1
    · exact h.tidy i hi
  · intro i hi
    simp only [hoffset i, Function.update_apply]
    split
    · next heq =>
        subst heq
        exact (hwell.tidy hi).2
    · exact h.rest i hi
  · intro i hi position hstream
    have hlast := congrArg Stream.last hstream
    rw [restartFps, resetAppStreamFps_last _ hi] at hlast
    cases hlast
  · intro i hi hfp
    rw [hoffset i]
    split
    · next heq => rw [heq]
    · rw [restartFps, resetAppStreamFps_fp] at hfp
      exact h.fresh i hi hfp
  · intro i hi
    by_cases hne : i = id
    · subst hne
      exact ⟨[], List.nodup_nil, List.nil_subset _, by simp,
        (Function.update_self i 0 r.counterOpsAlreadyIgnored).symm⟩
    · rw [hoffset i, if_neg hne]
      have hcounter : (restartFps trace r id).counterOpsAlreadyIgnored i =
          r.counterOpsAlreadyIgnored i := Function.update_of_ne hne ..
      rw [hcounter]
      exact h.counter i hi
  · intro i hi o ho
    simp only [Function.update_apply] at ho
    split at ho
    · cases ho
    · next hne =>
        have hlast : (restartFps trace r id).lastCurrentThreadsOffsets i =
            r.lastCurrentThreadsOffsets i := Function.update_of_ne hne ..
        rw [hlast]
        exact h.last i hi o ho

theorem related_reloadPtask (h : Related trace r s) (hwell : trace.WellFormed)
    (hnone : ∀ id ∈ trace.threads, trace.ignored id = []) :
    Related trace (reloadPtask trace r)
      { s with remaining := trace.records, lastRead := fun _ => none } := by
  have hoffset : ∀ i ∈ trace.threads,
      (reloadPtask trace r).currentThreadsOffsets i = trace.threadsOffsets i :=
    fun i hi => if_pos (List.contains_iff_mem.mpr hi)
  constructor
  · intro i hi
    rw [hoffset i hi]
    exact (hwell.tidy hi).1
  · intro i hi
    rw [hoffset i hi]
    exact (hwell.tidy hi).2
  · intro i hi position hstream
    have hlast := congrArg Stream.last hstream
    rw [reloadPtask, resetAppStreamFps_last _ hi] at hlast
    cases hlast
  · exact fun i hi _ => hoffset i hi
  · intro i hi
    obtain ⟨skipped, hnodup, hsub, -, hlength⟩ := h.counter i hi
    rw [hnone i hi] at hsub
    obtain rfl := List.subset_nil.mp hsub
    exact ⟨[], hnodup, List.nil_subset _, by simp, hlength⟩
  · intro i hi o ho
    cases ho

/-- A request at which the reader does what the ideal one does. No two records that follow each
other are ignored. An offset is asked for while the record that was delivered last is the one that
was read last, and it is one of an `unsigned int`. The counters start again with an application. -/
def Regular (trace : Trace α) (s : Ideal α) : Request → Prop
  | .readAction id => ((s.remaining id).take 2).length = 2 →
      ¬ ∀ x ∈ (s.remaining id).take 2, x.1 ∈ trace.ignored id
  | .deliver _ => True
  | .getOffset id => ∃ o, s.delivered id = some o ∧ s.lastRead id = some o ∧ o < uintRange
  | .restartFps _ => True
  | .reloadPtask => ∀ id ∈ trace.threads, trace.ignored id = []

instance (trace : Trace α) (s : Ideal α) (id : ThreadId) :
    Decidable (Regular trace s (.readAction id)) :=
  inferInstanceAs (Decidable (((s.remaining id).take 2).length = 2 →
    ¬ ∀ x ∈ (s.remaining id).take 2, x.1 ∈ trace.ignored id))

theorem related_serve (h : Related trace r s) (hwell : trace.WellFormed)
    (hignores : trace.IgnoresRecords) {q : Request} (hq : trace.Asks q)
    (hregular : Regular trace s q) :
    Related trace (r.serve trace q).1 (s.serve trace q).1 ∧
      (r.serve trace q).2 = (s.serve trace q).2 := by
  cases q with
  | readAction id =>
      obtain ⟨hrelated, hresult⟩ := related_readAction h hignores (hq id rfl) hregular
      exact ⟨hrelated, congrArg Response.read hresult⟩
  | deliver id => exact ⟨⟨h.tidy, h.rest, h.stream, h.fresh, h.counter, h.last⟩, rfl⟩
  | getOffset id =>
      obtain ⟨o, hdelivered, hlastRead, ho⟩ := hregular
      refine ⟨related_getStream h (hq id rfl), ?_⟩
      have hlast : r.lastCurrentThreadsOffsets id % uintRange = o := by
        rw [h.last id (hq id rfl) o hlastRead]
        exact Nat.mod_eq_of_lt ho
      show Response.offset (r.lastCurrentThreadsOffsets id % uintRange) =
        Response.offset ((s.delivered id).getD 0)
      rw [hlast, hdelivered]
      rfl
  | restartFps id => exact ⟨related_restartFps h hwell (hq id rfl), rfl⟩
  | reloadPtask => exact ⟨related_reloadPtask h hwell hregular, rfl⟩

theorem responses_eq (hwell : trace.WellFormed) (hignores : trace.IgnoresRecords)
    (lastOffsets : ThreadId → Nat) {qs : List Request}
    (h : Along (Ideal.serve trace) (fun s q => trace.Asks q ∧ Regular trace s q)
      (.initial trace) qs) :
    responses (Reader.serve trace) (.initial trace lastOffsets) qs =
      responses (Ideal.serve trace) (.initial trace) qs := by
  have hstep : ∀ r s q, Related trace r s → trace.Asks q ∧ Regular trace s q →
      Related trace (r.serve trace q).1 (s.serve trace q).1 ∧
        (r.serve trace q).2 = (s.serve trace q).2 :=
    fun r s q hrelated hq => related_serve hrelated hwell hignores hq.1 hq.2
  exact responses_eq_of_simulation hstep (related_initial hwell lastOffsets) h

/-- Threads that share their streams read their records as if each had a file of its own: from the
first one on behind each of its restarts, and then no more actions. -/
theorem shared_streams_transparent (hwell : trace.WellFormed)
    (hnone : ∀ id ∈ trace.threads, trace.ignored id = []) (lastOffsets : ThreadId → Nat)
    {qs : List Request} (hasks : ∀ q ∈ qs, trace.Asks q)
    (hreads : ∀ q ∈ qs, ∀ id, q ≠ .getOffset id) :
    responses (Reader.serve trace) (.initial trace lastOffsets) qs =
      responses (Ideal.serve trace) (.initial trace) qs := by
  have hignores : trace.IgnoresRecords := by
    intro id hid o ho
    rw [hnone id hid] at ho
    cases ho
  apply responses_eq hwell hignores
  apply along_of_forall
  intro s q hq
  refine ⟨hasks q hq, ?_⟩
  cases q with
  | readAction id =>
      intro htwo hboth
      rw [hnone id (hasks _ hq id rfl)] at hboth
      cases htake : (s.remaining id).take 2 with
      | nil => simp [htake] at htwo
      | cons x xs => exact absurd (hboth x (by simp [htake])) List.not_mem_nil
  | deliver id => trivial
  | getOffset id => exact absurd rfl (hreads _ hq id)
  | restartFps id => trivial
  | reloadPtask => exact hnone

/-- The threads read the records that they do not ignore, and get their offsets, if all requests
are regular. -/
theorem ignored_operations (hwell : trace.WellFormed) (hignores : trace.IgnoresRecords)
    (lastOffsets : ThreadId → Nat) {qs : List Request} (hasks : ∀ q ∈ qs, trace.Asks q)
    (hregular : Along (Ideal.serve trace) (Regular trace) (.initial trace) qs) :
    responses (Reader.serve trace) (.initial trace lastOffsets) qs =
      responses (Ideal.serve trace) (.initial trace) qs := by
  apply responses_eq hwell hignores
  exact hregular.imp fun s q hq hC => ⟨hasks q hq, hC⟩

end

/-- Two threads with one stream. A line has the number of the task and an action. -/
def oneStream (opsToBeIgnored : List Nat) : Trace Char where
  text := ['0', 'a', newline, '0', 'b', newline, '0', 'c', newline, '1', 'd', newline]
  threadsCount := [1, 1]
  assignedStreams := 1
  threadsOffsets id := 9 * id.1
  withDeadlockAnalysis := true
  opsToBeIgnored id := if id = (0, 0) then opsToBeIgnored else []
  parse line :=
    match line with
    | c :: action :: _ =>
        if c = '0' then .record (0, 0) (some action)
        else if c = '1' then .record (1, 0) (some action) else .wrong
    | _ => .wrong

theorem wellFormed_oneStream (opsToBeIgnored : List Nat) :
    (oneStream opsToBeIgnored).WellFormed := by
  intro id hid
  have hid' : id ∈ [((0, 0) : ThreadId), (1, 0)] := hid
  rcases List.mem_cons.mp hid' with rfl | hid'
  · refine ⟨[], [['0', 'a', newline], ['0', 'b', newline], ['0', 'c', newline]],
      [['1', 'd', newline]], by rfl, by rfl, by simp, ?_, ?_⟩
    · simp [Trace.OwnLine, oneStream]
    · simp [Trace.OtherLine, oneStream]
  · obtain rfl := List.mem_singleton.mp hid'
    refine ⟨[['0', 'a', newline], ['0', 'b', newline], ['0', 'c', newline]],
      [['1', 'd', newline]], [], by rfl, by rfl, ?_, ?_, by simp⟩
    · simp [oneStream]
    · simp [Trace.OwnLine, oneStream]

/-- The threads read in turn, and the first one starts again. -/
theorem shared_streams_transparent_restart :
    responses (Reader.serve (oneStream [])) (.initial (oneStream []) fun _ => 0)
        [.readAction (0, 0), .readAction (1, 0), .readAction (1, 0), .restartFps (0, 0),
          .readAction (0, 0)] =
      responses (Ideal.serve (oneStream [])) (.initial (oneStream []))
        [.readAction (0, 0), .readAction (1, 0), .readAction (1, 0), .restartFps (0, 0),
          .readAction (0, 0)] := by
  apply shared_streams_transparent (wellFormed_oneStream [])
  · intro id _
    unfold Trace.ignored oneStream
    simp
  · simp [Trace.Asks, Request.threadId, Trace.threads, oneStream]
  · simp

/-- The first thread ignores its second operation. -/
theorem ignored_operations_second :
    responses (Reader.serve (oneStream [3])) (.initial (oneStream [3]) fun _ => 0)
        [.readAction (0, 0), .readAction (1, 0), .readAction (0, 0), .readAction (0, 0)] =
      responses (Ideal.serve (oneStream [3])) (.initial (oneStream [3]))
        [.readAction (0, 0), .readAction (1, 0), .readAction (0, 0), .readAction (0, 0)] := by
  apply ignored_operations (wellFormed_oneStream [3])
  · decide
  · simp [Trace.Asks, Request.threadId, Trace.threads, oneStream]
  · exact ⟨by decide, by decide, by decide, by decide, trivial⟩

/-- Of two operations that follow each other the second is read although it is to be ignored. -/
theorem not_ignored_operations :
    ¬ ∀ (trace : Trace Char) (lastOffsets : ThreadId → Nat) (qs : List Request),
      trace.WellFormed → trace.IgnoresRecords → (∀ q ∈ qs, trace.Asks q) →
      (∀ q ∈ qs, ∃ id, q = .readAction id) →
      responses (Reader.serve trace) (.initial trace lastOffsets) qs =
        responses (Ideal.serve trace) (.initial trace) qs := by
  intro h
  have heq := h (oneStream [0, 3]) (fun _ => 0) [.readAction (0, 0)]
    (wellFormed_oneStream [0, 3]) (by decide)
    (by simp [Trace.Asks, Request.threadId, Trace.threads, oneStream]) (by simp)
  revert heq
  decide

end Dimemas.Input.Records
