import Dimemas.Library.WeakOrders
import Dimemas.Prv2dim.TaskTranslation
import Dimemas.PrvUtils.ParaverRecords
/-!
# The orders of the records that are sorted

The comparisons of the two sorts of a record stack (`TranslatorRecord.hpp`) and of the sort of a
Paraver trace (`paraver_records.cc`), and when they are strict weak orders on the records given.
-/

namespace Dimemas.Prv2dim.RecordOrder

open Dimemas.Library.WeakOrders
open Dimemas.PrvUtils.ParaverRecords
open Dimemas.Prv2dim.TaskTranslation (isMPIBlock isBlockBegin probeSoftCounter probeTimeCounter
  clusterIdEv)

/-! ## Records of a stack -/

structure EventTypeValue where
  type : Int
  value : Int
  traceOrder : Int
deriving DecidableEq, Repr

abbrev Content := List EventTypeValue

inductive CommunicationType where
  | logicalSend
  | logicalRecv
  | physicalSend
  | physicalRecv
deriving DecidableEq, Repr

inductive Kind where
  | event (content : Content)
  | communication (type : CommunicationType) (traceOrder : Nat)
  | globalOp
  | state
deriving DecidableEq, Repr

structure ParaverRecord where
  timestamp : Nat
  kind : Kind
deriving DecidableEq, Repr

def getFirstType (content : Content) : Int :=
  (content.head?.map EventTypeValue.type).getD (-1)

def getFirstTraceOrder (content : Content) : Int :=
  (content.head?.map EventTypeValue.traceOrder).getD (-1)

def isMPIBlockBegin (content : Content) : Bool :=
  content.head?.any fun tv => isMPIBlock tv.type && isBlockBegin tv.value

def isMPIBlockEnd (content : Content) : Bool :=
  content.head?.any fun tv => isMPIBlock tv.type && !isBlockBegin tv.value

def isCaller (type : Int) : Bool :=
  70000000 ≤ type && type ≤ 79999999

def isCallerLine (type : Int) : Bool :=
  80000000 ≤ type && type ≤ 89999999

/-! ## The comparisons -/

def outBlockEvents (content content' : Content) : Bool :=
  let type := getFirstType content
  let type' := getFirstType content'
  if type = probeSoftCounter ∧ type' = probeTimeCounter then true
  else if type = probeTimeCounter ∧ type' = probeSoftCounter then false
  else if (type = probeTimeCounter ∨ type = probeTimeCounter) ∧ type' = clusterIdEv then true
  else if type = clusterIdEv ∧ (type' = probeTimeCounter ∨ type' = probeTimeCounter) then false
  else getFirstTraceOrder content < getFirstTraceOrder content'

def outBlockCommunications (type type' : CommunicationType) : Bool :=
  if type = .logicalRecv then false
  else if type = .logicalSend ∧ type' = .physicalSend then true
  else if type = .physicalSend ∧ type' = .physicalRecv then true
  else false

def outBlockKinds : Kind → Kind → Bool
  | .event content, .event content' => outBlockEvents content content'
  | .event content, .communication _ _ => if isMPIBlockEnd content then false else true
  | .event content, .globalOp =>
      if isMPIBlockBegin content then true
      else if isMPIBlockEnd content then false
      else true
  | .communication _ _, .event _ => false
  | .globalOp, .event content' =>
      if isMPIBlockBegin content' then false
      else if isMPIBlockEnd content' then true
      else false
  | .communication type _, .communication type' _ => outBlockCommunications type type'
  | .communication _ _, .globalOp => true
  | .globalOp, .communication _ _ => true
  | .globalOp, .globalOp => true
  | _, _ => true

def outBlockComparison (r₁ r₂ : ParaverRecord) : Bool :=
  if r₁.timestamp ≠ r₂.timestamp then r₁.timestamp < r₂.timestamp
  else outBlockKinds r₁.kind r₂.kind

def inBlockEvents (content content' : Content) : Bool :=
  let type := getFirstType content
  let type' := getFirstType content'
  if isCaller type && isCallerLine type' then true
  else if isCaller type || isCallerLine type then false
  else if isCaller type' || isCallerLine type' then true
  else if type = probeSoftCounter ∧ type' = probeTimeCounter then true
  else if type = probeTimeCounter ∧ type' = probeSoftCounter then false
  else getFirstTraceOrder content < getFirstTraceOrder content'

def inBlockCommunications (type : CommunicationType) (traceOrder : Nat)
    (type' : CommunicationType) (traceOrder' : Nat) : Bool :=
  if type = type' then traceOrder < traceOrder'
  else if type = .logicalRecv then true
  else if type = .logicalSend ∧ type' = .physicalSend then true
  else if type = .physicalSend ∧ type' = .physicalRecv then true
  else if type = .logicalSend ∧ type' = .physicalRecv then true
  else false

def inBlockKinds : Kind → Kind → Bool
  | .event content, .event content' => inBlockEvents content content'
  | .event _, .communication _ _ => false
  | .event _, .globalOp => false
  | .communication _ _, .event _ => true
  | .globalOp, .event _ => true
  | .communication type traceOrder, .communication type' traceOrder' =>
      inBlockCommunications type traceOrder type' traceOrder'
  | .communication _ _, .globalOp => true
  | .globalOp, .communication _ _ => true
  | .globalOp, .globalOp => true
  | _, _ => true

def inBlockComparison (r₁ r₂ : ParaverRecord) : Bool :=
  if r₁.timestamp ≠ r₂.timestamp then r₁.timestamp < r₂.timestamp
  else inBlockKinds r₁.kind r₂.kind

structure SortRecord extends SimpleParaverRecord where
  known : type = prvEvent ∨ type = prvState ∨ type = prvStateRun ∨ type = prvComm

/-- `operator<` on the records of the sort buffer. -/
def lessRecord (r₁ r₂ : SortRecord) : Bool :=
  less r₁.toSimpleParaverRecord r₂.toSimpleParaverRecord

/-! ## When they are strict weak orders -/

/-- The events that a comparison treats apart. -/
inductive Probe where
  | soft
  | time
  | cluster
  | other
deriving DecidableEq, Repr

def probeOf (content : Content) : Probe :=
  let type := getFirstType content
  if type = probeSoftCounter then .soft
  else if type = probeTimeCounter then .time
  else if type = clusterIdEv then .cluster
  else .other

/-- No other event is, in the order of the trace, between a time counter and a software counter
behind it. Clusters are behind all software counters, and no other event is between a cluster and a
time counter behind it. -/
structure ProbesInOrder (events : Set (Probe × Int)) : Prop where
  probes : ∀ s t x, (.soft, s) ∈ events → (.time, t) ∈ events → (.other, x) ∈ events →
    ¬ (t ≤ x ∧ x ≤ s)
  clusterLast : ∀ s t c, (.soft, s) ∈ events → (.time, t) ∈ events → (.cluster, c) ∈ events → s < c
  clusters : ∀ t c x, (.time, t) ∈ events → (.cluster, c) ∈ events → (.other, x) ∈ events →
    ¬ (c ≤ x ∧ x ≤ t)

/-- The events among records, as the comparison outside blocks sees them. -/
def probesOut (kinds : Set Kind) : Set (Probe × Int) :=
  {p | ∃ content, .event content ∈ kinds ∧ p = (probeOf content, getFirstTraceOrder content)}

/-- What the comparison outside blocks needs of the records of one time. -/
structure OutBlockOrderable (kinds : Set Kind) : Prop where
  globalOps : .globalOp ∉ kinds
  states : .state ∉ kinds
  probes : ProbesInOrder (probesOut kinds)
  /-- Physical sends are together with at most one other type of communication. -/
  physicalSends : ∀ n type i type' j, .communication .physicalSend n ∈ kinds →
    .communication type i ∈ kinds → .communication type' j ∈ kinds →
    type ≠ .physicalSend → type' ≠ .physicalSend → type = type'
  /-- Together with a communication, all ends of MPI blocks have one place, behind the other
  events. -/
  blockEnds : ∀ type n content content', .communication type n ∈ kinds → .event content ∈ kinds →
    .event content' ∈ kinds → isMPIBlockEnd content' →
    if isMPIBlockEnd content then getFirstTraceOrder content = getFirstTraceOrder content'
    else getFirstTraceOrder content < getFirstTraceOrder content'
  /-- Together with the end of an MPI block and a physical send, there are at most logical
  receives. -/
  endSends : ∀ n type i content, .communication .physicalSend n ∈ kinds →
    .communication type i ∈ kinds → .event content ∈ kinds → isMPIBlockEnd content →
    type = .physicalSend ∨ type = .logicalRecv

/-- The events among records that are no callers, as the comparison inside blocks sees them. -/
def probesIn (kinds : Set Kind) : Set (Probe × Int) :=
  {p | ∃ content, .event content ∈ kinds ∧ isCaller (getFirstType content) = false ∧
    isCallerLine (getFirstType content) = false ∧
    p = (if probeOf content = .cluster then .other else probeOf content,
      getFirstTraceOrder content)}

/-- What the comparison inside blocks needs of the records of one time. -/
structure InBlockOrderable (kinds : Set Kind) : Prop where
  globalOps : .globalOp ∉ kinds
  states : .state ∉ kinds
  probes : ProbesInOrder (probesIn kinds)

def kindsAt (S : Set ParaverRecord) (timestamp : Nat) : Set Kind :=
  {kind | ⟨timestamp, kind⟩ ∈ S}

/-! ## Events -/

def probeLess : Probe × Int → Probe × Int → Bool
  | (.soft, _), (.time, _) => true
  | (.time, _), (.soft, _) => false
  | (.time, _), (.cluster, _) => true
  | (.cluster, _), (.time, _) => false
  | (_, order), (_, order') => order < order'

theorem probeLess_asymm {p p' : Probe × Int} (h : probeLess p p' = true) :
    probeLess p' p = false := by
  obtain ⟨k, o⟩ := p
  obtain ⟨k', o'⟩ := p'
  cases k <;> cases k' <;> simp [probeLess] at h ⊢ <;> omega

/-- An event between two others by the order of the trace has its place unless one of the rules puts
the two the other way around. -/
theorem ProbesInOrder.lt_or_lt {events : Set (Probe × Int)} (h : ProbesInOrder events)
    {a b c : Probe × Int} (ha : a ∈ events) (hb : b ∈ events) (hc : c ∈ events)
    (hac : probeLess a c = true) : probeLess a b = true ∨ probeLess b c = true := by
  obtain ⟨ka, a⟩ := a
  obtain ⟨kb, b⟩ := b
  obtain ⟨kc, c⟩ := c
  have hprobes := h.probes
  have hlast := h.clusterLast
  have hclusters := h.clusters
  cases ka <;> cases kb <;> cases kc <;>
    simp only [probeLess, decide_eq_true_eq] at hac ⊢ <;> grind

theorem strictWeakOn_probeLess {events : Set (Probe × Int)} :
    StrictWeakOn probeLess events ↔ ProbesInOrder events := by
  constructor
  · intro h
    constructor
    · rintro s t x hs ht hx ⟨htx, hxs⟩
      rcases h.lt_or_lt hs hx ht rfl with hlt | hlt
      · have hsx : s < x := of_decide_eq_true hlt
        omega
      · have hxt : x < t := of_decide_eq_true hlt
        omega
    · intro s t c hs ht hc
      exact of_decide_eq_true (h.trans _ hs _ ht _ hc rfl rfl)
    · rintro t c x ht hc hx ⟨hcx, hxt⟩
      rcases h.lt_or_lt ht hx hc rfl with hlt | hlt
      · have htx : t < x := of_decide_eq_true hlt
        omega
      · have hxc : x < c := of_decide_eq_true hlt
        omega
  · intro h
    rw [strictWeakOn_iff]
    exact ⟨fun _ _ _ _ => probeLess_asymm, fun _ ha _ hb _ hc => h.lt_or_lt ha hb hc⟩

theorem probeOf_cases (content : Content) :
    getFirstType content = probeSoftCounter ∧ probeOf content = .soft ∨
      getFirstType content = probeTimeCounter ∧ probeOf content = .time ∨
      getFirstType content = clusterIdEv ∧ probeOf content = .cluster ∨
      getFirstType content ≠ probeSoftCounter ∧ getFirstType content ≠ probeTimeCounter ∧
        getFirstType content ≠ clusterIdEv ∧ probeOf content = .other := by
  unfold probeOf
  simp only [probeSoftCounter, probeTimeCounter, clusterIdEv]
  by_cases hsoft : getFirstType content = 50000300
  · simp [hsoft]
  · by_cases htime : getFirstType content = 50000301
    · simp [htime]
    · by_cases hcluster : getFirstType content = 90000001
      · simp [hcluster]
      · simp [hsoft, htime, hcluster]

theorem outBlockEvents_eq (content content' : Content) :
    outBlockEvents content content' = probeLess (probeOf content, getFirstTraceOrder content)
      (probeOf content', getFirstTraceOrder content') := by
  unfold outBlockEvents
  rcases probeOf_cases content with ⟨h, hp⟩ | ⟨h, hp⟩ | ⟨h, hp⟩ | ⟨hs, ht, hc, hp⟩ <;>
    rcases probeOf_cases content' with ⟨h', hp'⟩ | ⟨h', hp'⟩ | ⟨h', hp'⟩ | ⟨hs', ht', hc', hp'⟩ <;>
    simp_all [probeLess, probeSoftCounter, probeTimeCounter, clusterIdEv]

/-- What the comparison inside blocks makes of an event that is no caller. -/
def plainProbe (content : Content) : Probe :=
  if probeOf content = .cluster then .other else probeOf content

theorem inBlockEvents_eq_of_plain {content content' : Content}
    (h : isCaller (getFirstType content) = false) (hl : isCallerLine (getFirstType content) = false)
    (h' : isCaller (getFirstType content') = false)
    (hl' : isCallerLine (getFirstType content') = false) :
    inBlockEvents content content' = probeLess (plainProbe content, getFirstTraceOrder content)
      (plainProbe content', getFirstTraceOrder content') := by
  simp only [inBlockEvents, plainProbe, h, hl, h', hl', Bool.false_and, Bool.or_self,
    Bool.false_eq_true, if_false]
  clear h hl h' hl'
  rcases probeOf_cases content with ⟨ht, hp⟩ | ⟨ht, hp⟩ | ⟨ht, hp⟩ | ⟨hs, ht, hc, hp⟩ <;>
    rcases probeOf_cases content' with ⟨ht', hp'⟩ | ⟨ht', hp'⟩ | ⟨ht', hp'⟩ | ⟨hs', ht', hc', hp'⟩ <;>
    simp_all [probeLess, probeSoftCounter, probeTimeCounter, clusterIdEv]

/-- The ends of MPI blocks are placed by the order of the trace. -/
theorem probeOf_of_isMPIBlockEnd {content : Content} (h : isMPIBlockEnd content = true) :
    probeOf content = .other := by
  cases content with
  | nil => exact absurd h (by simp [isMPIBlockEnd])
  | cons tv content =>
      simp only [isMPIBlockEnd, isMPIBlock, List.head?_cons, Option.any_some, Bool.and_eq_true,
        Bool.or_eq_true, beq_iff_eq] at h
      have htype : getFirstType (tv :: content) = tv.type := rfl
      rcases probeOf_cases (tv :: content) with ⟨hp, -⟩ | ⟨hp, -⟩ | ⟨hp, -⟩ | ⟨-, -, -, hp⟩
      · rw [htype, probeSoftCounter] at hp
        omega
      · rw [htype, probeTimeCounter] at hp
        omega
      · rw [htype, clusterIdEv] at hp
        omega
      · exact hp

theorem outBlockEvents_of_isMPIBlockEnd {content content' : Content}
    (h : isMPIBlockEnd content' = true) :
    outBlockEvents content content' =
      decide (getFirstTraceOrder content < getFirstTraceOrder content') := by
  rw [outBlockEvents_eq, probeOf_of_isMPIBlockEnd h]
  cases probeOf content <;> rfl

theorem outBlockEvents_isMPIBlockEnd_left {content content' : Content}
    (h : isMPIBlockEnd content = true) :
    outBlockEvents content content' =
      decide (getFirstTraceOrder content < getFirstTraceOrder content') := by
  rw [outBlockEvents_eq, probeOf_of_isMPIBlockEnd h]
  cases probeOf content' <;> rfl

/-! ## Outside blocks -/

section

variable {kinds : Set Kind}

theorem strictWeakOn_outBlockEvents :
    StrictWeakOn outBlockEvents {content | Kind.event content ∈ kinds} ↔
      ProbesInOrder (probesOut kinds) := by
  have himage : (fun content => (probeOf content, getFirstTraceOrder content)) ''
      {content | Kind.event content ∈ kinds} = probesOut kinds := by
    ext p
    constructor
    · rintro ⟨content, hmem, rfl⟩
      exact ⟨content, hmem, rfl⟩
    · rintro ⟨content, hmem, rfl⟩
      exact ⟨content, hmem, rfl⟩
  rw [← strictWeakOn_probeLess, ← himage, ← strictWeakOn_image]
  exact strictWeakOn_congr fun content _ content' _ => outBlockEvents_eq content content'

theorem strictWeakOn_events {lt : Kind → Kind → Bool} (h : StrictWeakOn lt kinds) :
    StrictWeakOn (fun content content' => lt (.event content) (.event content'))
      {content | Kind.event content ∈ kinds} := by
  apply (strictWeakOn_image Kind.event).mpr
  apply h.mono
  rintro _ ⟨content, hmem, rfl⟩
  exact hmem

theorem outBlockOrderable_of_strictWeakOn (h : StrictWeakOn outBlockKinds kinds) :
    OutBlockOrderable kinds where
  globalOps hmem := absurd (h.irrefl _ hmem) (by simp [outBlockKinds])
  states hmem := absurd (h.irrefl _ hmem) (by simp [outBlockKinds])
  probes := strictWeakOn_outBlockEvents.mp (strictWeakOn_events h)
  physicalSends := by
    intro n type i type' j hsend htype htype' hne hne'
    have hmid (a b : CommunicationType) (k l m : Nat) (ha : .communication a k ∈ kinds)
        (hb : .communication b l ∈ kinds) (c : CommunicationType) (hc : .communication c m ∈ kinds)
        (hac : outBlockCommunications a c = true) :
        outBlockCommunications a b = true ∨ outBlockCommunications b c = true := by
      have hless : outBlockKinds (.communication a k) (.communication c m) = true := hac
      have hmiddle := h.lt_or_lt ha hb hc hless
      exact hmiddle
    cases type <;> cases type' <;> first | rfl | exact absurd rfl hne | exact absurd rfl hne' | skip
    · exact absurd (hmid .logicalSend .logicalRecv i j n htype htype' .physicalSend hsend rfl)
        (by decide)
    · exact absurd (hmid .logicalSend .physicalRecv i j n htype htype' .physicalSend hsend rfl)
        (by decide)
    · exact absurd (hmid .logicalSend .logicalRecv j i n htype' htype .physicalSend hsend rfl)
        (by decide)
    · exact absurd (hmid .physicalSend .logicalRecv n i j hsend htype .physicalRecv htype' rfl)
        (by decide)
    · exact absurd (hmid .logicalSend .physicalRecv j i n htype' htype .physicalSend hsend rfl)
        (by decide)
    · exact absurd (hmid .physicalSend .logicalRecv n j i hsend htype' .physicalRecv htype rfl)
        (by decide)
  blockEnds := by
    intro type n content content' hcomm hevent hevent' hend'
    have hnot (a : Content) (ha : isMPIBlockEnd a = true) :
        outBlockKinds (.event a) (.communication type n) = false := by
      rw [outBlockKinds, if_pos ha]
    split
    · next hend =>
        -- two ends in different places would both be incomparable with the communication
        by_contra hne
        rcases lt_or_gt_of_ne hne with hlt | hgt
        · have hless : outBlockKinds (.event content) (.event content') = true :=
            (outBlockEvents_of_isMPIBlockEnd hend').trans (decide_eq_true hlt)
          rcases h.lt_or_lt hevent hcomm hevent' hless with hl | hl
          · exact absurd hl (by simp [hnot content hend])
          · exact absurd hl (by simp [outBlockKinds])
        · have hless : outBlockKinds (.event content') (.event content) = true :=
            (outBlockEvents_of_isMPIBlockEnd hend).trans (decide_eq_true hgt)
          rcases h.lt_or_lt hevent' hcomm hevent hless with hl | hl
          · exact absurd hl (by simp [hnot content' hend'])
          · exact absurd hl (by simp [outBlockKinds])
    · next hend =>
        have hless : outBlockKinds (.event content) (.communication type n) = true := by
          rw [outBlockKinds, if_neg hend]
        rcases h.lt_or_lt hevent hevent' hcomm hless with hl | hl
        · exact of_decide_eq_true ((outBlockEvents_of_isMPIBlockEnd hend').symm.trans hl)
        · exact absurd hl (by simp [hnot content' hend'])
  endSends := by
    intro n type i content hsend htype hevent hend
    have hnot (t : CommunicationType) (k : Nat) :
        outBlockKinds (.event content) (.communication t k) = false := by
      rw [outBlockKinds, if_pos hend]
    cases type with
    | physicalSend => exact .inl rfl
    | logicalRecv => exact .inr rfl
    | logicalSend =>
        rcases h.lt_or_lt htype hevent hsend rfl with hl | hl
        · exact absurd hl (by simp [outBlockKinds])
        · exact absurd hl (by simp [hnot])
    | physicalRecv =>
        rcases h.lt_or_lt hsend hevent htype rfl with hl | hl
        · exact absurd hl (by simp [outBlockKinds])
        · exact absurd hl (by simp [hnot])

theorem OutBlockOrderable.asymm (h : OutBlockOrderable kinds) {a b : Kind} (ha : a ∈ kinds)
    (hb : b ∈ kinds) (hab : outBlockKinds a b = true) : outBlockKinds b a = false := by
  cases a with
  | globalOp => exact absurd ha h.globalOps
  | state => exact absurd ha h.states
  | event content =>
      cases b with
      | globalOp => exact absurd hb h.globalOps
      | state => exact absurd hb h.states
      | communication type n => rfl
      | event content' =>
          rw [outBlockKinds, outBlockEvents_eq] at hab ⊢
          exact probeLess_asymm hab
  | communication type n =>
      cases b with
      | globalOp => exact absurd hb h.globalOps
      | state => exact absurd hb h.states
      | event content => exact absurd hab Bool.false_ne_true
      | communication type' n' =>
          rw [outBlockKinds] at hab ⊢
          cases type <;> cases type' <;> revert hab <;> decide

theorem OutBlockOrderable.not_isMPIBlockEnd (h : OutBlockOrderable kinds) {type : CommunicationType}
    {n : Nat} {content content' : Content} (hcomm : .communication type n ∈ kinds)
    (hevent : .event content ∈ kinds) (hevent' : .event content' ∈ kinds)
    (hless : outBlockEvents content content' = true) : ¬ isMPIBlockEnd content = true := by
  intro hend
  rw [outBlockEvents_isMPIBlockEnd_left hend] at hless
  have hlt := of_decide_eq_true hless
  have hplace := h.blockEnds type n content' content hcomm hevent' hevent hend
  split at hplace <;> omega

theorem OutBlockOrderable.lt_or_lt (h : OutBlockOrderable kinds) {a b c : Kind} (ha : a ∈ kinds)
    (hb : b ∈ kinds) (hc : c ∈ kinds) (hac : outBlockKinds a c = true) :
    outBlockKinds a b = true ∨ outBlockKinds b c = true := by
  cases a with
  | globalOp => exact absurd ha h.globalOps
  | state => exact absurd ha h.states
  | event content =>
      cases c with
      | globalOp => exact absurd hc h.globalOps
      | state => exact absurd hc h.states
      | event content' =>
          cases b with
          | globalOp => exact absurd hb h.globalOps
          | state => exact absurd hb h.states
          | event middle =>
              exact (strictWeakOn_outBlockEvents.mpr h.probes).lt_or_lt ha hb hc hac
          | communication type n =>
              exact .inl (if_neg (h.not_isMPIBlockEnd hb ha hc hac))
      | communication type n =>
          have hend : ¬ isMPIBlockEnd content = true := by
            intro hend
            rw [outBlockKinds, if_pos hend] at hac
            exact absurd hac Bool.false_ne_true
          cases b with
          | globalOp => exact absurd hb h.globalOps
          | state => exact absurd hb h.states
          | communication type' n' => exact .inl (if_neg hend)
          | event middle =>
              by_cases hmiddle : isMPIBlockEnd middle = true
              · have hplace := h.blockEnds type n content middle hc ha hb hmiddle
                rw [if_neg hend] at hplace
                exact .inl ((outBlockEvents_of_isMPIBlockEnd hmiddle).trans (decide_eq_true hplace))
              · exact .inr (if_neg hmiddle)
  | communication type n =>
      cases c with
      | globalOp => exact absurd hc h.globalOps
      | state => exact absurd hc h.states
      | event content => exact absurd hac Bool.false_ne_true
      | communication type' n' =>
          have hpair : type = .logicalSend ∧ type' = .physicalSend ∨
              type = .physicalSend ∧ type' = .physicalRecv := by
            rw [outBlockKinds] at hac
            cases type <;> cases type' <;> revert hac <;> decide
          cases b with
          | globalOp => exact absurd hb h.globalOps
          | state => exact absurd hb h.states
          | event middle =>
              refine .inr (if_neg fun hend => ?_)
              rcases hpair with ⟨rfl, rfl⟩ | ⟨rfl, rfl⟩
              · exact absurd (h.endSends n' _ n middle hc ha hb hend) (by decide)
              · exact absurd (h.endSends n _ n' middle ha hc hb hend) (by decide)
          | communication middle m =>
              by_cases hsend : middle = .physicalSend
              · rw [hsend]
                rcases hpair with ⟨rfl, rfl⟩ | ⟨rfl, rfl⟩
                · exact .inl rfl
                · exact .inr rfl
              · rcases hpair with ⟨rfl, rfl⟩ | ⟨rfl, rfl⟩
                · rw [h.physicalSends n' middle m .logicalSend n hc hb ha hsend (by decide)]
                  exact .inr rfl
                · rw [h.physicalSends n middle m .physicalRecv n' ha hb hc hsend (by decide)]
                  exact .inl rfl

theorem strictWeakOn_outBlockKinds :
    StrictWeakOn outBlockKinds kinds ↔ OutBlockOrderable kinds := by
  constructor
  · exact outBlockOrderable_of_strictWeakOn
  · intro h
    rw [strictWeakOn_iff]
    exact ⟨fun _ ha _ hb => h.asymm ha hb, fun _ ha _ hb _ hc => h.lt_or_lt ha hb hc⟩

end

/-! ## Inside blocks -/

def isPlain (content : Content) : Bool :=
  !isCaller (getFirstType content) && !isCallerLine (getFirstType content)

/-- The comparison inside blocks goes first by the kind: communications by their types, events,
callers and the lines of callers. -/
def inBlockLevel : Kind → Nat
  | .communication .logicalRecv _ => 0
  | .communication .logicalSend _ => 1
  | .communication .physicalSend _ => 2
  | .communication .physicalRecv _ => 3
  | .event content =>
      if isPlain content then 4
      else if isCaller (getFirstType content) then 5
      else 6
  | _ => 7

def inBlockInner : Kind → Kind → Bool
  | .communication _ traceOrder, .communication _ traceOrder' => traceOrder < traceOrder'
  | .event content, .event content' => isPlain content && isPlain content' &&
      probeLess (plainProbe content, getFirstTraceOrder content)
        (plainProbe content', getFirstTraceOrder content')
  | _, _ => false

theorem isCallerLine_of_isCaller {type : Int} (h : isCaller type = true) :
    isCallerLine type = false := by
  simp only [isCaller, isCallerLine, Bool.and_eq_true, decide_eq_true_eq, Bool.and_eq_false_iff,
    decide_eq_false_iff_not] at h ⊢
  omega

theorem inBlockEvents_eq (content content' : Content) :
    inBlockEvents content content' =
      lexBy inBlockLevel inBlockInner (.event content) (.event content') := by
  by_cases hplain : isPlain content = true
  · by_cases hplain' : isPlain content' = true
    · have hcallers := hplain
      have hcallers' := hplain'
      simp only [isPlain, Bool.and_eq_true, Bool.not_eq_true'] at hcallers hcallers'
      rw [inBlockEvents_eq_of_plain hcallers.1 hcallers.2 hcallers'.1 hcallers'.2]
      simp [lexBy, inBlockLevel, inBlockInner, hplain, hplain']
    · have hcallers := hplain
      have hcallers' := hplain'
      simp only [isPlain, Bool.and_eq_true, Bool.not_eq_true'] at hcallers
      simp only [isPlain, Bool.and_eq_true, Bool.not_eq_true', not_and_or,
        Bool.not_eq_false] at hcallers'
      have hany :
          (isCaller (getFirstType content') || isCallerLine (getFirstType content')) = true := by
        simpa using hcallers'
      simp only [inBlockEvents, hcallers, hany, lexBy, inBlockLevel, hplain, hplain', Bool.false_and,
        Bool.or_self, Bool.false_eq_true, if_false, if_true]
      split <;> simp
  · have hcallers := hplain
    simp only [isPlain, Bool.and_eq_true, Bool.not_eq_true', not_and_or,
      Bool.not_eq_false] at hcallers
    have hany : (isCaller (getFirstType content) || isCallerLine (getFirstType content)) = true := by
      simpa using hcallers
    by_cases hcaller : isCaller (getFirstType content) = true
    · by_cases hline' : isCallerLine (getFirstType content') = true
      · have hcaller' : isCaller (getFirstType content') = false := by
          by_contra hc
          rw [isCallerLine_of_isCaller (Bool.of_not_eq_false hc)] at hline'
          exact absurd hline' Bool.false_ne_true
        simp [inBlockEvents, lexBy, inBlockLevel, isPlain, hcaller, hline', hcaller']
      · by_cases hcaller' : isCaller (getFirstType content') = true <;>
          simp [inBlockEvents, lexBy, inBlockLevel, inBlockInner, isPlain, hcaller, hline', hcaller']
    · have hline : isCallerLine (getFirstType content) = true := hcallers.resolve_left hcaller
      by_cases hcaller' : isCaller (getFirstType content') = true
      · have hline' := isCallerLine_of_isCaller hcaller'
        simp [inBlockEvents, lexBy, inBlockLevel, isPlain, hcaller, hline, hline', hcaller']
      · by_cases hline' : isCallerLine (getFirstType content') = true <;>
          simp [inBlockEvents, lexBy, inBlockLevel, inBlockInner, isPlain, hcaller, hline, hline',
            hcaller']

theorem inBlockLevel_communication (type : CommunicationType) (n : Nat) :
    inBlockLevel (.communication type n) ≤ 3 := by
  cases type <;> simp [inBlockLevel]

theorem inBlockLevel_event (content : Content) : 4 ≤ inBlockLevel (.event content) := by
  rw [inBlockLevel]
  split_ifs <;> decide

theorem isPlain_of_inBlockLevel {content : Content} (h : inBlockLevel (.event content) = 4) :
    isPlain content = true := by
  by_contra hplain
  rw [inBlockLevel, if_neg hplain] at h
  split_ifs at h <;> omega

theorem inBlockKinds_eq {a b : Kind} (ha : a ≠ .globalOp ∧ a ≠ .state)
    (hb : b ≠ .globalOp ∧ b ≠ .state) :
    inBlockKinds a b = lexBy inBlockLevel inBlockInner a b := by
  cases a with
  | globalOp => exact absurd rfl ha.1
  | state => exact absurd rfl ha.2
  | event content =>
      cases b with
      | globalOp => exact absurd rfl hb.1
      | state => exact absurd rfl hb.2
      | event content' => exact inBlockEvents_eq content content'
      | communication type' n' =>
          have hlevel := inBlockLevel_communication type' n'
          have hlevel' := inBlockLevel_event content
          rw [lexBy, if_neg (by omega)]
          exact (decide_eq_false (by omega)).symm
  | communication type n =>
      cases b with
      | globalOp => exact absurd rfl hb.1
      | state => exact absurd rfl hb.2
      | event content' =>
          have hlevel := inBlockLevel_communication type n
          have hlevel' := inBlockLevel_event content'
          rw [lexBy, if_neg (by omega)]
          exact (decide_eq_true (by omega)).symm
      | communication type' n' =>
          cases type <;> cases type' <;>
            simp [inBlockKinds, inBlockCommunications, lexBy, inBlockLevel, inBlockInner]

section

variable {kinds : Set Kind}

theorem strictWeakOn_inBlockEvents :
    StrictWeakOn inBlockEvents {content | Kind.event content ∈ kinds ∧ isPlain content = true} ↔
      ProbesInOrder (probesIn kinds) := by
  have himage : (fun content => (plainProbe content, getFirstTraceOrder content)) ''
      {content | Kind.event content ∈ kinds ∧ isPlain content = true} = probesIn kinds := by
    ext p
    constructor
    · rintro ⟨content, ⟨hmem, hplain⟩, rfl⟩
      simp only [isPlain, Bool.and_eq_true, Bool.not_eq_true'] at hplain
      exact ⟨content, hmem, hplain.1, hplain.2, rfl⟩
    · rintro ⟨content, hmem, hcaller, hline, rfl⟩
      exact ⟨content, ⟨hmem, by simp [isPlain, hcaller, hline]⟩, rfl⟩
  rw [← strictWeakOn_probeLess, ← himage, ← strictWeakOn_image]
  refine strictWeakOn_congr fun content hc content' hc' => ?_
  have hplain := hc.2
  have hplain' := hc'.2
  simp only [isPlain, Bool.and_eq_true, Bool.not_eq_true'] at hplain hplain'
  exact inBlockEvents_eq_of_plain hplain.1 hplain.2 hplain'.1 hplain'.2

theorem inBlockInner_asymm {a b : Kind} (h : inBlockInner a b = true) :
    inBlockInner b a = false := by
  cases a <;> cases b <;> simp only [inBlockInner, Bool.and_eq_true, Bool.false_eq_true] at h ⊢
  · rw [probeLess_asymm h.2, Bool.and_false]
  · simp only [decide_eq_true_eq, decide_eq_false_iff_not] at h ⊢
    omega

theorem InBlockOrderable.inner (h : InBlockOrderable kinds) (level : Nat) :
    StrictWeakOn inBlockInner {a | a ∈ kinds ∧ inBlockLevel a = level} := by
  rw [strictWeakOn_iff]
  constructor
  · intro a _ b _
    exact inBlockInner_asymm
  · rintro a ⟨ha, hla⟩ b ⟨hb, hlb⟩ c ⟨hc, hlc⟩ hac
    cases a with
    | globalOp => exact absurd ha h.globalOps
    | state => exact absurd ha h.states
    | communication type n =>
        cases c with
        | communication type' n' =>
            cases b with
            | globalOp => exact absurd hb h.globalOps
            | state => exact absurd hb h.states
            | event content =>
                have hlevel := inBlockLevel_communication type n
                have hlevel' := inBlockLevel_event content
                omega
            | communication middle m =>
                simp only [inBlockInner, decide_eq_true_eq] at hac ⊢
                omega
        | _ => exact absurd hac Bool.false_ne_true
    | event content =>
        cases c with
        | event content' =>
            simp only [inBlockInner, Bool.and_eq_true] at hac
            obtain ⟨⟨hplain, hplain'⟩, hless⟩ := hac
            have hlevel : inBlockLevel (.event content) = 4 := by rw [inBlockLevel, if_pos hplain]
            cases b with
            | globalOp => exact absurd hb h.globalOps
            | state => exact absurd hb h.states
            | communication middle m =>
                have hlevel' := inBlockLevel_communication middle m
                omega
            | event middle =>
                have hmiddle := isPlain_of_inBlockLevel (hlb.trans (hla.symm.trans hlevel))
                simp only [inBlockInner, hplain, hplain', hmiddle, Bool.true_and]
                have hmem (d : Content) (hd : Kind.event d ∈ kinds) (hp : isPlain d = true) :
                    (plainProbe d, getFirstTraceOrder d) ∈ probesIn kinds := by
                  simp only [isPlain, Bool.and_eq_true, Bool.not_eq_true'] at hp
                  exact ⟨d, hd, hp.1, hp.2, rfl⟩
                exact h.probes.lt_or_lt (hmem content ha hplain) (hmem middle hb hmiddle)
                  (hmem content' hc hplain') hless
        | _ => exact absurd hac Bool.false_ne_true

theorem strictWeakOn_inBlockKinds :
    StrictWeakOn inBlockKinds kinds ↔ InBlockOrderable kinds := by
  constructor
  · intro h
    refine ⟨fun hmem => absurd (h.irrefl _ hmem) (by simp [inBlockKinds]),
      fun hmem => absurd (h.irrefl _ hmem) (by simp [inBlockKinds]), ?_⟩
    exact strictWeakOn_inBlockEvents.mp ((strictWeakOn_events h).mono fun _ hc => hc.1)
  · intro h
    have hkinds (a : Kind) (ha : a ∈ kinds) : a ≠ .globalOp ∧ a ≠ .state :=
      ⟨fun heq => h.globalOps (heq ▸ ha), fun heq => h.states (heq ▸ ha)⟩
    apply (strictWeakOn_congr fun a ha b hb => inBlockKinds_eq (hkinds a ha) (hkinds b hb)).mpr
    exact (strictWeakOn_lexBy inBlockLevel).mpr h.inner

end

/-! ## The sort of a trace -/

/-- The order of the types, by the time, the application, the task, the thread and the CPU. -/
def lessByKeys (r₁ r₂ : SortRecord) : Bool :=
  lexBy (fun r => r.timestamp.toNat) (lexBy (fun r => r.ptask.toInt) (lexBy (fun r => r.task.toInt)
    (lexBy (fun r => r.thread.toInt) (lexBy (fun r => r.cpu.toInt)
      fun r r' => lessType r.type r'.type)))) r₁ r₂

theorem branch_int32 (x y : Int32) (rest : Bool) :
    (if x < y then true else if x > y then false else rest) =
      if x.toInt = y.toInt then rest else decide (x.toInt < y.toInt) := by
  have hlt : x < y ↔ x.toInt < y.toInt := Int32.lt_iff_toInt_lt
  have hgt : y < x ↔ y.toInt < x.toInt := Int32.lt_iff_toInt_lt
  by_cases heq : x.toInt = y.toInt
  · rw [if_pos heq, if_neg (by rw [hlt]; omega), if_neg (by rw [GT.gt, hgt]; omega)]
  · rw [if_neg heq]
    by_cases h : x.toInt < y.toInt
    · rw [if_pos (hlt.mpr h), decide_eq_true h]
    · rw [if_neg (by rwa [hlt]), if_pos (hgt.mpr (by omega)), decide_eq_false h]

theorem lessRecord_eq (r₁ r₂ : SortRecord) : lessRecord r₁ r₂ = lessByKeys r₁ r₂ := by
  have hlt : r₁.timestamp < r₂.timestamp ↔ r₁.timestamp.toNat < r₂.timestamp.toNat :=
    UInt64.lt_iff_toNat_lt
  have hgt : r₂.timestamp < r₁.timestamp ↔ r₂.timestamp.toNat < r₁.timestamp.toNat :=
    UInt64.lt_iff_toNat_lt
  unfold lessRecord less lessByKeys
  simp only [branch_int32]
  rw [lexBy]
  by_cases heq : r₁.timestamp.toNat = r₂.timestamp.toNat
  · rw [if_pos heq, if_neg (by rw [hlt]; omega), if_neg (by rw [GT.gt, hgt]; omega)]
    rfl
  · rw [if_neg heq]
    by_cases h : r₁.timestamp.toNat < r₂.timestamp.toNat
    · rw [if_pos (hlt.mpr h), decide_eq_true h]
    · rw [if_neg (by rwa [hlt]), if_pos (hgt.mpr (by omega)), decide_eq_false h]

/-- Neither events nor running states, of which one is smaller than another of its kind. -/
def NoTies (B : Set SortRecord) : Prop :=
  ∀ r ∈ B, r.type = prvState ∨ r.type = prvComm

theorem strictWeakOn_lessType {B : Set SortRecord} (h : NoTies B) :
    StrictWeakOn (fun r r' : SortRecord => lessType r.type r'.type) B := by
  have hkey := strictWeakOn_key (S := B) fun r => if r.type = prvState then 0 else 1
  refine (strictWeakOn_congr fun r hr r' hr' => ?_).mp hkey
  rcases h r hr with hr | hr <;> rcases h r' hr' with hr' | hr' <;> rw [hr, hr'] <;> decide

theorem strictWeakOn_lessRecord {B : Set SortRecord} :
    StrictWeakOn lessRecord B ↔ NoTies B := by
  rw [strictWeakOn_congr fun r _ r' _ => lessRecord_eq r r']
  constructor
  · intro h r hr
    have hself := h.irrefl r hr
    simp only [lessByKeys, lexBy, if_true] at hself
    rcases r.known with hk | hk | hk | hk
    · rw [hk] at hself
      exact absurd hself (by decide)
    · exact .inl hk
    · rw [hk] at hself
      exact absurd hself (by decide)
    · exact .inr hk
  · intro h
    apply (strictWeakOn_lexBy _).mpr
    intro time
    apply (strictWeakOn_lexBy _).mpr
    intro ptask
    apply (strictWeakOn_lexBy _).mpr
    intro task
    apply (strictWeakOn_lexBy _).mpr
    intro thread
    apply (strictWeakOn_lexBy _).mpr
    intro cpu
    exact strictWeakOn_lessType fun r hr => h r hr.1.1.1.1.1

/-! ## The three comparisons -/

section

variable {S : Set ParaverRecord}

theorem strictWeakOn_timestamps {lt : Kind → Kind → Bool} :
    StrictWeakOn (lexBy ParaverRecord.timestamp fun r r' => lt r.kind r'.kind) S ↔
      ∀ timestamp, StrictWeakOn lt (kindsAt S timestamp) := by
  rw [strictWeakOn_lexBy]
  refine forall_congr' fun timestamp => ?_
  have himage : ParaverRecord.kind '' {r | r ∈ S ∧ r.timestamp = timestamp} =
      kindsAt S timestamp := by
    ext kind
    constructor
    · rintro ⟨r, ⟨hmem, rfl⟩, rfl⟩
      exact hmem
    · intro hmem
      exact ⟨⟨timestamp, kind⟩, ⟨hmem, rfl⟩, rfl⟩
  rw [← himage]
  exact strictWeakOn_image ParaverRecord.kind

theorem strictWeakOn_outBlockComparison :
    StrictWeakOn outBlockComparison S ↔ ∀ timestamp, OutBlockOrderable (kindsAt S timestamp) := by
  have hlex (r r' : ParaverRecord) : outBlockComparison r r' =
      lexBy ParaverRecord.timestamp (fun r r' => outBlockKinds r.kind r'.kind) r r' := by
    rw [outBlockComparison, lexBy, ite_not]
  rw [strictWeakOn_congr fun r _ r' _ => hlex r r', strictWeakOn_timestamps]
  exact forall_congr' fun _ => strictWeakOn_outBlockKinds

theorem strictWeakOn_inBlockComparison :
    StrictWeakOn inBlockComparison S ↔ ∀ timestamp, InBlockOrderable (kindsAt S timestamp) := by
  have hlex (r r' : ParaverRecord) : inBlockComparison r r' =
      lexBy ParaverRecord.timestamp (fun r r' => inBlockKinds r.kind r'.kind) r r' := by
    rw [inBlockComparison, lexBy, ite_not]
  rw [strictWeakOn_congr fun r _ r' _ => hlex r r', strictWeakOn_timestamps]
  exact forall_congr' fun _ => strictWeakOn_inBlockKinds

/-- The three comparisons are strict weak orders on the records of a stack and of a sort buffer
exactly if the records of every time can be ordered, and there are neither events nor running states
in the buffer. -/
theorem comparisons_strictWeak_iff (S : Set ParaverRecord) (B : Set SortRecord) :
    StrictWeakOn outBlockComparison S ∧ StrictWeakOn inBlockComparison S ∧
        StrictWeakOn lessRecord B ↔
      (∀ timestamp, OutBlockOrderable (kindsAt S timestamp) ∧
        InBlockOrderable (kindsAt S timestamp)) ∧ NoTies B := by
  rw [strictWeakOn_outBlockComparison, strictWeakOn_inBlockComparison, strictWeakOn_lessRecord,
    forall_and, and_assoc]

end

def globalOpRecord : ParaverRecord := ⟨10, .globalOp⟩

def threeSends : Set ParaverRecord :=
  {⟨10, .communication .logicalSend 0⟩, ⟨10, .communication .physicalSend 0⟩,
    ⟨10, .communication .physicalRecv 0⟩}

def eventRecord : SortRecord :=
  { type := prvEvent, cpu := 0, ptask := 0, task := 0, thread := 0, timestamp := 10
    asciiRecord := ⟨['1'], List.cons_ne_nil _ _, List.forall_mem_singleton.mpr rfl⟩
    known := .inl rfl }

theorem not_comparisons_strictWeak :
    ¬ StrictWeakOn outBlockComparison {globalOpRecord} ∧
      ¬ StrictWeakOn inBlockComparison {globalOpRecord} ∧
      ¬ StrictWeakOn outBlockComparison threeSends ∧ ¬ StrictWeakOn lessRecord {eventRecord} := by
  refine ⟨?_, ?_, ?_, ?_⟩
  · intro h
    exact absurd (h.irrefl globalOpRecord rfl) (by decide)
  · intro h
    exact absurd (h.irrefl globalOpRecord rfl) (by decide)
  · intro h
    have htrans := h.trans ⟨10, .communication .logicalSend 0⟩ (by simp [threeSends])
      ⟨10, .communication .physicalSend 0⟩ (by simp [threeSends])
      ⟨10, .communication .physicalRecv 0⟩ (by simp [threeSends]) (by decide) (by decide)
    exact absurd htrans (by decide)
  · intro h
    exact absurd (h.irrefl eventRecord rfl) (by decide)

end Dimemas.Prv2dim.RecordOrder
