import Mathlib

/-!
# Ripple.Core.JobQueue

The job queue with its pool of worker threads. A job waits in `m_jobSet`; the pool's semaphore counts
the tasks that wait for a thread. A thread that obtained a task takes the first job in the order of
the set whose type runs below its limit, so it need not be the job whose arrival posted the task.

What runs under `m_mutex` is one step here, so the states are those with the mutex free. The counters
are unbounded numbers.
-/

namespace Ripple.Core

inductive JobType where
  | jtPACK
  | jtPUBOLDLEDGER
  | jtVALIDATION_ut
  | jtTRANSACTION_l
  | jtLEDGER_REQ
  | jtPROPOSAL_ut
  | jtLEDGER_DATA
  | jtCLIENT
  | jtRPC
  | jtUPDATE_PF
  | jtTRANSACTION
  | jtBATCH
  | jtADVANCE
  | jtPUBLEDGER
  | jtTXN_DATA
  | jtWAL
  | jtVALIDATION_t
  | jtWRITE
  | jtACCEPT
  | jtPROPOSAL_t
  | jtSWEEP
  | jtNETOP_CLUSTER
  | jtNETOP_TIMER
  | jtADMIN
  -- types that the pool does not dispatch
  | jtPEER
  | jtDISK
  | jtTXN_PROC
  | jtOB_SETUP
  | jtPATH_FIND
  | jtHO_READ
  | jtHO_WRITE
  | jtGENERIC
  | jtNS_SYNC_READ
  | jtNS_ASYNC_READ
  | jtNS_WRITE
deriving DecidableEq, Repr

namespace JobType

/-- The place in the enumeration is the priority. -/
instance : LinearOrder JobType :=
  LinearOrder.lift' JobType.ctorIdx fun a b h => by
    rw [← ofNat_ctorIdx a, h, ofNat_ctorIdx]

instance : Fintype JobType where
  elems := (Finset.range 35).image JobType.ofNat
  complete t := by cases t <;> decide

def maxLimit : Nat := 2 ^ 31 - 1

def limit : JobType → Nat
  | jtPACK | jtTXN_DATA | jtNETOP_CLUSTER | jtNETOP_TIMER => 1
  | jtPUBOLDLEDGER | jtLEDGER_REQ | jtLEDGER_DATA => 2
  | jtVALIDATION_ut | jtTRANSACTION_l | jtPROPOSAL_ut | jtCLIENT | jtRPC | jtUPDATE_PF
  | jtTRANSACTION | jtBATCH | jtADVANCE | jtPUBLEDGER | jtWAL | jtVALIDATION_t | jtWRITE | jtACCEPT
  | jtPROPOSAL_t | jtSWEEP | jtADMIN => maxLimit
  | jtPEER | jtDISK | jtTXN_PROC | jtOB_SETUP | jtPATH_FIND | jtHO_READ | jtHO_WRITE | jtGENERIC
  | jtNS_SYNC_READ | jtNS_ASYNC_READ | jtNS_WRITE => 0

end JobType

structure Job where
  mType : JobType
  mJobIndex : Nat
deriving DecidableEq, Repr

namespace Job

/-- `operator<`: the higher type comes first, and within a type the lower index. -/
instance : LinearOrder Job :=
  LinearOrder.lift' (fun j => toLex (OrderDual.toDual j.mType, j.mJobIndex)) fun a b h => by
    cases a
    cases b
    simpa using h

theorem le_iff {a b : Job} :
    a ≤ b ↔ b.mType < a.mType ∨ a.mType = b.mType ∧ a.mJobIndex ≤ b.mJobIndex := by
  change toLex (OrderDual.toDual a.mType, a.mJobIndex) ≤ toLex (OrderDual.toDual b.mType, b.mJobIndex) ↔ _
  simp [Prod.Lex.le_iff]

end Job

structure JobTypeData where
  waiting : Int
  running : Int
  deferred : Int
deriving DecidableEq, Repr

inductive Place where
  /-- In the semaphore's `wait`. -/
  | waiting
  /-- Past it, before `m_pauseCount` is read. -/
  | obtained
  /-- A pause request was seen and will be claimed. -/
  | claiming
  /-- Another thread was faster; the decrement will be undone. -/
  | undoing
  /-- Before the critical section of `getNextJob`. -/
  | task
  | running (job : Job)
  | paused
deriving DecidableEq, Repr

variable {Thread : Type}

structure System (Thread : Type) where
  m_lastJob : Nat
  m_jobSet : Finset Job
  m_jobData : JobType → JobTypeData
  m_processCount : Int
  m_semaphore : Nat
  m_pauseCount : Int
  threads : Thread → Place

namespace System

def initial : System Thread where
  m_lastJob := 0
  m_jobSet := ∅
  m_jobData _ := ⟨0, 0, 0⟩
  m_processCount := 0
  m_semaphore := 0
  m_pauseCount := 0
  threads _ := .waiting

variable (limit : JobType → Nat) (s : System Thread)

def addTask : System Thread := { s with m_semaphore := s.m_semaphore + 1 }

variable (type : JobType)

def setData (data : JobTypeData) : System Thread :=
  { s with m_jobData := Function.update s.m_jobData type data }

def queueJob (job : Job) : System Thread :=
  let data := s.m_jobData job.mType
  if data.waiting + data.running < limit job.mType then
    s.addTask.setData job.mType { data with waiting := data.waiting + 1 }
  else
    -- deferred until a job of its type finishes
    s.setData job.mType { data with waiting := data.waiting + 1, deferred := data.deferred + 1 }

def nextJob : Job := ⟨type, s.m_lastJob + 1⟩

def addRefCountedJob : System Thread :=
  let job := s.nextJob type
  { s with m_lastJob := s.m_lastJob + 1, m_jobSet := insert job s.m_jobSet }.queueJob limit job

/-- `none` when the search runs off the end of the set, where the source asserts. -/
def getNextJob : Option (Job × System Thread) :=
  match (s.m_jobSet.sort (· ≤ ·)).find? fun job =>
      (s.m_jobData job.mType).running < limit job.mType with
  | none => none
  | some job =>
    let data := s.m_jobData job.mType
    some (job, { s with m_jobSet := s.m_jobSet.erase job }.setData job.mType
      { data with waiting := data.waiting - 1, running := data.running + 1 })

def finishJob : System Thread :=
  let data := s.m_jobData type
  if data.deferred > 0 then
    s.addTask.setData type { data with running := data.running - 1, deferred := data.deferred - 1 }
  else s.setData type { data with running := data.running - 1 }

variable [DecidableEq Thread] (w : Thread)

def move (place : Place) : System Thread :=
  { s with threads := Function.update s.threads w place }

/-- The first critical section of `processTask`. -/
def startTask : Option (Job × System Thread) :=
  match s.getNextJob limit with
  | none => none
  | some (job, s') =>
    some (job, { s' with m_processCount := s'.m_processCount + 1 }.move w (.running job))

/-- The second one, after the job was done. -/
def endTask (type : JobType) : System Thread :=
  let s' := s.finishJob type
  { s' with m_processCount := s'.m_processCount - 1 }.move w .waiting

/-- A thread's next step in `Worker::run`, apart from taking a job. -/
def work : Option (System Thread) :=
  match s.threads w with
  | .waiting =>
    if s.m_semaphore = 0 then none
    else some ({ s with m_semaphore := s.m_semaphore - 1 }.move w .obtained)
  | .obtained => some (s.move w (if s.m_pauseCount > 0 then .claiming else .task))
  | .claiming =>
    let s' := { s with m_pauseCount := s.m_pauseCount - 1 }
    some (s'.move w (if s'.m_pauseCount ≥ 0 then .paused else .undoing))
  | .undoing => some ({ s with m_pauseCount := s.m_pauseCount + 1 }.move w .task)
  | .task => none
  | .running job => some (s.endTask w job.mType)
  | .paused => none

end System

def queued (limit : JobType → Nat) (type : JobType) (data : JobTypeData) : JobTypeData :=
  { data with
    waiting := data.waiting + 1
    deferred := if data.waiting + data.running < limit type then data.deferred else data.deferred + 1 }

def taken (data : JobTypeData) : JobTypeData :=
  { data with waiting := data.waiting - 1, running := data.running + 1 }

def finished (data : JobTypeData) : JobTypeData :=
  { data with
    running := data.running - 1
    deferred := if data.deferred > 0 then data.deferred - 1 else data.deferred }

section

variable {limit : JobType → Nat} {s : System Thread} {job : Job} {type : JobType}

namespace System

theorem queueJob_eq : s.queueJob limit job =
    { s with
      m_semaphore := s.m_semaphore + if (s.m_jobData job.mType).waiting +
        (s.m_jobData job.mType).running < limit job.mType then 1 else 0
      m_jobData := Function.update s.m_jobData job.mType
        (queued limit job.mType (s.m_jobData job.mType)) } := by
  unfold queueJob
  split
  · rename_i h
    simp [addTask, setData, queued, h]
  · rename_i h
    simp [setData, queued, h]

theorem addRefCountedJob_eq : s.addRefCountedJob limit type =
    { s with
      m_lastJob := s.m_lastJob + 1
      m_jobSet := insert (s.nextJob type) s.m_jobSet
      m_semaphore := s.m_semaphore + if (s.m_jobData type).waiting +
        (s.m_jobData type).running < limit type then 1 else 0
      m_jobData := Function.update s.m_jobData type (queued limit type (s.m_jobData type)) } :=
  queueJob_eq

theorem finishJob_eq : s.finishJob type =
    { s with
      m_semaphore := s.m_semaphore + if (s.m_jobData type).deferred > 0 then 1 else 0
      m_jobData := Function.update s.m_jobData type (finished (s.m_jobData type)) } := by
  unfold finishJob
  split
  · rename_i h
    simp [addTask, setData, finished, h]
  · rename_i h
    simp [setData, finished, h]

theorem getNextJob_eq_some {s' : System Thread} (h : s.getNextJob limit = some (job, s')) :
    job ∈ s.m_jobSet ∧ (s.m_jobData job.mType).running < limit job.mType ∧
    (∀ other ∈ s.m_jobSet, (s.m_jobData other.mType).running < limit other.mType → job ≤ other) ∧
    s' = { s with
      m_jobSet := s.m_jobSet.erase job
      m_jobData := Function.update s.m_jobData job.mType (taken (s.m_jobData job.mType)) } := by
  unfold getNextJob at h
  split at h
  · cases h
  · rename_i next hfound
    obtain ⟨rfl, rfl⟩ : next = job ∧ _ = s' := by simpa using h
    obtain ⟨hroom, before, after, hsplit, hbefore⟩ := List.find?_eq_some_iff_append.mp hfound
    have hmem : ∀ x, x ∈ s.m_jobSet ↔ x ∈ before ∨ x = next ∨ x ∈ after := by
      intro x
      rw [← Finset.mem_sort (· ≤ ·), hsplit]
      simp
    have hsorted := s.m_jobSet.pairwise_sort (· ≤ ·)
    rw [hsplit, List.pairwise_append, List.pairwise_cons] at hsorted
    refine ⟨(hmem _).mpr (.inr (.inl rfl)), by simpa using hroom, ?_, rfl⟩
    intro other hother hbelow
    rcases (hmem other).mp hother with hother | rfl | hother
    · exact absurd hbelow (by simpa using hbefore other hother)
    · exact le_refl _
    · exact hsorted.2.1.1 other hother

theorem getNextJob_isSome (hjob : job ∈ s.m_jobSet)
    (hroom : (s.m_jobData job.mType).running < limit job.mType) :
    ∃ next s', s.getNextJob limit = some (next, s') := by
  unfold getNextJob
  split
  · rename_i hnone
    rw [List.find?_eq_none] at hnone
    have hnot := hnone job ((Finset.mem_sort _).mpr hjob)
    simp [hroom] at hnot
  · exact ⟨_, _, rfl⟩

end System

end

/-- Calls of `addRefCountedJob` and steps of the threads lead to `s`; jobs made and taken, newest
first. -/
inductive Run [DecidableEq Thread] (limit : JobType → Nat) :
    List Job → List Job → System Thread → Prop where
  | start : Run limit [] [] .initial
  | add {added started s} (type : JobType) : Run limit added started s → 1 ≤ limit type →
      Run limit (s.nextJob type :: added) started (s.addRefCountedJob limit type)
  | work {added started s s'} (w : Thread) : Run limit added started s → s.work w = some s' →
      Run limit added started s'
  | take {added started s s'} (w : Thread) {job : Job} : Run limit added started s →
      s.threads w = .task → s.startTask limit w = some (job, s') →
      Run limit added (job :: started) s'

variable {limit : JobType → Nat} {s s' : System Thread} {w : Thread} {job : Job} {type : JobType}

/-- The jobs made so far are those in the queue and those started, each once. -/
structure Recorded (added started : List Job) (s : System Thread) : Prop where
  distinct : added.Nodup
  once : started.Nodup
  accounted : ∀ job, job ∈ added ↔ job ∈ s.m_jobSet ∨ job ∈ started
  apart : ∀ job ∈ started, job ∉ s.m_jobSet
  older : ∀ job ∈ added, job.mJobIndex ≤ s.m_lastJob

namespace Recorded

variable {added started : List Job}

theorem add (h : Recorded added started s) :
    Recorded (s.nextJob type :: added) started (s.addRefCountedJob limit type) := by
  have hnew : s.nextJob type ∉ added := by
    intro hmem
    have hle := h.older _ hmem
    simp only [System.nextJob] at hle
    omega
  rw [System.addRefCountedJob_eq]
  constructor
  case distinct => exact List.nodup_cons.mpr ⟨hnew, h.distinct⟩
  case once => exact h.once
  case accounted =>
    intro job
    simp only [List.mem_cons, Finset.mem_insert, h.accounted job]
    tauto
  case apart =>
    intro job hjob hmem
    rcases Finset.mem_insert.mp hmem with rfl | hmem
    · exact hnew ((h.accounted _).mpr (.inr hjob))
    · exact h.apart job hjob hmem
  case older =>
    intro job hjob
    rcases List.mem_cons.mp hjob with rfl | hjob
    · exact le_refl _
    · exact Nat.le_succ_of_le (h.older job hjob)

theorem startTask [DecidableEq Thread] (h : Recorded added started s)
    (hs : s.startTask limit w = some (job, s')) : Recorded added (job :: started) s' := by
  unfold System.startTask at hs
  split at hs
  · cases hs
  · rename_i next s₁ hnext
    obtain ⟨hmem, -, -, rfl⟩ := System.getNextJob_eq_some hnext
    obtain ⟨rfl, rfl⟩ : next = job ∧ _ = s' := by simpa using hs
    constructor
    case distinct => exact h.distinct
    case once => exact List.nodup_cons.mpr ⟨fun hold => h.apart next hold hmem, h.once⟩
    case accounted =>
      intro other
      simp only [h.accounted other, System.move, Finset.mem_erase, List.mem_cons]
      by_cases heq : other = next
      · simp [heq, hmem]
      · simp [heq]
    case apart =>
      intro other hother hleft
      rcases List.mem_cons.mp hother with rfl | hother
      · exact Finset.notMem_erase _ _ hleft
      · exact h.apart other hother (Finset.mem_of_mem_erase hleft)
    case older => exact h.older

end Recorded

theorem System.work_frame [DecidableEq Thread] (h : s.work w = some s') :
    s'.m_jobSet = s.m_jobSet ∧ s'.m_lastJob = s.m_lastJob := by
  unfold System.work at h
  cases hw : s.threads w with
  | waiting =>
    simp only [hw] at h
    split at h
    · cases h
    · cases h
      exact ⟨rfl, rfl⟩
  | task | paused => simp [hw] at h
  | running job =>
    simp only [hw] at h
    cases h
    unfold System.endTask
    rw [System.finishJob_eq]
    exact ⟨rfl, rfl⟩
  | _ =>
    simp only [hw] at h
    cases h
    exact ⟨rfl, rfl⟩

theorem Run.recorded [DecidableEq Thread] {added started : List Job} (h : Run limit added started s) :
    Recorded added started s := by
  induction h with
  | start =>
    exact ⟨.nil, .nil, by simp [System.initial], by simp, by simp⟩
  | add type _ hlimit ih => exact ih.add
  | work w _ hs ih =>
    obtain ⟨hjobs, hlast⟩ := System.work_frame hs
    exact ⟨ih.distinct, ih.once, by simpa [hjobs] using ih.accounted, by simpa [hjobs] using ih.apart,
      by simpa [hlast] using ih.older⟩
  | take w _ hw hs ih => exact ih.startTask hs

end Ripple.Core
