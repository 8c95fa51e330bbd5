import Ripple.Core.JobQueue

/-!
# Ripple.Core.JobAccounting

The counters of the job queue against what they count. `room` is the number of waiting jobs of a type
that the limit lets run, and the deferred jobs are the rest of the waiting ones. A task is pending,
or held by a thread on its way to `getNextJob`, for every job that has room (`Accounted.tasks`),
whatever type the task was posted for. This is what makes the search in `getNextJob` succeed.

* `Accounted`: the invariant. `Accounted.add`, `Accounted.work` and `Accounted.take` keep it.
-/

namespace Ripple.Core

open Finset

theorem sum_update {ι α : Type} [Fintype ι] [DecidableEq ι] (f : ι → α → Int) (g : ι → α) (k : ι)
    (v : α) : ∑ i, f i (Function.update g k v i) = ∑ i, f i (g i) - f k (g k) + f k v := by
  have hrest : ∑ i ∈ Finset.univ.erase k, f i (Function.update g k v i) =
      ∑ i ∈ Finset.univ.erase k, f i (g i) := by
    refine sum_congr rfl fun i hi => ?_
    rw [Function.update_of_ne (ne_of_mem_erase hi)]
  rw [← add_sum_erase _ _ (mem_univ k), hrest, Function.update_self,
    ← add_sum_erase _ (fun i => f i (g i)) (mem_univ k)]
  ring

section Counters

variable (limit : JobType → Nat)

def room (type : JobType) (data : JobTypeData) : Int :=
  min data.waiting (limit type - data.running)

/-- The counters of one type: as many jobs are deferred as do not fit below the limit. -/
structure Balanced (type : JobType) (data : JobTypeData) : Prop where
  deferred : data.deferred = max 0 (data.waiting + data.running - limit type)
  below : data.running ≤ limit type

end Counters

variable {Thread : Type}

def Place.runs (type : JobType) : Place → Bool
  | .running job => job.mType = type
  | _ => false

def Place.holdsTask : Place → Bool
  | .obtained | .task => true
  | _ => false

def Place.steady : Place → Bool
  | .claiming | .undoing | .paused => false
  | _ => true

def ofType (jobs : Finset Job) (type : JobType) : Finset Job :=
  jobs.filter fun job => job.mType = type

theorem ofType_insert {jobs : Finset Job} {job : Job} (h : job ∉ jobs) (type : JobType) :
    ((ofType (insert job jobs) type).card : Int) =
      (ofType jobs type).card + if job.mType = type then 1 else 0 := by
  rw [ofType, filter_insert]
  split
  · rw [card_insert_of_notMem fun hmem => h (mem_of_mem_filter _ hmem)]
    simp [ofType]
  · simp [ofType]

theorem ofType_erase {jobs : Finset Job} {job : Job} (h : job ∈ jobs) (type : JobType) :
    ((ofType (jobs.erase job) type).card : Int) =
      (ofType jobs type).card - if job.mType = type then 1 else 0 := by
  have hinsert := ofType_insert (notMem_erase job jobs) type
  rw [insert_erase h] at hinsert
  omega

section Threads

variable [Fintype Thread] {threads : Thread → Place} {p : Place → Bool}

def threadsAt (threads : Thread → Place) (p : Place → Bool) : Int :=
  ∑ w, if p (threads w) then 1 else 0

theorem threadsAt_pos {w : Thread} (h : p (threads w) = true) : 0 < threadsAt threads p := by
  refine sum_pos' (fun w _ => ?_) ⟨w, mem_univ w, by simp [h]⟩
  split
  · exact Int.one_nonneg
  · exact le_refl 0

theorem threadsAt_eq_zero (h : ∀ w, p (threads w) = false) : threadsAt threads p = 0 :=
  sum_eq_zero fun w _ => by simp [h w]

theorem threadsAt_update [DecidableEq Thread] (w : Thread) (place : Place) :
    threadsAt (Function.update threads w place) p =
      threadsAt threads p - (if p (threads w) then 1 else 0) + if p place then 1 else 0 :=
  sum_update (fun _ place => if p place then 1 else 0) threads w place

end Threads

variable [Fintype Thread] (limit : JobType → Nat)

structure Accounted (s : System Thread) : Prop where
  waiting : ∀ type, (s.m_jobData type).waiting = (ofType s.m_jobSet type).card
  running : ∀ type, (s.m_jobData type).running = threadsAt s.threads (Place.runs type)
  balanced : ∀ type, Balanced limit type (s.m_jobData type)
  tasks : s.m_semaphore + threadsAt s.threads Place.holdsTask = ∑ type, room limit type (s.m_jobData type)
  unpaused : s.m_pauseCount = 0
  steady : ∀ w, (s.threads w).steady = true
  limited : ∀ job ∈ s.m_jobSet, 1 ≤ limit job.mType
  older : ∀ job ∈ s.m_jobSet, job.mJobIndex ≤ s.m_lastJob

variable {limit} {s s' : System Thread} {w : Thread} {job : Job} {type : JobType}

theorem accounted_initial : Accounted limit (.initial : System Thread) where
  waiting type := rfl
  running type := by simp [System.initial, threadsAt, Place.runs]
  balanced type := ⟨by simp [System.initial], by simp [System.initial]⟩
  tasks := by simp [System.initial, threadsAt, Place.holdsTask, room]
  unpaused := rfl
  steady w := rfl
  limited job hjob := by simp [System.initial] at hjob
  older job hjob := by simp [System.initial] at hjob

section Counters

variable {data : JobTypeData}

theorem Balanced.queued (h : Balanced limit type data) :
    Balanced limit type (queued limit type data) := by
  obtain ⟨hdeferred, hbelow⟩ := h
  refine ⟨?_, hbelow⟩
  simp only [Core.queued]
  split <;> omega

theorem Balanced.taken (h : Balanced limit type data) (hroom : data.running < limit type) :
    Balanced limit type (taken data) := by
  obtain ⟨hdeferred, hbelow⟩ := h
  constructor <;> simp only [Core.taken] <;> omega

theorem Balanced.finished (h : Balanced limit type data) : Balanced limit type (finished data) := by
  obtain ⟨hdeferred, hbelow⟩ := h
  constructor
  · simp only [Core.finished]
    split <;> omega
  · simp only [Core.finished]
    omega

theorem room_queued : room limit type (queued limit type data) =
    room limit type data + if data.waiting + data.running < limit type then 1 else 0 := by
  simp only [room, queued]
  split <;> omega

theorem room_taken : room limit type (taken data) = room limit type data - 1 := by
  simp only [room, taken]
  omega

theorem room_finished (h : Balanced limit type data) : room limit type (finished data) =
    room limit type data + if data.deferred > 0 then 1 else 0 := by
  have hdeferred := h.deferred
  simp only [room, finished]
  split <;> omega

end Counters

namespace Accounted

section

variable (h : Accounted limit s)
include h

theorem recount {data : JobTypeData}
    (hdata : s'.m_jobData = Function.update s.m_jobData type data) (hbalanced : Balanced limit type data)
    (hwaiting : ∀ t, ((ofType s'.m_jobSet t).card : Int) =
      (ofType s.m_jobSet t).card + if type = t then data.waiting - (s.m_jobData type).waiting else 0)
    (hrunning : ∀ t, threadsAt s'.threads (Place.runs t) = threadsAt s.threads (Place.runs t) +
      if type = t then data.running - (s.m_jobData type).running else 0)
    (htasks : s'.m_semaphore + threadsAt s'.threads Place.holdsTask = s.m_semaphore +
      threadsAt s.threads Place.holdsTask + (room limit type data - room limit type (s.m_jobData type)))
    (hpause : s'.m_pauseCount = s.m_pauseCount) (hsteady : ∀ w, (s'.threads w).steady = true)
    (hlimited : ∀ job ∈ s'.m_jobSet, 1 ≤ limit job.mType)
    (holder : ∀ job ∈ s'.m_jobSet, job.mJobIndex ≤ s'.m_lastJob) : Accounted limit s' where
  waiting t := by
    rw [hdata, hwaiting, ← h.waiting]
    by_cases ht : t = type
    · simp [ht]
    · simp [ht, Ne.symm ht]
  running t := by
    rw [hdata, hrunning, ← h.running]
    by_cases ht : t = type
    · simp [ht]
    · simp [ht, Ne.symm ht]
  balanced t := by
    rw [hdata]
    by_cases ht : t = type
    · subst ht
      simpa using hbalanced
    · simpa [ht] using h.balanced t
  tasks := by
    rw [hdata, sum_update (room limit), htasks, h.tasks]
    ring
  unpaused := hpause.trans h.unpaused
  steady := hsteady
  limited := hlimited
  older := holder

theorem add (hlimit : 1 ≤ limit type) : Accounted limit (s.addRefCountedJob limit type) := by
  have hnew : s.nextJob type ∉ s.m_jobSet := by
    intro hmem
    have hle := h.older _ hmem
    simp only [System.nextJob] at hle
    omega
  rw [System.addRefCountedJob_eq]
  refine h.recount rfl (h.balanced type).queued (fun t => ?_) (fun t => ?_) ?_ rfl h.steady (fun job hjob => ?_)
    fun job hjob => ?_
  · rw [ofType_insert hnew]
    simp only [System.nextJob, queued, add_sub_cancel_left]
    congr
  · simp [queued]
  · rw [room_queued]
    push_cast
    omega
  · rcases mem_insert.mp hjob with rfl | hjob
    · exact hlimit
    · exact h.limited job hjob
  · rcases mem_insert.mp hjob with rfl | hjob
    · exact le_refl _
    · exact Nat.le_succ_of_le (h.older job hjob)

variable [DecidableEq Thread]

theorem steady_move {place : Place} (hplace : place.steady = true) (v : Thread) :
    (Function.update s.threads w place v).steady = true := by
  rw [Function.update_apply]
  split
  · exact hplace
  · exact h.steady v

theorem move {place : Place} {semaphore : Nat}
    (hruns : ∀ type, place.runs type = (s.threads w).runs type) (hsteady : place.steady = true)
    (htask : (semaphore : Int) + (if place.holdsTask then 1 else 0) =
      s.m_semaphore + if (s.threads w).holdsTask then 1 else 0) :
    Accounted limit ({ s with m_semaphore := semaphore }.move w place) := by
  constructor
  case waiting => exact h.waiting
  case running =>
    intro t
    rw [System.move, threadsAt_update, hruns t, sub_add_cancel]
    exact h.running t
  case balanced => exact h.balanced
  case tasks =>
    have htasks := h.tasks
    simp only [System.move, threadsAt_update]
    omega
  case unpaused => exact h.unpaused
  case steady => exact h.steady_move hsteady
  case limited => exact h.limited
  case older => exact h.older

theorem startTask (hw : s.threads w = .task)
    (hs : s.startTask limit w = some (job, s')) : Accounted limit s' := by
  unfold System.startTask at hs
  split at hs
  · cases hs
  · rename_i next s₁ hnext
    obtain ⟨hmem, hroom, -, rfl⟩ := System.getNextJob_eq_some hnext
    obtain ⟨rfl, rfl⟩ : next = job ∧ _ = s' := by simpa using hs
    refine h.recount rfl ((h.balanced _).taken hroom) (fun t => ?_) (fun t => ?_) ?_ rfl (h.steady_move rfl)
      (fun other hother => h.limited other (mem_of_mem_erase hother))
      fun other hother => h.older other (mem_of_mem_erase hother)
    · simp only [System.move, ofType_erase hmem, taken]
      split <;> ring
    · simp [System.move, threadsAt_update, hw, Place.runs, taken]
    · simp [System.move, threadsAt_update, hw, Place.holdsTask, room_taken]
      omega

theorem endTask (hw : s.threads w = .running job) : Accounted limit (s.endTask w job.mType) := by
  unfold System.endTask
  rw [System.finishJob_eq]
  refine h.recount rfl (h.balanced _).finished (fun t => ?_) (fun t => ?_) ?_ rfl (h.steady_move rfl)
    h.limited h.older
  · simp [System.move, finished]
  · simp only [System.move, threadsAt_update, hw, Place.runs, finished]
    by_cases ht : job.mType = t
    · simp [ht]
      ring
    · simp [ht]
  · rw [room_finished (h.balanced _)]
    simp [System.move, threadsAt_update, hw, Place.holdsTask]
    omega

/-- A thread that takes no part in pausing does not come to it: no request is made. -/
theorem work (hs : s.work w = some s') : Accounted limit s' := by
  have hsteady := h.steady w
  unfold System.work at hs
  cases hw : s.threads w with
  | waiting =>
    simp only [hw] at hs
    split at hs
    · cases hs
    · cases hs
      refine h.move (fun t => by simp [hw, Place.runs]) rfl ?_
      simp only [hw, Place.holdsTask]
      simp
      omega
  | obtained =>
    simp only [hw, h.unpaused, gt_iff_lt, lt_irrefl, if_false] at hs
    cases hs
    exact h.move (fun t => by simp [hw, Place.runs]) rfl (by simp [hw, Place.holdsTask])
  | claiming | undoing => simp [hw, Place.steady] at hsteady
  | task => simp [hw] at hs
  | running job =>
    simp only [hw] at hs
    cases hs
    exact h.endTask hw
  | paused => simp [hw, Place.steady] at hsteady

end

end Accounted

variable {added started : List Job}

theorem Run.accounted [DecidableEq Thread] (h : Run limit added started s) : Accounted limit s := by
  induction h with
  | start => exact accounted_initial
  | add type _ hlimit ih => exact ih.add hlimit
  | work w _ hs ih => exact ih.work hs
  | take w _ hw hs ih => exact ih.startTask hw hs

namespace Accounted

theorem room_nonneg (h : Accounted limit s) (type : JobType) :
    0 ≤ room limit type (s.m_jobData type) := by
  have hwaiting := h.waiting type
  have hbelow := (h.balanced type).below
  unfold room
  omega

theorem exists_job (h : Accounted limit s) (hw : (s.threads w).holdsTask = true) :
    ∃ job ∈ s.m_jobSet, (s.m_jobData job.mType).running < limit job.mType := by
  have hpos : ∑ type : JobType, (0 : Int) < ∑ type, room limit type (s.m_jobData type) := by
    have hheld := threadsAt_pos hw
    have htasks := h.tasks
    simp only [sum_const_zero]
    omega
  obtain ⟨type, -, hroom⟩ := exists_lt_of_sum_lt hpos
  have hwaiting := h.waiting type
  unfold room at hroom
  have hcard : 0 < (ofType s.m_jobSet type).card := by omega
  obtain ⟨job, hjob⟩ := card_pos.mp hcard
  obtain ⟨hmem, rfl⟩ := mem_filter.mp hjob
  exact ⟨job, hmem, by omega⟩

theorem empty_of_quiet (h : Accounted limit s) (hquiet : ∀ w, s.threads w = .waiting)
    (hnone : s.m_semaphore = 0) : s.m_jobSet = ∅ := by
  have hsum : ∑ type, room limit type (s.m_jobData type) = 0 := by
    have htasks := h.tasks
    rw [threadsAt_eq_zero fun w => by simp [hquiet w, Place.holdsTask]] at htasks
    omega
  rw [sum_eq_zero_iff_of_nonneg fun type _ => h.room_nonneg type] at hsum
  refine eq_empty_of_forall_notMem fun job hjob => ?_
  have hroom := hsum job.mType (mem_univ _)
  have hrunning : (s.m_jobData job.mType).running = 0 := by
    rw [h.running, threadsAt_eq_zero fun w => by simp [hquiet w, Place.runs]]
  have hcard : 0 < (ofType s.m_jobSet job.mType).card :=
    card_pos.mpr ⟨job, mem_filter.mpr ⟨hjob, rfl⟩⟩
  have hwaiting := h.waiting job.mType
  have hlimit := h.limited job hjob
  unfold room at hroom
  omega

theorem card_runs_le (h : Accounted limit s) (type : JobType) :
    (Finset.univ.filter fun w => (s.threads w).runs type).card ≤ limit type := by
  have hbelow := (h.balanced type).below
  rw [h.running type, threadsAt, sum_boole] at hbelow
  exact_mod_cast hbelow

end Accounted

/-- No type runs more jobs than its limit, a thread with a task is given the first job that may run, no
job is made or started twice, and nothing is left behind. The counters have no bound here: the `int`
and the `uint64` of the code wrap with `2 ^ 31` jobs of a type and with `2 ^ 64` calls. -/
theorem jobs_accounted [DecidableEq Thread] (h : Run limit added started s) :
    (∀ type, (Finset.univ.filter fun w => (s.threads w).runs type).card ≤ limit type) ∧
    (∀ w, (s.threads w).holdsTask = true → ∃ job s', s.getNextJob limit = some (job, s') ∧
      job ∈ s.m_jobSet ∧ (s.m_jobData job.mType).running < limit job.mType ∧
      ∀ other ∈ s.m_jobSet, (s.m_jobData other.mType).running < limit other.mType →
        other.mType ≤ job.mType ∧ (other.mType = job.mType → job.mJobIndex ≤ other.mJobIndex)) ∧
    (added.Nodup ∧ started.Nodup) ∧
    ((∀ w, s.threads w = .waiting) → s.m_semaphore = 0 → s.m_jobSet = ∅) := by
  have hacc := h.accounted
  refine ⟨hacc.card_runs_le, fun w hw => ?_, ⟨h.recorded.distinct, h.recorded.once⟩,
    hacc.empty_of_quiet⟩
  obtain ⟨waiting, hmem, hroom⟩ := hacc.exists_job hw
  obtain ⟨job, s', hnext⟩ := System.getNextJob_isSome hmem hroom
  obtain ⟨hjob, hbelow, hfirst, -⟩ := System.getNextJob_eq_some hnext
  refine ⟨job, s', hnext, hjob, hbelow, fun other hother hlimit => ?_⟩
  rcases Job.le_iff.mp (hfirst other hother hlimit) with hlt | ⟨heq, hle⟩
  · exact ⟨hlt.le, fun hsame => absurd hsame hlt.ne⟩
  · exact ⟨heq.ge, fun _ => hle⟩

/-- Two jobs of a type that runs one at a time, and one of a higher type. -/
def threeJobs : System (Fin 2) :=
  [.jtPACK, .jtPACK, .jtCLIENT].foldl (fun s type => s.addRefCountedJob JobType.limit type) .initial

theorem threeJobs_run :
    Run JobType.limit [⟨.jtCLIENT, 3⟩, ⟨.jtPACK, 2⟩, ⟨.jtPACK, 1⟩] [] threeJobs :=
  .add .jtCLIENT (.add .jtPACK (.add .jtPACK .start (by decide)) (by decide)) (by decide)

/-- A thread obtains one of the two tasks, and the job it is given is the one that came last. -/
theorem jobs_accounted_three : ∃ s : System (Fin 2),
    Run JobType.limit [⟨.jtCLIENT, 3⟩, ⟨.jtPACK, 2⟩, ⟨.jtPACK, 1⟩] [] s ∧ s.m_semaphore = 1 ∧
    (s.threads 1).holdsTask = true ∧ ∃ s', s.getNextJob JobType.limit = some (⟨.jtCLIENT, 3⟩, s') := by
  have hrun := threeJobs_run.work 1 rfl
  obtain ⟨⟨type, index⟩, s', hnext, hmem, -, hfirst⟩ := (jobs_accounted hrun).2.1 1 rfl
  have hjobs : threeJobs.m_jobSet = {⟨.jtCLIENT, 3⟩, ⟨.jtPACK, 2⟩, ⟨.jtPACK, 1⟩} := rfl
  have htype : JobType.jtCLIENT ≤ type :=
    (hfirst ⟨.jtCLIENT, 3⟩ (by simp [System.move, hjobs]) (by decide)).1
  simp only [System.move, hjobs, Finset.mem_insert, Finset.mem_singleton, Job.mk.injEq] at hmem
  rcases hmem with ⟨rfl, rfl⟩ | ⟨rfl, -⟩ | ⟨rfl, -⟩
  · exact ⟨_, hrun, rfl, rfl, s', hnext⟩
  · exact absurd htype (by decide)
  · exact absurd htype (by decide)

/-! ## The queue drains -/

/-- The steps of a thread up to the semaphore, less the four that the job it comes for takes. -/
def Place.ahead : Place → Int
  | .obtained => -1
  | .task => -2
  | .running _ => 1
  | _ => 0

def stepsLeft (jobs : Finset Job) (threads : Thread → Place) : Int :=
  4 * jobs.card + ∑ w, (threads w).ahead

theorem Accounted.stepsLeft_nonneg (h : Accounted limit s) : 0 ≤ stepsLeft s.m_jobSet s.threads := by
  have hheld : ∑ w, -2 * (if (s.threads w).holdsTask then 1 else 0 : Int) ≤
      ∑ w, (s.threads w).ahead := by
    refine sum_le_sum fun w _ => ?_
    cases s.threads w <;> simp [Place.holdsTask, Place.ahead]
  have hroom : ∑ type, room limit type (s.m_jobData type) ≤ s.m_jobSet.card := by
    rw [card_eq_sum_card_fiberwise fun job _ => mem_coe.2 (mem_univ job.mType), Nat.cast_sum]
    exact sum_le_sum fun type _ => (min_le_left _ _).trans (h.waiting type).le
  have htasks := h.tasks
  rw [← mul_sum, ← threadsAt] at hheld
  unfold stepsLeft
  omega

variable [DecidableEq Thread]

/-- A thread goes on, or takes a job. -/
def Step (limit : JobType → Nat) (s s' : System Thread) : Prop :=
  ∃ w, s.work w = some s' ∨ ∃ job, s.threads w = .task ∧ s.startTask limit w = some (job, s')

theorem stepsLeft_update (jobs : Finset Job) (threads : Thread → Place) (w : Thread) (place : Place) :
    stepsLeft jobs (Function.update threads w place) =
      stepsLeft jobs threads - (threads w).ahead + place.ahead := by
  rw [stepsLeft, stepsLeft, sum_update fun _ => Place.ahead]
  ring

theorem Step.accounted (h : Accounted limit s) (hs : Step limit s s') : Accounted limit s' := by
  obtain ⟨w, hs | ⟨job, hw, hs⟩⟩ := hs
  · exact h.work hs
  · exact h.startTask hw hs

theorem Step.stepsLeft_eq (h : Accounted limit s) (hs : Step limit s s') :
    stepsLeft s'.m_jobSet s'.threads = stepsLeft s.m_jobSet s.threads - 1 := by
  obtain ⟨w, hs | ⟨job, hw, hs⟩⟩ := hs
  · have hsteady := h.steady w
    cases hw : s.threads w with
    | claiming | undoing | paused => simp [hw, Place.steady] at hsteady
    | task => simp [System.work, hw] at hs
    | waiting =>
      obtain ⟨-, rfl⟩ : _ ∧ _ = s' := by simpa [System.work, hw] using hs
      simp only [System.move, stepsLeft_update, hw, Place.ahead]
      omega
    | obtained =>
      obtain rfl : _ = s' := by simpa [System.work, hw, h.unpaused] using hs
      simp only [System.move, stepsLeft_update, hw, Place.ahead]
      omega
    | running job =>
      obtain rfl : _ = s' := by simpa [System.work, hw] using hs
      simp only [System.endTask, System.finishJob_eq, System.move, stepsLeft_update, hw, Place.ahead]
      omega
  · unfold System.startTask at hs
    split at hs
    · cases hs
    · rename_i next s₁ hnext
      obtain ⟨hmem, -, -, rfl⟩ := System.getNextJob_eq_some hnext
      obtain ⟨rfl, rfl⟩ : next = job ∧ _ = s' := by simpa using hs
      have hcard := card_erase_add_one hmem
      simp only [System.move, stepsLeft_update, hw, Place.ahead]
      unfold stepsLeft
      omega

theorem Accounted.quiet_of_stuck [Nonempty Thread] (h : Accounted limit s)
    (hstuck : ∀ s', ¬ Step limit s s') : (∀ w, s.threads w = .waiting) ∧ s.m_jobSet = ∅ := by
  have hwork : ∀ w s', s.work w ≠ some s' := fun w s' hs => hstuck s' ⟨w, .inl hs⟩
  have hquiet : ∀ w, s.threads w = .waiting := by
    intro w
    have hsteady := h.steady w
    have hw' := hwork w
    cases hw : s.threads w with
    | waiting => rfl
    | obtained | running job => simp [System.work, hw] at hw'
    | claiming | undoing | paused => simp [hw, Place.steady] at hsteady
    | task =>
      obtain ⟨waiting, hmem, hroom⟩ := h.exists_job (w := w) (by rw [hw]; rfl)
      obtain ⟨job, s', hnext⟩ := System.getNextJob_isSome hmem hroom
      exact absurd ⟨w, .inr ⟨job, hw, by rw [System.startTask, hnext]⟩⟩ (hstuck _)
  obtain ⟨w⟩ := ‹Nonempty Thread›
  have hw := hwork w
  exact ⟨hquiet, h.empty_of_quiet hquiet (by by_contra hsem; simp [System.work, hquiet w, hsem] at hw)⟩

/-- Once no more jobs arrive the threads take `stepsLeft` steps, in whatever order, and then nothing
waits; as in `jobs_accounted`, the numbers have no bound. -/
theorem jobs_drain [Nonempty Thread] {n : Nat} {f : Nat → System Thread}
    (h : Run limit added started (f 0)) (hf : ∀ i < n, Step limit (f i) (f (i + 1))) :
    n ≤ stepsLeft (f 0).m_jobSet (f 0).threads ∧ ((∀ s', ¬ Step limit (f n) s') →
      n = stepsLeft (f 0).m_jobSet (f 0).threads ∧ (f n).m_jobSet = ∅) := by
  have hrun : Accounted limit (f n) ∧ stepsLeft (f n).m_jobSet (f n).threads =
      stepsLeft (f 0).m_jobSet (f 0).threads - n := by
    induction n with
    | zero => exact ⟨h.accounted, (sub_zero _).symm⟩
    | succ n ih =>
      obtain ⟨hacc, hleft⟩ := ih fun i hi => hf i (hi.trans n.lt_succ_self)
      have hstep := hf n n.lt_succ_self
      refine ⟨hstep.accounted hacc, ?_⟩
      rw [hstep.stepsLeft_eq hacc, hleft]
      push_cast
      ring
  have hnonneg := hrun.1.stepsLeft_nonneg
  refine ⟨by omega, fun hstuck => ?_⟩
  obtain ⟨hquiet, hempty⟩ := hrun.1.quiet_of_stuck hstuck
  have hzero : stepsLeft (f n).m_jobSet (f n).threads = 0 := by
    simp [stepsLeft, hempty, hquiet, Place.ahead]
  exact ⟨by omega, hempty⟩

theorem Accounted.exists_steps (h : Accounted limit s) : ∃ n, ∃ f : Nat → System Thread,
    f 0 = s ∧ (∀ i < n, Step limit (f i) (f (i + 1))) ∧ ∀ s', ¬ Step limit (f n) s' := by
  induction hk : (stepsLeft s.m_jobSet s.threads).toNat generalizing s with
  | zero =>
    refine ⟨0, fun _ => s, rfl, fun i hi => absurd hi i.not_lt_zero, fun s' hs => ?_⟩
    have hleft := hs.stepsLeft_eq h
    have hnonneg := (hs.accounted h).stepsLeft_nonneg
    omega
  | succ k ih =>
    by_cases hstep : ∃ s', Step limit s s'
    · obtain ⟨s', hs⟩ := hstep
      have hleft := hs.stepsLeft_eq h
      obtain ⟨n, f, rfl, hf, hstuck⟩ := ih (hs.accounted h) (by omega)
      refine ⟨n + 1, fun i => i.casesOn s f, rfl, fun i hi => ?_, hstuck⟩
      cases i with
      | zero => exact hs
      | succ i => exact hf i (by omega)
    · exact ⟨0, fun _ => s, rfl, fun i hi => absurd hi i.not_lt_zero, fun s' hs => hstep ⟨s', hs⟩⟩

theorem jobs_drain_three : ∃ f : Nat → System (Fin 2), (f 0).m_jobSet.card = 3 ∧
    (∀ i < 12, Step JobType.limit (f i) (f (i + 1))) ∧ (f 12).m_jobSet = ∅ := by
  obtain ⟨n, f, h₀, hf, hstuck⟩ := threeJobs_run.accounted.exists_steps
  have hcard : threeJobs.m_jobSet.card = 3 := rfl
  have hleft : stepsLeft threeJobs.m_jobSet threeJobs.threads = 12 := rfl
  have hrun : Run JobType.limit _ _ (f 0) := h₀.symm ▸ threeJobs_run
  obtain ⟨hn, hempty⟩ := (jobs_drain hrun hf).2 hstuck
  rw [h₀, hleft] at hn
  obtain rfl : n = 12 := by omega
  exact ⟨f, h₀ ▸ hcard, hf, hempty⟩

end Ripple.Core
