import Apue.PrintJobs
import Mathlib.Data.Set.Insert

/-!
The control files in the spool directory and the jobs of the daemon. A control
file is created by the client thread that accepts the job and removed once the
job is printed, so while the daemon serves clients every control file belongs to
a job that it still has. The exceptions are two: a job that is canceled keeps its
control file, and build_qonstart passes over what it cannot open.
-/
namespace Apue.Print

open Programs Decimal ByteFiles DoublyLinked

/-- The job waits in the queue. -/
def Queued (d : Daemon) (jobid : ℤ) : Prop :=
  ∃ l, d.queue.Has l ∧ ∃ job ∈ vals d.queue.heap l, job.jobid = jobid

/-- The printer thread has taken the job. -/
def InHands (d : Daemon) (jobid : ℤ) : Prop := ∃ job, inHand d.log = some job ∧ job.jobid = jobid

/-- A client thread was given the number and has not ended. -/
def Accepting (s : System) (jobid : ℤ) : Prop :=
  ∃ t, finished (s.thread (.client t)) = false ∧ s.number (.client t) = some jobid

/-- Every control file belongs to a job that the daemon has. -/
def SpoolAgrees (s : System) : Prop :=
  ∀ jobid ∈ s.daemon.reqs, Queued s.daemon jobid ∨ InHands s.daemon jobid ∨ Accepting s jobid

/-- The control files that a thread answers for. The main thread answers for all
entries it has not come to, a client thread for the file that it has created.
The printer thread knows the number of its job, and whether it has removed the
control file. -/
inductive Duty
  | main (owes : Set ℤ)
  | client (num : Option ℤ) (owes : Set ℤ)
  | printer (job : Option ℤ) (cleared : Bool)

namespace Duty

def owes : Duty → Set ℤ
  | main owes => owes
  | client _ owes => owes
  | printer _ _ => ∅

def cleared : Duty → Bool
  | printer _ cleared => cleared
  | _ => false

end Duty

def spoolRules : Rules sig Duty where
  pre c g := match g, c with
    | .client num _, .getNewjobno => num = none
    | .client num _, .creat .reqs jobid => num = some jobid
    | .client num _, .malloc job => num = some job.jobid
    | .client _ _, .takeJob => False
    | .client _ _, .loadJob _ => False
    | .client _ _, .replaceJob _ => False
    | .client _ _, .free _ _ => False
    | .client _ _, .opendir => False
    | .client _ _, .readReq _ => False
    | .main _, .getNewjobno => False
    | .main _, .creat _ _ => False
    | .main _, .takeJob => False
    | .main _, .loadJob _ => False
    | .main _, .replaceJob _ => False
    | .main _, .free _ _ => False
    | .printer _ _, .getNewjobno => False
    | .printer _ _, .creat _ _ => False
    | .printer _ _, .malloc _ => False
    | .printer _ _, .addJob _ => False
    | .printer _ _, .opendir => False
    | .printer _ _, .readReq _ => False
    | .printer _ cleared, .free _ .completed => cleared = true
    | _, _ => True
  post c r g := match c, r, g with
    | .getNewjobno, jobid, .client _ owes => .client (some jobid) owes
    | .creat .reqs jobid, none, .client num owes => .client num (insert jobid owes)
    | .unlink .reqs jobid, _, .client num owes => .client num (owes \ {jobid})
    | .unlink .reqs jobid, _, .main owes => .main (owes \ {jobid})
    | .unlink .reqs jobid, _, .printer job cleared =>
      .printer job (cleared || decide (job = some jobid))
    | .malloc job, some _, .client num owes => .client num (owes \ {job.jobid})
    | .malloc job, some _, .main owes => .main (owes \ {job.jobid})
    | .takeJob, _, .printer _ _ => .printer none false
    | .loadJob _, job, .printer _ cleared => .printer (some job.jobid) cleared
    | .replaceJob _, _, .printer _ _ => .printer none false
    | .free _ _, _, .printer _ _ => .printer none false
    | .opendir, some names, .main _ => .main { n | n ∈ names }
    | .opendir, none, .main _ => .main ∅
    | .readReq name, none, .main owes => .main (owes \ {name})
    | _, _, g => g

section Threads

variable {final : Unit → Duty → Prop}

end Threads

/-- The jobs in the printer's hands and in the queue. -/
def unfinished (log : List JobEvent) : List Job :=
  (addedJobs log).drop (finishedJobs log).length

/-- The jobs whose control files may exist; the job in hand is not one of them
once the printer thread has removed its control file. -/
def supports (log : List JobEvent) (cleared : Bool) : List Job :=
  if cleared then (unfinished log).tail else unfinished log

theorem JobsInv.unfinished_eq {q : Queue} {log : List JobEvent} {gn : Who → Grip} {l : List ℕ}
    (h : JobsInv q log gn l) : unfinished log = (inHand log).toList ++ vals q.heap l := by
  rw [unfinished, h.order, List.append_assoc, List.drop_left]

theorem unfinished_added {log : List JobEvent} (job : Job)
    (hle : (finishedJobs log).length ≤ (addedJobs log).length) :
    unfinished (log ++ [.added job]) = unfinished log ++ [job] := by
  have hadded : addedJobs [.added job] = [job] := rfl
  have hfinished : finishedJobs [.added job] = [] := rfl
  rw [unfinished, addedJobs_append, finishedJobs_append, hadded, hfinished, List.append_nil,
    List.drop_append_of_le_length hle]
  rfl

theorem unfinished_taken (log : List JobEvent) (job : Job) :
    unfinished (log ++ [.taken job]) = unfinished log := by
  simp [unfinished, addedJobs, finishedJobs]

theorem unfinished_deferred (log : List JobEvent) (job : Job) :
    unfinished (log ++ [.deferred job]) = unfinished log := by
  simp [unfinished, addedJobs, finishedJobs]

theorem unfinished_finished (log : List JobEvent) (job : Job) (fate : Fate) :
    unfinished (log ++ [.finished job fate]) = (unfinished log).tail := by
  have hadded : addedJobs [.finished job fate] = [] := rfl
  have hfinished : finishedJobs [.finished job fate] = [job] := rfl
  rw [unfinished, addedJobs_append, finishedJobs_append, hadded, hfinished, List.append_nil,
    unfinished, List.tail_drop, List.length_append]
  rfl

theorem mem_unfinished {log : List JobEvent} {cleared : Bool} {job : Job}
    (h : job ∈ supports log cleared) : job ∈ unfinished log := by
  cases cleared with
  | false => exact h
  | true => exact List.mem_of_mem_tail h

/-- What the rules know of a thread fits its part; `hand` is the job in the
printer's hands and `num` the number that the thread was given. -/
def RoleOk (hand : Option Job) (num : Option ℤ) : Who → Duty → Prop
  | .main, .main _ => True
  | .client _, .client num' owes => num' = num ∧ ∀ n ∈ owes, num = some n
  | .printer, .printer job cleared =>
    (∀ n, job = some n → ∃ j, hand = some j ∧ j.jobid = n) ∧ (cleared = true → job ≠ none)
  | _, _ => False

/-- A job that is about to be queued has the number of its thread. -/
def NewOk (num : Option ℤ) (jobid : ℤ) : Who → Prop
  | .main => True
  | .client _ => num = some jobid
  | .printer => False

/-- Somebody answers for the control file. -/
def Covered (d : Daemon) (gn : Who → Grip) (g : Who → Duty) (n : ℤ) : Prop :=
  (∃ w, n ∈ (g w).owes) ∨
    (∃ w jp job, (gn w).hand = .new jp ∧ d.job jp = some job ∧ job.jobid = n) ∨
    ∃ job ∈ supports d.log (g .printer).cleared, job.jobid = n

structure SpoolInv (d : Daemon) (number : Who → Option ℤ) (gn : Who → Grip) (g : Who → Duty) :
    Prop where
  roles : ∀ w, RoleOk (inHand d.log) (number w) w (g w)
  news : ∀ w jp job, (gn w).hand = .new jp → d.job jp = some job → NewOk (number w) job.jobid w
  covered : ∀ n ∈ d.reqs, Covered d gn g n

namespace SpoolInv

variable {d d' : Daemon} {number : Who → Option ℤ} {gn : Who → Grip} {g : Who → Duty} {w : Who}
  {l : List ℕ} {jp : ℕ} {job : Job} {queue : Queue}

/-- Thread `w` gets other duties and another node. The control files for which
somebody has to answer anew are the new ones, those that `w` answered for, and
those of the jobs that have been entered. -/
theorem move {gw : Duty} {num : Option ℤ} {hand : Hand} (h : SpoolInv d number gn g)
    (hlog : w ≠ .printer → inHand d'.log = inHand d.log)
    (hother : ∀ v a, v ≠ w → (gn v).hand = .new a → d'.job a = d.job a)
    (hrole : RoleOk (inHand d'.log) num w gw)
    (hnew : ∀ a job, hand = .new a → d'.job a = some job → NewOk num job.jobid w)
    (hcover : ∀ n ∈ d'.reqs, (n ∉ d.reqs ∨ n ∈ (g w).owes ∨
        (∃ a job, (gn w).hand = .new a ∧ d.job a = some job ∧ job.jobid = n) ∨
        ∃ job ∈ supports d.log (g .printer).cleared, job.jobid = n) →
      Covered d' (Function.update gn w { gn w with hand := hand }) (Function.update g w gw) n) :
    SpoolInv d' (Function.update number w num)
      (Function.update gn w { gn w with hand := hand }) (Function.update g w gw) := by
  refine ⟨fun v => ?_, fun v a job hv hj => ?_, fun n hn => ?_⟩
  · by_cases hvw : v = w
    · rw [hvw, Function.update_self, Function.update_self]
      exact hrole
    · rw [Function.update_of_ne hvw, Function.update_of_ne hvw]
      have hold := h.roles v
      by_cases hw : w = .printer
      · -- only the part of the printer thread depends on the job in hand
        cases v with
        | printer => exact absurd hw.symm hvw
        | main => cases hg : g .main <;> rw [hg] at hold <;> exact hold
        | client t => cases hg : g (.client t) <;> rw [hg] at hold <;> exact hold
      · rw [hlog hw]
        exact hold
  · by_cases hvw : v = w
    · rw [hvw, Function.update_self] at hv
      rw [hvw, Function.update_self]
      exact hnew a job hv hj
    · rw [Function.update_of_ne hvw] at hv
      rw [Function.update_of_ne hvw]
      rw [hother v a hvw hv] at hj
      exact h.news v a job hv hj
  · by_cases hold : n ∈ d.reqs
    · rcases h.covered n hold with ⟨v, hv⟩ | ⟨v, a, job, hv, hj, he⟩ | hsup
      · by_cases hvw : v = w
        · exact hcover n hn (Or.inr (Or.inl (hvw ▸ hv)))
        · refine Or.inl ⟨v, ?_⟩
          rw [Function.update_of_ne hvw]
          exact hv
      · by_cases hvw : v = w
        · exact hcover n hn (Or.inr (Or.inr (Or.inl ⟨a, job, hvw ▸ hv, hj, he⟩)))
        · refine Or.inr (Or.inl ⟨v, a, job, ?_, (hother v a hvw hv).trans hj, he⟩)
          rw [Function.update_of_ne hvw]
          exact hv
      · exact hcover n hn (Or.inr (Or.inr (Or.inr hsup)))
    · exact hcover n hn (Or.inl hold)

/-- The queue and the log are as they were, and only the duties of `w` change. -/
theorem duty {gw : Duty} {num : Option ℤ} (h : SpoolInv d number gn g)
    (hq : d'.queue = d.queue) (hlog : d'.log = d.log) (hrole : RoleOk (inHand d.log) num w gw)
    (hnum : ∀ a job, (gn w).hand = .new a → d.job a = some job → NewOk num job.jobid w)
    (hreqs : ∀ n ∈ d'.reqs, n ∈ d.reqs ∨ n ∈ gw.owes)
    (howes : ∀ n ∈ d'.reqs, n ∈ (g w).owes → n ∈ gw.owes)
    (hsup : w = .printer → ∀ n ∈ d'.reqs, ∀ job ∈ supports d.log (g w).cleared, job.jobid = n →
      ∃ job' ∈ supports d.log gw.cleared, job'.jobid = n) :
    SpoolInv d' (Function.update number w num) gn (Function.update g w gw) := by
  have hjob : ∀ a, d'.job a = d.job a := fun a => by rw [Daemon.job, hq]; rfl
  have hgn : Function.update gn w { gn w with hand := (gn w).hand } = gn :=
    Function.update_eq_self w gn
  have hmine : ∀ n, n ∈ gw.owes → Covered d' gn (Function.update g w gw) n := by
    intro n hn
    refine Or.inl ⟨w, ?_⟩
    rw [Function.update_self]
    exact hn
  rw [← hgn]
  refine h.move (fun _ => congrArg inHand hlog) (fun v a _ _ => hjob a) (hlog ▸ hrole)
    (fun a job ha hj => hnum a job ha ((hjob a).symm.trans hj)) fun n hn hcases => ?_
  rw [hgn]
  rcases hcases with hfresh | hmem | ⟨a, job, ha, hj, he⟩ | ⟨job, hj, he⟩
  · exact hmine n ((hreqs n hn).resolve_left hfresh)
  · exact hmine n (howes n hn hmem)
  · exact Or.inr (Or.inl ⟨w, a, job, ha, (hjob a).trans hj, he⟩)
  · refine Or.inr (Or.inr ?_)
    rw [hlog]
    by_cases hw : w = .printer
    · subst hw
      rw [Function.update_self]
      exact hsup rfl n hn job hj he
    · rw [Function.update_of_ne fun heq => hw heq.symm]
      exact ⟨job, hj, he⟩

theorem allocated {gw : Duty} (h : SpoolInv d number gn g) (hjobs : JobsInv d.queue d.log gn l)
    (hfree : d.queue.heap jp = none) (hrole : RoleOk (inHand d.log) (number w) w gw)
    (hnew : NewOk (number w) job.jobid w) (hempty : (gn w).hand = .empty)
    (howes : ∀ n ∈ (g w).owes, n ≠ job.jobid → n ∈ gw.owes) :
    SpoolInv { d with queue := newJob d.queue jp job } (Function.update number w (number w))
      (Function.update gn w { gn w with hand := .new jp }) (Function.update g w gw) := by
  have hself : ({ d with queue := newJob d.queue jp job } : Daemon).job jp = some job := by
    simp [Daemon.job, newJob]
  refine h.move (fun _ => rfl) (fun v a _ ha => ?_) hrole (fun a job' ha hj => ?_) fun n hn hcases => ?_
  · obtain ⟨m, hm, -⟩ := hjobs.new v a ha
    have hne : a ≠ jp := by
      rintro rfl
      cases hm.symm.trans hfree
    simp [Daemon.job, newJob, Function.update_of_ne hne]
  · obtain rfl := Hand.new.inj ha
    obtain rfl := Option.some.inj (hself.symm.trans hj)
    exact hnew
  · rcases hcases with hfresh | hmem | ⟨a, job', ha, -⟩ | ⟨job', hj, he⟩
    · exact absurd hn hfresh
    · by_cases he : n = job.jobid
      · refine Or.inr (Or.inl ⟨w, jp, job, ?_, hself, he.symm⟩)
        rw [Function.update_self]
      · refine Or.inl ⟨w, ?_⟩
        rw [Function.update_self]
        exact howes n hmem he
    · cases hempty.symm.trans ha
    · refine Or.inr (Or.inr ⟨job', ?_, he⟩)
      by_cases hw : w = .printer
      · rw [hw] at hnew
        exact hnew.elim
      · rw [Function.update_of_ne fun heq => hw heq.symm]
        exact hj

theorem added (h : SpoolInv d number gn g) (hjobs : JobsInv d.queue d.log gn l)
    (hw : (gn w).hand = .new jp) (hjob : d.job jp = some job) (hq : addJob d.queue jp = some queue) :
    SpoolInv ({ d with queue := queue }.record (.added job)) (Function.update number w (number w))
      (Function.update gn w { gn w with hand := .empty }) (Function.update g w (g w)) := by
  obtain ⟨m, hm, hnext⟩ := hjobs.new w jp hw
  obtain ⟨q, hq', -, -, hval⟩ :=
    addJob_spec hjobs.has hm hnext (hjobs.outside w jp (by rw [hw]; rfl))
  obtain rfl := Option.some.inj (hq.symm.trans hq')
  have hhand : inHand (d.log ++ [.added job]) = inHand d.log := inHand_concat ..
  -- the printer thread has removed a control file only if it has a job
  have htail : supports (d.log ++ [.added job]) (g .printer).cleared =
      supports d.log (g .printer).cleared ++ [job] := by
    have hle : (finishedJobs d.log).length ≤ (addedJobs d.log).length := by
      rw [hjobs.order, List.append_assoc, List.length_append]
      exact Nat.le_add_right _ _
    rw [supports, supports, unfinished_added job hle]
    split
    · rename_i hcleared
      refine List.tail_append_of_ne_nil ?_
      rw [hjobs.unfinished_eq]
      have hrole := h.roles .printer
      cases hg : g .printer with
      | main owes => simp [hg, Duty.cleared] at hcleared
      | client num owes => simp [hg, Duty.cleared] at hcleared
      | printer job' cleared =>
        rw [hg] at hrole hcleared
        obtain ⟨n, hn⟩ := Option.ne_none_iff_exists'.mp (hrole.2 hcleared)
        obtain ⟨j, hj, -⟩ := hrole.1 n hn
        rw [hj]
        exact List.cons_ne_nil _ _
    · rfl
  refine h.move (fun _ => hhand) (fun v a _ _ => hval a) ?_ nofun fun n hn hcases => ?_
  · exact hhand.symm ▸ h.roles w
  · rw [Function.update_eq_self]
    rcases hcases with hfresh | hmem | ⟨a, job', ha, hj, he⟩ | ⟨job', hj, he⟩
    · exact absurd hn hfresh
    · exact Or.inl ⟨w, hmem⟩
    · obtain rfl := Hand.new.inj (hw.symm.trans ha)
      obtain rfl := Option.some.inj (hjob.symm.trans hj)
      refine Or.inr (Or.inr ⟨job, ?_, he⟩)
      exact htail ▸ List.mem_append_right _ (List.mem_singleton_self job)
    · refine Or.inr (Or.inr ⟨job', ?_, he⟩)
      exact htail ▸ List.mem_append_left _ hj

/-- The printer thread takes a job, puts it back or is done with it. It has then
not removed a control file of the job it may have. -/
theorem handled {hand : Hand} (h : SpoolInv d number gn g)
    (hval : ∀ a v, v ≠ .printer → (gn v).hand = .new a → d'.job a = d.job a)
    (hnode : ∀ a, (gn .printer).hand ≠ .new a) (hhand : ∀ a, hand ≠ .new a)
    (hreqs : d'.reqs = d.reqs)
    (hsup : ∀ j ∈ supports d.log (g .printer).cleared, j.jobid ∈ d.reqs → j ∈ unfinished d'.log) :
    SpoolInv d' (Function.update number .printer (number .printer))
      (Function.update gn .printer { gn .printer with hand := hand })
      (Function.update g .printer (.printer none false)) := by
  refine h.move (fun hne => absurd rfl hne) (fun v a hv ha => hval a v hv ha) ⟨nofun, nofun⟩
    (fun a _ ha => absurd ha (hhand a)) fun n hn hcases => ?_
  rw [hreqs] at hn
  rcases hcases with hfresh | hmem | ⟨a, job, ha, -⟩ | ⟨j, hj, he⟩
  · exact absurd hn hfresh
  · have hrole := h.roles .printer
    cases hg : g .printer with
    | main owes => rw [hg] at hrole; exact hrole.elim
    | client num owes => rw [hg] at hrole; exact hrole.elim
    | printer job cleared => rw [hg] at hmem; exact hmem.elim
  · exact absurd ha (hnode a)
  · refine Or.inr (Or.inr ⟨j, ?_, he⟩)
    rw [Function.update_self]
    exact hsup j hj (he ▸ hn)

end SpoolInv

/-- The call is not the one that leaves a control file behind: no job is canceled
while its control file exists, and build_qonstart can read the directory and open
every control file. -/
def keepsSpool (d : Daemon) (choice : Choice) : Call → Bool
  | .free jp .canceled => (d.job jp).all fun job => decide (job.jobid ∉ d.reqs)
  | .opendir => match choice with
    | .names _ => true
    | _ => false
  | .readReq name => decide (name ∉ d.reqs) || match choice with
    | .ok => true
    | .fail _ => true
    | _ => false
  | _ => true

namespace SpoolInv

variable {d d' : Daemon} {number : Who → Option ℤ} {gn : Who → Grip} {g : Who → Duty} {w : Who}
  {l : List ℕ}

theorem role_main (h : SpoolInv d number gn g) : ∃ owes, g .main = .main owes := by
  have hrole := h.roles .main
  cases hg : g .main with
  | main owes => exact ⟨owes, rfl⟩
  | client num owes => rw [hg] at hrole; exact hrole.elim
  | printer job cleared => rw [hg] at hrole; exact hrole.elim

theorem role_client (h : SpoolInv d number gn g) (t : ℕ) :
    ∃ owes, g (.client t) = .client (number (.client t)) owes ∧
      ∀ n ∈ owes, number (.client t) = some n := by
  have hrole := h.roles (.client t)
  cases hg : g (.client t) with
  | main owes => rw [hg] at hrole; exact hrole.elim
  | client num owes =>
    rw [hg] at hrole
    obtain ⟨rfl, howes⟩ := hrole
    exact ⟨owes, rfl, howes⟩
  | printer job cleared => rw [hg] at hrole; exact hrole.elim

theorem role_printer (h : SpoolInv d number gn g) :
    ∃ job cleared, g .printer = .printer job cleared ∧
      (∀ n, job = some n → ∃ j, inHand d.log = some j ∧ j.jobid = n) ∧
      (cleared = true → job ≠ none) := by
  have hrole := h.roles .printer
  cases hg : g .printer with
  | main owes => rw [hg] at hrole; exact hrole.elim
  | client num owes => rw [hg] at hrole; exact hrole.elim
  | printer job cleared =>
    rw [hg] at hrole
    exact ⟨job, cleared, rfl, hrole⟩

/-- Nothing that the rules speak about has changed. -/
theorem same (h : SpoolInv d number gn g) (hq : d'.queue = d.queue) (hlog : d'.log = d.log)
    (hreqs : ∀ n ∈ d'.reqs, n ∈ d.reqs) :
    SpoolInv d' (Function.update number w (number w)) gn (Function.update g w (g w)) :=
  h.duty hq hlog (h.roles w) (h.news w) (fun n hn => Or.inl (hreqs n hn)) (fun _ _ hn => hn)
    fun _ _ _ job hj he => ⟨job, hj, he⟩

theorem created (h : SpoolInv d number gn g) {which : Dir} {jobid : ℤ}
    (hpre : spoolRules.pre (.creat which jobid) (g w)) :
    SpoolInv (d.setDir which ((d.dir which).insert jobid [])) (Function.update number w (number w))
      gn (Function.update g w (spoolRules.post (.creat which jobid) none (g w))) := by
  cases w with
  | main =>
    obtain ⟨owes, hg⟩ := h.role_main
    rw [hg] at hpre
    exact hpre.elim
  | printer =>
    obtain ⟨job, cleared, hg, -⟩ := h.role_printer
    rw [hg] at hpre
    exact hpre.elim
  | client t =>
    cases which with
    | data => exact h.same (Daemon.setDir_queue ..) (Daemon.setDir_log ..) fun _ hn => hn
    | reqs =>
      obtain ⟨owes, hg, howes⟩ := h.role_client t
      rw [hg] at hpre ⊢
      have hnum : number (.client t) = some jobid := hpre
      refine h.duty rfl rfl ⟨rfl, fun n hn => ?_⟩ (h.news _) (fun n hn => ?_) (fun n _ hn => ?_) nofun
      · rcases hn with rfl | hn
        · exact hnum
        · exact howes n hn
      · rcases (AList.mem_insert _).mp hn with rfl | hn
        · exact Or.inr (Set.mem_insert n owes)
        · exact Or.inl hn
      · rw [hg] at hn
        exact Set.mem_insert_of_mem jobid hn

theorem unlinked (h : SpoolInv d number gn g) (hjobs : JobsInv d.queue d.log gn l) {which : Dir}
    {jobid : ℤ} :
    SpoolInv (d.setDir which ((d.dir which).erase jobid)) (Function.update number w (number w))
      gn (Function.update g w (spoolRules.post (.unlink which jobid) () (g w))) := by
  cases which with
  | data =>
    have hpost : spoolRules.post (.unlink .data jobid) () (g w) = g w := by
      cases g w <;> rfl
    rw [hpost]
    exact h.same rfl rfl fun _ hn => hn
  | reqs =>
    have hreqs : ∀ n, n ∈ (d.setDir .reqs ((d.dir .reqs).erase jobid)).reqs →
        n ≠ jobid ∧ n ∈ d.reqs := fun n hn => AList.mem_erase.mp hn
    cases w with
    | main =>
      obtain ⟨owes, hg⟩ := h.role_main
      rw [hg]
      refine h.duty rfl rfl trivial (h.news _) (fun n hn => Or.inl (hreqs n hn).2)
        (fun n hn hmem => ⟨?_, (hreqs n hn).1⟩) nofun
      rw [hg] at hmem
      exact hmem
    | client t =>
      obtain ⟨owes, hg, howes⟩ := h.role_client t
      rw [hg]
      refine h.duty rfl rfl ⟨rfl, fun n hn => howes n hn.1⟩ (h.news _)
        (fun n hn => Or.inl (hreqs n hn).2) (fun n hn hmem => ⟨?_, (hreqs n hn).1⟩) nofun
      rw [hg] at hmem
      exact hmem
    | printer =>
      obtain ⟨job, cleared, hg, hrole, hcleared⟩ := h.role_printer
      have hown : job = some jobid → ∃ j rest, unfinished d.log = j :: rest ∧ j.jobid = jobid := by
        intro hj
        obtain ⟨j, hhand, he⟩ := hrole jobid hj
        refine ⟨j, vals d.queue.heap l, ?_, he⟩
        rw [hjobs.unfinished_eq, hhand]
        rfl
      have hpost : spoolRules.post (.unlink .reqs jobid) () (.printer job cleared) =
          .printer job (cleared || decide (job = some jobid)) := rfl
      rw [hg, hpost]
      refine h.duty rfl rfl ⟨hrole, fun hc => ?_⟩ (h.news _) (fun n hn => Or.inl (hreqs n hn).2)
        (fun n _ hmem => ?_) fun _ n hn j hj he => ?_
      · rcases Bool.or_eq_true_iff.mp hc with hc | hc
        · exact hcleared hc
        · rw [of_decide_eq_true hc]
          nofun
      · rw [hg] at hmem
        exact hmem.elim
      · rw [hg] at hj
        refine ⟨j, ?_, he⟩
        by_cases hc : job = some jobid ∧ cleared = false
        · -- the control file of the job in hand is removed now
          obtain ⟨hjob, rfl⟩ := hc
          obtain ⟨j', rest, hun, he'⟩ := hown hjob
          have hmem : j ∈ unfinished d.log := hj
          rw [hun, List.mem_cons] at hmem
          rcases hmem with rfl | hmem
          · exact absurd (he.symm.trans he') (hreqs n hn).1
          · simpa [Duty.cleared, supports, hjob, hun] using hmem
        · have hsame : (cleared || decide (job = some jobid)) = cleared := by
            by_cases hjob : job = some jobid
            · simp [Bool.eq_true_of_not_eq_false fun hf => hc ⟨hjob, hf⟩]
            · simp [hjob]
          simpa [Duty.cleared, hsame] using hj

/-- A call of thread `w` that the rules allow and that leaves no control file behind. -/
theorem effect (h : SpoolInv d number gn g) (hjobs : JobsInv d.queue d.log gn l) {choice : Choice}
    {c : Call} {r : c.Ret} (hpre : spoolRules.pre c (g w)) (hnode : nodeRules.pre c (gn w))
    (hkeep : keepsSpool d choice c = true) (hperf : perform choice c d = some (r, d')) :
    SpoolInv d' (Function.update number w (noteNumber c r (number w)))
      (Function.update gn w (nodeRules.post c r (gn w)))
      (Function.update g w (spoolRules.post c r (g w))) := by
  have still : ∀ {num gw}, nodeRules.post c r (gn w) = gn w → noteNumber c r (number w) = num →
      spoolRules.post c r (g w) = gw →
      SpoolInv d' (Function.update number w num) gn (Function.update g w gw) →
      SpoolInv d' (Function.update number w (noteNumber c r (number w)))
        (Function.update gn w (nodeRules.post c r (gn w)))
        (Function.update g w (spoolRules.post c r (g w))) := by
    rintro num gw hgn rfl rfl hinv
    rwa [hgn, Function.update_eq_self]
  have become : ∀ {gw hand}, nodeRules.post c r (gn w) = { gn w with hand := hand } →
      noteNumber c r (number w) = number w → spoolRules.post c r (g w) = gw →
      SpoolInv d' (Function.update number w (number w))
        (Function.update gn w { gn w with hand := hand }) (Function.update g w gw) →
      SpoolInv d' (Function.update number w (noteNumber c r (number w)))
        (Function.update gn w (nodeRules.post c r (gn w)))
        (Function.update g w (spoolRules.post c r (g w))) := by
    rintro gw hand hgn hnum rfl hinv
    rwa [hgn, hnum]
  cases perform_effect hperf with
  | still hc =>
    refine still ?_ ?_ ?_ (h.same rfl rfl fun _ hn => hn)
    all_goals cases c <;> first | exact hc.elim | rfl
  | number =>
    cases w with
    | main =>
      obtain ⟨owes, hg⟩ := h.role_main
      rw [hg] at hpre
      exact hpre.elim
    | printer =>
      obtain ⟨job, cleared, hg, -⟩ := h.role_printer
      rw [hg] at hpre
      exact hpre.elim
    | client t =>
      obtain ⟨owes, hg, howes⟩ := h.role_client t
      have hnone : number (.client t) = none := by
        rw [hg] at hpre
        exact hpre
      have hpost : spoolRules.post .getNewjobno d.nextjob (g (.client t)) =
          .client (some d.nextjob) owes := by
        rw [hg]
        rfl
      refine still rfl rfl hpost (h.duty rfl rfl ⟨rfl, fun n hn => ?_⟩
        (fun a job ha hj => ?_) (fun n hn => Or.inl hn) (fun n _ hn => ?_) nofun)
      · cases hnone.symm.trans (howes n hn)
      · cases hnone.symm.trans (h.news _ a job ha hj)
      · rw [hg] at hn
        exact hn
  | created => exact still rfl rfl rfl (h.created hpre)
  | @notCreated which _ _ =>
    refine still rfl rfl ?_ (h.same rfl rfl fun _ hn => hn)
    cases which <;> cases g w <;> rfl
  | wrote hn =>
    exact still rfl rfl rfl (h.same (Daemon.append_queue ..) (Daemon.append_log ..) fun n hn =>
      (Daemon.mem_reqs_append ..).mp hn)
  | unlinked => exact still rfl rfl rfl (h.unlinked hjobs)
  | allocated hfree =>
    cases w with
    | main =>
      obtain ⟨owes, hg⟩ := h.role_main
      refine h.allocated hjobs hfree ?_ trivial hnode fun n hn hne => ?_
      · rw [hg]
        trivial
      · rw [hg] at hn ⊢
        exact ⟨hn, hne⟩
    | printer =>
      obtain ⟨job, cleared, hg, -⟩ := h.role_printer
      rw [hg] at hpre
      exact hpre.elim
    | client t =>
      obtain ⟨owes, hg, howes⟩ := h.role_client t
      rw [hg] at hpre
      refine h.allocated hjobs hfree ?_ hpre hnode fun n hn hne => ?_
      · rw [hg]
        exact ⟨rfl, fun n hn => howes n hn.1⟩
      · rw [hg] at hn ⊢
        exact ⟨hn, hne⟩
  | notAllocated => exact still rfl rfl rfl (h.same rfl rfl fun _ hn => hn)
  | added hjob hq => exact become rfl rfl rfl (h.added hjobs hnode hjob hq)
  | taken hhead hjob hq =>
    obtain rfl := hjobs.printer w hnode.1
    obtain ⟨job, cleared, hg, -⟩ := h.role_printer
    refine become rfl rfl (by rw [hg]) ?_
    cases l with
    | nil => cases hhead.symm.trans hjobs.has.head_eq
    | cons a l =>
      obtain rfl := Option.some.inj (hhead.symm.trans hjobs.has.head_eq)
      have hfirst : d.queue.Has ([] ++ _ :: l) := hjobs.has
      obtain ⟨q, hq', -, -, hval⟩ := removeJob_spec hfirst
      obtain rfl := Option.some.inj (hq.symm.trans hq')
      refine h.handled (fun a v _ _ => hval a) (fun a ha => ?_) nofun rfl fun j hj _ => ?_
      · cases hnode.2.symm.trans ha
      · exact unfinished_taken d.log _ ▸ mem_unfinished hj
  | @loaded jp job _ hjob =>
    obtain ⟨rfl, m, hm, hhand⟩ := hjobs.took w jp hnode
    obtain ⟨job', cleared, hg, -, hcleared⟩ := h.role_printer
    have hpost : spoolRules.post (.loadJob jp) job (g .printer) =
        .printer (some job.jobid) cleared := by
      rw [hg]
      rfl
    refine still rfl rfl hpost (h.duty rfl rfl ⟨?_, nofun⟩ (h.news _) (fun n hn => Or.inl hn)
      (fun n _ hn => ?_) fun _ n _ j hj he => ⟨j, ?_, he⟩)
    · rintro n hn
      rw [Daemon.job, hm] at hjob
      obtain rfl := Option.some.inj hjob
      exact ⟨m.val, hhand, Option.some.inj hn⟩
    · rw [hg] at hn
      exact hn.elim
    · rw [hg] at hj
      exact hj
  | updated => exact still rfl rfl rfl (h.same rfl rfl fun _ hn => hn)
  | @replaced jp job _ _ hjob hq =>
    obtain ⟨rfl, m, hm, hhand⟩ := hjobs.took w jp hnode
    obtain ⟨job', cleared, hg, -⟩ := h.role_printer
    obtain ⟨q, hq', -, -, hval⟩ :=
      replaceJob_spec hjobs.has hm (hjobs.outside .printer jp (congrArg Hand.node hnode))
    obtain rfl := Option.some.inj (hq.symm.trans hq')
    refine become rfl rfl (by rw [hg]) ?_
    refine h.handled (fun a v _ _ => hval a) (fun a ha => ?_) nofun rfl fun j hj _ => ?_
    · cases hnode.symm.trans ha
    · exact unfinished_deferred d.log job ▸ mem_unfinished hj
  | @freed jp job fate _ hjob =>
    obtain ⟨rfl, m, hm, hhand⟩ := hjobs.took w jp hnode
    obtain ⟨job', cleared, hg, -⟩ := h.role_printer
    have hnew : ∀ v a, (gn v).hand = .new a → a ≠ jp := by
      rintro v a ha rfl
      have hv : v ≠ .printer := by
        rintro rfl
        cases hnode.symm.trans ha
      exact hjobs.apart v .printer a hv (congrArg Hand.node ha) (congrArg Hand.node hnode)
    have hun : unfinished d.log = m.val :: vals d.queue.heap l := by
      rw [hjobs.unfinished_eq, hhand]
      rfl
    refine become rfl rfl (by rw [hg]) ?_
    refine h.handled (fun a v _ ha => ?_) (fun a ha => ?_) nofun rfl fun j hj hmem => ?_
    · simp [Daemon.job, Daemon.record, freeJob, Function.update_of_ne (hnew v a ha)]
    · cases hnode.symm.trans ha
    · refine unfinished_finished d.log job fate ▸ ?_
      rw [hun, List.tail_cons]
      cases fate with
      | completed =>
        -- its control file is gone
        rw [hg] at hpre hj
        obtain rfl : cleared = true := hpre
        rwa [Duty.cleared, supports, if_pos rfl, hun] at hj
      | canceled =>
        have hj := mem_unfinished hj
        rw [hun, List.mem_cons] at hj
        rcases hj with rfl | hj
        · rw [keepsSpool, Daemon.job, hm] at hkeep
          exact absurd hmem (of_decide_eq_true hkeep)
        · exact hj
  | @listed names _ hperm =>
    cases w with
    | main =>
      obtain ⟨owes, hg⟩ := h.role_main
      have hpost : spoolRules.post .opendir (some names) (g .main) = .main { n | n ∈ names } := by
        rw [hg]
        rfl
      exact still rfl rfl hpost (h.duty rfl rfl trivial (h.news _) (fun n hn => Or.inl hn)
        (fun n hn _ => hperm.mem_iff.mpr hn) nofun)
    | printer =>
      obtain ⟨job, cleared, hg, -⟩ := h.role_printer
      rw [hg] at hpre
      exact hpre.elim
    | client t =>
      obtain ⟨owes, hg, -⟩ := h.role_client t
      rw [hg] at hpre
      exact hpre.elim
  | notListed =>
    cases choice with
    | names names =>
      simp only [perform] at hperf
      split at hperf <;> cases hperf
    | _ => cases hkeep
  | read hfile => exact still rfl rfl rfl (h.same rfl rfl fun _ hn => hn)
  | @notRead name r _ hr =>
    cases r with
    | some r => exact still rfl rfl rfl (h.same rfl rfl fun _ hn => hn)
    | none =>
      have hgone : name ∉ d.reqs := by
        intro hmem
        have hread := (Bool.or_eq_true_iff.mp hkeep).resolve_left fun hd =>
          of_decide_eq_true hd hmem
        cases choice with
        | ok =>
          obtain ⟨file, -, hperf⟩ := Option.bind_eq_some_iff.mp hperf
          cases hperf
        | fail e => cases hperf
        | _ => cases hread
      cases w with
      | main =>
        obtain ⟨owes, hg⟩ := h.role_main
        have hpost : spoolRules.post (.readReq name) none (g .main) = .main (owes \ {name}) := by
          rw [hg]
          rfl
        refine still rfl rfl hpost (h.duty rfl rfl trivial (h.news _) (fun n hn => Or.inl hn)
          (fun n hn hmem => ⟨?_, ?_⟩) nofun)
        · rw [hg] at hmem
          exact hmem
        · rintro rfl
          exact hgone hn
      | printer =>
        obtain ⟨job, cleared, hg, -⟩ := h.role_printer
        rw [hg] at hpre
        exact hpre.elim
      | client t =>
        obtain ⟨owes, hg, -⟩ := h.role_client t
        rw [hg] at hpre
        exact hpre.elim

theorem regrip {gn' : Who → Grip} (h : SpoolInv d number gn g)
    (hhand : ∀ v, (gn' v).hand = (gn v).hand) : SpoolInv d number gn' g := by
  refine ⟨h.roles, fun v a job hv => h.news v a job (hhand v ▸ hv), fun n hn => ?_⟩
  rcases h.covered n hn with howes | ⟨v, a, job, hv, hj⟩ | hsup
  · exact Or.inl howes
  · exact Or.inr (Or.inl ⟨v, a, job, (hhand v).trans hv, hj⟩)
  · exact Or.inr (Or.inr hsup)

/-- A thread that answers for nothing and holds no node starts anew. -/
theorem start (h : SpoolInv d number gn g) (howes : (g w).owes = ∅) (hcleared : (g w).cleared = false)
    (hempty : (gn w).hand = .empty) {b : Bool} {gw : Duty} {num : Option ℤ}
    (hrole : RoleOk (inHand d.log) num w gw) (hgw : gw.cleared = false) :
    SpoolInv d (Function.update number w num) (Function.update gn w ⟨b, .empty⟩)
      (Function.update g w gw) := by
  have hnew : ∀ a, (gn w).hand ≠ .new a := fun a ha => nomatch hempty.symm.trans ha
  refine regrip (h.duty rfl rfl hrole (fun a _ ha => absurd ha (hnew a)) (fun n hn => Or.inl hn)
    (fun n _ hn => ?_) fun _ n _ job hj he => ⟨job, ?_, he⟩) fun v => ?_
  · rw [howes] at hn
    exact hn.elim
  · rwa [hgw, ← hcleared]
  · by_cases hv : v = w
    · rw [hv, Function.update_self, hempty]
    · rw [Function.update_of_ne hv]

/-- Once the main thread has built the queue, every control file belongs to a job. -/
theorem agrees {s : System} (h : SpoolInv s.daemon s.number gn g)
    (hjobs : JobsInv s.daemon.queue s.daemon.log gn l)
    (hnodes : Follows nodeRules (fun g => g.hand = .empty) s.thread gn)
    (hduty : Follows spoolRules (fun g => g.owes = ∅ ∧ g.cleared = false) s.thread g)
    (hmain : finished (s.thread .main) = true) : SpoolAgrees s := by
  intro n hn
  have howes : ∀ v, n ∈ (g v).owes → finished (s.thread v) = false := by
    intro v hv
    rw [← Bool.not_eq_true]
    intro hfin
    rw [(hduty.final_of_finished hfin).1] at hv
    exact hv.elim
  have hnode : ∀ v a, (gn v).hand = .new a → finished (s.thread v) = false := by
    intro v a hv
    rw [← Bool.not_eq_true]
    intro hfin
    cases (hnodes.final_of_finished hfin).symm.trans hv
  rcases h.covered n hn with ⟨v, hv⟩ | ⟨v, a, job, hv, hj, rfl⟩ | ⟨job, hj, rfl⟩
  · cases v with
    | main => cases hmain.symm.trans (howes .main hv)
    | printer =>
      obtain ⟨job, cleared, hg, -⟩ := h.role_printer
      rw [hg] at hv
      exact hv.elim
    | client t =>
      obtain ⟨owes, hg, hnum⟩ := h.role_client t
      have hfin := howes _ hv
      rw [hg] at hv
      exact Or.inr (Or.inr ⟨t, hfin, hnum n hv⟩)
  · cases v with
    | main => cases hmain.symm.trans (hnode .main a hv)
    | printer => exact (h.news .printer a job hv hj).elim
    | client t => exact Or.inr (Or.inr ⟨t, hnode _ a hv, h.news _ a job hv hj⟩)
  · have hmem := mem_unfinished hj
    rw [hjobs.unfinished_eq, List.mem_append, Option.mem_toList] at hmem
    rcases hmem with hhand | hq
    · exact Or.inr (Or.inl ⟨job, hhand, rfl⟩)
    · exact Or.inl ⟨l, hjobs.has, job, hq, rfl⟩

end SpoolInv

end Apue.Print
