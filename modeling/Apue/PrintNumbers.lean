import Apue.PrintDaemon

/-!
The numbers of print jobs. get_newjobno hands out increasing numbers while the
daemon runs, and each client thread uses only the number it was given. The job
file is written when the printer thread picks up a job, however, and not when a
number is handed out, so that a daemon that starts again may hand out the number
of a job that still waits. It does not if the job file is ahead of all control
files whenever the daemon starts.
-/
namespace Apue.Print

open Programs Decimal ByteFiles DoublyLinked

/-- The number a thread was given, and whether it has created the control file. -/
structure Holding where
  num : Option ℤ
  filed : Bool

/-- A thread creates only files with its own number, the control file last. -/
def numberRules : Rules sig Holding where
  pre
    | .getNewjobno, g => g.num = none
    | .creat _ jobid, g => g.num = some jobid ∧ g.filed = false
    | _, _ => True
  post
    | .getNewjobno, jobid, g => { g with num := some jobid }
    | .creat .reqs _, none, g => { g with filed := true }
    | _, _, g => g

/-- The calls that numberRules do not speak about. -/
def Call.Numberless : Call → Prop
  | getNewjobno => False
  | creat _ _ => False
  | _ => True

theorem Call.Transfer.numberless {c : Call} (h : c.Transfer) : c.Numberless := by
  cases c <;> trivial

theorem numbers_of_only {α : Type} {p : Prog sig α} (hp : p.Only Call.Numberless) {g : Holding}
    {final : α → Holding → Prop} (h : ∀ a, final a g) : numberRules.Obeys p g final := by
  refine Rules.Obeys.of_only (fun c hc g => ?_) (fun c hc r g => ?_) hp h
  · cases c <;> trivial
  · cases c <;> first | rfl | exact hc.elim

theorem numberless_reject (errno : Errno) : (reject errno).Only Call.Numberless :=
  ⟨trivial, fun _ => trivial⟩

theorem numberless_unlink (which : Dir) (jobid : ℤ) :
    (unlink which jobid).Only Call.Numberless := ⟨trivial, fun _ => trivial⟩

theorem numberless_addJobCall (job : Job) : (addJobCall job).Only Call.Numberless := by
  refine ⟨trivial, fun jp => ?_⟩
  rcases jp with _ | jp
  · trivial
  · exact ⟨trivial, fun _ => trivial⟩

theorem numberless_discard (jobid : ℤ) (errno : Errno) :
    (discard jobid errno).Only Call.Numberless :=
  (numberless_reject errno).bind fun _ => (numberless_unlink .reqs jobid).bind fun _ =>
    numberless_unlink .data jobid

theorem numberless_printerRound : printerRound.Only Call.Numberless := by
  refine ⟨trivial, fun jp => ⟨trivial, fun job => ?_⟩⟩
  have hfree : ∀ fate, (free jp fate).Only Call.Numberless := fun fate => ⟨trivial, fun _ => trivial⟩
  refine (only_updateJobno.mono fun _ => Call.Transfer.numberless).bind fun _ => ?_
  refine Prog.Only.bind ⟨trivial, fun _ => trivial⟩ fun opened => ?_
  refine Prog.Only.ite (Prog.Only.bind ⟨trivial, fun _ => trivial⟩ fun known => ?_) (hfree _)
  refine Prog.Only.ite ?_ (hfree _)
  refine ((only_sendToPrinter job).mono fun _ => Call.Transfer.numberless).bind fun printed => ?_
  refine Prog.Only.ite ?_ ⟨trivial, fun _ => trivial⟩
  exact (numberless_unlink _ _).bind fun _ => (numberless_unlink _ _).bind fun _ => hfree _

theorem numberless_queueEntry (name : ℤ) : (queueEntry name).Only Call.Numberless := by
  have hdrop : (dropEntry name).Only Call.Numberless :=
    (numberless_unlink .reqs name).bind fun _ => numberless_unlink .data name
  refine ⟨trivial, fun r => ?_⟩
  rcases r with _ | (_ | req)
  · trivial
  · exact hdrop
  · exact Prog.Only.ite hdrop (numberless_addJobCall _)

theorem numberless_queueEntries (names : List ℤ) :
    (queueEntries names).Only Call.Numberless := by
  induction names with
  | nil => trivial
  | cons name names ih => exact (numberless_queueEntry name).bind fun _ => ih

theorem numberless_buildQonstart : buildQonstart.Only Call.Numberless := by
  refine ⟨trivial, fun names => ?_⟩
  rcases names with _ | names
  · trivial
  · exact numberless_queueEntries names

section Client

variable {fuel : ℕ} {buf : List Byte} {final : Unit → Holding → Prop}

theorem numbers_enterJob {jobid : ℤ} {req : PrintReq} (h : ∀ g, final () g) :
    numberRules.Obeys (enterJob jobid req) ⟨some jobid, false⟩ final := by
  refine Rules.Obeys.call_bind ⟨rfl, rfl⟩ fun r => ?_
  rcases r with _ | e
  · refine numbers_of_only ?_ fun _ => h _
    refine Prog.Only.bind ⟨trivial, fun _ => trivial⟩ fun r => ?_
    rcases r with e | nw
    · exact numberless_discard jobid e
    · refine Prog.Only.ite (numberless_discard jobid _) ?_
      exact Prog.Only.bind ⟨trivial, fun _ => trivial⟩ fun _ => numberless_addJobCall _
  · refine numbers_of_only ?_ fun _ => h _
    exact (numberless_reject e).bind fun _ => numberless_unlink .data jobid

theorem numbers_acceptJob {req : PrintReq} (h : ∀ g, final () g) :
    numberRules.Obeys (acceptJob fuel buf req) ⟨none, false⟩ final := by
  refine Rules.Obeys.call_bind rfl fun (jobid : ℤ) => ?_
  refine Rules.Obeys.call_bind ⟨rfl, rfl⟩ fun r => ?_
  rcases r with _ | e
  · refine Rules.Obeys.bind (numbers_of_only ?_ fun r => ?_)
    · exact (only_receive fuel jobid req true buf).mono fun _ => Call.Transfer.numberless
    · rcases r with e | req'
      · refine numbers_of_only ?_ fun _ => h _
        exact (numberless_reject e).bind fun _ => numberless_unlink .data jobid
      · exact numbers_enterJob h
  · exact numbers_of_only (numberless_reject e) fun _ => h _

/-- client_thread obeys the rules from its start. -/
theorem numbers_clientThread (h : ∀ g, final () g) :
    numberRules.Obeys (clientThread fuel buf) ⟨none, false⟩ final := by
  refine Rules.Obeys.bind (numbers_of_only ?_ fun r => ?_)
  · exact (only_treadn _).mono fun _ => Call.Transfer.numberless
  · rcases r with e | bytes
    · exact numbers_of_only (numberless_reject e) fun _ => h _
    · by_cases hlen : bytes.length = SIZEOF_PRINTREQ
      · simp only [dif_pos hlen]
        exact numbers_acceptJob h
      · simp only [dif_neg hlen]
        exact numbers_of_only (numberless_reject _) fun _ => h _

end Client

theorem bmod_int32_range (v : ℤ) : -2 ^ 31 ≤ int32 v ∧ int32 v < 2 ^ 31 := by
  have hle := Int.le_bmod (x := v) (m := 2 ^ 32) (by decide)
  have hlt := Int.bmod_lt (x := v) (m := 2 ^ 32) (by decide)
  simp only [int32]
  omega

theorem initRequest_range (jobfile : List Byte) :
    -2 ^ 31 ≤ initRequest jobfile ∧ initRequest jobfile < 2 ^ 31 := by
  simp only [initRequest]
  split
  · decide
  · exact bmod_int32_range _

/-- Without a wrap-around the next number is larger. -/
theorem lt_nextJobno {jobid : ℤ} (hlo : -2 ^ 31 ≤ jobid) (hhi : jobid < 2 ^ 31 - 1) :
    jobid < nextJobno jobid ∧ nextJobno jobid < 2 ^ 31 := by
  have heq : int32 (jobid + 1) = jobid + 1 := by
    simp only [int32]
    exact Int.bmod_eq_of_le (by omega) (by omega)
  simp only [nextJobno, heq]
  split <;> omega

/-- All numbers in use are below the next one, threads have different numbers,
and a number has a control file only after its thread has created it. -/
structure NumberInv (d : Daemon) (g : Who → Holding) : Prop where
  range : -2 ^ 31 ≤ d.nextjob ∧ d.nextjob < 2 ^ 31
  files : ∀ n ∈ d.reqs, n < d.nextjob
  given : ∀ w n, (g w).num = some n → n < d.nextjob
  apart : ∀ w v n, w ≠ v → (g w).num = some n → (g v).num ≠ some n
  unfiled : ∀ w n, (g w).num = some n → (g w).filed = false → n ∉ d.reqs

namespace NumberInv

variable {d d' : Daemon} {g : Who → Holding}

/-- Files may go away, and nothing else happens. -/
theorem shrink (h : NumberInv d g) (hnext : d'.nextjob = d.nextjob)
    (hreqs : ∀ n ∈ d'.reqs, n ∈ d.reqs) : NumberInv d' g where
  range := hnext ▸ h.range
  files n hn := hnext ▸ h.files n (hreqs n hn)
  given w n hw := hnext ▸ h.given w n hw
  apart := h.apart
  unfiled w n hw hf hn := h.unfiled w n hw hf (hreqs n hn)

theorem number (h : NumberInv d g) (hwrap : d.nextjob ≠ 2 ^ 31 - 1) {w : Who} :
    NumberInv { d with nextjob := nextJobno d.nextjob }
      (Function.update g w { g w with num := some d.nextjob }) := by
  obtain ⟨hlt, hhi⟩ := lt_nextJobno h.range.1 (by have := h.range.2; omega)
  have hnum : ∀ v n, (Function.update g w { g w with num := some d.nextjob } v).num = some n →
      (v = w ∧ n = d.nextjob) ∨ (v ≠ w ∧ (g v).num = some n) := by
    intro v n hv
    by_cases hvw : v = w
    · subst hvw
      rw [Function.update_self] at hv
      exact Or.inl ⟨rfl, (Option.some.inj hv).symm⟩
    · rw [Function.update_of_ne hvw] at hv
      exact Or.inr ⟨hvw, hv⟩
  refine ⟨⟨?_, hhi⟩, fun n hn => (h.files n hn).trans hlt, fun v n hv => ?_, fun v u n hvu hv hu => ?_,
    fun v n hv hf => ?_⟩
  · have := h.range.1
    simp only
    omega
  · rcases hnum v n hv with ⟨-, rfl⟩ | ⟨-, hv⟩
    · exact hlt
    · exact (h.given v n hv).trans hlt
  · rcases hnum v n hv with ⟨rfl, rfl⟩ | ⟨-, hv'⟩
    · rcases hnum u _ hu with ⟨rfl, -⟩ | ⟨-, hu'⟩
      · exact hvu rfl
      · exact lt_irrefl _ (h.given u _ hu')
    · rcases hnum u n hu with ⟨rfl, rfl⟩ | ⟨-, hu'⟩
      · exact lt_irrefl _ (h.given v _ hv')
      · exact h.apart v u n hvu hv' hu'
  · rcases hnum v n hv with ⟨rfl, rfl⟩ | ⟨hvw, hv⟩
    · exact fun hn => lt_irrefl _ (h.files _ hn)
    · rw [Function.update_of_ne hvw] at hf
      exact h.unfiled v n hv hf

/-- A control file is created. -/
theorem file (h : NumberInv d g) {w : Who} {jobid : ℤ} (hw : (g w).num = some jobid)
    (hnext : d'.nextjob = d.nextjob) (hreqs : ∀ n, n ∈ d'.reqs ↔ n = jobid ∨ n ∈ d.reqs) :
    NumberInv d' (Function.update g w { g w with filed := true }) := by
  have hnum : ∀ v, (Function.update g w { g w with filed := true } v).num = (g v).num := by
    intro v
    by_cases hvw : v = w
    · subst hvw
      rw [Function.update_self]
    · rw [Function.update_of_ne hvw]
  refine ⟨hnext ▸ h.range, fun n hn => ?_, fun v n hv => ?_, fun v u n hvu hv => ?_,
    fun v n hv hf hn => ?_⟩
  · rw [hnext]
    rcases (hreqs n).mp hn with rfl | hn
    · exact h.given w n hw
    · exact h.files n hn
  · rw [hnext]
    exact h.given v n (hnum v ▸ hv)
  · rw [hnum] at hv ⊢
    exact h.apart v u n hvu hv
  · rw [hnum] at hv
    by_cases hvw : v = w
    · rw [hvw, Function.update_self] at hf
      cases hf
    · rw [Function.update_of_ne hvw] at hf
      rcases (hreqs n).mp hn with rfl | hn
      · exact h.apart v w n hvw hv hw
      · exact h.unfiled v n hv hf hn

/-- A call of thread `w` that the rules allow. -/
theorem effect (h : NumberInv d g) {w : Who} {c : Call} {r : c.Ret}
    (hpre : numberRules.pre c (g w)) (heff : Effect c r d d')
    (hwrap : c = .getNewjobno → d.nextjob ≠ 2 ^ 31 - 1) :
    NumberInv d' (Function.update g w (numberRules.post c r (g w))) := by
  have hkeep : NumberInv d' g → numberRules.post c r (g w) = g w →
      NumberInv d' (Function.update g w (numberRules.post c r (g w))) := fun hd' he => by
    rw [he, Function.update_eq_self]
    exact hd'
  cases heff with
  | still hc => exact hkeep h (by cases c <;> first | rfl | exact hc.elim)
  | number => exact h.number (hwrap rfl)
  | @created which jobid =>
    cases which with
    | data => exact hkeep (h.shrink rfl fun n hn => hn) rfl
    | reqs => exact h.file hpre.1 rfl fun n => AList.mem_insert _
  | @notCreated which jobid e => cases which <;> exact hkeep h rfl
  | wrote hn =>
    exact hkeep (h.shrink (d.append_nextjob ..) fun n hn => (d.mem_reqs_append ..).mp hn) rfl
  | @unlinked which jobid =>
    cases which with
    | data => exact hkeep (h.shrink rfl fun n hn => hn) rfl
    | reqs => exact hkeep (h.shrink rfl fun n hn => (AList.mem_erase.mp hn).2) rfl
  | allocated hfree => exact hkeep (h.shrink rfl fun n hn => hn) rfl
  | notAllocated => exact hkeep h rfl
  | added hjob hq => exact hkeep (h.shrink rfl fun n hn => hn) rfl
  | taken hhead hjob hq => exact hkeep (h.shrink rfl fun n hn => hn) rfl
  | loaded hjob => exact hkeep h rfl
  | updated => exact hkeep (h.shrink rfl fun n hn => hn) rfl
  | replaced hjob hq => exact hkeep (h.shrink rfl fun n hn => hn) rfl
  | freed hjob => exact hkeep (h.shrink rfl fun n hn => hn) rfl
  | listed hperm => exact hkeep h rfl
  | notListed => exact hkeep h rfl
  | read hfile => exact hkeep h rfl
  | notRead hr => exact hkeep h rfl

/-- A thread that has not been given a number yet, or never will be. -/
theorem forget (h : NumberInv d g) (w : Who) : NumberInv d (Function.update g w ⟨none, false⟩) := by
  have hnum : ∀ v n, (Function.update g w ⟨none, false⟩ v).num = some n →
      Function.update g w ⟨none, false⟩ v = g v := by
    intro v n hv
    by_cases hvw : v = w
    · rw [hvw, Function.update_self] at hv
      cases hv
    · exact Function.update_of_ne hvw _ _
  refine ⟨h.range, h.files, fun v n hv => ?_, fun v u n hvu hv hu => ?_, fun v n hv hf => ?_⟩
  · exact h.given v n (hnum v n hv ▸ hv)
  · exact h.apart v u n hvu (hnum v n hv ▸ hv) (hnum u n hu ▸ hu)
  · exact h.unfiled v n (hnum v n hv ▸ hv) (hnum v n hv ▸ hf)

end NumberInv

/-- The thread is about to call get_newjobno. -/
def atNewjobno : Prog sig Unit → Bool
  | .call .getNewjobno _ => true
  | _ => false

/-- When the daemon starts, the number in the job file is larger than the
numbers of all control files; and the numbers do not wrap around. -/
def NumbersKept (s : System) : Action → Prop
  | .start => ∀ n ∈ s.daemon.reqs.keys, n < initRequest s.daemon.jobfile
  | .run w _ => atNewjobno (s.thread w) = true → s.daemon.nextjob ≠ 2 ^ 31 - 1
  | _ => True

instance (s : System) : (a : Action) → Decidable (NumbersKept s a)
  | .start => inferInstanceAs (Decidable (∀ n ∈ s.daemon.reqs.keys, _))
  | .run w _ => inferInstanceAs (Decidable (atNewjobno (s.thread w) = true → _))
  | .stop => inferInstanceAs (Decidable True)
  | .accept _ _ => inferInstanceAs (Decidable True)
  | .again => inferInstanceAs (Decidable True)

/-- A step of the daemon that meets the condition. -/
def KeptStep (fuel : ℕ) (s s' : System) : Prop := ∃ a, NumbersKept s a ∧ step fuel a s = some s'

/-- The invariant while the daemon runs. -/
def NumbersOk (s : System) : Prop :=
  s.up = true → ∃ g, Follows numberRules (fun _ => True) s.thread g ∧ NumberInv s.daemon g

theorem numbersOk_step {fuel : ℕ} {s s' : System} (hs : KeptStep fuel s s') (h : NumbersOk s) :
    NumbersOk s' := by
  obtain ⟨a, hkept, hs⟩ := hs
  rcases step_cases hs with ⟨rfl, -, rfl⟩ | ⟨rfl, rfl⟩ | ⟨t, buf, rfl, hup, -, -, rfl⟩ |
    ⟨rfl, hup, -, rfl⟩ | ⟨w, choice, c, k, r, d, rfl, hup, ht, hperf, rfl⟩
  · intro _
    refine ⟨fun _ => ⟨none, false⟩, fun w => ?_, initRequest_range _, hkept, ?_, ?_, ?_⟩
    · cases w with
      | main => exact numbers_of_only numberless_buildQonstart fun _ => trivial
      | printer => exact numbers_of_only numberless_printerRound fun _ => trivial
      | client t => trivial
    · exact fun w n hw => nomatch hw
    · exact fun w v n _ hw => nomatch hw
    · exact fun w n hw => nomatch hw
  · exact fun hup => nomatch hup
  · intro _
    obtain ⟨g, hfollows, hinv⟩ := h hup
    exact ⟨_, hfollows.set (.client t) (numbers_clientThread fun _ => trivial), hinv.forget _⟩
  · intro _
    obtain ⟨g, hfollows, hinv⟩ := h hup
    refine ⟨Function.update g .printer ⟨none, false⟩, hfollows.set .printer ?_, hinv.forget .printer⟩
    exact numbers_of_only numberless_printerRound fun _ => trivial
  · intro _
    obtain ⟨g, hfollows, hinv⟩ := h hup
    obtain ⟨hpre, hfollows'⟩ := hfollows.call ht r
    refine ⟨_, hfollows', hinv.effect hpre (perform_effect hperf) ?_⟩
    rintro rfl
    refine hkept ?_
    rw [ht]
    rfl

theorem numbersOk_reach {fuel : ℕ} {s : System}
    (h : Relation.ReflTransGen (KeptStep fuel) installed s) : NumbersOk s := by
  induction h with
  | refl => exact fun hup => nomatch hup
  | tail _ hs ih => exact numbersOk_step hs ih

/-- In every run in which the job file is ahead of the control files at each
start and the numbers do not wrap around, a new number is not the number of a
job with a control file, and no file of such a job is truncated by creat. -/
theorem jobno_fresh {fuel : ℕ} {s : System}
    (h : Relation.ReflTransGen (KeptStep fuel) installed s) (hup : s.up = true) (w : Who) :
    (∀ k choice jobid d, s.thread w = .call .getNewjobno k →
      perform choice .getNewjobno s.daemon = some (jobid, d) → jobid ∉ s.daemon.reqs) ∧
    ∀ which jobid k, s.thread w = .call (.creat which jobid) k → jobid ∉ s.daemon.reqs := by
  obtain ⟨g, hfollows, hinv⟩ := numbersOk_reach h hup
  constructor
  · intro k choice jobid d _ hperf hmem
    cases hperf
    exact lt_irrefl _ (hinv.files _ hmem)
  · intro which jobid k ht
    have hobey := hfollows w
    rw [ht] at hobey
    exact hinv.unfiled w jobid hobey.1.1 hobey.1.2

theorem exists_of_atNewjobno {p : Prog sig Unit} (h : atNewjobno p = true) :
    ∃ k, p = .call .getNewjobno k := by
  cases p with
  | call c k => cases c <;> first | exact ⟨k, rfl⟩ | cases h
  | ret a => cases h
  | abort msg => cases h
  | diverge => cases h

/-- The daemon starts again with the given control files, and a client has sent
its header. -/
def restart (names : List ℤ) : List Action :=
  [.stop, .start, .run .main (.names names)] ++ (names.zipIdx.flatMap fun a =>
    [.run .main .ok, .run .main (.addr a.2), .run .main .ok]) ++
    [.accept 0 [], .run (.client 0) (.bytes (List.replicate SIZEOF_PRINTREQ 0))]

/-- A job is in the hands of the printer thread when the daemon is stopped, and
the next number is not in use. -/
theorem jobno_fresh_restart : ∃ s jobid d,
    Relation.ReflTransGen (KeptStep 10) installed s ∧
      perform .ok .getNewjobno s.daemon = some (jobid, d) ∧ s.daemon.reqs.keys = [1] ∧
      jobid ∉ s.daemon.reqs := by
  have hrun : (steps (fun s a => if NumbersKept s a then step 10 a s else none)
      ([.start, .run .main (.names [])] ++ submission 0 0 ++ pickUp ++ restart [1]) installed).any
      (fun s => s.up && atNewjobno (s.thread (.client 0)) && s.daemon.reqs.keys == [1]) = true := by
    decide +kernel
  obtain ⟨s, hs, hcheck⟩ := (Option.any_eq_true _ _).mp hrun
  simp only [Bool.and_eq_true, beq_iff_eq] at hcheck
  have hreach : Relation.ReflTransGen (KeptStep 10) installed s := by
    refine Relation.ReflTransGen.mono ?_ _ _ (reach_of_steps hs)
    rintro s₁ s₂ ⟨a, ha⟩
    split at ha
    · exact ⟨a, ‹_›, ha⟩
    · cases ha
  obtain ⟨k, hk⟩ := exists_of_atNewjobno hcheck.1.2
  exact ⟨s, _, _, hreach, rfl, hcheck.2,
    (jobno_fresh hreach hcheck.1.1 (.client 0)).1 k .ok _ _ hk rfl⟩

/-- A job waits behind the one in the printer's hands when the daemon is stopped.
Its number is handed out again. -/
theorem jobno_reused :
    ¬ ∀ fuel s, Relation.ReflTransGen (fun s s' => ∃ a, step fuel a s = some s') installed s →
      s.up = true → ∀ w k choice jobid d, s.thread w = .call .getNewjobno k →
        perform choice .getNewjobno s.daemon = some (jobid, d) → jobid ∉ s.daemon.reqs := by
  intro hall
  have hrun : (steps (fun s a => step 10 a s) ([.start, .run .main (.names [])] ++
      submission 0 0 ++ pickUp ++ submission 1 1 ++ restart [2, 1]) installed).any
      (fun s => s.up && atNewjobno (s.thread (.client 0)) &&
        (s.daemon.reqs.lookup s.daemon.nextjob).isSome) = true := by
    decide +kernel
  obtain ⟨s, hs, hcheck⟩ := (Option.any_eq_true _ _).mp hrun
  simp only [Bool.and_eq_true] at hcheck
  obtain ⟨k, hk⟩ := exists_of_atNewjobno hcheck.1.2
  have hmem : s.daemon.nextjob ∈ s.daemon.reqs := AList.lookup_isSome.mp hcheck.2
  exact hall 10 s (reach_of_steps hs) hcheck.1.1 (.client 0) k .ok _ _ hk rfl hmem

end Apue.Print
