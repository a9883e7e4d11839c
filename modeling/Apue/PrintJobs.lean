import Apue.PrintDaemon

/-!
The way of the jobs through the daemon. A thread holds at most one node of the
queue at a time: a client thread or the main thread one that it has allocated
and not yet linked, the printer thread one that it has taken out. Every job that
was added is finished, in the printer's hands or in the queue, and these three
follow each other in the order in which the jobs were added.
-/
namespace Apue.Print

open Programs Decimal ByteFiles DoublyLinked

/-- The node that a thread holds. -/
inductive Hand
  | empty
  | new (jp : ℕ)
  | took (jp : ℕ)
  deriving DecidableEq

/-- What the rules know of a thread; only the printer thread takes jobs. -/
structure Grip where
  mayTake : Bool
  hand : Hand

def nodeRules : Rules sig Grip where
  pre
    | .malloc _, g => g.hand = .empty
    | .addJob jp, g => g.hand = .new jp
    | .takeJob, g => g.mayTake = true ∧ g.hand = .empty
    | .loadJob jp, g => g.hand = .took jp
    | .replaceJob jp, g => g.hand = .took jp
    | .free jp _, g => g.hand = .took jp
    | _, _ => True
  post
    | .malloc _, some jp, g => { g with hand := .new jp }
    | .addJob _, _, g => { g with hand := .empty }
    | .takeJob, jp, g => { g with hand := .took jp }
    | .replaceJob _, _, g => { g with hand := .empty }
    | .free _ _, _, g => { g with hand := .empty }
    | _, _, g => g

/-- The calls that nodeRules do not speak about. -/
def Call.Nodeless : Call → Prop
  | malloc _ => False
  | addJob _ => False
  | takeJob => False
  | loadJob _ => False
  | replaceJob _ => False
  | free _ _ => False
  | _ => True

theorem Call.Transfer.nodeless {c : Call} (h : c.Transfer) : c.Nodeless := by
  cases c <;> trivial

theorem nodes_of_only {α : Type} {p : Prog sig α} (hp : p.Only Call.Nodeless) {g : Grip}
    {final : α → Grip → Prop} (h : ∀ a, final a g) : nodeRules.Obeys p g final := by
  refine Rules.Obeys.of_only (fun c hc g => ?_) (fun c hc r g => ?_) hp h
  · cases c <;> trivial
  · cases c <;> first | rfl | exact hc.elim

theorem nodeless_reject (errno : Errno) : (reject errno).Only Call.Nodeless :=
  ⟨trivial, fun _ => trivial⟩

theorem nodeless_unlink (which : Dir) (jobid : ℤ) : (unlink which jobid).Only Call.Nodeless :=
  ⟨trivial, fun _ => trivial⟩

theorem nodeless_discard (jobid : ℤ) (errno : Errno) : (discard jobid errno).Only Call.Nodeless :=
  (nodeless_reject errno).bind fun _ => (nodeless_unlink .reqs jobid).bind fun _ =>
    nodeless_unlink .data jobid

section Threads

variable {b : Bool} {final : Unit → Grip → Prop}

theorem nodes_addJobCall (job : Job) (h : final () ⟨b, .empty⟩) :
    nodeRules.Obeys (addJobCall job) ⟨b, .empty⟩ final := by
  refine ⟨rfl, fun jp => ?_⟩
  rcases jp with _ | jp
  · trivial
  · exact ⟨rfl, fun _ => h⟩

theorem nodes_enterJob {jobid : ℤ} {req : PrintReq} (h : final () ⟨b, .empty⟩) :
    nodeRules.Obeys (enterJob jobid req) ⟨b, .empty⟩ final := by
  refine Rules.Obeys.call_bind trivial fun r => ?_
  rcases r with _ | e
  · refine Rules.Obeys.call_bind trivial fun r => ?_
    rcases r with e | nw
    · exact nodes_of_only (nodeless_discard jobid e) fun _ => h
    · by_cases hnw : nw ≠ SIZEOF_PRINTREQ
      · simp only [if_pos hnw]
        exact nodes_of_only (nodeless_discard jobid _) fun _ => h
      · simp only [if_neg hnw]
        exact Rules.Obeys.call_bind trivial fun _ => nodes_addJobCall _ h
  · refine nodes_of_only ?_ fun _ => h
    exact (nodeless_reject e).bind fun _ => nodeless_unlink .data jobid

theorem nodes_clientThread {fuel : ℕ} {buf : List Byte} (h : final () ⟨b, .empty⟩) :
    nodeRules.Obeys (clientThread fuel buf) ⟨b, .empty⟩ final := by
  refine Rules.Obeys.bind (nodes_of_only ?_ fun r => ?_)
  · exact (only_treadn _).mono fun _ => Call.Transfer.nodeless
  rcases r with e | bytes
  · exact nodes_of_only (nodeless_reject e) fun _ => h
  by_cases hlen : bytes.length = SIZEOF_PRINTREQ
  · simp only [dif_pos hlen]
    refine Rules.Obeys.call_bind trivial fun (jobid : ℤ) => ?_
    refine Rules.Obeys.call_bind trivial fun r => ?_
    rcases r with _ | e
    · refine Rules.Obeys.bind (nodes_of_only ?_ fun r => ?_)
      · exact (only_receive _ _ _ _ _).mono fun _ => Call.Transfer.nodeless
      · rcases r with e | req
        · refine nodes_of_only ?_ fun _ => h
          exact (nodeless_reject e).bind fun _ => nodeless_unlink .data jobid
        · exact nodes_enterJob h
    · exact nodes_of_only (nodeless_reject e) fun _ => h
  · simp only [dif_neg hlen]
    exact nodes_of_only (nodeless_reject _) fun _ => h

theorem nodes_queueEntries {names : List ℤ} (h : final () ⟨b, .empty⟩) :
    nodeRules.Obeys (queueEntries names) ⟨b, .empty⟩ final := by
  induction names with
  | nil => exact h
  | cons name names ih =>
    have hdrop : (dropEntry name).Only Call.Nodeless :=
      (nodeless_unlink .reqs name).bind fun _ => nodeless_unlink .data name
    refine Rules.Obeys.bind ⟨trivial, fun r => ?_⟩
    rcases r with _ | (_ | req)
    · exact ih
    · exact nodes_of_only hdrop fun _ => ih
    · by_cases hreq : req.length ≠ SIZEOF_PRINTREQ
      · simp only [if_pos hreq]
        exact nodes_of_only hdrop fun _ => ih
      · simp only [if_neg hreq]
        exact nodes_addJobCall _ ih

theorem nodes_buildQonstart (h : final () ⟨b, .empty⟩) :
    nodeRules.Obeys buildQonstart ⟨b, .empty⟩ final := by
  refine ⟨trivial, fun names => ?_⟩
  rcases names with _ | names
  · exact h
  · exact nodes_queueEntries h

theorem nodes_printerRound (h : final () ⟨true, .empty⟩) :
    nodeRules.Obeys printerRound ⟨true, .empty⟩ final := by
  refine ⟨⟨rfl, rfl⟩, fun (jp : ℕ) => ⟨rfl, fun job => ?_⟩⟩
  have hfree : ∀ fate, nodeRules.Obeys (free jp fate) ⟨true, .took jp⟩ final :=
    fun fate => ⟨rfl, fun _ => h⟩
  refine Rules.Obeys.bind (nodes_of_only ?_ fun _ => ?_)
  · exact only_updateJobno.mono fun _ => Call.Transfer.nodeless
  refine Rules.Obeys.call_bind trivial fun (opened : Bool) => ?_
  cases opened with
  | false => exact hfree _
  | true =>
    refine Rules.Obeys.call_bind trivial fun (known : Bool) => ?_
    cases known with
    | false => exact hfree _
    | true =>
      refine Rules.Obeys.bind (nodes_of_only ?_ fun printed => ?_)
      · exact (only_sendToPrinter job).mono fun _ => Call.Transfer.nodeless
      · cases printed with
        | false => exact ⟨rfl, fun _ => h⟩
        | true =>
          refine Rules.Obeys.call_bind trivial fun _ => ?_
          exact Rules.Obeys.call_bind trivial fun _ => hfree _

end Threads

def addedJobs (log : List JobEvent) : List Job :=
  log.filterMap fun
    | .added job => some job
    | _ => none

/-- The jobs completed or canceled. -/
def finishedJobs (log : List JobEvent) : List Job :=
  log.filterMap fun
    | .finished job _ => some job
    | _ => none

/-- The job taken last, unless it was put back or finished. -/
def inHand (log : List JobEvent) : Option Job :=
  log.foldl (fun cur e => match e with
    | .added _ => cur
    | .taken job => some job
    | .deferred _ => none
    | .finished _ _ => none) none

theorem addedJobs_append (log log' : List JobEvent) :
    addedJobs (log ++ log') = addedJobs log ++ addedJobs log' := List.filterMap_append

theorem finishedJobs_append (log log' : List JobEvent) :
    finishedJobs (log ++ log') = finishedJobs log ++ finishedJobs log' := List.filterMap_append

theorem inHand_concat (log : List JobEvent) (e : JobEvent) :
    inHand (log ++ [e]) = match e with
      | .added _ => inHand log
      | .taken job => some job
      | .deferred _ => none
      | .finished _ _ => none := by
  simp only [inHand, List.foldl_append, List.foldl_cons, List.foldl_nil]

def Hand.node : Hand → Option ℕ
  | empty => none
  | new jp => some jp
  | took jp => some jp

/-- Every job that was taken was the first of those added and not finished. -/
def TakenInOrder (log : List JobEvent) : Prop :=
  ∀ past job, past ++ [.taken job] <+: log → finishedJobs past ++ [job] <+: addedJobs past

/-- The queue has the nodes `l`. The nodes that threads hold are outside of it
and different from each other. -/
structure JobsInv (q : Queue) (log : List JobEvent) (g : Who → Grip) (l : List ℕ) : Prop where
  has : q.Has l
  new : ∀ w jp, (g w).hand = .new jp → ∃ n, q.heap jp = some n ∧ n.next = none
  took : ∀ w jp, (g w).hand = .took jp →
    w = .printer ∧ ∃ n, q.heap jp = some n ∧ inHand log = some n.val
  outside : ∀ w jp, (g w).hand.node = some jp → jp ∉ l
  apart : ∀ w v jp, w ≠ v → (g w).hand.node = some jp → (g v).hand.node ≠ some jp
  printer : ∀ w, (g w).mayTake = true → w = .printer
  idle : (∀ jp, (g .printer).hand ≠ .took jp) → inHand log = none
  order : addedJobs log = finishedJobs log ++ (inHand log).toList ++ vals q.heap l
  takes : TakenInOrder log

theorem takenInOrder_concat {log : List JobEvent} {e : JobEvent} (h : TakenInOrder log)
    (he : ∀ job, e = .taken job → finishedJobs log ++ [job] <+: addedJobs log) :
    TakenInOrder (log ++ [e]) := by
  intro past job hpre
  rcases List.prefix_concat_iff.mp hpre with heq | hpre
  · obtain ⟨rfl, hev⟩ := List.append_inj' heq rfl
    exact he job (List.cons.inj hev).1.symm
  · exact h past job hpre

namespace JobsInv

variable {q q' : Queue} {log : List JobEvent} {g : Who → Grip} {l : List ℕ} {w : Who} {jp : ℕ}

/-- A node that is held is allocated. -/
theorem alloc (h : JobsInv q log g l) (hw : (g w).hand.node = some jp) : ∃ n, q.heap jp = some n := by
  cases hhand : (g w).hand with
  | empty =>
    rw [hhand] at hw
    cases hw
  | new a =>
    rw [hhand] at hw
    obtain rfl := Option.some.inj hw
    obtain ⟨n, hn, -⟩ := h.new w a hhand
    exact ⟨n, hn⟩
  | took a =>
    rw [hhand] at hw
    obtain rfl := Option.some.inj hw
    obtain ⟨-, n, hn, -⟩ := h.took w a hhand
    exact ⟨n, hn⟩

/-- The hands of the threads after one of them got `hand`. -/
theorem node_update {hand : Hand} {v : Who} {a : ℕ}
    (hv : (Function.update g w { g w with hand := hand } v).hand.node = some a) :
    (v = w ∧ hand.node = some a) ∨ (v ≠ w ∧ (g v).hand.node = some a) := by
  by_cases hvw : v = w
  · subst hvw
    rw [Function.update_self] at hv
    exact Or.inl ⟨rfl, hv⟩
  · rw [Function.update_of_ne hvw] at hv
    exact Or.inr ⟨hvw, hv⟩

/-- Thread `w` gets another node or none, the queue becomes `l'`, and the log may
be extended. What has to be seen to is only the node of `w`, the queue and the
order; the nodes that other threads hold must not have been touched. -/
theorem move {log' : List JobEvent} {hand : Hand} {l' : List ℕ} (h : JobsInv q log g l)
    (hhas : q'.Has l')
    (hother : ∀ v a, v ≠ w → (g v).hand.node = some a →
      q'.heap a = q.heap a ∧ a ∉ l' ∧ hand.node ≠ some a)
    (hlog : w ≠ .printer → inHand log' = inHand log)
    (hnew : ∀ a, hand = .new a → a ∉ l' ∧ ∃ n, q'.heap a = some n ∧ n.next = none)
    (htook : ∀ a, hand = .took a → w = .printer ∧ a ∉ l' ∧
      ∃ n, q'.heap a = some n ∧ inHand log' = some n.val)
    (hidle : w = .printer → (∀ a, hand ≠ .took a) → inHand log' = none)
    (horder : addedJobs log' = finishedJobs log' ++ (inHand log').toList ++ vals q'.heap l')
    (htakes : TakenInOrder log') :
    JobsInv q' log' (Function.update g w { g w with hand := hand }) l' where
  has := hhas
  new v a hv := by
    by_cases hvw : v = w
    · rw [hvw, Function.update_self] at hv
      exact (hnew a hv).2
    · rw [Function.update_of_ne hvw] at hv
      rw [(hother v a hvw (by rw [hv]; rfl)).1]
      exact h.new v a hv
  took v a hv := by
    by_cases hvw : v = w
    · rw [hvw, Function.update_self] at hv
      obtain ⟨hp, -, hn⟩ := htook a hv
      exact ⟨hvw.trans hp, hn⟩
    · rw [Function.update_of_ne hvw] at hv
      obtain ⟨rfl, n, hn, hval⟩ := h.took v a hv
      rw [(hother .printer a hvw (by rw [hv]; rfl)).1, hlog fun hw => hvw hw.symm]
      exact ⟨rfl, n, hn, hval⟩
  outside v a hv := by
    rcases node_update hv with ⟨-, hnode⟩ | ⟨hvw, hv⟩
    · cases hand with
      | empty => cases hnode
      | new b =>
        obtain rfl := Option.some.inj hnode
        exact (hnew b rfl).1
      | took b =>
        obtain rfl := Option.some.inj hnode
        exact (htook b rfl).2.1
    · exact (hother v a hvw hv).2.1
  apart v u a hvu hv hu := by
    rcases node_update hv with ⟨rfl, hnode⟩ | ⟨hvw, hv'⟩
    · rcases node_update hu with ⟨rfl, -⟩ | ⟨huw, hu'⟩
      · exact hvu rfl
      · exact (hother u a huw hu').2.2 hnode
    · rcases node_update hu with ⟨rfl, hnode⟩ | ⟨huw, hu'⟩
      · exact (hother v a hvw hv').2.2 hnode
      · exact h.apart v u a hvu hv' hu'
  printer v hv := by
    by_cases hvw : v = w
    · rw [hvw, Function.update_self] at hv
      exact hvw.trans (h.printer w hv)
    · rw [Function.update_of_ne hvw] at hv
      exact h.printer v hv
  idle hp := by
    by_cases hw : w = .printer
    · refine hidle hw fun a ha => hp a ?_
      rw [hw, Function.update_self]
      exact ha
    · rw [hlog hw]
      refine h.idle fun a ha => hp a ?_
      rw [Function.update_of_ne fun he => hw he.symm]
      exact ha
  order := horder
  takes := htakes

theorem notMem_of_free (h : JobsInv q log g l) (hfree : q.heap jp = none) : jp ∉ l := by
  intro hmem
  obtain ⟨n, hn⟩ := h.has.segment.alloc hmem
  cases hn.symm.trans hfree

theorem allocated (h : JobsInv q log g l) (hw : (g w).hand = .empty) {job : Job}
    (hfree : q.heap jp = none) :
    JobsInv (newJob q jp job) log (Function.update g w { g w with hand := .new jp }) l := by
  have hjp := h.notMem_of_free hfree
  have hframe : ∀ a, a ≠ jp → (newJob q jp job).heap a = q.heap a := fun a ha =>
    Function.update_of_ne ha _ _
  have hl : ∀ a ∈ l, (newJob q jp job).heap a = q.heap a := fun a ha =>
    hframe a fun he => hjp (he ▸ ha)
  refine h.move (h.has.congr rfl rfl hl) (fun v a hv ha => ?_) (fun _ => rfl) ?_ nofun ?_ ?_ h.takes
  · obtain ⟨n, hn⟩ := h.alloc ha
    have hne : a ≠ jp := by
      rintro rfl
      cases hn.symm.trans hfree
    exact ⟨hframe a hne, h.outside v a ha, fun he => hne (Option.some.inj he).symm⟩
  · rintro a ha
    obtain rfl := Hand.new.inj ha
    exact ⟨hjp, _, Function.update_self .., rfl⟩
  · rintro rfl -
    refine h.idle fun a ha => ?_
    rw [hw] at ha
    cases ha
  · rw [h.order, vals_congr fun a ha => congrArg _ (hl a ha)]

theorem added (h : JobsInv q log g l) (hw : (g w).hand = .new jp) {job : Job}
    (hjob : (q.heap jp).map Node.val = some job) (hq : addJob q jp = some q') :
    JobsInv q' (log ++ [.added job]) (Function.update g w { g w with hand := .empty })
      (l ++ [jp]) := by
  obtain ⟨n, hn, hnext⟩ := h.new w jp hw
  have hnode : (g w).hand.node = some jp := by rw [hw]; rfl
  have hjp := h.outside w jp hnode
  obtain ⟨q₁, hq₁, hhas, hframe, hval⟩ := addJob_spec h.has hn hnext hjp
  obtain rfl := Option.some.inj (hq.symm.trans hq₁)
  refine h.move hhas (fun v a hv ha => ?_) (fun _ => inHand_concat ..)
    (fun _ he => by cases he) (fun _ he => by cases he) ?_ ?_ ?_
  · have hne : a ≠ jp := by
      rintro rfl
      exact h.apart v w a hv ha hnode
    refine ⟨hframe a (h.outside v a ha) hne, ?_, (by rintro ⟨⟩)⟩
    rw [List.mem_append, List.mem_singleton]
    rintro (hmem | rfl)
    · exact h.outside v a ha hmem
    · exact hne rfl
  · rintro rfl -
    rw [inHand_concat]
    refine h.idle fun a ha => ?_
    rw [hw] at ha
    cases ha
  · have hvals : vals q'.heap (l ++ [jp]) = vals q.heap l ++ [job] := by
      rw [vals_append, vals_congr fun a _ => hval a]
      simp only [vals, List.filterMap_cons, List.filterMap_nil, hval, hjob]
    rw [hvals, inHand_concat, addedJobs_append, finishedJobs_append, h.order]
    simp [addedJobs, finishedJobs]
  · exact takenInOrder_concat h.takes (fun _ he => by cases he)

theorem taken (h : JobsInv q log g l) (hmay : (g w).mayTake = true) (hw : (g w).hand = .empty)
    {job : Job} (hhead : q.jobhead = some jp) (hjob : (q.heap jp).map Node.val = some job)
    (hq : removeJob q jp = some q') :
    ∃ l', JobsInv q' (log ++ [.taken job]) (Function.update g w { g w with hand := .took jp }) l' := by
  have hprinter := h.printer w hmay
  have hnone : inHand log = none := by
    refine h.idle fun a ha => ?_
    rw [← hprinter, hw] at ha
    cases ha
  cases l with
  | nil => cases hhead.symm.trans h.has.head_eq
  | cons a l =>
    obtain rfl : jp = a := Option.some.inj (hhead.symm.trans h.has.head_eq)
    have hjp : jp ∉ l := (List.nodup_cons.mp h.has.nodup).1
    have hfirst : q.Has ([] ++ jp :: l) := h.has
    obtain ⟨q₁, hq₁, hhas, hframe, hval⟩ := removeJob_spec hfirst
    obtain rfl := Option.some.inj (hq.symm.trans hq₁)
    obtain ⟨n, hn, rfl⟩ := Option.map_eq_some_iff.mp hjob
    have horder : addedJobs log = finishedJobs log ++ n.val :: vals q.heap l := by
      rw [h.order, hnone]
      simp [vals, hn]
    refine ⟨l, h.move hhas (fun v a hv ha => ?_) (fun hne => absurd hprinter hne)
      (fun _ he => by cases he) ?_
      (fun _ hne => absurd rfl (hne jp)) ?_ ?_⟩
    · have hout := h.outside v a ha
      rw [List.mem_cons, not_or] at hout
      exact ⟨hframe a hout.2, hout.2, fun he => hout.1 (Option.some.inj he).symm⟩
    · rintro a ha
      obtain rfl := Hand.took.inj ha
      exact ⟨hprinter, hjp, n, (hframe jp hjp).trans hn, inHand_concat ..⟩
    · rw [inHand_concat, addedJobs_append, finishedJobs_append, horder,
        vals_congr fun a _ => hval a]
      simp [addedJobs, finishedJobs]
    · refine takenInOrder_concat h.takes fun job' he => ?_
      obtain rfl := JobEvent.taken.inj he
      rw [horder]
      exact ⟨vals q.heap l, by rw [List.append_assoc]; rfl⟩

theorem replaced (h : JobsInv q log g l) (hw : (g w).hand = .took jp) {job : Job}
    (hjob : (q.heap jp).map Node.val = some job) (hq : replaceJob q jp = some q') :
    JobsInv q' (log ++ [.deferred job]) (Function.update g w { g w with hand := .empty })
      (jp :: l) := by
  obtain ⟨hprinter, n, hn, hhand⟩ := h.took w jp hw
  have hnode : (g w).hand.node = some jp := by rw [hw]; rfl
  have hjp := h.outside w jp hnode
  obtain ⟨q₁, hq₁, hhas, hframe, hval⟩ := replaceJob_spec h.has hn hjp
  obtain rfl := Option.some.inj (hq.symm.trans hq₁)
  refine h.move hhas (fun v a hv ha => ?_) (fun hne => absurd hprinter hne) nofun nofun
    (fun _ _ => inHand_concat ..) ?_ (takenInOrder_concat h.takes nofun)
  · have hne : a ≠ jp := by
      rintro rfl
      exact h.apart v w a hv ha hnode
    refine ⟨hframe a (h.outside v a ha) hne, ?_, nofun⟩
    rw [List.mem_cons, not_or]
    exact ⟨hne, h.outside v a ha⟩
  · have hvals : vals q'.heap (jp :: l) = n.val :: vals q.heap l := by
      rw [vals_congr fun a _ => hval a]
      simp [vals, hn]
    rw [hvals, inHand_concat, addedJobs_append, finishedJobs_append, h.order, hhand]
    simp [addedJobs, finishedJobs]

theorem freed (h : JobsInv q log g l) (hw : (g w).hand = .took jp) {job : Job} {fate : Fate}
    (hjob : (q.heap jp).map Node.val = some job) :
    JobsInv (freeJob q jp) (log ++ [.finished job fate])
      (Function.update g w { g w with hand := .empty }) l := by
  obtain ⟨hprinter, n, hn, hhand⟩ := h.took w jp hw
  have hnode : (g w).hand.node = some jp := by rw [hw]; rfl
  have hjp := h.outside w jp hnode
  have hframe : ∀ a, a ≠ jp → (freeJob q jp).heap a = q.heap a := fun a ha =>
    Function.update_of_ne ha _ _
  have hl : ∀ a ∈ l, (freeJob q jp).heap a = q.heap a := fun a ha =>
    hframe a fun he => hjp (he ▸ ha)
  refine h.move (h.has.congr rfl rfl hl) (fun v a hv ha => ?_) (fun hne => absurd hprinter hne)
    nofun nofun (fun _ _ => inHand_concat ..) ?_ (takenInOrder_concat h.takes nofun)
  · have hne : a ≠ jp := by
      rintro rfl
      exact h.apart v w a hv ha hnode
    exact ⟨hframe a hne, h.outside v a ha, nofun⟩
  · rw [hn] at hjob
    obtain rfl := Option.some.inj hjob
    rw [inHand_concat, addedJobs_append, finishedJobs_append, h.order, hhand,
      vals_congr fun a ha => congrArg _ (hl a ha)]
    simp [addedJobs, finishedJobs]

/-- A call of thread `w` that the rules allow. -/
theorem effect {d d' : Daemon} (h : JobsInv d.queue d.log g l) {c : Call} {r : c.Ret}
    (hpre : nodeRules.pre c (g w)) (heff : Effect c r d d') :
    ∃ l', JobsInv d'.queue d'.log (Function.update g w (nodeRules.post c r (g w))) l' := by
  have hkeep : d'.queue = d.queue → d'.log = d.log → nodeRules.post c r (g w) = g w →
      ∃ l', JobsInv d'.queue d'.log (Function.update g w (nodeRules.post c r (g w))) l' := by
    intro hq hl he
    rw [hq, hl, he, Function.update_eq_self]
    exact ⟨l, h⟩
  cases heff with
  | still hc => exact hkeep rfl rfl (by cases c <;> first | rfl | exact hc.elim)
  | number => exact hkeep rfl rfl rfl
  | created => exact hkeep (Daemon.setDir_queue ..) (Daemon.setDir_log ..) rfl
  | notCreated => exact hkeep rfl rfl rfl
  | wrote hn => exact hkeep (Daemon.append_queue ..) (Daemon.append_log ..) rfl
  | unlinked => exact hkeep (Daemon.setDir_queue ..) (Daemon.setDir_log ..) rfl
  | allocated hfree => exact ⟨l, h.allocated hpre hfree⟩
  | notAllocated => exact hkeep rfl rfl rfl
  | added hjob hq => exact ⟨_, h.added hpre hjob hq⟩
  | taken hhead hjob hq => exact h.taken hpre.1 hpre.2 hhead hjob hq
  | loaded hjob => exact hkeep rfl rfl rfl
  | updated => exact hkeep rfl rfl rfl
  | replaced hjob hq => exact ⟨_, h.replaced hpre hjob hq⟩
  | freed hjob => exact ⟨l, h.freed hpre hjob⟩
  | listed hperm => exact hkeep rfl rfl rfl
  | notListed => exact hkeep rfl rfl rfl
  | read hfile => exact hkeep rfl rfl rfl
  | notRead hr => exact hkeep rfl rfl rfl

/-- A thread that holds no node starts anew. -/
theorem start (h : JobsInv q log g l) (hw : (g w).hand = .empty) {b : Bool}
    (hb : b = true → w = .printer) : JobsInv q log (Function.update g w ⟨b, .empty⟩) l := by
  have hhand : ∀ v, (Function.update g w ⟨b, .empty⟩ v).hand = (g v).hand := by
    intro v
    by_cases hvw : v = w
    · rw [hvw, Function.update_self, hw]
    · rw [Function.update_of_ne hvw]
  refine ⟨h.has, ?_, ?_, ?_, ?_, fun v hv => ?_, ?_, h.order, h.takes⟩
  · simpa only [hhand] using h.new
  · simpa only [hhand] using h.took
  · simpa only [hhand] using h.outside
  · simpa only [hhand] using h.apart
  · by_cases hvw : v = w
    · rw [hvw, Function.update_self] at hv
      exact hvw.trans (hb hv)
    · rw [Function.update_of_ne hvw] at hv
      exact h.printer v hv
  · simpa only [hhand] using h.idle

end JobsInv

/-- The invariant while the daemon runs. -/
def JobsOk (s : System) : Prop :=
  s.up = true → ∃ g l, Follows nodeRules (fun g => g.hand = .empty) s.thread g ∧
    JobsInv s.daemon.queue s.daemon.log g l

/-- The daemon takes one step. -/
def DaemonStep (fuel : ℕ) (s s' : System) : Prop := ∃ a, step fuel a s = some s'

theorem jobsOk_started (d : Daemon) : JobsOk (started d) := by
  intro _
  refine ⟨fun w => ⟨decide (w = .printer), .empty⟩, [], fun w => ?_, ?_⟩
  · cases w with
    | main => exact nodes_buildQonstart rfl
    | printer => exact nodes_printerRound rfl
    | client t => rfl
  · refine ⟨⟨rfl, rfl, trivial, List.nodup_nil⟩, nofun, nofun, nofun, nofun,
      fun w hw => of_decide_eq_true hw, fun _ => rfl, rfl, fun past job hpre => ?_⟩
    have hnil : past ++ [JobEvent.taken job] = [] := List.prefix_nil.mp hpre
    simp at hnil

theorem jobsOk_step {fuel : ℕ} {s s' : System} (hs : DaemonStep fuel s s') (h : JobsOk s) :
    JobsOk s' := by
  obtain ⟨a, hs⟩ := hs
  rcases step_cases hs with ⟨rfl, -, rfl⟩ | ⟨rfl, rfl⟩ | ⟨t, buf, rfl, hup, -, hfin, rfl⟩ |
    ⟨rfl, hup, hfin, rfl⟩ | ⟨w, choice, c, k, r, d, rfl, hup, ht, hperf, rfl⟩
  · exact jobsOk_started s.daemon
  · exact fun hup => nomatch hup
  · intro _
    obtain ⟨g, l, hfollows, hinv⟩ := h hup
    refine ⟨Function.update g (.client t) ⟨false, .empty⟩, l,
      hfollows.set (.client t) (nodes_clientThread rfl), ?_⟩
    exact hinv.start (hfollows.final_of_finished hfin) nofun
  · intro _
    obtain ⟨g, l, hfollows, hinv⟩ := h hup
    refine ⟨Function.update g .printer ⟨true, .empty⟩, l,
      hfollows.set .printer (nodes_printerRound rfl), ?_⟩
    exact hinv.start (hfollows.final_of_finished hfin) fun _ => rfl
  · intro _
    obtain ⟨g, l, hfollows, hinv⟩ := h hup
    obtain ⟨hpre, hfollows'⟩ := hfollows.call ht r
    obtain ⟨l', hinv'⟩ := hinv.effect hpre (perform_effect hperf)
    exact ⟨_, l', hfollows', hinv'⟩

theorem jobsOk_reach {fuel : ℕ} {s : System}
    (h : Relation.ReflTransGen (DaemonStep fuel) installed s) : JobsOk s := by
  induction h with
  | refl => exact fun hup => nomatch hup
  | tail _ hs ih => exact jobsOk_step hs ih

/-- In every run the queue is well formed, and the jobs added are the finished
ones, then the one in the printer's hands, then those in the queue, in the order
in which they were added. A job is taken only when all jobs added before it are
finished, so one that was put back is retried before any later one. -/
theorem queue_order {fuel : ℕ} {s : System}
    (h : Relation.ReflTransGen (DaemonStep fuel) installed s) (hup : s.up = true) :
    (∃ l, s.daemon.queue.Has l ∧ (s.daemon.queue.jobhead = none ↔ l = []) ∧
      (s.daemon.queue.jobtail = none ↔ l = []) ∧
      addedJobs s.daemon.log = finishedJobs s.daemon.log ++ (inHand s.daemon.log).toList ++
        vals s.daemon.queue.heap l) ∧
    TakenInOrder s.daemon.log := by
  obtain ⟨g, l, -, hinv⟩ := jobsOk_reach h hup
  refine ⟨⟨l, hinv.has, ?_, ?_, hinv.order⟩, hinv.takes⟩
  · rw [hinv.has.head_eq]
    cases l with
    | nil => exact ⟨fun _ => rfl, fun _ => rfl⟩
    | cons a l => exact ⟨nofun, nofun⟩
  · rw [hinv.has.tail_eq]
    constructor
    · intro hnone
      by_contra hl
      exact lastOr_ne_none hl none hnone
    · rintro rfl
      rfl

/-- The first of two jobs is put back and taken again. -/
theorem queue_order_deferred : ∃ s l, Relation.ReflTransGen (DaemonStep 10) installed s ∧
    s.daemon.queue.Has l ∧ (inHand s.daemon.log).map Job.jobid = some 1 ∧
    (vals s.daemon.queue.heap l).map Job.jobid = [2] := by
  have hrun : (steps (fun s a => step 10 a s) ([.start, .run .main (.names [])] ++
      submission 0 0 ++ submission 1 1 ++ pickUp ++ [.run .printer .ok, .run .printer .ok,
        .run .printer (.fail .eio), .run .printer .ok, .again, .run .printer .ok])
      installed).any (fun s => s.up && (addedJobs s.daemon.log).map Job.jobid == [1, 2] &&
        (finishedJobs s.daemon.log).map Job.jobid == [] &&
        (inHand s.daemon.log).map Job.jobid == some 1) = true := by
    decide +kernel
  obtain ⟨s, hs, hcheck⟩ := (Option.any_eq_true _ _).mp hrun
  simp only [Bool.and_eq_true, beq_iff_eq] at hcheck
  obtain ⟨⟨⟨hup, hadded⟩, hfinished⟩, hhand⟩ := hcheck
  have hreach : Relation.ReflTransGen (DaemonStep 10) installed s := reach_of_steps hs
  obtain ⟨l, hhas, -, -, horder⟩ := (queue_order hreach hup).1
  refine ⟨s, l, hreach, hhas, hhand, ?_⟩
  have hids := congrArg (List.map Job.jobid) horder
  obtain ⟨job, hjob, hid⟩ := Option.map_eq_some_iff.mp hhand
  rw [hadded, hjob] at hids
  simpa [hfinished, hid] using hids.symm

end Apue.Print
