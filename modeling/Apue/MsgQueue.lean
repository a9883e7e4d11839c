import Apue.MonitorWakeups
import Apue.Ownership
import Apue.Programs

/-!
The message queue of condvar.c. Any number of threads call enqueue_msg and process_msg; the
signal comes after the unlock, and it wakes one of the threads that wait. A message that is
passed to enqueue_msg is the caller's own until then, and it belongs to the thread that
processes it afterwards.
-/
namespace Apue.MsgQueue

open Monitors Ownership Programs

/-- The m_next pointers of the messages that the threads know of, and the first of the queue. -/
structure Msgs where
  mNext : ℕ → Option (Option ℕ)
  workq : Option ℕ

inductive Op
  | enqueue (mp : ℕ)
  | process

/-- The message is one that no thread knows of yet. -/
def Op.allowed : Op → Msgs → Prop
  | .enqueue mp, d => d.mNext mp = none
  | .process, _ => True

def Op.enter : Op → Msgs → Msgs
  | .enqueue mp, d => { d with mNext := Function.update d.mNext mp (some none) }
  | .process, d => d

/-- The loop of process_msg goes on until the queue is not empty. -/
def Op.test : Op → Msgs → Option (Option ℕ)
  | .enqueue mp, _ => some (some mp)
  | .process, d => some d.workq

def Op.act : Op → ℕ → Msgs → Option Msgs
  | .enqueue _, mp, d =>
    (d.mNext mp).map fun _ => ⟨Function.update d.mNext mp (some d.workq), some mp⟩
  | .process, mp, d => (d.mNext mp).map fun next => { d with workq := next }

def Op.outside : Op → Notify
  | .enqueue _ => .signal
  | .process => .nothing

/-- The thread is done with the message. -/
def Op.exit : Op → ℕ → Msgs → Option Msgs
  | .enqueue _, _, d => some d
  | .process, mp, d => (d.mNext mp).map fun _ => { d with mNext := Function.update d.mNext mp none }

def Op.takes : Op → Bool
  | .enqueue _ => false
  | .process => true

def msgQueue (P : Type) : Monitor P Op Msgs ℕ where
  allowed _ := Op.allowed
  enter := Op.enter
  test := Op.test
  act := Op.act
  inside _ := .nothing
  outside := Op.outside
  exit := Op.exit

def start (P : Type) : State P Op Msgs ℕ := ⟨⟨fun _ => none, none⟩, none, fun _ => .idle⟩

/-- The messages that the pointer leads to. -/
def Chain (mNext : ℕ → Option (Option ℕ)) : Option ℕ → List ℕ → Prop
  | p, [] => p = none
  | p, mp :: l => p = some mp ∧ ∃ next, mNext mp = some next ∧ Chain mNext next l

/-- The messages in the order in which they will be taken out. -/
def pile {P : Type} (l : List ℕ) : Label P Op ℕ → Option (List ℕ)
  | .act _ (.enqueue mp) _ => some (mp :: l)
  | .act _ .process mp => if l.head? = some mp then some l.tail else none
  | _ => some l

variable {P : Type}

def enqueued (tr : List (Label P Op ℕ)) : List ℕ := tr.filterMap fun
  | .act _ (.enqueue mp) _ => some mp
  | _ => none

/-- The messages that threads have got from the queue. -/
def processed (tr : List (Label P Op ℕ)) : List ℕ := tr.filterMap fun
  | .act _ .process mp => some mp
  | _ => none

def holding : Atomic.Status Op ℕ → Option ℕ
  | .before (.enqueue mp) => some mp
  | .after .process mp => some mp
  | _ => none

structure Linked (l : List ℕ) (s : Atomic.State P Op Msgs ℕ) : Prop where
  chain : Chain s.data.mNext s.data.workq l
  nodup : l.Nodup
  owned : Owned (fun mp => s.data.mNext mp ≠ none) l fun p => holding (s.status p)

variable {l l' : List ℕ} {p : P} {mp : ℕ} {mNext mNext' : ℕ → Option (Option ℕ)} {a : Option ℕ}
  {s s' : Atomic.State P Op Msgs ℕ} {lbl : Label P Op ℕ} {tr : List (Label P Op ℕ)}

theorem chain_congr (heq : ∀ b ∈ l, mNext' b = mNext b) (h : Chain mNext a l) :
    Chain mNext' a l := by
  induction l generalizing a with
  | nil => exact h
  | cons b l ih =>
    obtain ⟨ha, next, hb, hrest⟩ := h
    exact ⟨ha, next, (heq b List.mem_cons_self).trans hb,
      ih (fun c hc => heq c (List.mem_cons_of_mem _ hc)) hrest⟩

theorem chain_unique (h : Chain mNext a l) (h' : Chain mNext a l') : l = l' := by
  induction l generalizing a l' with
  | nil =>
    obtain rfl := h
    cases l' with
    | nil => rfl
    | cons b l' => cases h'.1
  | cons b l ih =>
    obtain ⟨rfl, next, hb, hrest⟩ := h
    cases l' with
    | nil => cases h'
    | cons c l' =>
      obtain ⟨hc, next', hb', hrest'⟩ := h'
      obtain rfl := Option.some.inj hc
      obtain rfl := Option.some.inj (hb.symm.trans hb')
      rw [ih hrest hrest']

theorem linked_start : Linked [] (start P).atomic where
  chain := rfl
  nodup := List.nodup_nil
  owned := .empty (fun _ h => h rfl) fun _ => rfl

section Steps

variable [DecidableEq P]

/-- A thread with empty hands goes on, and its hands stay empty. -/
theorem Linked.go (h : Linked l s) {x : Atomic.Status Op ℕ} (hp : holding (s.status p) = none)
    (hx : holding x = none) : Linked l ⟨s.data, Function.update s.status p x⟩ := by
  refine ⟨h.chain, h.nodup, h.owned.congr (fun _ => Iff.rfl) (fun _ => Iff.rfl) fun r => ?_⟩
  rw [Function.apply_update fun _ => holding, hx, ← hp, Function.update_eq_self]

theorem Linked.make (h : Linked l s) (hp : s.status p = .idle) (hmp : s.data.mNext mp = none) :
    Linked l ⟨(Op.enqueue mp).enter s.data,
      Function.update s.status p (.before (.enqueue mp))⟩ := by
  have hempty : holding (s.status p) = none := by rw [hp]; rfl
  have hne : ∀ b ∈ l, b ≠ mp := fun b hb he => h.owned.queued hb (he ▸ hmp)
  refine ⟨chain_congr (fun b hb => Function.update_of_ne (hne b hb) _ _) h.chain, h.nodup, ?_⟩
  refine (h.owned.make hempty (not_not.mpr hmp) fun b => ?_).congr (fun _ => Iff.rfl)
    (fun _ => Iff.rfl) (Function.apply_update (fun _ => holding) _ _ _)
  change Function.update s.data.mNext mp (some none) b ≠ none ↔ b = mp ∨ _
  by_cases hb : b = mp
  · subst hb
    rw [Function.update_self]
    exact iff_of_true (Option.some_ne_none _) (.inl rfl)
  · rw [Function.update_of_ne hb, or_iff_right hb]

/-- A pointer that is set stays the pointer of a message that exists. -/
theorem update_ne_none {next v : Option ℕ} (hmp : mNext mp = some next) (b : ℕ) :
    Function.update mNext mp (some v) b ≠ none ↔ mNext b ≠ none := by
  by_cases hb : b = mp
  · subst hb
    rw [Function.update_self, hmp]
    exact iff_of_true (Option.some_ne_none _) (Option.some_ne_none _)
  · rw [Function.update_of_ne hb]

theorem Linked.push (h : Linked l s) (hp : s.status p = .before (.enqueue mp)) {next : Option ℕ}
    (hmp : s.data.mNext mp = some next) {b : ℕ} :
    Linked (mp :: l) ⟨⟨Function.update s.data.mNext mp (some s.data.workq), some mp⟩,
      Function.update s.status p (.after (.enqueue mp) b)⟩ := by
  have hhold : holding (s.status p) = some mp := by rw [hp]; rfl
  have hnot := (h.owned.held hhold).2
  have hne : ∀ b ∈ l, b ≠ mp := fun b hb he => hnot (he ▸ hb)
  refine ⟨⟨rfl, s.data.workq, Function.update_self .., ?_⟩, List.nodup_cons.mpr ⟨hnot, h.nodup⟩, ?_⟩
  · exact chain_congr (fun b hb => Function.update_of_ne (hne b hb) _ _) h.chain
  · exact (h.owned.put hhold fun b => List.mem_cons).congr (update_ne_none hmp) (fun _ => Iff.rfl)
      (Function.apply_update (fun _ => holding) _ _ _)

theorem Linked.pop (h : Linked (mp :: l) s) (hp : s.status p = .before .process)
    {next : Option ℕ} (hmp : s.data.mNext mp = some next) :
    Linked l ⟨{ s.data with workq := next }, Function.update s.status p (.after .process mp)⟩ := by
  have hempty : holding (s.status p) = none := by rw [hp]; rfl
  obtain ⟨hnot, hnodup⟩ := List.nodup_cons.mp h.nodup
  obtain ⟨-, next', hmp', hrest⟩ := h.chain
  obtain rfl := Option.some.inj (hmp.symm.trans hmp')
  refine ⟨hrest, hnodup, ?_⟩
  refine (h.owned.take hempty List.mem_cons_self fun b => ?_).congr (fun _ => Iff.rfl)
    (fun _ => Iff.rfl) (Function.apply_update (fun _ => holding) _ _ _)
  constructor
  · exact fun hb => ⟨List.mem_cons_of_mem _ hb, fun he => hnot (he ▸ hb)⟩
  · exact fun hb => (List.mem_cons.mp hb.1).resolve_left hb.2

theorem Linked.done (h : Linked l s) (hp : s.status p = .after .process mp) :
    Linked l ⟨{ s.data with mNext := Function.update s.data.mNext mp none },
      Function.update s.status p .idle⟩ := by
  have hhold : holding (s.status p) = some mp := by rw [hp]; rfl
  have hnot := (h.owned.held hhold).2
  have hne : ∀ b ∈ l, b ≠ mp := fun b hb he => hnot (he ▸ hb)
  refine ⟨chain_congr (fun b hb => Function.update_of_ne (hne b hb) _ _) h.chain, h.nodup, ?_⟩
  refine (h.owned.free hhold fun b => ?_).congr (fun _ => Iff.rfl) (fun _ => Iff.rfl)
    (Function.apply_update (fun _ => holding) _ _ _)
  change Function.update s.data.mNext mp none b ≠ none ↔ _ ∧ b ≠ mp
  by_cases hb : b = mp
  · subst hb
    rw [Function.update_self]
    exact iff_of_false (fun h => h rfl) fun h => h.2 rfl
  · rw [Function.update_of_ne hb, and_iff_left hb]

/-- Every step is one of the pile. -/
theorem Linked.step (h : Linked l s) (hstep : Atomic.Step (msgQueue P) s lbl s') :
    ∃ l', pile l lbl = some l' ∧ Linked l' s' := by
  cases hstep with
  | @call p o hp ha =>
    cases o with
    | enqueue mp => exact ⟨l, rfl, h.make hp ha⟩
    | process => exact ⟨l, rfl, h.go (by rw [hp]; rfl) rfl⟩
  | @act p o a d hp ht hd =>
    cases o with
    | enqueue mp =>
      obtain rfl := Option.some.inj (Option.some.inj ht)
      obtain ⟨next, hmp, rfl⟩ := Option.map_eq_some_iff.mp hd
      exact ⟨mp :: l, rfl, h.push hp hmp⟩
    | process =>
      obtain ⟨next, hmp, rfl⟩ := Option.map_eq_some_iff.mp hd
      have hworkq : s.data.workq = some a := Option.some.inj ht
      cases l with
      | nil =>
        have hnone : s.data.workq = none := h.chain
        exact absurd (hworkq.symm.trans hnone) (Option.some_ne_none a)
      | cons mp l =>
        obtain rfl := Option.some.inj (hworkq.symm.trans h.chain.1)
        exact ⟨l, if_pos rfl, h.pop hp hmp⟩
  | @ret p o a d hp hd =>
    cases o with
    | enqueue mp =>
      obtain rfl := Option.some.inj hd
      exact ⟨l, rfl, h.go (by rw [hp]; rfl) rfl⟩
    | process =>
      obtain ⟨next, -, rfl⟩ := Option.map_eq_some_iff.mp hd
      exact ⟨l, rfl, h.done hp⟩

theorem proved (P : Type) [DecidableEq P] : Proved (msgQueue P) fun s => ∃ l, Linked l s where
  step := by
    rintro s s' lbl ⟨l, h⟩ hstep
    obtain ⟨l', -, h'⟩ := h.step hstep
    exact ⟨l', h'⟩
  runs := by
    rintro s p ⟨l, h⟩ (⟨o, hp, hfault⟩ | ⟨o, a, hp, hfault⟩)
    · cases o with
      | enqueue mp =>
        have hhold : holding (s.status p) = some mp := by rw [hp]; rfl
        rcases hfault with hfault | ⟨a, ht, hfault⟩
        · cases hfault
        · cases ht
          exact (h.owned.held hhold).1 (Option.map_eq_none_iff.mp hfault)
      | process =>
        rcases hfault with hfault | ⟨a, ht, hfault⟩
        · cases hfault
        · have hworkq : s.data.workq = some a := Option.some.inj ht
          cases l with
          | nil => exact absurd (hworkq.symm.trans h.chain) (Option.some_ne_none a)
          | cons mp l =>
            obtain rfl := Option.some.inj (hworkq.symm.trans h.chain.1)
            exact h.owned.queued List.mem_cons_self (Option.map_eq_none_iff.mp hfault)
    · cases o with
      | enqueue mp => cases hfault
      | process =>
        have hhold : holding (s.status p) = some a := by rw [hp]; rfl
        exact (h.owned.held hhold).1 (Option.map_eq_none_iff.mp hfault)

open Classical in
/-- How many messages are in the queue. -/
noncomputable def pending (d : Msgs) : ℕ :=
  if h : ∃ l, Chain d.mNext d.workq l then h.choose.length else 0

omit [DecidableEq P] in
theorem pending_eq {d : Msgs} (h : Chain d.mNext d.workq l) : pending d = l.length := by
  have hex : ∃ l, Chain d.mNext d.workq l := ⟨l, h⟩
  rw [pending, dif_pos hex, chain_unique hex.choose_spec h]

/-- Who processes a message waits for one, and who adds one signals. -/
theorem signalling (P : Type) [DecidableEq P] [Fintype P] :
    Signalling (msgQueue P) (fun s => ∃ l, Linked l s) Op.takes pending where
  waits := by
    rintro s p o ⟨l, h⟩ hp ht
    cases o with
    | enqueue mp => cases ht
    | process =>
      have hworkq : s.data.workq = none := Option.some.inj ht
      exact ⟨rfl, pending_eq (l := []) hworkq⟩
  taken := by
    rintro s s' p o a ⟨l, h⟩ hstep htakes
    cases o with
    | enqueue mp => cases htakes
    | process =>
      obtain ⟨l', hl', h'⟩ := h.step hstep
      obtain ⟨hhead, hl'⟩ := Option.ite_none_right_eq_some.mp hl'
      obtain rfl := Option.some.inj hl'
      rw [pending_eq h.chain, pending_eq h'.chain]
      cases l with
      | nil => cases hhead
      | cons mp l => exact le_rfl
  given := by
    rintro s s' p o a ⟨l, h⟩ hstep htakes
    cases o with
    | process => cases htakes
    | enqueue mp =>
      obtain ⟨l', hl', h'⟩ := h.step hstep
      obtain rfl := Option.some.inj hl'
      rw [pending_eq h.chain, pending_eq h'.chain]
      exact le_rfl
  quiet := by
    rintro s s' lbl ⟨l, h⟩ hstep hnot
    obtain ⟨l', hl', h'⟩ := h.step hstep
    rw [pending_eq h.chain, pending_eq h'.chain]
    cases hstep with
    | call hp ha =>
      obtain rfl := Option.some.inj hl'
      exact le_rfl
    | @act p o a d => exact absurd rfl (hnot p o a)
    | ret hp hd =>
      obtain rfl := Option.some.inj hl'
      exact le_rfl

/-- Every run is one of the pile. -/
theorem exists_pile {s : State P Op Msgs ℕ} (h : Trace (Step (msgQueue P)) (start P) tr s) :
    ∃ l, steps pile tr [] = some l ∧ Linked l s.atomic := by
  refine h.replay (I := Linked) (fun l lbl hlbl => ?_) Linked.step linked_start
  cases lbl with
  | spurious p => rfl
  | silent p => rfl
  | _ => cases hlbl

omit [DecidableEq P] in
theorem enqueued_append (tr tr' : List (Label P Op ℕ)) :
    enqueued (tr ++ tr') = enqueued tr ++ enqueued tr' := List.filterMap_append

omit [DecidableEq P] in
theorem processed_append (tr tr' : List (Label P Op ℕ)) :
    processed (tr ++ tr') = processed tr ++ processed tr' := List.filterMap_append

omit [DecidableEq P] in
theorem pile_accounts_step (h : pile l lbl = some l') :
    (enqueued [lbl] ++ l).Perm (processed [lbl] ++ l') := by
  cases lbl with
  | act p o a =>
    cases o with
    | enqueue mp =>
      obtain rfl := Option.some.inj h
      exact .rfl
    | process =>
      obtain ⟨hhead, h⟩ := Option.ite_none_right_eq_some.mp h
      obtain rfl := Option.some.inj h
      cases l with
      | nil => cases hhead
      | cons mp l =>
        obtain rfl := Option.some.inj hhead
        exact .rfl
  | call p o => cases h; exact .rfl
  | ret p o a => cases h; exact .rfl
  | spurious p => cases h; exact .rfl
  | silent p => cases h; exact .rfl

omit [DecidableEq P] in
/-- What was enqueued has been processed or is still in the queue. -/
theorem pile_accounts (h : steps pile tr l = some l') :
    (enqueued tr ++ l).Perm (processed tr ++ l') := by
  induction tr generalizing l with
  | nil =>
    obtain rfl := Option.some.inj h
    exact .rfl
  | cons lbl tr ih =>
    obtain ⟨l₁, hstep, h⟩ := Option.bind_eq_some_iff.mp h
    have henq : enqueued (lbl :: tr) = enqueued [lbl] ++ enqueued tr := enqueued_append [lbl] tr
    have hproc : processed (lbl :: tr) = processed [lbl] ++ processed tr :=
      processed_append [lbl] tr
    calc
      _ = enqueued [lbl] ++ enqueued tr ++ l := by rw [henq]
      List.Perm _ (enqueued tr ++ (enqueued [lbl] ++ l)) := by
        rw [← List.append_assoc (enqueued tr)]
        exact List.perm_append_comm.append_right _
      List.Perm _ (enqueued tr ++ (processed [lbl] ++ l₁)) :=
        (pile_accounts_step hstep).append_left _
      List.Perm _ (processed [lbl] ++ (enqueued tr ++ l₁)) := by
        rw [← List.append_assoc, ← List.append_assoc]
        exact List.perm_append_comm.append_right _
      List.Perm _ (processed [lbl] ++ (processed tr ++ l')) := (ih h).append_left _
      _ = processed (lbl :: tr) ++ l' := by rw [hproc, List.append_assoc]

theorem exclusive_start (P : Type) : Exclusive (start P) := .of_idle (fun _ => rfl) rfl

/-- Every message that was enqueued is processed by one thread or is still in the queue, the last
one first, and no thread follows a pointer that is not there. -/
theorem messages_conserved {s : State P Op Msgs ℕ}
    (h : Trace (Step (msgQueue P)) (start P) tr s) :
    Exclusive s ∧ (∀ p, ¬ Faults (msgQueue P) s p) ∧
      ∃ l, steps pile tr [] = some l ∧ Chain s.data.mNext s.data.workq l ∧
        (enqueued tr).Perm (processed tr ++ l) := by
  obtain ⟨l, hl, hlinked⟩ := exists_pile h
  refine ⟨(exclusive_start P).trace h, (proved P).no_fault ⟨l, hlinked⟩, l, hl, hlinked.chain, ?_⟩
  simpa only [List.append_nil] using pile_accounts hl

/-- While a thread waits, every message in the queue is matched by a thread that is awake in
process_msg and has not got one yet, or by one that is about to signal. So a thread waits at
rest only for an empty queue. -/
theorem waiting_covered [Fintype P] {s : State P Op Msgs ℕ}
    (h : Trace (Step (msgQueue P)) (start P) tr s) (hp : (s.pc p).Waits)
    (hl : Chain s.data.mNext s.data.workq l) :
    l.length ≤ (Finset.univ.filter fun q => (s.pc q).Carries (msgQueue P) Op.takes = true).card ∧
      ∀ free, AtRest (msgQueue P) free s → l = [] := by
  have hcounted : Counted (msgQueue P) Op.takes pending s :=
    Counted.trace (signalling P) (proved P) (.of_idle fun _ => rfl) ⟨_, linked_start⟩
      (exclusive_start P) h
  obtain ⟨hex, hok, -⟩ := messages_conserved h
  constructor
  · obtain ⟨o, hp⟩ := hp
    rw [Finset.card_filter, ← pending_eq hl]
    exact (hcounted.blocked hp).2
  · intro free hrest
    have hzero := hcounted.at_rest hrest hex hok hp
    rw [pending_eq hl] at hzero
    exact List.length_eq_zero_iff.mp hzero

end Steps

/-- Thread 1 waits, and thread 0 has put a message into the queue that it has not signalled. -/
theorem unsignalled_run : ∃ tr s, Trace (Step (msgQueue (Fin 2))) (start (Fin 2)) tr s ∧
    (s.pc 1).Waits ∧ Chain s.data.mNext s.data.workq [7] := by
  have h₀ : Trace (Step (msgQueue (Fin 2))) (start (Fin 2)) [] (start (Fin 2)) := .nil
  have h₁ := h₀.snoc (.call (p := 1) (o := Op.process) rfl trivial)
  have h₂ := h₁.snoc (.lock (p := 1) (o := Op.process) rfl rfl)
  have h₃ := h₂.snoc (.test (p := 1) (o := Op.process) rfl rfl)
  have h₄ := h₃.snoc (.wait (p := 1) (o := Op.process) rfl)
  have h₅ := h₄.snoc (.call (p := 0) (o := Op.enqueue 7) rfl rfl)
  have h₆ := h₅.snoc (.lock (p := 0) (o := Op.enqueue 7) rfl rfl)
  have h₇ := h₆.snoc (.act (p := 0) (o := Op.enqueue 7) (a := 7) rfl rfl rfl)
  exact ⟨_, _, h₇, ⟨_, rfl⟩, rfl, none, rfl, rfl⟩

theorem messages_conserved_unsignalled :
    ∃ tr s, Trace (Step (msgQueue (Fin 2))) (start (Fin 2)) tr s ∧
      Exclusive s ∧ (∀ p, ¬ Faults (msgQueue (Fin 2)) s p) ∧
        ∃ l, steps pile tr [] = some l ∧ Chain s.data.mNext s.data.workq l ∧
          (enqueued tr).Perm (processed tr ++ l) := by
  obtain ⟨tr, s, h, -⟩ := unsignalled_run
  exact ⟨tr, s, h, messages_conserved h⟩

theorem waiting_covered_unsignalled :
    ∃ tr s, Trace (Step (msgQueue (Fin 2))) (start (Fin 2)) tr s ∧
      1 ≤ (Finset.univ.filter fun q =>
        (s.pc q).Carries (msgQueue (Fin 2)) Op.takes = true).card := by
  obtain ⟨tr, s, h, hp, hl⟩ := unsignalled_run
  exact ⟨tr, s, h, (waiting_covered h hp hl).1⟩

end Apue.MsgQueue
