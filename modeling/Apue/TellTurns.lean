import Apue.TellWait
import Mathlib.Tactic.Ring

/-!
The processes take turns. There is one token: it is in the hands of a process that works,
or it is a pending signal or a flag that is set. So the processes never increment the
counter at the same time, and they increment it in turn.
-/
namespace Apue.Tell

open Programs

/-- The process has the token in its hands. The parent keeps it when its loop is over. -/
def working : Role → Pc → Bool
  | _, .seekRead => true
  | _, .read => true
  | _, .seekWrite => true
  | _, .write => true
  | _, .tell => true
  | _, .restore => true
  | _, .failed => true
  | .parent, .top => true
  | .parent, .done => true
  | _, _ => false

/-- The process is in the calls of an increment. -/
def Pc.increments : Pc → Bool
  | .seekRead => true
  | .read => true
  | .seekWrite => true
  | .write => true
  | _ => false

namespace Proc

def tokens (r : Role) (p : Proc) : ℕ :=
  (working r p.pc).toNat + p.sigflag.toNat + (p.pending .usr1).toNat + (p.pending .usr2).toNat

/-- The increment of the round has been made. -/
def counted : Role → Pc → Bool
  | _, .tell => true
  | .parent, .test => true
  | .parent, .suspend => true
  | .parent, .suspended => true
  | .parent, .reset => true
  | .parent, .restore => true
  | _, _ => false

/-- The increments that the process has made. -/
def count (r : Role) (p : Proc) : ℕ := p.i + (counted r p.pc).toNat

/-- The loop has not gone too far. -/
def InLoop (rounds : ℕ) (p : Proc) : Prop :=
  match p.pc with
  | .top => p.i ≤ rounds
  | .done => p.i = rounds
  | _ => p.i < rounds

/-- What the process knows about the file: the offset and the value it has read. `n`
increments have been made. -/
def Knows (offset n : ℕ) (p : Proc) : Prop :=
  match p.pc with
  | .read => offset = 0
  | .seekWrite => p.value = int n
  | .write => offset = 0 ∧ p.value = int n
  | .failed => False
  | .reset => p.sigflag = true
  | _ => True

end Proc

/-- The increment with number `k`, from zero on. -/
def turn (k : ℕ) : Increment := ⟨if k % 2 = 0 then .parent else .child, int k, int (k + 1)⟩

namespace State

/-- The increments that both processes have made. -/
def count (s : State) : ℕ := (s.proc .parent).count .parent + (s.proc .child).count .child

/-- By how much the parent is ahead: the process that has the token made the last
increment only if it is about to tell the other one. -/
def lead (s : State) : ℕ :=
  if (s.proc .parent).tokens .parent = 1 then (decide ((s.proc .parent).pc = .tell)).toNat
  else (decide ((s.proc .child).pc ≠ .tell)).toNat

structure Inv (rounds : ℕ) (s : State) : Prop where
  token : (s.proc .parent).tokens .parent + (s.proc .child).tokens .child = 1
  loop : ∀ r, (s.proc r).InLoop rounds
  knows : ∀ r, (s.proc r).Knows s.offset s.count
  ahead : (s.proc .parent).count .parent = (s.proc .child).count .child + s.lead
  content : s.content = [int s.count]
  log : s.log = (List.range s.count).map turn

theorem Inv.initial (rounds : ℕ) : State.initial.Inv rounds where
  token := rfl
  loop := fun _ => Nat.zero_le rounds
  knows := fun r => by cases r <;> trivial
  ahead := rfl
  content := congrArg (fun v => [v]) Int.zero_bmod.symm
  log := rfl

@[simp] theorem set_proc_self (s : State) (r : Role) (p : Proc) : (s.set r p).proc r = p :=
  Function.update_self ..

@[simp] theorem set_proc_of_ne (s : State) {r r' : Role} (p : Proc) (h : r' ≠ r) :
    (s.set r p).proc r' = s.proc r' := Function.update_of_ne h ..

@[simp] theorem set_offset (s : State) (r : Role) (p : Proc) : (s.set r p).offset = s.offset := rfl

@[simp] theorem set_set (s : State) (r : Role) (p p' : Proc) : (s.set r p).set r p' = s.set r p' := by
  simp [State.set]

end State

/-- A process without the token does not look at the file. -/
theorem Proc.Knows.of_tokens {r : Role} {p : Proc} {offset n : ℕ} (hk : p.Knows offset n)
    (h : p.tokens r = 0) (offset' n' : ℕ) : p.Knows offset' n' := by
  have hidle : working r p.pc = false := by
    cases hw : working r p.pc with
    | false => rfl
    | true => simp [Proc.tokens, hw] at h
  unfold Proc.Knows at hk ⊢
  cases hpc : p.pc <;> simp_all [working]

namespace State

variable {rounds : ℕ} {oldmask : SigSet} {s s' : State} {r : Role}

/-- A step of one process that keeps its token and its count. It may move the offset if
it has the token. -/
theorem Inv.local (h : s.Inv rounds) {p : Proc} {offset : ℕ}
    (htokens : p.tokens r = (s.proc r).tokens r) (hcount : p.count r = (s.proc r).count r)
    (htell : p.pc = .tell ↔ (s.proc r).pc = .tell) (hloop : p.InLoop rounds)
    (hknows : p.Knows offset s.count)
    (hoffset : offset = s.offset ∨ (s.proc r).tokens r = 1) :
    ({ s.set r p with offset := offset } : State).Inv rounds := by
  obtain ⟨htoken, hloop', hknows', hahead, hcontent, hlog⟩ := h
  have hcount' : ({ s.set r p with offset := offset } : State).count = s.count := by
    cases r <;> simp [State.count, hcount]
  have hlead : ({ s.set r p with offset := offset } : State).lead = s.lead := by
    cases r <;> simp [State.lead, htokens, htell]
  refine ⟨?_, fun r' => ?_, fun r' => ?_, ?_, ?_, ?_⟩
  · cases r <;> simpa [htokens] using htoken
  · by_cases hr : r' = r
    · subst hr
      simpa using hloop
    · simpa [hr] using hloop' r'
  · rw [hcount']
    by_cases hr : r' = r
    · subst hr
      simpa using hknows
    · have hother : (s.proc r').Knows offset s.count := by
        rcases hoffset with rfl | hmine
        · exact hknows' r'
        · refine (hknows' r').of_tokens (r := r') ?_ offset s.count
          cases r <;> cases r' <;> simp_all
      simpa [hr] using hother
  · rw [hlead]
    cases r <;> simpa [hcount] using hahead
  · rw [hcount']
    exact hcontent
  · rw [hcount']
    exact hlog

theorem Inv.keep (h : s.Inv rounds) {p : Proc}
    (htokens : p.tokens r = (s.proc r).tokens r) (hcount : p.count r = (s.proc r).count r)
    (htell : p.pc = .tell ↔ (s.proc r).pc = .tell) (hloop : p.InLoop rounds)
    (hknows : p.Knows s.offset s.count) : (s.set r p).Inv rounds :=
  h.local htokens hcount htell hloop hknows (Or.inl rfl)

/-- A process that works has the token. -/
theorem Inv.tokens_eq_one (h : s.Inv rounds) (hw : working r (s.proc r).pc = true) :
    (s.proc r).tokens r = 1 := by
  have htoken := h.token
  cases r <;> simp only [Proc.tokens, hw, Bool.toNat_true] at htoken ⊢ <;> omega

theorem int_add_one (n : ℕ) : int (int n + 1) = int (n + 1) := by
  simp [int]

/-- The number of the next increment is even if the parent makes it. -/
theorem Inv.turn_eq (h : s.Inv rounds) (hpc : (s.proc r).pc = .write) :
    turn s.count = ⟨r, int s.count, int (s.count + 1)⟩ := by
  have hone := h.tokens_eq_one (r := r) (by rw [hpc]; cases r <;> rfl)
  have hahead := h.ahead
  have hother := h.token
  cases r with
  | parent =>
    have heven : s.count % 2 = 0 := by
      simp only [State.lead, hone, hpc, if_true] at hahead
      simp only [State.count]
      simp at hahead
      omega
    simp [turn, heven]
  | child =>
    have hnone : ¬ (s.proc .parent).tokens .parent = 1 := by omega
    have hodd : s.count % 2 ≠ 0 := by
      simp only [State.lead, hnone, hpc, if_false] at hahead
      simp only [State.count]
      simp at hahead
      omega
    simp [turn, hodd]

theorem Inv.write (h : s.Inv rounds) (hpc : (s.proc r).pc = .write) :
    ({ s.go r .tell with
      content := s.content.take s.offset ++ [int ((s.proc r).value + 1)] ++
        s.content.drop (s.offset + 1)
      offset := s.offset + 1
      log := s.log ++ [⟨r, (s.proc r).value, int ((s.proc r).value + 1)⟩] } : State).Inv rounds := by
  have hone := h.tokens_eq_one (r := r) (by rw [hpc]; cases r <;> rfl)
  have hturn := h.turn_eq hpc
  have htoken := h.token
  have hahead := h.ahead
  have hknows := h.knows r
  simp only [Proc.Knows, hpc] at hknows
  obtain ⟨hoffset, hvalue⟩ := hknows
  have hmine : ({ s.proc r with pc := .tell } : Proc).count r = (s.proc r).count r + 1 := by
    cases r <;> simp [Proc.count, Proc.counted, hpc]
  have hcount : ({ s.go r .tell with
      content := s.content.take s.offset ++ [int ((s.proc r).value + 1)] ++
        s.content.drop (s.offset + 1)
      offset := s.offset + 1
      log := s.log ++ [⟨r, (s.proc r).value, int ((s.proc r).value + 1)⟩] } : State).count =
      s.count + 1 := by
    cases r <;> simp [State.count, State.go, hmine] <;> omega
  refine ⟨?_, fun r' => ?_, fun r' => ?_, ?_, ?_, ?_⟩
  · cases r <;> simpa [State.go, Proc.tokens, working, hpc] using htoken
  · by_cases hr : r' = r
    · subst hr
      simpa [State.go, Proc.InLoop, hpc] using h.loop r'
    · simpa [State.go, hr] using h.loop r'
  · by_cases hr : r' = r
    · subst hr
      simp [State.go, Proc.Knows]
    · have hother : (s.proc r').tokens r' = 0 := by
        cases r <;> cases r' <;> simp_all
      simpa [State.go, hr] using (h.knows r').of_tokens hother _ _
  · cases r with
    | parent =>
      have hbefore : s.lead = 0 := by simp [State.lead, hone, hpc]
      have hworks : ({ s.proc .parent with pc := .tell } : Proc).tokens .parent = 1 := by
        simpa [Proc.tokens, working, hpc] using hone
      rw [hbefore] at hahead
      simp [State.lead, State.go, hworks, hmine, hahead]
    | child =>
      have hnone : ¬ (s.proc .parent).tokens .parent = 1 := by omega
      have hbefore : s.lead = 1 := by simp [State.lead, hnone, hpc]
      rw [hbefore] at hahead
      simp [State.lead, State.go, hnone, hmine, hahead]
  · rw [hcount, h.content, hoffset, hvalue, int_add_one]
    simp
  · rw [hcount, List.range_succ, List.map_append, List.map_singleton, hturn, ← h.log, hvalue,
      int_add_one]

/-- The token goes to the other process as a signal. -/
theorem Inv.tell (h : s.Inv rounds) (hpc : (s.proc r).pc = .tell) {p : Proc}
    (hp : working r p.pc = false) (hflag : p.sigflag = (s.proc r).sigflag)
    (hpending : p.pending = (s.proc r).pending) (hcount : p.count r = (s.proc r).count r)
    (hloop : p.InLoop rounds) (hknows : p.pc = .test ∨ p.pc = .top) :
    ((s.kill r.other r.signal).set r p).Inv rounds := by
  have hone := h.tokens_eq_one (r := r) (by rw [hpc]; cases r <;> rfl)
  have htoken := h.token
  have hahead := h.ahead
  have hnone : p.tokens r = 0 := by
    have hworks : working r (s.proc r).pc = true := by
      rw [hpc]
      cases r <;> rfl
    simp only [Proc.tokens, hworks, Bool.toNat_true] at hone
    simp only [Proc.tokens, hp, hflag, hpending, Bool.toNat_false]
    omega
  have hidle : (s.proc r.other).tokens r.other = 0 := by
    cases r <;> simp only [Role.other] <;> omega
  have hother : ((s.kill r.other r.signal).proc r.other).tokens r.other = 1 := by
    simp only [State.kill, set_proc_self, Proc.tokens] at hidle ⊢
    cases r <;> simp_all [Function.update, Role.other, Role.signal]
  have hsame : ((s.kill r.other r.signal).proc r.other).pc = (s.proc r.other).pc := by
    simp [State.kill]
  have hcount' : ((s.kill r.other r.signal).proc r.other).count r.other =
      (s.proc r.other).count r.other := by
    simp [State.kill, Proc.count]
  have hnottell : (s.proc r.other).pc ≠ .tell := by
    intro hother
    have hworks := h.tokens_eq_one (r := r.other) (by rw [hother]; cases r <;> rfl)
    omega
  have hsum : ((s.kill r.other r.signal).set r p).count = s.count := by
    cases r <;> simp_all [State.count, Role.other]
  refine ⟨?_, fun r' => ?_, fun r' => ?_, ?_, ?_, ?_⟩
  · cases r <;> simp_all [Role.other]
  · by_cases hr : r' = r
    · subst hr
      simpa using hloop
    · obtain rfl : r' = r.other := by cases r <;> cases r' <;> simp_all [Role.other]
      simpa [hr, State.kill, Proc.InLoop] using h.loop r.other
  · rw [hsum]
    by_cases hr : r' = r
    · subst hr
      rcases hknows with hknows | hknows <;> simp [Proc.Knows, hknows]
    · obtain rfl : r' = r.other := by cases r <;> cases r' <;> simp_all [Role.other]
      simpa [hr, State.kill, Proc.Knows] using h.knows r.other
  · cases r with
    | parent =>
      have hbefore : s.lead = 1 := by simp [State.lead, hone, hpc]
      simp_all [State.lead, Role.other]
    | child =>
      have hbefore : s.lead = 0 := by
        have hnot : ¬ (s.proc .parent).tokens .parent = 1 := by omega
        simp [State.lead, hnot, hpc]
      simp_all [State.lead, Role.other]
  · rw [hsum]
    exact h.content
  · rw [hsum]
    exact h.log

theorem Inv.step (h : s.Inv rounds) (hs : s.step rounds oldmask r = some s') : s'.Inv rounds := by
  have hloop := h.loop r
  have hknows := h.knows r
  unfold State.step at hs
  unfold Proc.InLoop at hloop
  unfold Proc.Knows at hknows
  cases hpc : (s.proc r).pc with
  | top =>
    simp only [hpc] at hs hloop
    split at hs
    · rename_i hlt
      cases r with
      | parent =>
        obtain rfl := Option.some.inj hs
        refine h.keep ?_ ?_ ?_ ?_ ?_
        all_goals simp [Proc.tokens, Proc.count, Proc.counted, Proc.InLoop, Proc.Knows, working, hpc, hlt]
      | child =>
        obtain rfl := Option.some.inj hs
        refine h.keep ?_ ?_ ?_ ?_ ?_
        all_goals simp [Proc.tokens, Proc.count, Proc.counted, Proc.InLoop, Proc.Knows, working, hpc, hlt]
    · rename_i hge
      obtain rfl := Option.some.inj hs
      refine h.keep ?_ ?_ ?_ ?_ ?_
      all_goals cases r <;> simp [Proc.tokens, Proc.count, Proc.counted, Proc.InLoop, Proc.Knows, working, hpc]
      all_goals omega
  | seekRead =>
    simp only [hpc] at hs hloop
    obtain rfl := Option.some.inj hs
    refine h.local ?_ ?_ ?_ ?_ ?_ (Or.inr (h.tokens_eq_one (by rw [hpc]; cases r <;> rfl)))
    all_goals simp [Proc.tokens, Proc.count, Proc.counted, Proc.InLoop, Proc.Knows, working, hpc, hloop]
  | read =>
    simp only [hpc] at hs hloop hknows
    rw [h.content, hknows] at hs
    obtain rfl := Option.some.inj hs
    refine h.local ?_ ?_ ?_ ?_ ?_ (Or.inr (h.tokens_eq_one (by rw [hpc]; cases r <;> rfl)))
    all_goals simp [Proc.tokens, Proc.count, Proc.counted, Proc.InLoop, Proc.Knows, working, hpc, hloop]
  | seekWrite =>
    simp only [hpc] at hs hloop hknows
    obtain rfl := Option.some.inj hs
    refine h.local ?_ ?_ ?_ ?_ ?_ (Or.inr (h.tokens_eq_one (by rw [hpc]; cases r <;> rfl)))
    all_goals simp [Proc.tokens, Proc.count, Proc.counted, Proc.InLoop, Proc.Knows, working, hpc, hloop, hknows]
  | write =>
    simp only [hpc] at hs
    obtain rfl := Option.some.inj hs
    exact h.write hpc
  | tell =>
    simp only [hpc] at hs hloop
    cases r with
    | parent =>
      obtain rfl := Option.some.inj hs
      refine h.tell hpc ?_ ?_ ?_ ?_ ?_ ?_
      all_goals simp [State.kill, Role.other, Proc.count, Proc.counted, Proc.InLoop, working, hpc, hloop]
    | child =>
      obtain rfl := Option.some.inj hs
      refine h.tell hpc ?_ ?_ ?_ ?_ ?_ ?_
      all_goals simp [State.kill, Role.other, Proc.count, Proc.counted, Proc.InLoop, working, hpc]
      omega
  | test =>
    simp only [hpc] at hs hloop
    obtain rfl := Option.some.inj hs
    refine h.keep ?_ ?_ ?_ ?_ ?_
    all_goals cases r <;> cases hflag : (s.proc _).sigflag <;>
      simp [Proc.tokens, Proc.count, Proc.counted, Proc.InLoop, Proc.Knows, working, hpc, hloop, hflag]
  | suspend =>
    simp only [hpc] at hs hloop
    obtain rfl := Option.some.inj hs
    refine h.keep ?_ ?_ ?_ ?_ ?_
    all_goals cases r <;>
      simp [Proc.tokens, Proc.count, Proc.counted, Proc.InLoop, Proc.Knows, working, hpc, hloop]
  | suspended => simp only [hpc, reduceCtorEq] at hs
  | reset =>
    simp only [hpc] at hs hloop hknows
    obtain rfl := Option.some.inj hs
    refine h.keep ?_ ?_ ?_ ?_ ?_
    all_goals cases r <;>
      simp [Proc.tokens, Proc.count, Proc.counted, Proc.InLoop, Proc.Knows, working, hpc, hloop, hknows]
  | restore =>
    simp only [hpc] at hs hloop
    cases r with
    | parent =>
      obtain rfl := Option.some.inj hs
      rw [State.next, set_proc_self, set_set]
      refine h.keep ?_ ?_ ?_ ?_ ?_
      all_goals
        simp [Proc.tokens, Proc.count, Proc.counted, Proc.InLoop, Proc.Knows, working, hpc]
      omega
    | child =>
      obtain rfl := Option.some.inj hs
      refine h.keep ?_ ?_ ?_ ?_ ?_
      all_goals
        simp [Proc.tokens, Proc.count, Proc.counted, Proc.InLoop, Proc.Knows, working, hpc, hloop]
  | done => simp only [hpc, reduceCtorEq] at hs
  | failed => simp only [hpc, reduceCtorEq] at hs

theorem Inv.deliver {sig : Signal} (h : s.Inv rounds) (hs : s.deliver r sig = some s') :
    s'.Inv rounds := by
  have hloop := h.loop r
  have hknows := h.knows r
  unfold State.deliver at hs
  simp only at hs
  split at hs
  · rename_i hen
    obtain ⟨hpending, -, hdone, hfailed⟩ := hen
    obtain rfl := Option.some.inj hs
    -- The pending signal is the token.
    have hle : (s.proc r).tokens r ≤ 1 := by
      have htoken := h.token
      cases r <;> omega
    have hzero : (working r (s.proc r).pc).toNat + (s.proc r).sigflag.toNat = 0 := by
      cases sig <;> simp only [Proc.tokens, hpending, Bool.toNat_true] at hle <;> omega
    have hidle : working r (s.proc r).pc = false := Bool.toNat_eq_zero.mp (by omega)
    have hflag : (s.proc r).sigflag = false := Bool.toNat_eq_zero.mp (by omega)
    by_cases hsus : (s.proc r).pc = .suspended
    · rw [if_pos hsus]
      refine h.keep ?_ ?_ ?_ ?_ ?_
      · cases sig <;> cases r <;>
          simp [Proc.tokens, Function.update, hpending, hflag, working, hsus] <;> omega
      · cases r <;> simp [Proc.count, Proc.counted, hsus]
      · simp [hsus]
      · simpa [Proc.InLoop, hsus] using hloop
      · simp [Proc.Knows]
    · rw [if_neg hsus]
      refine h.keep ?_ rfl Iff.rfl hloop ?_
      · cases sig <;> simp [Proc.tokens, Function.update, hpending, hflag, hidle]
        omega
      · unfold Proc.Knows at hknows ⊢
        cases hpc : (s.proc r).pc <;> simp_all
  · cases hs

theorem Inv.of_reachable (h : Reachable rounds oldmask s) : s.Inv rounds := by
  obtain ⟨events, hrun⟩ := h
  refine steps_induct (fun s₀ e s₁ h₀ hs₁ => ?_) hrun (Inv.initial rounds)
  cases e with
  | call r => exact h₀.step hs₁
  | deliver r sig => exact h₀.deliver hs₁

/-- What taking turns means: the processes are never in an increment at the same time,
the increments alternate between parent and child, the one with number `k` adds one to
what `k` increments have made of the counter, and the counter is never set back. -/
structure Alternates (s : State) : Prop where
  exclusive : ¬ ((s.proc .parent).pc.increments = true ∧ (s.proc .child).pc.increments = true)
  log : s.log = (List.range s.log.length).map turn
  counter : s.content = [int s.log.length]

theorem working_of_increments {pc : Pc} (h : pc.increments = true) (r : Role) :
    working r pc = true := by
  cases pc <;> first | rfl | cases h

/-- In every run the processes take turns. -/
theorem turns_alternate (rounds : ℕ) (oldmask : SigSet) (s : State)
    (h : Reachable rounds oldmask s) : s.Alternates := by
  have hinv := Inv.of_reachable h
  have hlen : s.log.length = s.count := by
    rw [hinv.log, List.length_map, List.length_range]
  refine ⟨fun hboth => ?_, ?_, ?_⟩
  · have hparent := hinv.tokens_eq_one (working_of_increments hboth.1 .parent)
    have hchild := hinv.tokens_eq_one (working_of_increments hboth.2 .child)
    have htoken := hinv.token
    omega
  · rw [hlen]
    exact hinv.log
  · rw [hlen]
    exact hinv.content

/-- One round of both processes, in which the child has to wait. -/
def oneRound : List Event :=
  [.call .child, .call .child, .call .child] ++ List.replicate 6 (.call .parent) ++
  [.deliver .child .usr1] ++ List.replicate 9 (.call .child)

theorem turns_alternate_one_round : ∃ s, Reachable 1 emptySet s ∧
    s.log = [⟨.parent, 0, 1⟩, ⟨.child, 1, 2⟩] ∧ s.Alternates := by
  have hrun : ((steps (State.move 1 emptySet) oneRound State.initial).any fun s =>
      decide (s.log = [⟨.parent, 0, 1⟩, ⟨.child, 1, 2⟩])) = true := by
    decide +kernel
  obtain ⟨s, hs, hlog⟩ := (Option.any_eq_true _ _).mp hrun
  exact ⟨s, ⟨_, hs⟩, of_decide_eq_true hlog, turns_alternate 1 emptySet s ⟨_, hs⟩⟩

end State
end Apue.Tell
