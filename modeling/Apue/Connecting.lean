import Mathlib.Data.Fintype.EquivFin
import Mathlib.Algebra.BigOperators.Group.List.Basic
import Mathlib.Algebra.GroupWithZero.Nat

/-!
How the clients look for a server: connect_retry (sockets/clconn2.c), which tries one address
with growing delays, and the loop over the addresses in printer/print.c and sockets/ruptime.c.
Whether a call succeeds is a script that nothing is assumed about. A new socket gets the lowest
descriptor that is free.
-/
namespace Apue.Connecting

def MAXSLEEP : ℕ := 128

inductive Event (α : Type)
  | noSocket
  | refused (addr : α)
  | accepted (addr : α)
  | slept (numsec : ℕ)

/-- The answers of the calls to come, the open descriptors, and what has happened. -/
structure World (α : Type) where
  answers : ℕ → Bool
  fds : Finset ℕ
  log : List (Event α)

section Code

variable {α : Type}

/-- The world after an answer. -/
def World.answered (w : World α) : World α := { w with answers := fun i => w.answers (i + 1) }

def World.logged (w : World α) (e : Event α) : World α := { w with log := w.log ++ [e] }

def lowest (fds : Finset ℕ) : ℕ := Nat.find (Infinite.exists_notMem_finset fds)

def socket (w : World α) : Option ℕ × World α :=
  if w.answers 0 then
    (some (lowest w.fds), { w.answered with fds := insert (lowest w.fds) w.fds })
  else (none, w.answered.logged .noSocket)

def connect (addr : α) (w : World α) : Bool × World α :=
  if w.answers 0 then (true, w.answered.logged (.accepted addr))
  else (false, w.answered.logged (.refused addr))

def close (fd : ℕ) (w : World α) : World α := { w with fds := w.fds.erase fd }

def sleep (numsec : ℕ) (w : World α) : World α := w.logged (.slept numsec)

/-- The loop of connect_retry, for at most as many turns as `fuel`. -/
def retryLoop (addr : α) : ℕ → ℕ → World α → Option ℕ × World α
  | 0, _, w => (none, w)
  | fuel + 1, numsec, w =>
    if numsec ≤ MAXSLEEP then
      match socket w with
      | (none, w) => (none, w)
      | (some fd, w) =>
        match connect addr w with
        | (true, w) => (some fd, w)
        | (false, w) =>
          retryLoop addr fuel (numsec <<< 1)
            (if numsec ≤ MAXSLEEP / 2 then sleep numsec (close fd w) else close fd w)
    else (none, w)

/-- The ninth turn only finds that the delay is too long. -/
def connectRetry (addr : α) (w : World α) : Option ℕ × World α := retryLoop addr 9 1 w

/-- The loop over the addresses: the address that accepts, and the connected socket. -/
def contact : List α → World α → Option (α × ℕ) × World α
  | [], w => (none, w)
  | addr :: ais, w =>
    match connectRetry addr w with
    | (some fd, w) => (some (addr, fd), w)
    | (none, w) => contact ais w

end Code

section Search

variable {α : Type} {addr : α} {ais : List α} {k : ℕ} {b : Bool} {r : Option α}
  {events events' : List (Event α)}

/-- A refused try and the delay after it; there is none after the last of the eight tries. -/
def refusal (addr : α) (k : ℕ) : List (Event α) :=
  if k < 7 then [.refused addr, .slept (2 ^ k)] else [.refused addr]

/-- What can happen with one address from its try `k` on, and whether it accepts. -/
inductive Tries (addr : α) : ℕ → Bool → List (Event α) → Prop
  | spent : Tries addr 8 false []
  | noSocket {k : ℕ} (hk : k < 8) : Tries addr k false [.noSocket]
  | accepted {k : ℕ} (hk : k < 8) : Tries addr k true [.accepted addr]
  | refused {k : ℕ} {b : Bool} {events : List (Event α)} (hk : k < 8)
      (hrest : Tries addr (k + 1) b events) : Tries addr k b (refusal addr k ++ events)

/-- The addresses are tried in their order until one accepts. -/
inductive Search : List α → Option α → List (Event α) → Prop
  | nil : Search [] none []
  | found {addr : α} {ais : List α} {events : List (Event α)} (htries : Tries addr 0 true events) :
      Search (addr :: ais) (some addr) events
  | next {addr : α} {ais : List α} {r : Option α} {events events' : List (Event α)}
      (htries : Tries addr 0 false events) (hrest : Search ais r events') :
      Search (addr :: ais) r (events ++ events')

def Event.delay : Event α → ℕ
  | .slept numsec => numsec
  | _ => 0

/-- The seconds that are slept. -/
def delay (events : List (Event α)) : ℕ := (events.map Event.delay).sum

def Event.isTry : Event α → Bool
  | .refused _ => true
  | .accepted _ => true
  | _ => false

def Event.isAccepted : Event α → Bool
  | .accepted _ => true
  | _ => false

theorem delay_append (events events' : List (Event α)) :
    delay (events ++ events') = delay events + delay events' := by
  unfold delay
  rw [List.map_append, List.sum_append]

theorem Tries.delay_le (h : Tries addr k b events) : delay events ≤ 128 - 2 ^ k := by
  induction h with
  | spent => exact Nat.zero_le _
  | noSocket hk => exact Nat.zero_le _
  | accepted hk => exact Nat.zero_le _
  | @refused k b events hk _ ih =>
    rw [delay_append]
    have hone : delay (refusal addr k) = if k < 7 then 2 ^ k else 0 := by
      unfold refusal
      split <;> simp [delay, Event.delay]
    rw [hone]
    have hpow : 2 ^ (k + 1) = 2 * 2 ^ k := by rw [pow_succ, Nat.mul_comm]
    rw [hpow] at ih
    rcases Nat.lt_or_ge k 7 with hlast | hlast
    · have hle : 2 ^ k ≤ 2 ^ 6 := Nat.pow_le_pow_right Nat.two_pos (Nat.le_of_lt_succ hlast)
      rw [if_pos hlast]
      omega
    · obtain rfl : k = 7 := Nat.le_antisymm (Nat.le_of_lt_succ hk) hlast
      rw [if_neg (Nat.lt_irrefl 7)]
      omega

theorem Tries.tries_le (h : Tries addr k b events) : events.countP Event.isTry ≤ 8 - k := by
  induction h with
  | spent => exact Nat.zero_le _
  | noSocket hk => exact Nat.zero_le _
  | accepted hk =>
    simp only [List.countP_cons, List.countP_nil, Event.isTry, if_true]
    omega
  | @refused k b events hk _ ih =>
    have hone : (refusal addr k).countP Event.isTry = 1 := by
      unfold refusal
      split <;> rfl
    rw [List.countP_append, hone]
    omega

theorem refusal_not_accepted (addr : α) (k : ℕ) :
    ∀ e ∈ refusal addr k, e.isAccepted = false := by
  unfold refusal
  split <;> simp [Event.isAccepted]

theorem Tries.none_accepted (h : Tries addr k false events) :
    ∀ e ∈ events, e.isAccepted = false := by
  generalize hb : false = b at h
  induction h with
  | spent => exact nofun
  | noSocket hk => simp [Event.isAccepted]
  | accepted hk => cases hb
  | @refused k b events hk _ ih =>
    intro e he
    rcases List.mem_append.mp he with he | he
    · exact hb ▸ refusal_not_accepted addr k e he
    · exact ih hb e he

/-- An accepted try is the last event. -/
theorem Tries.last_accepted (h : Tries addr k true events) :
    ∃ before, events = before ++ [.accepted addr] ∧ ∀ e ∈ before, e.isAccepted = false := by
  generalize hb : true = b at h
  induction h with
  | spent => cases hb
  | noSocket hk => cases hb
  | accepted hk => exact ⟨[], rfl, nofun⟩
  | @refused k b events hk _ ih =>
    obtain ⟨before, rfl, hbefore⟩ := ih hb
    refine ⟨refusal addr k ++ before, (List.append_assoc ..).symm, fun e he => ?_⟩
    rcases List.mem_append.mp he with he | he
    · exact refusal_not_accepted addr k e he
    · exact hbefore e he

theorem Search.delay_le (h : Search ais r events) : delay events ≤ 127 * ais.length := by
  induction h with
  | nil => exact Nat.zero_le _
  | found htries =>
    have hle := htries.delay_le
    rw [List.length_cons]
    omega
  | next htries _ ih =>
    have hle := htries.delay_le
    rw [delay_append, List.length_cons]
    omega

theorem Search.tries_le (h : Search ais r events) :
    events.countP Event.isTry ≤ 8 * ais.length := by
  induction h with
  | nil => exact Nat.zero_le _
  | found htries =>
    have hle := htries.tries_le
    rw [List.length_cons]
    omega
  | next htries _ ih =>
    have hle := htries.tries_le
    rw [List.countP_append, List.length_cons]
    omega

theorem Search.none_accepted (h : Search ais none events) :
    ∀ e ∈ events, e.isAccepted = false := by
  generalize hr : none = r at h
  induction h with
  | nil => exact nofun
  | found htries => cases hr
  | next htries _ ih =>
    intro e he
    rcases List.mem_append.mp he with he | he
    · exact htries.none_accepted e he
    · exact ih hr e he

theorem Search.last_accepted (h : Search ais (some addr) events) : addr ∈ ais ∧
    ∃ before, events = before ++ [.accepted addr] ∧ ∀ e ∈ before, e.isAccepted = false := by
  generalize hr : some addr = r at h
  induction h with
  | nil => cases hr
  | found htries =>
    cases hr
    exact ⟨List.mem_cons_self, htries.last_accepted⟩
  | @next _ ais _ events _ htries _ ih =>
    obtain ⟨hmem, before, rfl, hbefore⟩ := ih hr
    refine ⟨List.mem_cons_of_mem _ hmem, events ++ before, (List.append_assoc ..).symm,
      fun e he => ?_⟩
    rcases List.mem_append.mp he with he | he
    · exact htries.none_accepted e he
    · exact hbefore e he

end Search

section Runs

variable {α : Type} {fuel k : ℕ}

theorem lowest_notMem (fds : Finset ℕ) : lowest fds ∉ fds :=
  Nat.find_spec (Infinite.exists_notMem_finset fds)

/-- The descriptors after a search: only the connected socket is new. -/
def Opened (fds fds' : Finset ℕ) : Option ℕ → Prop
  | none => fds' = fds
  | some fd => fd ∉ fds ∧ fds' = insert fd fds

/-- One turn of the loop; a socket that is refused is closed. -/
theorem retryLoop_turn (addr : α) (fuel : ℕ) (hk : k < 8) (w : World α) :
    (∃ w', retryLoop addr (fuel + 1) (2 ^ k) w = (none, w') ∧ w'.log = w.log ++ [.noSocket] ∧
        w'.fds = w.fds) ∨
      (∃ fd w', retryLoop addr (fuel + 1) (2 ^ k) w = (some fd, w') ∧
        w'.log = w.log ++ [.accepted addr] ∧ fd ∉ w.fds ∧ w'.fds = insert fd w.fds) ∨
      ∃ w', retryLoop addr (fuel + 1) (2 ^ k) w = retryLoop addr fuel (2 ^ (k + 1)) w' ∧
        w'.log = w.log ++ refusal addr k ∧ w'.fds = w.fds := by
  have hguard : 2 ^ k ≤ MAXSLEEP :=
    (Nat.pow_le_pow_right Nat.two_pos (Nat.le_of_lt_succ hk) : 2 ^ k ≤ 2 ^ 7)
  have hshift : (2 ^ k) <<< 1 = 2 ^ (k + 1) := by rw [Nat.shiftLeft_eq, pow_one, pow_succ]
  have hhalf : 2 ^ k ≤ MAXSLEEP / 2 ↔ k < 7 :=
    (Nat.pow_le_pow_iff_right Nat.one_lt_two : 2 ^ k ≤ 2 ^ 6 ↔ k ≤ 6).trans Nat.lt_succ_iff.symm
  have hnew := lowest_notMem w.fds
  rw [retryLoop, if_pos hguard, hshift]
  by_cases hsocket : w.answers 0 = true
  · let w₁ : World α := { w.answered with fds := insert (lowest w.fds) w.fds }
    have hsome : socket w = (some (lowest w.fds), w₁) := if_pos hsocket
    by_cases hconnect : w₁.answers 0 = true
    · have haccepts : connect addr w₁ = (true, w₁.answered.logged (.accepted addr)) :=
        if_pos hconnect
      simp only [hsome, haccepts]
      exact Or.inr (Or.inl ⟨lowest w.fds, _, rfl, rfl, hnew, rfl⟩)
    · have hrefuses : connect addr w₁ = (false, w₁.answered.logged (.refused addr)) :=
        if_neg hconnect
      have hclosed : (close (lowest w.fds) (w₁.answered.logged (.refused addr))).fds = w.fds :=
        Finset.erase_insert hnew
      simp only [hsome, hrefuses]
      refine Or.inr (Or.inr ⟨_, rfl, ?_, ?_⟩)
      · unfold refusal
        by_cases hlast : k < 7
        · rw [if_pos (hhalf.mpr hlast), if_pos hlast]
          exact List.append_assoc ..
        · rw [if_neg (hhalf.not.mpr hlast), if_neg hlast]
          rfl
      · split
        · exact hclosed
        · exact hclosed
  · have hnone : socket w = (none, w.answered.logged .noSocket) := if_neg hsocket
    simp only [hnone]
    exact Or.inl ⟨_, rfl, rfl, rfl⟩

/-- The tries from the try `k` on, if there is fuel for all of them. -/
theorem retryLoop_tries (addr : α) (hk : k ≤ 8) (hfuel : 9 ≤ fuel + k) (w : World α) :
    ∃ events, Tries addr k (retryLoop addr fuel (2 ^ k) w).1.isSome events ∧
      (retryLoop addr fuel (2 ^ k) w).2.log = w.log ++ events ∧
      Opened w.fds (retryLoop addr fuel (2 ^ k) w).2.fds (retryLoop addr fuel (2 ^ k) w).1 := by
  induction fuel generalizing k w with
  | zero => omega
  | succ fuel ih =>
    rcases Nat.lt_or_ge k 8 with hlt | hge
    · rcases retryLoop_turn addr fuel hlt w with ⟨w', hrun, hlog, hfds⟩ |
        ⟨fd, w', hrun, hlog, hnew, hfds⟩ | ⟨w', hrun, hlog, hfds⟩
      · rw [hrun]
        exact ⟨_, .noSocket hlt, hlog, hfds⟩
      · rw [hrun]
        exact ⟨_, .accepted hlt, hlog, hnew, hfds⟩
      · obtain ⟨events, htries, hrest, hopened⟩ := ih hlt (by omega) w'
        rw [hrun]
        refine ⟨_, .refused hlt htries, ?_, hfds ▸ hopened⟩
        rw [hrest, hlog, List.append_assoc]
    · obtain rfl := Nat.le_antisymm hk hge
      exact ⟨[], .spent, (List.append_nil _).symm, rfl⟩

theorem connectRetry_tries (addr : α) (w : World α) :
    ∃ events, Tries addr 0 (connectRetry addr w).1.isSome events ∧
      (connectRetry addr w).2.log = w.log ++ events ∧
      Opened w.fds (connectRetry addr w).2.fds (connectRetry addr w).1 :=
  retryLoop_tries addr (Nat.zero_le _) (Nat.le_refl _) w

theorem contact_search (ais : List α) (w : World α) :
    ∃ events, Search ais ((contact ais w).1.map Prod.fst) events ∧
      (contact ais w).2.log = w.log ++ events ∧
      Opened w.fds (contact ais w).2.fds ((contact ais w).1.map Prod.snd) := by
  induction ais generalizing w with
  | nil => exact ⟨[], .nil, (List.append_nil _).symm, rfl⟩
  | cons addr ais ih =>
    obtain ⟨events, htries, hlog, hopened⟩ := connectRetry_tries addr w
    unfold contact
    rcases hrun : connectRetry addr w with ⟨_ | fd, w'⟩
    · rw [hrun] at htries hlog hopened
      obtain ⟨events', hsearch, hlog', hopened'⟩ := ih w'
      refine ⟨events ++ events', .next htries hsearch, ?_, ?_⟩
      · exact hlog'.trans ((congrArg (· ++ events') hlog).trans (List.append_assoc ..))
      · rwa [show w'.fds = w.fds from hopened] at hopened'
    · rw [hrun] at htries hlog hopened
      exact ⟨events, .found htries, hlog, hopened⟩

end Runs

/-- Whatever the calls answer, the addresses are tried in their order, each at most eight times
with the delays 1, 2, up to 64 seconds between the tries, until one accepts. If none has
accepted any try, no new descriptor is open; otherwise the search ends with the first try that
is accepted, and its socket is the only new descriptor. The search takes at most eight tries
and 127 seconds of delay for each address. -/
theorem contact_finds {α : Type} (ais : List α) (w : World α) :
    ∃ events, (contact ais w).2.log = w.log ++ events ∧
      Search ais ((contact ais w).1.map Prod.fst) events ∧
      events.countP Event.isTry ≤ 8 * ais.length ∧ delay events ≤ 127 * ais.length ∧
      ((contact ais w).1 = none →
        (∀ e ∈ events, e.isAccepted = false) ∧ (contact ais w).2.fds = w.fds) ∧
      ∀ addr fd, (contact ais w).1 = some (addr, fd) → addr ∈ ais ∧
        (∃ before, events = before ++ [.accepted addr] ∧ ∀ e ∈ before, e.isAccepted = false) ∧
        fd ∉ w.fds ∧ (contact ais w).2.fds = insert fd w.fds := by
  obtain ⟨events, hsearch, hlog, hopened⟩ := contact_search ais w
  refine ⟨events, hlog, hsearch, hsearch.tries_le, hsearch.delay_le, fun hnone => ?_,
    fun addr fd hsome => ?_⟩
  · rw [hnone] at hsearch hopened
    exact ⟨hsearch.none_accepted, hopened⟩
  · rw [hsome] at hsearch hopened
    obtain ⟨hmem, hlast⟩ := hsearch.last_accepted
    exact ⟨hmem, hlast, hopened⟩

end Apue.Connecting
