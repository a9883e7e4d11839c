import Apue.SemOps
import Mathlib.Data.List.Count

/-!
What holds in all states of the semaphore sets. The lock of a set has at most one holder,
which has the adjustment for it. The counter is zero until sem_create sets it; from then on
it goes together with the opens, as long as there are fewer than BIGCOUNT of them.

Parts of the invariant hold under conditions on the steps of a run: that the opens are
limited, that no open is counted while a close is about to remove the set, and that no set
is removed while a sem_create sleeps on its lock.
-/
namespace Apue.Semaph

/-- The set of which a process holds the lock. -/
def Pc.locks : Pc → Option ℕ
  | .createRead _ id => some id
  | .createSet0 _ id => some id
  | .createSet1 id => some id
  | .createEnd id _ => some id
  | .closeRead id => some id
  | .closeRm id => some id
  | .closeUnlock id _ => some id
  | _ => none

/-- The value that a process adds to the lock of a set. -/
def Pc.held (pc : Pc) (id : ℕ) : ℤ := if pc.locks = some id then 1 else 0

/-- There are fewer opens of a set than the counter can count. -/
def State.LimitedAt (s : State) (id : ℕ) : Prop := (s.opened id : ℤ) < BIGCOUNT

/-- There are fewer opens of each set than the counter can count. -/
def State.Limited (s : State) : Prop := ∀ id, s.LimitedAt id

/-- The step does not count an open of a set that a process is about to remove because it
read BIGCOUNT from the counter. -/
def State.Quiet (s : State) (e : Event) : Prop :=
  ∀ p id asleep, e = .go p → s.proc p = .openCount id asleep → ∀ q, s.proc q ≠ .closeRm id

/-- The step does not remove a set while a sem_create sleeps on its lock. -/
def State.Spared (s : State) (e : Event) : Prop :=
  ∀ p id, e = .go p → s.proc p = .closeRm id →
    ∀ q key initval, s.proc q ≠ .createLock key initval id true

/-- Which of the conditions the steps of a run meet, and for which sets. -/
structure Conditions where
  limited : ℕ → Prop
  quiet : Prop
  spared : Prop

namespace State

/-- The lock of a set and its holder. -/
structure LockOk (s : State) (id : ℕ) (x : SemSet) : Prop where
  adj : ∀ p, x.adj p 2 = -(s.proc p).held id
  lock : (x.val 2 = 0 ∧ ∀ p, (s.proc p).locks ≠ some id) ∨
    (x.val 2 = 1 ∧ ∃ p, (s.proc p).locks = some id)
  single : ∀ p q, (s.proc p).locks = some id → (s.proc q).locks = some id → p = q

/-- The counter of a set and its opens. -/
structure CountOk (C : Conditions) (s : State) (id : ℕ) (x : SemSet) : Prop where
  blank : 1 ∉ x.log → x.val 1 = 0 ∧ s.opened id = 0 ∧ ∀ p, x.adj p 1 = 0
  count : C.limited id → 1 ∈ x.log →
    x.val 1 + s.opened id = BIGCOUNT ∧ ∀ p, x.adj p 1 = s.opens.count (p, id)
  once : C.limited id → 1 ∉ x.log.tail
  order : 1 ∈ x.log → 0 ∈ x.log

/-- What a process can rely on. -/
def PcOk (C : Conditions) (s : State) (p : ℕ) : Pc → Prop
  | .createLock _ _ id asleep => C.spared → asleep = true → s.set id ≠ none
  | .createRead _ id => s.set id ≠ none
  | .createSet0 _ id => ∃ x, s.set id = some x ∧ (C.limited id → 1 ∉ x.log)
  | .createSet1 id => ∃ x, s.set id = some x ∧ (C.limited id → 1 ∉ x.log) ∧ 0 ∈ x.log
  | .createEnd id _ => ∃ x, s.set id = some x ∧ 1 ∈ x.log
  | .closeLock id _ => (p, id) ∈ s.opens
  | .closeRead id => s.set id ≠ none
  | .closeRm id => s.set id ≠ none ∧ (C.limited id → C.quiet → s.opened id = 0)
  | .closeUnlock id _ => s.set id ≠ none
  | .failed .create errno => C.spared → errno = .ERANGE
  | _ => True

structure Inv (C : Conditions) (s : State) : Prop where
  fresh : ∀ id, s.sets ≤ id → s.set id = none
  known : ∀ e ∈ s.opens, e.2 < s.sets
  keyed : ∀ key id, s.key key = some id → s.set id ≠ none
  lock : ∀ id x, s.set id = some x → s.LockOk id x
  count : ∀ id x, s.set id = some x → s.CountOk C id x
  proc : ∀ p, s.PcOk C p (s.proc p)

theorem Inv.initial (C : Conditions) : State.initial.Inv C where
  fresh _ _ := rfl
  known := nofun
  keyed := nofun
  lock := nofun
  count := nofun
  proc _ := trivial

variable {C : Conditions} {s s' : State} {p id : ℕ} {pc : Pc} {x y : SemSet}

/-- The holder of a lock works on a set that exists. -/
theorem PcOk.live (h : s.PcOk C p pc) (hlocks : pc.locks = some id) : ∃ x, s.set id = some x := by
  cases pc <;> cases hlocks
  case createRead => exact Option.ne_none_iff_exists'.mp h
  case createSet0 =>
    obtain ⟨x, hx, -⟩ := h
    exact ⟨x, hx⟩
  case createSet1 =>
    obtain ⟨x, hx, -⟩ := h
    exact ⟨x, hx⟩
  case createEnd =>
    obtain ⟨x, hx, -⟩ := h
    exact ⟨x, hx⟩
  case closeRead => exact Option.ne_none_iff_exists'.mp h
  case closeRm => exact Option.ne_none_iff_exists'.mp h.1
  case closeUnlock => exact Option.ne_none_iff_exists'.mp h

/-- What another process relies on stays true if its sets and opens stay, the counter is set
only by the holder of the lock, and nothing is opened on a set that it is about to remove. -/
theorem PcOk.keep {q : ℕ} (h : s.PcOk C q pc)
    (hlive : ∀ j, pc.locks = some j → ∀ x, s.set j = some x → ∃ y, s'.set j = some y ∧
      ((∀ m ∈ x.log, m ∈ y.log) ∧ (1 ∉ x.log → 1 ∉ y.log)))
    (hasleep : C.spared → ∀ key initval j, pc = .createLock key initval j true →
      s.set j ≠ none → s'.set j ≠ none)
    (hopens : ∀ j, (q, j) ∈ s.opens → (q, j) ∈ s'.opens)
    (hquiet : C.quiet → ∀ j, pc = .closeRm j → s'.opened j ≤ s.opened j) : s'.PcOk C q pc := by
  have hstay : ∀ j, pc.locks = some j → s.set j ≠ none → s'.set j ≠ none := fun j hj hne => by
    obtain ⟨x, hx⟩ := Option.ne_none_iff_exists'.mp hne
    obtain ⟨y, hy, -⟩ := hlive j hj x hx
    simp [hy]
  cases pc with
  | createLock key initval id asleep =>
    intro hspared hb
    subst hb
    exact hasleep hspared key initval id rfl (h hspared rfl)
  | createRead initval id => exact hstay id rfl h
  | createSet0 initval id =>
    obtain ⟨x, hx, hnot⟩ := h
    obtain ⟨y, hy, -, hlog⟩ := hlive id rfl x hx
    exact ⟨y, hy, fun hlim => hlog (hnot hlim)⟩
  | createSet1 id =>
    obtain ⟨x, hx, hnot, hin⟩ := h
    obtain ⟨y, hy, hmore, hlog⟩ := hlive id rfl x hx
    exact ⟨y, hy, fun hlim => hlog (hnot hlim), hmore 0 hin⟩
  | createEnd id asleep =>
    obtain ⟨x, hx, hin⟩ := h
    obtain ⟨y, hy, hmore, -⟩ := hlive id rfl x hx
    exact ⟨y, hy, hmore 1 hin⟩
  | closeLock id asleep => exact hopens id h
  | closeRead id => exact hstay id rfl h
  | closeRm id =>
    refine ⟨hstay id rfl h.1, fun hlim hq => ?_⟩
    have hle := hquiet hq id rfl
    have hzero := h.2 hlim hq
    omega
  | closeUnlock id asleep => exact hstay id rfl h
  | failed fn errno =>
    cases fn with
    | create => exact h
    | openf => trivial
    | close => trivial
    | op => trivial
  | idle => trivial
  | create key initval => trivial
  | openGet key => trivial
  | openCount id asleep => trivial
  | op id value asleep => trivial
  | exited => trivial

theorem LockOk.frame (h : s.LockOk id x)
    (hlocks : ∀ q, (s'.proc q).locks = some id ↔ (s.proc q).locks = some id)
    (hval : y.val 2 = x.val 2) (hadj : ∀ q, y.adj q 2 = x.adj q 2) : s'.LockOk id y where
  adj q := by
    rw [hadj, h.adj, Pc.held, Pc.held]
    simp only [hlocks]
  lock := by
    rw [hval]
    simp only [ne_eq, hlocks]
    exact h.lock
  single q r hq hr := h.single q r ((hlocks q).mp hq) ((hlocks r).mp hr)

/-- A process gets the lock. -/
theorem LockOk.acquire (h : s.LockOk id x) (hfree : x.val 2 = 0)
    (hmine : (s'.proc p).locks = some id)
    (hother : ∀ q, q ≠ p → (s'.proc q).locks = (s.proc q).locks)
    (hval : y.val 2 = 1) (hadj : ∀ q, y.adj q 2 = x.adj q 2 - if q = p then 1 else 0) :
    s'.LockOk id y := by
  have hnone : ∀ q, (s.proc q).locks ≠ some id := by
    rcases h.lock with ⟨-, hnone⟩ | ⟨hone, -⟩
    · exact hnone
    · omega
  have honly : ∀ q, (s'.proc q).locks = some id → q = p := by
    intro q hq
    by_contra hne
    rw [hother q hne] at hq
    exact hnone q hq
  refine ⟨fun q => ?_, Or.inr ⟨hval, p, hmine⟩, fun q r hq hr => (honly q hq).trans (honly r hr).symm⟩
  rw [hadj, h.adj, Pc.held, Pc.held, if_neg (hnone q)]
  by_cases hq : q = p
  · subst hq
    rw [if_pos hmine, if_pos rfl]
    omega
  · rw [if_neg hq, if_neg fun hlocks => hq (honly q hlocks)]
    omega

/-- The holder gives the lock up. -/
theorem LockOk.release (h : s.LockOk id x) (hmine : (s.proc p).locks = some id)
    (hgone : (s'.proc p).locks ≠ some id)
    (hother : ∀ q, q ≠ p → (s'.proc q).locks = (s.proc q).locks)
    (hval : y.val 2 = x.val 2 - 1) (hadj : ∀ q, y.adj q 2 = x.adj q 2 + if q = p then 1 else 0) :
    s'.LockOk id y := by
  have hone : x.val 2 = 1 := by
    rcases h.lock with ⟨-, hnone⟩ | ⟨hone, -⟩
    · exact absurd hmine (hnone p)
    · exact hone
  have hnone : ∀ q, (s'.proc q).locks ≠ some id := by
    intro q hq
    by_cases hqp : q = p
    · subst hqp
      exact hgone hq
    · rw [hother q hqp] at hq
      exact hqp (h.single q p hq hmine)
  refine ⟨fun q => ?_, Or.inl ⟨by omega, hnone⟩, fun q r hq => absurd hq (hnone q)⟩
  rw [hadj, h.adj, Pc.held, Pc.held, if_neg (hnone q)]
  by_cases hq : q = p
  · subst hq
    rw [if_pos hmine, if_pos rfl]
    omega
  · rw [if_neg hq, if_neg fun hlocks => hq (h.single q p hlocks hmine)]
    omega

/-- The counter of a set does not depend on the opens of the others. -/
theorem CountOk.frame (h : s.CountOk C id x) (hlog : y.log = x.log) (hval : y.val 1 = x.val 1)
    (hadj : ∀ q, y.adj q 1 = x.adj q 1) (hopened : s'.opened id = s.opened id)
    (hopens : ∀ q, s'.opens.count (q, id) = s.opens.count (q, id)) : s'.CountOk C id y where
  blank hnot := by
    rw [hlog] at hnot
    rw [hval, hopened]
    simp only [hadj]
    exact h.blank hnot
  count hlim hin := by
    rw [hlog] at hin
    rw [hval, hopened]
    simp only [hadj, hopens]
    exact h.count hlim hin
  once hlim := by
    rw [hlog]
    exact h.once hlim
  order := by
    rw [hlog]
    exact h.order

/-- A process goes on without a change of a set. -/
theorem Inv.move (h : s.Inv C) (hlocks : pc.locks = (s.proc p).locks)
    (hok : s.PcOk C p pc) : (s.move p pc).Inv C := by
  have hsame : ∀ q, ((s.move p pc).proc q).locks = (s.proc q).locks := by
    intro q
    by_cases hq : q = p
    · subst hq
      simp [State.move, hlocks]
    · simp [State.move, hq]
  refine ⟨h.fresh, h.known, h.keyed, fun id x hx => ?_, fun id x hx => ?_, fun q => ?_⟩
  · exact (h.lock id x hx).frame (fun q => by rw [hsame]) rfl fun _ => rfl
  · exact (h.count id x hx).frame rfl rfl (fun _ => rfl) rfl fun _ => rfl
  · change PcOk C _ q (Function.update s.proc p pc q)
    by_cases hq : q = p
    · subst hq
      rw [Function.update_self]
      exact hok.keep (fun j _ x hx => ⟨x, hx, fun _ hin => hin, fun hnot => hnot⟩)
        (fun _ _ _ _ _ hne => hne) (fun _ hmem => hmem) fun _ _ _ => Nat.le_refl _
    · rw [Function.update_of_ne hq]
      exact (h.proc q).keep (fun j _ x hx => ⟨x, hx, fun _ hin => hin, fun hnot => hnot⟩)
        (fun _ _ _ _ _ hne => hne) (fun _ hmem => hmem) fun _ _ _ => Nat.le_refl _

/-- A process changes a set, and its opens of this set. -/
theorem Inv.change {opens : List (ℕ × ℕ)} (h : s.Inv C) (hx : s.set id = some x)
    (hs' : s' = { s.change p pc id y with opens := opens })
    (hlocks : ∀ j, j ≠ id → (pc.locks = some j ↔ (s.proc p).locks = some j))
    (hopens : ∀ q j, q ≠ p ∨ j ≠ id → opens.count (q, j) = s.opens.count (q, j))
    (hopened : ∀ j, j ≠ id → s'.opened j = s.opened j)
    (hlock : s'.LockOk id y) (hcount : s'.CountOk C id y) (hok : s'.PcOk C p pc)
    (hin : ∀ m ∈ x.log, m ∈ y.log) (hlog : (s.proc p).locks = some id ∨ (1 ∉ x.log → 1 ∉ y.log))
    (hquiet : (s.proc p).locks = some id ∨ s'.opened id ≤ s.opened id ∨
      (C.quiet → ∀ q, s.proc q ≠ .closeRm id)) : s'.Inv C := by
  have hproc : s'.proc = Function.update s.proc p pc := by rw [hs']; rfl
  have hset : s'.set = Function.update s.set id (some y) := by rw [hs']; rfl
  have hopens' : s'.opens = opens := by rw [hs']
  have hlt : id < s.sets := by
    by_contra hge
    rw [h.fresh id (Nat.not_lt.mp hge)] at hx
    cases hx
  have hold : ∀ {j z}, j ≠ id → s'.set j = some z → s.set j = some z := fun {j z} hj hz => by
    rwa [hset, Function.update_of_ne hj] at hz
  have hnone : ∀ {j}, s.set j ≠ none → s'.set j ≠ none := fun {j} hj => by
    rw [hset]
    by_cases hji : j = id
    · subst hji
      simp
    · rwa [Function.update_of_ne hji]
  have hsame : ∀ j, j ≠ id → ∀ q, (s'.proc q).locks = some j ↔ (s.proc q).locks = some j := by
    intro j hj q
    rw [hproc]
    by_cases hq : q = p
    · subst hq
      rw [Function.update_self]
      exact hlocks j hj
    · rw [Function.update_of_ne hq]
  refine ⟨fun j hj => ?_, fun e he => ?_, fun key j hj => ?_, fun j z hz => ?_, fun j z hz => ?_,
    fun q => ?_⟩
  · have hsets : s'.sets = s.sets := by rw [hs']; rfl
    rw [hsets] at hj
    rw [hset, Function.update_of_ne (by omega)]
    exact h.fresh j hj
  · have hsets : s'.sets = s.sets := by rw [hs']; rfl
    rw [hsets]
    by_cases he2 : e.2 = id
    · rw [he2]
      exact hlt
    · have hpos := List.count_pos_iff.mpr he
      rw [hopens', hopens e.1 e.2 (Or.inr he2)] at hpos
      exact h.known e (List.count_pos_iff.mp hpos)
  · have hkey : s'.key = s.key := by rw [hs']; rfl
    rw [hkey] at hj
    exact hnone (h.keyed key j hj)
  · by_cases hj : j = id
    · subst hj
      rw [hset, Function.update_self] at hz
      obtain rfl := Option.some.inj hz
      exact hlock
    · exact (h.lock j z (hold hj hz)).frame (hsame j hj) rfl fun _ => rfl
  · by_cases hj : j = id
    · subst hj
      rw [hset, Function.update_self] at hz
      obtain rfl := Option.some.inj hz
      exact hcount
    · refine (h.count j z (hold hj hz)).frame rfl rfl (fun _ => rfl) (hopened j hj) fun q => ?_
      rw [hopens']
      exact hopens q j (Or.inr hj)
  · by_cases hq : q = p
    · subst hq
      rw [hproc, Function.update_self]
      exact hok
    · rw [hproc, Function.update_of_ne hq]
      have hnotmine : (s.proc p).locks = some id → (s.proc q).locks ≠ some id :=
        fun hmine hother => hq ((h.lock id x hx).single q p hother hmine)
      refine (h.proc q).keep (fun j hj z hz => ?_) (fun _ _ _ _ _ hne => hnone hne)
        (fun j hmem => ?_) fun hcq j hj => ?_
      · by_cases hji : j = id
        · subst hji
          obtain rfl := Option.some.inj (hx.symm.trans hz)
          refine ⟨y, by rw [hset, Function.update_self], hin, ?_⟩
          rcases hlog with hmine | hlog
          · exact absurd hj (hnotmine hmine)
          · exact hlog
        · exact ⟨z, by rw [hset, Function.update_of_ne hji]; exact hz, fun _ hin => hin,
            fun hnot => hnot⟩
      · rw [hopens']
        exact List.count_pos_iff.mp ((hopens q j (Or.inl hq)).symm ▸ List.count_pos_iff.mpr hmem)
      · by_cases hji : j = id
        · subst hji
          rcases hquiet with hmine | hle | hquiet
          · exact absurd (by rw [hj]; rfl) (hnotmine hmine)
          · exact hle
          · exact absurd hj (hquiet hcq q)
        · exact Nat.le_of_eq (hopened j hji)

end State

end Apue.Semaph
