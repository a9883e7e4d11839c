import Apue.Completion
import Apue.Decimal

/-!
Two processes that count in turns (ipc1/devzero.c with the pipes of ipc1/tellwait.c). The
counter is in shared memory, an update of it is a load and a store, and each process tells the
other one with a byte in a pipe when it has made its update. Both processes have all ends of
both pipes open, so that a read waits when a pipe is empty.
-/
namespace Apue.DevZero

open Programs Completion Decimal

inductive Who
  | parent
  | child
  deriving DecidableEq

/-- Where a process is in its loop. In `quit` it has found another count than it expected, or
read another byte. -/
inductive Pc
  | test (i : ℕ)
  | load (i : ℕ)
  | store (i counter : ℕ)
  | tell (i : ℕ)
  | wait (i : ℕ)
  | exited
  | quit

/-- The counter, the bytes in the pipes and the processes. -/
structure State where
  area : ℕ
  pfd1 : List Byte
  pfd2 : List Byte
  parent : Pc
  child : Pc

def start : State := ⟨0, [], [], .test 0, .test 1⟩

/-- The byte that TELL_CHILD writes. -/
def P : Byte := 112

/-- The byte that TELL_PARENT writes. -/
def C : Byte := 99

/-- The loop of the parent, for `nloops` updates. -/
def stepParent (nloops : ℕ) (s : State) : Option State :=
  match s.parent with
  | .test i => some { s with parent := if i < nloops then .load i else .exited }
  | .load i => some { s with parent := .store i s.area }
  | .store i counter => some { s with
      area := counter + 1
      parent := if counter = i then .tell i else .quit }
  | .tell i => some { s with pfd1 := s.pfd1 ++ [P], parent := .wait i }
  | .wait i =>
    match s.pfd2 with
    | [] => none
    | b :: rest => some { s with pfd2 := rest, parent := if b = C then .test (i + 2) else .quit }
  | .exited => none
  | .quit => none

/-- The loop of the child, which waits first. -/
def stepChild (nloops : ℕ) (s : State) : Option State :=
  match s.child with
  | .test i => some { s with child := if i < nloops + 1 then .wait i else .exited }
  | .wait i =>
    match s.pfd1 with
    | [] => none
    | b :: rest => some { s with pfd1 := rest, child := if b = P then .load i else .quit }
  | .load i => some { s with child := .store i s.area }
  | .store i counter => some { s with
      area := counter + 1
      child := if counter = i then .tell i else .quit }
  | .tell i => some { s with pfd2 := s.pfd2 ++ [C], child := .test (i + 2) }
  | .exited => none
  | .quit => none

def step (nloops : ℕ) (s : State) : Who → Option State
  | .parent => stepParent nloops s
  | .child => stepChild nloops s

/-- A process is in update. -/
def Pc.updating : Pc → Prop
  | .load _ => True
  | .store _ _ => True
  | _ => False

/-- The child waits for its turn in round `k`, or has ended its loop. -/
def Resting (nloops k : ℕ) (pc : Pc) : Prop :=
  pc = .test (2 * k + 1) ∨ (pc = .wait (2 * k + 1) ∧ 2 * k < nloops) ∨
    (pc = .exited ∧ nloops ≤ 2 * k)

/-- The parent makes its update in round `k`. -/
def ParentTurn (nloops k : ℕ) (s : State) : Prop :=
  s.pfd1 = [] ∧ s.pfd2 = [] ∧ Resting nloops k s.child ∧
    ((s.parent = .test (2 * k) ∧ s.area = 2 * k) ∨
      (s.parent = .load (2 * k) ∧ s.area = 2 * k ∧ 2 * k < nloops) ∨
      (s.parent = .store (2 * k) (2 * k) ∧ s.area = 2 * k ∧ 2 * k < nloops) ∨
      (s.parent = .tell (2 * k) ∧ s.area = 2 * k + 1 ∧ 2 * k < nloops) ∨
      (s.parent = .exited ∧ s.area = 2 * k ∧ nloops ≤ 2 * k ∧ 2 * k ≤ nloops + 1))

/-- The child has been told, or makes its update. -/
def ChildTurn (nloops k : ℕ) (s : State) : Prop :=
  s.parent = .wait (2 * k) ∧ s.pfd2 = [] ∧ 2 * k < nloops ∧
    ((s.pfd1 = [P] ∧ s.area = 2 * k + 1 ∧ Resting nloops k s.child) ∨
      (s.pfd1 = [] ∧ s.area = 2 * k + 1 ∧
        (s.child = .load (2 * k + 1) ∨ s.child = .store (2 * k + 1) (2 * k + 1))) ∨
      (s.pfd1 = [] ∧ s.area = 2 * k + 2 ∧ s.child = .tell (2 * k + 1)))

/-- The parent has been told. -/
def Told (nloops k : ℕ) (s : State) : Prop :=
  s.parent = .wait (2 * k) ∧ s.pfd1 = [] ∧ s.pfd2 = [C] ∧ s.area = 2 * k + 2 ∧ 2 * k < nloops ∧
    Resting nloops (k + 1) s.child

def Inv (nloops : ℕ) (s : State) : Prop :=
  ∃ k, 2 * k ≤ nloops + 1 ∧ (ParentTurn nloops k s ∨ ChildTurn nloops k s ∨ Told nloops k s)

/-- The steps that the parent has left; a round takes five. -/
def leftParent (nloops : ℕ) : Pc → ℕ
  | .test i => 5 * ((nloops - i + 1) / 2) + 1
  | .load i => 5 * ((nloops - i + 1) / 2)
  | .store i _ => 5 * ((nloops - i + 1) / 2) - 1
  | .tell i => 5 * ((nloops - i + 1) / 2) - 2
  | .wait i => 5 * ((nloops - i + 1) / 2) - 3
  | .exited => 0
  | .quit => 0

/-- The steps that the child has left. -/
def leftChild (nloops : ℕ) : Pc → ℕ
  | .test i => 5 * ((nloops + 1 - i + 1) / 2) + 1
  | .wait i => 5 * ((nloops + 1 - i + 1) / 2)
  | .load i => 5 * ((nloops + 1 - i + 1) / 2) - 1
  | .store i _ => 5 * ((nloops + 1 - i + 1) / 2) - 2
  | .tell i => 5 * ((nloops + 1 - i + 1) / 2) - 3
  | .exited => 0
  | .quit => 0

def left (nloops : ℕ) (s : State) : Who → ℕ
  | .parent => leftParent nloops s.parent
  | .child => leftChild nloops s.child

section Steps

variable {nloops k : ℕ} {s s' : State}

theorem inv_start : Inv nloops start :=
  ⟨0, Nat.zero_le _, Or.inl ⟨rfl, rfl, Or.inl rfl, Or.inl ⟨rfl, rfl⟩⟩⟩

/-- A step of the parent keeps the invariant and brings the parent nearer to its end. -/
theorem Inv.parent (h : Inv nloops s) (hs : stepParent nloops s = some s') :
    Inv nloops s' ∧ leftParent nloops s'.parent < leftParent nloops s.parent ∧
      s'.child = s.child := by
  obtain ⟨k, hk, hturn | hturn | hturn⟩ := h
  · obtain ⟨h1, h2, hrest, hparent⟩ := hturn
    obtain ⟨hp, ha⟩ | ⟨hp, ha, hlt⟩ | ⟨hp, ha, hlt⟩ | ⟨hp, ha, hlt⟩ | ⟨hp, -⟩ := hparent
    · simp only [stepParent, hp] at hs
      obtain rfl := Option.some.inj hs
      rw [hp]
      by_cases hlt : 2 * k < nloops
      · rw [if_pos hlt]
        refine ⟨⟨k, hk, Or.inl ⟨h1, h2, hrest, Or.inr (Or.inl ⟨rfl, ha, hlt⟩)⟩⟩, ?_, rfl⟩
        simp [leftParent]
      · rw [if_neg hlt]
        have hend : nloops ≤ 2 * k := by omega
        refine ⟨⟨k, hk, Or.inl ⟨h1, h2, hrest, Or.inr (Or.inr (Or.inr (Or.inr
          ⟨rfl, ha, hend, hk⟩)))⟩⟩, ?_, rfl⟩
        simp [leftParent]
    · simp only [stepParent, hp] at hs
      obtain rfl := Option.some.inj hs
      rw [hp]
      refine ⟨⟨k, hk, Or.inl ⟨h1, h2, hrest, Or.inr (Or.inr (Or.inl ⟨?_, ha, hlt⟩))⟩⟩, ?_, rfl⟩
      · simp only [ha]
      · simp only [leftParent]
        omega
    · simp only [stepParent, hp, if_true] at hs
      obtain rfl := Option.some.inj hs
      rw [hp]
      refine ⟨⟨k, hk, Or.inl ⟨h1, h2, hrest, Or.inr (Or.inr (Or.inr (Or.inl
        ⟨rfl, rfl, hlt⟩)))⟩⟩, ?_, rfl⟩
      simp only [leftParent]
      omega
    · simp only [stepParent, hp] at hs
      obtain rfl := Option.some.inj hs
      rw [hp]
      refine ⟨⟨k, hk, Or.inr (Or.inl ⟨rfl, h2, hlt, Or.inl ⟨?_, ha, hrest⟩⟩)⟩, ?_, rfl⟩
      · simp only [h1, List.nil_append]
      · simp only [leftParent]
        omega
    · simp only [stepParent, hp] at hs
      cases hs
  · obtain ⟨hp, h2, -⟩ := hturn
    simp only [stepParent, hp, h2] at hs
    cases hs
  · obtain ⟨hp, h1, h2, ha, hlt, hrest⟩ := hturn
    simp only [stepParent, hp, h2, if_true] at hs
    obtain rfl := Option.some.inj hs
    rw [hp]
    refine ⟨⟨k + 1, by omega, Or.inl ⟨h1, rfl, hrest, Or.inl ⟨rfl, ha⟩⟩⟩, ?_, rfl⟩
    simp only [leftParent]
    omega

/-- The child tests the end of its loop, or waits for a byte that is not there. -/
theorem Resting.step (hrest : Resting nloops k s.child) (hempty : s.pfd1 = [])
    (hs : stepChild nloops s = some s') :
    s' = { s with child := s'.child } ∧ Resting nloops k s'.child ∧
      leftChild nloops s'.child < leftChild nloops s.child := by
  rcases hrest with hc | ⟨hc, -⟩ | ⟨hc, -⟩
  · simp only [stepChild, hc] at hs
    obtain rfl := Option.some.inj hs
    rw [hc]
    by_cases hlt : 2 * k < nloops
    · rw [if_pos (Nat.succ_lt_succ hlt)]
      refine ⟨rfl, Or.inr (Or.inl ⟨rfl, hlt⟩), ?_⟩
      simp [leftChild]
    · rw [if_neg (by omega)]
      refine ⟨rfl, Or.inr (Or.inr ⟨rfl, by omega⟩), ?_⟩
      simp [leftChild]
  · simp only [stepChild, hc, hempty] at hs
    cases hs
  · simp only [stepChild, hc] at hs
    cases hs

theorem Inv.child (h : Inv nloops s) (hs : stepChild nloops s = some s') :
    Inv nloops s' ∧ leftChild nloops s'.child < leftChild nloops s.child ∧
      s'.parent = s.parent := by
  obtain ⟨k, hk, hturn | hturn | hturn⟩ := h
  · obtain ⟨h1, h2, hrest, hparent⟩ := hturn
    obtain ⟨hs', hrest', hleft⟩ := hrest.step h1 hs
    rw [hs']
    exact ⟨⟨k, hk, Or.inl ⟨h1, h2, hrest', hparent⟩⟩, hleft, rfl⟩
  · obtain ⟨hp, h2, hlt, ⟨h1, ha, hrest⟩ | ⟨h1, ha, hc | hc⟩ | ⟨h1, ha, hc⟩⟩ := hturn
    · rcases hrest with hc | ⟨hc, -⟩ | ⟨-, hend⟩
      · simp only [stepChild, hc, if_pos (Nat.succ_lt_succ hlt)] at hs
        obtain rfl := Option.some.inj hs
        rw [hc]
        refine ⟨⟨k, hk, Or.inr (Or.inl ⟨hp, h2, hlt, Or.inl ⟨h1, ha, Or.inr (Or.inl
          ⟨rfl, hlt⟩)⟩⟩)⟩, ?_, rfl⟩
        simp [leftChild]
      · simp only [stepChild, hc, h1, if_true] at hs
        obtain rfl := Option.some.inj hs
        rw [hc]
        refine ⟨⟨k, hk, Or.inr (Or.inl ⟨hp, h2, hlt, Or.inr (Or.inl ⟨rfl, ha, Or.inl rfl⟩)⟩)⟩,
          ?_, rfl⟩
        simp only [leftChild]
        omega
      · exact absurd hlt (Nat.not_lt.mpr hend)
    · simp only [stepChild, hc] at hs
      obtain rfl := Option.some.inj hs
      rw [hc]
      refine ⟨⟨k, hk, Or.inr (Or.inl ⟨hp, h2, hlt, Or.inr (Or.inl ⟨h1, ha, Or.inr ?_⟩)⟩)⟩, ?_, rfl⟩
      · simp only [ha]
      · simp only [leftChild]
        omega
    · simp only [stepChild, hc, if_true] at hs
      obtain rfl := Option.some.inj hs
      rw [hc]
      refine ⟨⟨k, hk, Or.inr (Or.inl ⟨hp, h2, hlt, Or.inr (Or.inr ⟨h1, rfl, rfl⟩)⟩)⟩, ?_, rfl⟩
      simp only [leftChild]
      omega
    · simp only [stepChild, hc] at hs
      obtain rfl := Option.some.inj hs
      rw [hc]
      refine ⟨⟨k, hk, Or.inr (Or.inr ⟨hp, h1, ?_, ha, hlt, Or.inl rfl⟩)⟩, ?_, rfl⟩
      · simp only [h2, List.nil_append]
      · simp only [leftChild]
        omega
  · obtain ⟨hp, h1, h2, ha, hlt, hrest⟩ := hturn
    obtain ⟨hs', hrest', hleft⟩ := hrest.step h1 hs
    rw [hs']
    exact ⟨⟨k, hk, Or.inr (Or.inr ⟨hp, h1, h2, ha, hlt, hrest'⟩)⟩, hleft, rfl⟩

/-- As long as a process has not ended, one of them can go on. -/
theorem Inv.exists_step (h : Inv nloops s) (hbusy : s.parent ≠ .exited ∨ s.child ≠ .exited) :
    ∃ q s', step nloops s q = some s' := by
  obtain ⟨k, hk, hturn | hturn | hturn⟩ := h
  · obtain ⟨h1, h2, hrest, ⟨hp, -⟩ | ⟨hp, -⟩ | ⟨hp, -⟩ | ⟨hp, -⟩ | ⟨hp, -, hend, -⟩⟩ := hturn
    · exact ⟨.parent, _, by simp only [step, stepParent, hp]; rfl⟩
    · exact ⟨.parent, _, by simp only [step, stepParent, hp]; rfl⟩
    · exact ⟨.parent, _, by simp only [step, stepParent, hp]; rfl⟩
    · exact ⟨.parent, _, by simp only [step, stepParent, hp]; rfl⟩
    · rcases hrest with hc | ⟨-, hlt⟩ | ⟨hc, -⟩
      · exact ⟨.child, _, by simp only [step, stepChild, hc]; rfl⟩
      · exact absurd hlt (Nat.not_lt.mpr hend)
      · exact absurd hbusy (by simp [hp, hc])
  · obtain ⟨-, -, hlt, ⟨h1, -, hrest⟩ | ⟨-, -, hc | hc⟩ | ⟨-, -, hc⟩⟩ := hturn
    · rcases hrest with hc | ⟨hc, -⟩ | ⟨-, hend⟩
      · exact ⟨.child, _, by simp only [step, stepChild, hc]; rfl⟩
      · exact ⟨.child, _, by simp only [step, stepChild, hc, h1]; rfl⟩
      · exact absurd hlt (Nat.not_lt.mpr hend)
    · exact ⟨.child, _, by simp only [step, stepChild, hc]; rfl⟩
    · exact ⟨.child, _, by simp only [step, stepChild, hc]; rfl⟩
    · exact ⟨.child, _, by simp only [step, stepChild, hc]; rfl⟩
  · obtain ⟨hp, -, h2, -⟩ := hturn
    exact ⟨.parent, _, by simp only [step, stepParent, hp, h2]; rfl⟩

theorem ending (nloops : ℕ) : Ending (step nloops) (Inv nloops) (left nloops) where
  keeps s q s' h hs := by
    cases q with
    | parent => exact (h.parent hs).1
    | child => exact (h.child hs).1
  nearer s q s' h hs := by
    cases q with
    | parent => exact (h.parent hs).2.1
    | child => exact (h.child hs).2.1
  others s q s' h hs p hp := by
    cases q with
    | parent =>
      cases p with
      | parent => exact absurd rfl hp
      | child => exact congrArg (leftChild nloops) (h.parent hs).2.2
    | child =>
      cases p with
      | parent => exact congrArg (leftParent nloops) (h.child hs).2.2
      | child => exact absurd rfl hp
  goesOn s q h hleft := by
    refine h.exists_step ?_
    cases q with
    | parent =>
      refine Or.inl fun hp => ?_
      simp [left, hp, leftParent] at hleft
    | child =>
      refine Or.inr fun hc => ?_
      simp [left, hc, leftChild] at hleft

/-- Nobody finds another count or another byte than it expects, only one process updates the
counter at a time, and when both have ended all updates were made. -/
theorem Inv.right (h : Inv nloops s) : s.parent ≠ .quit ∧ s.child ≠ .quit ∧
    ¬ (s.parent.updating ∧ s.child.updating) ∧ (s.parent = .exited → s.child = .exited →
      s.area = 2 * ((nloops + 1) / 2) ∧ s.pfd1 = [] ∧ s.pfd2 = []) := by
  have hquiet : ∀ k, Resting nloops k s.child → s.child ≠ .quit ∧ ¬ s.child.updating := by
    rintro k (hc | ⟨hc, -⟩ | ⟨hc, -⟩) <;> simp [hc, Pc.updating]
  obtain ⟨k, hk, hturn | hturn | hturn⟩ := h
  · obtain ⟨h1, h2, hrest, hparent⟩ := hturn
    obtain ⟨hquit, hidle⟩ := hquiet k hrest
    refine ⟨?_, hquit, fun hboth => hidle hboth.2, fun hp _ => ⟨?_, h1, h2⟩⟩
    · rcases hparent with ⟨hp, -⟩ | ⟨hp, -⟩ | ⟨hp, -⟩ | ⟨hp, -⟩ | ⟨hp, -⟩ <;> simp [hp]
    · rw [hp] at hparent
      rcases hparent with ⟨hp, -⟩ | ⟨hp, -⟩ | ⟨hp, -⟩ | ⟨hp, -⟩ | ⟨-, ha, hend, hle⟩
      · cases hp
      · cases hp
      · cases hp
      · cases hp
      · omega
  · obtain ⟨hp, h2, hlt, hchild⟩ := hturn
    refine ⟨by simp [hp], ?_, by simp [hp, Pc.updating], fun hexit => by simp [hp] at hexit⟩
    rcases hchild with ⟨-, -, hrest⟩ | ⟨-, -, hc | hc⟩ | ⟨-, -, hc⟩
    · exact (hquiet k hrest).1
    · simp [hc]
    · simp [hc]
    · simp [hc]
  · obtain ⟨hp, -, -, -, -, hrest⟩ := hturn
    exact ⟨by simp [hp], (hquiet (k + 1) hrest).1, by simp [hp, Pc.updating],
      fun hexit => by simp [hp] at hexit⟩

end Steps

end Apue.DevZero
