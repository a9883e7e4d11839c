import Mathlib.Data.List.Induction
import Mathlib.Logic.Function.Basic
import Mathlib.Order.Defs.PartialOrder
import Mathlib.Logic.Relation

/-!
Programs that interact with their environment through system calls. A program
is a finite-depth tree whose inner nodes are calls and whose leaves are a
returned value, an abort with its message, or an exhausted loop bound. Nothing
here fixes what a call does: a handler runs a program alone, and the module
Threads interleaves many of them. A machine that is a step function is run by
`steps` on a list of actions.
-/
namespace Apue.Programs

/-- The calls a program may make and the type of the answer to each. -/
structure Signature where
  Call : Type
  Ret : Call → Type

/-- `abort` ends the process; `diverge` marks a loop cut off at its bound. -/
inductive Prog (S : Signature) (α : Type) : Type
  | ret (a : α)
  | abort (msg : String)
  | diverge
  | call (c : S.Call) (k : S.Ret c → Prog S α)

namespace Prog

variable {S : Signature} {α β γ : Type}

def bind : Prog S α → (α → Prog S β) → Prog S β
  | ret a, f => f a
  | abort msg, _ => abort msg
  | diverge, _ => diverge
  | call c k, f => call c fun r => (k r).bind f

instance : Monad (Prog S) where
  pure := ret
  bind := bind

/-- A single call that returns its answer. -/
def perform (c : S.Call) : Prog S (S.Ret c) := call c ret

@[simp] theorem pure_eq (a : α) : (pure a : Prog S α) = ret a := rfl

@[simp] theorem ret_bind (a : α) (f : α → Prog S β) : (ret a >>= f) = f a := rfl

@[simp] theorem abort_bind (msg : String) (f : α → Prog S β) :
    (abort msg >>= f) = abort msg := rfl

@[simp] theorem diverge_bind (f : α → Prog S β) : (diverge >>= f) = diverge := rfl

@[simp] theorem call_bind (c : S.Call) (k : S.Ret c → Prog S α) (f : α → Prog S β) :
    (call c k >>= f) = call c fun r => k r >>= f := rfl

@[simp] theorem perform_bind (c : S.Call) (f : S.Ret c → Prog S β) :
    (perform c >>= f) = call c f := rfl

theorem bind_assoc (p : Prog S α) (f : α → Prog S β) (g : β → Prog S γ) :
    ((p >>= f) >>= g) = (p >>= fun a => f a >>= g) := by
  induction p with
  | ret a => rfl
  | abort msg => rfl
  | diverge => rfl
  | call c k ih => exact congrArg (call c) (funext fun r => ih r)

@[simp] theorem bind_ret (p : Prog S α) : (p >>= ret) = p := by
  induction p with
  | ret a => rfl
  | abort msg => rfl
  | diverge => rfl
  | call c k ih => exact congrArg (call c) (funext fun r => ih r)

end Prog

/-- How a program that runs alone ends. -/
inductive Outcome (α : Type)
  | ok (a : α)
  | aborted (msg : String)
  | diverged
  deriving DecidableEq

/-- What is left of a program that has ended so. -/
def Outcome.leaf {S : Signature} {α : Type} : Outcome α → Prog S α
  | .ok a => .ret a
  | .aborted msg => .abort msg
  | .diverged => .diverge

def Outcome.isOk {α : Type} : Outcome α → Bool
  | .ok _ => true
  | _ => false

/-- The program has returned, or the message has stopped it. -/
def Outcome.EndsWith {α : Type} (o : Outcome α) : Option String → Prop
  | none => o.isOk = true
  | some msg => o = .aborted msg

theorem Outcome.EndsWith.ne_diverged {α : Type} {o : Outcome α} {stop : Option String}
    (h : o.EndsWith stop) : o ≠ .diverged := by
  rintro rfl
  cases stop with
  | none => cases h
  | some msg => cases h

theorem Outcome.EndsWith.aborted_iff {α : Type} {o : Outcome α} {stop : Option String}
    (h : o.EndsWith stop) (msg : String) : o = .aborted msg ↔ stop = some msg := by
  cases stop with
  | none =>
    obtain ⟨a, rfl⟩ : ∃ a, o = .ok a := by
      cases o with
      | ok a => exact ⟨a, rfl⟩
      | aborted msg => cases h
      | diverged => cases h
    exact iff_of_false nofun nofun
  | some msg' =>
    rw [show o = .aborted msg' from h, Outcome.aborted.injEq, Option.some.injEq]

theorem Outcome.exists_of_isOk {α : Type} {o : Outcome α} (h : o.isOk = true) : ∃ a, o = .ok a := by
  cases o with
  | ok a => exact ⟨a, rfl⟩
  | aborted msg => cases h
  | diverged => cases h

namespace Prog

variable {S : Signature} {α β τ : Type}

/-- Run a program alone, a handler answering each call on a state. -/
def run (handle : (c : S.Call) → τ → S.Ret c × τ) : Prog S α → τ → Outcome α × τ
  | ret a, s => (.ok a, s)
  | abort msg, s => (.aborted msg, s)
  | diverge, s => (.diverged, s)
  | call c k, s => (k (handle c s).1).run handle (handle c s).2

theorem run_bind (handle : (c : S.Call) → τ → S.Ret c × τ) (p : Prog S α)
    (f : α → Prog S β) (s : τ) :
    (p >>= f).run handle s =
      match p.run handle s with
      | (.ok a, s') => (f a).run handle s'
      | (.aborted msg, s') => (.aborted msg, s')
      | (.diverged, s') => (.diverged, s') := by
  induction p generalizing s with
  | ret a => rfl
  | abort msg => rfl
  | diverge => rfl
  | call c k ih => exact ih _ _

end Prog

namespace Prog

variable {S : Signature} {α β : Type} {ok : S.Call → Prop}

/-- All calls of the program are of one kind. -/
def Only (ok : S.Call → Prop) : Prog S α → Prop
  | ret _ => True
  | abort _ => True
  | diverge => True
  | call c k => ok c ∧ ∀ r, (k r).Only ok

theorem Only.bind {p : Prog S α} {f : α → Prog S β} (h : p.Only ok) (hf : ∀ a, (f a).Only ok) :
    (p >>= f).Only ok := by
  induction p with
  | ret a => exact hf a
  | abort msg => trivial
  | diverge => trivial
  | call c k ih => exact ⟨h.1, fun r => ih r (h.2 r)⟩

theorem Only.mono {ok' : S.Call → Prop} {p : Prog S α} (h : p.Only ok)
    (himp : ∀ c, ok c → ok' c) : p.Only ok' := by
  induction p with
  | ret a => trivial
  | abort msg => trivial
  | diverge => trivial
  | call c k ih => exact ⟨himp c h.1, fun r => ih r (h.2 r)⟩

theorem Only.ite {c : Prop} [Decidable c] {p q : Prog S α} (hp : p.Only ok) (hq : q.Only ok) :
    (if c then p else q).Only ok := by
  split
  · exact hp
  · exact hq

end Prog

namespace Prog

variable {S : Signature} {α β τ : Type}

/-- What holds of every value that the program can return, whatever the answers are. -/
def Returns (post : α → Prop) : Prog S α → Prop
  | ret a => post a
  | abort _ => True
  | diverge => True
  | call _ k => ∀ r, (k r).Returns post

theorem Returns.bind {post : α → Prop} {post' : β → Prop} {p : Prog S α} {f : α → Prog S β}
    (h : p.Returns post) (hf : ∀ a, post a → (f a).Returns post') : (p >>= f).Returns post' := by
  induction p with
  | ret a => exact hf a h
  | abort msg => trivial
  | diverge => trivial
  | call c k ih => exact fun r => ih r (h r)

theorem returns_true (p : Prog S α) : p.Returns fun _ => True := by
  induction p with
  | ret a => trivial
  | abort msg => trivial
  | diverge => trivial
  | call c k ih => exact ih

theorem Returns.of_run {post : α → Prop} {p : Prog S α} (h : p.Returns post)
    {handle : (c : S.Call) → τ → S.Ret c × τ} {s s' : τ} {a : α}
    (hrun : p.run handle s = (.ok a, s')) : post a := by
  induction p generalizing s with
  | ret b =>
    obtain rfl := Outcome.ok.inj (Prod.mk.inj hrun).1
    exact h
  | abort msg => cases hrun
  | diverge => cases hrun
  | call c k ih => exact ih _ (h _) hrun

end Prog

/-- Rules for the calls of a program: `pre` says when a call may be made, and
`post` how what the rules speak about changes with the call and its answer. -/
structure Rules (S : Signature) (G : Type) where
  pre : S.Call → G → Prop
  post : (c : S.Call) → S.Ret c → G → G

namespace Rules

variable {S : Signature} {G α β : Type} (D : Rules S G)

/-- Whatever the answers are, every call of the program is made when the rules
allow it, and `final` holds if the program returns. -/
def Obeys : Prog S α → G → (α → G → Prop) → Prop
  | .ret a, g, final => final a g
  | .abort _, _, _ => True
  | .diverge, _, _ => True
  | .call c k, g, final => D.pre c g ∧ ∀ r, Obeys (k r) (D.post c r g) final

variable {D}

theorem Obeys.bind {p : Prog S α} {f : α → Prog S β} {g : G} {final : β → G → Prop}
    (h : D.Obeys p g fun a g' => D.Obeys (f a) g' final) : D.Obeys (p >>= f) g final := by
  induction p generalizing g with
  | ret a => exact h
  | abort msg => trivial
  | diverge => trivial
  | call c k ih => exact ⟨h.1, fun r => ih r (h.2 r)⟩

/-- A single call and what follows it. -/
theorem Obeys.call_bind {c : S.Call} {f : S.Ret c → Prog S β} {g : G} {final : β → G → Prop}
    (hpre : D.pre c g) (h : ∀ r, D.Obeys (f r) (D.post c r g) final) :
    D.Obeys (Prog.call c Prog.ret >>= f) g final := ⟨hpre, h⟩

theorem Obeys.mono {p : Prog S α} {g : G} {final final' : α → G → Prop} (h : D.Obeys p g final)
    (himp : ∀ a g', final a g' → final' a g') : D.Obeys p g final' := by
  induction p generalizing g with
  | ret a => exact himp a g h
  | abort msg => trivial
  | diverge => trivial
  | call c k ih => exact ⟨h.1, fun r => ih r (h.2 r)⟩

/-- A program whose calls the rules do not speak about. -/
theorem Obeys.of_only {ok : S.Call → Prop} (hpre : ∀ c, ok c → ∀ g, D.pre c g)
    (hpost : ∀ c, ok c → ∀ r g, D.post c r g = g) {p : Prog S α} (hp : p.Only ok) {g : G}
    {final : α → G → Prop} (h : ∀ a, final a g) : D.Obeys p g final := by
  induction p with
  | ret a => exact h a
  | abort msg => trivial
  | diverge => trivial
  | call c k ih =>
    refine ⟨hpre c hp.1 g, fun r => ?_⟩
    rw [hpost c hp.1 r g]
    exact ih r (hp.2 r)

end Rules

/-- One step of a machine after the other. -/
def steps {α β : Type} (f : α → β → Option α) (actions : List β) (s : α) : Option α :=
  actions.foldlM f s

theorem steps_cons {α β : Type} {f : α → β → Option α} {a : β} {s s' : α} (h : f s a = some s')
    (actions : List β) : steps f (a :: actions) s = steps f actions s' := by
  rw [steps, List.foldlM_cons, h]
  rfl

theorem steps_append {α β : Type} {f : α → β → Option α} {l : List β} {s s' : α}
    (h : steps f l s = some s') (actions : List β) :
    steps f (l ++ actions) s = steps f actions s' := by
  rw [steps, List.foldlM_append]
  exact (congrArg (Option.bind · (actions.foldlM f)) h).trans rfl

/-- What every step keeps holds after the steps. -/
theorem steps_induct {α β : Type} {f : α → β → Option α} {P : α → Prop}
    (hstep : ∀ s a s', P s → f s a = some s' → P s') {actions : List β} {s s' : α}
    (h : steps f actions s = some s') (h₀ : P s) : P s' := by
  induction actions generalizing s with
  | nil =>
    obtain rfl := Option.some.inj h
    exact h₀
  | cons a actions ih =>
    obtain ⟨s₁, hs₁, h⟩ := Option.bind_eq_some_iff.mp h
    exact ih h (hstep s a s₁ h₀ hs₁)

/-- The states that a machine reaches by steps which all meet a condition. -/
inductive Reaches {α β : Type} (f : α → β → Option α) (C : α → β → Prop) (s₀ : α) : α → Prop
  | start : Reaches f C s₀ s₀
  | step {s s' : α} {a : β} : Reaches f C s₀ s → C s a → f s a = some s' → Reaches f C s₀ s'

/-- The machine whose steps are tested before they are taken. -/
def guarded {α β : Type} (c : α → β → Bool) (f : α → β → Option α) (s : α) (a : β) : Option α :=
  if c s a then f s a else none

theorem guarded_of {α β : Type} {c : α → β → Bool} {f : α → β → Option α} {s : α} {a : β}
    (h : c s a = true) : guarded c f s a = f s a := if_pos h

theorem Reaches.of_steps {α β : Type} {f : α → β → Option α} {C : α → β → Prop} {c : α → β → Bool}
    (hc : ∀ s a, c s a = true → C s a) {actions : List β} {s₀ s s' : α} (h₀ : Reaches f C s₀ s)
    (h : steps (guarded c f) actions s = some s') : Reaches f C s₀ s' := by
  induction actions generalizing s with
  | nil =>
    obtain rfl := Option.some.inj h
    exact h₀
  | cons a actions ih =>
    obtain ⟨s₁, hs₁, h⟩ := Option.bind_eq_some_iff.mp h
    obtain ⟨hca, hs₁⟩ := Option.ite_none_right_eq_some.mp hs₁
    exact ih (.step h₀ (hc s a hca) hs₁) h

/-- A run from a list of actions whose states, before every action, all meet a condition. -/
theorem Reaches.of_states {α β : Type} {f : α → β → Option α} {C : α → Prop} {actions : List β}
    {s₀ s : α} (h : ∀ l, l <+: actions → l ≠ actions → ∀ s, steps f l s₀ = some s → C s)
    (hrun : steps f actions s₀ = some s) : Reaches f (fun s _ => C s) s₀ s := by
  induction actions using List.reverseRecOn generalizing s with
  | nil =>
    obtain rfl := Option.some.inj hrun
    exact .start
  | append_singleton actions a ih =>
    rw [steps, List.foldlM_append] at hrun
    obtain ⟨s₁, hs₁, hrun⟩ := Option.bind_eq_some_iff.mp hrun
    obtain ⟨s₂, hs₂, hlast⟩ := Option.bind_eq_some_iff.mp hrun
    obtain rfl := Option.some.inj hlast
    have hpre : actions <+: actions ++ [a] := List.prefix_append ..
    refine .step (ih (fun l hl hne => h l (hl.trans hpre) ?_) hs₁) (h actions hpre ?_ s₁ hs₁) hs₂
    · rintro rfl
      have hle := hl.length_le
      rw [List.length_append, List.length_singleton] at hle
      omega
    · exact fun heq => List.cons_ne_nil a [] (List.self_eq_append_right.mp heq)

theorem reach_of_steps {α β : Type} {f : α → β → Option α} {actions : List β} {s s' : α}
    (h : steps f actions s = some s') :
    Relation.ReflTransGen (fun s s' => ∃ a, f s a = some s') s s' := by
  induction actions generalizing s with
  | nil =>
    obtain rfl := Option.some.inj h
    exact .refl
  | cons a actions ih =>
    obtain ⟨s₁, hs₁, h⟩ := Option.bind_eq_some_iff.mp h
    exact .head ⟨a, hs₁⟩ (ih h)

section Passes

variable {α : Type} {R : α → α → Prop} {a b c : α}

/-- Every run from `a` goes through `b`: one that has not come there can still come there. -/
structure Passes (R : α → α → Prop) (a b : α) : Prop where
  comes : Relation.ReflTransGen R a b
  all : ∀ c, Relation.ReflTransGen R a c →
    Relation.ReflTransGen R c b ∨ Relation.ReflTransGen R b c

theorem Passes.refl (R : α → α → Prop) (a : α) : Passes R a a := ⟨.refl, fun _ h => .inr h⟩

/-- A step without an alternative. -/
theorem Passes.head (h : Passes R b c) (hstep : ∀ d, R a d ↔ d = b) : Passes R a c := by
  have hcomes : Relation.ReflTransGen R a c := .head ((hstep b).mpr rfl) h.comes
  refine ⟨hcomes, fun d hd => ?_⟩
  rcases Relation.ReflTransGen.cases_head hd with rfl | ⟨b', hb', hd⟩
  · exact .inl hcomes
  · rw [(hstep b').mp hb'] at hd
    exact h.all d hd

end Passes

end Apue.Programs
