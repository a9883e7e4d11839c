import Apue.Programs
import Mathlib.Logic.Relation
import Mathlib.Data.List.Basic
import Mathlib.Data.List.Induction

/-!
Processes that share a state and interleave their system calls. Each process
repeatedly starts an operation, performs its calls one at a time in any order
with the calls of the others, and returns or aborts. A configuration records
the history of the run: every event with the shared state it left.

The second half is the proof rule. A proof outline gives an invariant of the
shared state, a ghost state, and for each process a preorder `rely` that bounds
what the others may do to what it relies on. If every operation is `Safe`
against its own rely and keeps the rely of the others, the invariant holds in
every configuration that any interleaving reaches.
-/
namespace Apue.Threads

open Programs

/-- `exec p c s l r s' l'` says that process `p`, whose private state is `l`,
may perform the call `c` in the shared state `s` with the answer `r`; a call
that is blocked has no such step. `exit` is what the end of a process does to
the shared state. -/
structure Machine (S : Signature) (P O R H σ L : Type) where
  body : O → H → Prog S (H × R)
  exec : P → (c : S.Call) → σ → L → S.Ret c → σ → L → Prop
  exit : P → σ → σ
  allowed : P → O → Prop

inductive Event (S : Signature) (P O R : Type)
  | call (p : P) (o : O)
  | sys (p : P) (o : O) (c : S.Call)
  | ret (p : P) (o : O) (r : R)
  | exit (p : P) (o : O)

/-- A call of process `p`, a return of it or its end: a limit of its operations. -/
def Event.Bounds {S : Signature} {P O R : Type} (p : P) : Event S P O R → Prop
  | .call q _ => q = p
  | .ret q _ _ => q = p
  | .exit q _ => q = p
  | .sys _ _ _ => False

/-- A process between operations keeps its handle, one inside an operation
keeps the rest of its program. -/
inductive Thread (S : Signature) (O R H : Type)
  | idle (h : H)
  | busy (o : O) (prog : Prog S (H × R))
  | dead

abbrev Hist (S : Signature) (P O R σ : Type) := List (Event S P O R × σ)

structure Config (S : Signature) (P O R H σ L : Type) where
  shared : σ
  priv : P → L
  thread : P → Thread S O R H
  hist : Hist S P O R σ

variable {S : Signature} {P O R H σ L G τ : Type}

/-- No process is inside an operation: each is between two or was stopped. -/
def Config.AtRest (c : Config S P O R H σ L) : Prop := ∀ p o prog, c.thread p ≠ .busy o prog

theorem Config.atRest_of_idle {c : Config S P O R H σ L} (h : ∀ p, ∃ h, c.thread p = .idle h) :
    c.AtRest := by
  intro p o prog hp
  obtain ⟨h', hidle⟩ := h p
  cases hidle.symm.trans hp

/-- A process that is put to rest leaves the others at rest. -/
theorem Config.AtRest.update [DecidableEq P] {c c' : Config S P O R H σ L} (h : c.AtRest) {p : P}
    {t : Thread S O R H} (hthread : c'.thread = Function.update c.thread p t)
    (ht : ∀ o prog, t ≠ .busy o prog) : c'.AtRest := by
  intro q o prog hq
  rw [hthread] at hq
  by_cases hqp : q = p
  · rw [hqp, Function.update_self] at hq
    exact ht o prog hq
  · rw [Function.update_of_ne hqp] at hq
    exact h q o prog hq

theorem Config.AtRest.idle [DecidableEq P] {c c' : Config S P O R H σ L} (h : c.AtRest) {p : P}
    {a : H} (hthread : c'.thread = Function.update c.thread p (.idle a)) : c'.AtRest := by
  refine h.update hthread fun o prog ht => ?_
  cases ht

inductive Step [DecidableEq P] (M : Machine S P O R H σ L) :
    Config S P O R H σ L → Config S P O R H σ L → Prop
  | call {c : Config S P O R H σ L} {p : P} {o : O} {h : H}
      (ht : c.thread p = .idle h) (ha : M.allowed p o) :
      Step M c ⟨c.shared, c.priv, Function.update c.thread p (.busy o (M.body o h)),
        c.hist ++ [(.call p o, c.shared)]⟩
  | sys {c : Config S P O R H σ L} {p : P} {o : O} {cl : S.Call}
      {k : S.Ret cl → Prog S (H × R)} {r : S.Ret cl} {s : σ} {l : L}
      (ht : c.thread p = .busy o (.call cl k))
      (he : M.exec p cl c.shared (c.priv p) r s l) :
      Step M c ⟨s, Function.update c.priv p l, Function.update c.thread p (.busy o (k r)),
        c.hist ++ [(.sys p o cl, s)]⟩
  | ret {c : Config S P O R H σ L} {p : P} {o : O} {h : H} {r : R}
      (ht : c.thread p = .busy o (.ret (h, r))) :
      Step M c ⟨c.shared, c.priv, Function.update c.thread p (.idle h),
        c.hist ++ [(.ret p o r, c.shared)]⟩
  | exit {c : Config S P O R H σ L} {p : P} {o : O} {msg : String}
      (ht : c.thread p = .busy o (.abort msg)) :
      Step M c ⟨M.exit p c.shared, c.priv, Function.update c.thread p .dead,
        c.hist ++ [(.exit p o, M.exit p c.shared)]⟩

abbrev Reach [DecidableEq P] (M : Machine S P O R H σ L) := Relation.ReflTransGen (Step M)

/-- Only operations that are allowed run. -/
theorem reach_allowed [DecidableEq P] {M : Machine S P O R H σ L} {c₀ c : Config S P O R H σ L}
    (hr : Reach M c₀ c) (hidle : ∀ p, ∃ h, c₀.thread p = .idle h) (hhist : c₀.hist = []) :
    (∀ p o prog, c.thread p = .busy o prog → M.allowed p o) ∧
      ∀ p o cl s, (Event.sys p o cl, s) ∈ c.hist → M.allowed p o := by
  induction hr with
  | refl =>
    constructor
    · intro p o prog ht
      obtain ⟨h, hi⟩ := hidle p
      rw [hi] at ht
      cases ht
    · intro p o cl s hmem
      rw [hhist] at hmem
      cases hmem
  | @tail c₁ c₂ _ hs ih =>
    obtain ⟨hbusy, hsys⟩ := ih
    -- a thread that this step does not move, and an event that it does not add
    have hother : ∀ {q : P} {t : Thread S O R H}, (∀ o prog, t = .busy o prog → M.allowed q o) →
        ∀ p o prog, Function.update c₁.thread q t p = .busy o prog → M.allowed p o := by
      intro q t ht p o prog hp
      by_cases hpq : p = q
      · subst hpq
        rw [Function.update_self] at hp
        exact ht o prog hp
      · rw [Function.update_of_ne hpq] at hp
        exact hbusy p o prog hp
    have hadd : ∀ {e : Event S P O R} {s : σ}, (∀ p o cl, e = .sys p o cl → M.allowed p o) →
        ∀ p o cl s', (Event.sys p o cl, s') ∈ c₁.hist ++ [(e, s)] → M.allowed p o := by
      intro e s he p o cl s' hmem
      rcases List.mem_append.mp hmem with hmem | hmem
      · exact hsys p o cl s' hmem
      · exact he p o cl (Prod.mk.inj (List.mem_singleton.mp hmem)).1.symm
    cases hs with
    | @call p o h ht ha =>
      refine ⟨hother fun o' prog hb => ?_, hadd fun _ _ _ he => nomatch he⟩
      cases hb
      exact ha
    | @sys p o cl k r s l ht he =>
      refine ⟨hother fun o' prog hb => ?_, hadd fun p' o' cl' he' => ?_⟩
      · cases hb
        exact hbusy p o _ ht
      · cases he'
        exact hbusy p o _ ht
    | @ret p o h r ht =>
      exact ⟨hother (fun _ _ hb => nomatch hb), hadd (fun _ _ _ he => nomatch he)⟩
    | @exit p o msg ht =>
      exact ⟨hother (fun _ _ hb => nomatch hb), hadd (fun _ _ _ he => nomatch he)⟩

/-- What an invariant speaks about: the shared state, the history and the ghost. -/
structure World (S : Signature) (P O R σ G : Type) where
  shared : σ
  hist : Hist S P O R σ
  ghost : G

/-- The world after one more event. -/
def World.after (w : World S P O R σ G) (e : Event S P O R) (s : σ) (g : G) :
    World S P O R σ G :=
  ⟨s, w.hist ++ [(e, s)], g⟩

/-- A proof outline. `idle` is what holds of a process between operations, and
`mayDiverge` names the operations whose loops are not bounded by the outline. -/
structure Outline (M : Machine S P O R H σ L) (G : Type) where
  inv : World S P O R σ G → Prop
  rely : P → World S P O R σ G → World S P O R σ G → Prop
  idle : P → H → L → World S P O R σ G → Prop
  mayDiverge : O → Prop
  rely_refl : ∀ p w, rely p w w
  rely_trans : ∀ p a b c, rely p a b → rely p b c → rely p a c
  idle_stable : ∀ p h l a b, rely p a b → idle p h l a → idle p h l b

namespace Outline

variable {M : Machine S P O R H σ L} (Ω : Outline M G)

/-- Process `p` may move the world from `w` to `w'`: the invariant holds again
and nothing that another process relies on has changed. -/
def Moves (p : P) (w w' : World S P O R σ G) : Prop :=
  Ω.inv w' ∧ ∀ q, q ≠ p → Ω.rely q w w'

/-- From the world `w₀` in which `p` took its last step, and after whatever the
others did since, the rest of the operation keeps the outline. -/
def Safe (p : P) (o : O) : Prog S (H × R) → L → World S P O R σ G → Prop
  | .ret (h, r), l, w₀ => ∀ w, Ω.inv w → Ω.rely p w₀ w →
      ∃ g, Ω.Moves p w (w.after (.ret p o r) w.shared g) ∧
        Ω.idle p h l (w.after (.ret p o r) w.shared g)
  | .abort _, _, w₀ => ∀ w, Ω.inv w → Ω.rely p w₀ w →
      ∃ g, Ω.Moves p w (w.after (.exit p o) (M.exit p w.shared) g)
  | .diverge, _, _ => Ω.mayDiverge o
  | .call c k, l, w₀ => ∀ w, Ω.inv w → Ω.rely p w₀ w →
      ∀ r s l', M.exec p c w.shared l r s l' →
        ∃ g, Ω.Moves p w (w.after (.sys p o c) s g) ∧
          Safe p o (k r) l' (w.after (.sys p o c) s g)

/-- Every operation that may start is safe from its first call on. -/
def Starts : Prop :=
  ∀ p o h l w, Ω.inv w → Ω.idle p h l w → M.allowed p o →
    ∃ g, Ω.Moves p w (w.after (.call p o) w.shared g) ∧
      Ω.Safe p o (M.body o h) l (w.after (.call p o) w.shared g)

theorem safe_stable {p : P} {o : O} {prog : Prog S (H × R)} {l : L}
    {a b : World S P O R σ G} (hs : Ω.Safe p o prog l a) (hr : Ω.rely p a b) :
    Ω.Safe p o prog l b := by
  cases prog with
  | ret v =>
    intro w hw hb
    exact hs w hw (Ω.rely_trans _ _ _ _ hr hb)
  | abort msg =>
    intro w hw hb
    exact hs w hw (Ω.rely_trans _ _ _ _ hr hb)
  | diverge => exact hs
  | call c k =>
    intro w hw hb
    exact hs w hw (Ω.rely_trans _ _ _ _ hr hb)

/-- The rule for a part of an operation: it keeps the outline, and `post` holds
of what it returns and of the world in which it took its last step. -/
def Wp (p : P) (o : O) {α : Type} :
    Prog S α → L → World S P O R σ G → (α → L → World S P O R σ G → Prop) → Prop
  | .ret a, l, w₀, post => post a l w₀
  | .abort _, _, w₀, _ => ∀ w, Ω.inv w → Ω.rely p w₀ w →
      ∃ g, Ω.Moves p w (w.after (.exit p o) (M.exit p w.shared) g)
  | .diverge, _, _, _ => Ω.mayDiverge o
  | .call c k, l, w₀, post => ∀ w, Ω.inv w → Ω.rely p w₀ w →
      ∀ r s l', M.exec p c w.shared l r s l' →
        ∃ g, Ω.Moves p w (w.after (.sys p o c) s g) ∧
          Wp p o (k r) l' (w.after (.sys p o c) s g) post

theorem wp_bind {p : P} {o : O} {α β : Type} {prog : Prog S α} {f : α → Prog S β} {l : L}
    {w₀ : World S P O R σ G} {post : β → L → World S P O R σ G → Prop}
    (h : Ω.Wp p o prog l w₀ fun a l' w' => Ω.Wp p o (f a) l' w' post) :
    Ω.Wp p o (prog >>= f) l w₀ post := by
  induction prog generalizing l w₀ with
  | ret a => exact h
  | abort msg => exact h
  | diverge => exact h
  | call c k ih =>
    intro w hw hr r s l' he
    obtain ⟨g, hm, hk⟩ := h w hw hr r s l' he
    exact ⟨g, hm, ih r hk⟩

/-- An operation is safe if its parts are, up to the return. -/
theorem safe_of_wp {p : P} {o : O} {prog : Prog S (H × R)} {l : L} {w₀ : World S P O R σ G}
    (h : Ω.Wp p o prog l w₀ fun v l' w' => Ω.Safe p o (.ret v) l' w') :
    Ω.Safe p o prog l w₀ := by
  induction prog generalizing l w₀ with
  | ret a => exact h
  | abort msg => exact h
  | diverge => exact h
  | call c k ih =>
    intro w hw hr r s l' he
    obtain ⟨g, hm, hk⟩ := h w hw hr r s l' he
    exact ⟨g, hm, ih r hk⟩

/-- What the outline says of one process of a configuration. -/
def ThreadOk (p : P) (l : L) (w : World S P O R σ G) : Thread S O R H → Prop
  | .idle h => Ω.idle p h l w
  | .busy o prog => Ω.Safe p o prog l w
  | .dead => True

theorem threadOk_stable {p : P} {l : L} {a b : World S P O R σ G}
    {t : Thread S O R H} (ht : Ω.ThreadOk p l a t) (hr : Ω.rely p a b) :
    Ω.ThreadOk p l b t := by
  cases t with
  | idle h => exact Ω.idle_stable p h l a b hr ht
  | busy o prog => exact Ω.safe_stable ht hr
  | dead => trivial

/-- The outline holds of a configuration for some ghost state. -/
def Holds (c : Config S P O R H σ L) : Prop :=
  ∃ g, Ω.inv ⟨c.shared, c.hist, g⟩ ∧
    ∀ p, Ω.ThreadOk p (c.priv p) ⟨c.shared, c.hist, g⟩ (c.thread p)

/-- After a move of `p` the other processes are as they were, and it only
remains to see to `p` itself. -/
private theorem holds_of_moves [DecidableEq P] {c : Config S P O R H σ L} {g g' : G} {p : P}
    {s : σ} {l : L} {t : Thread S O R H} {e : Event S P O R}
    (hall : ∀ q, Ω.ThreadOk q (c.priv q) ⟨c.shared, c.hist, g⟩ (c.thread q))
    (hm : Ω.Moves p ⟨c.shared, c.hist, g⟩ (World.after ⟨c.shared, c.hist, g⟩ e s g'))
    (hp : Ω.ThreadOk p l (World.after ⟨c.shared, c.hist, g⟩ e s g') t) :
    Ω.Holds ⟨s, Function.update c.priv p l, Function.update c.thread p t,
      c.hist ++ [(e, s)]⟩ := by
  refine ⟨g', hm.1, fun q => ?_⟩
  by_cases hq : q = p
  · subst hq
    simp only [Function.update_self]
    exact hp
  · simp only [Function.update_of_ne hq]
    exact Ω.threadOk_stable (hall q) (hm.2 q hq)

theorem holds_step [DecidableEq P] (hstart : Ω.Starts) {c c' : Config S P O R H σ L}
    (hs : Step M c c') (hc : Ω.Holds c) : Ω.Holds c' := by
  obtain ⟨g, hinv, hall⟩ := hc
  cases hs with
  | @call p o h ht ha =>
    have hp := hall p
    rw [ht] at hp
    obtain ⟨g', hm, hsafe⟩ := hstart p o h _ _ hinv hp ha
    have := Ω.holds_of_moves (l := c.priv p) (t := .busy o (M.body o h)) hall hm hsafe
    simpa only [Function.update_eq_self] using this
  | @sys p o cl k r s l ht he =>
    have hp := hall p
    rw [ht] at hp
    obtain ⟨g', hm, hsafe⟩ := hp _ hinv (Ω.rely_refl _ _) r s l he
    exact Ω.holds_of_moves (t := .busy o (k r)) hall hm hsafe
  | @ret p o h r ht =>
    have hp := hall p
    rw [ht] at hp
    obtain ⟨g', hm, hidle⟩ := hp _ hinv (Ω.rely_refl _ _)
    have := Ω.holds_of_moves (l := c.priv p) (t := .idle h) hall hm hidle
    simpa only [Function.update_eq_self] using this
  | @exit p o msg ht =>
    have hp := hall p
    rw [ht] at hp
    obtain ⟨g', hm⟩ := hp _ hinv (Ω.rely_refl _ _)
    have := Ω.holds_of_moves (l := c.priv p) (t := .dead) hall hm trivial
    simpa only [Function.update_eq_self] using this

/-- The outline holds in every configuration that an interleaving reaches. -/
theorem holds_reach [DecidableEq P] (hstart : Ω.Starts) {c c' : Config S P O R H σ L}
    (hr : Reach M c c') (hc : Ω.Holds c) : Ω.Holds c' := by
  induction hr with
  | refl => exact hc
  | tail _ hs ih => exact Ω.holds_step hstart hs ih

end Outline

namespace Hist

/-- The answers given so far, in order. -/
def rets (h : Hist S P O R σ) : List (P × O × R) :=
  h.filterMap fun e => match e.1 with
    | .ret p o r => some (p, o, r)
    | _ => none

/-- The operation that process `p` has called and not yet returned from. A
process that was stopped is in none. -/
def current [DecidableEq P] (h : Hist S P O R σ) (p : P) : Option O :=
  h.foldl (fun cur e => match e.1 with
    | .call q o => if q = p then some o else cur
    | .ret q _ _ => if q = p then none else cur
    | .exit q _ => if q = p then none else cur
    | .sys _ _ _ => cur) none

/-- No process was stopped inside an operation. -/
def NoExit (h : Hist S P O R σ) : Prop :=
  ∀ e ∈ h, ∀ p o, e.1 ≠ .exit p o

theorem rets_append (h h' : Hist S P O R σ) : rets (h ++ h') = rets h ++ rets h' :=
  List.filterMap_append

theorem current_concat [DecidableEq P] (h : Hist S P O R σ) (e : Event S P O R × σ) (p : P) :
    current (h ++ [e]) p = match e.1 with
      | .call q o => if q = p then some o else current h p
      | .ret q _ _ => if q = p then none else current h p
      | .exit q _ => if q = p then none else current h p
      | .sys _ _ _ => current h p := by
  simp only [current, List.foldl_append, List.foldl_cons, List.foldl_nil]

theorem current_append [DecidableEq P] (h ext : Hist S P O R σ) {p : P}
    (hext : ∀ e ∈ ext, ¬ e.1.Bounds p) : current (h ++ ext) p = current h p := by
  induction ext using List.reverseRecOn with
  | nil => rw [List.append_nil]
  | append_singleton ext e ih =>
    rw [← List.append_assoc, current_concat, ih fun a ha => hext a (List.mem_append_left _ ha)]
    have he := hext e (List.mem_append_right _ List.mem_cons_self)
    obtain ⟨e, s⟩ := e
    cases e with
    | call q o => exact if_neg he
    | ret q o r => exact if_neg he
    | sys q o c => rfl
    | exit q o => exact if_neg he

/-- The operation that a process is in was called. -/
theorem mem_of_current [DecidableEq P] {h : Hist S P O R σ} {p : P} {o : O}
    (hcur : current h p = some o) : ∃ s, (Event.call p o, s) ∈ h := by
  induction h using List.reverseRecOn with
  | nil => cases hcur
  | append_singleton h e ih =>
    have hold : current h p = some o → ∃ s, (Event.call p o, s) ∈ h ++ [e] := fun hc => by
      obtain ⟨s, hs⟩ := ih hc
      exact ⟨s, List.mem_append_left _ hs⟩
    rw [current_concat] at hcur
    obtain ⟨e, s⟩ := e
    cases e with
    | call q a =>
      simp only at hcur
      split at hcur
      · rename_i hq
        obtain rfl := Option.some.inj hcur
        exact ⟨s, List.mem_append_right _ (hq ▸ List.mem_cons_self)⟩
      · exact hold hcur
    | ret q a r =>
      simp only at hcur
      split at hcur
      · cases hcur
      · exact hold hcur
    | sys q a c => exact hold hcur
    | exit q a =>
      simp only at hcur
      split at hcur
      · cases hcur
      · exact hold hcur

/-- A process that is in an operation is busy with it. -/
theorem busy_of_current [DecidableEq P] {M : Machine S P O R H σ L} {c₀ c : Config S P O R H σ L}
    (hr : Reach M c₀ c) (hhist : c₀.hist = []) {p : P} {o : O} (hcur : current c.hist p = some o) :
    ∃ prog, c.thread p = .busy o prog := by
  induction hr with
  | refl =>
    rw [hhist] at hcur
    cases hcur
  | @tail c₁ c₂ _ hs ih =>
    -- a step of another process changes neither the thread of `p` nor what it is in
    have hother : ∀ {q : P} {t : Thread S O R H}, q ≠ p → current c₁.hist p = some o →
        ∃ prog, Function.update c₁.thread q t p = .busy o prog := by
      intro q t hq hcur
      obtain ⟨prog, ht⟩ := ih hcur
      exact ⟨prog, (Function.update_of_ne (Ne.symm hq) _ _).trans ht⟩
    cases hs with
    | @call q a h ht ha =>
      rw [current_concat] at hcur
      simp only at hcur
      split at hcur
      · rename_i hq
        obtain rfl := Option.some.inj hcur
        subst hq
        exact ⟨_, Function.update_self _ _ _⟩
      · exact hother ‹_› hcur
    | @sys q a cl k r s l ht he =>
      rw [current_concat] at hcur
      by_cases hq : q = p
      · subst hq
        obtain ⟨prog, hbusy⟩ := ih hcur
        cases ht.symm.trans hbusy
        exact ⟨_, Function.update_self _ _ _⟩
      · exact hother hq hcur
    | @ret q a h r ht =>
      rw [current_concat] at hcur
      simp only at hcur
      split at hcur
      · cases hcur
      · exact hother ‹_› hcur
    | @exit q a msg ht =>
      rw [current_concat] at hcur
      simp only at hcur
      split at hcur
      · cases hcur
      · exact hother ‹_› hcur

theorem noExit_append (h h' : Hist S P O R σ) :
    NoExit (h ++ h') ↔ NoExit h ∧ NoExit h' := by
  simp only [NoExit, List.mem_append]
  constructor
  · intro hall
    exact ⟨fun e he => hall e (Or.inl he), fun e he => hall e (Or.inr he)⟩
  · rintro ⟨hl, hr⟩ e (he | he)
    · exact hl e he
    · exact hr e he

end Hist

namespace Machine

variable (M : Machine S P O R H σ L)

/-- Perform operations one after the other on one handle, nobody else running. -/
def runAll (handle : (c : S.Call) → τ → S.Ret c × τ) :
    List O → H → τ → Outcome (List R × H) × τ
  | [], h, t => (.ok ([], h), t)
  | o :: os, h, t =>
    match (M.body o h).run handle t with
    | (.ok (h', r), t') =>
      match runAll handle os h' t' with
      | (.ok (rs, h''), t'') => (.ok (r :: rs, h''), t'')
      | (.aborted msg, t'') => (.aborted msg, t'')
      | (.diverged, t'') => (.diverged, t'')
    | (.aborted msg, t') => (.aborted msg, t')
    | (.diverged, t') => (.diverged, t')

/-- A handler plays the machine for a process that runs alone: every call is
granted and answered as the handler does. -/
def PlayedBy (p : P) (handle : (c : S.Call) → τ → S.Ret c × τ)
    (sim : τ → σ → L → Prop) : Prop :=
  ∀ c t s l, sim t s l →
    ∃ s' l', M.exec p c s l (handle c t).1 s' l' ∧ sim (handle c t).2 s' l'

/-- A program that runs alone is a sequence of steps of its process, up to its end. -/
theorem reach_run [DecidableEq P] {p : P} {handle : (c : S.Call) → τ → S.Ret c × τ}
    {sim : τ → σ → L → Prop} (hplay : M.PlayedBy p handle sim) {o : O} {prog : Prog S (H × R)}
    {c : Config S P O R H σ L} {t t' : τ} {out : Outcome (H × R)} (ht : c.thread p = .busy o prog)
    (hsim : sim t c.shared (c.priv p)) (hrun : prog.run handle t = (out, t')) :
    ∃ c' ext, Reach M c c' ∧ c'.thread = Function.update c.thread p (.busy o out.leaf) ∧
      sim t' c'.shared (c'.priv p) ∧ (∀ q, q ≠ p → c'.priv q = c.priv q) ∧
      c'.hist = c.hist ++ ext ∧ ∀ e ∈ ext, ∃ cl, e.1 = .sys p o cl := by
  -- at a leaf nothing is left to do
  have hend : ∀ {out' : Outcome (H × R)} {c : Config S P O R H σ L},
      c.thread p = .busy o out'.leaf → sim t' c.shared (c.priv p) →
      ∃ c' ext, Reach M c c' ∧ c'.thread = Function.update c.thread p (.busy o out'.leaf) ∧
        sim t' c'.shared (c'.priv p) ∧ (∀ q, q ≠ p → c'.priv q = c.priv q) ∧
        c'.hist = c.hist ++ ext ∧ ∀ e ∈ ext, ∃ cl, e.1 = .sys p o cl := fun ht hsim =>
    ⟨_, [], .refl, (Function.update_eq_self_iff.mpr ht.symm).symm, hsim, fun _ _ => rfl,
      (List.append_nil _).symm, fun e he => absurd he List.not_mem_nil⟩
  induction prog generalizing c t with
  | ret a =>
    obtain ⟨rfl, rfl⟩ := Prod.mk.inj hrun
    exact hend ht hsim
  | abort msg =>
    obtain ⟨rfl, rfl⟩ := Prod.mk.inj hrun
    exact hend ht hsim
  | diverge =>
    obtain ⟨rfl, rfl⟩ := Prod.mk.inj hrun
    exact hend ht hsim
  | call cl k ih =>
    obtain ⟨s', l', hexec, hsim'⟩ := hplay cl t c.shared (c.priv p) hsim
    have hstep := Step.sys ht hexec
    obtain ⟨c', ext, hreach, hthread, hsim'', hpriv, hhist, hext⟩ := ih _
      (c := ⟨s', Function.update c.priv p l',
        Function.update c.thread p (.busy o (k (handle cl t).1)),
        c.hist ++ [(.sys p o cl, s')]⟩) (Function.update_self _ _ _)
      (by simp only [Function.update_self]; exact hsim') hrun
    refine ⟨c', (.sys p o cl, s') :: ext, .head hstep hreach, ?_, hsim'', fun q hq => ?_, ?_, ?_⟩
    · rw [hthread, Function.update_idem]
    · rw [hpriv q hq]
      exact Function.update_of_ne hq _ _
    · rw [hhist, List.append_assoc]
      rfl
    · intro e he
      rcases List.mem_cons.mp he with rfl | he
      · exact ⟨cl, rfl⟩
      · exact hext e he

/-- An operation that runs alone and returns. -/
theorem reach_op [DecidableEq P] {p : P} {handle : (c : S.Call) → τ → S.Ret c × τ}
    {sim : τ → σ → L → Prop} (hplay : M.PlayedBy p handle sim) {o : O} {h h' : H} {r : R}
    {c : Config S P O R H σ L} {t t' : τ} (ht : c.thread p = .idle h) (ho : M.allowed p o)
    (hsim : sim t c.shared (c.priv p)) (hrun : (M.body o h).run handle t = (.ok (h', r), t')) :
    ∃ c' ext, Reach M c c' ∧ c'.thread = Function.update c.thread p (.idle h') ∧
      sim t' c'.shared (c'.priv p) ∧ (∀ q, q ≠ p → c'.priv q = c.priv q) ∧
      c'.hist = c.hist ++ (.call p o, c.shared) :: ext ++ [(.ret p o r, c'.shared)] ∧
      ∀ e ∈ ext, ∃ cl, e.1 = .sys p o cl := by
  have hcall := Step.call ht ho
  obtain ⟨c', ext, hreach, hthread, hsim', hpriv, hhist, hext⟩ := M.reach_run hplay
    (c := ⟨c.shared, c.priv, Function.update c.thread p (.busy o (M.body o h)),
      c.hist ++ [(.call p o, c.shared)]⟩) (Function.update_self _ _ _) hsim hrun
  have hret : c'.thread p = .busy o (.ret (h', r)) := by
    rw [hthread, Function.update_self]
    rfl
  refine ⟨_, ext, .head hcall (hreach.tail (Step.ret hret)), ?_, hsim', hpriv, ?_, hext⟩
  · simp only [hthread, Function.update_idem]
  · simp only [hhist, List.append_assoc, List.cons_append, List.nil_append]

/-- An operation that runs alone and is stopped. -/
theorem reach_stop [DecidableEq P] {p : P} {handle : (c : S.Call) → τ → S.Ret c × τ}
    {sim : τ → σ → L → Prop} (hplay : M.PlayedBy p handle sim) {o : O} {h : H} {msg : String}
    {c : Config S P O R H σ L} {t t' : τ} (ht : c.thread p = .idle h) (ho : M.allowed p o)
    (hsim : sim t c.shared (c.priv p)) (hrun : (M.body o h).run handle t = (.aborted msg, t')) :
    ∃ c' s, Reach M c c' ∧ c'.thread = Function.update c.thread p .dead ∧
      c'.shared = M.exit p s ∧ sim t' s (c'.priv p) ∧ ∀ q, q ≠ p → c'.priv q = c.priv q := by
  have hcall := Step.call ht ho
  obtain ⟨c', ext, hreach, hthread, hsim', hpriv, -⟩ := M.reach_run hplay
    (c := ⟨c.shared, c.priv, Function.update c.thread p (.busy o (M.body o h)),
      c.hist ++ [(.call p o, c.shared)]⟩) (Function.update_self _ _ _) hsim hrun
  have hstop : c'.thread p = .busy o (.abort msg) := by
    rw [hthread, Function.update_self]
    rfl
  refine ⟨_, c'.shared, .head hcall (hreach.tail (Step.exit hstop)), ?_, rfl, hsim', hpriv⟩
  simp only [hthread, Function.update_idem]

end Machine

namespace Outline

variable {M : Machine S P O R H σ L} (Ω : Outline M G)
variable {p : P} {handle : (c : S.Call) → τ → S.Ret c × τ} {sim : τ → σ → L → Prop}

/-- A safe operation that runs alone and returns leaves a world of the outline;
its history is extended by calls of `p` and the return. -/
theorem run_ok (hplay : M.PlayedBy p handle sim) {o : O} {prog : Prog S (H × R)} {l : L}
    {w : World S P O R σ G} {t t' : τ} {h : H} {r : R}
    (hs : Ω.Safe p o prog l w) (hinv : Ω.inv w) (hsim : sim t w.shared l)
    (hrun : prog.run handle t = (.ok (h, r), t')) :
    ∃ w' l' ext, Ω.inv w' ∧ sim t' w'.shared l' ∧ Ω.idle p h l' w' ∧
      w'.hist = w.hist ++ ext ∧ Hist.rets ext = [(p, o, r)] ∧ Hist.NoExit ext := by
  induction prog generalizing l w t with
  | ret v =>
    obtain ⟨h₀, r₀⟩ := v
    simp only [Prog.run, Prod.mk.injEq, Outcome.ok.injEq] at hrun
    obtain ⟨⟨rfl, rfl⟩, rfl⟩ := hrun
    obtain ⟨g, hm, hidle⟩ := hs w hinv (Ω.rely_refl _ _)
    refine ⟨_, l, [(.ret p o r₀, w.shared)], hm.1, hsim, hidle, rfl, rfl, ?_⟩
    intro e he q o' heq
    simp only [List.mem_singleton] at he
    subst he
    cases heq
  | abort msg => simp [Prog.run] at hrun
  | diverge => simp [Prog.run] at hrun
  | call c k ih =>
    obtain ⟨s', l', hexec, hsim'⟩ := hplay c t w.shared l hsim
    obtain ⟨g, hm, hsafe⟩ := hs w hinv (Ω.rely_refl _ _) _ s' l' hexec
    obtain ⟨w', l'', ext, hinv', hsim'', hidle, hhist, hrets, hno⟩ :=
      ih _ hsafe hm.1 hsim' hrun
    refine ⟨w', l'', (.sys p o c, s') :: ext, hinv', hsim'', hidle, ?_, hrets, ?_⟩
    · simp only [hhist, World.after, List.append_assoc, List.cons_append, List.nil_append]
    · intro e he q o' heq
      rcases List.mem_cons.mp he with rfl | he
      · cases heq
      · exact hno e he q o' heq

/-- A safe operation that runs alone is cut off at a loop bound only where the
outline allows it. -/
theorem run_diverged (hplay : M.PlayedBy p handle sim) {o : O} {prog : Prog S (H × R)}
    {l : L} {w : World S P O R σ G} {t t' : τ}
    (hs : Ω.Safe p o prog l w) (hinv : Ω.inv w) (hsim : sim t w.shared l)
    (hrun : prog.run handle t = (.diverged, t')) : Ω.mayDiverge o := by
  induction prog generalizing l w t with
  | ret v => simp [Prog.run] at hrun
  | abort msg => simp [Prog.run] at hrun
  | diverge => exact hs
  | call c k ih =>
    obtain ⟨s', l', hexec, hsim'⟩ := hplay c t w.shared l hsim
    obtain ⟨g, hm, hsafe⟩ := hs w hinv (Ω.rely_refl _ _) _ s' l' hexec
    exact ih _ hsafe hm.1 hsim' hrun

/-- A sequence of operations that all return leaves a world of the outline, and
its history holds exactly their answers. -/
theorem runAll_ok (hplay : M.PlayedBy p handle sim) (hstart : Ω.Starts) {os : List O}
    (hallowed : ∀ o ∈ os, M.allowed p o) {h h' : H} {l : L} {w : World S P O R σ G}
    {t t' : τ} {rs : List R} (hinv : Ω.inv w) (hidle : Ω.idle p h l w)
    (hsim : sim t w.shared l) (hrun : M.runAll handle os h t = (.ok (rs, h'), t')) :
    ∃ w' l' ext, Ω.inv w' ∧ sim t' w'.shared l' ∧ Ω.idle p h' l' w' ∧
      w'.hist = w.hist ++ ext ∧ rs.length = os.length ∧
      Hist.rets ext = (os.zip rs).map (fun a => (p, a.1, a.2)) ∧ Hist.NoExit ext := by
  induction os generalizing h l w t rs with
  | nil =>
    simp only [Machine.runAll, Prod.mk.injEq, Outcome.ok.injEq] at hrun
    obtain ⟨⟨rfl, rfl⟩, rfl⟩ := hrun
    exact ⟨w, l, [], hinv, hsim, hidle, (List.append_nil _).symm, rfl, rfl,
      fun e he => absurd he List.not_mem_nil⟩
  | cons o os ih =>
    obtain ⟨g, hm, hsafe⟩ := hstart p o h l w hinv hidle (hallowed o List.mem_cons_self)
    simp only [Machine.runAll] at hrun
    split at hrun
    · rename_i h₁ r₁ t₁ hrun₁
      obtain ⟨w₁, l₁, ext₁, hinv₁, hsim₁, hidle₁, hhist₁, hrets₁, hno₁⟩ :=
        Ω.run_ok hplay hsafe hm.1 hsim hrun₁
      split at hrun
      · rename_i rs₂ h₂ t₂ hrun₂
        simp only [Prod.mk.injEq, Outcome.ok.injEq] at hrun
        obtain ⟨⟨rfl, rfl⟩, rfl⟩ := hrun
        obtain ⟨w₂, l₂, ext₂, hinv₂, hsim₂, hidle₂, hhist₂, hlen₂, hrets₂, hno₂⟩ :=
          ih (fun o' ho' => hallowed o' (List.mem_cons_of_mem _ ho')) hinv₁ hidle₁ hsim₁ hrun₂
        refine ⟨w₂, l₂, (.call p o, w.shared) :: (ext₁ ++ ext₂), hinv₂, hsim₂, hidle₂,
          ?_, congrArg (· + 1) hlen₂, ?_, ?_⟩
        · simp only [hhist₂, hhist₁, World.after, List.append_assoc, List.cons_append,
            List.nil_append]
        · have hcall : Hist.rets ((.call p o, w.shared) :: (ext₁ ++ ext₂)) =
              Hist.rets (ext₁ ++ ext₂) := rfl
          rw [hcall, Hist.rets_append, hrets₁, hrets₂]
          rfl
        · intro e he q o' heq
          rcases List.mem_cons.mp he with rfl | he
          · cases heq
          · exact (Hist.noExit_append _ _).mpr ⟨hno₁, hno₂⟩ e he q o' heq
      · simp at hrun
      · simp at hrun
    · simp at hrun
    · simp at hrun

/-- A sequence of operations is cut off at a loop bound only inside one of them
for which the outline allows it, and that one started in a world of the outline. -/
theorem runAll_diverged (hplay : M.PlayedBy p handle sim) (hstart : Ω.Starts) {os : List O}
    (hallowed : ∀ o ∈ os, M.allowed p o) {h : H} {l : L} {w : World S P O R σ G}
    {t t' : τ} (hinv : Ω.inv w) (hidle : Ω.idle p h l w)
    (hsim : sim t w.shared l) (hrun : M.runAll handle os h t = (.diverged, t')) :
    ∃ o h₁ l₁ w₁ t₁ t₂, Ω.mayDiverge o ∧ Ω.inv w₁ ∧ Ω.idle p h₁ l₁ w₁ ∧
      sim t₁ w₁.shared l₁ ∧ (M.body o h₁).run handle t₁ = (.diverged, t₂) := by
  induction os generalizing h l w t t' with
  | nil => simp [Machine.runAll] at hrun
  | cons o os ih =>
    obtain ⟨g, hm, hsafe⟩ := hstart p o h l w hinv hidle (hallowed o List.mem_cons_self)
    simp only [Machine.runAll] at hrun
    split at hrun
    · rename_i h₁ r₁ t₁ hrun₁
      obtain ⟨w₁, l₁, ext₁, hinv₁, hsim₁, hidle₁, _⟩ :=
        Ω.run_ok hplay hsafe hm.1 hsim hrun₁
      split at hrun
      · simp at hrun
      · simp at hrun
      · rename_i t₂ hrun₂
        exact ih (fun o' ho' => hallowed o' (List.mem_cons_of_mem _ ho')) hinv₁ hidle₁ hsim₁ hrun₂
    · simp at hrun
    · rename_i t₁ hrun₁
      exact ⟨o, h, l, w, t, t₁, Ω.run_diverged hplay hsafe hm.1 hsim hrun₁, hinv, hidle, hsim, hrun₁⟩

end Outline

end Apue.Threads
