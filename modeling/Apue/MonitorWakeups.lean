import Apue.Monitors
import Mathlib.Algebra.BigOperators.Group.Finset.Piecewise
import Mathlib.Data.Fintype.Basic

/-!
No wake-up is lost. Between the change that makes the test of a blocked thread come true
and its wake-up stands the thread that made the change, on its way to the notification.
The first part is for notifications that reach every waiting thread, because they are
broadcast or because there is only one such thread. The second part is for signals to
threads that all wait for the same thing, of which there may be more than one.
-/
namespace Apue.Monitors

variable {P O σ A : Type}

def Ready (M : Monitor P O σ A) (o : O) (d : σ) : Prop := ∃ a, M.test o d = some (some a)

/-- The notification wakes every waiting thread; `W` are the threads that may wait. -/
def Notify.Reaches (W : P → Prop) : Notify → Prop
  | .nothing => False
  | .signal => ∀ p q, W p → W q → p = q
  | .broadcast => True

/-- The thread is on its way to a notification that reaches all. -/
def Pc.Tells (M : Monitor P O σ A) (W : P → Prop) : Pc O A → Prop
  | .inside o _ => (M.inside o).Reaches W ∨ (M.outside o).Reaches W
  | .unlock o _ | .outside o _ => (M.outside o).Reaches W
  | _ => False

/-- The thread is about to wait, or does so. -/
def Pc.Pauses : Pc O A → Prop
  | .wait _ | .blocked _ => True
  | _ => False

section Broadcast

variable [DecidableEq P]

/-- Only threads in `W` wait, and an operation after which a test comes true tells them, or
is one of a thread without which nobody waits. -/
structure Telling (M : Monitor P O σ A) (Inv : Atomic.State P O σ A → Prop) (W : P → Prop) :
    Prop where
  waits : ∀ {s : Atomic.State P O σ A} {p : P} {o : O}, Inv s → s.status p = .before o →
    M.test o s.data = some none → W p
  tells : ∀ {s s' : Atomic.State P O σ A} {p : P} {o o' : O} {a : A}, Inv s →
    Atomic.Step M s (.act p o a) s' → Ready M o' s'.data → ¬ Ready M o' s.data →
      (M.inside o).Reaches W ∨ (M.outside o).Reaches W ∨ ∀ q, W q → q = p
  quiet : ∀ {s s' : Atomic.State P O σ A} {l : Label P O A} {o : O}, Inv s →
    Atomic.Step M s l s' → (∀ p o a, l ≠ .act p o a) → Ready M o s'.data → Ready M o s.data

variable {M : Monitor P O σ A} {Inv : Atomic.State P O σ A → Prop} {W : P → Prop}
  {s s' s₀ : State P O σ A} {l : Label P O A} {tr : List (Label P O A)} {p : P}

omit [DecidableEq P] in
theorem Pc.tells_wake {pc : Pc O A} : pc.wake.Tells M W ↔ pc.Tells M W := by cases pc <;> rfl

omit [DecidableEq P] in
theorem Pc.not_waits_wake (pc : Pc O A) : ¬ pc.wake.Waits := by
  rintro ⟨o, h⟩
  cases pc <;> cases h

/-- Who waits after a notification has waited before it. -/
theorem Notifies.waits {n : Notify} {pc pc' : P → Pc O A} (h : Notifies n pc pc') {q : P} {o : O}
    (hq : pc' q = .blocked o) : pc q = .blocked o := by
  rcases h.wakes q with he | he
  · exact he.symm.trans hq
  · exact absurd ⟨o, he.symm.trans hq⟩ (Pc.not_waits_wake _)

theorem Notifies.tells {n : Notify} {pc pc' : P → Pc O A} (h : Notifies n pc pc') (q : P) :
    (pc' q).Tells M W ↔ (pc q).Tells M W := by
  rcases h.wakes q with he | he
  · rw [he]
  · rw [he, Pc.tells_wake]

/-- A notification that reaches all leaves nobody waiting. -/
theorem Notifies.nobody_waits {n : Notify} {pc pc' : P → Pc O A} (h : Notifies n pc pc')
    (hn : n.Reaches W) (hW : ∀ q, (pc q).Waits → W q) (q : P) : ¬ (pc' q).Waits := by
  cases h with
  | nothing => exact hn.elim
  | nobody hno => exact hno q
  | @one _ r hr =>
    by_cases hq : q = r
    · subst hq
      rw [Function.update_self]
      exact Pc.not_waits_wake _
    · rw [Function.update_of_ne hq]
      exact fun hw => hq (hn q r (hW q hw) (hW r hr))
  | all => exact Pc.not_waits_wake _

omit [DecidableEq P] in
theorem Pc.eq_of_wake_inside {pc : Pc O A} {o : O} {a : A} (h : pc.wake = .inside o a) :
    pc = .inside o a := by
  cases pc <;> cases h
  rfl

/-- Only its change brings a thread to where it notifies the others. -/
theorem Step.was_inside {q : P} {o : O} {a : A} (h : Step M s l s')
    (hl : ∀ p o a, l ≠ .act p o a) (hq : s'.pc q = .inside o a) : s.pc q = .inside o a := by
  have hother : ∀ {pc : P → Pc O A} {r : P} {x : Pc O A},
      Function.update pc r x q = .inside o a → x ≠ .inside o a → pc q = .inside o a :=
    fun he hx => by
    rcases update_cases he with ⟨-, he⟩ | ⟨-, he⟩
    · exact absurd he hx
    · exact he
  have hnotified : ∀ {n : Notify} {pc : P → Pc O A}, Notifies n s.pc pc → pc q = .inside o a →
      s.pc q = .inside o a := fun hn he => by
    rcases hn.wakes q with hsame | hwake
    · exact hsame.symm.trans he
    · exact Pc.eq_of_wake_inside (hwake.symm.trans he)
  cases h with
  | act hp ht hd => exact absurd rfl (hl _ _ _)
  | inside hp hn | outside hp hn => exact hnotified hn (hother hq nofun)
  | _ => exact hother hq nofun

theorem Step.was_blocked {q : P} {o : O} (h : Step M s l s') (hq : s'.pc q = .blocked o) :
    s.pc q = .blocked o ∨ s.pc q = .wait o := by
  have hother : ∀ {pc : P → Pc O A} {r : P} {x : Pc O A},
      Function.update pc r x q = .blocked o → x ≠ .blocked o → pc q = .blocked o :=
    fun he hx => by
    rcases update_cases he with ⟨-, he⟩ | ⟨-, he⟩
    · exact absurd he hx
    · exact he
  cases h with
  | wait hp =>
    rcases update_cases hq with ⟨rfl, he⟩ | ⟨-, he⟩
    · cases he
      exact .inr hp
    · exact .inl he
  | inside hp hn | outside hp hn => exact .inl (hn.waits (hother hq nofun))
  | _ => exact .inl (hother hq nofun)

/-- A thread that pauses, when another thread has gone on to `x`, did so before. -/
theorem eq_of_pauses {pc : P → Pc O A} {p q : P} {x y : Pc O A} (hx : ¬ x.Pauses)
    (h : Function.update pc p x q = y) (hy : y.Pauses) : pc q = y := by
  rcases update_cases h with ⟨-, rfl⟩ | ⟨-, h⟩
  · exact absurd hy hx
  · exact h

/-- Who tells the others still does when another thread has moved. -/
theorem tells_update {pc : P → Pc O A} {p r : P} {x : Pc O A}
    (hx : (pc p).Tells M W → x.Tells M W) (hr : (pc r).Tells M W) :
    (Function.update pc p x r).Tells M W := by
  by_cases hrp : r = p
  · subst hrp
    rw [Function.update_self]
    exact hx hr
  · rwa [Function.update_of_ne hrp]

/-- If the test of a blocked thread would come true, a notification is on its way. -/
structure Heard (M : Monitor P O σ A) (W : P → Prop) (s : State P O σ A) : Prop where
  wait : ∀ {p : P} {o : O}, s.pc p = .wait o → W p ∧ ¬ Ready M o s.data
  blocked : ∀ {p : P} {o : O}, s.pc p = .blocked o →
    W p ∧ (Ready M o s.data → ∃ q, (s.pc q).Tells M W)

omit [DecidableEq P] in
theorem Heard.of_idle (h : ∀ p, s.pc p = .idle) : Heard M W s := by
  constructor
  · intro p o hp
    rw [h p] at hp
    cases hp
  · intro p o hp
    rw [h p] at hp
    cases hp

/-- Steps of a thread that neither begins to wait nor has told the others. -/
theorem Heard.move (h : Heard M W s) {d : σ} {owner : Option P} {x : Pc O A}
    (hd : ∀ o, Ready M o d → Ready M o s.data) (hx : ¬ x.Pauses)
    (htells : (s.pc p).Tells M W → x.Tells M W) :
    Heard M W ⟨d, owner, Function.update s.pc p x⟩ := by
  constructor
  · intro q o hq
    obtain ⟨hW, hno⟩ := h.wait (eq_of_pauses hx hq trivial)
    exact ⟨hW, fun hr => hno (hd o hr)⟩
  · intro q o hq
    obtain ⟨hW, hr⟩ := h.blocked (eq_of_pauses hx hq trivial)
    refine ⟨hW, fun hready => ?_⟩
    obtain ⟨r, hr⟩ := hr (hd o hready)
    exact ⟨r, tells_update htells hr⟩

/-- The step of a thread at a notification. -/
theorem Heard.notify (h : Heard M W s) {owner : Option P} {n : Notify} {pc : P → Pc O A}
    {x : Pc O A} (hn : Notifies n s.pc pc) (hx : ¬ x.Pauses)
    (htells : (s.pc p).Tells M W → n.Reaches W ∨ x.Tells M W) :
    Heard M W ⟨s.data, owner, Function.update pc p x⟩ := by
  constructor
  · intro q o hq
    have hq' := eq_of_pauses hx hq trivial
    rcases hn.wakes q with he | he
    · exact h.wait (he.symm.trans hq')
    · refine h.wait (p := q) ?_
      rw [he] at hq'
      cases hpc : s.pc q <;> rw [hpc] at hq' <;> cases hq'
      rfl
  · intro q o hq
    have hpc := eq_of_pauses hx hq trivial
    obtain ⟨hW, hr⟩ := h.blocked (hn.waits hpc)
    refine ⟨hW, fun hready => ?_⟩
    obtain ⟨r, hr⟩ := hr hready
    by_cases hrp : r = p
    · subst hrp
      rcases htells hr with hreach | hstill
      · have hnobody := hn.nobody_waits hreach
          (fun q' hq' => by obtain ⟨o', hq'⟩ := hq'; exact (h.blocked hq').1)
        exact absurd ⟨o, hpc⟩ (hnobody q)
      · exact ⟨r, tells_update (fun _ => hstill) ((hn.tells r).mpr hr)⟩
    · refine ⟨r, ?_⟩
      change (Function.update pc p x r).Tells M W
      rw [Function.update_of_ne hrp]
      exact (hn.tells r).mpr hr

/-- The test of the thread has failed, and it still has the mutex. -/
theorem Heard.test (h : Heard M W s) {o : O} (hp : s.pc p = .test o) (hW : W p)
    (ht : M.test o s.data = some none) : Heard M W (s.go p (.wait o)) := by
  have hno : ¬ Ready M o s.data := by
    rintro ⟨a, ha⟩
    rw [ht] at ha
    cases ha
  constructor
  · intro q o' hq
    rcases update_cases hq with ⟨rfl, he⟩ | ⟨-, hq⟩
    · cases he
      exact ⟨hW, hno⟩
    · exact h.wait hq
  · intro q o' hq
    rcases update_cases hq with ⟨rfl, he⟩ | ⟨-, hq⟩
    · cases he
    · obtain ⟨hW', hr⟩ := h.blocked hq
      refine ⟨hW', fun hready => ?_⟩
      obtain ⟨r, hr⟩ := hr hready
      exact ⟨r, tells_update (fun ht' => by rw [hp] at ht'; exact ht'.elim) hr⟩

/-- The thread gives the mutex back and waits. -/
theorem Heard.block (h : Heard M W s) {o : O} (hp : s.pc p = .wait o) :
    Heard M W { s.go p (.blocked o) with owner := none } := by
  obtain ⟨hW, hno⟩ := h.wait hp
  constructor
  · intro q o' hq
    rcases update_cases hq with ⟨rfl, he⟩ | ⟨-, hq⟩
    · cases he
    · exact h.wait hq
  · intro q o' hq
    rcases update_cases hq with ⟨rfl, he⟩ | ⟨-, hq⟩
    · cases he
      exact ⟨hW, fun hready => absurd hready hno⟩
    · obtain ⟨hW', hr⟩ := h.blocked hq
      refine ⟨hW', fun hready => ?_⟩
      obtain ⟨r, hr⟩ := hr hready
      exact ⟨r, tells_update (fun ht => by rw [hp] at ht; exact ht.elim) hr⟩

/-- The change of a thread that has the mutex. -/
theorem Heard.act (h : Heard M W s) (hM : Telling M Inv W) (hinv : Inv s.atomic)
    (hex : Exclusive s) {o : O} {a : A} {d : σ} (hp : s.pc p = .test o)
    (hstep : Step M s (.act p o a) { s.go p (.inside o a) with data := d }) :
    Heard M W { s.go p (.inside o a) with data := d } := by
  have hat : Atomic.Step M s.atomic (.act p o a) _ := hstep.atomic rfl
  constructor
  · intro q o' hq
    -- a thread about to wait has the mutex as well, so it is this one
    have hq' := eq_of_pauses id hq trivial
    have hown := (hex q).mp (by rw [hq']; trivial)
    have hown' := (hex p).mp (by rw [hp]; trivial)
    obtain rfl := Option.some.inj (hown.symm.trans hown')
    rw [hp] at hq'
    cases hq'
  · intro q o' hq
    obtain ⟨hW, hr⟩ := h.blocked (eq_of_pauses id hq trivial)
    refine ⟨hW, fun hready => ?_⟩
    by_cases hbefore : Ready M o' s.data
    · obtain ⟨r, hr⟩ := hr hbefore
      exact ⟨r, tells_update (fun ht => by rw [hp] at ht; exact ht.elim) hr⟩
    · have htells : (Pc.inside o a).Tells M W → ∃ r,
          (Function.update s.pc p (.inside o a) r).Tells M W := by
        intro ht
        refine ⟨p, ?_⟩
        rwa [Function.update_self]
      rcases hM.tells hinv hat hready hbefore with ht | ht | halone
      · exact htells (.inl ht)
      · exact htells (.inr ht)
      · obtain rfl := halone q hW
        rcases update_cases hq with ⟨-, he⟩ | ⟨hne, -⟩
        · cases he
        · exact absurd rfl hne

theorem Heard.step (h : Heard M W s) (hM : Telling M Inv W) (hinv : Inv s.atomic)
    (hex : Exclusive s) (hstep : Step M s l s') : Heard M W s' := by
  have hmute : ∀ {q : P} {x y : Pc O A}, s.pc q = x → ¬ x.Tells M W →
      (s.pc q).Tells M W → y.Tells M W := fun hq hx ht => absurd (hq ▸ ht) hx
  cases id hstep with
  | call hp ha =>
    exact h.move (fun o => hM.quiet hinv (hstep.atomic rfl) fun _ _ _ he => by cases he) id
      (hmute hp id)
  | lock hp ho => exact h.move (fun _ => id) id (hmute hp id)
  | test hp ht => exact h.test hp (hM.waits hinv (congrArg Pc.status hp) ht) ht
  | act hp ht hd => exact h.act hM hinv hex hp hstep
  | wait hp => exact h.block hp
  | spurious hp => exact h.move (fun _ => id) id (hmute hp id)
  | relock hp ho => exact h.move (fun _ => id) id (hmute hp id)
  | inside hp hn => exact h.notify hn id fun ht => by rwa [hp] at ht
  | unlock hp => exact h.move (fun _ => id) id fun ht => by rwa [hp] at ht
  | outside hp hn => exact h.notify hn id fun ht => .inl (by rwa [hp] at ht)
  | ret hp hd =>
    exact h.move (fun o => hM.quiet hinv (hstep.atomic rfl) fun _ _ _ he => by cases he) id
      (hmute hp id)

/-- In every state that a run reaches, a blocked thread whose test would come true is about
to be told. -/
theorem Heard.trace (hM : Telling M Inv W) (hI : Proved M Inv) (h₀ : Heard M W s₀)
    (hinv : Inv s₀.atomic) (hex : Exclusive s₀) (h : Trace (Step M) s₀ tr s) : Heard M W s := by
  induction h with
  | nil => exact h₀
  | snoc hrun hstep ih => exact ih.step hM (hI.trace hinv hrun) (hex.trace hrun) hstep

/-- Where nothing happens any more, no blocked thread could go on. -/
theorem Heard.at_rest (h : Heard M W s) {free : P → Prop} (hrest : AtRest M free s)
    (hex : Exclusive s) (hok : ∀ q, ¬ Faults M s q) {o : O} (hp : s.pc p = .blocked o) :
    ¬ Ready M o s.data := by
  intro hready
  obtain ⟨q, hq⟩ := (h.blocked hp).2 hready
  rcases hrest.pc hex hok q with hidle | ⟨o', hblocked⟩
  · rw [hidle] at hq
    exact hq
  · rw [hblocked] at hq
    exact hq

end Broadcast

/-- The thread is about to look for one of the things that are waited for, or to signal that
there is one. -/
def Pc.Carries (M : Monitor P O σ A) (takes : O → Bool) : Pc O A → Bool
  | .lock o | .test o | .woken o => takes o
  | .inside o _ => M.inside o != .nothing || M.outside o != .nothing
  | .unlock o _ | .outside o _ => M.outside o != .nothing
  | _ => false

def Pc.load (M : Monitor P O σ A) (takes : O → Bool) (pc : Pc O A) : ℕ :=
  if pc.Carries M takes then 1 else 0

section Counting

variable [DecidableEq P] [Fintype P]

/-- How many threads look for a thing or signal one. -/
def carriers (M : Monitor P O σ A) (takes : O → Bool) (pc : P → Pc O A) : ℕ :=
  ∑ q, (pc q).load M takes

/-- The operations in `takes` wait until something is available and take it; another
operation that adds one signals. -/
structure Signalling (M : Monitor P O σ A) (Inv : Atomic.State P O σ A → Prop)
    (takes : O → Bool) (avail : σ → ℕ) : Prop where
  waits : ∀ {s : Atomic.State P O σ A} {p : P} {o : O}, Inv s → s.status p = .before o →
    M.test o s.data = some none → takes o = true ∧ avail s.data = 0
  taken : ∀ {s s' : Atomic.State P O σ A} {p : P} {o : O} {a : A}, Inv s →
    Atomic.Step M s (.act p o a) s' → takes o = true → avail s'.data + 1 ≤ avail s.data
  given : ∀ {s s' : Atomic.State P O σ A} {p : P} {o : O} {a : A}, Inv s →
    Atomic.Step M s (.act p o a) s' → takes o = false →
      avail s'.data ≤ avail s.data + (Pc.inside o a).load M takes
  quiet : ∀ {s s' : Atomic.State P O σ A} {l : Label P O A}, Inv s → Atomic.Step M s l s' →
    (∀ p o a, l ≠ .act p o a) → avail s'.data ≤ avail s.data

variable {M : Monitor P O σ A} {Inv : Atomic.State P O σ A → Prop} {takes : O → Bool}
  {avail : σ → ℕ} {s s' s₀ : State P O σ A} {l : Label P O A} {tr : List (Label P O A)} {p : P}

theorem carriers_update (M : Monitor P O σ A) (takes : O → Bool) (pc : P → Pc O A) (p : P)
    (x : Pc O A) : carriers M takes (Function.update pc p x) + (pc p).load M takes =
      carriers M takes pc + x.load M takes := by
  have hsplit : ∀ f : P → ℕ, ∑ q, f q = f p + ∑ q ∈ Finset.univ.erase p, f q :=
    fun f => (Finset.add_sum_erase Finset.univ f (Finset.mem_univ p)).symm
  have hrest : ∑ q ∈ Finset.univ.erase p, (Function.update pc p x q).load M takes =
      ∑ q ∈ Finset.univ.erase p, (pc q).load M takes := by
    refine Finset.sum_congr rfl fun q hq => ?_
    rw [Function.update_of_ne (Finset.ne_of_mem_erase hq)]
  unfold carriers
  rw [hsplit, hsplit fun q => (pc q).load M takes, hrest, Function.update_self]
  omega

/-- While a thread is blocked, everything that is available is accounted for by threads
that are about to look for it or to signal it. -/
structure Counted (M : Monitor P O σ A) (takes : O → Bool) (avail : σ → ℕ)
    (s : State P O σ A) : Prop where
  wait : ∀ {p : P} {o : O}, s.pc p = .wait o → takes o = true ∧ avail s.data = 0
  blocked : ∀ {p : P} {o : O}, s.pc p = .blocked o →
    takes o = true ∧ avail s.data ≤ carriers M takes s.pc

omit [DecidableEq P] in
theorem Counted.of_idle (h : ∀ p, s.pc p = .idle) : Counted M takes avail s := by
  constructor
  · intro p o hp
    rw [h p] at hp
    cases hp
  · intro p o hp
    rw [h p] at hp
    cases hp

theorem Counted.move (h : Counted M takes avail s) {d : σ} {owner : Option P} {x : Pc O A}
    (hx : ¬ x.Pauses) (hwait : ∀ q o, s.pc q = .wait o → avail d = 0)
    (hd : avail d + (s.pc p).load M takes ≤ avail s.data + x.load M takes) :
    Counted M takes avail ⟨d, owner, Function.update s.pc p x⟩ := by
  constructor
  · intro q o hq
    have hq' := eq_of_pauses hx hq trivial
    exact ⟨(h.wait hq').1, hwait q o hq'⟩
  · intro q o hq
    obtain ⟨ht, hle⟩ := h.blocked (eq_of_pauses hx hq trivial)
    have hcount := carriers_update M takes s.pc p x
    refine ⟨ht, ?_⟩
    change avail d ≤ carriers M takes (Function.update s.pc p x)
    omega

theorem Counted.zero (h : Counted M takes avail s) {x : Pc O A} {owner : Option P}
    (havail : avail s.data = 0) (hx : ∀ o, x = .wait o ∨ x = .blocked o → takes o = true) :
    Counted M takes avail ⟨s.data, owner, Function.update s.pc p x⟩ := by
  constructor
  · intro q o hq
    rcases update_cases hq with ⟨rfl, he⟩ | ⟨-, hq⟩
    · exact ⟨hx o (.inl he), havail⟩
    · exact h.wait hq
  · intro q o hq
    refine ⟨?_, havail.trans_le (Nat.zero_le _)⟩
    rcases update_cases hq with ⟨rfl, he⟩ | ⟨-, hq⟩
    · exact hx o (.inr he)
    · exact (h.blocked hq).1

/-- A signal takes what it carries to the thread that it wakes. -/
theorem Counted.notify (h : Counted M takes avail s) {owner : Option P} {n : Notify}
    {pc : P → Pc O A} {x : Pc O A} (hn : Notifies n s.pc pc) (hx : ¬ x.Pauses)
    (hp : ¬ (s.pc p).Waits)
    (hload : (s.pc p).load M takes ≤ (if n = .nothing then 0 else 1) + x.load M takes) :
    Counted M takes avail ⟨s.data, owner, Function.update pc p x⟩ := by
  constructor
  · intro q o hq
    have hq' := eq_of_pauses hx hq trivial
    rcases hn.wakes q with he | he
    · exact h.wait (he.symm.trans hq')
    · refine h.wait (p := q) ?_
      rw [he] at hq'
      cases hpc : s.pc q <;> rw [hpc] at hq' <;> cases hq'
      rfl
  · intro q o hq
    have hpc := eq_of_pauses hx hq trivial
    obtain ⟨ht, hle⟩ := h.blocked (hn.waits hpc)
    refine ⟨ht, ?_⟩
    change avail s.data ≤ carriers M takes (Function.update pc p x)
    cases hn with
    | nothing =>
      have hcount := carriers_update M takes s.pc p x
      rw [if_pos rfl] at hload
      omega
    | nobody hno => exact absurd ⟨o, hpc⟩ (hno q)
    | @one _ r hr =>
      obtain ⟨o', hr⟩ := hr
      have hrp : p ≠ r := fun he => hp ⟨o', he ▸ hr⟩
      have hwoken := carriers_update M takes s.pc r (s.pc r).wake
      have hcount := carriers_update M takes
        (Function.update s.pc r (s.pc r).wake) p x
      have hbefore : (s.pc r).load M takes = 0 := by rw [hr]; rfl
      have hafter : (s.pc r).wake.load M takes = 1 := by
        rw [hr]
        exact if_pos (h.blocked hr).1
      rw [Function.update_of_ne hrp] at hcount
      rw [if_neg (by decide)] at hload
      omega
    | all => exact absurd ⟨o, hpc⟩ (Pc.not_waits_wake _)

omit [DecidableEq P] [Fintype P] in
theorem load_le_one (M : Monitor P O σ A) (takes : O → Bool) (pc : Pc O A) :
    pc.load M takes ≤ 1 := by
  unfold Pc.load
  split <;> omega

omit [DecidableEq P] [Fintype P] in
/-- What a thread carries is delivered by its notification, or still to be delivered. -/
theorem load_inside (o : O) (a : A) : (Pc.inside o a).load M takes ≤
    (if M.inside o = .nothing then 0 else 1) + (Pc.unlock o a).load M takes := by
  by_cases h : M.inside o = .nothing
  · have hsame : (Pc.inside o a).Carries M takes = (Pc.unlock o a).Carries M takes := by
      simp only [Pc.Carries, h, bne_self_eq_false, Bool.false_or]
    unfold Pc.load
    rw [hsame]
    omega
  · have hone := load_le_one M takes (Pc.inside o a)
    rw [if_neg h]
    omega

omit [DecidableEq P] [Fintype P] in
theorem load_outside (o : O) (a : A) : (Pc.outside o a).load M takes ≤
    (if M.outside o = .nothing then 0 else 1) + (Pc.exit o a).load M takes := by
  by_cases h : M.outside o = .nothing
  · have hzero : (Pc.outside o a).load M takes = 0 := by
      simp only [Pc.load, Pc.Carries, h, bne_self_eq_false, Bool.false_eq_true, if_false]
    omega
  · have hone := load_le_one M takes (Pc.outside o a)
    rw [if_neg h]
    omega

theorem Counted.step (h : Counted M takes avail s) (hM : Signalling M Inv takes avail)
    (hinv : Inv s.atomic) (hex : Exclusive s) (hstep : Step M s l s') :
    Counted M takes avail s' := by
  have hload : ∀ {q : P} {x : Pc O A}, s.pc q = x → (s.pc q).load M takes = x.load M takes :=
    fun hq => congrArg (Pc.load M takes) hq
  have hle : ∀ {d : σ}, avail d ≤ avail s.data → ∀ q o, s.pc q = .wait o → avail d = 0 := by
    intro d hd q o hq
    have hzero := (h.wait hq).2
    omega
  cases id hstep with
  | call hp ha =>
    have hquiet := hM.quiet hinv (hstep.atomic rfl) fun _ _ _ he => by cases he
    refine h.move id (hle hquiet) ?_
    rw [hload hp]
    exact Nat.add_le_add hquiet (Nat.zero_le _)
  | lock hp ho => exact h.move id (hle le_rfl) (by rw [hload hp]; rfl)
  | test hp ht =>
    obtain ⟨htakes, hzero⟩ := hM.waits hinv (congrArg Pc.status hp) ht
    exact h.zero hzero fun o ho => by rcases ho with ho | ho <;> cases ho; exact htakes
  | @act p o a d hp ht hd =>
    have hat : Atomic.Step M s.atomic (.act p o a) _ := hstep.atomic rfl
    refine h.move id (fun q o' hq => ?_) ?_
    · have hown := (hex q).mp (by rw [hq]; trivial)
      have hown' := (hex p).mp (by rw [hp]; trivial)
      obtain rfl := Option.some.inj (hown.symm.trans hown')
      rw [hp] at hq
      cases hq
    · rw [hload hp]
      cases htakes : takes o with
      | true =>
        have htaken := hM.taken hinv hat htakes
        have hone : (Pc.test (A := A) o).load M takes = 1 := if_pos htakes
        change avail d + 1 ≤ avail s.data at htaken
        omega
      | false =>
        have hgiven := hM.given hinv hat htakes
        have hzero : (Pc.test (A := A) o).load M takes = 0 :=
          if_neg (by rw [Pc.Carries, htakes]; decide)
        change avail d ≤ avail s.data + _ at hgiven
        omega
  | wait hp =>
    obtain ⟨htakes, hzero⟩ := h.wait hp
    exact h.zero hzero fun o ho => by rcases ho with ho | ho <;> cases ho; exact htakes
  | spurious hp =>
    refine h.move id (hle le_rfl) ?_
    rw [hload hp]
    exact Nat.add_le_add_left (Nat.zero_le _) _
  | relock hp ho => exact h.move id (hle le_rfl) (by rw [hload hp]; rfl)
  | @inside p o a pc hp hn =>
    refine h.notify hn id ?_ ?_
    · rw [hp]
      rintro ⟨_, hw⟩
      cases hw
    · rw [hload hp]
      exact load_inside o a
  | unlock hp => exact h.move id (hle le_rfl) (by rw [hload hp]; rfl)
  | @outside p o a pc hp hn =>
    refine h.notify hn id ?_ ?_
    · rw [hp]
      rintro ⟨_, hw⟩
      cases hw
    · rw [hload hp]
      exact load_outside o a
  | ret hp hd =>
    have hquiet := hM.quiet hinv (hstep.atomic rfl) fun _ _ _ he => by cases he
    refine h.move id (hle hquiet) ?_
    rw [hload hp]
    exact Nat.add_le_add hquiet (Nat.zero_le _)

theorem Counted.trace (hM : Signalling M Inv takes avail) (hI : Proved M Inv)
    (h₀ : Counted M takes avail s₀) (hinv : Inv s₀.atomic) (hex : Exclusive s₀)
    (h : Trace (Step M) s₀ tr s) : Counted M takes avail s := by
  induction h with
  | nil => exact h₀
  | snoc hrun hstep ih => exact ih.step hM (hI.trace hinv hrun) (hex.trace hrun) hstep

/-- Where nothing happens any more and a thread is blocked, nothing is available. -/
theorem Counted.at_rest (h : Counted M takes avail s) {free : P → Prop} (hrest : AtRest M free s)
    (hex : Exclusive s) (hok : ∀ q, ¬ Faults M s q) (hp : (s.pc p).Waits) : avail s.data = 0 := by
  obtain ⟨o, hp⟩ := hp
  have hnone : carriers M takes s.pc = 0 := by
    refine Finset.sum_eq_zero fun q _ => ?_
    rcases hrest.pc hex hok q with hidle | ⟨o', hblocked⟩
    · rw [hidle]
      rfl
    · rw [hblocked]
      rfl
  have hle := (h.blocked hp).2
  omega

end Counting

end Apue.Monitors
