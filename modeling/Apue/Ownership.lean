import Mathlib.Logic.Function.Basic

/-!
Things that are handed over. Every thing that exists is in one place: in a queue, or in the
hands of one party. A party makes a thing, puts it into the queue, takes one out or gives
one up, and these are the only moves.
-/
namespace Apue.Ownership

variable {P A : Type}

/-- The things in the queue and in the hands of the parties are those that exist, and no
thing is in two places. -/
structure Owned (alive : A → Prop) (queue : List A) (hold : P → Option A) : Prop where
  queued : ∀ {a : A}, a ∈ queue → alive a
  held : ∀ {p : P} {a : A}, hold p = some a → alive a ∧ a ∉ queue
  apart : ∀ {p q : P} {a : A}, hold p = some a → hold q = some a → p = q
  placed : ∀ {a : A}, alive a → a ∈ queue ∨ ∃ p, hold p = some a

variable {alive alive' : A → Prop} {queue queue' : List A} {hold hold' : P → Option A} {p : P}
  {a : A}

theorem Owned.empty (halive : ∀ a, ¬ alive a) (hhold : ∀ p, hold p = none) :
    Owned alive [] hold where
  queued h := absurd h List.not_mem_nil
  held h := by rw [hhold] at h; cases h
  apart h := by rw [hhold] at h; cases h
  placed h := absurd h (halive _)

theorem Owned.congr (h : Owned alive queue hold) (halive : ∀ a, alive' a ↔ alive a)
    (hqueue : ∀ a, a ∈ queue' ↔ a ∈ queue) (hhold : ∀ p, hold' p = hold p) :
    Owned alive' queue' hold' := by
  obtain rfl := funext hhold
  constructor
  · exact fun ha => (halive _).mpr (h.queued ((hqueue _).mp ha))
  · intro p a hp
    obtain ⟨ha, hno⟩ := h.held hp
    exact ⟨(halive a).mpr ha, fun hq => hno ((hqueue a).mp hq)⟩
  · exact h.apart
  · intro a ha
    rcases h.placed ((halive a).mp ha) with hq | hp
    · exact .inl ((hqueue a).mpr hq)
    · exact .inr hp

section Moves

variable [DecidableEq P]

/-- After a move of `p` a thing is in its hands, or in those of another party as before. -/
theorem hold_update {x : Option A} {q : P} (h : Function.update hold p x q = some a) :
    q = p ∧ x = some a ∨ q ≠ p ∧ hold q = some a := by
  by_cases hq : q = p
  · subst hq
    rw [Function.update_self] at h
    exact .inl ⟨rfl, h⟩
  · rw [Function.update_of_ne hq] at h
    exact .inr ⟨hq, h⟩

/-- A new thing is in the hands of the party that makes it. -/
theorem Owned.make (h : Owned alive queue hold) (hp : hold p = none) (ha : ¬ alive a)
    (halive : ∀ b, alive' b ↔ b = a ∨ alive b) :
    Owned alive' queue (Function.update hold p (some a)) := by
  constructor
  · exact fun hb => (halive _).mpr (.inr (h.queued hb))
  · intro q b hq
    rcases hold_update hq with ⟨-, hx⟩ | ⟨-, hq⟩
    · obtain rfl := Option.some.inj hx
      exact ⟨(halive a).mpr (.inl rfl), fun hb => ha (h.queued hb)⟩
    · obtain ⟨hb, hno⟩ := h.held hq
      exact ⟨(halive b).mpr (.inr hb), hno⟩
  · intro q r b hq hr
    rcases hold_update hq with ⟨rfl, hx⟩ | ⟨-, hq⟩
    · obtain rfl := Option.some.inj hx
      rcases hold_update hr with ⟨rfl, -⟩ | ⟨-, hr⟩
      · rfl
      · exact absurd (h.held hr).1 ha
    · rcases hold_update hr with ⟨-, hx⟩ | ⟨-, hr⟩
      · obtain rfl := Option.some.inj hx
        exact absurd (h.held hq).1 ha
      · exact h.apart hq hr
  · intro b hb
    rcases (halive b).mp hb with rfl | hb
    · exact .inr ⟨p, Function.update_self ..⟩
    · rcases h.placed hb with hq | ⟨q, hq⟩
      · exact .inl hq
      · refine .inr ⟨q, ?_⟩
        rwa [Function.update_of_ne]
        rintro rfl
        rw [hp] at hq
        cases hq

/-- The party puts what it has into the queue. -/
theorem Owned.put (h : Owned alive queue hold) (hp : hold p = some a)
    (hqueue : ∀ b, b ∈ queue' ↔ b = a ∨ b ∈ queue) :
    Owned alive queue' (Function.update hold p none) := by
  constructor
  · intro b hb
    rcases (hqueue b).mp hb with rfl | hb
    · exact (h.held hp).1
    · exact h.queued hb
  · intro q b hq
    rcases hold_update hq with ⟨-, hx⟩ | ⟨hqp, hq⟩
    · cases hx
    · obtain ⟨hb, hno⟩ := h.held hq
      refine ⟨hb, fun hin => ?_⟩
      rcases (hqueue b).mp hin with rfl | hin
      · exact hqp (h.apart hq hp)
      · exact hno hin
  · intro q r b hq hr
    rcases hold_update hq with ⟨-, hx⟩ | ⟨-, hq⟩
    · cases hx
    · rcases hold_update hr with ⟨-, hx⟩ | ⟨-, hr⟩
      · cases hx
      · exact h.apart hq hr
  · intro b hb
    rcases h.placed hb with hq | ⟨q, hq⟩
    · exact .inl ((hqueue b).mpr (.inr hq))
    · by_cases hqp : q = p
      · subst hqp
        obtain rfl := Option.some.inj (hp.symm.trans hq)
        exact .inl ((hqueue a).mpr (.inl rfl))
      · exact .inr ⟨q, by rwa [Function.update_of_ne hqp]⟩

/-- The party takes something out of the queue. -/
theorem Owned.take (h : Owned alive queue hold) (hp : hold p = none) (ha : a ∈ queue)
    (hqueue : ∀ b, b ∈ queue' ↔ b ∈ queue ∧ b ≠ a) :
    Owned alive queue' (Function.update hold p (some a)) := by
  constructor
  · exact fun hb => h.queued ((hqueue _).mp hb).1
  · intro q b hq
    rcases hold_update hq with ⟨-, hx⟩ | ⟨-, hq⟩
    · obtain rfl := Option.some.inj hx
      exact ⟨h.queued ha, fun hb => ((hqueue a).mp hb).2 rfl⟩
    · obtain ⟨hb, hno⟩ := h.held hq
      exact ⟨hb, fun hin => hno ((hqueue b).mp hin).1⟩
  · intro q r b hq hr
    rcases hold_update hq with ⟨rfl, hx⟩ | ⟨-, hq⟩
    · obtain rfl := Option.some.inj hx
      rcases hold_update hr with ⟨rfl, -⟩ | ⟨-, hr⟩
      · rfl
      · exact absurd ha (h.held hr).2
    · rcases hold_update hr with ⟨-, hx⟩ | ⟨-, hr⟩
      · obtain rfl := Option.some.inj hx
        exact absurd ha (h.held hq).2
      · exact h.apart hq hr
  · intro b hb
    by_cases hba : b = a
    · subst hba
      exact .inr ⟨p, Function.update_self ..⟩
    · rcases h.placed hb with hq | ⟨q, hq⟩
      · exact .inl ((hqueue b).mpr ⟨hq, hba⟩)
      · refine .inr ⟨q, ?_⟩
        rwa [Function.update_of_ne]
        rintro rfl
        rw [hp] at hq
        cases hq

/-- The party gives up what it has, which is then no more. -/
theorem Owned.free (h : Owned alive queue hold) (hp : hold p = some a)
    (halive : ∀ b, alive' b ↔ alive b ∧ b ≠ a) :
    Owned alive' queue (Function.update hold p none) := by
  constructor
  · intro b hb
    refine (halive b).mpr ⟨h.queued hb, ?_⟩
    rintro rfl
    exact (h.held hp).2 hb
  · intro q b hq
    rcases hold_update hq with ⟨-, hx⟩ | ⟨hqp, hq⟩
    · cases hx
    · obtain ⟨hb, hno⟩ := h.held hq
      refine ⟨(halive b).mpr ⟨hb, ?_⟩, hno⟩
      rintro rfl
      exact hqp (h.apart hq hp)
  · intro q r b hq hr
    rcases hold_update hq with ⟨-, hx⟩ | ⟨-, hq⟩
    · cases hx
    · rcases hold_update hr with ⟨-, hx⟩ | ⟨-, hr⟩
      · cases hx
      · exact h.apart hq hr
  · intro b hb
    obtain ⟨hb, hba⟩ := (halive b).mp hb
    rcases h.placed hb with hq | ⟨q, hq⟩
    · exact .inl hq
    · refine .inr ⟨q, ?_⟩
      rwa [Function.update_of_ne]
      rintro rfl
      exact hba (Option.some.inj (hq.symm.trans hp))

end Moves

end Apue.Ownership
