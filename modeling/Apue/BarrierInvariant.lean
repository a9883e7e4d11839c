import Apue.Barrier
import Mathlib.Data.Finset.Card

/-!
The barrier in its first round. The counter and the calls that have arrived add up
to the number of threads, one thread has the mutex, and the round has either not
come to its end or one thread has ended it: then nobody begins to wait any more,
and who is still blocked will be woken up by that thread.
-/
namespace Apue.Barrier

open Programs

/-- A thread makes its second call. -/
def State.again (s : State) : Event → Bool
  | .call t => s.round t ≠ 0
  | _ => false

/-- The thread has the mutex. -/
def Pc.holding : Pc → Bool
  | .decrement => true
  | .broadcast => true
  | .unlockSerial => true
  | .test => true
  | .wait => true
  | .unlock => true
  | _ => false

/-- The call has not arrived yet. -/
def Pc.early : Pc → Bool
  | .lock => true
  | .decrement => true
  | _ => false

namespace State

/-- The round has not come to its end, or thread `t₀` has ended it. -/
def Phase (n : ℕ) (s : State) : Prop :=
  (s.count ≠ 0 ∧ s.returns = [] ∧
    ∀ t, s.thread t ≠ .broadcast ∧ s.thread t ≠ .unlockSerial ∧ s.thread t ≠ .unlock) ∨
  (s.count = 0 ∧ ∃ t₀ < n,
    (s.thread t₀ = .broadcast ∨ s.thread t₀ = .unlockSerial ∨ s.thread t₀ = .idle) ∧
    (∀ t, s.thread t = .broadcast ∨ s.thread t = .unlockSerial → t = t₀) ∧
    (∀ t, s.thread t ≠ .wait) ∧ (∀ t, s.thread t = .blocked → s.thread t₀ = .broadcast) ∧
    ∀ r t v, (r, t, v) ∈ s.returns → r = 1 ∧ v = if t = t₀ then MY_BARRIER_SERIAL_THREAD else 0)

/-- What holds in the first round. -/
structure Ok (n : ℕ) (s : State) : Prop where
  count : s.count.toNat + s.arrivals.length = n
  range : ∀ t, s.thread t ≠ .idle → t < n ∧ s.round t = 1
  arrivals : ∀ a ∈ s.arrivals, a.1 = 1 ∧ a.2 < n ∧ (s.thread a.2).early = false ∧ s.round a.2 = 1
  nodup : (s.arrivals.map Prod.snd).Nodup
  holds : ∀ t, (s.thread t).holding = true → s.owner = some t
  held : ∀ t, s.owner = some t → (s.thread t).holding = true
  phase : s.Phase n

variable {n t : ℕ} {s s' : State} {e : Event}

theorem step_eq_some (h : s.step n e = some s') : s.Enabled n e ∧ s' = s.effect e := by
  rw [step] at h
  split at h
  · exact ⟨by assumption, (Option.some.inj h).symm⟩
  · cases h

theorem ok_init {count : UInt32} (h : myBarrierInit count = .ok s) : Ok count.toNat s := by
  rw [myBarrierInit] at h
  split at h
  · cases h
  · rename_i hcount
    cases h
    exact ⟨rfl, fun t ht => absurd rfl ht, nofun, List.nodup_nil, nofun, nofun,
      Or.inl ⟨hcount, rfl, fun _ => ⟨nofun, nofun, nofun⟩⟩⟩

/-- When all calls have arrived, none is on its way. -/
theorem Ok.all_arrived (h : Ok n s) (hcount : s.count = 0) {u : ℕ} (hu : u < n) :
    (s.thread u).early = false ∧ s.round u = 1 := by
  have hlength : (s.arrivals.map Prod.snd).length = n := by
    have := h.count
    rw [hcount] at this
    rw [List.length_map]
    simpa using this
  have hsub : (s.arrivals.map Prod.snd).toFinset ⊆ Finset.range n := by
    intro v hv
    obtain ⟨a, ha, rfl⟩ := List.mem_map.mp (List.mem_toFinset.mp hv)
    exact Finset.mem_range.mpr (h.arrivals a ha).2.1
  have hall : (s.arrivals.map Prod.snd).toFinset = Finset.range n := by
    refine Finset.eq_of_subset_of_card_le hsub ?_
    rw [Finset.card_range, List.toFinset_card_of_nodup h.nodup, hlength]
  have hmem : u ∈ (s.arrivals.map Prod.snd).toFinset := hall ▸ Finset.mem_range.mpr hu
  obtain ⟨a, ha, rfl⟩ := List.mem_map.mp (List.mem_toFinset.mp hmem)
  exact (h.arrivals a ha).2.2

/-- Thread `t` goes on, and others may be woken up. -/
theorem Ok.go (h : Ok n s) (hcount : s'.count = s.count) (hround : s'.round = s.round)
    (harrivals : s'.arrivals = s.arrivals) (hactive : s.thread t ≠ .idle)
    (hother : ∀ u, u ≠ t → s'.thread u = s.thread u ∨
      (s.thread u = .blocked ∧ s'.thread u = .woken))
    (hearly : (s'.thread t).early = true → (s.thread t).early = true)
    (hself : (s'.thread t).holding = true ↔ s'.owner = some t)
    (howner : ∀ u, u ≠ t → (s'.owner = some u ↔ s.owner = some u)) (hphase : s'.Phase n) :
    Ok n s' where
  count := by rw [hcount, harrivals, h.count]
  range := by
    intro u hu
    rw [hround]
    by_cases he : u = t
    · subst he
      exact h.range u hactive
    · rcases hother u he with hu' | ⟨hu', -⟩
      · exact h.range u (hu' ▸ hu)
      · exact h.range u (by rw [hu']; nofun)
  arrivals := by
    rw [harrivals, hround]
    intro a ha
    obtain ⟨hr, hlt, hlate, hone⟩ := h.arrivals a ha
    refine ⟨hr, hlt, ?_, hone⟩
    by_cases he : a.2 = t
    · rw [he] at hlate ⊢
      rw [← Bool.not_eq_true]
      intro hc
      rw [hearly hc] at hlate
      cases hlate
    · rcases hother a.2 he with hu' | ⟨-, hu'⟩
      · rw [hu']
        exact hlate
      · rw [hu']
        rfl
  nodup := by rw [harrivals]; exact h.nodup
  holds := by
    intro u hu
    by_cases he : u = t
    · subst he
      exact hself.mp hu
    · rcases hother u he with hu' | ⟨-, hu'⟩
      · exact (howner u he).mpr (h.holds u (hu' ▸ hu))
      · rw [hu'] at hu
        cases hu
  held := by
    intro u hu
    by_cases he : u = t
    · subst he
      exact hself.mpr hu
    · have hold := h.held u ((howner u he).mp hu)
      rcases hother u he with hu' | ⟨hu', -⟩
      · rw [hu']
        exact hold
      · rw [hu'] at hold
        cases hold
  phase := hphase

theorem go_self (s : State) (t : ℕ) (pc : Pc) : (s.go t pc).thread t = pc := Function.update_self ..

theorem go_other (s : State) {t u : ℕ} (pc : Pc) (h : u ≠ t) :
    (s.go t pc).thread u = s.thread u := Function.update_of_ne h ..

/-- The phase does not change when a thread that the phase does not speak of moves to
such a place. -/
theorem Phase.go (h : s.Phase n) {pc : Pc} (hcount : s'.count = s.count)
    (hthread : s'.thread = Function.update s.thread t pc) (hreturns : s'.returns = s.returns)
    (hactive : s.thread t ≠ .idle) (hold : s.thread t ≠ .broadcast ∧ s.thread t ≠ .unlockSerial)
    (hnew : pc ≠ .broadcast ∧ pc ≠ .unlockSerial) (hunlock : pc = .unlock → s.count = 0)
    (hwait : pc = .wait ∨ pc = .blocked → s.count ≠ 0) : s'.Phase n := by
  have hother : ∀ {u pc'}, s'.thread u = pc' → u = t ∧ pc' = pc ∨ s.thread u = pc' := by
    intro u pc' hu
    rw [hthread] at hu
    by_cases he : u = t
    · subst he
      rw [Function.update_self] at hu
      exact Or.inl ⟨rfl, hu.symm⟩
    · rw [Function.update_of_ne he] at hu
      exact Or.inr hu
  rcases h with ⟨hc, hr, ht⟩ | ⟨hc, t₀, hlt, ht₀, huniq, hnowait, hblocked, hvals⟩
  · refine Or.inl ⟨hcount ▸ hc, hreturns.trans hr, fun u => ⟨fun hu => ?_, fun hu => ?_, fun hu => ?_⟩⟩
    · rcases hother hu with ⟨-, he⟩ | hu
      · exact hnew.1 he.symm
      · exact (ht u).1 hu
    · rcases hother hu with ⟨-, he⟩ | hu
      · exact hnew.2 he.symm
      · exact (ht u).2.1 hu
    · rcases hother hu with ⟨-, he⟩ | hu
      · exact hc (hunlock he.symm)
      · exact (ht u).2.2 hu
  · have hne : t₀ ≠ t := by
      rintro rfl
      rcases ht₀ with h | h | h
      · exact hold.1 h
      · exact hold.2 h
      · exact hactive h
    have hsame : s'.thread t₀ = s.thread t₀ := by rw [hthread, Function.update_of_ne hne]
    refine Or.inr ⟨hcount.trans hc, t₀, hlt, hsame.symm ▸ ht₀, fun u hu => ?_, fun u hu => ?_,
      fun u hu => ?_, hreturns ▸ hvals⟩
    · rcases hu with hu | hu
      · rcases hother hu with ⟨-, he⟩ | hu
        · exact absurd he.symm hnew.1
        · exact huniq u (Or.inl hu)
      · rcases hother hu with ⟨-, he⟩ | hu
        · exact absurd he.symm hnew.2
        · exact huniq u (Or.inr hu)
    · rcases hother hu with ⟨-, he⟩ | hu
      · exact hwait (Or.inl he.symm) hc
      · exact hnowait u hu
    · rw [hsame]
      rcases hother hu with ⟨-, he⟩ | hu
      · exact absurd hc (hwait (Or.inr he.symm))
      · exact hblocked u hu

/-- A call that is on its way is not among those that have arrived. -/
theorem Ok.ne_of_arrived (h : Ok n s) (ht : (s.thread t).early = true ∨ s.round t = 0) {a : ℕ × ℕ}
    (ha : a ∈ s.arrivals) : a.2 ≠ t := by
  rintro rfl
  obtain ⟨-, -, hlate, hone⟩ := h.arrivals a ha
  rcases ht with ht | ht
  · cases ht.symm.trans hlate
  · cases ht.symm.trans hone

theorem Ok.call (h : Ok n s) (ht : t < n) (hidle : s.thread t = .idle) (hfirst : s.round t = 0) :
    Ok n (s.effect (.call t)) := by
  have hpc : (s.effect (.call t)).thread t = .lock := go_self ..
  have hother : ∀ u, u ≠ t → (s.effect (.call t)).thread u = s.thread u := fun u hu => go_other s _ hu
  have hround : ∀ u, u ≠ t → (s.effect (.call t)).round u = s.round u :=
    fun u hu => Function.update_of_ne hu ..
  refine ⟨h.count, fun u hu => ?_, fun a ha => ?_, h.nodup, fun u hu => ?_, fun u hu => ?_, ?_⟩
  · by_cases he : u = t
    · subst he
      have hself : (s.effect (.call u)).round u = s.round u + 1 := Function.update_self ..
      exact ⟨ht, by rw [hself, hfirst]⟩
    · rw [hround u he]
      exact h.range u (hother u he ▸ hu)
  · have he := h.ne_of_arrived (Or.inr hfirst) ha
    rw [hround _ he, hother _ he]
    exact h.arrivals a ha
  · by_cases he : u = t
    · subst he
      rw [hpc] at hu
      cases hu
    · exact h.holds u (hother u he ▸ hu)
  · have hold := h.held u hu
    by_cases he : u = t
    · subst he
      rw [hidle] at hold
      cases hold
    · rw [hother u he]
      exact hold
  · rcases h.phase with ⟨hc, hr, hpcs⟩ | ⟨hc, -⟩
    · refine Or.inl ⟨hc, hr, fun u => ?_⟩
      by_cases he : u = t
      · subst he
        rw [hpc]
        exact ⟨nofun, nofun, nofun⟩
      · rw [hother u he]
        exact hpcs u
    · cases hfirst.symm.trans (h.all_arrived hc ht).2

theorem toNat_sub_one {c : UInt32} (h : c ≠ 0) : (c - 1).toNat + 1 = c.toNat := by
  have hpos : 0 < c.toNat := Nat.pos_of_ne_zero fun h0 => h (UInt32.toNat_inj.mp h0)
  have hle : (1 : UInt32) ≤ c := UInt32.le_iff_toNat_le.mpr hpos
  rw [UInt32.toNat_sub_of_le c 1 hle]
  exact Nat.sub_add_cancel hpos

theorem Ok.decrement (h : Ok n s) (ht : s.thread t = .decrement) :
    Ok n (s.effect (.decrement t)) := by
  have hearly : (s.thread t).early = true := by rw [ht]; rfl
  have howner : s.owner = some t := h.holds t (by rw [ht]; rfl)
  obtain ⟨htn, hround⟩ := h.range t (by rw [ht]; nofun)
  have hpc : (s.effect (.decrement t)).thread t = if s.count - 1 = 0 then .broadcast else .test :=
    go_self ..
  have hother : ∀ u, u ≠ t → (s.effect (.decrement t)).thread u = s.thread u :=
    fun u hu => go_other s _ hu
  obtain ⟨hc, hr, hpcs⟩ : s.count ≠ 0 ∧ s.returns = [] ∧ ∀ t, s.thread t ≠ .broadcast ∧
      s.thread t ≠ .unlockSerial ∧ s.thread t ≠ .unlock := by
    rcases h.phase with hp | ⟨hc, -⟩
    · exact hp
    · cases hearly.symm.trans (h.all_arrived hc htn).1
  have hhold : ((s.effect (.decrement t)).thread t).holding = true := by
    rw [hpc]
    split <;> rfl
  refine ⟨?_, fun u hu => ?_, fun a ha => ?_, ?_, fun u hu => ?_, fun u hu => ?_, ?_⟩
  · have hsub := toNat_sub_one hc
    have hcount := h.count
    simp only [effect, List.length_append, List.length_singleton]
    omega
  · by_cases he : u = t
    · subst he
      exact ⟨htn, hround⟩
    · exact h.range u (hother u he ▸ hu)
  · rcases List.mem_append.mp ha with ha | ha
    · rw [hother _ (h.ne_of_arrived (Or.inl hearly) ha)]
      exact h.arrivals a ha
    · obtain rfl := List.mem_singleton.mp ha
      refine ⟨hround, htn, ?_, hround⟩
      rw [hpc]
      split <;> rfl
  · simp only [effect, List.map_append, List.map_cons, List.map_nil]
    refine List.nodup_append.mpr ⟨h.nodup, List.nodup_singleton t, ?_⟩
    rintro _ hu _ hv
    obtain ⟨a, ha, rfl⟩ := List.mem_map.mp hu
    rw [List.mem_singleton.mp hv]
    exact h.ne_of_arrived (Or.inl hearly) ha
  · by_cases he : u = t
    · subst he
      exact howner
    · exact h.holds u (hother u he ▸ hu)
  · obtain rfl := Option.some.inj (howner.symm.trans hu)
    exact hhold
  · by_cases hzero : s.count - 1 = 0
    · rw [if_pos hzero] at hpc
      refine Or.inr ⟨hzero, t, htn, Or.inl hpc, fun u hu => ?_, fun u hu => ?_, fun _ _ => hpc,
        fun r u v hmem => ?_⟩
      · by_contra he
        rw [hother u he] at hu
        exact hu.elim (hpcs u).1 (hpcs u).2.1
      · by_cases he : u = t
        · subst he
          cases hpc.symm.trans hu
        · -- only one thread has the mutex
          rw [hother u he] at hu
          exact he (Option.some.inj ((h.holds u (by rw [hu]; rfl)).symm.trans howner))
      · have hnone : (r, u, v) ∈ s.returns := hmem
        rw [hr] at hnone
        cases hnone
    · rw [if_neg hzero] at hpc
      refine Or.inl ⟨hzero, hr, fun u => ?_⟩
      by_cases he : u = t
      · subst he
        rw [hpc]
        exact ⟨nofun, nofun, nofun⟩
      · rw [hother u he]
        exact hpcs u

/-- The calls that are blocked are woken up. -/
theorem Ok.broadcast (h : Ok n s) (ht : s.thread t = .broadcast) :
    Ok n (s.effect (.broadcast t)) := by
  have howner : s.owner = some t := h.holds t (by rw [ht]; rfl)
  have hpc : (s.effect (.broadcast t)).thread t = .unlockSerial := by
    simp only [effect, Function.update_self]
  have hother : ∀ u, u ≠ t → (s.effect (.broadcast t)).thread u =
      if s.thread u = .blocked then .woken else s.thread u := by
    intro u hu
    simp only [effect, Function.update_of_ne hu]
  have hback : ∀ {u pc}, (s.effect (.broadcast t)).thread u = pc → pc ≠ .woken → u ≠ t →
      s.thread u = pc ∧ pc ≠ .blocked := by
    intro u pc hu hpc he
    rw [hother u he] at hu
    split at hu
    · exact absurd hu.symm hpc
    · rename_i hblocked
      exact ⟨hu, hu ▸ hblocked⟩
  refine h.go rfl rfl rfl (by rw [ht]; nofun) (fun u hu => ?_) ?_ ?_ (fun u _ => Iff.rfl) ?_
  · rw [hother u hu]
    split
    · rename_i hblocked
      exact Or.inr ⟨hblocked, rfl⟩
    · exact Or.inl rfl
  · rw [hpc]
    exact nofun
  · rw [hpc]
    exact iff_of_true rfl howner
  · rcases h.phase with ⟨-, -, hpcs⟩ | ⟨hc, t₀, hlt, -, huniq, hnowait, -, hvals⟩
    · exact absurd ht (hpcs t).1
    · obtain rfl := huniq t (Or.inl ht)
      refine Or.inr ⟨hc, t, hlt, Or.inr (Or.inl hpc), fun u hu => ?_, fun u hu => ?_, fun u hu => ?_,
        hvals⟩
      · by_contra he
        rcases hu with hu | hu
        · exact he (huniq u (Or.inl (hback hu nofun he).1))
        · exact he (huniq u (Or.inr (hback hu nofun he).1))
      · by_cases he : u = t
        · subst he
          cases hpc.symm.trans hu
        · exact hnowait u (hback hu nofun he).1
      · by_cases he : u = t
        · subst he
          cases hpc.symm.trans hu
        · exact absurd rfl (hback hu nofun he).2

/-- A call returns; the thread that ended the round has another result than the others. -/
theorem Ok.ret (h : Ok n s) {v : ℤ} (ht : s.thread t = .unlockSerial ∧ v = MY_BARRIER_SERIAL_THREAD ∨
      s.thread t = .unlock ∧ v = 0) :
    Ok n { s.go t .idle with owner := none, returns := s.returns ++ [(s.round t, t, v)] } := by
  have hhold : (s.thread t).holding = true := by
    rcases ht with ⟨ht, -⟩ | ⟨ht, -⟩ <;> rw [ht] <;> rfl
  have hactive : s.thread t ≠ .idle := by
    intro hidle
    rw [hidle] at hhold
    cases hhold
  have howner : s.owner = some t := h.holds t hhold
  have hpc := go_self s t .idle
  refine h.go rfl rfl rfl hactive (fun u hu => Or.inl (go_other s _ hu)) ?_ ?_ (fun u hu => ?_) ?_
  · exact fun hearly => absurd hearly (by rw [hpc]; nofun)
  · rw [hpc]
    exact ⟨nofun, nofun⟩
  · rw [howner]
    exact ⟨nofun, fun he => absurd (Option.some.inj he).symm hu⟩
  · rcases h.phase with ⟨-, -, hpcs⟩ | ⟨hc, t₀, hlt, ht₀, huniq, hnowait, hblocked, hvals⟩
    · exfalso
      rcases ht with ⟨ht, -⟩ | ⟨ht, -⟩
      · exact (hpcs t).2.1 ht
      · exact (hpcs t).2.2 ht
    · have hother : ∀ {u pc}, (s.go t .idle).thread u = pc → pc ≠ .idle → s.thread u = pc := by
        intro u pc hu hne
        by_cases he : u = t
        · subst he
          exact absurd (hpc.symm.trans hu).symm hne
        · rwa [go_other s _ he] at hu
      have hvalue : v = if t = t₀ then MY_BARRIER_SERIAL_THREAD else 0 := by
        rcases ht with ⟨ht, rfl⟩ | ⟨ht, rfl⟩
        · rw [if_pos (huniq t (Or.inr ht))]
        · rw [if_neg]
          rintro rfl
          rcases ht₀ with h | h | h <;> cases ht.symm.trans h
      refine Or.inr ⟨hc, t₀, hlt, ?_, fun u hu => ?_, fun u hu => ?_, fun u hu => ?_,
        fun r u w hmem => ?_⟩
      · by_cases he : t₀ = t
        · subst he
          exact Or.inr (Or.inr hpc)
        · rw [go_other s _ he]
          exact ht₀
      · exact huniq u (hu.imp (fun h => hother h nofun) fun h => hother h nofun)
      · exact hnowait u (hother hu nofun)
      · -- nobody else is at the broadcast, which is made with the mutex
        have hb := hblocked u (hother hu nofun)
        have he : t₀ = t := Option.some.inj ((h.holds t₀ (by rw [hb]; rfl)).symm.trans howner)
        rw [he] at hb
        rcases ht with ⟨ht, -⟩ | ⟨ht, -⟩ <;> cases ht.symm.trans hb
      · rcases List.mem_append.mp hmem with hmem | hmem
        · exact hvals r u w hmem
        · have hlast := List.mem_singleton.mp hmem
          rw [Prod.mk.injEq, Prod.mk.injEq] at hlast
          obtain ⟨rfl, rfl, rfl⟩ := hlast
          exact ⟨(h.range u hactive).2, hvalue⟩

theorem Ok.step (h : Ok n s) (hs : s.step n e = some s') (hagain : s.again e = false) : Ok n s' := by
  obtain ⟨henabled, rfl⟩ := step_eq_some hs
  cases e with
  | call t =>
    rw [again, decide_eq_false_iff_not, not_not] at hagain
    exact h.call henabled.1 henabled.2 hagain
  | decrement t => exact h.decrement henabled
  | broadcast t => exact h.broadcast henabled
  | unlockSerial t => exact h.ret (Or.inl ⟨henabled, rfl⟩)
  | unlock t => exact h.ret (Or.inr ⟨henabled, rfl⟩)
  | lock t =>
    obtain ⟨ht, hfree⟩ := henabled
    have hactive : s.thread t ≠ .idle := by rw [ht]; nofun
    have hpc := go_self s t .decrement
    refine h.go rfl rfl rfl hactive (fun u hu => Or.inl (go_other s _ hu))
      (fun _ => by rw [ht]; rfl) ?_ (fun u hu => ?_)
      (h.phase.go rfl rfl rfl hactive (by rw [ht]; exact ⟨nofun, nofun⟩) ⟨nofun, nofun⟩ nofun nofun)
    · exact iff_of_true (by rw [effect, hpc]; rfl) rfl
    · rw [hfree]
      exact ⟨fun he => absurd (Option.some.inj he).symm hu, nofun⟩
  | test t =>
    have hactive : s.thread t ≠ .idle := by rw [henabled]; nofun
    have howner : s.owner = some t := h.holds t (by rw [henabled]; rfl)
    have hpc := go_self s t (if s.count > 0 then .wait else .unlock)
    refine h.go rfl rfl rfl hactive (fun u hu => Or.inl (go_other s _ hu)) ?_ ?_ (fun u _ => Iff.rfl)
      (h.phase.go rfl rfl rfl hactive (by rw [henabled]; exact ⟨nofun, nofun⟩) ?_ ?_ ?_)
    · rw [effect, hpc]
      split <;> exact nofun
    · rw [effect, hpc]
      exact iff_of_true (by split <;> rfl) howner
    · split <;> exact ⟨nofun, nofun⟩
    · split
      · exact nofun
      · rename_i hzero
        intro _
        exact UInt32.toNat_inj.mp (Nat.eq_zero_of_not_pos fun hpos =>
          hzero (UInt32.lt_iff_toNat_lt.mpr hpos))
    · split
      · rename_i hpos
        intro _ hzero
        rw [hzero] at hpos
        exact absurd hpos (by decide)
      · rintro (hw | hw) <;> cases hw
  | wait t =>
    have hactive : s.thread t ≠ .idle := by rw [henabled]; nofun
    have howner : s.owner = some t := h.holds t (by rw [henabled]; rfl)
    have hpc := go_self s t .blocked
    refine h.go rfl rfl rfl hactive (fun u hu => Or.inl (go_other s _ hu)) ?_ ?_ (fun u hu => ?_)
      (h.phase.go rfl rfl rfl hactive (by rw [henabled]; exact ⟨nofun, nofun⟩) ⟨nofun, nofun⟩ nofun
        fun _ hzero => ?_)
    · rw [effect, hpc]
      exact nofun
    · rw [effect, hpc]
      exact ⟨nofun, nofun⟩
    · rw [howner]
      exact ⟨nofun, fun he => absurd (Option.some.inj he).symm hu⟩
    · rcases h.phase with ⟨hne, -⟩ | ⟨-, t₀, -, -, -, hnowait, -⟩
      · exact hne hzero
      · exact hnowait t henabled
  | spurious t =>
    have hactive : s.thread t ≠ .idle := by rw [henabled]; nofun
    have hpc := go_self s t .woken
    refine h.go rfl rfl rfl hactive (fun u hu => Or.inl (go_other s _ hu)) ?_ ?_ (fun u _ => Iff.rfl)
      (h.phase.go rfl rfl rfl hactive (by rw [henabled]; exact ⟨nofun, nofun⟩) ⟨nofun, nofun⟩ nofun
        nofun)
    · rw [effect, hpc]
      exact nofun
    · rw [effect, hpc]
      refine ⟨nofun, fun he => ?_⟩
      have hheld := h.held t he
      rw [henabled] at hheld
      cases hheld
  | relock t =>
    obtain ⟨ht, hfree⟩ := henabled
    have hactive : s.thread t ≠ .idle := by rw [ht]; nofun
    have hpc := go_self s t .test
    refine h.go rfl rfl rfl hactive (fun u hu => Or.inl (go_other s _ hu)) ?_ ?_ (fun u hu => ?_)
      (h.phase.go rfl rfl rfl hactive (by rw [ht]; exact ⟨nofun, nofun⟩) ⟨nofun, nofun⟩ nofun nofun)
    · rw [effect, hpc]
      exact nofun
    · exact iff_of_true (by rw [effect, hpc]; rfl) rfl
    · rw [hfree]
      exact ⟨fun he => absurd (Option.some.inj he).symm hu, nofun⟩

end State

end Apue.Barrier
